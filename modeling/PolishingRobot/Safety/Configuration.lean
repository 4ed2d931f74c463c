import Mathlib.Data.List.Nodup
import Mathlib.Data.Rat.Defs
import Mathlib.Algebra.Order.Ring.Unbundled.Rat
import Mathlib.Tactic.Cases
import Mathlib.Tactic.SplitIfs

/-!
# The configuration of the safety node

The constructor reads parameters, refuses some, repairs others, and leaves
tables of named signals. What it has checked is carried by the types: signal
names are unique, address ranges are valid, every E-stop source is an input,
and the power output, if set, is an output.
-/

namespace PolishingRobot.Safety

/-- The values of the parameter server, as far as the loaders tell them apart. -/
inductive XmlRpcValue where
  | invalid
  | boolean (b : Bool)
  | int (i : Int)
  | string (s : String)
  | array (values : List XmlRpcValue)
  | struct (members : List (String × XmlRpcValue))
  | other

namespace XmlRpcValue

/-- A member of a struct. -/
def member (v : XmlRpcValue) (key : String) : Option XmlRpcValue :=
  match v with
  | struct members => members.lookup key
  | _ => none

/-- The conversions throw on another type; an unset value becomes the default. -/
def toStr : XmlRpcValue → Except String String
  | string s => .ok s
  | invalid => .ok ""
  | _ => .error "type error"

def toInt : XmlRpcValue → Except String Int
  | int i => .ok i
  | invalid => .ok 0
  | _ => .error "type error"

def toBool : XmlRpcValue → Except String Bool
  | boolean b => .ok b
  | invalid => .ok false
  | _ => .error "type error"

end XmlRpcValue

structure Signal where
  name : String
  bit : Nat
  deriving DecidableEq, Repr

/-- A list of signals with unique names. -/
structure SignalTable where
  signals : List Signal
  nodup : (signals.map Signal.name).Nodup

namespace SignalTable

def empty : SignalTable := ⟨[], by simp⟩

def names (t : SignalTable) : List String := t.signals.map Signal.name

/-- Append a signal whose name is new. -/
def push (t : SignalTable) (s : Signal) (h : s.name ∉ t.names) : SignalTable where
  signals := t.signals ++ [s]
  nodup := by
    rw [List.map_append, List.nodup_append]
    refine ⟨t.nodup, by simp, ?_⟩
    intro a ha b hb
    obtain rfl := List.mem_singleton.mp hb
    rintro rfl
    exact h ha

/-- Two entries of one name are the same entry. -/
theorem eq_of_name (t : SignalTable) {s s' : Signal} (hs : s ∈ t.signals) (hs' : s' ∈ t.signals)
    (h : s.name = s'.name) : s = s' :=
  List.inj_on_of_nodup_map t.nodup hs hs' h

end SignalTable

/-- One turn of the loop of `loadSignals`: malformed, invalid and duplicate
entries are skipped, a member of the wrong type throws. -/
def loadSignal (availableBits : Nat) (destination : SignalTable) (value : XmlRpcValue) :
    Except String SignalTable :=
  match value.member "name", value.member "bit" with
  | some nameValue, some bitValue => do
      let name ← nameValue.toStr
      let bit ← bitValue.toInt
      if name = "" ∨ '/' ∈ name.toList ∨ bit < 0 ∨ (availableBits : Int) ≤ bit then
        return destination
      if h : name ∈ destination.names then return destination
      else return destination.push ⟨name, bit.toNat⟩ h
  | _, _ => return destination

/-- `loadSignals`: the defaults stand in for an absent or wholly rejected
list, whatever the number of bits. -/
def loadSignals (parameter : Option XmlRpcValue) (defaults : SignalTable) (availableBits : Nat) :
    Except String SignalTable := do
  let destination ← match parameter with
    | some (.array values) => values.foldlM (loadSignal availableBits) .empty
    | _ => pure .empty
  return if destination.signals = [] then defaults else destination

def defaultInputs : SignalTable where
  signals := [
    ⟨"safety_emergency_1b", 1⟩, ⟨"safety_emergency_2b", 2⟩, ⟨"safety_auto_mode", 4⟩,
    ⟨"safety_manual_mode", 5⟩, ⟨"safety_reset_switch", 6⟩, ⟨"safety_brake_release_sw", 7⟩,
    ⟨"safety_bumper_front", 9⟩, ⟨"safety_bumper_rear", 10⟩]
  nodup := by decide

def defaultOutputs : SignalTable where
  signals := [⟨"motor_sto_01sr", 0⟩, ⟨"motor_sto_02sr", 1⟩, ⟨"traction_motor_power_on", 3⟩]
  nodup := by decide

def defaultConfigIoOutputs : SignalTable where
  signals := [⟨"brake_release", 16⟩]
  nodup := by decide

/-- The registered sources, name to `active_low`; every one is an input. -/
def EstopSources (inputs : SignalTable) : Type :=
  { sources : List (String × Bool) // ∀ e ∈ sources, e.1 ∈ inputs.names }

namespace EstopSources

variable {inputs : SignalTable}

def empty : EstopSources inputs := ⟨[], by simp⟩

/-- `addEstopSource`: unknown names are ignored, a known name is set anew. -/
def add (sources : EstopSources inputs) (name : String) (activeLow : Bool) :
    EstopSources inputs :=
  if h : name ∈ inputs.names then
    ⟨sources.val.filter (fun e => e.1 ≠ name) ++ [(name, activeLow)], by
      intro e he
      rcases List.mem_append.mp he with hold | hnew
      · exact sources.property e (List.mem_of_mem_filter hold)
      · obtain rfl := List.mem_singleton.mp hnew
        exact h⟩
  else sources

/-- One turn of the loop of `loadEstopSources`. -/
def load (sources : EstopSources inputs) (value : XmlRpcValue) :
    Except String (EstopSources inputs) :=
  match value.member "name" with
  | some nameValue => do
      let name ← nameValue.toStr
      let activeLow ← match value.member "active_low" with
        | some v => v.toBool
        | none => pure true
      return sources.add name activeLow
  | none => return sources

end EstopSources

/-- `loadEstopSources`: an explicit list wins, even an empty one. -/
def loadEstopSources (inputs : SignalTable) (parameter : Option XmlRpcValue) :
    Except String (EstopSources inputs) :=
  match parameter with
  | some (.array values) => values.foldlM EstopSources.load .empty
  | _ => return EstopSources.empty.add "safety_emergency_1b" true
      |>.add "safety_emergency_2b" true
      |>.add "safety_bumper_front" true
      |>.add "safety_bumper_rear" true

/-- A block of discrete inputs that one FC02 request can read. -/
structure AddressRange where
  base : Nat
  count : Nat
  base_le : base ≤ 65535
  count_pos : 0 < count
  count_le : count ≤ 2000
  fits : base + count ≤ 65536

/-- `validateAddressRange`. -/
def validateAddressRange (label : String) (base count : Int) : Except String AddressRange :=
  if h : base < 0 ∨ 65535 < base ∨ count ≤ 0 ∨ 2000 < count ∨ 65536 < base + count then
    .error (label ++ " Modbus address/count is invalid")
  else
    .ok ⟨base.toNat, count.toNat, by omega, by omega, by omega, by omega⟩

/-- The parameters with their defaults. -/
structure Parameters where
  port : Int := 502
  unitId : Int := 1
  timeout : ℚ := 1
  publishRate : ℚ := 10
  inputDiscreteBase : Int := 16384
  outputDiscreteBase : Int := 16416
  inputCount : Int := 17
  outputCount : Int := 4
  hardwareEstopPowerOutput : String := "traction_motor_power_on"
  inputs : Option XmlRpcValue := none
  outputs : Option XmlRpcValue := none
  configIoOutputs : Option XmlRpcValue := none
  hardwareEstopSources : Option XmlRpcValue := none

/-- The members after construction that polling reads. -/
structure Configuration where
  unitId : UInt8
  inputRange : AddressRange
  outputRange : AddressRange
  inputs : SignalTable
  outputs : SignalTable
  configIoOutputs : SignalTable
  estopSources : EstopSources inputs
  /-- Empty when the power condition is disabled. -/
  hardwareEstopPowerOutput : String
  power_known : hardwareEstopPowerOutput ≠ "" → hardwareEstopPowerOutput ∈ outputs.names

/-- The constructor up to the device lock: refuse or build. A power output
that is no output signal is cleared. -/
def loadConfiguration (p : Parameters) : Except String Configuration := do
  if p.unitId < 0 ∨ 255 < p.unitId then throw "unit_id must be in [0, 255]"
  let inputRange ← validateAddressRange "input" p.inputDiscreteBase p.inputCount
  let outputRange ← validateAddressRange "output" p.outputDiscreteBase p.outputCount
  if p.port ≤ 0 ∨ 65535 < p.port then throw "port must be in [1, 65535]"
  if p.timeout ≤ 0 then throw "timeout must be greater than zero"
  if p.publishRate ≤ 0 then throw "publish_rate must be greater than zero"
  let inputs ← loadSignals p.inputs defaultInputs inputRange.count
  let outputs ← loadSignals p.outputs defaultOutputs outputRange.count
  let configIoOutputs ← loadSignals p.configIoOutputs defaultConfigIoOutputs inputRange.count
  for s in configIoOutputs.signals do
    if s.name ∈ outputs.names then throw ("duplicate output signal name '" ++ s.name ++ "'")
  let estopSources ← loadEstopSources inputs p.hardwareEstopSources
  let unitId := UInt8.ofNat p.unitId.toNat
  if h : p.hardwareEstopPowerOutput ∈ outputs.names then
    return {
      unitId, inputRange, outputRange, inputs, outputs, configIoOutputs, estopSources
      hardwareEstopPowerOutput := p.hardwareEstopPowerOutput
      power_known := fun _ => h }
  else
    return {
      unitId, inputRange, outputRange, inputs, outputs, configIoOutputs, estopSources
      hardwareEstopPowerOutput := ""
      power_known := fun h => absurd rfl h }

/-- What the constructor makes of absent parameters. -/
def defaultConfiguration : Configuration where
  unitId := 1
  inputRange := ⟨16384, 17, by decide, by decide, by decide, by decide⟩
  outputRange := ⟨16416, 4, by decide, by decide, by decide, by decide⟩
  inputs := defaultInputs
  outputs := defaultOutputs
  configIoOutputs := defaultConfigIoOutputs
  estopSources := EstopSources.empty.add "safety_emergency_1b" true
    |>.add "safety_emergency_2b" true
    |>.add "safety_bumper_front" true
    |>.add "safety_bumper_rear" true
  hardwareEstopPowerOutput := "traction_motor_power_on"
  power_known := by decide

/-- The defaults are accepted. -/
example : loadConfiguration {} = .ok defaultConfiguration := by rfl

end PolishingRobot.Safety
