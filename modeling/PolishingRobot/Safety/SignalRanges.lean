import PolishingRobot.Safety.AnswerFraming
import PolishingRobot.Safety.UnifiedEstop

/-!
# Bits of the signals and lengths of the blocks

An entry of a signal list is checked against the number of bits that are read.
The built-in lists stand in for a list without a usable entry, and are not.
-/

namespace PolishingRobot.Safety

open ModbusTcpClient Runs

section Throwing

variable {ε α β : Type}

theorem bind_eq_ok {x : Except ε α} {f : α → Except ε β} {b : β} :
    x >>= f = .ok b ↔ ∃ a, x = .ok a ∧ f a = .ok b := by
  cases x with
  | error e => simp [bind, Except.bind]
  | ok a => simp [bind, Except.bind]

/-- A check that throws is passed. -/
theorem check_eq_ok {t : Prop} [Decidable t] {e : ε} {k : PUnit → Except ε β} {b : β} :
    (if t then throw e >>= k else k ⟨⟩) = .ok b ↔ ¬ t ∧ k ⟨⟩ = .ok b := by
  by_cases ht : t
  · simp [ht, throw, throwThe, MonadExceptOf.throw, bind, Except.bind]
  · simp [ht]

end Throwing

variable {bits : Nat} {t t' : SignalTable} {v : XmlRpcValue}

/-- The entry has a name and a bit that the loader takes. -/
def Usable (bits : Nat) (v : XmlRpcValue) : Prop :=
  ∃ nameValue bitValue name bit, v.member "name" = some nameValue ∧
    v.member "bit" = some bitValue ∧ nameValue.toStr = .ok name ∧ bitValue.toInt = .ok bit ∧
    ¬ (name = "" ∨ '/' ∈ name.toList ∨ bit < 0 ∨ (bits : Int) ≤ bit)

/-- The list has a usable entry. -/
def Contributes (parameter : Option XmlRpcValue) (bits : Nat) : Prop :=
  ∃ values, parameter = some (.array values) ∧ ∃ v ∈ values, Usable bits v

/-- What one entry does to the table. -/
inductive Loaded (bits : Nat) (t : SignalTable) (v : XmlRpcValue) : SignalTable → Prop
  | rejected (h : ¬ Usable bits v) : Loaded bits t v t
  | duplicate (h : Usable bits v) (hold : t.signals ≠ []) : Loaded bits t v t
  | taken (h : Usable bits v) (s : Signal) (hnew : s.name ∉ t.names) (hbit : s.bit < bits) :
      Loaded bits t v (t.push s hnew)

theorem loadSignal_loaded (h : loadSignal bits t v = .ok t') : Loaded bits t v t' := by
  unfold loadSignal at h
  cases hname : v.member "name" with
  | none =>
      simp only [hname] at h
      obtain rfl := Except.ok.inj h
      exact .rejected (by simp [Usable, hname])
  | some nameValue =>
  cases hbit : v.member "bit" with
  | none =>
      simp only [hname, hbit] at h
      obtain rfl := Except.ok.inj h
      exact .rejected (by simp [Usable, hbit])
  | some bitValue =>
  simp only [hname, hbit] at h
  obtain ⟨name, hn, h⟩ := bind_eq_ok.mp h
  obtain ⟨bit, hb, h⟩ := bind_eq_ok.mp h
  split at h
  · rename_i hbad
    obtain rfl := Except.ok.inj h
    refine .rejected ?_
    rintro ⟨nameValue', bitValue', name', bit', hname', hbit', hn', hb', hgood⟩
    obtain rfl := Option.some.inj (hname.symm.trans hname')
    obtain rfl := Option.some.inj (hbit.symm.trans hbit')
    obtain rfl := Except.ok.inj (hn.symm.trans hn')
    obtain rfl := Except.ok.inj (hb.symm.trans hb')
    exact hgood hbad
  rename_i hgood
  have husable : Usable bits v :=
    ⟨nameValue, bitValue, name, bit, hname, hbit, hn, hb, hgood⟩
  split at h
  · rename_i hold
    obtain rfl := Except.ok.inj h
    refine .duplicate husable ?_
    intro hempty
    simp [SignalTable.names, hempty] at hold
  · rename_i hnew
    obtain rfl := Except.ok.inj h
    refine .taken husable ⟨name, bit.toNat⟩ hnew ?_
    dsimp only
    omega

/-- The signals that a list contributes lie in range, and there is one if the
list has a usable entry. -/
theorem foldlM_loadSignal {values : List XmlRpcValue}
    (h : values.foldlM (loadSignal bits) t = .ok t') (ht : ∀ s ∈ t.signals, s.bit < bits) :
    (∀ s ∈ t'.signals, s.bit < bits) ∧
      (t'.signals = [] ↔ t.signals = [] ∧ ∀ v ∈ values, ¬ Usable bits v) := by
  induction values generalizing t with
  | nil =>
      obtain rfl := Except.ok.inj h
      exact ⟨ht, by simp⟩
  | cons v values ih =>
      rw [List.foldlM_cons] at h
      obtain ⟨t₁, h₁, hrest⟩ := bind_eq_ok.mp h
      cases loadSignal_loaded h₁ with
      | rejected hno =>
          obtain ⟨hrange, hempty⟩ := ih hrest ht
          exact ⟨hrange, by simp [hempty, hno]⟩
      | duplicate husable hold =>
          obtain ⟨hrange, hempty⟩ := ih hrest ht
          exact ⟨hrange, by simp [hempty, hold]⟩
      | taken husable s hnew hbit =>
          have hpushed : ∀ s' ∈ (t.push s hnew).signals, s'.bit < bits := by
            intro s' hs'
            rcases List.mem_append.mp hs' with hmem | hmem
            · exact ht s' hmem
            · obtain rfl := List.mem_singleton.mp hmem
              exact hbit
          obtain ⟨hrange, hempty⟩ := ih hrest hpushed
          refine ⟨hrange, ?_⟩
          rw [hempty]
          simp [SignalTable.push, husable]

/-- A loaded list is in range, or it is the built-in one. -/
theorem loadSignals_ok {parameter : Option XmlRpcValue} {defaults : SignalTable}
    (h : loadSignals parameter defaults bits = .ok t) :
    (Contributes parameter bits ∧ ∀ s ∈ t.signals, s.bit < bits) ∨
      (¬ Contributes parameter bits ∧ t = defaults) := by
  obtain ⟨destination, hrange, hempty, ht⟩ : ∃ destination : SignalTable,
      (∀ s ∈ destination.signals, s.bit < bits) ∧
        (destination.signals = [] ↔ ¬ Contributes parameter bits) ∧
        t = if destination.signals = [] then defaults else destination := by
    unfold loadSignals at h
    dsimp only at h
    split at h
    · rename_i values
      obtain ⟨destination, hdestination, h⟩ := bind_eq_ok.mp h
      obtain ⟨hrange, hnone⟩ := foldlM_loadSignal hdestination (by simp [SignalTable.empty])
      refine ⟨destination, hrange, ?_, (Except.ok.inj h).symm⟩
      rw [hnone]
      simp [SignalTable.empty, Contributes]
    · rename_i hlist
      refine ⟨.empty, by simp [SignalTable.empty], iff_of_true rfl ?_, (Except.ok.inj h).symm⟩
      rintro ⟨values, hvalues, -⟩
      exact hlist values hvalues
  by_cases hnone : destination.signals = []
  · rw [if_pos hnone] at ht
    exact .inr ⟨hempty.mp hnone, ht⟩
  · rw [if_neg hnone] at ht
    rw [ht]
    exact .inl ⟨not_not.mp (mt hempty.mpr hnone), hrange⟩

/-- A built-in list that is used fits the number of bits. -/
structure DefaultsFit (p : Parameters) : Prop where
  inputs : ¬ Contributes p.inputs p.inputCount.toNat → 10 < p.inputCount
  outputs : ¬ Contributes p.outputs p.outputCount.toNat → 3 < p.outputCount
  configIoOutputs : ¬ Contributes p.configIoOutputs p.inputCount.toNat → 16 < p.inputCount

/-- What the constructor has made of the parameters it accepts. -/
theorem loadConfiguration_ok {p : Parameters} {c : Configuration}
    (h : loadConfiguration p = .ok c) :
    validateAddressRange "input" p.inputDiscreteBase p.inputCount = .ok c.inputRange ∧
      validateAddressRange "output" p.outputDiscreteBase p.outputCount = .ok c.outputRange ∧
      loadSignals p.inputs defaultInputs c.inputRange.count = .ok c.inputs ∧
      loadSignals p.outputs defaultOutputs c.outputRange.count = .ok c.outputs ∧
      loadSignals p.configIoOutputs defaultConfigIoOutputs c.inputRange.count =
        .ok c.configIoOutputs := by
  unfold loadConfiguration at h
  obtain ⟨-, h⟩ := check_eq_ok.mp h
  obtain ⟨inputRange, hinput, h⟩ := bind_eq_ok.mp h
  obtain ⟨outputRange, houtput, h⟩ := bind_eq_ok.mp h
  -- The port, the timeout and the publish rate are checked next.
  obtain ⟨-, h⟩ := check_eq_ok.mp h
  obtain ⟨-, h⟩ := check_eq_ok.mp h
  obtain ⟨-, h⟩ := check_eq_ok.mp h
  obtain ⟨inputs, hinputs, h⟩ := bind_eq_ok.mp h
  obtain ⟨outputs, houtputs, h⟩ := bind_eq_ok.mp h
  obtain ⟨configIoOutputs, hconfig, h⟩ := bind_eq_ok.mp h
  obtain ⟨-, -, h⟩ := bind_eq_ok.mp h
  obtain ⟨estopSources, -, h⟩ := bind_eq_ok.mp h
  split at h
  · obtain rfl := Except.ok.inj h
    exact ⟨hinput, houtput, hinputs, houtputs, hconfig⟩
  · obtain rfl := Except.ok.inj h
    exact ⟨hinput, houtput, hinputs, houtputs, hconfig⟩

theorem validateAddressRange_count {label : String} {base count : Int} {r : AddressRange}
    (h : validateAddressRange label base count = .ok r) : (r.count : Int) = count := by
  unfold validateAddressRange at h
  split at h
  · cases h
  · rename_i hvalid
    obtain rfl := Except.ok.inj h
    dsimp only
    omega

/-- A loaded list fits the number of bits exactly if it contributes or the
built-in one fits. -/
theorem inRange_iff {parameter : Option XmlRpcValue} {defaults : SignalTable} {count : Int}
    (last : Nat) (h : loadSignals parameter defaults bits = .ok t) (hcount : (bits : Int) = count)
    (hlast : ∀ n, (∀ s ∈ defaults.signals, s.bit < n) ↔ last < n) :
    (∀ s ∈ t.signals, s.bit < bits) ↔ (¬ Contributes parameter count.toNat → last < count) := by
  obtain rfl := hcount
  rw [Int.toNat_natCast]
  rcases loadSignals_ok h with ⟨hcontributes, hrange⟩ | ⟨hno, rfl⟩
  · exact iff_of_true hrange fun hno => absurd hcontributes hno
  · rw [hlast bits]
    simp [hno]

/-- The bits of an accepted configuration are in range exactly if the built-in
lists that it uses fit. -/
theorem bitsInRange_iff {p : Parameters} {c : Configuration} (h : loadConfiguration p = .ok c) :
    c.BitsInRange ↔ DefaultsFit p := by
  obtain ⟨hinput, houtput, hinputs, houtputs, hconfig⟩ := loadConfiguration_ok h
  have hi := validateAddressRange_count hinput
  have ho := validateAddressRange_count houtput
  have hinputs' := inRange_iff 10 hinputs hi (by simp [defaultInputs]; omega)
  have houtputs' := inRange_iff 3 houtputs ho (by simp [defaultOutputs]; omega)
  have hconfig' := inRange_iff 16 hconfig hi (by simp [defaultConfigIoOutputs])
  unfold Configuration.BitsInRange
  rw [hinputs', houtputs', hconfig']
  exact ⟨fun ⟨a, b, c⟩ => ⟨a, b, c⟩, fun ⟨a, b, c⟩ => ⟨a, b, c⟩⟩

/-- The indices of the signals lie inside the vectors. -/
structure Indexed (c : Configuration) (ins outs : List UInt8) : Prop where
  inputs : ∀ s ∈ c.inputs.signals, s.bit < ins.length
  outputs : ∀ s ∈ c.outputs.signals, s.bit < outs.length
  configIoOutputs : ∀ s ∈ c.configIoOutputs.signals, s.bit < ins.length

/-- In every run of polls, a poll that reads both blocks indexes inside them. -/
def EverySignalReadable (c : Configuration) : Prop :=
  ∀ (polls : List (Exchange × Exchange)) (n : SafetyIONode) (x : Exchange × Exchange)
    (ins outs : List UInt8) (cl : ModbusTcpClient),
    run (poll c) (start c) polls = some n → readBlocks c x n.client = (some (ins, outs), cl) →
      Indexed c ins outs

theorem readBlocks_indexed {c : Configuration} (hbits : c.BitsInRange)
    {x : Exchange × Exchange} {cl cl' : ModbusTcpClient} {ins outs : List UInt8}
    (h : readBlocks c x cl = (some (ins, outs), cl')) : Indexed c ins outs := by
  obtain ⟨⟨hins, -⟩, houts, -⟩ := readBlocks_some h
  obtain ⟨hinputs, houtputs, hconfig⟩ := hbits
  rw [← hins] at hinputs hconfig
  rw [← houts] at houtputs
  exact ⟨hinputs, houtputs, hconfig⟩

/-- The network delivers the answer with these data and nothing else. -/
def answering (cl : ModbusTcpClient) (data : List UInt8) : Exchange :=
  ⟨true, true, frame (cl.transactionId + 1) cl.unitId (answerBody data)⟩

/-- A client without unread bytes can be answered. -/
theorem read_answered (r : AddressRange) (cl : ModbusTcpClient)
    (hsocket : cl.socket = none ∨ cl.socket = some []) :
    ∃ x values cl', cl.readDiscreteInputs x (UInt16.ofNat r.base) (UInt16.ofNat r.count) =
      (some values, cl') ∧ cl'.socket = some [] := by
  have hq : 1 ≤ (UInt16.ofNat r.count).toNat ∧ (UInt16.ofNat r.count).toNat ≤ 2000 := by
    have hpos := r.count_pos
    have hle := r.count_le
    rw [UInt16.toNat_ofNat']
    omega
  let data : List UInt8 := List.replicate (expectedBytes (UInt16.ofNat r.count)) 0
  have hdata : data.length = expectedBytes (UInt16.ofNat r.count) := List.length_replicate
  have hanswered : Answered (answering cl data) (UInt16.ofNat r.count) cl data [] := by
    refine ⟨hdata, rfl, framed_answerBody hq.2 hdata, ?_⟩
    rcases hsocket with hsocket | hsocket <;> simp [pending, answering, hsocket]
  exact ⟨_, _, _, readDiscreteInputs_of_answered hq hanswered, rfl⟩

/-- Some network delivers both blocks to a node that has just started. -/
theorem readBlocks_start (c : Configuration) :
    ∃ x ins outs cl, readBlocks c x (start c).client = (some (ins, outs), cl) := by
  obtain ⟨x, ins, cl, hins, hsocket⟩ := read_answered c.inputRange (start c).client (.inl rfl)
  obtain ⟨y, outs, cl', houts, -⟩ := read_answered c.outputRange cl (.inr hsocket)
  refine ⟨(x, y), ins, outs, cl', ?_⟩
  unfold readBlocks
  simp only [hins, houts]

/-- For all parameters that the constructor accepts: every signal is readable in
every run exactly if the built-in lists that stand in for lists without a usable
entry fit the blocks. -/
theorem every_signal_readable_iff (p : Parameters) (c : Configuration)
    (h : loadConfiguration p = .ok c) : EverySignalReadable c ↔ DefaultsFit p := by
  rw [← bitsInRange_iff h]
  constructor
  · intro hreadable
    obtain ⟨x, ins, outs, cl, hread⟩ := readBlocks_start c
    obtain ⟨hinputs, houtputs, hconfig⟩ := hreadable [] (start c) x ins outs cl rfl hread
    obtain ⟨⟨hins, -⟩, houts, -⟩ := readBlocks_some hread
    rw [hins] at hinputs hconfig
    rw [houts] at houtputs
    exact ⟨hinputs, houtputs, hconfig⟩
  · intro hbits polls n x ins outs cl _ hread
    exact readBlocks_indexed hbits hread

theorem every_signal_readable_iff_default :
    EverySignalReadable defaultConfiguration ↔ DefaultsFit {} :=
  every_signal_readable_iff {} defaultConfiguration rfl

/-- The defaults with ten inputs, and no lists. -/
def tenInputs : Parameters := { inputCount := 10 }

/-- What the constructor makes of them. -/
def tenInputsConfiguration : Configuration :=
  { defaultConfiguration with
    inputRange := ⟨defaultConfiguration.inputRange.base, 10,
      defaultConfiguration.inputRange.base_le, by decide, by decide, by decide⟩ }

/-- Both answers arrive. -/
def tenInputsExchange : Exchange × Exchange :=
  (⟨true, true, [0, 1, 0, 0, 0, 5, 1, 2, 2, 0xFF, 0x03]⟩,
    ⟨true, true, [0, 2, 0, 0, 0, 4, 1, 2, 1, 0x0F]⟩)

/-- The parameters are accepted, and the first poll that reads both blocks
indexes past the end of the inputs. -/
theorem default_signal_unreadable :
    loadConfiguration tenInputs = .ok tenInputsConfiguration ∧
      poll tenInputsConfiguration (start tenInputsConfiguration) tenInputsExchange = none ∧
      ¬ EverySignalReadable tenInputsConfiguration := by
  refine ⟨rfl, by decide +kernel, ?_⟩
  intro hreadable
  obtain ⟨x, ins, outs, cl, hread⟩ := readBlocks_start tenInputsConfiguration
  have hindexed := hreadable [] _ x ins outs cl rfl hread
  obtain ⟨⟨hins, -⟩, -⟩ := readBlocks_some hread
  have hrear := hindexed.inputs ⟨"safety_bumper_rear", 10⟩ (by decide)
  rw [hins] at hrear
  exact absurd hrear (by decide)

end PolishingRobot.Safety
