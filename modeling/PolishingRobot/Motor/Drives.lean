import Mathlib.Logic.Function.Basic
import PolishingRobot.Motor.Parameters
import PolishingRobot.Numbers.TowardZero

/-!
# Drives on the CAN bus

What the controller keeps about each drive, the frames it exchanges with the
drives, and what a received frame changes.
-/

namespace PolishingRobot.Motor

open Numbers

inductive Cia402State where
  | notReadyToSwitchOn
  | switchOnDisabled
  | readyToSwitchOn
  | switchedOn
  | operationEnabled
  | quickStopActive
  | faultReactionActive
  | fault
  deriving DecidableEq, Repr

/-- `get_cia402_state`: the first matching pattern decides. -/
def getCia402State (statusword : UInt16) : Cia402State :=
  let readyToSwitchOn := statusword &&& 0x01 ≠ 0
  let switchedOn := statusword &&& 0x02 ≠ 0
  let operationEnabled := statusword &&& 0x04 ≠ 0
  let fault := statusword &&& 0x08 ≠ 0
  let quickStop := statusword &&& 0x20 ≠ 0
  let switchOnDisabled := statusword &&& 0x40 ≠ 0
  if fault then .fault
  else if switchOnDisabled then .switchOnDisabled
  else if ¬ readyToSwitchOn ∧ ¬ switchedOn ∧ ¬ operationEnabled then .notReadyToSwitchOn
  else if readyToSwitchOn ∧ ¬ switchedOn ∧ ¬ operationEnabled then .readyToSwitchOn
  else if readyToSwitchOn ∧ switchedOn ∧ ¬ operationEnabled then .switchedOn
  else if readyToSwitchOn ∧ switchedOn ∧ operationEnabled then .operationEnabled
  else if ¬ quickStop ∧ operationEnabled then .quickStopActive
  else .notReadyToSwitchOn

def nmtStartRemoteNode : UInt8 := 0x01
def nmtResetCommunication : UInt8 := 0x82

namespace Controlword

def shutdown : UInt16 := 0x0006
def switchOn : UInt16 := 0x0007
def enableOperation : UInt16 := 0x000F
def faultReset : UInt16 := 0x0080

end Controlword

/-- What the controller writes. The target velocity of an RPDO2 is `none` where
the source's cast to `int32_t` is undefined. -/
inductive CanMessage where
  | nmt (command : UInt8) (node : NodeId)
  | sdo (node : NodeId) (payload : List UInt8)
  | rpdo1 (node : NodeId) (controlword : UInt16) (mode : UInt8)
  | rpdo2 (node : NodeId) (targetVelocity : Option Int32)
  | sync
  deriving DecidableEq, Repr

/-- The cast of a float to `int32_t`: toward zero, undefined outside the range. -/
def truncToInt32 (q : ℚ) : Option Int32 :=
  let i := q.num.tdiv q.den
  if -2 ^ 31 ≤ i ∧ i < 2 ^ 31 then some (Int32.ofInt i) else none

/-- The cast is defined up to less than one beyond the range. -/
theorem truncToInt32_range (q : ℚ) :
    (-2 ^ 31 ≤ towardZero q ∧ towardZero q < 2 ^ 31) ↔ -2 ^ 31 - 1 < q ∧ q < 2 ^ 31 := by
  have hcast : ((2 ^ 31 : ℤ) : ℚ) = 2 ^ 31 := by norm_num
  rw [← hcast]
  exact towardZero_mem_iff (by norm_num) q

theorem truncToInt32_eq_some_iff {q : ℚ} {k : Int32} :
    truncToInt32 q = some k ↔ (-2 ^ 31 - 1 < q ∧ q < 2 ^ 31) ∧ k.toInt = towardZero q := by
  rw [← truncToInt32_range]
  unfold truncToInt32
  rw [towardZero_rat]
  dsimp only
  split
  · rename_i h
    have hk : (Int32.ofInt (towardZero q)).toInt = towardZero q :=
      Int32.toInt_ofInt_of_le h.1 h.2
    rw [Option.some.injEq, ← Int32.toInt_inj, hk]
    exact ⟨fun hq => ⟨h, hq.symm⟩, fun hq => hq.2.symm⟩
  · rename_i h
    constructor
    · intro hq
      cases hq
    · intro hq
      exact absurd hq.1 h

theorem truncToInt32_isSome {q : ℚ} (h : -2 ^ 31 - 1 < q ∧ q < 2 ^ 31) :
    ∃ k, truncToInt32 q = some k := by
  have hrange := (truncToInt32_range q).mpr h
  exact ⟨Int32.ofInt (towardZero q),
    truncToInt32_eq_some_iff.mpr ⟨h, Int32.toInt_ofInt_of_le hrange.1 hrange.2⟩⟩

/-- Counts per rpm: 512 * 10000 / 1875. -/
def countsPerRpm : ℚ := 273066 / 100

theorem countsPerRpm_pos : 0 < countsPerRpm := by norm_num [countsPerRpm]

/-- `send_velocity_command`. -/
def sendVelocityCommand (node : NodeId) (rpm : Rpm) : CanMessage :=
  .rpdo2 node (truncToInt32 (rpm * countsPerRpm))

theorem sendVelocityCommand_zero (node : NodeId) :
    sendVelocityCommand node 0 = .rpdo2 node (some 0) := by
  simp [sendVelocityCommand, truncToInt32]

/-- The four bytes of a word, low byte first. -/
def bytes32 (v : UInt32) : List UInt8 :=
  [v.toUInt8, (v >>> 8).toUInt8, (v >>> 16).toUInt8, (v >>> 24).toUInt8]

/-- An SDO download: command specifier, index, subindex and four data bytes. -/
def sdoDownload (specifier : UInt8) (index : UInt16) (subIndex : UInt8) (data : UInt32) :
    List UInt8 :=
  [specifier, index.toUInt8, (index >>> 8).toUInt8, subIndex] ++ bytes32 data

/-- `setup_pdo_mapping`: disable the PDO, make it synchronous, clear the
mapping, map the objects from subindex 1 on, set their number, enable it. -/
def setupPdoMapping (node : NodeId) (commParamIndex mapParamIndex : UInt16) (cobIdBase : UInt32)
    (mappedObjects : List UInt32) : List (List UInt8) :=
  let cobId := cobIdBase + node.toUInt32
  [sdoDownload 0x23 commParamIndex 1 (0x80000000 ||| cobId),
    sdoDownload 0x2F commParamIndex 2 1,
    sdoDownload 0x2F mapParamIndex 0 0] ++
  mappedObjects.zipIdx.map
    (fun p => sdoDownload 0x23 mapParamIndex (UInt8.ofNat (p.2 + 1)) p.1) ++
  [sdoDownload 0x2F mapParamIndex 0 (UInt8.ofNat mappedObjects.length).toUInt32,
    sdoDownload 0x23 commParamIndex 1 cobId]

/-- The five mappings of `configure_node`. -/
def pdoMappings (node : NodeId) : List (List UInt8) :=
  setupPdoMapping node 0x1400 0x1600 0x200 [0x60400010, 0x60600008] ++
  setupPdoMapping node 0x1401 0x1601 0x300 [0x60FF0020] ++
  setupPdoMapping node 0x1800 0x1A00 0x180 [0x60410010, 0x60610008] ++
  setupPdoMapping node 0x1801 0x1A01 0x280 [0x606C0020, 0x60640020] ++
  setupPdoMapping node 0x1802 0x1A02 0x380 [0x60790010, 0x60780010, 0x26010010, 0x26020010]

structure MotorState where
  voltage : UInt16 := 0
  errorCode : UInt16 := 0
  statusFlags : UInt16 := 0
  currentA : Int16 := 0
  lastAlarmCode : UInt16 := 0
  targetVelocityRpm : Rpm := 0
  /-- In counts, as received; `get_feedback_velocity` converts. -/
  feedbackVelocity : Int32 := 0
  feedbackPosition : Int32 := 0
  lastFeedbackTime : Time := 0
  needsReinit : Bool := false
  reinitSuppressUntil : Time := 0

/-- The map `motor_states_`. Its keys are the configured nodes and never
change; only entries of configured nodes are read. -/
abbrev Drives := NodeId → MotorState

namespace Drives

variable (d : Drives) (node : NodeId) (now : Time)

def stateOf : Cia402State := getCia402State (d node).statusFlags

/-- `is_operation_enabled`. -/
def isOperationEnabled : Bool := d.stateOf node = .operationEnabled

/-- The target that the resend loop reads. -/
def target : Rpm := (d node).targetVelocityRpm

/-- The store of `set_target_velocity`. -/
def storeTarget (rpm : Rpm) : Drives :=
  Function.update d node { d node with targetVelocityRpm := rpm }

/-- The first locked block of `configure_node`. -/
def beginConfigure : Drives :=
  Function.update d node { d node with
    reinitSuppressUntil := now + 5
    needsReinit := false
    statusFlags := 0
    targetVelocityRpm := 0 }

def stampFeedback : Drives :=
  Function.update d node { d node with lastFeedbackTime := now }

/-- The loop of `init` that stamps every drive. -/
def stampAll (nodes : List NodeId) : Drives :=
  nodes.foldl (fun d node => d.stampFeedback node now) d

/-- `request_reinit` of a configured node; ignored inside the suppression window. -/
def requestReinit : Drives :=
  if now < (d node).reinitSuppressUntil then d
  else Function.update d node { d node with needsReinit := true }

/-- `get_feedback_age_sec`. -/
def feedbackAge : Time := now - (d node).lastFeedbackTime

/-- `get_feedback_velocity`: node 2 is mounted the other way round. -/
def feedbackVelocity : Rpm :=
  if node = 2 then (d node).feedbackVelocity.toInt / -countsPerRpm
  else (d node).feedbackVelocity.toInt / countsPerRpm

/-- The alarm text's number: four hexadecimal digits. -/
def hex4 (v : UInt16) : String :=
  let digits := (Nat.toDigits 16 v.toNat).map Char.toUpper
  String.ofList (List.replicate (4 - digits.length) ('0') ++ digits)

/-- `get_kinco_error_message`. -/
def kincoErrorMessage : UInt16 → String
  | 0x7380 => "Encoder ABZ signal incorrect"
  | 0x7381 => "Encoder UVW signal incorrect"
  | 0x4210 => "Controller Temperature"
  | 0x3210 => "Overvoltage"
  | 0x3220 => "Undervoltage"
  | 0x2320 => "Short circuit of driver output"
  | 0x7110 => "Driver brake resistor is abnormal"
  | 0x8611 => "Following error"
  | 0x5112 => "Low logic voltage"
  | 0x2350 => "Motor or controller IIt (Overload)"
  | 0x8A80 => "Over input frequency"
  | 0x4310 => "Motor temperature"
  | 0x7122 => "Motor excitation"
  | 0x6310 => "EEPROM data"
  | 0x5210 => "Current sensor error"
  | 0x6010 => "Watchdog error"
  | 0x6011 => "Wrong interrupt"
  | 0x7400 => "MCU ID error"
  | 0x6320 => "Motor configuration error"
  | 0x5443 => "External enable error"
  | 0x5442 => "Positive limit error"
  | 0x5441 => "Negative limit error"
  | 0x6012 => "SPI internal error"
  | 0x8A81 => "Close loop direction error"
  | 0x7306 => "Encoder count wrong / Master counting error"
  | 0x0000 => "No error"
  | _ => "Unknown error code"

/-- The text of `get_alarm`; an alarm is a nonzero error code. -/
def alarm : Option String :=
  if (d node).errorCode = 0 then none
  else some ("[" ++ toString node.toNat ++ "] " ++ kincoErrorMessage (d node).errorCode ++
    " (0x" ++ hex4 (d node).errorCode ++ ")")

/-- What `get_alarm` remembers: the code last reported, 0 once it is gone. -/
def rememberAlarm : Drives :=
  Function.update d node { d node with lastAlarmCode := (d node).errorCode }

/-- `get_status` of a drive: voltage in V, raw current, statusword, error code. -/
def status : List ℚ :=
  [((d node).voltage / 10).toNat, (d node).currentA.toInt, (d node).statusFlags.toNat,
    (d node).errorCode.toNat]

end Drives

/-- A SocketCAN frame. -/
structure CanFrame where
  canId : UInt32
  dlc : Nat
  data : List UInt8
  dlc_le : dlc ≤ 8
  data_length : data.length = 8

namespace CanFrame

variable (f : CanFrame)

def byte (i : Nat) : UInt8 := f.data.getD i 0

def word16 (i : Nat) : UInt16 := (f.byte i).toUInt16 ||| (f.byte (i + 1)).toUInt16 <<< 8

def word32 (i : Nat) : UInt32 :=
  (f.byte i).toUInt32 ||| (f.byte (i + 1)).toUInt32 <<< 8 |||
    (f.byte (i + 2)).toUInt32 <<< 16 ||| (f.byte (i + 3)).toUInt32 <<< 24

def node : NodeId := (f.canId &&& 0x7F).toUInt8

def functionCode : UInt16 := (f.canId &&& 0xFF80).toUInt16

end CanFrame

/-- `can_callback`: frames of unknown nodes, other function codes and short
frames change nothing. An SDO reply (0x580) is only logged. -/
def canCallback (nodes : List NodeId) (now : Time) (f : CanFrame) (d : Drives) : Drives :=
  if f.node ∉ nodes then d
  else if f.functionCode = 0x700 then
    if f.dlc = 1 ∧ f.byte 0 = 0 then d.requestReinit f.node now else d
  else if f.functionCode = 0x180 then
    if 3 ≤ f.dlc then
      Function.update d f.node { d f.node with statusFlags := f.word16 0 }
    else d
  else if f.functionCode = 0x280 then
    if 8 ≤ f.dlc then
      Function.update d f.node { d f.node with
        feedbackVelocity := (f.word32 0).toInt32
        feedbackPosition := (f.word32 4).toInt32
        lastFeedbackTime := now }
    else d
  else if f.functionCode = 0x380 then
    if 6 ≤ f.dlc then
      Function.update d f.node { d f.node with
        voltage := f.word16 0
        currentA := (f.word16 2).toInt16
        errorCode := f.word16 4 }
    else d
  else d

section Targets

variable (d : Drives) (m n : NodeId) (now : Time)

theorem Drives.storeTarget_target (rpm : Rpm) :
    (d.storeTarget m rpm).target n = if n = m then rpm else d.target n := by
  by_cases h : n = m
  · subst h
    simp [Drives.storeTarget, Drives.target]
  · simp [Drives.storeTarget, Drives.target, h]

theorem Drives.beginConfigure_target :
    (d.beginConfigure m now).target n = if n = m then 0 else d.target n := by
  by_cases h : n = m
  · subst h
    simp [Drives.beginConfigure, Drives.target]
  · simp [Drives.beginConfigure, Drives.target, h]

/-- Rewriting an entry without its target keeps every target. -/
theorem Drives.update_target (s : MotorState) (h : s.targetVelocityRpm = d.target m) :
    Drives.target (Function.update d m s) n = d.target n := by
  by_cases hn : n = m
  · subst hn
    simpa [Drives.target] using h
  · simp [Drives.target, hn]

@[simp] theorem Drives.stampFeedback_target :
    (d.stampFeedback m now).target n = d.target n := d.update_target m n _ rfl

@[simp] theorem Drives.stampAll_target (nodes : List NodeId) :
    (d.stampAll now nodes).target n = d.target n := by
  induction nodes generalizing d with
  | nil => rfl
  | cons m nodes ih =>
      calc (d.stampAll now (m :: nodes)).target n
          = ((d.stampFeedback m now).stampAll now nodes).target n := rfl
        _ = (d.stampFeedback m now).target n := ih _
        _ = d.target n := d.stampFeedback_target m n now

@[simp] theorem Drives.requestReinit_target :
    (d.requestReinit m now).target n = d.target n := by
  unfold Drives.requestReinit
  split
  · rfl
  · exact d.update_target m n _ rfl

@[simp] theorem Drives.rememberAlarm_target :
    (d.rememberAlarm m).target n = d.target n := d.update_target m n _ rfl

/-- A received frame changes no target. -/
@[simp] theorem canCallback_target (nodes : List NodeId) (f : CanFrame) :
    (canCallback nodes now f d).target n = d.target n := by
  unfold canCallback
  repeat' split
  all_goals first
    | rfl
    | exact d.requestReinit_target f.node n now
    | exact d.update_target f.node n _ rfl

end Targets

end PolishingRobot.Motor
