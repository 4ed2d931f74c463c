import Mathlib.Algebra.Order.Field.Rat
import Mathlib.Algebra.Order.Round
import Mathlib.Data.Rat.Floor
import Mathlib.Tactic.NormNum

/-!
# Parameters of the lift driver

`Parameters` holds what the parameter server may deliver, with the defaults
of the source. `Config` holds the values the constructor leaves in the
members; the corrections it makes are carried as fields.
-/

namespace PolishingRobot.Lift

/-- Seconds, exact. -/
abbrev Time := ℚ

/-- The parameters that the modelled functions read. -/
structure Parameters where
  motorRmid : Int32 := 183
  hostMid : Int32 := 172
  controllerId : Int32 := 1
  upSpeedRpm : Int32 := 0
  timeoutSec : ℚ := 1
  enablePositionControl : Bool := true
  posiCtrlVelRpm : Int32 := 0
  homeSpeedRpm : Int32 := 0
  homeStallCounts : Int32 := 5
  homeStallSec : ℚ := 3 / 2
  homeMinSec : ℚ := 1
  homeTimeoutSec : ℚ := 40
  inPositionTol : Int32 := 20
  autoHomeOnStart : Bool := false
  postHomeSpeedScale : ℚ := 2
  useLimitSwitchForHome : Bool := true
  limitDiDescendMask : Int32 := 4
  autoReleaseOnStop : Bool := true
  releaseGraceSec : ℚ := 2
  releaseStopSec : ℚ := 1
  autoResetOnAlarm : Bool := true
  alarmResetIntervalSec : ℚ := 2
  alarmResetMaxAttempts : Int32 := 5
  alarmResumeMaxCycles : Int32 := 3

/-- The members after construction. -/
structure Config where
  motorRmid : UInt8
  hostMid : UInt8
  ctrlId : UInt8
  serialOpen : Bool
  upSpeedRpm : Int32
  timeoutSec : ℚ
  enablePositionControl : Bool
  posiCtrlVelRpm : Int32
  homeSpeedRpm : Int32
  homeStallCounts : Int32
  homeStallSec : ℚ
  homeMinSec : ℚ
  homeTimeoutSec : ℚ
  inPositionTol : Int32
  autoHomeOnStart : Bool
  postHomeSpeedScale : ℚ
  useLimitSwitchForHome : Bool
  limitDiDescendMask : Int32
  autoReleaseOnStop : Bool
  releaseGraceSec : ℚ
  releaseStopSec : ℚ
  autoResetOnAlarm : Bool
  alarmResetIntervalSec : ℚ
  /-- 0 means unlimited. -/
  alarmResetMaxAttempts : Nat
  /-- 0 means unlimited. -/
  alarmResumeMaxCycles : Nat
  one_le_scale : 1 ≤ postHomeSpeedScale
  tenth_le_interval : 1 / 10 ≤ alarmResetIntervalSec

/-- The constructor's corrections: identifiers are narrowed to a byte, a
slowing scale is raised to 1, the reset interval to 0.1 s, and negative
limits become 0. -/
def Config.ofParameters (serialOpen : Bool) (p : Parameters) : Config where
  motorRmid := p.motorRmid.toInt8.toUInt8
  hostMid := p.hostMid.toInt8.toUInt8
  ctrlId := p.controllerId.toInt8.toUInt8
  serialOpen := serialOpen
  upSpeedRpm := p.upSpeedRpm
  timeoutSec := p.timeoutSec
  enablePositionControl := p.enablePositionControl
  posiCtrlVelRpm := p.posiCtrlVelRpm
  homeSpeedRpm := p.homeSpeedRpm
  homeStallCounts := p.homeStallCounts
  homeStallSec := p.homeStallSec
  homeMinSec := p.homeMinSec
  homeTimeoutSec := p.homeTimeoutSec
  inPositionTol := p.inPositionTol
  autoHomeOnStart := p.autoHomeOnStart
  postHomeSpeedScale := max 1 p.postHomeSpeedScale
  useLimitSwitchForHome := p.useLimitSwitchForHome
  limitDiDescendMask := p.limitDiDescendMask
  autoReleaseOnStop := p.autoReleaseOnStop
  releaseGraceSec := p.releaseGraceSec
  releaseStopSec := p.releaseStopSec
  autoResetOnAlarm := p.autoResetOnAlarm
  alarmResetIntervalSec := max (1 / 10) p.alarmResetIntervalSec
  alarmResetMaxAttempts := p.alarmResetMaxAttempts.toInt.toNat
  alarmResumeMaxCycles := p.alarmResumeMaxCycles.toInt.toNat
  one_le_scale := le_max_left _ _
  tenth_le_interval := le_max_left _ _

/-- An open port, an up speed, and the defaults otherwise. -/
def defaultConfig : Config := Config.ofParameters true { upSpeedRpm := 500 }

/-- `std::lround`: nearest integer, halves away from zero. -/
def lround (q : ℚ) : Int := if 0 ≤ q then ⌊q + 1 / 2⌋ else -⌊-q + 1 / 2⌋

/-- Base speed of position moves; 0 keeps the drive's own default. -/
def posiBaseVelRpm (c : Config) : Int32 :=
  if c.enablePositionControl then
    if 0 < c.posiCtrlVelRpm then c.posiCtrlVelRpm else c.upSpeedRpm.abs
  else 0

/-- The position speed sent once homing is done: scaled and capped. -/
def scaledPositionVel (c : Config) : UInt16 :=
  let scaled := Int32.ofInt (lround ((posiBaseVelRpm c).toInt * c.postHomeSpeedScale))
  (if 32767 < scaled then (32767 : Int32) else scaled).toInt16.toUInt16

/-- Magnitude of the homing speed; 0 means that homing is refused. -/
def homingSpeed (c : Config) : Int32 :=
  if 0 < c.homeSpeedRpm then c.homeSpeedRpm else c.upSpeedRpm.abs

/-- `manualUpSpeed`: the up speed, scaled once homed, saturated to a word. -/
def manualUpSpeed (c : Config) (homed : Bool) : Int16 :=
  let v := lround (c.upSpeedRpm.toInt * (if homed then c.postHomeSpeedScale else 1))
  Int16.ofInt (if 32767 < v then 32767 else if v < -32768 then -32768 else v)

example : lround (5 / 2) = 3 ∧ lround (-(5 / 2)) = -3 := by decide +kernel

end PolishingRobot.Lift
