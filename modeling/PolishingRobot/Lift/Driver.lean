import PolishingRobot.Lift.Frames
import PolishingRobot.Lift.Parameters

/-!
# The lift driver's callbacks and poll stages

Every callback runs on the one spinner thread, so a callback is one state
transformer. `now` is the clock reading of the callback; a poll reads the
clock once for the received frames and once for its decisions. `tx` collects
the frames written in the current callback. Members that only feed log lines
are left out.
-/

namespace PolishingRobot.Lift

inductive Mode where
  | manual
  | position
  | homing
  deriving DecidableEq, Repr

/-- The members under `data_mutex_`: what the received frames said. -/
structure RxData where
  gotData : Bool := false
  position : Int32 := 0
  statusByte : UInt8 := 0
  diByte : UInt8 := 0
  rpm : Int16 := 0
  lastRx : Time := 0
  deriving DecidableEq, Repr

/-- The members of `LiftDriver` that its callbacks read and write. -/
structure State where
  rx : RxData := {}
  mode : Mode := .manual
  homed : Bool := false
  targetPos : Int32 := 0
  homeDirSpeed : Int16 := 0
  homeStart : Time := 0
  stallSince : Time := 0
  stallRefPos : Int32 := 0
  stallTracking : Bool := false
  pendingHome : Bool := false
  lastVelCmd : Int16 := 0
  velCmdTime : Time := 0
  velRefPos : Int32 := 0
  velRefTime : Time := 0
  velRefValid : Bool := false
  alarmActive : Bool := false
  alarmResetAttempts : Nat := 0
  alarmResetExhausted : Bool := false
  lastAlarmReset : Time := 0
  resumeMode : Mode := .manual
  resumeTarget : Int32 := 0
  resumeCycles : Nat := 0
  tx : List TxFrame := []
  deriving DecidableEq, Repr

variable (c : Config)

/-- `sendFrame`: nothing is written while the port is closed. -/
def sendFrame (f : TxFrame) (s : State) : State :=
  { s with tx := if c.serialOpen then s.tx ++ [f] else s.tx }

/-- `sendVelocity`: a changed command restarts the stop detection. -/
def sendVelocity (now : Time) (rpm : Int16) (s : State) : State :=
  sendFrame c (.velCmd rpm)
    (if rpm ≠ s.lastVelCmd then
      { s with lastVelCmd := rpm, velCmdTime := now, velRefValid := false }
    else s)

def sendPosition (counts : Int32) (s : State) : State := sendFrame c (.posiCmd counts) s

def sendIncPosition (counts : Int32) (s : State) : State :=
  sendFrame c (.incPosiCmd counts) s

def sendPositionVel (rpm : UInt16) (s : State) : State := sendFrame c (.tarPosiVel rpm) s

def sendPositionReset (s : State) : State := sendFrame c .posiReset s

def sendAlarmReset (s : State) : State := sendFrame c .alarmReset s

def requestMonitor (s : State) : State := sendFrame c (.reqPidData pidMonitor) s

/-- `handleFrame`: a monitor reply carries status, position and inputs, a
position reply only the position; both stamp `lastRx`. -/
def handleFrame (now : Time) (d : RxData) (f : RxFrame) : RxData :=
  if f.IsMonitor then
    { rpm := le16 f.data
      statusByte := f.data.getD 6 0
      position := le32 (f.data.drop 7)
      diByte := f.data.getD 11 0
      gotData := true
      lastRx := now }
  else if f.IsPosiData then
    { d with position := le32 f.data, gotData := true, lastRx := now }
  else d

/-- The freshness test of `pollTimer`. -/
def isFresh (now : Time) (d : RxData) : Bool :=
  d.gotData && decide (now - d.lastRx < c.timeoutSec)

/-- Bit 0 of the status byte. -/
def alarmBit (st : UInt8) : Bool := st &&& 0x01 != 0

/-- `atLowerLimit`: the descend input reads 0 in fresh data. -/
def atLowerLimit (di : UInt8) (fresh : Bool) : Bool :=
  fresh && (di &&& c.limitDiDescendMask.toInt8.toUInt8 == 0)

def cancelResume (s : State) : State :=
  { s with resumeCycles := 0, resumeMode := .manual }

def commandCallback (now : Time) (cmd : String) (s : State) : State :=
  if cmd ≠ "up" ∧ cmd ≠ "down" ∧ cmd ≠ "stop" then s
  else
    let s := cancelResume { s with mode := .manual }
    if cmd = "up" then sendVelocity c now (manualUpSpeed c s.homed) s
    else if cmd = "down" then sendVelocity c now (-(manualUpSpeed c s.homed)) s
    else sendVelocity c now 0 s

def velocityCmdCallback (now : Time) (rpm : Int16) (s : State) : State :=
  sendVelocity c now rpm (cancelResume { s with mode := .manual })

/-- An absolute move needs an origin and no alarm. -/
def positionCmdCallback (target : Int32) (s : State) : State :=
  if ¬ s.homed then s
  else if s.alarmActive then s
  else
    let s := cancelResume s
    sendPosition c target { s with targetPos := target, mode := .position }

/-- A relative move is recorded against the last received position. -/
def incPositionCmdCallback (inc : Int32) (s : State) : State :=
  if s.alarmActive then s
  else
    let s := cancelResume s
    sendIncPosition c inc { s with targetPos := s.rx.position + inc, mode := .position }

def homeCallback (now : Time) (start : Bool) (s : State) : State :=
  if ¬ start then
    let s := cancelResume { s with pendingHome := false }
    if s.mode = .homing then sendVelocity c now 0 { s with mode := .manual } else s
  else if s.alarmActive then s
  else if homingSpeed c = 0 then s
  else
    let upDir : Int32 := if 0 ≤ c.upSpeedRpm then 1 else -1
    cancelResume { s with
      homeDirSpeed := (-upDir * homingSpeed c).toInt16
      mode := .homing
      homeStart := now
      stallTracking := false
      pendingHome := false }

/-- `requestAlarmReset`: the automatic form gives up at the attempt limit. -/
def requestAlarmReset (now : Time) (manual : Bool) (s : State) : State :=
  if ¬ manual ∧ 0 < c.alarmResetMaxAttempts ∧ c.alarmResetMaxAttempts ≤ s.alarmResetAttempts then
    { s with alarmResetExhausted := true }
  else
    let s := sendAlarmReset c (sendVelocity c now 0 s)
    { s with lastAlarmReset := now, alarmResetAttempts := s.alarmResetAttempts + 1 }

def resetCallback (now : Time) (on : Bool) (s : State) : State :=
  if ¬ on then s
  else
    let s := { s with alarmResetAttempts := 0, alarmResetExhausted := false, resumeCycles := 0 }
    if ¬ s.alarmActive then { sendAlarmReset c s with lastAlarmReset := now }
    else requestAlarmReset c now true s

/-- `resumeAfterAlarm`: continue what the alarm interrupted, up to the cycle
limit. -/
def resumeAfterAlarm (now : Time) (pos : Int32) (s : State) : State :=
  if s.resumeMode = .manual then s
  else if 0 < c.alarmResumeMaxCycles ∧ c.alarmResumeMaxCycles ≤ s.resumeCycles then
    { s with resumeMode := .manual }
  else
    let cycles := s.resumeCycles + 1
    if s.resumeMode = .homing then
      { s with
        resumeCycles := cycles
        resumeMode := .manual
        mode := .homing
        homeStart := now
        stallTracking := false }
    else
      let s := { s with
        resumeCycles := cycles
        resumeMode := .manual
        targetPos := s.resumeTarget
        mode := .position }
      if s.homed then sendPosition c s.targetPos s
      else sendIncPosition c (s.targetPos - pos) s

/-- The rising edge of the alarm bit: stop at once, remember a position move,
abandon a homing run. -/
def raiseAlarm (now : Time) (s : State) : State :=
  let s := sendVelocity c now 0 { s with
    alarmActive := true
    alarmResetAttempts := 0
    alarmResetExhausted := false
    lastAlarmReset := 0 }
  if s.mode = .homing then { s with mode := .manual }
  else
    { s with
      resumeMode := if s.mode ≠ .manual then s.mode else s.resumeMode
      resumeTarget := if s.mode ≠ .manual then s.targetPos else s.resumeTarget
      mode := .manual }

/-- The tail of `updateAlarm`: during an alarm, retry the reset at the interval. -/
def autoAlarmReset (now : Time) (s : State) : State :=
  if s.alarmActive ∧ c.autoResetOnAlarm ∧ ¬ s.alarmResetExhausted then
    if s.lastAlarmReset = 0 ∨ c.alarmResetIntervalSec ≤ now - s.lastAlarmReset then
      requestAlarmReset c now false s
    else s
  else s

/-- `updateAlarm`: nothing is decided on stale data. -/
def updateAlarm (now : Time) (st : UInt8) (fresh : Bool) (pos : Int32) (s : State) : State :=
  if ¬ fresh then s
  else
    let alarm := alarmBit st
    let s := if alarm ∧ ¬ s.alarmActive then raiseAlarm c now s else s
    if ¬ alarm ∧ s.alarmActive then
      resumeAfterAlarm c now pos
        { s with alarmActive := false, alarmResetAttempts := 0, alarmResetExhausted := false }
    else autoAlarmReset c now s

/-- The end of a successful homing run, shared by its two exits: stop, reset
the counter, mark the origin, raise the position speed. -/
def finishHoming (now : Time) (s : State) : State :=
  let s := sendPositionReset c (sendVelocity c now 0 s)
  let s := { s with homed := true, mode := .manual, resumeCycles := 0 }
  if 0 < posiBaseVelRpm c ∧ 1 < c.postHomeSpeedScale then
    sendPositionVel c (scaledPositionVel c) s
  else s

/-- The homing branch of `updateMotion`: timeout, limit switch, then the
inference from a position that stands still. -/
def updateHoming (now : Time) (pos : Int32) (fresh : Bool) (di : UInt8) (s : State) : State :=
  if c.homeTimeoutSec < now - s.homeStart then
    { sendVelocity c now 0 s with mode := .manual, resumeCycles := 0 }
  else if c.useLimitSwitchForHome ∧ atLowerLimit c di fresh then
    finishHoming c now s
  else
    let s := sendVelocity c now s.homeDirSpeed s
    if ¬ fresh then { s with stallTracking := false }
    else if ¬ s.stallTracking ∨ c.homeStallCounts < (pos - s.stallRefPos).abs then
      { s with stallRefPos := pos, stallSince := now, stallTracking := true }
    else if c.homeMinSec ≤ now - s.homeStart ∧ c.homeStallSec ≤ now - s.stallSince then
      finishHoming c now s
    else s

/-- `updateMotion`: the state machine of homing and of position moves. -/
def updateMotion (now : Time) (pos : Int32) (fresh : Bool) (di : UInt8) (s : State) : State :=
  match s.mode with
  | .homing => updateHoming c now pos fresh di s
  | .position =>
      if fresh ∧ (s.targetPos - pos).abs ≤ c.inPositionTol then
        { s with mode := .manual, resumeCycles := 0 }
      else s
  | .manual => s

/-- `releaseIfBlocked`: drop a manual velocity command that the lift can no
longer follow. -/
def releaseIfBlocked (now : Time) (pos : Int32) (fresh : Bool) (di : UInt8) (s : State) :
    State :=
  if ¬ c.autoReleaseOnStop ∨ s.mode ≠ .manual ∨ s.lastVelCmd = 0 ∨ ¬ fresh then s
  else if s.lastVelCmd < 0 ∧ atLowerLimit c di fresh then sendVelocity c now 0 s
  else if now - s.velCmdTime < c.releaseGraceSec then s
  else if ¬ s.velRefValid ∨ c.homeStallCounts < (pos - s.velRefPos).abs then
    { s with velRefPos := pos, velRefTime := now, velRefValid := true }
  else if c.releaseStopSec ≤ now - s.velRefTime then sendVelocity c now 0 s
  else s

/-- The deferred start-up homing of `pollTimer`. -/
def autoHome (now : Time) (fresh : Bool) (s : State) : State :=
  if s.pendingHome ∧ fresh ∧ ¬ s.alarmActive then homeCallback c now true s else s

/-- The first half of `pollTimer`: ask for a reply and take the frames that
this poll's read delivered. A closed port delivers none. -/
def pollReceive (rxNow : Time) (frames : List RxFrame) (s : State) : State :=
  let s := requestMonitor c s
  { s with rx := (if c.serialOpen then frames else []).foldl (handleFrame rxNow) s.rx }

/-- The second half of `pollTimer`, in its order: alarm, deferred homing,
motion, release. -/
def pollDecide (now : Time) (s : State) : State :=
  let pos := s.rx.position
  let st := s.rx.statusByte
  let di := s.rx.diByte
  let fresh := isFresh c now s.rx
  let s := updateAlarm c now st fresh pos s
  let s := autoHome c now fresh s
  let s := updateMotion c now pos fresh di s
  releaseIfBlocked c now pos fresh di s

/-- `pollTimer`. -/
def pollTimer (rxNow now : Time) (frames : List RxFrame) (s : State) : State :=
  pollDecide c now (pollReceive c rxNow frames s)

/-- What the spinner may call next, with the clock readings and the input. -/
inductive Event where
  | command (now : Time) (cmd : String)
  | velocityCmd (now : Time) (rpm : Int16)
  | positionCmd (now : Time) (target : Int32)
  | incPositionCmd (now : Time) (inc : Int32)
  | home (now : Time) (start : Bool)
  | reset (now : Time) (on : Bool)
  | poll (rxNow now : Time) (frames : List RxFrame)
  deriving DecidableEq, Repr

/-- The clock reading of a callback's decisions. -/
def Event.time : Event → Time
  | .command now _ | .velocityCmd now _ | .positionCmd now _ | .incPositionCmd now _
  | .home now _ | .reset now _ | .poll _ now _ => now

/-- One callback. The position and homing topics are subscribed only when
position control is enabled. -/
def callback (s : State) : Event → State
  | .command now cmd => commandCallback c now cmd s
  | .velocityCmd now rpm => velocityCmdCallback c now rpm s
  | .positionCmd _ target => if c.enablePositionControl then positionCmdCallback c target s else s
  | .incPositionCmd _ inc => if c.enablePositionControl then incPositionCmdCallback c inc s else s
  | .home now start => if c.enablePositionControl then homeCallback c now start s else s
  | .reset now on => resetCallback c now on s
  | .poll rxNow now frames => pollTimer c rxNow now frames s

/-- Forget the frames of the previous callback and run the next one. -/
def step (s : State) (e : Event) : State := callback c { s with tx := [] } e

/-- The state the constructor leaves. -/
def start : State :=
  let s : State := { pendingHome := c.enablePositionControl && c.autoHomeOnStart }
  if 0 < posiBaseVelRpm c then
    sendPositionVel c (posiBaseVelRpm c).toInt16.toUInt16 s
  else s

/-- The state after a list of callbacks. -/
def run (es : List Event) : State := es.foldl (step c) (start c)

@[simp] theorem run_nil : run c [] = start c := rfl

@[simp] theorem run_append_singleton (es : List Event) (e : Event) :
    run c (es ++ [e]) = step c (run c es) e := by
  simp [run]

end PolishingRobot.Lift
