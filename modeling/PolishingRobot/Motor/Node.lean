import PolishingRobot.Motor.Procedures
import PolishingRobot.Runs.LabelledRuns

/-!
# Threads of the motor driver node

The main thread, the resend loop, the callbacks and the detached threads run as
machines over the shared memory, one access a step. A label picks the thread
that moves, or lets time pass, a frame arrive or a callback start. The two
interlock callbacks stand in the source as comments; their labels model them.
-/

namespace PolishingRobot.Motor

open Runs

def tractionOk (c : Config) (σ : Shared) : Bool :=
  !c.requireTractionEnable || σ.lastTractionEnableCmd = 1

def brakeOk (c : Config) (σ : Shared) : Bool :=
  !c.useBrakeInterlock || !σ.brakeEngaged

/-- `computeWantEnabled`, were both loads one. -/
def computeWantEnabled (c : Config) (σ : Shared) : Bool := tractionOk c σ && brakeOk c σ

inductive UpdateEnableState where
  | lock
  | loadTraction
  | loadBrake (traction : Bool)
  | compare (want : Bool)
  | exchange (want : Bool)
  | commit (want : Bool)
  deriving DecidableEq, Repr

/-- `updateEnableState` returns the goal of the transition thread it starts. It
waits for the mutex and gives it back on every way out. -/
def updateEnableState (c : Config) (σ : Shared) :
    UpdateEnableState → Option (Move UpdateEnableState (Option Bool))
  | .lock =>
      if σ.tractionEnableMutex then none
      else some { act := .lock, next := .inl .loadTraction }
  | .loadTraction => some { next := .inl (.loadBrake (tractionOk c σ)) }
  | .loadBrake traction => some { next := .inl (.compare (traction && brakeOk c σ)) }
  | .compare want =>
      if σ.brakeFbInitialized && want == σ.lastBrakeWantEnabled then
        some { act := .unlock, next := .inr none }
      else some { next := .inl (.exchange want) }
  | .exchange want =>
      -- The transition under way has to notice the change when it ends.
      if σ.transitionInProgress then some { act := .unlock, next := .inr none }
      else some { act := .takeTransition, next := .inl (.commit want) }
  | .commit want => some { act := .commit want, next := .inr (some want) }

/-- The detached thread of `updateEnableState`: one way enables, the other
disables, and from `release` on both run the same code for their goal. -/
inductive Transition where
  | enabling (tasks : List Task)
  | storeEnabled (ok : Bool)
  | zeroing (rest : List NodeId)
  | disabling (pc : DisableMotor)
  | storeDisabled
  | release (want : Bool)
  | recheckTraction (want : Bool)
  | recheckBrake (want traction : Bool)
  | update (pc : UpdateEnableState)

inductive Recovery where
  | resetting (pc : ResetMotor)
  | storeEnabled (ok : Bool)
  | clearError
  | release

inductive SyncLoop where
  | head
  | load (rest : List NodeId)
  | send (node : NodeId) (rpm : Rpm) (rest : List NodeId)
  | sync

inductive CmdCallback where
  | check (data : List ℚ)
  | stamp (data : List ℚ)
  | load (data : List ℚ)
  | store (rest : List (NodeId × Rpm))

/-- What the loops of a tick have found so far. -/
structure Findings where
  driveFault : Bool := false
  feedbackTimeout : Bool := false
  notEnabled : Bool := false

inductive ControlLoop where
  | watchdogLoad
  | watchdogTime
  | watchdogZero (rest : List NodeId)
  | velocity (rest : List NodeId) (data : List ℚ)
  | status (rest : List NodeId) (data : List ℚ)
  | alarms (rest : List NodeId) (found : Findings)
  | publishAlarm (text : String) (rest : List NodeId)
  | feedback (rest : List NodeId) (found : Findings)
  | feedbackAlarm (node : NodeId) (lost : Bool) (rest : List NodeId) (found : Findings)
  | feedbackLost (node : NodeId) (rest : List NodeId) (found : Findings)
  | storeError (found : Findings)
  | publishError (found : Findings)
  | enabled (rest : List NodeId) (found : Findings)
  | reinitPending (rest : List NodeId)
  | wantTraction
  | wantBrake (traction : Bool)
  | loadTransition
  | interval
  | exchange
  | startRecovery

inductive Interlock where
  | storeTraction (on : Bool)
  | storeBrake (engaged : Bool)
  | update (pc : UpdateEnableState)

inductive Main where
  | configure (rest : List NodeId)
  | configuring (node : NodeId) (rest : List NodeId) (pc : ConfigureNode)
  | startSync
  | subscribe
  | update (pc : UpdateEnableState)
  | spin
  | running
  | destroyNode (pc : DisableMotor)
  | stopSync
  | joinSync
  | destroyController (pc : DisableMotor)

inductive Body where
  | main (pc : Main)
  | sync (pc : SyncLoop)
  | cmd (pc : CmdCallback)
  | control (pc : ControlLoop)
  | interlock (pc : Interlock)
  | transition (pc : Transition)
  | recovery (pc : Recovery)

inductive Kind where
  | main
  | sync
  | cmd
  | control
  | interlock
  | transition
  | recovery
  deriving DecidableEq, Repr

def Body.kind : Body → Kind
  | .main _ => .main
  | .sync _ => .sync
  | .cmd _ => .cmd
  | .control _ => .control
  | .interlock _ => .interlock
  | .transition _ => .transition
  | .recovery _ => .recovery

/-- A thread sleeps until `wake`. -/
structure Thread where
  body : Body
  wake : Time

/-- Some thread is of the kind. -/
def anyOf (threads : List Thread) (k : Kind) : Bool := threads.any fun t => t.body.kind = k

/-- Some callback is in flight. -/
def anyCallback (threads : List Thread) : Bool :=
  anyOf threads .cmd || anyOf threads .control || anyOf threads .interlock

/-- One access of a thread: its continuation, if it goes on, and the thread it
starts, if it does. -/
structure Turn where
  act : Action := .skip
  sleep : Time := 0
  self : Option Body := none
  spawned : Option Body := none

/-- A procedure that runs inside a thread. -/
def Move.turn {Pc Result : Type} (m : Move Pc Result) (inside : Pc → Body)
    (back : Result → Option Body × Option Body) : Turn :=
  match m.next with
  | .inl pc => { act := m.act, sleep := m.sleep, self := some (inside pc) }
  | .inr r => { act := m.act, sleep := m.sleep, self := (back r).1, spawned := (back r).2 }

@[simp] theorem Move.turn_act {Pc Result : Type} (m : Move Pc Result) (inside : Pc → Body)
    (back : Result → Option Body × Option Body) : (m.turn inside back).act = m.act := by
  unfold Move.turn
  split <;> rfl

/-- Node 2 is mounted the other way round. -/
def mounted (node : NodeId) (rpm : Rpm) : Rpm := if node = 2 then -rpm else rpm

/-- `set_target_velocity`. -/
def setTargetVelocity (node : NodeId) (rpm : Rpm) : Action :=
  .storeTarget node (mounted node rpm)

/-- The thread that a committed change starts. -/
def startTransition (c : Config) (now : Time) : Bool → Transition
  | true => .enabling (startTasks now c.driveMotorIds)
  | false => .zeroing c.driveMotorIds

/-- `updateEnableState` inside a thread that goes on with `after`. -/
def updateTurn (c : Config) (σ : Shared) (pc : UpdateEnableState)
    (inside : UpdateEnableState → Body) (after : Option Body) : Option Turn :=
  (updateEnableState c σ pc).map fun m =>
    m.turn inside fun started =>
      (after, started.map fun want => .transition (startTransition c σ.now want))

/-- The transition thread of `updateEnableState`. -/
def transitionThread (c : Config) (σ : Shared) (index : Nat) : Transition → Option Turn
  | .enabling tasks =>
      (enableMotor σ index tasks).map fun m =>
        m.turn (fun tasks => .transition (.enabling tasks)) fun ok =>
          (some (.transition (.storeEnabled ok)), none)
  | .storeEnabled ok =>
      some { act := .storeMotorsEnabled ok, self := some (.transition (.release true)) }
  | .zeroing (node :: rest) =>
      some { act := setTargetVelocity node 0, self := some (.transition (.zeroing rest)) }
  | .zeroing [] => some { self := some (.transition (.disabling (.zero c.driveMotorIds))) }
  | .disabling pc =>
      some ((disableMotor c.driveMotorIds pc).turn (fun pc => .transition (.disabling pc))
        fun _ => (some (.transition .storeDisabled), none))
  | .storeDisabled =>
      some { act := .storeMotorsEnabled false, self := some (.transition (.release false)) }
  | .release want =>
      some { act := .releaseTransition, self := some (.transition (.recheckTraction want)) }
  | .recheckTraction want =>
      some { self := some (.transition (.recheckBrake want (tractionOk c σ))) }
  | .recheckBrake want traction =>
      if want ≠ (traction && brakeOk c σ) then some { self := some (.transition (.update .lock)) }
      else some {}
  | .update pc => updateTurn c σ pc (fun pc => .transition (.update pc)) none

/-- The recovery thread of `controlLoop`. -/
def recoveryThread (c : Config) (σ : Shared) (index : Nat) : Recovery → Option Turn
  | .resetting pc =>
      (resetMotor c.driveMotorIds σ index pc).map fun m =>
        m.turn (fun pc => .recovery (.resetting pc)) fun ok =>
          (some (.recovery (.storeEnabled ok)), none)
  | .storeEnabled ok =>
      some { act := .storeMotorsEnabled ok
             self := some (.recovery (if ok then .clearError else .release)) }
  | .clearError => some { act := .storeError false, self := some (.recovery .release) }
  | .release => some { act := .releaseTransition }

def syncLoop (c : Config) (σ : Shared) : SyncLoop → Turn
  | .head =>
      { self := if σ.isRunning then some (.sync (.load c.driveMotorIds)) else none }
  | .load (node :: rest) => { self := some (.sync (.send node (σ.drives.target node) rest)) }
  | .load [] => { self := some (.sync .sync) }
  | .send node rpm rest =>
      { act := .write (sendVelocityCommand node rpm), self := some (.sync (.load rest)) }
  | .sync => { act := .write .sync, sleep := 1 / 50, self := some (.sync .head) }

/-- The drives of a message with their signed speeds. -/
def commands (c : Config) (data : List ℚ) : List (NodeId × Rpm) :=
  c.driveMotorIds.zip (List.zipWith (fun (dir : Int) v => (dir : ℚ) * v) c.motorDir data)

def cmdCallback (c : Config) (σ : Shared) : CmdCallback → Turn
  | .check data =>
      { self := if data.length < c.driveMotorIds.length then none
                else some (.cmd (.stamp data)) }
  | .stamp data => { act := .stampCmd, self := some (.cmd (.load data)) }
  | .load data =>
      { self := if σ.motorsEnabled then some (.cmd (.store (commands c data))) else none }
  | .store ((node, rpm) :: rest) =>
      { act := setTargetVelocity node rpm, self := some (.cmd (.store rest)) }
  | .store [] => {}

/-- The signed feedback of a drive; the directions run parallel to the drives. -/
def signedFeedback (c : Config) (σ : Shared) (node : NodeId) (index : Nat) : ℚ :=
  (c.motorDir.getD index 1 : Int) * σ.drives.feedbackVelocity node

/-- `controlLoop`. The evaluation of the interlock that only feeds a log line
is left out. -/
def controlLoop (c : Config) (σ : Shared) : ControlLoop → Turn
  | .watchdogLoad =>
      { self := some (.control
          (if σ.motorsEnabled then .watchdogTime else .velocity c.driveMotorIds [])) }
  | .watchdogTime =>
      { self := some (.control
          (if c.cmdTimeoutSec < σ.now - σ.lastCmdTime then .watchdogZero c.driveMotorIds
           else .velocity c.driveMotorIds [])) }
  | .watchdogZero (node :: rest) =>
      { act := setTargetVelocity node 0, self := some (.control (.watchdogZero rest)) }
  | .watchdogZero [] => { self := some (.control (.velocity c.driveMotorIds [])) }
  | .velocity (node :: rest) data =>
      { self := some (.control
          (.velocity rest (data ++ [signedFeedback c σ node data.length]))) }
  | .velocity [] data =>
      { act := .publish (.velocity data), self := some (.control (.status c.driveMotorIds [])) }
  | .status (node :: rest) data =>
      { self := some (.control (.status rest (data ++ σ.drives.status node))) }
  | .status [] data =>
      { act := .publish (.status data), self := some (.control (.alarms c.driveMotorIds {})) }
  | .alarms (node :: rest) found =>
      { act := .rememberAlarm node
        self := some (.control
          (match σ.drives.alarm node with
           | some text => .publishAlarm text rest
           | none => .alarms rest found)) }
  | .alarms [] found => { self := some (.control (.feedback c.driveMotorIds found)) }
  | .publishAlarm text rest =>
      { act := .publish (.alarm text)
        self := some (.control (.alarms rest { driveFault := true })) }
  | .feedback (node :: rest) found =>
      let age := σ.drives.feedbackAge node σ.now
      { self := some (.control
          (if c.feedbackTimeoutSec < age then
             .feedbackAlarm node (c.reinitFeedbackLossSec < age) rest
               { found with feedbackTimeout := true }
           else if c.reinitFeedbackLossSec < age then .feedbackLost node rest found
           else .feedback rest found)) }
  | .feedback [] found => { self := some (.control (.storeError found)) }
  | .feedbackAlarm node lost rest found =>
      { act := .publish (.alarm ("[" ++ toString node.toNat ++ "] MOTOR_FEEDBACK_TIMEOUT"))
        self := some (.control
          (if lost then .feedbackLost node rest found else .feedback rest found)) }
  | .feedbackLost node rest found =>
      { act := .requestReinit node, self := some (.control (.feedback rest found)) }
  | .storeError found =>
      { act := .storeError (found.driveFault || found.feedbackTimeout)
        self := some (.control (.publishError found)) }
  | .publishError found =>
      { act := .publish (.error (found.driveFault || found.feedbackTimeout))
        self := some (.control (.enabled c.driveMotorIds found)) }
  | .enabled (node :: rest) found =>
      { self := some (.control (.enabled rest
          (if σ.drives.isOperationEnabled node then found
           else { found with notEnabled := true }))) }
  | .enabled [] found =>
      { self := some (.control
          (if found.driveFault || (found.notEnabled && !found.feedbackTimeout) then .wantTraction
           else .reinitPending c.driveMotorIds)) }
  | .reinitPending (node :: rest) =>
      { self := some (.control
          (if (σ.drives node).needsReinit then .wantTraction else .reinitPending rest)) }
  | .reinitPending [] => {}
  | .wantTraction => { self := some (.control (.wantBrake (tractionOk c σ))) }
  | .wantBrake traction =>
      { self := if traction && brakeOk c σ then some (.control .loadTransition) else none }
  | .loadTransition =>
      { self := if σ.transitionInProgress then none else some (.control .interval) }
  | .interval =>
      { self := if c.faultResetIntervalSec < σ.now - σ.lastResetAttempt then
                  some (.control .exchange)
                else none }
  | .exchange =>
      if σ.transitionInProgress then {}
      else { act := .takeTransition, self := some (.control .startRecovery) }
  | .startRecovery =>
      { act := .stampResetAttempt
        spawned := some (.recovery (.resetting (.reinit c.driveMotorIds))) }

def interlockCallback (c : Config) (σ : Shared) : Interlock → Option Turn
  | .storeTraction on =>
      some { act := .storeTraction on, self := some (.interlock (.update .lock)) }
  | .storeBrake engaged =>
      some { act := .storeBrake engaged, self := some (.interlock (.update .lock)) }
  | .update pc => updateTurn c σ pc (fun pc => .interlock (.update pc)) none

/-- The main thread: `init` of the controller, the rest of the constructor, the
spinner, and after the shutdown the two destructors. Stopping the spinner waits
for the callbacks, joining waits for the resend loop. -/
def mainThread (c : Config) (σ : Shared) (threads : List Thread) : Main → Option Turn
  | .configure (node :: rest) => some { self := some (.main (.configuring node rest .begin)) }
  | .configure [] => some { self := some (.main .startSync) }
  | .configuring node rest pc =>
      some ((configureNode node pc).turn (fun pc => .main (.configuring node rest pc))
        fun _ => (some (.main (.configure rest)), none))
  | .startSync =>
      some { act := .startSync c.driveMotorIds
             self := some (.main .subscribe), spawned := some (.sync .head) }
  | .subscribe => some { act := .stampCmd, self := some (.main (.update .lock)) }
  | .update pc => updateTurn c σ pc (fun pc => .main (.update pc)) (some (.main .spin))
  | .spin => some { act := .startSpinning, self := some (.main .running) }
  | .running =>
      if anyCallback threads then none
      else some { act := .stopSpinning
                  self := some (.main (.destroyNode (.zero c.driveMotorIds))) }
  | .destroyNode pc =>
      some ((disableMotor c.driveMotorIds pc).turn (fun pc => .main (.destroyNode pc))
        fun _ => (some (.main .stopSync), none))
  | .stopSync => some { act := .stopSync, self := some (.main .joinSync) }
  | .joinSync =>
      if anyOf threads .sync then none
      else some { self := some (.main (.destroyController (.zero c.driveMotorIds))) }
  | .destroyController pc =>
      some ((disableMotor c.driveMotorIds pc).turn (fun pc => .main (.destroyController pc))
        fun _ => (none, none))

structure State where
  shared : Shared
  threads : List Thread

inductive Label where
  /-- The thread at the index moves; `task` picks one of its own tasks. -/
  | thread (index task : Nat)
  | delay (d : Time)
  | can (f : CanFrame)
  | motorCmd (data : List ℚ)
  | tick
  | traction (on : Bool)
  | brake (engaged : Bool)

def Body.turn (c : Config) (s : State) (task : Nat) : Body → Option Turn
  | .main pc => mainThread c s.shared s.threads pc
  | .sync pc => some (syncLoop c s.shared pc)
  | .cmd pc => some (cmdCallback c s.shared pc)
  | .control pc => some (controlLoop c s.shared pc)
  | .interlock pc => interlockCallback c s.shared pc
  | .transition pc => transitionThread c s.shared task pc
  | .recovery pc => recoveryThread c s.shared task pc

/-- What a turn leaves in the place of its thread. -/
def Turn.threads (now : Time) (turn : Turn) : List Thread :=
  (turn.self.map fun b => ⟨b, now + turn.sleep⟩).toList ++
    (turn.spawned.map fun b => ⟨b, now⟩).toList

/-- A thread that is awake and not blocked takes its turn. -/
def Thread.step (c : Config) (s : State) (task : Nat) (t : Thread) :
    Option (Action × List Thread) :=
  if t.wake ≤ s.shared.now then
    (t.body.turn c s task).map fun turn => (turn.act, turn.threads s.shared.now)
  else none

/-- The move of the thread at an index: its action and the threads afterwards. -/
def threadStep (c : Config) (s : State) (index task : Nat) : Option (Action × List Thread) :=
  stepAt (Thread.step c s task) s.threads index

/-- A callback starts. -/
def State.call (s : State) (b : Body) : State :=
  { s with threads := s.threads ++ [⟨b, s.shared.now⟩] }

/-- A step of the system. Frames arrive while the device is open, callbacks
start while the spinner runs, and the callbacks of `/motor/cmd` and the ticks
of the timer never overlap with their own kind. -/
def step (c : Config) (s : State) : Label → Option State
  | .thread index task =>
      (threadStep c s index task).map fun p => ⟨s.shared.apply p.1, p.2⟩
  | .delay d =>
      if 0 ≤ d then some { s with shared := { s.shared with now := s.shared.now + d } } else none
  | .can f =>
      if c.canOpen then
        some { s with shared := { s.shared with
          drives := canCallback c.driveMotorIds s.shared.now f s.shared.drives } }
      else none
  | .motorCmd data =>
      if s.shared.spinning && !anyOf s.threads .cmd then some (s.call (.cmd (.check data)))
      else none
  | .tick =>
      if s.shared.spinning && !anyOf s.threads .control then
        some (s.call (.control .watchdogLoad))
      else none
  | .traction on =>
      if s.shared.spinning then some (s.call (.interlock (.storeTraction on))) else none
  | .brake engaged =>
      if s.shared.spinning then some (s.call (.interlock (.storeBrake engaged))) else none

/-- The action of a step. -/
def actionOf (c : Config) (s : State) : Label → Option Action
  | .thread index task => (threadStep c s index task).map Prod.fst
  | _ => none

/-- The beginning of `init`, after the attempt to open the device. -/
def start (c : Config) (now : Time) : State where
  shared := { now := now }
  threads := [⟨.main (if c.canOpen then .configure c.driveMotorIds else .subscribe), now⟩]

/-- The defaults with the drive 1 alone. -/
def oneDrive : Config := loadConfig true { driveMotorIds := some [1] }

/-- The same drive with the brake interlock. -/
def brakeDrive : Config :=
  loadConfig true { driveMotorIds := some [1], useBrakeInterlock := true }

/-- A thread moves a number of times without sleeping. -/
def moves (index n : Nat) : List Label := List.replicate n (.thread index 0)

/-- A TPDO1 of drive 1. -/
def statusFrame (low : UInt8) : Label :=
  .can ⟨0x181, 3, [low, 0, 3, 0, 0, 0, 0, 0], by decide, rfl⟩

/-- A TPDO2 of drive 1, standing still. -/
def feedbackFrame : Label :=
  .can ⟨0x281, 8, [0, 0, 0, 0, 0, 0, 0, 0], by decide, rfl⟩

/-- The constructor, up to the running spinner: the transition thread is behind
the main thread, the resend loop behind both. -/
def construct : List Label :=
  moves 0 3 ++ [Label.delay (1 / 2)] ++
  (List.replicate 36 (moves 0 1 ++ [Label.delay (1 / 50)])).flatten ++
  moves 0 2 ++ [Label.delay (1 / 10)] ++ moves 0 11

/-- The task of drive 1, in the thread at the index, up to its controlword
`ENABLE_OPERATION`: the drive answers each controlword. -/
def approach (index : Nat) : List Label :=
  moves index 2 ++ [Label.delay (1 / 20)] ++ moves index 1 ++ [Label.delay (1 / 10)] ++
  moves index 1 ++ [Label.delay (1 / 10)] ++ moves index 3 ++ [statusFrame 0x21] ++
  moves index 1 ++ [Label.delay (1 / 10)] ++ moves index 1 ++ [Label.delay (1 / 10)] ++
  moves index 3 ++ [statusFrame 0x23] ++ moves index 1 ++ [Label.delay (1 / 10)]

/-- The rest of the task, and the join. -/
def arrive (index : Nat) : List Label :=
  moves index 1 ++ [Label.delay (1 / 10)] ++ moves index 3 ++ [statusFrame 0x27] ++ moves index 2

/-- The node after start-up: drive 1 enabled, no transition under way. -/
def bringUp : List Label := construct ++ approach 1 ++ arrive 1 ++ moves 1 4

/-- A command for one drive, run to its end behind the two lasting threads. -/
def command (rpm : ℚ) : List Label := .motorCmd [rpm] :: moves 2 5

/-- A drive at 100 rpm reports a fault; the next tick starts a recovery, the
fault stays, and `reset_motor` fails. -/
def failedRecovery : List Label :=
  bringUp ++ command 100 ++ [statusFrame 0x08, feedbackFrame, Label.tick] ++ moves 2 20 ++
  moves 2 4 ++ [Label.delay (1 / 10)] ++ moves 2 4 ++ [Label.delay (1 / 20)] ++ moves 2 2 ++
  [Label.delay (1 / 5)] ++ moves 2 1 ++ [Label.delay (1 / 10)] ++ moves 2 5 ++ moves 2 4 ++
  moves 2 1

example : ((run (step oneDrive) (start oneDrive 100) bringUp).map fun s =>
    (s.threads.length, s.shared.motorsEnabled, s.shared.transitionInProgress)) =
      some (2, true, false) := by decide +kernel

end PolishingRobot.Motor
