import PolishingRobot.Motor.Drives
import PolishingRobot.Runs.ThreadPool

/-!
# Procedures of the motor controller

The functions that block run as small machines. A program counter names the
next access to something shared, and a `Move` is one such access: the action
it performs, the sleep that follows, and where the procedure goes on or what it
returns. Sleeps last at least as long as the source asks for.
-/

namespace PolishingRobot.Motor

open Runs

/-- What the node publishes. -/
inductive Publication where
  | velocity (data : List ℚ)
  | status (data : List ℚ)
  | alarm (text : String)
  | error (raised : Bool)
  deriving DecidableEq, Repr

/-- The members of node and controller that more than one thread uses.
`tractionEnableMutex` says whether the mutex is held; `spinning` says whether
callbacks are being called. -/
structure Shared where
  now : Time
  drives : Drives := fun _ => {}
  lastCmdTime : Time := 0
  lastResetAttempt : Time := 0
  motorsEnabled : Bool := false
  transitionInProgress : Bool := false
  isError : Bool := false
  lastTractionEnableCmd : Int := -1
  brakeEngaged : Bool := false
  brakeFbInitialized : Bool := false
  lastBrakeWantEnabled : Bool := false
  tractionEnableMutex : Bool := false
  isRunning : Bool := false
  spinning : Bool := false

/-- The atomic accesses that change something shared or are seen outside. A
frame handed to `write` reaches the bus when the device is open. -/
inductive Action where
  | skip
  | write (m : CanMessage)
  | publish (p : Publication)
  | storeTarget (node : NodeId) (rpm : Rpm)
  | beginConfigure (node : NodeId)
  | stampFeedback (node : NodeId)
  | requestReinit (node : NodeId)
  | rememberAlarm (node : NodeId)
  | startSync (nodes : List NodeId)
  | stopSync
  | stampCmd
  | stampResetAttempt
  | storeMotorsEnabled (on : Bool)
  | storeError (on : Bool)
  | takeTransition
  | releaseTransition
  | lock
  | unlock
  | commit (want : Bool)
  | storeTraction (on : Bool)
  | storeBrake (engaged : Bool)
  | startSpinning
  | stopSpinning
  deriving DecidableEq, Repr

namespace Shared

/-- The effect of an action. A commit ends with the release of the mutex. -/
def apply (σ : Shared) : Action → Shared
  | .skip | .write _ | .publish _ => σ
  | .storeTarget node rpm => { σ with drives := σ.drives.storeTarget node rpm }
  | .beginConfigure node => { σ with drives := σ.drives.beginConfigure node σ.now }
  | .stampFeedback node => { σ with drives := σ.drives.stampFeedback node σ.now }
  | .requestReinit node => { σ with drives := σ.drives.requestReinit node σ.now }
  | .rememberAlarm node => { σ with drives := σ.drives.rememberAlarm node }
  | .startSync nodes => { σ with isRunning := true, drives := σ.drives.stampAll σ.now nodes }
  | .stopSync => { σ with isRunning := false }
  | .stampCmd => { σ with lastCmdTime := σ.now }
  | .stampResetAttempt => { σ with lastResetAttempt := σ.now }
  | .storeMotorsEnabled on => { σ with motorsEnabled := on }
  | .storeError on => { σ with isError := on }
  | .takeTransition => { σ with transitionInProgress := true }
  | .releaseTransition => { σ with transitionInProgress := false }
  | .lock => { σ with tractionEnableMutex := true }
  | .unlock => { σ with tractionEnableMutex := false }
  | .commit want => { σ with
      brakeFbInitialized := true, lastBrakeWantEnabled := want, tractionEnableMutex := false }
  | .storeTraction on => { σ with lastTractionEnableCmd := if on then 1 else 0 }
  | .storeBrake engaged => { σ with brakeEngaged := engaged }
  | .startSpinning => { σ with spinning := true }
  | .stopSpinning => { σ with spinning := false }

end Shared

/-- One access of a procedure: its action, the sleep after it, and the next
program counter (`inl`) or the result (`inr`). -/
structure Move (Pc Result : Type) where
  act : Action := .skip
  sleep : Time := 0
  next : Pc ⊕ Result

/-- Run a procedure inside another one. When it returns, the caller sleeps and
goes on as `back` says. -/
def Move.call {Pc Result Pc' Result' : Type} (m : Move Pc Result) (inside : Pc → Pc')
    (back : Result → Time × (Pc' ⊕ Result')) : Move Pc' Result' :=
  match m.next with
  | .inl pc => { act := m.act, sleep := m.sleep, next := .inl (inside pc) }
  | .inr r => { act := m.act, sleep := m.sleep + (back r).1, next := (back r).2 }

@[simp] theorem Move.call_act {Pc Result Pc' Result' : Type} (m : Move Pc Result)
    (inside : Pc → Pc') (back : Result → Time × (Pc' ⊕ Result')) :
    (m.call inside back).act = m.act := by
  unfold Move.call
  split <;> rfl

inductive WaitForState where
  | start
  | test (since : Time)
  | read (since : Time)
  deriving DecidableEq, Repr

/-- The loop tests the clock first; a drive in `FAULT` ends the wait. -/
def waitForState (σ : Shared) (node : NodeId) (target : Cia402State) (timeout : Time) :
    WaitForState → Move WaitForState Bool
  | .start => { next := .inl (.test σ.now) }
  | .test since =>
      if σ.now - since < timeout then { next := .inl (.read since) } else { next := .inr false }
  | .read since =>
      let current := σ.drives.stateOf node
      if current = target then { next := .inr true }
      else if current = .fault then { next := .inr false }
      else { sleep := 1 / 100, next := .inl (.test since) }

/-- The program counters of one asynchronous task. `again` is the second
writing of a controlword. -/
inductive EnableTask where
  | guard
  | setMode
  | readInitial
  | faultReset
  | shutdown (again : Bool)
  | awaitReady (wait : WaitForState)
  | switchOn (again : Bool)
  | awaitSwitchedOn (wait : WaitForState)
  | enableOperation (again : Bool)
  | awaitEnabled (wait : WaitForState)
  deriving DecidableEq, Repr

/-- The task of one node: mode 3 is velocity. -/
def enableTask (σ : Shared) (node : NodeId) : EnableTask → Move EnableTask Bool
  | .guard =>
      if σ.drives.isOperationEnabled node then { next := .inr true }
      else { next := .inl .setMode }
  | .setMode =>
      { act := .write (.sdo node (sdoDownload 0x2F 0x6060 0 3)), sleep := 1 / 20
        next := .inl .readInitial }
  | .readInitial =>
      if σ.drives.stateOf node = .fault then { next := .inl .faultReset }
      else { sleep := 1 / 10, next := .inl (.shutdown false) }
  | .faultReset =>
      { act := .write (.rpdo1 node Controlword.faultReset 0), sleep := 1 / 10 + 1 / 10
        next := .inl (.shutdown false) }
  | .shutdown false =>
      { act := .write (.rpdo1 node Controlword.shutdown 3), sleep := 1 / 10
        next := .inl (.shutdown true) }
  | .shutdown true =>
      { act := .write (.rpdo1 node Controlword.shutdown 3), next := .inl (.awaitReady .start) }
  | .awaitReady wait =>
      (waitForState σ node .readyToSwitchOn 2 wait).call .awaitReady fun ok =>
        if ok then (1 / 10, .inl (.switchOn false)) else (0, .inr false)
  | .switchOn false =>
      { act := .write (.rpdo1 node Controlword.switchOn 3), sleep := 1 / 10
        next := .inl (.switchOn true) }
  | .switchOn true =>
      { act := .write (.rpdo1 node Controlword.switchOn 3)
        next := .inl (.awaitSwitchedOn .start) }
  | .awaitSwitchedOn wait =>
      (waitForState σ node .switchedOn 2 wait).call .awaitSwitchedOn fun ok =>
        if ok then (1 / 10, .inl (.enableOperation false)) else (0, .inr false)
  | .enableOperation false =>
      { act := .write (.rpdo1 node Controlword.enableOperation 3), sleep := 1 / 10
        next := .inl (.enableOperation true) }
  | .enableOperation true =>
      { act := .write (.rpdo1 node Controlword.enableOperation 3)
        next := .inl (.awaitEnabled .start) }
  | .awaitEnabled wait =>
      (waitForState σ node .operationEnabled 2 wait).call .awaitEnabled fun ok => (0, .inr ok)

/-- A task with the time it sleeps until; `inr` once it has returned. -/
structure Task where
  node : NodeId
  wake : Time
  pc : EnableTask ⊕ Bool
  deriving DecidableEq

def Task.step (σ : Shared) (t : Task) : Option (Action × List Task) :=
  match t.pc with
  | .inl pc =>
      if t.wake ≤ σ.now then
        let m := enableTask σ t.node pc
        some (m.act, [⟨t.node, σ.now + m.sleep, m.next⟩])
      else none
  | .inr _ => none

/-- The results of the tasks, once all have returned. -/
def joinTasks : List Task → Option Bool
  | [] => some true
  | t :: ts =>
      match t.pc, joinTasks ts with
      | .inr ok, some rest => some (ok && rest)
      | _, _ => none

/-- The tasks that `enable_motor` starts, one for every drive. -/
def startTasks (now : Time) (nodes : List NodeId) : List Task :=
  nodes.map fun node => ⟨node, now, .inl .guard⟩

/-- `enable_motor` while it waits for its tasks: the task at the index moves,
and once all have returned their results are joined. -/
def enableMotor (σ : Shared) (index : Nat) (tasks : List Task) : Option (Move (List Task) Bool) :=
  match joinTasks tasks with
  | some ok => some { next := .inr ok }
  | none => (stepAt (Task.step σ) tasks index).map fun p => { act := p.1, next := .inl p.2 }

inductive DisableMotor where
  | zero (rest : List NodeId)
  | shutdown (rest : List NodeId)
  deriving DecidableEq, Repr

def disableMotor (nodes : List NodeId) : DisableMotor → Move DisableMotor Unit
  | .zero (node :: rest) =>
      { act := .write (sendVelocityCommand node 0), next := .inl (.zero rest) }
  | .zero [] => { sleep := 1 / 20, next := .inl (.shutdown nodes) }
  | .shutdown (node :: rest) =>
      { act := .write (.rpdo1 node Controlword.shutdown 3), sleep := 1 / 20
        next := .inl (.shutdown rest) }
  | .shutdown [] => { next := .inr () }

inductive ConfigureNode where
  | begin
  | resetCommunication
  | mapping (rest : List (List UInt8))
  | startNode
  | stamp
  deriving DecidableEq, Repr

def configureNode (node : NodeId) : ConfigureNode → Move ConfigureNode Unit
  | .begin => { act := .beginConfigure node, next := .inl .resetCommunication }
  | .resetCommunication =>
      { act := .write (.nmt nmtResetCommunication node), sleep := 1 / 2
        next := .inl (.mapping (pdoMappings node)) }
  | .mapping (payload :: rest) =>
      { act := .write (.sdo node payload), sleep := 1 / 50, next := .inl (.mapping rest) }
  | .mapping [] => { next := .inl .startNode }
  | .startNode =>
      { act := .write (.nmt nmtStartRemoteNode node), sleep := 1 / 10, next := .inl .stamp }
  | .stamp => { act := .stampFeedback node, next := .inr () }

inductive ResetMotor where
  | reinit (rest : List NodeId)
  | configure (node : NodeId) (rest : List NodeId) (pc : ConfigureNode)
  | guard (rest : List NodeId)
  | faultReset (node : NodeId) (rest : List NodeId) (again : Bool)
  | enabling (tasks : List Task)
  | verify (rest : List NodeId) (ok : Bool) (wait : WaitForState)
  deriving DecidableEq

/-- The result of the inner `enable_motor` is not used: the last loop waits for
every drive again. -/
def resetMotor (nodes : List NodeId) (σ : Shared) (index : Nat) :
    ResetMotor → Option (Move ResetMotor Bool)
  | .reinit (node :: rest) =>
      if (σ.drives node).needsReinit then some { next := .inl (.configure node rest .begin) }
      else some { next := .inl (.reinit rest) }
  | .reinit [] => some { next := .inl (.guard nodes) }
  | .configure node rest pc =>
      some ((configureNode node pc).call (.configure node rest) fun _ => (0, .inl (.reinit rest)))
  | .guard (node :: rest) =>
      if σ.drives.isOperationEnabled node then some { next := .inl (.guard rest) }
      else some { next := .inl (.faultReset node rest false) }
  | .guard [] => some { next := .inl (.enabling (startTasks σ.now nodes)) }
  | .faultReset node rest false =>
      some { act := .write (.rpdo1 node Controlword.faultReset 0), sleep := 1 / 10
             next := .inl (.faultReset node rest true) }
  | .faultReset node rest true =>
      some { act := .write (.rpdo1 node Controlword.faultReset 0), next := .inl (.guard rest) }
  | .enabling tasks =>
      (enableMotor σ index tasks).map fun m =>
        m.call .enabling fun _ => (0, .inl (.verify nodes true .start))
  | .verify (node :: rest) ok wait =>
      some ((waitForState σ node .operationEnabled 2 wait).call (.verify (node :: rest) ok)
        fun reached => (0, .inl (.verify rest (ok && reached) .start)))
  | .verify [] ok _ => some { next := .inr ok }

end PolishingRobot.Motor
