import PolishingRobot.Motor.Node

/-!
# What a step can do

`Acts` lists once, for every thread, the accesses it can make at a program
counter. `Stepped` splits a step of the system into the move of one thread, the
passing of time, a received frame and the start of a callback. Invariants are
derived from these two alone.
-/

namespace PolishingRobot.Motor

open Runs

variable {c : Config} {σ : Shared} {s s' : State} {task : Nat}

/-- Accesses of the controller's procedures: reads, frames, and the two locked
blocks of `configure_node`. -/
def Action.isDrive : Action → Bool
  | .skip | .write _ | .beginConfigure _ | .stampFeedback _ => true
  | _ => false

@[simp] theorem waitForState_act (node : NodeId) (target : Cia402State) (timeout : Time)
    (pc : WaitForState) : (waitForState σ node target timeout pc).act = .skip := by
  cases pc with
  | start => rfl
  | test since => rw [waitForState]; split <;> rfl
  | read since =>
      dsimp only [waitForState]
      split
      · rfl
      · split <;> rfl

/-- A wait succeeds at a read that finds the state waited for. -/
theorem waitForState_true {node : NodeId} {target : Cia402State} {timeout : Time}
    {pc : WaitForState} (h : (waitForState σ node target timeout pc).next = .inr true) :
    (∃ since, pc = .read since) ∧ σ.drives.stateOf node = target := by
  cases pc with
  | start => cases h
  | test since => rw [waitForState] at h; split at h <;> cases h
  | read since =>
      dsimp only [waitForState] at h
      split at h
      · exact ⟨⟨since, rfl⟩, ‹_›⟩
      · split at h <;> cases h

/-- A called procedure goes on inside, or its caller goes on with the result. -/
theorem Move.call_next {Pc Result Pc' Result' : Type} {m : Move Pc Result} {inside : Pc → Pc'}
    {back : Result → Time × (Pc' ⊕ Result')} {x : Pc' ⊕ Result'}
    (h : (m.call inside back).next = x) :
    (∃ pc, m.next = .inl pc ∧ x = .inl (inside pc)) ∨ ∃ r, m.next = .inr r ∧ x = (back r).2 := by
  unfold Move.call at h
  split at h
  · exact .inl ⟨_, ‹_›, h.symm⟩
  · exact .inr ⟨_, ‹_›, h.symm⟩

/-- A call that goes on with every result does not return one. -/
theorem Move.call_next_ne {Pc Result Pc' Result' : Type} {m : Move Pc Result} {inside : Pc → Pc'}
    {back : Result → Time × (Pc' ⊕ Result')} {result : Result'}
    (hback : ∀ r, ∃ pc, (back r).2 = .inl pc) : (m.call inside back).next ≠ .inr result := by
  intro h
  rcases Move.call_next h with ⟨_, -, hinside⟩ | ⟨r, -, hreturn⟩
  · cases hinside
  · obtain ⟨pc, hpc⟩ := hback r
    rw [hpc] at hreturn
    cases hreturn

theorem enableTask_isDrive (node : NodeId) (pc : EnableTask) :
    (enableTask σ node pc).act.isDrive := by
  unfold enableTask
  repeat' split
  all_goals simp [Action.isDrive]

theorem Task.step_isDrive {t : Task} {a : Action} {us : List Task}
    (h : t.step σ = some (a, us)) : a.isDrive := by
  unfold Task.step at h
  split at h
  · split at h
    · obtain ⟨rfl, rfl⟩ := Prod.mk.inj (Option.some.inj h)
      exact enableTask_isDrive _ _
    · cases h
  · cases h

theorem enableMotor_isDrive {tasks : List Task} {m : Move (List Task) Bool}
    (h : enableMotor σ task tasks = some m) : m.act.isDrive := by
  unfold enableMotor at h
  split at h
  · cases h
    rfl
  · obtain ⟨⟨a, tasks'⟩, hstep, rfl⟩ := Option.map_eq_some_iff.mp h
    obtain ⟨_, _, _, _, _, _, hmove, _⟩ := stepAt_split hstep
    exact Task.step_isDrive hmove

theorem disableMotor_isDrive (nodes : List NodeId) (pc : DisableMotor) :
    (disableMotor nodes pc).act.isDrive := by
  unfold disableMotor
  split <;> rfl

theorem configureNode_isDrive (node : NodeId) (pc : ConfigureNode) :
    (configureNode node pc).act.isDrive := by
  unfold configureNode
  split <;> rfl

theorem resetMotor_isDrive {nodes : List NodeId} {pc : ResetMotor} {m : Move ResetMotor Bool}
    (h : resetMotor nodes σ task pc = some m) : m.act.isDrive := by
  unfold resetMotor at h
  split at h
  · split at h <;> cases h <;> rfl
  · cases h; rfl
  · cases h
    rw [Move.call_act]
    exact configureNode_isDrive _ _
  · split at h <;> cases h <;> rfl
  · cases h; rfl
  · cases h; rfl
  · cases h; rfl
  · obtain ⟨m', hm', rfl⟩ := Option.map_eq_some_iff.mp h
    rw [Move.call_act]
    exact enableMotor_isDrive hm'
  · cases h
    rw [Move.call_act, waitForState_act]
    rfl
  · cases h; rfl

/-- The accesses of `updateEnableState`. -/
inductive Evaluates : UpdateEnableState → Action → Prop
  | skip (pc : UpdateEnableState) : Evaluates pc .skip
  | lock : Evaluates .lock .lock
  | settled (want : Bool) : Evaluates (.compare want) .unlock
  | dropped (want : Bool) : Evaluates (.exchange want) .unlock
  | taken (want : Bool) : Evaluates (.exchange want) .takeTransition
  | commit (want : Bool) : Evaluates (.commit want) (.commit want)

theorem updateEnableState_evaluates {pc : UpdateEnableState}
    {m : Move UpdateEnableState (Option Bool)} (h : updateEnableState c σ pc = some m) :
    Evaluates pc m.act := by
  cases pc with
  | lock =>
      rw [updateEnableState] at h
      split at h
      · cases h
      · cases h; exact .lock
  | loadTraction => cases h; exact .skip _
  | loadBrake => cases h; exact .skip _
  | compare want =>
      rw [updateEnableState] at h
      split at h <;> cases h
      · exact .settled want
      · exact .skip _
  | exchange want =>
      rw [updateEnableState] at h
      split at h <;> cases h
      · exact .dropped want
      · exact .taken want
  | commit want => cases h; exact .commit want

/-- The evaluation of the interlock that a thread is in. -/
def Body.update : Body → Option UpdateEnableState
  | .main (.update pc) => some pc
  | .interlock (.update pc) => some pc
  | .transition (.update pc) => some pc
  | _ => none

/-- The thread runs a procedure of the controller. -/
def Body.drives : Body → Bool
  | .main (.configuring _ _ _) | .main (.destroyNode _) | .main (.destroyController _) => true
  | .sync _ => true
  | .transition (.enabling _) | .transition (.disabling _) => true
  | .recovery (.resetting _) => true
  | _ => false

/-- The accesses a thread can make. -/
inductive Acts : Body → Action → Prop
  | skip (b : Body) : Acts b .skip
  | drive {b : Body} {a : Action} : b.drives = true → a.isDrive → Acts b a
  | evaluation (b : Body) {pc : UpdateEnableState} {a : Action} :
      b.update = some pc → Evaluates pc a → Acts b a
  | startSync (nodes : List NodeId) : Acts (.main .startSync) (.startSync nodes)
  | subscribe : Acts (.main .subscribe) .stampCmd
  | spin : Acts (.main .spin) .startSpinning
  | stopSpinning : Acts (.main .running) .stopSpinning
  | stopSync : Acts (.main .stopSync) .stopSync
  | stampCmd (data : List ℚ) : Acts (.cmd (.stamp data)) .stampCmd
  | command (node : NodeId) (rpm : Rpm) (rest : List (NodeId × Rpm)) :
      Acts (.cmd (.store ((node, rpm) :: rest))) (setTargetVelocity node rpm)
  | watchdog (node : NodeId) (rest : List NodeId) :
      Acts (.control (.watchdogZero (node :: rest))) (setTargetVelocity node 0)
  | publish (pc : ControlLoop) (p : Publication) : Acts (.control pc) (.publish p)
  | rememberAlarm (pc : ControlLoop) (node : NodeId) : Acts (.control pc) (.rememberAlarm node)
  | feedbackLost (node : NodeId) (rest : List NodeId) (found : Findings) :
      Acts (.control (.feedbackLost node rest found)) (.requestReinit node)
  | storeError (found : Findings) (on : Bool) :
      Acts (.control (.storeError found)) (.storeError on)
  | takeRecovery : Acts (.control .exchange) .takeTransition
  | startRecovery : Acts (.control .startRecovery) .stampResetAttempt
  | storeTraction (on : Bool) : Acts (.interlock (.storeTraction on)) (.storeTraction on)
  | storeBrake (engaged : Bool) : Acts (.interlock (.storeBrake engaged)) (.storeBrake engaged)
  | zeroing (node : NodeId) (rest : List NodeId) :
      Acts (.transition (.zeroing (node :: rest))) (setTargetVelocity node 0)
  | enabled (ok : Bool) : Acts (.transition (.storeEnabled ok)) (.storeMotorsEnabled ok)
  | disabled : Acts (.transition .storeDisabled) (.storeMotorsEnabled false)
  | release (want : Bool) : Acts (.transition (.release want)) .releaseTransition
  | recovered (ok : Bool) : Acts (.recovery (.storeEnabled ok)) (.storeMotorsEnabled ok)
  | clearError : Acts (.recovery .clearError) (.storeError false)
  | releaseRecovery : Acts (.recovery .release) .releaseTransition

variable {turn : Turn}

theorem updateTurn_acts {b : Body} {pc : UpdateEnableState} {inside : UpdateEnableState → Body}
    {after : Option Body} (hb : b.update = some pc)
    (h : updateTurn c σ pc inside after = some turn) : Acts b turn.act := by
  obtain ⟨m, hm, rfl⟩ := Option.map_eq_some_iff.mp h
  rw [Move.turn_act]
  exact .evaluation b hb (updateEnableState_evaluates hm)

theorem mainThread_acts {threads : List Thread} {pc : Main}
    (h : mainThread c σ threads pc = some turn) : Acts (.main pc) turn.act := by
  cases pc with
  | configure rest => cases rest <;> cases h <;> exact .skip _
  | configuring node rest pc =>
      cases h
      rw [Move.turn_act]
      exact .drive rfl (configureNode_isDrive _ _)
  | startSync => cases h; exact .startSync _
  | subscribe => cases h; exact .subscribe
  | update pc => exact updateTurn_acts rfl h
  | spin => cases h; exact .spin
  | running =>
      rw [mainThread] at h
      split at h <;> cases h
      exact .stopSpinning
  | destroyNode pc =>
      cases h
      rw [Move.turn_act]
      exact .drive rfl (disableMotor_isDrive _ _)
  | stopSync => cases h; exact .stopSync
  | joinSync =>
      rw [mainThread] at h
      split at h <;> cases h
      exact .skip _
  | destroyController pc =>
      cases h
      rw [Move.turn_act]
      exact .drive rfl (disableMotor_isDrive _ _)

theorem syncLoop_acts (pc : SyncLoop) : Acts (.sync pc) (syncLoop c σ pc).act := by
  refine .drive rfl ?_
  unfold syncLoop
  split <;> rfl

theorem cmdCallback_acts (pc : CmdCallback) : Acts (.cmd pc) (cmdCallback c σ pc).act := by
  rcases pc with data | data | data | (_ | ⟨⟨node, rpm⟩, rest⟩)
  · exact .skip _
  · exact .stampCmd data
  · exact .skip _
  · exact .skip _
  · exact .command node rpm rest

theorem controlLoop_acts (pc : ControlLoop) : Acts (.control pc) (controlLoop c σ pc).act := by
  cases pc with
  | watchdogZero rest =>
      cases rest with
      | nil => exact .skip _
      | cons node rest => exact .watchdog node rest
  | velocity rest data =>
      cases rest with
      | nil => exact .publish _ _
      | cons node rest => exact .skip _
  | status rest data =>
      cases rest with
      | nil => exact .publish _ _
      | cons node rest => exact .skip _
  | alarms rest found =>
      cases rest with
      | nil => exact .skip _
      | cons node rest => exact .rememberAlarm _ _
  | publishAlarm text rest => exact .publish _ _
  | feedback rest found => cases rest <;> exact .skip _
  | feedbackAlarm node lost rest found => exact .publish _ _
  | feedbackLost node rest found => exact .feedbackLost node rest found
  | storeError found => exact .storeError found _
  | publishError found => exact .publish _ _
  | enabled rest found => cases rest <;> exact .skip _
  | reinitPending rest => cases rest <;> exact .skip _
  | exchange =>
      rw [controlLoop]
      split
      · exact .skip _
      · exact .takeRecovery
  | startRecovery => exact .startRecovery
  | watchdogLoad => exact .skip _
  | watchdogTime => exact .skip _
  | wantTraction => exact .skip _
  | wantBrake traction => exact .skip _
  | loadTransition => exact .skip _
  | interval => exact .skip _

theorem interlockCallback_acts {pc : Interlock}
    (h : interlockCallback c σ pc = some turn) : Acts (.interlock pc) turn.act := by
  cases pc with
  | storeTraction on => cases h; exact .storeTraction on
  | storeBrake engaged => cases h; exact .storeBrake engaged
  | update pc => exact updateTurn_acts rfl h

theorem transitionThread_acts {pc : Transition}
    (h : transitionThread c σ task pc = some turn) : Acts (.transition pc) turn.act := by
  cases pc with
  | enabling tasks =>
      obtain ⟨m, hm, rfl⟩ := Option.map_eq_some_iff.mp h
      rw [Move.turn_act]
      exact .drive rfl (enableMotor_isDrive hm)
  | storeEnabled ok => cases h; exact .enabled ok
  | zeroing rest =>
      cases rest with
      | nil => cases h; exact .skip _
      | cons node rest => cases h; exact .zeroing node rest
  | disabling pc =>
      cases h
      rw [Move.turn_act]
      exact .drive rfl (disableMotor_isDrive _ _)
  | storeDisabled => cases h; exact .disabled
  | release want => cases h; exact .release want
  | recheckTraction want => cases h; exact .skip _
  | recheckBrake want traction =>
      rw [transitionThread] at h
      split at h <;> cases h <;> exact .skip _
  | update pc => exact updateTurn_acts rfl h

theorem recoveryThread_acts {pc : Recovery}
    (h : recoveryThread c σ task pc = some turn) : Acts (.recovery pc) turn.act := by
  cases pc with
  | resetting pc =>
      obtain ⟨m, hm, rfl⟩ := Option.map_eq_some_iff.mp h
      rw [Move.turn_act]
      exact .drive rfl (resetMotor_isDrive hm)
  | storeEnabled ok => cases h; exact .recovered ok
  | clearError => cases h; exact .clearError
  | release => cases h; exact .releaseRecovery

/-- Whatever a thread does is listed. -/
theorem Body.turn_acts {b : Body} (h : b.turn c s task = some turn) : Acts b turn.act := by
  cases b with
  | main pc => exact mainThread_acts h
  | sync pc => cases h; exact syncLoop_acts pc
  | cmd pc => cases h; exact cmdCallback_acts pc
  | control pc => cases h; exact controlLoop_acts pc
  | interlock pc => exact interlockCallback_acts h
  | transition pc => exact transitionThread_acts h
  | recovery pc => exact recoveryThread_acts h

/-- The procedures of the controller in their threads. -/
inductive Writes (c : Config) (σ : Shared) (task : Nat) : Body → Action → Prop
  | configures (node : NodeId) (rest : List NodeId) (pc : ConfigureNode) :
      Writes c σ task (.main (.configuring node rest pc)) (configureNode node pc).act
  | disables {b : Body} {pc : DisableMotor}
      (hb : b = .main (.destroyNode pc) ∨ b = .main (.destroyController pc) ∨
        b = .transition (.disabling pc)) :
      Writes c σ task b (disableMotor c.driveMotorIds pc).act
  | sends (pc : SyncLoop) : Writes c σ task (.sync pc) (syncLoop c σ pc).act
  | enables {tasks : List Task} {m : Move (List Task) Bool}
      (hm : enableMotor σ task tasks = some m) :
      Writes c σ task (.transition (.enabling tasks)) m.act
  | resets {pc : ResetMotor} {m : Move ResetMotor Bool}
      (hm : resetMotor c.driveMotorIds σ task pc = some m) :
      Writes c σ task (.recovery (.resetting pc)) m.act

/-- A thread that runs a procedure of the controller makes the access of the procedure. -/
theorem Body.turn_procedure {b : Body} (h : b.turn c s task = some turn)
    (hdrives : b.drives = true) : Writes c s.shared task b turn.act := by
  cases b with
  | main pc =>
      cases pc with
      | configuring node rest pc =>
          cases h
          rw [Move.turn_act]
          exact .configures node rest pc
      | destroyNode pc =>
          cases h
          rw [Move.turn_act]
          exact .disables (.inl rfl)
      | destroyController pc =>
          cases h
          rw [Move.turn_act]
          exact .disables (.inr (.inl rfl))
      | _ => cases hdrives
  | sync pc => cases h; exact .sends pc
  | transition pc =>
      cases pc with
      | enabling tasks =>
          obtain ⟨m', hm', rfl⟩ := Option.map_eq_some_iff.mp h
          rw [Move.turn_act]
          exact .enables hm'
      | disabling pc =>
          cases h
          rw [Move.turn_act]
          exact .disables (.inr (.inr rfl))
      | _ => cases hdrives
  | recovery pc =>
      cases pc with
      | resetting pc =>
          obtain ⟨m', hm', rfl⟩ := Option.map_eq_some_iff.mp h
          rw [Move.turn_act]
          exact .resets hm'
      | _ => cases hdrives
  | _ => cases hdrives

/-- Frames are written by the procedures of the controller. -/
theorem Body.turn_writes {b : Body} {m : CanMessage} (h : b.turn c s task = some turn)
    (hm : turn.act = .write m) : Writes c s.shared task b turn.act := by
  have hdrives : b.drives = true := by
    have hacts := Body.turn_acts h
    rw [hm] at hacts
    generalize ha : Action.write m = a at hacts
    cases hacts with
    | drive hb _ => exact hb
    | evaluation _ _ he => subst ha; cases he
    | _ => cases ha
  exact Body.turn_procedure h hdrives

/-- The thread that stays and the one that is started. -/
theorem Turn.mem_threads {now : Time} {u : Thread} (hu : u ∈ turn.threads now) :
    turn.self = some u.body ∨ turn.spawned = some u.body := by
  rcases List.mem_append.mp hu with h | h
  · left
    cases hself : turn.self with
    | none => simp [hself] at h
    | some b =>
        have hu' : u = ⟨b, now + turn.sleep⟩ := by simpa [hself] using h
        rw [hu']
  · right
    cases hspawned : turn.spawned with
    | none => simp [hspawned] at h
    | some b =>
        have hu' : u = ⟨b, now⟩ := by simpa [hspawned] using h
        rw [hu']

theorem Turn.self_mem {now : Time} {u : Body} (h : turn.self = some u) :
    (⟨u, now + turn.sleep⟩ : Thread) ∈ turn.threads now := by
  simp [Turn.threads, h]

theorem Move.turn_self {Pc Result : Type} {m : Move Pc Result} {inside : Pc → Body}
    {back : Result → Option Body × Option Body} {u : Body}
    (h : (m.turn inside back).self = some u) :
    (∃ pc, m.next = .inl pc ∧ u = inside pc) ∨ ∃ r, m.next = .inr r ∧ (back r).1 = some u := by
  unfold Move.turn at h
  split at h
  · exact .inl ⟨_, ‹_›, (Option.some.inj h).symm⟩
  · exact .inr ⟨_, ‹_›, h⟩

theorem Move.turn_spawned {Pc Result : Type} {m : Move Pc Result} {inside : Pc → Body}
    {back : Result → Option Body × Option Body} {u : Body}
    (h : (m.turn inside back).spawned = some u) :
    ∃ r, m.next = .inr r ∧ (back r).2 = some u := by
  unfold Move.turn at h
  split at h
  · cases h
  · exact ⟨_, ‹_›, h⟩

theorem updateTurn_self {pc : UpdateEnableState} {inside : UpdateEnableState → Body}
    {after : Option Body} {u : Body} (h : updateTurn c σ pc inside after = some turn)
    (hu : turn.self = some u) : (∃ pc', u = inside pc') ∨ after = some u := by
  obtain ⟨m, -, rfl⟩ := Option.map_eq_some_iff.mp h
  rcases Move.turn_self hu with ⟨pc', -, rfl⟩ | ⟨_, -, hback⟩
  · exact .inl ⟨pc', rfl⟩
  · exact .inr hback

/-- What a turn can start. -/
inductive Spawns (c : Config) (now : Time) : Body → Prop
  | sync : Spawns c now (.sync .head)
  | transition (want : Bool) : Spawns c now (.transition (startTransition c now want))
  | recovery : Spawns c now (.recovery (.resetting (.reinit c.driveMotorIds)))

theorem Spawns.kind_ne_main {b : Body} {now : Time} (h : Spawns c now b) : b.kind ≠ .main := by
  cases h <;> exact Kind.noConfusion

theorem Spawns.kind_ne_control {b : Body} {now : Time} (h : Spawns c now b) :
    b.kind ≠ .control := by
  cases h <;> exact Kind.noConfusion

theorem updateTurn_spawned {pc : UpdateEnableState} {inside : UpdateEnableState → Body}
    {after : Option Body} {u : Body} (h : updateTurn c σ pc inside after = some turn)
    (hu : turn.spawned = some u) : Spawns c σ.now u := by
  obtain ⟨m, -, rfl⟩ := Option.map_eq_some_iff.mp h
  obtain ⟨started, -, hback⟩ := Move.turn_spawned hu
  obtain ⟨want, -, rfl⟩ := Option.map_eq_some_iff.mp hback
  exact .transition want

theorem syncLoop_self {pc : SyncLoop} {u : Body} (h : (syncLoop c σ pc).self = some u) :
    u.kind = .sync := by
  unfold syncLoop at h
  split at h
  · split at h <;> cases h
    rfl
  all_goals
    cases h
    rfl

theorem cmdCallback_self {pc : CmdCallback} {u : Body}
    (h : (cmdCallback c σ pc).self = some u) : u.kind = .cmd := by
  unfold cmdCallback at h
  split at h
  · split at h <;> cases h
    rfl
  · cases h; rfl
  · split at h <;> cases h
    rfl
  · cases h; rfl
  · cases h

/-- Where a tick can go on. The loop of the watchdog and the start of a recovery
are entered at one place each. -/
inductive Follows (c : Config) : ControlLoop → ControlLoop → Prop
  | zeroing : Follows c .watchdogTime (.watchdogZero c.driveMotorIds)
  | zeroed (node : NodeId) (rest : List NodeId) :
      Follows c (.watchdogZero (node :: rest)) (.watchdogZero rest)
  | recovery : Follows c .exchange .startRecovery
  | other (pc : ControlLoop) {pc' : ControlLoop} (hzero : ∀ rest, pc' ≠ .watchdogZero rest)
      (hstart : pc' ≠ .startRecovery) : Follows c pc pc'

theorem controlLoop_follows {pc : ControlLoop} {u : Body}
    (h : (controlLoop c σ pc).self = some u) : ∃ pc', u = .control pc' ∧ Follows c pc pc' := by
  have other : ∀ {pc' : ControlLoop}, u = .control pc' → (∀ rest, pc' ≠ .watchdogZero rest) →
      pc' ≠ .startRecovery → ∃ pc', u = .control pc' ∧ Follows c pc pc' :=
    fun hu hzero hstart => ⟨_, hu, .other pc hzero hstart⟩
  cases pc with
  | watchdogTime =>
      dsimp only [controlLoop] at h
      split at h <;> cases h
      · exact ⟨_, rfl, .zeroing⟩
      · exact other rfl nofun nofun
  | watchdogZero rest =>
      cases rest with
      | nil => cases h; exact other rfl nofun nofun
      | cons node rest => cases h; exact ⟨_, rfl, .zeroed node rest⟩
  | exchange =>
      dsimp only [controlLoop] at h
      split at h <;> cases h
      exact ⟨_, rfl, .recovery⟩
  | velocity rest data => cases rest <;> cases h <;> exact other rfl nofun nofun
  | status rest data => cases rest <;> cases h <;> exact other rfl nofun nofun
  | alarms rest found =>
      cases rest with
      | nil => cases h; exact other rfl nofun nofun
      | cons node rest =>
          dsimp only [controlLoop] at h
          split at h <;> cases h <;> exact other rfl nofun nofun
  | feedback rest found =>
      cases rest with
      | nil => cases h; exact other rfl nofun nofun
      | cons node rest =>
          dsimp only [controlLoop] at h
          split at h
          · cases h; exact other rfl nofun nofun
          · split at h <;> cases h <;> exact other rfl nofun nofun
  | feedbackAlarm node lost rest found => cases lost <;> cases h <;> exact other rfl nofun nofun
  | enabled rest found =>
      cases rest with
      | nil =>
          dsimp only [controlLoop] at h
          split at h <;> cases h <;> exact other rfl nofun nofun
      | cons node rest => cases h; exact other rfl nofun nofun
  | reinitPending rest =>
      cases rest with
      | nil => cases h
      | cons node rest =>
          dsimp only [controlLoop] at h
          split at h <;> cases h <;> exact other rfl nofun nofun
  | startRecovery => cases h
  | watchdogLoad =>
      dsimp only [controlLoop] at h
      split at h <;> cases h <;> exact other rfl nofun nofun
  | wantBrake traction =>
      dsimp only [controlLoop] at h
      split at h <;> cases h
      exact other rfl nofun nofun
  | loadTransition =>
      dsimp only [controlLoop] at h
      split at h <;> cases h
      exact other rfl nofun nofun
  | interval =>
      dsimp only [controlLoop] at h
      split at h <;> cases h
      exact other rfl nofun nofun
  | publishAlarm text rest => cases h; exact other rfl nofun nofun
  | feedbackLost node rest found => cases h; exact other rfl nofun nofun
  | storeError found => cases h; exact other rfl nofun nofun
  | publishError found => cases h; exact other rfl nofun nofun
  | wantTraction => cases h; exact other rfl nofun nofun

theorem interlockCallback_self {pc : Interlock} {u : Body}
    (h : interlockCallback c σ pc = some turn) (hu : turn.self = some u) :
    u.kind = .interlock := by
  cases pc with
  | storeTraction on => cases h; cases hu; rfl
  | storeBrake engaged => cases h; cases hu; rfl
  | update pc =>
      rcases updateTurn_self h hu with ⟨pc', rfl⟩ | hnone
      · rfl
      · cases hnone

theorem transitionThread_self {pc : Transition} {u : Body}
    (h : transitionThread c σ task pc = some turn) (hu : turn.self = some u) :
    u.kind = .transition := by
  cases pc with
  | enabling tasks =>
      obtain ⟨m, -, rfl⟩ := Option.map_eq_some_iff.mp h
      rcases Move.turn_self hu with ⟨tasks', -, rfl⟩ | ⟨ok, -, hback⟩
      · rfl
      · cases hback; rfl
  | storeEnabled ok => cases h; cases hu; rfl
  | zeroing rest => cases rest <;> cases h <;> cases hu <;> rfl
  | disabling pc =>
      cases h
      rcases Move.turn_self hu with ⟨pc', -, rfl⟩ | ⟨_, -, hback⟩
      · rfl
      · cases hback; rfl
  | storeDisabled => cases h; cases hu; rfl
  | release want => cases h; cases hu; rfl
  | recheckTraction want => cases h; cases hu; rfl
  | recheckBrake want traction =>
      rw [transitionThread] at h
      split at h <;> cases h <;> cases hu
      rfl
  | update pc =>
      rcases updateTurn_self h hu with ⟨pc', rfl⟩ | hnone
      · rfl
      · cases hnone

theorem recoveryThread_self {pc : Recovery} {u : Body}
    (h : recoveryThread c σ task pc = some turn) (hu : turn.self = some u) :
    u.kind = .recovery := by
  cases pc with
  | resetting pc =>
      obtain ⟨m, -, rfl⟩ := Option.map_eq_some_iff.mp h
      rcases Move.turn_self hu with ⟨pc', -, rfl⟩ | ⟨ok, -, hback⟩
      · rfl
      · cases hback; rfl
  | storeEnabled ok => cases h; cases hu; rfl
  | clearError => cases h; cases hu; rfl
  | release => cases h; cases hu

theorem mainThread_self {threads : List Thread} {pc : Main} {u : Body}
    (h : mainThread c σ threads pc = some turn) (hu : turn.self = some u) : u.kind = .main := by
  cases pc with
  | configure rest => cases rest <;> cases h <;> cases hu <;> rfl
  | configuring node rest pc =>
      cases h
      rcases Move.turn_self hu with ⟨pc', -, rfl⟩ | ⟨_, -, hback⟩
      · rfl
      · cases hback; rfl
  | startSync => cases h; cases hu; rfl
  | subscribe => cases h; cases hu; rfl
  | update pc =>
      rcases updateTurn_self h hu with ⟨pc', rfl⟩ | hspin
      · rfl
      · cases hspin; rfl
  | spin => cases h; cases hu; rfl
  | running =>
      rw [mainThread] at h
      split at h <;> cases h
      cases hu; rfl
  | destroyNode pc =>
      cases h
      rcases Move.turn_self hu with ⟨pc', -, rfl⟩ | ⟨_, -, hback⟩
      · rfl
      · cases hback; rfl
  | stopSync => cases h; cases hu; rfl
  | joinSync =>
      rw [mainThread] at h
      split at h <;> cases h
      cases hu; rfl
  | destroyController pc =>
      cases h
      rcases Move.turn_self hu with ⟨pc', -, rfl⟩ | ⟨_, -, hback⟩
      · rfl
      · cases hback

/-- A thread goes on as a thread of its own kind. -/
theorem Body.turn_kind {b u : Body} (h : b.turn c s task = some turn)
    (hu : turn.self = some u) : u.kind = b.kind := by
  cases b with
  | main pc => exact mainThread_self h hu
  | sync pc => cases h; exact syncLoop_self hu
  | cmd pc => cases h; exact cmdCallback_self hu
  | control pc =>
      cases h
      obtain ⟨pc', rfl, -⟩ := controlLoop_follows hu
      rfl
  | interlock pc => exact interlockCallback_self h hu
  | transition pc => exact transitionThread_self h hu
  | recovery pc => exact recoveryThread_self h hu

/-- Only these threads are started, each at its beginning. -/
theorem Body.turn_spawns {b u : Body} (h : b.turn c s task = some turn)
    (hu : turn.spawned = some u) : Spawns c s.shared.now u := by
  cases b with
  | main pc =>
      cases pc with
      | configure rest => cases rest <;> cases h <;> cases hu
      | configuring node rest pc =>
          cases h
          obtain ⟨_, -, hback⟩ := Move.turn_spawned hu
          cases hback
      | startSync => cases h; cases hu; exact .sync
      | subscribe => cases h; cases hu
      | update pc => exact updateTurn_spawned h hu
      | spin => cases h; cases hu
      | running =>
          dsimp only [Body.turn, mainThread] at h
          split at h <;> cases h
          cases hu
      | destroyNode pc =>
          cases h
          obtain ⟨_, -, hback⟩ := Move.turn_spawned hu
          cases hback
      | stopSync => cases h; cases hu
      | joinSync =>
          dsimp only [Body.turn, mainThread] at h
          split at h <;> cases h
          cases hu
      | destroyController pc =>
          cases h
          obtain ⟨_, -, hback⟩ := Move.turn_spawned hu
          cases hback
  | sync pc =>
      cases h
      dsimp only [syncLoop] at hu
      split at hu <;> cases hu
  | cmd pc =>
      cases h
      dsimp only [cmdCallback] at hu
      split at hu <;> cases hu
  | control pc =>
      cases h
      unfold controlLoop at hu
      split at hu <;> first | (cases hu; exact .recovery) | (split at hu <;> cases hu) | cases hu
  | interlock pc =>
      cases pc with
      | storeTraction on => cases h; cases hu
      | storeBrake engaged => cases h; cases hu
      | update pc => exact updateTurn_spawned h hu
  | transition pc =>
      cases pc with
      | enabling tasks =>
          obtain ⟨m, -, rfl⟩ := Option.map_eq_some_iff.mp h
          obtain ⟨_, -, hback⟩ := Move.turn_spawned hu
          cases hback
      | storeEnabled ok => cases h; cases hu
      | zeroing rest => cases rest <;> cases h <;> cases hu
      | disabling pc =>
          cases h
          obtain ⟨_, -, hback⟩ := Move.turn_spawned hu
          cases hback
      | storeDisabled => cases h; cases hu
      | release want => cases h; cases hu
      | recheckTraction want => cases h; cases hu
      | recheckBrake want traction =>
          dsimp only [Body.turn, transitionThread] at h
          split at h <;> cases h <;> cases hu
      | update pc => exact updateTurn_spawned h hu
  | recovery pc =>
      cases pc with
      | resetting pc =>
          obtain ⟨m, -, rfl⟩ := Option.map_eq_some_iff.mp h
          obtain ⟨_, -, hback⟩ := Move.turn_spawned hu
          cases hback
      | storeEnabled ok => cases h; cases hu
      | clearError => cases h; cases hu
      | release => cases h; cases hu

/-- A thread after a move is the mover itself, started by it, or one of the others. -/
theorem Body.threads_after {pre post : List Thread} {b : Body} {u : Thread}
    (h : b.turn c s task = some turn) (hu : u ∈ pre ++ turn.threads s.shared.now ++ post) :
    turn.self = some u.body ∨ Spawns c s.shared.now u.body ∨ u ∈ pre ++ post := by
  rcases mem_replaced.mp hu with hmine | hother
  · rcases turn.mem_threads hmine with hself | hspawned
    · exact .inl hself
    · exact .inr (.inl (Body.turn_spawns h hspawned))
  · exact .inr (.inr hother)

def kindToken (k : Kind) (t : Thread) : Nat := if t.body.kind = k then 1 else 0

theorem kindTokens_eq_zero {k : Kind} {threads : List Thread} (h : anyOf threads k = false) :
    tokens (kindToken k) threads = 0 := by
  by_contra hpos
  obtain ⟨t, ht, hk⟩ := exists_of_tokens_pos (Nat.pos_of_ne_zero hpos)
  rw [kindToken] at hk
  split at hk
  · have hany : anyOf threads k = true := List.any_eq_true.mpr ⟨t, ht, decide_eq_true ‹_›⟩
    rw [h] at hany
    cases hany
  · cases hk

/-- Threads of a kind that no turn starts do not become more by a turn. -/
theorem kindTokens_moved {k : Kind} {pre post : List Thread} {t : Thread}
    (hk : ∀ u now, Spawns c now u → u.kind ≠ k) (hthreads : s.threads = pre ++ t :: post)
    (hturn : t.body.turn c s task = some turn) :
    tokens (kindToken k) (pre ++ turn.threads s.shared.now ++ post) ≤
      tokens (kindToken k) s.threads := by
  have hspawned : ∀ u, turn.spawned = some u → kindToken k ⟨u, s.shared.now⟩ = 0 :=
    fun u hu => if_neg (hk u _ (Body.turn_spawns hturn hu))
  have hself : ∀ u, turn.self = some u →
      kindToken k ⟨u, s.shared.now + turn.sleep⟩ = kindToken k t := by
    intro u hu
    simp only [kindToken, Body.turn_kind hturn hu]
  have hle : tokens (kindToken k) (turn.threads s.shared.now) ≤ kindToken k t := by
    unfold Turn.threads
    cases hs : turn.self with
    | none =>
        cases hp : turn.spawned with
        | none => simp
        | some u => simp [hspawned u hp]
    | some w =>
        cases hp : turn.spawned with
        | none => simp [hself w hs]
        | some u => simp [hself w hs, hspawned u hp]
  rw [hthreads]
  simp only [tokens_append, tokens_cons]
  omega

@[simp] theorem Shared.apply_now (σ : Shared) (a : Action) : (σ.apply a).now = σ.now := by
  cases a <;> rfl

theorem Shared.apply_lastCmdTime (σ : Shared) (a : Action) :
    (σ.apply a).lastCmdTime = σ.lastCmdTime ∨
      a = .stampCmd ∧ (σ.apply a).lastCmdTime = σ.now := by
  cases a with
  | stampCmd => exact .inr ⟨rfl, rfl⟩
  | _ => exact .inl rfl

theorem Shared.apply_spinning (σ : Shared) (a : Action) (h : (σ.apply a).spinning = true) :
    σ.spinning = true ∨ a = .startSpinning := by
  cases a with
  | startSpinning => exact .inr rfl
  | stopSpinning => cases h
  | _ => exact .inl h

/-- `last_cmd_time_` is stamped by the constructor and by the callback. -/
theorem Acts.stampCmd_cases {b : Body} (h : Acts b .stampCmd) :
    b = .main .subscribe ∨ ∃ data, b = .cmd (.stamp data) := by
  generalize ha : Action.stampCmd = a at h
  cases h with
  | drive _ hd => subst ha; cases hd
  | evaluation _ _ he => subst ha; cases he
  | subscribe => exact .inl rfl
  | stampCmd data => exact .inr ⟨data, rfl⟩
  | _ => cases ha

theorem Acts.startSpinning_eq {b : Body} (h : Acts b .startSpinning) : b = .main .spin := by
  generalize ha : Action.startSpinning = a at h
  cases h with
  | drive _ hd => subst ha; cases hd
  | evaluation _ _ he => subst ha; cases he
  | spin => rfl
  | _ => cases ha

/-- The callbacks that labels start. -/
inductive Starts : Label → Body → Prop
  | motorCmd (data : List ℚ) : Starts (.motorCmd data) (.cmd (.check data))
  | tick : Starts .tick (.control .watchdogLoad)
  | traction (on : Bool) : Starts (.traction on) (.interlock (.storeTraction on))
  | brake (engaged : Bool) : Starts (.brake engaged) (.interlock (.storeBrake engaged))

/-- The shape of a step. -/
inductive Stepped (c : Config) (s : State) : Label → State → Prop
  | moved {task : Nat} {pre post : List Thread} {t : Thread} {turn : Turn}
      (hthreads : s.threads = pre ++ t :: post) (hwake : t.wake ≤ s.shared.now)
      (hturn : t.body.turn c s task = some turn)
      (hact : actionOf c s (.thread pre.length task) = some turn.act) :
      Stepped c s (.thread pre.length task)
        ⟨s.shared.apply turn.act, pre ++ turn.threads s.shared.now ++ post⟩
  | delayed (d : Time) (hd : 0 ≤ d) :
      Stepped c s (.delay d) { s with shared := { s.shared with now := s.shared.now + d } }
  | received (f : CanFrame) (hopen : c.canOpen) :
      Stepped c s (.can f) { s with shared := { s.shared with
        drives := canCallback c.driveMotorIds s.shared.now f s.shared.drives } }
  | called {l : Label} {b : Body} (hspin : s.shared.spinning = true) (hb : Starts l b) :
      Stepped c s l (s.call b)

/-- A label that starts a callback moves no thread. -/
theorem Starts.actionOf_eq_none {l : Label} {b : Body} (h : Starts l b) :
    actionOf c s l = none := by
  cases h <;> rfl

theorem step_cases {l : Label} (h : step c s l = some s') : Stepped c s l s' := by
  cases l with
  | thread index task =>
      obtain ⟨⟨a, ts⟩, hstep, rfl⟩ := Option.map_eq_some_iff.mp h
      have hact : actionOf c s (.thread index task) = some a :=
        congrArg (Option.map Prod.fst) hstep
      obtain ⟨pre, t, post, us, hthreads, rfl, hmove, rfl⟩ := stepAt_split hstep
      rw [Thread.step] at hmove
      split at hmove
      · rename_i hwake
        obtain ⟨turn, hturn, heq⟩ := Option.map_eq_some_iff.mp hmove
        obtain ⟨rfl, rfl⟩ := Prod.mk.inj heq
        exact .moved hthreads hwake hturn hact
      · cases hmove
  | delay d =>
      rw [step] at h
      split at h
      · cases h; exact .delayed d ‹_›
      · cases h
  | can f =>
      rw [step] at h
      split at h
      · cases h; exact .received f ‹_›
      · cases h
  | motorCmd data =>
      rw [step] at h
      split at h
      · rename_i hspin
        cases h
        exact .called (Bool.and_eq_true_iff.mp hspin).1 (.motorCmd data)
      · cases h
  | tick =>
      rw [step] at h
      split at h
      · rename_i hspin
        cases h
        exact .called (Bool.and_eq_true_iff.mp hspin).1 .tick
      · cases h
  | traction on =>
      rw [step] at h
      split at h
      · cases h; exact .called ‹_› (.traction on)
      · cases h
  | brake engaged =>
      rw [step] at h
      split at h
      · cases h; exact .called ‹_› (.brake engaged)
      · cases h

end PolishingRobot.Motor
