import PolishingRobot.Motor.QuickStops
import PolishingRobot.Motor.Reconfiguration
import PolishingRobot.Motor.ServoOn

/-!
# The way to servo-on

Three controlwords switch a drive on, and the last two wait for its statusword.
Transitions and recoveries do this in threads of their own, started by ticks and
callbacks; the flag of the node keeps one from writing a controlword while
another is on its way.
-/

namespace PolishingRobot.Motor

open Runs

variable {c : Config} {σ : Shared} {s s' : State} {now : Time} {task : Nat} {turn : Turn}
  {l : Label} {b : Body} {n : NodeId}

/-- The controlwords sent to a drive and the cached statuswords, each seen after
the controlword that it answers. -/
inductive Progress where
  | off
  | shutdown
  | ready
  | switchOn
  | switchedOn
  deriving DecidableEq, Repr

def Progress.see (shown : Cia402State) : Progress → Progress
  | .shutdown => if shown = .readyToSwitchOn then .ready else .shutdown
  | .switchOn => if shown = .switchedOn then .switchedOn else .switchOn
  | p => p

def Progress.send (p : Progress) (controlword : UInt16) : Progress :=
  if controlword = Controlword.shutdown then .shutdown
  else if controlword = Controlword.switchOn then .switchOn
  else if controlword = Controlword.enableOperation then p
  else .off

/-- A controlword may be sent twice, but not before its turn. -/
structure Progress.Allows (p : Progress) (controlword : UInt16) : Prop where
  switchOn : controlword = Controlword.switchOn → p = .ready ∨ p = .switchOn ∨ p = .switchedOn
  enableOperation : controlword = Controlword.enableOperation → p = .switchedOn

instance (p : Progress) (controlword : UInt16) : Decidable (p.Allows controlword) :=
  decidable_of_iff ((controlword = Controlword.switchOn →
      p = .ready ∨ p = .switchOn ∨ p = .switchedOn) ∧
    (controlword = Controlword.enableOperation → p = .switchedOn))
    ⟨fun h => ⟨h.1, h.2⟩, fun h => ⟨h.1, h.2⟩⟩

/-- A controlword of the action takes its drive on. -/
def Action.progress (n : NodeId) (p : Progress) : Action → Progress
  | .write (.rpdo1 node controlword _) => if node = n then p.send controlword else p
  | _ => p

/-- The progress of the drives after a step; the step sees the statuswords that
it starts from. -/
def noteProgress (c : Config) (s : State) (l : Label) (p : NodeId → Progress) :
    NodeId → Progress := fun n =>
  let seen := (p n).see (s.shared.drives.stateOf n)
  match actionOf c s l with
  | some a => a.progress n seen
  | none => seen

/-- The node with the progress of its drives. -/
def progressing (c : Config) :
    State × (NodeId → Progress) → Label → Option (State × (NodeId → Progress)) :=
  observe (step c) (noteProgress c)

/-- The controlword that a step writes is allowed. -/
def InTurn (c : Config) (w : State × (NodeId → Progress)) (l : Label) : Prop :=
  ∀ node controlword mode, actionOf c w.1 l = some (.write (.rpdo1 node controlword mode)) →
    (w.2 node).Allows controlword

/-- `disable_motor` in one of the two destructors. -/
def Body.destroys : Body → Bool
  | .main (.destroyNode _) | .main (.destroyController _) => true
  | _ => false

/-- No destructor moves. -/
def Undestroyed (s : State) (l : Label) : Prop := ∀ b ∈ s.mover l, b.destroys = false

instance (s : State) (l : Label) : Decidable (Undestroyed s l) :=
  inferInstanceAs (Decidable (∀ b ∈ s.mover l, _))

/-- What a task at its program counter relies on. -/
def EnableTask.Follows (p : Progress) : EnableTask → Prop
  | .awaitReady _ => p = .shutdown ∨ p = .ready
  | .switchOn false => p = .ready
  | .switchOn true | .awaitSwitchedOn _ => p = .switchOn ∨ p = .switchedOn
  | .enableOperation _ => p = .switchedOn
  | _ => True

theorem EnableTask.Follows.see {p : Progress} {pc : EnableTask} (h : pc.Follows p)
    (shown : Cia402State) : pc.Follows (p.see shown) := by
  cases pc with
  | awaitReady wait =>
      rcases h with rfl | rfl
      · unfold Progress.see
        dsimp only
        split
        · exact .inr rfl
        · exact .inl rfl
      · exact .inr rfl
  | switchOn again =>
      cases again with
      | false =>
          obtain rfl : p = .ready := h
          rfl
      | true =>
          rcases h with rfl | rfl
          · unfold Progress.see
            dsimp only
            split
            · exact .inr rfl
            · exact .inl rfl
          · exact .inr rfl
  | awaitSwitchedOn wait =>
      rcases h with rfl | rfl
      · unfold Progress.see
        dsimp only
        split
        · exact .inr rfl
        · exact .inl rfl
      · exact .inr rfl
  | enableOperation again =>
      obtain rfl : p = .switchedOn := h
      rfl
  | _ => trivial

/-- A wait acts on nothing. -/
theorem Move.call_progress {Pc Result : Type} {m : Move WaitForState Bool}
    {inside : WaitForState → Pc} {back : Bool → Time × (Pc ⊕ Result)} {p : Progress}
    (h : m.act = .skip) : (m.call inside back).act.progress n p = p := by
  rw [Move.call_act, h]
  rfl

/-- A task goes on from what it relied on to what it relies on next. -/
theorem enableTask_follows {p : Progress} {pc pc' : EnableTask} (h : pc.Follows p)
    (hnext : (enableTask σ n pc).next = .inl pc') :
    pc'.Follows ((enableTask σ n pc).act.progress n (p.see (σ.drives.stateOf n))) := by
  cases pc with
  | guard =>
      rw [enableTask] at hnext
      split at hnext <;> cases hnext
      trivial
  | setMode => cases hnext; trivial
  | readInitial =>
      rw [enableTask] at hnext
      split at hnext <;> cases hnext <;> trivial
  | faultReset => cases hnext; trivial
  | shutdown again =>
      cases again with
      | false => cases hnext; trivial
      | true =>
          cases hnext
          exact .inl (if_pos rfl)
  | awaitReady wait =>
      rw [enableTask, Move.call_progress (waitForState_act ..)]
      rcases Move.call_next hnext with ⟨wait', -, hinside⟩ | ⟨ok, hok, hback⟩
      · obtain rfl := Sum.inl.inj hinside
        exact EnableTask.Follows.see h _
      · cases ok with
        | false => cases hback
        | true =>
            cases hback
            have hready := (waitForState_true hok).2
            rcases h with rfl | rfl
            · exact if_pos hready
            · rfl
  | switchOn again =>
      cases again with
      | false =>
          cases hnext
          exact .inl (if_pos rfl)
      | true =>
          cases hnext
          exact .inl (if_pos rfl)
  | awaitSwitchedOn wait =>
      rw [enableTask, Move.call_progress (waitForState_act ..)]
      rcases Move.call_next hnext with ⟨wait', -, hinside⟩ | ⟨ok, hok, hback⟩
      · obtain rfl := Sum.inl.inj hinside
        exact EnableTask.Follows.see h _
      · cases ok with
        | false => cases hback
        | true =>
            cases hback
            have hreached := (waitForState_true hok).2
            rcases h with rfl | rfl
            · exact if_pos hreached
            · rfl
  | enableOperation again =>
      obtain rfl : p = .switchedOn := h
      cases again with
      | false =>
          cases hnext
          exact if_pos rfl
      | true => cases hnext; trivial
  | awaitEnabled wait =>
      rcases Move.call_next hnext with ⟨wait', -, hinside⟩ | ⟨ok, hok, hback⟩
      · obtain rfl := Sum.inl.inj hinside
        trivial
      · cases hback

/-- The controlwords of a task go to its drive, in their turn. -/
theorem Progress.allows_other {p : Progress} {controlword : UInt16}
    (hswitchOn : controlword ≠ Controlword.switchOn)
    (henable : controlword ≠ Controlword.enableOperation) : p.Allows controlword :=
  ⟨fun h => absurd h hswitchOn, fun h => absurd h henable⟩

theorem Progress.allows_faultReset (p : Progress) : p.Allows Controlword.faultReset := by
  apply Progress.allows_other <;>
    simp [Controlword.faultReset, Controlword.switchOn, Controlword.enableOperation]

theorem Progress.allows_shutdown (p : Progress) : p.Allows Controlword.shutdown := by
  apply Progress.allows_other <;>
    simp [Controlword.shutdown, Controlword.switchOn, Controlword.enableOperation]

theorem Progress.allows_switchOn {p : Progress}
    (h : p = .ready ∨ p = .switchOn ∨ p = .switchedOn) : p.Allows Controlword.switchOn := by
  refine ⟨fun _ => h, fun hsame => ?_⟩
  simp [Controlword.switchOn, Controlword.enableOperation] at hsame

theorem Progress.allows_enableOperation {p : Progress} (h : p = .switchedOn) :
    p.Allows Controlword.enableOperation := by
  refine ⟨fun hsame => ?_, fun _ => h⟩
  simp [Controlword.switchOn, Controlword.enableOperation] at hsame

theorem enableTask_allowed {node : NodeId} {controlword : UInt16} {mode : UInt8} {pc : EnableTask}
    (h : (enableTask σ node pc).act = .write (.rpdo1 n controlword mode)) :
    n = node ∧ ∀ p, pc.Follows p → p.Allows controlword := by
  cases pc with
  | guard => rw [enableTask] at h; split at h <;> cases h
  | setMode => cases h
  | readInitial => rw [enableTask] at h; split at h <;> cases h
  | faultReset =>
      cases h
      exact ⟨rfl, fun p _ => p.allows_faultReset⟩
  | shutdown again =>
      cases again <;> cases h <;> exact ⟨rfl, fun p _ => p.allows_shutdown⟩
  | awaitReady wait => rw [enableTask, Move.call_act, waitForState_act] at h; cases h
  | switchOn again =>
      cases again with
      | false =>
          cases h
          exact ⟨rfl, fun p hp => Progress.allows_switchOn (.inl hp)⟩
      | true =>
          cases h
          exact ⟨rfl, fun p hp => Progress.allows_switchOn (.inr hp)⟩
  | awaitSwitchedOn wait => rw [enableTask, Move.call_act, waitForState_act] at h; cases h
  | enableOperation again =>
      cases again <;> cases h <;> exact ⟨rfl, fun p hp => Progress.allows_enableOperation hp⟩
  | awaitEnabled wait => rw [enableTask, Move.call_act, waitForState_act] at h; cases h

def Task.Follows (p : NodeId → Progress) (t : Task) : Prop :=
  ∀ pc, t.pc = .inl pc → pc.Follows (p t.node)

/-- The move of a task: it is about its own drive. -/
theorem Task.step_follows {t : Task} {a : Action} {us : List Task} {p : NodeId → Progress}
    (h : t.step σ = some (a, us)) (ht : t.Follows p) :
    (∀ n controlword mode, a = .write (.rpdo1 n controlword mode) →
      n = t.node ∧ (p n).Allows controlword) ∧
    ∀ u ∈ us, u.node = t.node ∧
      u.Follows fun n => a.progress n ((p n).see (σ.drives.stateOf n)) := by
  obtain ⟨node, wake, pc⟩ := t
  cases pc with
  | inr ok => cases h
  | inl pc =>
      have hpc : pc.Follows (p node) := ht pc rfl
      dsimp only [Task.step] at h
      split at h
      · obtain ⟨rfl, rfl⟩ := Prod.mk.inj (Option.some.inj h)
        constructor
        · intro n controlword mode hwrite
          obtain ⟨rfl, hallows⟩ := enableTask_allowed hwrite
          exact ⟨rfl, hallows _ hpc⟩
        · intro u hu
          obtain rfl := List.mem_singleton.mp hu
          exact ⟨rfl, fun pc' hnext => enableTask_follows hpc hnext⟩
      · cases h

theorem startTasks_follows {t : Task} {nodes : List NodeId} (ht : t ∈ startTasks now nodes)
    (p : NodeId → Progress) : t.Follows p := by
  obtain ⟨node, -, rfl⟩ := List.mem_map.mp ht
  intro pc hpc
  cases hpc
  trivial

/-- The tasks behind a turn: none, fresh ones, or those before it, one of which
has moved. -/
inductive Turned (σ : Shared) (nodes : List NodeId) (a : Action) (tasks : List Task) :
    List Task → Prop
  | none : Turned σ nodes a tasks []
  | fresh (now : Time) : Turned σ nodes a tasks (startTasks now nodes)
  | moved {pre post us : List Task} {t : Task} (htasks : tasks = pre ++ t :: post)
      (hmove : t.step σ = some (a, us)) : Turned σ nodes a tasks (pre ++ us ++ post)

theorem enableMotor_turned {nodes : List NodeId} {tasks tasks' : List Task}
    {m : Move (List Task) Bool} (h : enableMotor σ task tasks = some m)
    (hnext : m.next = .inl tasks') : Turned σ nodes m.act tasks tasks' := by
  unfold enableMotor at h
  split at h
  · obtain rfl := Option.some.inj h
    cases hnext
  · obtain ⟨⟨a, ts⟩, hstep, rfl⟩ := Option.map_eq_some_iff.mp h
    obtain rfl := Sum.inl.inj hnext
    obtain ⟨pre, t, post, us, htasks, -, hmove, rfl⟩ := stepAt_split hstep
    exact .moved htasks hmove

theorem resetMotor_turned {nodes : List NodeId} {pc pc' : ResetMotor} {m : Move ResetMotor Bool}
    (h : resetMotor nodes σ task pc = some m) (hnext : m.next = .inl pc') :
    Turned σ nodes m.act pc.tasks pc'.tasks := by
  cases pc with
  | enabling tasks =>
      obtain ⟨m', hm', rfl⟩ := Option.map_eq_some_iff.mp h
      rcases Move.call_next hnext with ⟨tasks', htasks, hinside⟩ | ⟨ok, -, hback⟩
      · obtain rfl := Sum.inl.inj hinside
        rw [Move.call_act]
        exact enableMotor_turned hm' htasks
      · obtain rfl := Sum.inl.inj hback
        exact .none
  | guard rest =>
      cases rest with
      | nil =>
          cases h
          obtain rfl := Sum.inl.inj hnext
          exact .fresh _
      | cons node rest =>
          rw [resetMotor] at h
          split at h <;> cases h <;> obtain rfl := Sum.inl.inj hnext <;> exact .none
  | reinit rest =>
      cases rest with
      | nil => cases h; obtain rfl := Sum.inl.inj hnext; exact .none
      | cons node rest =>
          rw [resetMotor] at h
          split at h <;> cases h <;> obtain rfl := Sum.inl.inj hnext <;> exact .none
  | configure node rest pc =>
      cases h
      rcases Move.call_next hnext with ⟨pc, -, hinside⟩ | ⟨_, -, hback⟩
      · obtain rfl := Sum.inl.inj hinside
        exact .none
      · obtain rfl := Sum.inl.inj hback
        exact .none
  | faultReset node rest again =>
      cases again <;> cases h <;> obtain rfl := Sum.inl.inj hnext <;> exact .none
  | verify rest ok wait =>
      cases rest with
      | nil => cases h; cases hnext
      | cons node rest =>
          cases h
          rcases Move.call_next hnext with ⟨pc, -, hinside⟩ | ⟨_, -, hback⟩
          · obtain rfl := Sum.inl.inj hinside
            exact .none
          · obtain rfl := Sum.inl.inj hback
            exact .none

theorem transitionThread_turned {pc : Transition} {u : Body}
    (h : transitionThread c σ task pc = some turn) (hself : turn.self = some u) :
    Turned σ c.driveMotorIds turn.act (Body.tasks (.transition pc)) u.tasks := by
  cases pc with
  | enabling tasks =>
      obtain ⟨m, hm, rfl⟩ := Option.map_eq_some_iff.mp h
      rw [Move.turn_act]
      rcases Move.turn_self hself with ⟨tasks', hnext, rfl⟩ | ⟨ok, -, hback⟩
      · exact enableMotor_turned hm hnext
      · cases hback
        exact .none
  | storeEnabled ok => cases h; cases hself; exact .none
  | zeroing rest => cases rest <;> cases h <;> cases hself <;> exact .none
  | disabling pc =>
      cases h
      rcases Move.turn_self hself with ⟨pc', -, rfl⟩ | ⟨_, -, hback⟩
      · exact .none
      · cases hback
        exact .none
  | storeDisabled => cases h; cases hself; exact .none
  | release want => cases h; cases hself; exact .none
  | recheckTraction want => cases h; cases hself; exact .none
  | recheckBrake want traction =>
      dsimp only [transitionThread] at h
      split at h <;> cases h <;> cases hself
      exact .none
  | update pc =>
      rcases updateTurn_self h hself with ⟨pc', rfl⟩ | hnone
      · exact .none
      · cases hnone

theorem recoveryThread_turned {pc : Recovery} {u : Body}
    (h : recoveryThread c σ task pc = some turn) (hself : turn.self = some u) :
    Turned σ c.driveMotorIds turn.act (Body.tasks (.recovery pc)) u.tasks := by
  cases pc with
  | resetting pc =>
      obtain ⟨m, hm, rfl⟩ := Option.map_eq_some_iff.mp h
      rw [Move.turn_act]
      rcases Move.turn_self hself with ⟨pc', hnext, rfl⟩ | ⟨ok, -, hback⟩
      · exact resetMotor_turned hm hnext
      · cases hback
        exact .none
  | storeEnabled ok => cases ok <;> cases h <;> cases hself <;> exact .none
  | clearError => cases h; cases hself; exact .none
  | release => cases h; cases hself

theorem Body.turn_turned {u : Thread} (h : b.turn c s task = some turn)
    (hu : u ∈ turn.threads s.shared.now) :
    Turned s.shared c.driveMotorIds turn.act b.tasks u.body.tasks := by
  rcases turn.mem_threads hu with hself | hspawned
  · have hkind := Body.turn_kind h hself
    generalize u.body = ub at hself hkind
    cases b with
    | transition pc => exact transitionThread_turned h hself
    | recovery pc => exact recoveryThread_turned h hself
    | _ => cases ub <;> first | exact .none | cases hkind
  · have hspawns := Body.turn_spawns h hspawned
    generalize u.body = ub at hspawns
    cases hspawns with
    | sync => exact .none
    | transition want =>
        cases want with
        | true => exact .fresh _
        | false => exact .none
    | recovery => exact .none

theorem Starts.tasks_nil (h : Starts l b) : b.tasks = [] := by
  cases h <;> rfl

/-- The writer of a controlword before its turn: one of its tasks, or nobody. -/
structure Writer (σ : Shared) (a : Action) (controlword : UInt16) (tasks : List Task) : Prop where
  task : tasks ≠ [] → ∃ t ∈ tasks, ∃ us, t.step σ = some (a, us)
  allowed : tasks = [] → ∀ p : Progress, p.Allows controlword

theorem enableMotor_writer {controlword : UInt16} {mode : UInt8} {tasks : List Task}
    {m : Move (List Task) Bool} (h : enableMotor σ task tasks = some m)
    (ha : m.act = .write (.rpdo1 n controlword mode)) : Writer σ m.act controlword tasks := by
  unfold enableMotor at h
  split at h
  · obtain rfl := Option.some.inj h
    cases ha
  · obtain ⟨⟨a, ts⟩, hstep, rfl⟩ := Option.map_eq_some_iff.mp h
    obtain ⟨pre, t, post, us, rfl, -, hmove, -⟩ := stepAt_split hstep
    constructor
    · intro _
      exact ⟨t, by simp, us, hmove⟩
    · intro hnone
      simp at hnone

theorem resetMotor_writer {nodes : List NodeId} {controlword : UInt16} {mode : UInt8}
    {pc : ResetMotor} {m : Move ResetMotor Bool} (h : resetMotor nodes σ task pc = some m)
    (ha : m.act = .write (.rpdo1 n controlword mode)) : Writer σ m.act controlword pc.tasks := by
  cases pc with
  | enabling tasks =>
      obtain ⟨m', hm', rfl⟩ := Option.map_eq_some_iff.mp h
      rw [Move.call_act] at ha ⊢
      exact enableMotor_writer hm' ha
  | faultReset node rest again =>
      cases again <;> cases h <;> cases ha <;>
        exact ⟨fun hsome => absurd rfl hsome, fun _ p => p.allows_faultReset⟩
  | configure node rest pc =>
      cases h
      rw [Move.call_act] at ha
      cases pc with
      | mapping rest => cases rest <;> cases ha
      | _ => cases ha
  | reinit rest =>
      cases rest with
      | nil => cases h; cases ha
      | cons node rest => rw [resetMotor] at h; split at h <;> cases h <;> cases ha
  | guard rest =>
      cases rest with
      | nil => cases h; cases ha
      | cons node rest => rw [resetMotor] at h; split at h <;> cases h <;> cases ha
  | verify rest ok wait =>
      cases rest with
      | nil => cases h; cases ha
      | cons node rest =>
          cases h
          rw [Move.call_act, waitForState_act] at ha
          cases ha

theorem disableMotor_controlword {nodes : List NodeId} {pc : DisableMotor} {controlword : UInt16}
    {mode : UInt8} (h : (disableMotor nodes pc).act = .write (.rpdo1 n controlword mode)) :
    controlword = Controlword.shutdown := by
  rcases pc with (_ | ⟨node, rest⟩) | (_ | ⟨node, rest⟩) <;> cases h
  rfl

/-- Outside the destructors controlwords are written under the flag. -/
theorem Body.turn_writer {controlword : UInt16} {mode : UInt8} (h : b.turn c s task = some turn)
    (ha : turn.act = .write (.rpdo1 n controlword mode)) (hb : b.destroys = false) :
    0 < b.role.flags ∧ Writer s.shared turn.act controlword b.tasks := by
  have hwrites := Body.turn_writes h ha
  generalize turn.act = a at ha hwrites
  cases hwrites with
  | configures node rest pc =>
      cases pc with
      | mapping rest => cases rest <;> cases ha
      | _ => cases ha
  | disables hdisables =>
      rcases hdisables with rfl | rfl | rfl
      · cases hb
      · cases hb
      · obtain rfl := disableMotor_controlword ha
        exact ⟨Nat.one_pos, fun hsome => absurd rfl hsome, fun _ p => p.allows_shutdown⟩
  | sends pc => rcases pc with _ | (_ | ⟨node, rest⟩) | ⟨node, rpm, rest⟩ | _ <;> cases ha
  | enables hm => exact ⟨Nat.one_pos, enableMotor_writer hm ha⟩
  | resets hm => exact ⟨Nat.one_pos, resetMotor_writer hm ha⟩

/-- Every task is where the progress of its drive lets it be; a drive has one
task at most in each thread. -/
structure Handshaken (c : Config) (s : State) (p : NodeId → Progress) : Prop where
  nodes : ∀ u ∈ s.threads, u.body.tasks = [] ∨ u.body.tasks.map Task.node = c.driveMotorIds
  follows : ∀ u ∈ s.threads, ∀ t ∈ u.body.tasks, t.Follows p

theorem start_handshaken (c : Config) (now : Time) :
    Handshaken c (start c now) fun _ => .off := by
  have htasks : ∀ u ∈ (start c now).threads, u.body.tasks = [] := by
    intro u hu
    obtain rfl := List.mem_singleton.mp hu
    rfl
  refine ⟨fun u hu => .inl (htasks u hu), ?_⟩
  intro u hu t ht
  rw [htasks u hu] at ht
  cases ht

theorem Task.Follows.see {p : NodeId → Progress} {t : Task} (h : t.Follows p)
    (shown : NodeId → Cia402State) : t.Follows fun n => (p n).see (shown n) :=
  fun pc hpc => (h pc hpc).see _

theorem Action.progress_of_ne {a : Action} {p : Progress}
    (h : ∀ controlword mode, a ≠ .write (.rpdo1 n controlword mode)) : a.progress n p = p := by
  unfold Action.progress
  split
  · split
    · subst n
      exact absurd rfl (h _ _)
    · rfl
  · rfl

/-- A task whose drive gets no controlword still follows. -/
theorem Task.Follows.other {p : NodeId → Progress} {t : Task} {a : Action} (h : t.Follows p)
    (ha : ∀ controlword mode, a ≠ .write (.rpdo1 t.node controlword mode))
    (shown : NodeId → Cia402State) :
    t.Follows fun n => a.progress n ((p n).see (shown n)) := by
  intro pc hpc
  dsimp only
  rw [Action.progress_of_ne ha]
  exact h.see shown pc hpc

theorem Handshaken.moved {p : NodeId → Progress} {pre post : List Thread} {v : Thread}
    (hs : Handshaken c s p) (hnodup : c.driveMotorIds.Nodup)
    (hreach : Reachable (step c) (start c now) s) (hthreads : s.threads = pre ++ v :: post)
    (hturn : v.body.turn c s task = some turn) (hok : v.body.destroys = false) :
    Handshaken c ⟨s.shared.apply turn.act, pre ++ turn.threads s.shared.now ++ post⟩
      fun n => turn.act.progress n ((p n).see (s.shared.drives.stateOf n)) := by
  have hv : v ∈ s.threads := mover_mem hthreads
  constructor
  · intro u hu
    rcases mem_replaced.mp hu with hmine | hother
    · have hturned := Body.turn_turned hturn hmine
      generalize u.body.tasks = ts at hturned ⊢
      cases hturned with
      | none => exact .inl rfl
      | fresh now => exact .inr (by simp [startTasks, Function.comp_def])
      | moved htasks hmove =>
          refine .inr ?_
          have hnode := (Task.step_shown hmove).1
          have hsame := (hs.nodes v hv).resolve_left (by simp [htasks])
          rw [← hsame, htasks]
          simp [hnode]
    · exact hs.nodes u (other_mem hthreads hother)
  · intro u hu t ht
    rcases mem_replaced.mp hu with hmine | hother
    · have hturned := Body.turn_turned hturn hmine
      generalize u.body.tasks = ts at hturned ht
      cases hturned with
      | none => cases ht
      | fresh now => exact startTasks_follows ht _
      | @moved before after us mover htasks hmove =>
          have hmover : mover ∈ v.body.tasks := by simp [htasks]
          obtain ⟨hown, hus⟩ := Task.step_follows hmove (hs.follows v hv mover hmover)
          rcases mem_replaced.mp ht with hmoved | hbeside
          · exact (hus t hmoved).2
          · have htask : t ∈ v.body.tasks := by
              rw [htasks]
              exact mem_at.mpr (.inr hbeside)
            apply (hs.follows v hv t htask).other
            rintro controlword mode hwrite
            -- The drives of a thread are different, so the frame is for another one.
            have hsame := (hs.nodes v hv).resolve_left (by simp [htasks])
            have hdistinct : (v.body.tasks.map Task.node).Nodup := hsame ▸ hnodup
            rw [htasks, List.map_append, List.map_cons, List.perm_middle.nodup_iff,
              List.nodup_cons] at hdistinct
            apply hdistinct.1
            rw [← (hown _ _ _ hwrite).1, ← List.map_append]
            exact List.mem_map_of_mem hbeside
    · apply (hs.follows u (other_mem hthreads hother) t ht).other
      rintro controlword mode hwrite
      -- The writer holds the flag, and the task's thread holds it too.
      obtain ⟨hflag, -⟩ := Body.turn_writer hturn hwrite hok
      have hfree := flags_of_others hreach hthreads hflag hother
      have hheld := Body.flags_of_tasks ht
      omega

theorem step_handshaken {p : NodeId → Progress} (hs : Handshaken c s p)
    (hnodup : c.driveMotorIds.Nodup) (hreach : Reachable (step c) (start c now) s)
    (hok : Undestroyed s l) (h : step c s l = some s') :
    Handshaken c s' (noteProgress c s l p) := by
  have hsee : ∀ u ∈ s.threads, ∀ t ∈ u.body.tasks,
      t.Follows fun n => (p n).see (s.shared.drives.stateOf n) :=
    fun u hu t ht => (hs.follows u hu t ht).see _
  cases step_cases h with
  | delayed d => exact ⟨hs.nodes, hsee⟩
  | received f => exact ⟨hs.nodes, hsee⟩
  | called hspin hb =>
      unfold noteProgress
      rw [hb.actionOf_eq_none]
      constructor
      · intro u hu
        rcases List.mem_append.mp hu with hold | hnew
        · exact hs.nodes u hold
        · obtain rfl := List.mem_singleton.mp hnew
          exact .inl hb.tasks_nil
      · intro u hu t ht
        rcases List.mem_append.mp hu with hold | hnew
        · exact hsee u hold t ht
        · obtain rfl := List.mem_singleton.mp hnew
          rw [hb.tasks_nil] at ht
          cases ht
  | @moved task pre post v turn hthreads hwake hturn hact =>
      unfold noteProgress
      rw [hact]
      exact hs.moved hnodup hreach hthreads hturn (hok _ (mover_eq hthreads))

/-- Under the invariant every controlword is written in its turn. -/
theorem step_inTurn {p : NodeId → Progress} (hs : Handshaken c s p) (hok : Undestroyed s l)
    (h : step c s l = some s') : InTurn c (s, p) l := by
  intro node controlword mode ha
  cases step_cases h with
  | delayed d => cases ha
  | received f => cases ha
  | called hspin hb =>
      rw [hb.actionOf_eq_none] at ha
      cases ha
  | @moved task pre post v turn hthreads hwake hturn hact =>
      have hwrite : turn.act = .write (.rpdo1 node controlword mode) :=
        Option.some.inj (hact.symm.trans ha)
      obtain ⟨-, hwriter⟩ := Body.turn_writer hturn hwrite (hok _ (mover_eq hthreads))
      by_cases hnone : v.body.tasks = []
      · exact hwriter.allowed hnone _
      · obtain ⟨t, ht, us, hmove⟩ := hwriter.task hnone
        have hfollows := hs.follows v (mover_mem hthreads) t ht
        exact ((Task.step_follows hmove hfollows).1 _ _ _ hwrite).2

/-- In every run up to the destructors, whatever transitions, recoveries, ticks
and frames come in between, `SWITCH_ON` and `ENABLE_OPERATION` are sent to a
drive only in their turn: `SHUTDOWN` came first, and since each controlword the
drive has shown the state that the next one waits for. -/
theorem controlwords_in_turn (c : Config) (now : Time) (ls : List Label)
    (hnodup : c.driveMotorIds.Nodup)
    (hok : Along (progressing c) (fun w l _ => Undestroyed w.1 l) (start c now, fun _ => .off) ls) :
    Along (progressing c) (fun w l _ => InTurn c w l) (start c now, fun _ => .off) ls := by
  let Inv (w : State × (NodeId → Progress)) : Prop :=
    Reachable (step c) (start c now) w.1 ∧ Handshaken c w.1 w.2
  have hstart : Inv (start c now, fun _ => .off) := ⟨⟨[], rfl⟩, start_handshaken c now⟩
  have keep : ∀ w l w', Inv w → Undestroyed w.1 l → progressing c w l = some w' → Inv w' := by
    rintro ⟨s, p⟩ l ⟨s', p'⟩ ⟨hreach, hs⟩ hok hl
    obtain ⟨hstep, rfl⟩ := observe_eq_some hl
    exact ⟨hreach.step hstep, step_handshaken hs hnodup hreach hok hstep⟩
  have good : ∀ w l w', Inv w → Undestroyed w.1 l → progressing c w l = some w' →
      InTurn c w l := by
    rintro ⟨s, p⟩ l ⟨s', p'⟩ ⟨hreach, hs⟩ hok hl
    exact step_inTurn hs hok (observe_eq_some hl).1
  exact along_of_invariant keep good hstart hok

/-- The start-up of one drive writes all three controlwords. -/
theorem controlwords_in_turn_bringUp :
    Along (progressing oneDrive) (fun w l _ => InTurn oneDrive w l)
      (start oneDrive 100, fun _ => .off) bringUp :=
  controlwords_in_turn oneDrive 100 bringUp (by decide) (by decide +kernel)

end PolishingRobot.Motor
