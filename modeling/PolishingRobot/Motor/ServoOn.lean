import PolishingRobot.Motor.Reconfiguration
import PolishingRobot.Motor.Targets

/-!
# Targets at servo-on

`enable_motor` writes `ENABLE_OPERATION` in one task for every drive. Nothing
on the way there zeroes a target: it is zero if a zeroing came after the last
accepted command, be it by `configure_node`, by the watchdog, by the disable
transition or by a command of zero. The record of these events decides whether
a drive is enabled into a speed, and shows that a drive which `reset_motor` has
found rebooted is configured before it is enabled.
-/

namespace PolishingRobot.Motor

open Runs

variable {c : Config} {σ : Shared} {s s' : State} {task : Nat} {turn : Turn} {l : Label}
  {b : Body} {m n : NodeId} {now : Time}

/-- The drive that a frame enables. -/
def Action.enables : Action → Option NodeId
  | .write (.rpdo1 node controlword _) =>
      if controlword = Controlword.enableOperation then some node else none
  | _ => none

/-- The task is at one of its two `ENABLE_OPERATION` frames. -/
def Task.servoOn (t : Task) : Bool :=
  match t.pc with
  | .inl (.enableOperation _) => true
  | _ => false

def ResetMotor.tasks : ResetMotor → List Task
  | .enabling tasks => tasks
  | _ => []

/-- The tasks of a thread that runs `enable_motor`. -/
def Body.tasks : Body → List Task
  | .transition (.enabling tasks) => tasks
  | .recovery (.resetting pc) => pc.tasks
  | _ => []

/-- A store into a target: an accepted command, or one of the zeroings. -/
inductive Store where
  | command (rpm : Rpm)
  | watchdog
  | disable
  | configuration
  deriving DecidableEq, Repr

def Store.rpm : Store → Rpm
  | .command rpm => rpm
  | _ => 0

/-- What the record keeps: stores, and the drives that `reset_motor` finds
rebooted. -/
inductive TargetEvent where
  | stored (node : NodeId) (x : Store)
  | found (node : NodeId)
  deriving DecidableEq, Repr

/-- The event of a thread's next access. -/
def Body.event (σ : Shared) : Body → Option TargetEvent
  | .cmd (.store ((node, rpm) :: _)) => some (.stored node (.command (mounted node rpm)))
  | .control (.watchdogZero (node :: _)) => some (.stored node .watchdog)
  | .transition (.zeroing (node :: _)) => some (.stored node .disable)
  | .main (.configuring node _ .begin) => some (.stored node .configuration)
  | .recovery (.resetting (.configure node _ .begin)) => some (.stored node .configuration)
  | .recovery (.resetting (.reinit (node :: _))) =>
      if (σ.drives node).needsReinit then some (.found node) else none
  | _ => none

/-- The events of a run, the newest first. -/
def noteTargets (s : State) (l : Label) (h : List TargetEvent) : List TargetEvent :=
  ((s.mover l).bind (Body.event s.shared)).toList ++ h

/-- Steps of the node with the record of its targets. -/
def targeting (c : Config) : State × List TargetEvent → Label →
    Option (State × List TargetEvent) :=
  observe (step c) noteTargets

def TargetEvent.storeFor (n : NodeId) : TargetEvent → Option Store
  | .stored node x => if node = n then some x else none
  | .found _ => none

/-- The newest store for a drive. -/
def lastStore (h : List TargetEvent) (n : NodeId) : Option Store :=
  h.findSome? (TargetEvent.storeFor n)

/-- A command other than zero has been accepted for the drive, and no zeroing
has come after it. -/
def CommandStands (h : List TargetEvent) (n : NodeId) : Prop :=
  ∃ x ∈ lastStore h n, ∃ rpm, x = .command rpm ∧ rpm ≠ 0

/-- The events since the drive's last configuration. -/
def sinceConfigured (n : NodeId) (h : List TargetEvent) : List TargetEvent :=
  h.takeWhile fun e => e ≠ .stored n .configuration

/-- A step that writes `ENABLE_OPERATION` finds the drive's target at zero. -/
def NoLurch (c : Config) (s : State) (l : Label) : Prop :=
  ∀ a ∈ actionOf c s l, ∀ n ∈ a.enables, s.shared.drives.target n = 0

instance (s : State) (l : Label) : Decidable (NoLurch c s l) :=
  inferInstanceAs (Decidable (∀ a ∈ actionOf c s l, ∀ n ∈ a.enables, _))

/-- A step that writes `ENABLE_OPERATION` finds no command standing for the
drive. -/
def NoCommandStands (c : Config) (w : State × List TargetEvent) (l : Label) : Prop :=
  ∀ a ∈ actionOf c w.1 l, ∀ n ∈ a.enables, ¬ CommandStands w.2 n

/-- A drive found rebooted has been configured, and a target it is enabled into
comes from a command accepted after that. -/
structure Reconfigured (w : State × List TargetEvent) (n : NodeId) : Prop where
  configured : .found n ∉ sinceConfigured n w.2
  commanded : w.1.shared.drives.target n ≠ 0 →
    ∃ rpm, rpm ≠ 0 ∧ .stored n (.command rpm) ∈ sinceConfigured n w.2

/-- A configuration zeroes the drive's target, a store writes it, and nothing
else changes it. -/
theorem Shared.apply_target_eq (σ : Shared) (a : Action) (n : NodeId) :
    (σ.apply a).drives.target n =
      match a with
      | .storeTarget m rpm => if n = m then rpm else σ.drives.target n
      | .beginConfigure m => if n = m then 0 else σ.drives.target n
      | _ => σ.drives.target n := by
  cases a with
  | storeTarget m rpm => exact σ.drives.storeTarget_target m n rpm
  | beginConfigure m => exact σ.drives.beginConfigure_target m n σ.now
  | stampFeedback m => exact σ.drives.stampFeedback_target m n σ.now
  | requestReinit m => exact σ.drives.requestReinit_target m n σ.now
  | rememberAlarm m => exact σ.drives.rememberAlarm_target m n
  | startSync nodes => exact σ.drives.stampAll_target n σ.now nodes
  | _ => rfl

/-- A thread that stores a target has an event for it. -/
theorem Acts.event_of_store {rpm : Rpm} (h : Acts b (.storeTarget n rpm)) :
    ∃ x, b.event σ = some (.stored n x) ∧ x.rpm = rpm := by
  generalize ha : Action.storeTarget n rpm = a at h
  cases h with
  | drive _ hd => subst ha; cases hd
  | evaluation _ _ he => subst ha; cases he
  | command node v rest =>
      obtain ⟨rfl, rfl⟩ := Action.storeTarget.inj ha
      exact ⟨_, rfl, rfl⟩
  | watchdog node rest =>
      obtain ⟨rfl, rfl⟩ := Action.storeTarget.inj ha
      exact ⟨_, rfl, by simp [Store.rpm, mounted]⟩
  | zeroing node rest =>
      obtain ⟨rfl, rfl⟩ := Action.storeTarget.inj ha
      exact ⟨_, rfl, by simp [Store.rpm, mounted]⟩
  | _ => cases ha

theorem Body.event_of_configures (h : b.configures = some n) :
    b.event σ = some (.stored n .configuration) := by
  unfold Body.configures at h
  split at h
  · obtain rfl := Option.some.inj h
    rfl
  · cases h

/-- A stored event is one access: the store, or the beginning of a
configuration. -/
theorem Body.turn_of_stored {x : Store} (h : b.turn c s task = some turn)
    (he : b.event σ = some (.stored n x)) :
    turn.act = .storeTarget n x.rpm ∨ turn.act = .beginConfigure n ∧ x.rpm = 0 := by
  unfold Body.event at he
  split at he
  · cases he
    cases h
    exact .inl rfl
  · cases he
    cases h
    exact .inl (by simp [controlLoop, setTargetVelocity, Store.rpm, mounted])
  · cases he
    cases h
    exact .inl (by simp [setTargetVelocity, Store.rpm, mounted])
  · cases he
    cases h
    exact .inr ⟨rfl, rfl⟩
  · cases he
    cases h
    exact .inr ⟨rfl, rfl⟩
  · split at he <;> cases he
  · cases he

/-- Without a stored event the access leaves every target alone. -/
theorem target_unstored (h : b.turn c s task = some turn)
    (hnone : ∀ m x, b.event s.shared ≠ some (.stored m x)) (n : NodeId) :
    (s.shared.apply turn.act).drives.target n = s.shared.drives.target n := by
  have hacts := Body.turn_acts h
  rw [Shared.apply_target_eq]
  split
  · rename_i m rpm ha
    rw [ha] at hacts
    obtain ⟨x, hx, -⟩ := hacts.event_of_store (σ := s.shared)
    exact absurd hx (hnone m x)
  · rename_i m ha
    rcases Body.turn_begins h ha with hconfigures | ⟨rest, rfl⟩
    · exact absurd (Body.event_of_configures hconfigures) (hnone m _)
    · exact absurd rfl (hnone m .configuration)
  · rfl

/-- The speed that the record gives a drive. -/
def recordedTarget (h : List TargetEvent) (n : NodeId) : Rpm :=
  ((lastStore h n).map Store.rpm).getD 0

/-- A turn changes the targets as its event says. -/
theorem target_of_turn {h : List TargetEvent} (hturn : b.turn c s task = some turn)
    (htarget : ∀ n, s.shared.drives.target n = recordedTarget h n) (n : NodeId) :
    (s.shared.apply turn.act).drives.target n =
      recordedTarget ((b.event s.shared).toList ++ h) n := by
  rcases hevent : b.event s.shared with _ | ⟨m, x⟩ | m
  · rw [target_unstored hturn (by simp [hevent]), htarget]
    rfl
  · by_cases hn : m = n
    · subst hn
      have hlast : recordedTarget ((some (TargetEvent.stored m x)).toList ++ h) m = x.rpm := by
        simp [recordedTarget, lastStore, TargetEvent.storeFor]
      rw [hlast]
      rcases Body.turn_of_stored hturn hevent with ha | ⟨ha, hzero⟩
      · simp [Shared.apply_target_eq, ha]
      · simp [Shared.apply_target_eq, ha, hzero]
    · have hlast : recordedTarget ((some (TargetEvent.stored m x)).toList ++ h) n =
          recordedTarget h n := by
        simp [recordedTarget, lastStore, TargetEvent.storeFor, hn]
      rw [hlast, ← htarget, Shared.apply_target_eq]
      rcases Body.turn_of_stored hturn hevent with ha | ⟨ha, -⟩
      · simp [ha, Ne.symm hn]
      · simp [ha, Ne.symm hn]
  · rw [target_unstored hturn (by simp [hevent]), htarget]
    rfl

/-- The record knows every target, and a drive found rebooted is about to be
configured until it is. -/
structure Recorded (s : State) (h : List TargetEvent) : Prop where
  target : ∀ n, s.shared.drives.target n = recordedTarget h n
  found : ∀ n, .found n ∈ sinceConfigured n h → ∃ u ∈ s.threads, u.body.configures = some n

theorem start_recorded (c : Config) (now : Time) : Recorded (start c now) [] where
  target _ := rfl
  found _ := nofun

/-- Only a command is a store of a speed other than zero. -/
theorem commandStands_iff {h : List TargetEvent} :
    CommandStands h n ↔ recordedTarget h n ≠ 0 := by
  unfold CommandStands recordedTarget
  rcases lastStore h n with _ | x
  · simp
  · cases x with
    | command rpm => simp [Store.rpm]
    | _ => simp [Store.rpm]

/-- A found drive goes on to its configuration at once. -/
theorem configures_of_found (hturn : b.turn c s task = some turn)
    (hevent : b.event s.shared = some (.found n)) :
    ∃ u, turn.self = some u ∧ u.configures = some n := by
  unfold Body.event at hevent
  split at hevent
  case h_6 node rest =>
    split at hevent
    · rename_i hneeds
      obtain rfl := TargetEvent.found.inj (Option.some.inj hevent)
      obtain ⟨m, hm, rfl⟩ := Option.map_eq_some_iff.mp hturn
      rw [resetMotor, if_pos hneeds] at hm
      obtain rfl := Option.some.inj hm
      exact ⟨_, rfl, rfl⟩
    · cases hevent
  all_goals cases hevent

theorem step_recorded {h : List TargetEvent} (hs : Recorded s h) (hl : step c s l = some s') :
    Recorded s' (noteTargets s l h) := by
  have hquiet : s.mover l = none → noteTargets s l h = h := by
    intro hnone
    simp [noteTargets, hnone]
  cases step_cases hl with
  | delayed d => exact ⟨hs.target, hs.found⟩
  | received f hopen =>
      refine ⟨fun n => ?_, hs.found⟩
      exact (canCallback_target ..).trans (hs.target n)
  | called hspin hb =>
      rw [hquiet hb.mover_eq_none]
      refine ⟨hs.target, fun n hn => ?_⟩
      obtain ⟨u, hu, hconfigures⟩ := hs.found n hn
      exact ⟨u, List.mem_append_left _ hu, hconfigures⟩
  | @moved task pre post v turn hthreads hwake hturn hact =>
      have hnote : noteTargets s (.thread pre.length task) h =
          (v.body.event s.shared).toList ++ h := by
        simp [noteTargets, mover_eq hthreads]
      rw [hnote]
      refine ⟨target_of_turn hturn hs.target, fun n hn => ?_⟩
      -- A thread about to configure is still there, unless it has begun just now.
      have hkeep : .found n ∈ sinceConfigured n h →
          v.body.event s.shared ≠ some (.stored n .configuration) →
          ∃ u ∈ pre ++ turn.threads s.shared.now ++ post, u.body.configures = some n := by
        intro hold hother
        obtain ⟨u, hu, hconfigures⟩ := hs.found n hold
        rw [hthreads] at hu
        rcases mem_at.mp hu with rfl | hrest
        · exact absurd (Body.event_of_configures hconfigures) hother
        · exact ⟨u, mem_replaced.mpr (.inr hrest), hconfigures⟩
      rcases hevent : v.body.event s.shared with _ | e
      · rw [hevent] at hn
        exact hkeep hn (by simp [hevent])
      · rw [hevent] at hn
        by_cases he : e = .stored n .configuration
        · simp [sinceConfigured, he] at hn
        · have hcons : sinceConfigured n (e :: h) = e :: sinceConfigured n h := by
            simp [sinceConfigured, he]
          rcases List.mem_cons.mp (hcons ▸ hn) with rfl | hold
          · obtain ⟨u, hself, hconfigures⟩ := configures_of_found hturn hevent
            exact ⟨_, mem_replaced.mpr (.inl (Turn.self_mem hself)), hconfigures⟩
          · exact hkeep hold (by simp [hevent, he])

theorem enableTask_enables {node : NodeId} {pc : EnableTask}
    (h : (enableTask σ node pc).act.enables = some n) :
    n = node ∧ ∃ again, pc = .enableOperation again := by
  cases pc with
  | enableOperation again =>
      refine ⟨?_, again, rfl⟩
      cases again <;> exact (Option.some.inj h).symm
  | guard => rw [enableTask] at h; split at h <;> cases h
  | readInitial => rw [enableTask] at h; split at h <;> cases h
  | shutdown again => cases again <;> cases h
  | switchOn again => cases again <;> cases h
  | setMode => cases h
  | faultReset => cases h
  | awaitReady wait => rw [enableTask, Move.call_act, waitForState_act] at h; cases h
  | awaitSwitchedOn wait => rw [enableTask, Move.call_act, waitForState_act] at h; cases h
  | awaitEnabled wait => rw [enableTask, Move.call_act, waitForState_act] at h; cases h

theorem enableMotor_enables {tasks : List Task} {m : Move (List Task) Bool}
    (h : enableMotor σ task tasks = some m) (ha : m.act.enables = some n) :
    ∃ t ∈ tasks, t.node = n ∧ t.servoOn = true := by
  unfold enableMotor at h
  split at h
  · obtain rfl := Option.some.inj h
    cases ha
  · obtain ⟨⟨a, ts⟩, hstep, rfl⟩ := Option.map_eq_some_iff.mp h
    obtain ⟨pre, ⟨node, wake, pc⟩, post, us, rfl, -, hmove, -⟩ := stepAt_split hstep
    refine ⟨⟨node, wake, pc⟩, by simp, ?_⟩
    cases pc with
    | inr ok => cases hmove
    | inl pc =>
        dsimp only [Task.step] at hmove
        split at hmove
        · obtain ⟨rfl, -⟩ := Prod.mk.inj (Option.some.inj hmove)
          obtain ⟨rfl, again, rfl⟩ := enableTask_enables ha
          exact ⟨rfl, rfl⟩
        · cases hmove

theorem disableMotor_enables (nodes : List NodeId) (pc : DisableMotor) :
    (disableMotor nodes pc).act.enables = none := by
  rcases pc with (_ | ⟨node, rest⟩) | (_ | ⟨node, rest⟩) <;> rfl

theorem configureNode_enables (node : NodeId) (pc : ConfigureNode) :
    (configureNode node pc).act.enables = none := by
  unfold configureNode
  split <;> rfl

theorem resetMotor_enables {nodes : List NodeId} {pc : ResetMotor} {m : Move ResetMotor Bool}
    (h : resetMotor nodes σ task pc = some m) (ha : m.act.enables = some n) :
    ∃ t ∈ pc.tasks, t.node = n ∧ t.servoOn = true := by
  cases pc with
  | enabling tasks =>
      obtain ⟨m', hm', rfl⟩ := Option.map_eq_some_iff.mp h
      rw [Move.call_act] at ha
      exact enableMotor_enables hm' ha
  | configure node rest pc =>
      cases h
      rw [Move.call_act, configureNode_enables] at ha
      cases ha
  | reinit rest =>
      cases rest with
      | nil => cases h; cases ha
      | cons node rest => rw [resetMotor] at h; split at h <;> cases h <;> cases ha
  | guard rest =>
      cases rest with
      | nil => cases h; cases ha
      | cons node rest => rw [resetMotor] at h; split at h <;> cases h <;> cases ha
  | faultReset node rest again => cases again <;> cases h <;> cases ha
  | verify rest ok wait =>
      cases rest with
      | nil => cases h; cases ha
      | cons node rest =>
          cases h
          rw [Move.call_act, waitForState_act] at ha
          cases ha

/-- `ENABLE_OPERATION` is written by a task that stands at its frames. -/
theorem Body.turn_enables (h : b.turn c s task = some turn) (ha : turn.act.enables = some n) :
    ∃ t ∈ b.tasks, t.node = n ∧ t.servoOn = true := by
  obtain ⟨m, hm⟩ : ∃ m, turn.act = .write m := by
    cases hact : turn.act with
    | write m => exact ⟨m, rfl⟩
    | _ => rw [hact] at ha; cases ha
  have hwrites := Body.turn_writes h hm
  generalize turn.act = a at ha hwrites
  cases hwrites with
  | configures node rest pc =>
      rw [configureNode_enables] at ha
      cases ha
  | disables hb =>
      rw [disableMotor_enables] at ha
      cases ha
  | sends pc => rcases pc with _ | (_ | ⟨node, rest⟩) | ⟨node, rpm, rest⟩ | _ <;> cases ha
  | enables hm => exact enableMotor_enables hm ha
  | resets hm => exact resetMotor_enables hm ha

/-- `enable_motor` runs under the flag. -/
theorem Body.flags_of_tasks {t : Task} (ht : t ∈ b.tasks) : 0 < b.role.flags := by
  cases b with
  | transition pc =>
      cases pc with
      | enabling tasks => exact Nat.one_pos
      | _ => cases ht
  | recovery pc =>
      cases pc with
      | resetting pc => exact Nat.one_pos
      | _ => cases ht
  | _ => cases ht

theorem Body.configures_of_tasks {t : Task} (ht : t ∈ b.tasks) : b.configures = none := by
  unfold Body.configures
  split
  · cases ht
  · rfl

/-- A standing command has come after the last configuration. -/
theorem command_sinceConfigured {h : List TargetEvent} {rpm : Rpm}
    (hlast : lastStore h n = some (.command rpm)) :
    .stored n (.command rpm) ∈ sinceConfigured n h := by
  induction h with
  | nil => cases hlast
  | cons e h ih =>
      by_cases he : e = .stored n .configuration
      · subst he
        simp [lastStore, TargetEvent.storeFor] at hlast
      · have hcons : sinceConfigured n (e :: h) = e :: sinceConfigured n h := by
          simp [sinceConfigured, he]
        rw [hcons]
        rw [lastStore, List.findSome?_cons] at hlast
        split at hlast
        · rename_i x hx
          obtain rfl := Option.some.inj hlast
          cases e with
          | stored m x =>
              rw [TargetEvent.storeFor] at hx
              split at hx
              · rename_i hm
                subst hm
                obtain rfl := Option.some.inj hx
                exact List.mem_cons_self
              · cases hx
          | found m => cases hx
        · exact List.mem_cons_of_mem _ (ih hlast)

/-- Under the invariant a drive is enabled only after the configuration that
its reboot asked for. -/
theorem step_reconfigured {h : List TargetEvent} (hreach : Reachable (step c) (start c now) s)
    (hs : Recorded s h) (hl : step c s l = some s') :
    ∀ a ∈ actionOf c s l, ∀ n ∈ a.enables, Reconfigured (s, h) n := by
  intro a ha n hn
  cases step_cases hl with
  | delayed d => cases ha
  | received f => cases ha
  | called hspin hb =>
      rw [hb.actionOf_eq_none] at ha
      cases ha
  | @moved task pre post v turn hthreads hwake hturn hact =>
      rw [hact] at ha
      obtain rfl := Option.some.inj ha
      obtain ⟨t, ht, rfl, -⟩ := Body.turn_enables hturn hn
      constructor
      · intro hfound
        obtain ⟨u, hu, hconfigures⟩ := hs.found _ hfound
        rw [hthreads] at hu
        rcases mem_at.mp hu with rfl | hother
        · rw [Body.configures_of_tasks ht] at hconfigures
          cases hconfigures
        · have hfree := flags_of_others hreach hthreads (Body.flags_of_tasks ht) hother
          have hheld := Body.flags_of_configures hconfigures
          omega
      · intro hne
        rw [hs.target, ← commandStands_iff] at hne
        obtain ⟨x, hx, rpm, rfl, hrpm⟩ := hne
        exact ⟨rpm, hrpm, command_sinceConfigured hx⟩

/-- In every run `ENABLE_OPERATION` is written only at zero targets exactly if
it is written only for drives without a standing command. A drive that
`reset_motor` has found rebooted is configured before it is enabled, and is
enabled into a speed only by a command accepted after that. -/
theorem no_lurch_iff (c : Config) (now : Time) (ls : List Label) :
    (Along (step c) (fun s l _ => NoLurch c s l) (start c now) ls ↔
      Along (targeting c) (fun w l _ => NoCommandStands c w l) (start c now, []) ls) ∧
    Along (targeting c) (fun w l _ => ∀ a ∈ actionOf c w.1 l, ∀ n ∈ a.enables,
      Reconfigured w n) (start c now, []) ls := by
  let Inv (w : State × List TargetEvent) : Prop :=
    Reachable (step c) (start c now) w.1 ∧ Recorded w.1 w.2
  have hstart : Inv (start c now, []) := ⟨⟨[], rfl⟩, start_recorded c now⟩
  have keep : ∀ w l w', Inv w → targeting c w l = some w' → Inv w' := by
    rintro ⟨s, h⟩ l ⟨s', h'⟩ ⟨hreach, hs⟩ hl
    obtain ⟨hstep, rfl⟩ := observe_eq_some hl
    exact ⟨hreach.step hstep, step_recorded hs hstep⟩
  constructor
  · rw [← along_observe_iff noteTargets []]
    refine along_iff_of_invariant keep ?_ hstart
    rintro ⟨s, h⟩ l ⟨s', h'⟩ ⟨-, hs⟩ -
    simp only [NoLurch, NoCommandStands, commandStands_iff, hs.target, not_not]
  · refine along_of_invariant (fun w l w' hw _ hl => keep w l w' hw hl) ?_ hstart
      (along_of_forall (fun _ _ _ _ => trivial) _ _)
    rintro ⟨s, h⟩ l ⟨s', h'⟩ ⟨hreach, hs⟩ - hl
    exact step_reconfigured hreach hs (observe_eq_some hl).1

/-- A drive at 100 rpm reboots. The next tick starts a recovery, which
configures the drive and brings it to `ENABLE_OPERATION`. -/
def reboot : List Label :=
  bringUp ++ [Label.delay 5] ++ command 100 ++
  [bootUpFrame, statusFrame 0x40, feedbackFrame, Label.tick] ++ moves 2 20 ++ moves 2 3 ++
  [Label.delay (1 / 2)] ++
  (List.replicate 36 (moves 2 1 ++ [Label.delay (1 / 50)])).flatten ++ moves 2 2 ++
  [Label.delay (1 / 10)] ++ moves 2 4 ++ [Label.delay (1 / 10)] ++ moves 2 2 ++ approach 2

/-- Its frame finds the target at zero. -/
example : ((run (step oneDrive) (start oneDrive 100) reboot).map fun t =>
    (actionOf oneDrive t (.thread 2 0), t.shared.drives.target 1)) =
      some (some (.write (.rpdo1 1 Controlword.enableOperation 3)), 0) := by decide +kernel

/-- A drive at 100 rpm loses its power stage without an error; the next tick
starts a recovery, and the drive answers its controlwords. -/
def reenable : List Label :=
  bringUp ++ command 100 ++ [statusFrame 0x40, feedbackFrame, Label.tick] ++ moves 2 20 ++
  moves 2 4 ++ [Label.delay (1 / 10)] ++ moves 2 2 ++ approach 2

/-- The recovery writes `ENABLE_OPERATION` while the target is 100 rpm. -/
theorem lurch_after_recovery :
    (∃ t, run (step oneDrive) (start oneDrive 100) reenable = some t ∧
      actionOf oneDrive t (.thread 2 0) =
        some (.write (.rpdo1 1 Controlword.enableOperation 3)) ∧
      t.shared.drives.target 1 = 100) ∧
    ¬ Along (step oneDrive) (fun s l _ => NoLurch oneDrive s l) (start oneDrive 100)
      (reenable ++ [.thread 2 0]) := by
  have hlurch : ((run (step oneDrive) (start oneDrive 100) reenable).map fun t =>
      decide ((actionOf oneDrive t (.thread 2 0) =
          some (.write (.rpdo1 1 Controlword.enableOperation 3)) ∧
        t.shared.drives.target 1 = 100) ∧ (step oneDrive t (.thread 2 0)).isSome = true)) =
      some true := by decide +kernel
  obtain ⟨t, hrun, ht⟩ := Option.map_eq_some_iff.mp hlurch
  obtain ⟨⟨hact, htarget⟩, hsome⟩ := of_decide_eq_true ht
  refine ⟨⟨t, hrun, hact, htarget⟩, ?_⟩
  intro hzero
  obtain ⟨t', hstep⟩ := Option.isSome_iff_exists.mp hsome
  have h := hzero.after_prefix hrun hstep _ hact 1 rfl
  rw [htarget] at h
  exact absurd h (by decide)

end PolishingRobot.Motor
