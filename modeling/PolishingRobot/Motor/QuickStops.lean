import PolishingRobot.Motor.LateServoOn
import PolishingRobot.Motor.OwnFrames

/-!
# Drives in quick stop

`get_cia402_state` looks at the quick-stop bit behind the branch for
`OPERATION_ENABLED`, which does not look at it. A drive in quick stop is taken
as enabled; without such a drive, servo-on is reported only for drives that
have shown the pattern of Operation Enabled.
-/

namespace PolishingRobot.Motor

open Runs

variable {c : Config} {σ : Shared} {s s' : State} {task : Nat} {turn : Turn} {l : Label}
  {b : Body} {now : Time} {n node : NodeId} {shown shown' : List NodeId}

/-- Operation Enabled of CiA 402. -/
def ShowsEnabled (statusword : UInt16) : Prop := statusword &&& 0x6F = 0x27

/-- Quick Stop Active of CiA 402. -/
def ShowsQuickStop (statusword : UInt16) : Prop := statusword &&& 0x6F = 0x07

instance (statusword : UInt16) : Decidable (ShowsEnabled statusword) :=
  inferInstanceAs (Decidable (_ = _))

instance (statusword : UInt16) : Decidable (ShowsQuickStop statusword) :=
  inferInstanceAs (Decidable (_ = _))

/-- The decoder looks at six bits. -/
theorem getCia402State_masked (statusword : UInt16) :
    getCia402State (statusword &&& 0x6F) = getCia402State statusword := by
  have hbit : ∀ m bit : UInt16, m &&& bit = bit → statusword &&& m &&& bit = statusword &&& bit := by
    intro m bit h
    rw [UInt16.and_assoc, h]
  simp only [getCia402State, hbit 0x6F 0x01 rfl, hbit 0x6F 0x02 rfl, hbit 0x6F 0x04 rfl,
    hbit 0x6F 0x08 rfl, hbit 0x6F 0x20 rfl, hbit 0x6F 0x40 rfl]

/-- Both patterns decode to `OPERATION_ENABLED`, and nothing else does. -/
theorem operationEnabled_iff (statusword : UInt16) :
    getCia402State statusword = .operationEnabled ↔
      ShowsEnabled statusword ∨ ShowsQuickStop statusword := by
  have hall : ∀ k : Fin 128, getCia402State (UInt16.ofNat k &&& 0x6F) = .operationEnabled ↔
      UInt16.ofNat k &&& 0x6F = 0x27 ∨ UInt16.ofNat k &&& 0x6F = 0x07 := by decide +kernel
  have hlow : (statusword &&& 0x7F).toNat < 128 := by
    rw [UInt16.toNat_and]
    exact lt_of_le_of_lt Nat.and_le_right (by decide)
  have hmask : UInt16.ofNat (statusword &&& 0x7F).toNat &&& 0x6F = statusword &&& 0x6F := by
    rw [UInt16.ofNat_toNat, UInt16.and_assoc]
    rfl
  have h := hall ⟨_, hlow⟩
  rw [hmask, getCia402State_masked] at h
  exact h

/-- No statusword shows both patterns. -/
theorem ShowsQuickStop.not_enabled {statusword : UInt16} (h : ShowsQuickStop statusword) :
    ¬ ShowsEnabled statusword := by
  intro henabled
  exact absurd (h.symm.trans henabled) (by decide)

/-- No drive is in quick stop. -/
def Drives.Calm (d : Drives) : Prop := ∀ n, ¬ ShowsQuickStop (d n).statusFlags

/-- Then a drive taken as enabled shows the pattern, and so does one that a wait
has been successful for. -/
theorem Drives.Calm.shows {d : Drives} (h : d.Calm) (hstate : d.stateOf n = .operationEnabled) :
    ShowsEnabled (d n).statusFlags :=
  ((operationEnabled_iff _).mp hstate).resolve_right (h n)

theorem Drives.calm_iff {d : Drives} : d.Calm ↔
    ∀ n, d.isOperationEnabled n = true → ShowsEnabled (d n).statusFlags := by
  constructor
  · intro h n henabled
    exact h.shows (of_decide_eq_true henabled)
  · intro h n hquick
    have hstate : d.stateOf n = .operationEnabled := (operationEnabled_iff _).mpr (.inr hquick)
    exact hquick.not_enabled (h n (decide_eq_true hstate))

/-- The wait for `OPERATION_ENABLED` that a task is in. -/
def Task.awaits (t : Task) : Option (NodeId × WaitForState) :=
  match t.pc with
  | .inl (.awaitEnabled wait) => some (t.node, wait)
  | _ => none

/-- The wait for `OPERATION_ENABLED` in `enable_motor` or `reset_motor` that a
thread goes on with; `task` picks one of its tasks. -/
def Body.awaits (task : Nat) : Body → Option (NodeId × WaitForState)
  | .transition (.enabling tasks) => tasks[task]?.bind Task.awaits
  | .recovery (.resetting (.enabling tasks)) => tasks[task]?.bind Task.awaits
  | .recovery (.resetting (.verify (node :: _) _ wait)) => some (node, wait)
  | _ => none

/-- What `reset_motor` returns with the next access of a thread. -/
def Body.resets (c : Config) (σ : Shared) (task : Nat) : Body → Option Bool
  | .recovery (.resetting pc) =>
      (resetMotor c.driveMotorIds σ task pc).bind fun m => m.next.getRight?
  | _ => none

/-- The task that a label picks. -/
def Label.pick : Label → Nat
  | .thread _ task => task
  | _ => 0

/-- The loop of `controlLoop` counts the drive among those to be recovered. -/
def Candidate (c : Config) (σ : Shared) (n : NodeId) : Prop :=
  ∀ rest found, (controlLoop c σ (.enabled (n :: rest) found)).self =
    some (.control (.enabled rest { found with notEnabled := true }))

/-- The drives that have shown the pattern of Operation Enabled since
`transition_in_progress_` was taken last. -/
def noteShown (c : Config) (s : State) (l : Label) (shown : List NodeId) : List NodeId :=
  c.driveMotorIds.filter fun n =>
    (n ∈ shown ∧ actionOf c s l ≠ some .takeTransition) ∨
      ShowsEnabled (s.shared.drives n).statusFlags

/-- Steps of the node with the drives that have shown the pattern. -/
def showing (c : Config) : State × List NodeId → Label → Option (State × List NodeId) :=
  observe (step c) (noteShown c)

/-- A step reports servo-on only for drives that have shown the pattern, and
takes none in quick stop as enabled. -/
structure ServoOnReported (c : Config) (w : State × List NodeId) (l : Label) (s' : State) :
    Prop where
  /-- `is_operation_enabled`, in the state reached. -/
  enabled : ∀ n, s'.shared.drives.isOperationEnabled n = true →
    ShowsEnabled (s'.shared.drives n).statusFlags
  /-- A wait that ends with this step. -/
  waited : ∀ b ∈ w.1.mover l, ∀ p ∈ b.awaits l.pick,
    (waitForState w.1.shared p.1 .operationEnabled 2 p.2).next = .inr true →
      ShowsEnabled (w.1.shared.drives p.1).statusFlags
  /-- A run of `reset_motor` that returns with this step. -/
  returned : ∀ b ∈ w.1.mover l, b.resets c w.1.shared l.pick = some true →
    ∀ n ∈ c.driveMotorIds, n ∈ w.2
  stored : actionOf c w.1 l = some (.storeMotorsEnabled true) → ∀ n ∈ c.driveMotorIds, n ∈ w.2
  stopped : ∀ n, ShowsQuickStop (s'.shared.drives n).statusFlags →
    s'.shared.drives.isOperationEnabled n = false ∧ Candidate c s'.shared n

/-- A complete TPDO1 of a configured node that shows quick stop. -/
def QuickStopFrame (c : Config) : Label → Prop
  | .can f => f.node ∈ c.driveMotorIds ∧ f.functionCode = 0x180 ∧ 3 ≤ f.dlc ∧
      ShowsQuickStop (f.word16 0)
  | _ => False

/-- There is a task for every drive, and one that has returned true has seen its
drive show the pattern. -/
def TasksShown (c : Config) (shown : List NodeId) (tasks : List Task) : Prop :=
  tasks.map Task.node = c.driveMotorIds ∧ ∀ t ∈ tasks, t.pc = .inr true → t.node ∈ shown

/-- The drives verified so far have shown the pattern, if all went well. -/
def ResetMotor.Shown (c : Config) (shown : List NodeId) : ResetMotor → Prop
  | .verify rest ok _ => ok = true → ∀ n ∈ c.driveMotorIds, n ∉ rest → n ∈ shown
  | _ => True

def Body.Shown (c : Config) (shown : List NodeId) : Body → Prop
  | .transition (.enabling tasks) => TasksShown c shown tasks
  | .transition (.storeEnabled ok) => ok = true → ∀ n ∈ c.driveMotorIds, n ∈ shown
  | .recovery (.resetting pc) => pc.Shown c shown
  | .recovery (.storeEnabled ok) => ok = true → ∀ n ∈ c.driveMotorIds, n ∈ shown
  | _ => True

theorem TasksShown.mono {tasks : List Task} (h : TasksShown c shown tasks)
    (hsub : ∀ n ∈ c.driveMotorIds, n ∈ shown → n ∈ shown') : TasksShown c shown' tasks := by
  refine ⟨h.1, fun t ht hpc => hsub t.node ?_ (h.2 t ht hpc)⟩
  rw [← h.1]
  exact List.mem_map_of_mem ht

theorem Body.Shown.mono (h : b.Shown c shown)
    (hsub : ∀ n ∈ c.driveMotorIds, n ∈ shown → n ∈ shown') : b.Shown c shown' := by
  cases b with
  | transition pc =>
      cases pc with
      | enabling tasks => exact TasksShown.mono h hsub
      | storeEnabled ok => exact fun hok n hn => hsub n hn (h hok n hn)
      | _ => trivial
  | recovery pc =>
      cases pc with
      | resetting pc =>
          cases pc with
          | verify rest ok wait => exact fun hok n hn hrest => hsub n hn (h hok n hn hrest)
          | _ => trivial
      | storeEnabled ok => exact fun hok n hn => hsub n hn (h hok n hn)
      | _ => trivial
  | _ => trivial

/-- Only threads that hold the flag have results. -/
theorem Body.shown_of_free (h : b.role.flags = 0) : b.Shown c shown := by
  cases b with
  | transition pc =>
      cases pc with
      | enabling tasks => cases h
      | storeEnabled ok => cases h
      | _ => trivial
  | recovery pc =>
      cases pc with
      | resetting pc => cases h
      | storeEnabled ok => cases h
      | _ => trivial
  | _ => trivial

/-- A task returns true at its guard or at the end of its last wait. -/
theorem enableTask_returns {pc : EnableTask} (h : (enableTask σ node pc).next = .inr true) :
    σ.drives.stateOf node = .operationEnabled := by
  cases pc with
  | guard =>
      rw [enableTask] at h
      split at h
      · rename_i henabled
        exact of_decide_eq_true henabled
      · cases h
  | setMode => cases h
  | readInitial => rw [enableTask] at h; split at h <;> cases h
  | faultReset => cases h
  | shutdown again => cases again <;> cases h
  | awaitReady wait =>
      rcases Move.call_next h with ⟨_, -, hinside⟩ | ⟨ok, -, hback⟩
      · cases hinside
      · cases ok <;> cases hback
  | switchOn again => cases again <;> cases h
  | awaitSwitchedOn wait =>
      rcases Move.call_next h with ⟨_, -, hinside⟩ | ⟨ok, -, hback⟩
      · cases hinside
      · cases ok <;> cases hback
  | enableOperation again => cases again <;> cases h
  | awaitEnabled wait =>
      rcases Move.call_next h with ⟨_, -, hinside⟩ | ⟨ok, hok, hback⟩
      · cases hinside
      · cases hback
        exact (waitForState_true hok).2

theorem Task.step_shown {t : Task} {a : Action} {us : List Task} (h : t.step σ = some (a, us)) :
    us.map Task.node = [t.node] ∧
      ∀ u ∈ us, u.pc = .inr true → σ.drives.stateOf u.node = .operationEnabled := by
  obtain ⟨node, wake, pc⟩ := t
  cases pc with
  | inr ok => cases h
  | inl pc =>
      dsimp only [Task.step] at h
      split at h
      · obtain ⟨-, rfl⟩ := Prod.mk.inj (Option.some.inj h)
        refine ⟨rfl, ?_⟩
        intro u hu hpc
        obtain rfl := List.mem_singleton.mp hu
        exact enableTask_returns hpc
      · cases h

theorem joinTasks_true {tasks : List Task} (h : joinTasks tasks = some true) :
    ∀ t ∈ tasks, t.pc = .inr true := by
  induction tasks with
  | nil => exact fun t ht => absurd ht List.not_mem_nil
  | cons t ts ih =>
      rw [joinTasks] at h
      split at h
      · rename_i ok rest hpc hrest
        obtain ⟨rfl, rfl⟩ := Bool.and_eq_true_iff.mp (Option.some.inj h)
        intro u hu
        rcases List.mem_cons.mp hu with rfl | hu
        · exact hpc
        · exact ih hrest u hu
      · cases h

theorem enableMotor_shown {tasks : List Task} {m : Move (List Task) Bool}
    (h : enableMotor σ task tasks = some m) (ht : TasksShown c shown tasks)
    (hnew : ∀ n ∈ c.driveMotorIds, σ.drives.stateOf n = .operationEnabled → n ∈ shown')
    (hsub : ∀ n ∈ c.driveMotorIds, n ∈ shown → n ∈ shown') :
    (∀ tasks', m.next = .inl tasks' → TasksShown c shown' tasks') ∧
      (m.next = .inr true → ∀ n ∈ c.driveMotorIds, n ∈ shown) := by
  unfold enableMotor at h
  split at h
  · rename_i ok hjoin
    cases h
    refine ⟨nofun, ?_⟩
    intro hok n hn
    obtain rfl := Sum.inr.inj hok
    rw [← ht.1] at hn
    obtain ⟨t, htask, rfl⟩ := List.mem_map.mp hn
    exact ht.2 t htask (joinTasks_true hjoin t htask)
  · obtain ⟨⟨a, ts⟩, hstep, rfl⟩ := Option.map_eq_some_iff.mp h
    refine ⟨?_, nofun⟩
    intro tasks' hnext
    obtain rfl := Sum.inl.inj hnext
    obtain ⟨pre, t, post, us, rfl, -, hmove, rfl⟩ := stepAt_split hstep
    obtain ⟨hnodes, hus⟩ := Task.step_shown hmove
    have hsame : (pre ++ us ++ post).map Task.node = c.driveMotorIds := by
      rw [← ht.1]
      simp [hnodes]
    refine ⟨hsame, ?_⟩
    intro u hu hpc
    have hnode : u.node ∈ c.driveMotorIds := hsame ▸ List.mem_map_of_mem hu
    rcases mem_replaced.mp hu with hmine | hother
    · exact hnew _ hnode (hus u hmine hpc)
    · exact hsub _ hnode (ht.2 u (mem_at.mpr (.inr hother)) hpc)

/-- A recovery returns at the end of its last loop only. -/
theorem resetMotor_returns {pc : ResetMotor} {m : Move ResetMotor Bool} {ok : Bool}
    (h : resetMotor c.driveMotorIds σ task pc = some m) (hnext : m.next = .inr ok) :
    ∃ wait, pc = .verify [] ok wait := by
  cases pc with
  | reinit rest =>
      cases rest with
      | nil => cases h; cases hnext
      | cons n rest => rw [resetMotor] at h; split at h <;> cases h <;> cases hnext
  | configure n rest pc =>
      cases h
      exact absurd hnext (Move.call_next_ne fun _ => ⟨_, rfl⟩)
  | guard rest =>
      cases rest with
      | nil => cases h; cases hnext
      | cons n rest => rw [resetMotor] at h; split at h <;> cases h <;> cases hnext
  | faultReset n rest again => cases again <;> cases h <;> cases hnext
  | enabling tasks =>
      obtain ⟨m', hm', rfl⟩ := Option.map_eq_some_iff.mp h
      exact absurd hnext (Move.call_next_ne fun _ => ⟨_, rfl⟩)
  | verify rest all wait =>
      cases rest with
      | nil => cases h; cases hnext; exact ⟨wait, rfl⟩
      | cons n rest =>
          cases h
          exact absurd hnext (Move.call_next_ne fun _ => ⟨_, rfl⟩)

/-- One access of `reset_motor`: the last loop verifies the drives one by one. -/
theorem resetMotor_shown {pc pc' : ResetMotor} {m : Move ResetMotor Bool}
    (h : resetMotor c.driveMotorIds σ task pc = some m) (hpc : pc.Shown c shown)
    (hnew : ∀ n ∈ c.driveMotorIds, σ.drives.stateOf n = .operationEnabled → n ∈ shown')
    (hsub : ∀ n ∈ c.driveMotorIds, n ∈ shown → n ∈ shown') (hnext : m.next = .inl pc') :
    pc'.Shown c shown' := by
  cases pc with
  | reinit rest =>
      cases rest with
      | nil => cases h; cases hnext; trivial
      | cons n rest => rw [resetMotor] at h; split at h <;> cases h <;> cases hnext <;> trivial
  | configure n rest pc =>
      cases h
      rcases Move.call_next hnext with ⟨_, -, hinside⟩ | ⟨_, -, hback⟩
      · cases hinside; trivial
      · cases hback; trivial
  | guard rest =>
      cases rest with
      | nil => cases h; cases hnext; trivial
      | cons n rest => rw [resetMotor] at h; split at h <;> cases h <;> cases hnext <;> trivial
  | faultReset n rest again => cases again <;> cases h <;> cases hnext <;> trivial
  | enabling tasks =>
      obtain ⟨m', hm', rfl⟩ := Option.map_eq_some_iff.mp h
      rcases Move.call_next hnext with ⟨_, -, hinside⟩ | ⟨_, -, hback⟩
      · cases hinside; trivial
      · cases hback
        exact fun _ n hn hrest => absurd hn hrest
  | verify rest ok wait =>
      cases rest with
      | nil => cases h; cases hnext
      | cons node rest =>
          cases h
          rcases Move.call_next hnext with ⟨_, -, hinside⟩ | ⟨reached, hreached, hback⟩
          · cases hinside
            exact fun hok n hn hrest => hsub n hn (hpc hok n hn hrest)
          · cases hback
            intro hall n hn hrest
            obtain ⟨hok, rfl⟩ := Bool.and_eq_true_iff.mp hall
            by_cases hnode : n = node
            · subst hnode
              exact hnew n hn (waitForState_true hreached).2
            · exact hsub n hn (hpc hok n hn (by simp [hnode, hrest]))

/-- It returns true only if it has verified every drive. -/
theorem resetMotor_true {pc : ResetMotor} {m : Move ResetMotor Bool}
    (h : resetMotor c.driveMotorIds σ task pc = some m) (hpc : pc.Shown c shown)
    (hnext : m.next = .inr true) : ∀ n ∈ c.driveMotorIds, n ∈ shown := by
  obtain ⟨wait, rfl⟩ := resetMotor_returns h hnext
  intro n hn
  exact hpc rfl n hn List.not_mem_nil

theorem Body.turn_shown (h : b.turn c s task = some turn) (hb : b.Shown c shown)
    (hnew : ∀ n ∈ c.driveMotorIds, s.shared.drives.stateOf n = .operationEnabled → n ∈ shown')
    (hsub : ∀ n ∈ c.driveMotorIds, n ∈ shown → n ∈ shown') {u : Body}
    (hu : turn.self = some u) : u.Shown c shown' := by
  have hkind := Body.turn_kind h hu
  cases b with
  | transition pc =>
      cases pc with
      | enabling tasks =>
          obtain ⟨m, hm, rfl⟩ := Option.map_eq_some_iff.mp h
          obtain ⟨hinside, hreturn⟩ := enableMotor_shown hm hb hnew hsub
          rcases Move.turn_self hu with ⟨tasks', hnext, rfl⟩ | ⟨ok, hnext, hback⟩
          · exact hinside tasks' hnext
          · cases hback
            rintro rfl n hn
            exact hsub n hn (hreturn hnext n hn)
      | storeEnabled ok => cases h; cases hu; trivial
      | zeroing rest => cases rest <;> cases h <;> cases hu <;> trivial
      | disabling pc =>
          cases h
          rcases Move.turn_self hu with ⟨_, -, rfl⟩ | ⟨_, -, hback⟩
          · trivial
          · cases hback; trivial
      | storeDisabled => cases h; cases hu; trivial
      | release want => cases h; cases hu; trivial
      | recheckTraction want => cases h; cases hu; trivial
      | recheckBrake want traction =>
          dsimp only [Body.turn, transitionThread] at h
          split at h <;> cases h <;> cases hu
          trivial
      | update pc =>
          rcases updateTurn_self h hu with ⟨pc', rfl⟩ | hnone
          · trivial
          · cases hnone
  | recovery pc =>
      cases pc with
      | resetting pc =>
          obtain ⟨m, hm, rfl⟩ := Option.map_eq_some_iff.mp h
          rcases Move.turn_self hu with ⟨pc', hnext, rfl⟩ | ⟨ok, hnext, hback⟩
          · exact resetMotor_shown hm hb hnew hsub hnext
          · cases hback
            rintro rfl n hn
            exact hsub n hn (resetMotor_true hm hb hnext n hn)
      | storeEnabled ok =>
          cases h
          cases hu
          cases ok <;> trivial
      | clearError => cases h; cases hu; trivial
      | release => cases h; cases hu
  | _ => cases u <;> trivial

theorem Spawns.unshown (h : Spawns c now b) : b.Shown c shown := by
  cases h with
  | sync => trivial
  | transition want =>
      cases want with
      | false => trivial
      | true =>
          refine ⟨?_, ?_⟩
          · simp [startTasks, Function.comp_def]
          · intro t ht hpc
            obtain ⟨n, -, rfl⟩ := List.mem_map.mp ht
            cases hpc
  | recovery => trivial

theorem updateTurn_takes {pc : UpdateEnableState} {inside : UpdateEnableState → Body}
    {after : Option Body} (h : updateTurn c σ pc inside after = some turn)
    (ha : turn.act = .takeTransition) : σ.transitionInProgress = false := by
  obtain ⟨m, hm, rfl⟩ := Option.map_eq_some_iff.mp h
  rw [Move.turn_act] at ha
  cases pc with
  | lock => rw [updateEnableState] at hm; split at hm <;> cases hm; cases ha
  | loadTraction => cases hm; cases ha
  | loadBrake traction => cases hm; cases ha
  | compare want => rw [updateEnableState] at hm; split at hm <;> cases hm <;> cases ha
  | exchange want =>
      rw [updateEnableState] at hm
      split at hm
      · cases hm; cases ha
      · exact Bool.eq_false_of_not_eq_true ‹_›
  | commit want => cases hm; cases ha

/-- The flag is taken where it is found free. -/
theorem Body.turn_takes (h : b.turn c s task = some turn) (ha : turn.act = .takeTransition) :
    s.shared.transitionInProgress = false := by
  have hacts := Body.turn_acts h
  rw [ha] at hacts
  generalize htake : Action.takeTransition = a at hacts
  cases hacts with
  | drive hb hd => subst htake; cases hd
  | evaluation b hpc he =>
      unfold Body.update at hpc
      split at hpc
      · exact updateTurn_takes h ha
      · exact updateTurn_takes h ha
      · exact updateTurn_takes h ha
      · cases hpc
  | takeRecovery =>
      cases h
      dsimp only [controlLoop] at ha
      split at ha
      · cases ha
      · exact Bool.eq_false_of_not_eq_true ‹_›
  | _ => cases htake

/-- Rewriting an entry without its statusword keeps every statusword. -/
theorem Drives.update_statusFlags (d : Drives) (m n : NodeId) (e : MotorState)
    (h : e.statusFlags = (d m).statusFlags) :
    (Function.update d m e n).statusFlags = (d n).statusFlags := by
  by_cases hn : n = m
  · subst hn
    simpa using h
  · simp [hn]

theorem Drives.stampAll_statusFlags (d : Drives) (nodes : List NodeId) :
    (d.stampAll now nodes n).statusFlags = (d n).statusFlags := by
  induction nodes generalizing d with
  | nil => rfl
  | cons m nodes ih =>
      calc (d.stampAll now (m :: nodes) n).statusFlags
          = ((d.stampFeedback m now).stampAll now nodes n).statusFlags := rfl
        _ = (d.stampFeedback m now n).statusFlags := ih _
        _ = (d n).statusFlags := d.update_statusFlags m n _ rfl

/-- An access keeps a statusword, or `configure_node` invalidates it. -/
theorem Shared.apply_statusFlags (σ : Shared) (a : Action) (n : NodeId) :
    ((σ.apply a).drives n).statusFlags = (σ.drives n).statusFlags ∨
      ((σ.apply a).drives n).statusFlags = 0 := by
  cases a with
  | storeTarget m rpm => exact .inl (σ.drives.update_statusFlags m n _ rfl)
  | beginConfigure m =>
      by_cases hn : n = m
      · subst hn
        exact .inr (by simp [Shared.apply, Drives.beginConfigure])
      · exact .inl (by simp [Shared.apply, Drives.beginConfigure, hn])
  | stampFeedback m => exact .inl (σ.drives.update_statusFlags m n _ rfl)
  | requestReinit m =>
      left
      dsimp only [Shared.apply, Drives.requestReinit]
      split
      · rfl
      · exact σ.drives.update_statusFlags m n _ rfl
  | rememberAlarm m => exact .inl (σ.drives.update_statusFlags m n _ rfl)
  | startSync nodes => exact .inl (σ.drives.stampAll_statusFlags nodes)
  | _ => exact .inl rfl

theorem apply_calm {a : Action} (h : σ.drives.Calm) : (σ.apply a).drives.Calm := by
  intro n
  rcases σ.apply_statusFlags a n with hsame | hzero
  · rw [hsame]
    exact h n
  · rw [hzero]
    decide

/-- A received frame keeps a statusword, or is the TPDO1 that carries it. -/
theorem canCallback_statusFlags (nodes : List NodeId) (now : Time) (f : CanFrame) (d : Drives)
    (n : NodeId) :
    (canCallback nodes now f d n).statusFlags = (d n).statusFlags ∨
      f.node ∈ nodes ∧ f.functionCode = 0x180 ∧ 3 ≤ f.dlc ∧
        (canCallback nodes now f d n).statusFlags = f.word16 0 := by
  rcases canCallback_cases nodes now f d with hsame | ⟨hnode, service, hcode, hcomplete, hreceive⟩
  · rw [hsame]
    exact .inl rfl
  · rw [hreceive]
    by_cases hn : n = f.node
    · subst hn
      cases service with
      | tpdo1 =>
          exact .inr ⟨hnode, UInt16.toNat_inj.mp hcode, hcomplete,
            by simp [Service.receive]⟩
      | tpdo2 => exact .inl (d.update_statusFlags f.node f.node _ rfl)
      | tpdo3 => exact .inl (d.update_statusFlags f.node f.node _ rfl)
      | bootUp =>
          left
          dsimp only [Service.receive, Drives.requestReinit]
          split
          · rfl
          · exact d.update_statusFlags f.node f.node _ rfl
    · rw [service.receive_other hn]
      exact .inl rfl

theorem canCallback_calm {f : CanFrame} {d : Drives} (h : d.Calm)
    (hok : ¬ QuickStopFrame c (.can f)) : (canCallback c.driveMotorIds now f d).Calm := by
  intro n hquick
  rcases canCallback_statusFlags c.driveMotorIds now f d n with
    hsame | ⟨hnode, hcode, hlong, hword⟩
  · rw [hsame] at hquick
    exact h n hquick
  · rw [hword] at hquick
    exact hok ⟨hnode, hcode, hlong, hquick⟩

/-- A frame that shows quick stop is taken. -/
theorem not_calm_of_quickStop {f : CanFrame} {d : Drives} (h : QuickStopFrame c (.can f)) :
    ¬ (canCallback c.driveMotorIds now f d).Calm := by
  obtain ⟨hnode, hcode, hlong, hquick⟩ := h
  intro hcalm
  apply hcalm f.node
  rw [canCallback_receives hnode .tpdo1 (by rw [hcode]; rfl) hlong]
  simpa [Service.receive] using hquick

theorem step_calm (h : step c s l = some s') (hcalm : s.shared.drives.Calm)
    (hok : ¬ QuickStopFrame c l) : s'.shared.drives.Calm := by
  cases step_cases h with
  | delayed d hd => exact hcalm
  | received f hopen => exact canCallback_calm hcalm hok
  | called hspin hb => exact hcalm
  | moved hthreads hwake hturn hact => exact apply_calm hcalm

theorem mem_noteShown : n ∈ noteShown c s l shown ↔ n ∈ c.driveMotorIds ∧
    ((n ∈ shown ∧ actionOf c s l ≠ some .takeTransition) ∨
      ShowsEnabled (s.shared.drives n).statusFlags) := by
  simp [noteShown]

/-- No drive is in quick stop, and what the threads have found has been shown. -/
structure ShownBefore (c : Config) (s : State) (shown : List NodeId) : Prop where
  calm : s.shared.drives.Calm
  threads : ∀ t ∈ s.threads, t.body.Shown c shown

theorem start_shown (c : Config) (now : Time) : ShownBefore c (start c now) [] where
  calm n := (by decide : ¬ ShowsQuickStop 0)
  threads := by
    intro t ht
    obtain rfl := List.mem_singleton.mp ht
    trivial

/-- Results outlast a step: while there are any, the flag is not taken. -/
theorem note_shown (hreach : Reachable (step c) (start c now) s) {u : Thread}
    (hu : u ∈ s.threads) (hs : u.body.Shown c shown)
    (htakes : actionOf c s l = some .takeTransition → s.shared.transitionInProgress = false) :
    ∃ kept, u.body.Shown c kept ∧
      ∀ n ∈ c.driveMotorIds, n ∈ kept → n ∈ noteShown c s l shown := by
  by_cases htake : actionOf c s l = some .takeTransition
  · have hfree : u.body.role.flags = 0 := by
      by_contra hheld
      have hflag := flag_of_role hreach hu rfl (Nat.pos_of_ne_zero hheld)
      rw [htakes htake] at hflag
      cases hflag
    exact ⟨[], Body.shown_of_free hfree, fun n _ hn => absurd hn List.not_mem_nil⟩
  · exact ⟨shown, hs, fun n hn hold => mem_noteShown.mpr ⟨hn, .inl ⟨hold, htake⟩⟩⟩

theorem step_shown (hreach : Reachable (step c) (start c now) s) (hs : ShownBefore c s shown)
    (h : step c s l = some s') : ∀ t ∈ s'.threads, t.body.Shown c (noteShown c s l shown) := by
  have hkeep : (actionOf c s l = some .takeTransition → s.shared.transitionInProgress = false) →
      ∀ u ∈ s.threads, u.body.Shown c (noteShown c s l shown) := by
    intro htakes u hu
    obtain ⟨kept, hkept, hsub⟩ := note_shown hreach hu (hs.threads u hu) htakes
    exact hkept.mono hsub
  cases step_cases h with
  | delayed d hd => exact hkeep nofun
  | received f hopen => exact hkeep nofun
  | called hspin hb =>
      intro t ht
      rcases List.mem_append.mp ht with hold | hnew
      · refine hkeep ?_ t hold
        rw [hb.actionOf_eq_none]
        exact nofun
      · obtain rfl := List.mem_singleton.mp hnew
        cases hb <;> trivial
  | @moved task pre post t turn hthreads hwake hturn hact =>
      have ht : t ∈ s.threads := mover_mem hthreads
      have htakes : actionOf c s (.thread pre.length task) = some .takeTransition →
          s.shared.transitionInProgress = false := by
        intro htake
        exact Body.turn_takes hturn (Option.some.inj (hact.symm.trans htake))
      intro u hu
      rcases Body.threads_after hturn hu with hself | hspawns | hother
      · obtain ⟨kept, hkept, hsub⟩ := note_shown hreach ht (hs.threads t ht) htakes
        refine Body.turn_shown hturn hkept ?_ hsub hself
        intro n hn hstate
        exact mem_noteShown.mpr ⟨hn, .inr (hs.calm.shows hstate)⟩
      · exact hspawns.unshown
      · exact hkeep htakes u (other_mem hthreads hother)

/-- From a state without a drive in quick stop, a step reports truly exactly if
it receives no frame that shows one. -/
theorem reported_iff (hs : ShownBefore c s shown) (h : step c s l = some s') :
    ServoOnReported c (s, shown) l s' ↔ ¬ QuickStopFrame c l := by
  constructor
  · intro hreported hframe
    have hcalm := Drives.calm_iff.mpr hreported.enabled
    cases step_cases h with
    | received f hopen => exact not_calm_of_quickStop hframe hcalm
    | delayed d hd => exact hframe
    | moved hthreads hwake hturn hact => exact hframe
    | called hspin hb => cases hb <;> exact hframe
  · intro hok
    have hcalm := step_calm h hs.calm hok
    have hmine : ∀ b ∈ s.mover l, ∃ t ∈ s.threads, t.body = b := by
      intro b hb
      cases l with
      | thread index task =>
          obtain ⟨t, ht, rfl⟩ := Option.map_eq_some_iff.mp hb
          exact ⟨t, List.mem_of_getElem? ht, rfl⟩
      | _ => cases hb
    constructor
    · exact Drives.calm_iff.mp hcalm
    · intro b hb p hp hdone
      exact hs.calm.shows (waitForState_true hdone).2
    · intro b hb hreturns n hn
      obtain ⟨t, ht, rfl⟩ := hmine b hb
      have hshown := hs.threads t ht
      generalize t.body = b at hreturns hshown
      unfold Body.resets at hreturns
      split at hreturns
      · obtain ⟨m, hm, hnext⟩ := Option.bind_eq_some_iff.mp hreturns
        exact resetMotor_true hm hshown (Sum.getRight?_eq_some_iff.mp hnext) n hn
      · cases hreturns
    · intro hstore n hn
      cases step_cases h with
      | delayed d hd => cases hstore
      | received f hopen => cases hstore
      | called hspin hb =>
          rw [hb.actionOf_eq_none] at hstore
          cases hstore
      | @moved task pre post t turn hthreads hwake hturn hact =>
          have hacts := Body.turn_acts hturn
          rw [Option.some.inj (hact.symm.trans hstore)] at hacts
          have hshown := hs.threads t (mover_mem hthreads)
          clear hturn hmine
          generalize t.body = b at hacts hshown
          generalize haction : Action.storeMotorsEnabled true = a at hacts
          cases hacts with
          | drive hb hd => subst haction; cases hd
          | evaluation b hpc he => subst haction; cases he
          | enabled ok =>
              obtain rfl := Action.storeMotorsEnabled.inj haction
              exact hshown rfl n hn
          | recovered ok =>
              obtain rfl := Action.storeMotorsEnabled.inj haction
              exact hshown rfl n hn
          | _ => cases haction
    · exact fun n hquick => absurd hquick (hcalm n)

/-- Along a run servo-on is reported only for drives that have shown the pattern
exactly if no configured node reports quick stop. -/
theorem servo_on_reported_iff (c : Config) (now : Time) (ls : List Label) :
    Along (showing c) (fun w l w' => ServoOnReported c w l w'.1) (start c now, []) ls ↔
      Along (showing c) (fun _ l _ => ¬ QuickStopFrame c l) (start c now, []) ls := by
  let Inv (w : State × List NodeId) : Prop :=
    Reachable (step c) (start c now) w.1 ∧ ShownBefore c w.1 w.2
  have hstart : Inv (start c now, []) := ⟨⟨[], rfl⟩, start_shown c now⟩
  have keep : ∀ w l w', Inv w → ServoOnReported c w l w'.1 → showing c w l = some w' →
      Inv w' := by
    rintro ⟨s, shown⟩ l ⟨s', shown'⟩ ⟨hreach, hs⟩ hreported hl
    obtain ⟨hstep, rfl⟩ := observe_eq_some hl
    exact ⟨hreach.step hstep, Drives.calm_iff.mpr hreported.enabled, step_shown hreach hs hstep⟩
  have same : ∀ w l w', Inv w → showing c w l = some w' →
      (ServoOnReported c w l w'.1 ↔ ¬ QuickStopFrame c l) := by
    rintro ⟨s, shown⟩ l ⟨s', shown'⟩ ⟨-, hs⟩ hl
    exact reported_iff hs (observe_eq_some hl).1
  exact along_iff_of_kept keep same hstart

/-- Drive 1 is enabled and then reports quick stop. -/
def quickStopAfterEnable : List Label := bringUp ++ [statusFrame 0x07]

/-- It goes on being taken as enabled. -/
theorem quick_stop_taken_as_enabled :
    ∃ w, run (showing oneDrive) (start oneDrive 100, []) quickStopAfterEnable = some w ∧
      ShowsQuickStop (w.1.shared.drives 1).statusFlags ∧
      w.1.shared.drives.isOperationEnabled 1 = true ∧
      ¬ Along (showing oneDrive) (fun w l w' => ServoOnReported oneDrive w l w'.1)
        (start oneDrive 100, []) quickStopAfterEnable := by
  have hup : ((run (showing oneDrive) (start oneDrive 100, []) bringUp).map fun w =>
      (showing oneDrive w (statusFrame 0x07)).map fun w' =>
        decide (ShowsQuickStop (w'.1.shared.drives 1).statusFlags ∧
          w'.1.shared.drives.isOperationEnabled 1 = true)) = some (some true) := by
    decide +kernel
  obtain ⟨w, hrun, hw⟩ := Option.map_eq_some_iff.mp hup
  obtain ⟨w', hstep, hw'⟩ := Option.map_eq_some_iff.mp hw
  obtain ⟨hquick, henabled⟩ := of_decide_eq_true hw'
  refine ⟨w', ?_, hquick, henabled, ?_⟩
  · rw [quickStopAfterEnable, run_append, hrun]
    simp [hstep]
  · intro hreported
    have hlast := hreported.after_prefix hrun hstep
    exact hquick.not_enabled (hlast.enabled 1 henabled)

end PolishingRobot.Motor
