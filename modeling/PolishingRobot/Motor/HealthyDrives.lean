import PolishingRobot.Motor.Targets

/-!
# Recovery and healthy drives

`reset_motor` passes over a drive in three places: the test of `needs_reinit`,
the guard before `FAULT_RESET` and the guard of the drive's own task in
`enable_motor`. A drive that is healthy at every access of the run is passed
over in all of them, whatever the other drives do in between.
-/

namespace PolishingRobot.Motor

open Runs

variable {c : Config} {σ : Shared} {s s' : State} {task : Nat} {turn : Turn} {l : Label}
  {node : NodeId}

/-- An NMT command, an SDO or an RPDO1 controlword for the drive. -/
def CanMessage.Disturbs (node : NodeId) : CanMessage → Prop
  | .nmt _ n | .sdo n _ | .rpdo1 n _ _ => n = node
  | .rpdo2 _ _ | .sync => False

/-- The access writes such a frame. -/
def Action.Disturbs (node : NodeId) : Action → Prop
  | .write m => m.Disturbs node
  | _ => False

/-- The cached statusword shows `OPERATION_ENABLED` and nothing asks for a
new configuration. -/
def Shared.Healthy (σ : Shared) (node : NodeId) : Prop :=
  σ.drives.isOperationEnabled node = true ∧ (σ.drives node).needsReinit = false

instance (σ : Shared) : Decidable (σ.Healthy node) := inferInstanceAs (Decidable (_ ∧ _))

theorem configureNode_disturbs {n : NodeId} {pc : ConfigureNode}
    (h : (configureNode n pc).act.Disturbs node) : n = node := by
  unfold configureNode at h
  split at h
  · cases h
  · exact h
  · exact h
  · cases h
  · exact h
  · cases h

theorem enableTask_disturbs {n : NodeId} {pc : EnableTask}
    (h : (enableTask σ n pc).act.Disturbs node) : n = node := by
  unfold enableTask at h
  repeat' split at h
  all_goals first
    | exact h
    | cases h
    | (rw [Move.call_act, waitForState_act] at h; cases h)

/-- The task has not passed its guard, or returned there. -/
def Task.SparedBy (node : NodeId) (t : Task) : Prop :=
  t.node = node → t.pc = .inl .guard ∨ t.pc = .inr true

theorem startTasks_sparedBy (now : Time) (nodes : List NodeId) :
    ∀ t ∈ startTasks now nodes, t.SparedBy node := by
  intro t ht _
  obtain ⟨n, -, rfl⟩ := List.mem_map.mp ht
  exact .inl rfl

/-- A task of a healthy drive returns at its guard; the others write for their
own drives only. -/
theorem Task.step_sparedBy {t : Task} {a : Action} {us : List Task}
    (h : t.step σ = some (a, us)) (hhealthy : σ.Healthy node) (ht : t.SparedBy node) :
    ¬ a.Disturbs node ∧ ∀ u ∈ us, u.SparedBy node := by
  obtain ⟨n, wake, pc⟩ := t
  cases pc with
  | inr ok => cases h
  | inl pc =>
      dsimp only [Task.step] at h
      split at h
      · obtain ⟨rfl, rfl⟩ := Prod.mk.inj (Option.some.inj h)
        by_cases hn : n = node
        · subst hn
          have hguard : pc = .guard := by
            rcases ht rfl with hpc | hpc
            · exact Sum.inl.inj hpc
            · cases hpc
          subst hguard
          simp only [enableTask, hhealthy.1, if_true, List.mem_singleton]
          refine ⟨id, ?_⟩
          rintro u rfl -
          exact .inr rfl
        · refine ⟨fun hdisturbs => hn (enableTask_disturbs hdisturbs), ?_⟩
          intro u hu hnode
          obtain rfl := List.mem_singleton.mp hu
          exact absurd hnode hn
      · cases h

theorem enableMotor_sparedBy {tasks : List Task} {m : Move (List Task) Bool}
    (h : enableMotor σ task tasks = some m) (hhealthy : σ.Healthy node)
    (ht : ∀ t ∈ tasks, t.SparedBy node) :
    ¬ m.act.Disturbs node ∧ ∀ tasks', m.next = .inl tasks' → ∀ t ∈ tasks', t.SparedBy node := by
  unfold enableMotor at h
  split at h
  · obtain rfl := Option.some.inj h
    exact ⟨id, nofun⟩
  · obtain ⟨⟨a, ts⟩, hstep, rfl⟩ := Option.map_eq_some_iff.mp h
    obtain ⟨pre, t, post, us, rfl, -, hmove, rfl⟩ := stepAt_split hstep
    obtain ⟨hact, hus⟩ := Task.step_sparedBy hmove hhealthy (ht t (mem_at.mpr (.inl rfl)))
    refine ⟨hact, ?_⟩
    intro tasks' hnext u hu
    obtain rfl := Sum.inl.inj hnext
    rcases mem_replaced.mp hu with hus' | hother
    · exact hus u hus'
    · exact ht u (mem_at.mpr (.inr hother))

/-- The run is at no access that concerns the drive. -/
def ResetMotor.Spares (node : NodeId) : ResetMotor → Prop
  | .configure n _ _ => n ≠ node
  | .faultReset n _ _ => n ≠ node
  | .enabling tasks => ∀ t ∈ tasks, t.SparedBy node
  | .reinit _ | .guard _ | .verify .. => True

/-- One access of `reset_motor` that finds the drive healthy. -/
theorem resetMotor_spares {nodes : List NodeId} {pc : ResetMotor} {m : Move ResetMotor Bool}
    (h : resetMotor nodes σ task pc = some m) (hhealthy : σ.Healthy node)
    (hpc : pc.Spares node) :
    ¬ m.act.Disturbs node ∧ ∀ pc', m.next = .inl pc' → pc'.Spares node := by
  cases pc with
  | reinit rest =>
      cases rest with
      | nil =>
          cases h
          refine ⟨id, fun pc' hnext => ?_⟩
          cases hnext
          trivial
      | cons n rest =>
          rw [resetMotor] at h
          split at h
          · rename_i hreinit
            cases h
            refine ⟨id, fun pc' hnext => ?_⟩
            cases hnext
            rintro rfl
            rw [hhealthy.2] at hreinit
            cases hreinit
          · cases h
            refine ⟨id, fun pc' hnext => ?_⟩
            cases hnext
            trivial
  | configure n rest pc =>
      cases h
      rw [Move.call_act]
      refine ⟨fun hdisturbs => hpc (configureNode_disturbs hdisturbs), fun pc' hnext => ?_⟩
      rcases Move.call_next hnext with ⟨pc, -, hinside⟩ | ⟨_, -, hback⟩
      · cases hinside
        exact hpc
      · cases hback
        trivial
  | guard rest =>
      cases rest with
      | nil =>
          cases h
          refine ⟨id, fun pc' hnext => ?_⟩
          cases hnext
          exact startTasks_sparedBy σ.now nodes
      | cons n rest =>
          rw [resetMotor] at h
          split at h
          · cases h
            refine ⟨id, fun pc' hnext => ?_⟩
            cases hnext
            trivial
          · rename_i henabled
            cases h
            refine ⟨id, fun pc' hnext => ?_⟩
            cases hnext
            rintro rfl
            exact henabled hhealthy.1
  | faultReset n rest again =>
      cases again <;> cases h <;> refine ⟨hpc, fun pc' hnext => ?_⟩ <;> cases hnext
      · exact hpc
      · trivial
  | enabling tasks =>
      obtain ⟨m', hm', rfl⟩ := Option.map_eq_some_iff.mp h
      obtain ⟨hact, htasks⟩ := enableMotor_sparedBy hm' hhealthy hpc
      rw [Move.call_act]
      refine ⟨hact, fun pc' hnext => ?_⟩
      rcases Move.call_next hnext with ⟨tasks', htasks', hinside⟩ | ⟨_, -, hback⟩
      · cases hinside
        exact htasks tasks' htasks'
      · cases hback
        trivial
  | verify rest ok wait =>
      cases rest with
      | nil =>
          cases h
          exact ⟨id, nofun⟩
      | cons n rest =>
          cases h
          rw [Move.call_act, waitForState_act]
          refine ⟨id, fun pc' hnext => ?_⟩
          rcases Move.call_next hnext with ⟨_, -, hinside⟩ | ⟨_, -, hback⟩
          · cases hinside
            trivial
          · cases hback
            trivial

/-- What an access of `reset_motor` finds: the shared memory as the rest of the
system has left it, and the task that moves if it waits for `enable_motor`. -/
structure Access where
  shared : Shared
  task : Nat

/-- `reset_motor` takes one access; nothing follows its return. -/
def resetStep (nodes : List NodeId) (pc : ResetMotor) (found : Access) : Option ResetMotor :=
  (resetMotor nodes found.shared found.task pc).bind fun m => m.next.getLeft?

/-- A drive that every access of a run of `reset_motor` finds healthy is sent no
NMT command, no SDO and no controlword by that run, whatever the accesses find
about the other drives and in whatever order the tasks move. -/
theorem healthy_drive_undisturbed (nodes : List NodeId) (node : NodeId) (accesses : List Access)
    (found : Access) (pc : ResetMotor) (m : Move ResetMotor Bool)
    (hrun : run (resetStep nodes) (.reinit nodes) accesses = some pc)
    (hmove : resetMotor nodes found.shared found.task pc = some m)
    (hhealthy : ∀ a ∈ accesses ++ [found], a.shared.Healthy node) : ¬ m.act.Disturbs node := by
  have hsteps : Along (resetStep nodes) (fun _ a _ => a.shared.Healthy node) (.reinit nodes)
      accesses := by
    refine along_of_forall_mem _ ?_ _
    intro a ha
    exact hhealthy a (List.mem_append_left _ ha)
  have hstart : (ResetMotor.reinit nodes).Spares node := trivial
  have hspares : pc.Spares node := by
    refine invariant_of_run ?_ hstart hsteps hrun
    intro pc a pc' hpc ha hstep
    obtain ⟨m', hm', hnext⟩ := Option.bind_eq_some_iff.mp hstep
    exact (resetMotor_spares hm' ha hpc).2 pc' (Sum.getLeft?_eq_some_iff.mp hnext)
  exact (resetMotor_spares hmove (hhealthy found (by simp)) hspares).1

/-- Drive 1 in operation, drive 2 in fault. -/
def faultOnTwo : Access where
  shared :=
    { now := 0
      drives := fun n => if n = 1 then { statusFlags := 0x27 } else { statusFlags := 0x08 } }
  task := 0

/-- The fault reset of drive 2 passes drive 1 by. -/
theorem healthy_drive_undisturbed_beside_fault :
    ¬ (Action.write (.rpdo1 2 Controlword.faultReset 0)).Disturbs 1 :=
  healthy_drive_undisturbed [1, 2] 1 (List.replicate 5 faultOnTwo) faultOnTwo
    (.faultReset 2 [] false) _ (by decide +kernel) rfl (by decide +kernel)

/-- No thread of the system is inside a `reset_motor` that concerns the drive. -/
def RecoveriesSpare (node : NodeId) (s : State) : Prop :=
  ∀ u ∈ s.threads, ∀ pc, u.body = .recovery (.resetting pc) → pc.Spares node

/-- The step writes nothing to the drive on behalf of a recovery. -/
def RecoverySilent (c : Config) (node : NodeId) (s : State) (l : Label) : Prop :=
  ∀ pc, s.mover l = some (.recovery pc) → ∀ a, actionOf c s l = some a → ¬ a.Disturbs node

theorem recoveryThread_spares {pc : Recovery} (h : recoveryThread c σ task pc = some turn)
    (hhealthy : σ.Healthy node) (hpc : ∀ pc', pc = .resetting pc' → pc'.Spares node) :
    ¬ turn.act.Disturbs node ∧
      ∀ pc', turn.self = some (.recovery (.resetting pc')) → pc'.Spares node := by
  cases pc with
  | resetting pc =>
      obtain ⟨m, hm, rfl⟩ := Option.map_eq_some_iff.mp h
      obtain ⟨hact, hnext⟩ := resetMotor_spares hm hhealthy (hpc pc rfl)
      rw [Move.turn_act]
      refine ⟨hact, fun pc' hself => ?_⟩
      rcases Move.turn_self hself with ⟨pc'', hm', hinside⟩ | ⟨ok, -, hback⟩
      · cases hinside
        exact hnext _ hm'
      · cases hback
  | storeEnabled ok =>
      cases h
      refine ⟨id, fun pc' hself => ?_⟩
      cases ok <;> cases hself
  | clearError => cases h; exact ⟨id, nofun⟩
  | release => cases h; exact ⟨id, nofun⟩

theorem step_recoveriesSpare (hs : RecoveriesSpare node s) (hhealthy : s.shared.Healthy node)
    (h : step c s l = some s') : RecoveriesSpare node s' := by
  cases step_cases h with
  | delayed d hd => exact hs
  | received f hopen => exact hs
  | called hspin hb =>
      intro u hu pc hbody
      rcases List.mem_append.mp hu with hold | hnew
      · exact hs u hold pc hbody
      · obtain rfl := List.mem_singleton.mp hnew
        cases hbody
        cases hb
  | @moved task pre post t turn hthreads hwake hturn hact =>
      intro u hu pc hbody
      rcases Body.threads_after hturn hu with hself | hspawns | hother
      · rw [hbody] at hself
        have hkind := Body.turn_kind hturn hself
        have ht : t ∈ s.threads := mover_mem hthreads
        generalize hb : t.body = b at hturn hkind
        cases b with
        | recovery pc' =>
            refine (recoveryThread_spares hturn hhealthy ?_).2 pc hself
            rintro pc'' rfl
            exact hs t ht pc'' hb
        | _ => cases hkind
      · rw [hbody] at hspawns
        generalize hb : Body.recovery (.resetting pc) = b at hspawns
        cases hspawns with
        | recovery => cases hb; trivial
        | _ => cases hb
      · exact hs u (other_mem hthreads hother) pc hbody

theorem step_recoverySilent (hs : RecoveriesSpare node s) (hhealthy : s.shared.Healthy node)
    (h : step c s l = some s') : RecoverySilent c node s l := by
  intro pc hmover a ha
  cases step_cases h with
  | delayed d hd => cases hmover
  | received f hopen => cases hmover
  | called hspin hb => rw [hb.actionOf_eq_none] at ha; cases ha
  | @moved task pre post t turn hthreads hwake hturn hact =>
      obtain rfl := Option.some.inj (hact.symm.trans ha)
      rw [mover_eq hthreads] at hmover
      have ht : t ∈ s.threads := mover_mem hthreads
      have hbody := Option.some.inj hmover
      rw [hbody] at hturn
      refine (recoveryThread_spares hturn hhealthy ?_).1
      rintro pc' rfl
      exact hs t ht pc' hbody

/-- While a drive stays healthy, the recoveries that start in the run of the
node never write to it. -/
theorem recoveries_silent (c : Config) (node : NodeId) (s : State) (ls : List Label)
    (hs : ∀ u ∈ s.threads, ∀ pc, u.body ≠ .recovery pc)
    (hhealthy : Along (step c) (fun s _ _ => s.shared.Healthy node) s ls) :
    Along (step c) (fun s l _ => RecoverySilent c node s l) s ls := by
  refine along_of_invariant (fun s l s' hi hok h => step_recoveriesSpare hi hok h)
    (fun s l s' hi hok h => step_recoverySilent hi hok h) ?_ hhealthy
  exact fun u hu pc hbody => absurd hbody (hs u hu _)

end PolishingRobot.Motor
