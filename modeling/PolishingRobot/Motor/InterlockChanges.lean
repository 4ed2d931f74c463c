import PolishingRobot.Motor.InterlockModel
import PolishingRobot.Motor.Targets

/-!
# Interlock changes

The threads of the node play the roles of the interlock, so its invariant holds
of the node. A recovery gives the flag back without looking at the inputs; a
change that was dropped meanwhile is lost, unless another thread attends to it.
-/

namespace PolishingRobot.Motor

open Runs

variable {c : Config} {σ : Shared} {s s' : State} {task : Nat} {turn : Turn} {l : Label}
  {b : Body} {o : Option Servo}

def Transition.role : Transition → Role
  | .enabling _ => .applying true
  | .storeEnabled _ => .applying true
  | .zeroing _ => .applying false
  | .disabling _ => .applying false
  | .storeDisabled => .applying false
  | .release want => .applied want
  | .recheckTraction want => .rechecking want
  | .recheckBrake want traction => .comparing want traction
  | .update pc => .evaluating pc

def Recovery.role : Recovery → Role
  | .resetting _ => .recovering
  | .storeEnabled _ => .recovering
  | .clearError => .recovered
  | .release => .releasing

def Body.role : Body → Role
  | .main (.configure _) => .caller
  | .main (.configuring _ _ _) => .caller
  | .main .startSync => .caller
  | .main .subscribe => .caller
  | .main (.update pc) => .evaluating pc
  | .interlock (.storeTraction _) => .caller
  | .interlock (.storeBrake _) => .caller
  | .interlock (.update pc) => .evaluating pc
  | .control .startRecovery => .recovering
  | .transition pc => pc.role
  | .recovery pc => pc.role
  | _ => .bystander

/-- The servo action that the thread completes with its store of
`motors_enabled_`. -/
def Body.servo : Body → Option Servo
  | .transition (.storeEnabled _) => some .enable
  | .transition .storeDisabled => some .disable
  | .recovery (.storeEnabled _) => some .reset
  | _ => none

def Turn.roles (turn : Turn) : List Role :=
  (turn.self.map Body.role).toList ++ (turn.spawned.map Body.role).toList

/-- Accesses that leave the interlock alone. -/
theorem Shared.signals_of_isDrive {a : Action} (h : a.isDrive) :
    (σ.apply a).signals c = σ.signals c := by
  cases a <;> first | rfl | cases h

theorem startTransition_role (now : Time) (want : Bool) :
    Body.role (.transition (startTransition c now want)) = .applying want := by
  cases want <;> rfl

/-- An evaluation inside a thread that stands by afterwards. -/
theorem updateTurn_plays {pc : UpdateEnableState} {inside : UpdateEnableState → Body}
    {after : Option Body} (h : updateTurn c σ pc inside after = some turn)
    (hinside : ∀ pc, (inside pc).role = .evaluating pc)
    (hafter : ∀ b ∈ after, b.role = .bystander) :
    Plays (σ.signals c) (.evaluating pc) none ((σ.apply turn.act).signals c) turn.roles := by
  have hbystander : ∀ r ∈ (after.map Body.role).toList, r = .bystander := by
    intro r hr
    obtain ⟨b, hb, rfl⟩ := Option.map_eq_some_iff.mp (Option.mem_toList.mp hr)
    exact hafter b hb
  obtain ⟨m, hm, rfl⟩ := Option.map_eq_some_iff.mp h
  cases pc with
  | lock =>
      rw [updateEnableState] at hm
      split at hm
      · cases hm
      · rename_i hfree
        cases hm
        change Plays _ _ _ _ [(inside .loadTraction).role]
        rw [hinside]
        exact .lock (Bool.eq_false_of_not_eq_true hfree)
  | loadTraction =>
      cases hm
      change Plays _ _ _ _ [(inside (.loadBrake _)).role]
      rw [hinside]
      exact .loadTraction
  | loadBrake traction =>
      cases hm
      change Plays _ _ _ _ [(inside (.compare _)).role]
      rw [hinside]
      exact .loadBrake traction
  | compare want =>
      rw [updateEnableState] at hm
      split at hm
      · rename_i hsame
        cases hm
        obtain ⟨hinit, hwant⟩ := Bool.and_eq_true_iff.mp hsame
        change Plays _ _ _ _ ((after.map Body.role).toList ++ [])
        rw [List.append_nil]
        exact .settled hinit (beq_iff_eq.mp hwant) hbystander
      · cases hm
        change Plays _ _ _ _ [(inside (.exchange want)).role]
        rw [hinside]
        exact .differs want
  | exchange want =>
      rw [updateEnableState] at hm
      split at hm
      · cases hm
        change Plays _ _ _ _ ((after.map Body.role).toList ++ [])
        rw [List.append_nil]
        exact .dropped ‹_› hbystander
      · rename_i hfree
        cases hm
        change Plays _ _ _ _ [(inside (.commit want)).role]
        rw [hinside]
        exact .taken want (Bool.eq_false_of_not_eq_true hfree)
  | commit want =>
      cases hm
      change Plays _ _ _ _ ((after.map Body.role).toList ++
        [Body.role (.transition (startTransition c σ.now want))])
      rw [startTransition_role]
      exact .commit hbystander

theorem controlLoop_spawned {pc : ControlLoop} (hpc : pc ≠ .startRecovery) :
    (controlLoop c σ pc).spawned = none := by
  unfold controlLoop
  split
  all_goals first
    | rfl
    | (split <;> rfl)
    | exact absurd rfl hpc

/-- A procedure that keeps its thread in the role. -/
theorem Move.turn_roles {Pc Result : Type} {m : Move Pc Result} {inside : Pc → Body}
    {back : Result → Option Body × Option Body} {r : Role} (hinside : ∀ pc, (inside pc).role = r)
    (hback : ∀ x, ∃ b, back x = (some b, none) ∧ b.role = r) :
    (m.turn inside back).roles = [r] := by
  unfold Move.turn
  split
  · simp [Turn.roles, hinside]
  · rename_i x _
    obtain ⟨b, hb, hr⟩ := hback x
    simp [Turn.roles, hb, hr]

theorem bystander_alone : ∀ r ∈ [Role.bystander], r = .bystander := by
  simp

theorem mainThread_plays {threads : List Thread} {pc : Main}
    (h : mainThread c σ threads pc = some turn) :
    Plays (σ.signals c) (Body.main pc).role none ((σ.apply turn.act).signals c) turn.roles := by
  cases pc with
  | configure rest => cases rest <;> cases h <;> exact .waits (by simp)
  | configuring node rest pc =>
      cases h
      rw [Move.turn_act, Shared.signals_of_isDrive (configureNode_isDrive node pc),
        Move.turn_roles (r := .caller) (fun _ => rfl) fun _ => ⟨_, rfl, rfl⟩]
      exact .waits (by simp)
  | startSync => cases h; exact .waits bystander_alone
  | subscribe => cases h; exact .calls _ _
  | update pc =>
      apply updateTurn_plays h
      · exact fun _ => rfl
      · rintro b ⟨⟩
        rfl
  | spin => cases h; exact .bystands bystander_alone
  | running =>
      rw [mainThread] at h
      split at h <;> cases h
      exact .bystands bystander_alone
  | destroyNode pc =>
      cases h
      rw [Move.turn_act, Shared.signals_of_isDrive (disableMotor_isDrive _ pc),
        Move.turn_roles (r := .bystander) (fun _ => rfl) fun _ => ⟨_, rfl, rfl⟩]
      exact .bystands (by simp)
  | stopSync => cases h; exact .bystands bystander_alone
  | joinSync =>
      rw [mainThread] at h
      split at h <;> cases h
      exact .bystands bystander_alone
  | destroyController pc =>
      cases h
      rw [Move.turn_act, Shared.signals_of_isDrive (disableMotor_isDrive _ pc)]
      apply Plays.bystands
      unfold Move.turn
      split <;> simp [Turn.roles, Body.role]

theorem transitionThread_plays {pc : Transition} (h : transitionThread c σ task pc = some turn) :
    Plays (σ.signals c) pc.role (Body.transition pc).servo ((σ.apply turn.act).signals c)
      turn.roles := by
  cases pc with
  | enabling tasks =>
      obtain ⟨m, hm, rfl⟩ := Option.map_eq_some_iff.mp h
      rw [Move.turn_act, Shared.signals_of_isDrive (enableMotor_isDrive hm),
        Move.turn_roles (r := .applying true) (fun _ => rfl) fun _ => ⟨_, rfl, rfl⟩]
      exact .applies true
  | storeEnabled ok => cases h; exact .applied true ok fun _ => rfl
  | zeroing rest => cases rest <;> cases h <;> exact .applies false
  | disabling pc =>
      cases h
      rw [Move.turn_act, Shared.signals_of_isDrive (disableMotor_isDrive _ pc),
        Move.turn_roles (r := .applying false) (fun _ => rfl) fun _ => ⟨_, rfl, rfl⟩]
      exact .applies false
  | storeDisabled => cases h; exact .applied false false fun h => h
  | release want => cases h; exact .releases want
  | recheckTraction want => cases h; exact .rechecks want
  | recheckBrake want traction =>
      rw [transitionThread] at h
      split at h
      · cases h; exact .reevaluates want traction
      · rename_i hsame
        cases h
        exact .agrees (not_ne_iff.mp hsame)
  | update pc =>
      apply updateTurn_plays h
      · exact fun _ => rfl
      · rintro b ⟨⟩

theorem recoveryThread_plays {pc : Recovery} (h : recoveryThread c σ task pc = some turn) :
    Plays (σ.signals c) pc.role (Body.recovery pc).servo ((σ.apply turn.act).signals c)
      turn.roles := by
  cases pc with
  | resetting pc =>
      obtain ⟨m, hm, rfl⟩ := Option.map_eq_some_iff.mp h
      rw [Move.turn_act, Shared.signals_of_isDrive (resetMotor_isDrive hm),
        Move.turn_roles (r := .recovering) (fun _ => rfl) fun _ => ⟨_, rfl, rfl⟩]
      exact .recovers
  | storeEnabled ok => cases ok <;> cases h <;> exact .recovered _
  | clearError => cases h; exact .clears
  | release => cases h; exact .releasesRecovery

theorem interlockCallback_plays {pc : Interlock} (h : interlockCallback c σ pc = some turn) :
    Plays (σ.signals c) (Body.interlock pc).role none ((σ.apply turn.act).signals c)
      turn.roles := by
  cases pc with
  | storeTraction on => cases h; exact .calls _ _
  | storeBrake engaged => cases h; exact .calls _ _
  | update pc =>
      apply updateTurn_plays h
      · exact fun _ => rfl
      · rintro b ⟨⟩

theorem syncLoop_plays (pc : SyncLoop) :
    Plays (σ.signals c) .bystander none ((σ.apply (syncLoop c σ pc).act).signals c)
      (syncLoop c σ pc).roles := by
  have hsignals : (σ.apply (syncLoop c σ pc).act).signals c = σ.signals c := by
    unfold syncLoop
    split <;> rfl
  rw [hsignals]
  apply Plays.bystands
  unfold syncLoop
  split
  · split <;> simp [Turn.roles, Body.role]
  all_goals simp [Turn.roles, Body.role]

theorem cmdCallback_plays (pc : CmdCallback) :
    Plays (σ.signals c) .bystander none ((σ.apply (cmdCallback c σ pc).act).signals c)
      (cmdCallback c σ pc).roles := by
  have hsignals : (σ.apply (cmdCallback c σ pc).act).signals c = σ.signals c := by
    unfold cmdCallback
    split <;> rfl
  rw [hsignals]
  apply Plays.bystands
  unfold cmdCallback
  split
  · split <;> simp [Turn.roles, Body.role]
  · simp [Turn.roles, Body.role]
  · split <;> simp [Turn.roles, Body.role]
  all_goals simp [Turn.roles, Body.role]

theorem controlLoop_plays (pc : ControlLoop) :
    Plays (σ.signals c) (Body.control pc).role none ((σ.apply (controlLoop c σ pc).act).signals c)
      (controlLoop c σ pc).roles := by
  by_cases hexchange : pc = .exchange
  · subst hexchange
    rw [controlLoop]
    split
    · exact .bystands (by simp [Turn.roles])
    · rename_i hfree
      exact .takesRecovery (Bool.eq_false_of_not_eq_true hfree)
  · by_cases hstart : pc = .startRecovery
    · subst hstart
      exact .recovers
    · have hrole : (Body.control pc).role = .bystander := by
        cases pc <;> first | rfl | exact absurd rfl hstart
      have hsignals : (σ.apply (controlLoop c σ pc).act).signals c = σ.signals c := by
        unfold controlLoop
        split <;> first | rfl | exact absurd rfl hexchange
      rw [hrole, hsignals]
      apply Plays.bystands
      rw [Turn.roles, controlLoop_spawned hstart]
      intro r hr
      obtain ⟨u, hu, rfl⟩ := Option.map_eq_some_iff.mp
        (Option.mem_toList.mp (by simpa using hr))
      obtain ⟨pc', rfl, hfollows⟩ := controlLoop_follows hu
      cases hfollows with
      | zeroing => rfl
      | zeroed node rest => rfl
      | recovery => exact absurd rfl hexchange
      | other pc hzero hstart =>
          cases pc' with
          | startRecovery => exact absurd rfl hstart
          | _ => rfl

/-- Every thread plays its role. -/
theorem Body.turn_plays (h : b.turn c s task = some turn) :
    Plays (s.shared.signals c) b.role b.servo ((s.shared.apply turn.act).signals c)
      turn.roles := by
  cases b with
  | main pc => exact mainThread_plays h
  | sync pc => cases h; exact syncLoop_plays pc
  | cmd pc => cases h; exact cmdCallback_plays pc
  | control pc => cases h; exact controlLoop_plays pc
  | interlock pc => exact interlockCallback_plays h
  | transition pc => exact transitionThread_plays h
  | recovery pc => exact recoveryThread_plays h

/-- The last completed servo action. -/
def noteServo (s : State) (l : Label) (o : Option Servo) : Option Servo :=
  ((s.mover l).bind Body.servo).or o

/-- Steps of the node with its last servo action. -/
def served (c : Config) : State × Option Servo → Label → Option (State × Option Servo) :=
  observe (step c) noteServo

def State.view (c : Config) (s : State) (o : Option Servo) : View where
  signals := s.shared.signals c
  roles := s.threads.map fun t => t.body.role
  servo := o

/-- The recovery that gives the flag back finds the interlock committed to
enable, and still satisfied unless another thread is going to evaluate it. -/
def InTimeForRecovery (c : Config) (s : State) (l : Label) : Prop :=
  ∀ b ∈ s.mover l, b.role = .releasing → s.shared.lastBrakeWantEnabled = true ∧
    (computeWantEnabled c s.shared = true ∨
      ∃ t ∈ s.threads, t.body.role.attends (s.shared.signals c) = true)

instance (s : State) (l : Label) : Decidable (InTimeForRecovery c s l) :=
  inferInstanceAs (Decidable (∀ b ∈ s.mover l, _ → _ ∧ (_ ∨ ∃ t ∈ s.threads, _)))

theorem Turn.threads_roles (turn : Turn) (now : Time) :
    (turn.threads now).map (fun t => t.body.role) = turn.roles := by
  simp [Turn.threads, Turn.roles, Option.toList_map, Function.comp_def]

theorem Starts.role (h : Starts l b) : b.role = .bystander ∨ b.role = .caller := by
  cases h with
  | motorCmd data => exact .inl rfl
  | tick => exact .inl rfl
  | traction on => exact .inr rfl
  | brake engaged => exact .inr rfl

theorem Starts.mover_eq_none (h : Starts l b) : s.mover l = none := by
  cases h <;> rfl

/-- The node refines the protocol of the roles. -/
theorem step_view (h : step c s l = some s') :
    s'.view c (noteServo s l o) = s.view c o ∨
      (s.view c o).Step ((s.mover l).map Body.role) (s'.view c (noteServo s l o)) := by
  cases step_cases h with
  | delayed d => exact .inl rfl
  | received f => exact .inl rfl
  | @called _ b hspin hb =>
      right
      have hjoins := View.Step.joins (v := s.view c o) hb.role
      have hview : (s.call b).view c (noteServo s l o) =
          { s.view c o with roles := (s.view c o).roles ++ [b.role] } := by
        simp [State.view, State.call, noteServo, hb.mover_eq_none]
      rw [hview, hb.mover_eq_none]
      exact hjoins
  | @moved task pre post t turn hthreads hwake hturn hact =>
      right
      have hmover : s.mover (.thread pre.length task) = some t.body := mover_eq hthreads
      have hroles : (s.view c o).roles = pre.map (fun t => t.body.role) ++
          t.body.role :: post.map (fun t => t.body.role) := by
        simp [State.view, hthreads]
      have hplays := View.Step.plays hroles (Body.turn_plays hturn)
      rw [← turn.threads_roles s.shared.now] at hplays
      simpa [State.view, noteServo, hmover] using hplays

theorem start_held (c : Config) (now : Time) : Held ((start c now).view c none) := by
  have hrole : ((start c now).view c none).roles = [.caller] := by
    unfold start State.view
    cases c.canOpen <;> rfl
  constructor
  · rw [hrole]; rfl
  · rw [hrole]; rfl
  · intro h; cases h
  · intro r hr
    rw [hrole] at hr
    obtain rfl := List.mem_singleton.mp hr
    trivial
  · intro r hr hstale
    rw [hrole] at hr
    obtain rfl := List.mem_singleton.mp hr
    cases hstale

theorem start_attended (c : Config) (now : Time) : Attended ((start c now).view c none) where
  toHeld := start_held c now
  resting := by
    intro _ hinit
    cases hinit
  tended := by
    refine .inl ⟨.caller, ?_, rfl⟩
    unfold start State.view
    cases c.canOpen <;> exact List.mem_cons_self

/-- Threads that last as long as the node runs. -/
def Body.lasts : Body → Bool
  | .main .running => true
  | .sync _ => true
  | _ => false

/-- No transition is in progress, the started threads have finished and the
callbacks have returned. -/
def Quiescent (s : State) : Prop :=
  s.shared.transitionInProgress = false ∧ ∀ t ∈ s.threads, t.body.lasts = true

instance (s : State) : Decidable (Quiescent s) :=
  inferInstanceAs (Decidable (_ ∧ ∀ t ∈ s.threads, _))

/-- The last servo action is the one that `computeWantEnabled` asks for. -/
def Agreement (c : Config) (s : State) (o : Option Servo) : Prop :=
  o.map Servo.goal = some (computeWantEnabled c s.shared) ∧
    (s.shared.motorsEnabled = true → computeWantEnabled c s.shared = true)

instance (s : State) (o : Option Servo) : Decidable (Agreement c s o) :=
  inferInstanceAs (Decidable (_ ∧ (_ → _)))

theorem Body.lasts_bystander (h : b.lasts = true) : b.role = .bystander := by
  cases b with
  | main pc => cases pc <;> first | rfl | cases h
  | sync pc => rfl
  | _ => cases h

theorem quiescent_agrees (hs : Attended (s.view c o)) (hquiet : Quiescent s) :
    Agreement c s o := by
  apply hs.agrees
  intro r hr
  obtain ⟨t, ht, rfl⟩ := List.mem_map.mp hr
  exact Body.lasts_bystander (hquiet.2 t ht)

/-- Through the view the node with its history runs the protocol. -/
theorem served_simulated (c : Config) :
    SimulatedBy (served c) (fun _ _ _ => True) (fun w => w.1.view c w.2)
      fun v v' => ∃ mover, v.Step mover v' := by
  rintro ⟨s, o⟩ l ⟨s', o'⟩ - h
  obtain ⟨hstep, rfl⟩ := observe_eq_some h
  exact (step_view hstep).imp_right fun hmoved => ⟨_, hmoved⟩

theorem served_simulated_guarded (c : Config) :
    SimulatedBy (served c) (fun w l _ => InTimeForRecovery c w.1 l) (fun w => w.1.view c w.2)
      fun v v' => ∃ mover, v.Step mover v' ∧ ∀ r ∈ mover, v.Guarded r := by
  rintro ⟨s, o⟩ l ⟨s', o'⟩ hok h
  obtain ⟨hstep, rfl⟩ := observe_eq_some h
  refine (step_view hstep).imp_right fun hmoved => ⟨_, hmoved, ?_⟩
  intro r hr hreleasing
  obtain ⟨b, hb, rfl⟩ := Option.map_eq_some_iff.mp hr
  obtain ⟨hcommitted, hwant | ⟨u, hu, hattends⟩⟩ := hok b hb hreleasing
  · exact ⟨hcommitted, .inl hwant⟩
  · exact ⟨hcommitted, .inr ⟨_, List.mem_map_of_mem hu, hattends⟩⟩

theorem reachable_held {now : Time} (h : Reachable (served c) (start c now, none) (s, o)) :
    Held (s.view c o) := by
  have keep := (served_simulated c).keep fun v v' (hv : Held v) ⟨_, hmoved⟩ => hv.step hmoved
  exact invariant_of_reachable (fun w l w' hw hl => keep w l w' hw trivial hl)
    (start_held c now) h

/-- In every reachable state of the node at most one thread holds
`transition_in_progress_`, and at most one the mutex. -/
theorem one_holder {now : Time} (h : Reachable (step c) (start c now) s) :
    tokens Role.flags (s.threads.map fun t => t.body.role) =
        s.shared.transitionInProgress.toNat ∧
      tokens Role.locks (s.threads.map fun t => t.body.role) =
        s.shared.tractionEnableMutex.toNat := by
  obtain ⟨ls, hrun⟩ := h
  rw [← run_observe (step c) noteServo (start c now) none ls] at hrun
  obtain ⟨⟨t, o⟩, hserved, rfl⟩ := Option.map_eq_some_iff.mp hrun
  have hheld := reachable_held ⟨ls, hserved⟩
  exact ⟨hheld.flags, hheld.locks⟩

/-- In every run in which each recovery gives the flag back in time, a state
with nothing in flight agrees with the interlock. -/
theorem no_lost_change (c : Config) (now : Time) (ls : List Label) (t : State)
    (o : Option Servo)
    (hok : Along (served c) (fun w l _ => InTimeForRecovery c w.1 l) (start c now, none) ls)
    (hrun : run (served c) (start c now, none) ls = some (t, o)) (hquiet : Quiescent t) :
    Agreement c t o := by
  have keep := (served_simulated_guarded c).keep
    fun v v' (hv : Attended v) ⟨_, hmoved, hguard⟩ => hv.step hmoved hguard
  exact quiescent_agrees (invariant_of_run keep (start_attended c now) hok hrun) hquiet

theorem Body.eq_release (h : b.role = .releasing) : b = .recovery .release := by
  cases b with
  | recovery pc => cases pc <;> first | rfl | cases h
  | main pc => cases pc <;> cases h
  | control pc => cases pc <;> cases h
  | interlock pc => cases pc <;> cases h
  | transition pc => cases pc <;> cases h
  | _ => cases h

/-- A recovery that gives the flag back while the interlock wants the motors
disabled leaves a disagreement behind. -/
theorem late_recovery_breaks {now : Time}
    (hreach : Reachable (served c) (start c now, none) (s, o)) (hb : b ∈ s.mover l)
    (hrole : b.role = .releasing) (hwant : computeWantEnabled c s.shared = false)
    (h : step c s l = some s') : ¬ Agreement c s' (noteServo s l o) := by
  rintro ⟨hservo, -⟩
  obtain rfl := Body.eq_release hrole
  cases step_cases h with
  | delayed d => cases hb
  | received f => cases hb
  | called hspin hstarts => cases hstarts <;> cases hb
  | @moved task pre post t turn hthreads hwake hturn hact =>
      have hmover : s.mover (.thread pre.length task) = some t.body := mover_eq hthreads
      have hbody : t.body = .recovery .release := Option.some.inj (hmover.symm.trans hb)
      have hreset : o = some .reset := by
        refine (reachable_held hreach).knows .releasing ?_
        exact List.mem_map.mpr ⟨t, by simp [hthreads], by rw [hbody]; rfl⟩
      have hnote : noteServo s (.thread pre.length task) o = some .reset := by
        rw [noteServo, hmover, hbody, hreset]
        rfl
      rw [hbody] at hturn
      cases hturn
      rw [hnote] at hservo
      change some true = some (computeWantEnabled c s.shared) at hservo
      rw [hwant] at hservo
      cases hservo

/-- Drive 1 loses its power stage without an error, the next tick starts a
recovery, and it succeeds. The brake engages meanwhile, and its callback has
made a number of accesses when the recovery ends. -/
def brakeDuringRecovery (accesses : Nat) : List Label :=
  bringUp ++ [statusFrame 0x40, feedbackFrame, Label.tick] ++ moves 2 20 ++ moves 2 4 ++
  [Label.brake true] ++ moves 3 accesses ++ [Label.delay (1 / 10)] ++ moves 2 2 ++ approach 2 ++
  arrive 2 ++ moves 2 7

/-- The callback comes to its exchange after the recovery, and disables. -/
def disableAfterRecovery : List Label :=
  brakeDuringRecovery 5 ++ moves 2 6 ++ [Label.delay (1 / 20)] ++ moves 2 1 ++
  [Label.delay (1 / 20)] ++ moves 2 5

theorem no_lost_change_late_exchange :
    ∃ t o, run (served brakeDrive) (start brakeDrive 100, none) disableAfterRecovery =
      some (t, o) ∧ t.shared.motorsEnabled = false ∧ Agreement brakeDrive t o := by
  have hquiet : ((run (served brakeDrive) (start brakeDrive 100, none) disableAfterRecovery).map
      fun w => decide (w.1.shared.motorsEnabled = false ∧ Quiescent w.1)) = some true := by
    decide +kernel
  obtain ⟨⟨t, o⟩, hrun, ht⟩ := Option.map_eq_some_iff.mp hquiet
  obtain ⟨hoff, hidle⟩ := of_decide_eq_true ht
  exact ⟨t, o, hrun, hoff, no_lost_change brakeDrive 100 disableAfterRecovery t o
    (by decide +kernel) hrun hidle⟩

/-- The callback finds the flag taken and leaves the change to its holder. The
recovery ends without looking at the inputs: the brake is engaged, and the
motors stay enabled. -/
theorem change_lost_to_recovery :
    ∃ t o, run (served brakeDrive) (start brakeDrive 100, none) (brakeDuringRecovery 6) =
        some (t, o) ∧
      Quiescent t ∧ o = some .reset ∧ t.shared.motorsEnabled = true ∧
      computeWantEnabled brakeDrive t.shared = false ∧ ¬ Agreement brakeDrive t o := by
  have hlost : ((run (served brakeDrive) (start brakeDrive 100, none)
      (brakeDuringRecovery 6)).map fun w => decide (Quiescent w.1 ∧ w.2 = some .reset ∧
        w.1.shared.motorsEnabled = true ∧ computeWantEnabled brakeDrive w.1.shared = false ∧
        ¬ Agreement brakeDrive w.1 w.2)) = some true := by decide +kernel
  obtain ⟨⟨t, o⟩, hrun, ht⟩ := Option.map_eq_some_iff.mp hlost
  exact ⟨t, o, hrun, of_decide_eq_true ht⟩

end PolishingRobot.Motor
