import PolishingRobot.Motor.Targets

/-!
# Targets while the motors are disabled

The disable transition zeroes the drives before it clears `motors_enabled_`;
the threads that have failed to enable clear it without. The targets of a
disabled node are zero as long as no failure finds a speed standing and no
command overtakes the flag.
-/

namespace PolishingRobot.Motor

open Runs

variable {c : Config} {σ : Shared} {s s' : State} {task : Nat} {turn : Turn} {l : Label}
  {b : Body} {n : NodeId}

/-- The thread has zeroed the drive and has not yet cleared `motors_enabled_`. -/
def Body.holdsZero (n : NodeId) : Body → Bool
  | .transition (.zeroing rest) => n ∉ rest
  | .transition (.disabling _) => true
  | .transition .storeDisabled => true
  | _ => false

/-- The thread is about to clear `motors_enabled_` because `enable_motor` or
`reset_motor` has failed. -/
def Body.reportsFailure : Body → Bool
  | .transition (.storeEnabled ok) => !ok
  | .recovery (.storeEnabled ok) => !ok
  | _ => false

/-- The flag is cleared after a failure or at the end of a disable transition. -/
theorem Acts.clears (h : Acts b (.storeMotorsEnabled false)) :
    b.reportsFailure = true ∨ b = .transition .storeDisabled := by
  generalize ha : Action.storeMotorsEnabled false = a at h
  cases h with
  | drive _ hd => subst ha; cases hd
  | evaluation _ _ he => subst ha; cases he
  | enabled ok => obtain rfl := Action.storeMotorsEnabled.inj ha; exact .inl rfl
  | disabled => exact .inr rfl
  | recovered ok => obtain rfl := Action.storeMotorsEnabled.inj ha; exact .inl rfl
  | _ => cases ha

/-- A thread that holds a drive at zero did so before, or has just zeroed it. -/
theorem holdsZero_of_turn {u : Thread} (h : b.turn c s task = some turn)
    (hu : u ∈ turn.threads s.shared.now) (hn : n ∈ c.driveMotorIds)
    (hz : u.body.holdsZero n = true) :
    b.holdsZero n = true ∨ ∃ rest, b = .transition (.zeroing (n :: rest)) := by
  rcases turn.mem_threads hu with hself | hspawned
  · have hkind := Body.turn_kind h hself
    rcases u with ⟨ub, wake⟩
    cases b with
    | transition pc =>
        cases pc with
        | enabling tasks =>
            obtain ⟨m, -, rfl⟩ := Option.map_eq_some_iff.mp h
            rcases Move.turn_self hself with ⟨tasks', -, rfl⟩ | ⟨ok, -, hback⟩
            · cases hz
            · cases hback; cases hz
        | storeEnabled ok => cases h; cases hself; cases hz
        | zeroing rest =>
            cases rest with
            | nil => exact .inl (by simp [Body.holdsZero])
            | cons m rest =>
                cases h
                cases hself
                by_cases hm : n = m
                · exact .inr ⟨rest, by rw [hm]⟩
                · left
                  simpa [Body.holdsZero, hm] using hz
        | disabling pc => exact .inl rfl
        | storeDisabled => exact .inl rfl
        | release want => cases h; cases hself; cases hz
        | recheckTraction want => cases h; cases hself; cases hz
        | recheckBrake want traction =>
            dsimp only [Body.turn, transitionThread] at h
            split at h <;> cases h <;> cases hself
            cases hz
        | update pc =>
            rcases updateTurn_self h hself with ⟨pc', rfl⟩ | hnone
            · cases hz
            · cases hnone
    | _ => cases ub <;> first | cases hz | cases hkind
  · have hspawns := Body.turn_spawns h hspawned
    generalize u.body = ub at hspawns hz
    cases hspawns with
    | sync => cases hz
    | transition want =>
        cases want with
        | true => cases hz
        | false => simp [startTransition, Body.holdsZero, hn] at hz
    | recovery => cases hz

/-- No failure finds a speed standing, and no command overtakes the flag: a
speed is stored only while the motors are enabled and no disable transition
has already zeroed the drive. -/
def InTime (c : Config) (s : State) (l : Label) : Prop :=
  ∀ b ∈ s.mover l,
    (b.reportsFailure = true → ∀ n ∈ c.driveMotorIds, s.shared.drives.target n = 0) ∧
    ∀ p ∈ b.nextCommand, p.2 ≠ 0 →
      s.shared.motorsEnabled = true ∧ ∀ t ∈ s.threads, t.body.holdsZero p.1 = false

instance (s : State) (l : Label) : Decidable (InTime c s l) :=
  inferInstanceAs (Decidable (∀ b ∈ s.mover l, _ ∧ ∀ p ∈ b.nextCommand, _))

structure HeldAtZero (c : Config) (s : State) : Prop where
  disabled : s.shared.motorsEnabled = false →
    ∀ n ∈ c.driveMotorIds, s.shared.drives.target n = 0
  held : ∀ t ∈ s.threads, ∀ n ∈ c.driveMotorIds, t.body.holdsZero n = true →
    s.shared.drives.target n = 0

/-- While the motors are disabled and no callback is in flight, every drive's
target is zero. -/
def ZeroWhenDisabled (c : Config) (s : State) : Prop :=
  s.shared.motorsEnabled = false → anyOf s.threads .cmd = false →
    ∀ n ∈ c.driveMotorIds, s.shared.drives.target n = 0

instance (s : State) : Decidable (ZeroWhenDisabled c s) :=
  inferInstanceAs (Decidable (_ → _ → ∀ n ∈ c.driveMotorIds, _))

theorem start_heldAtZero (c : Config) (now : Time) : HeldAtZero c (start c now) where
  disabled _ _ _ := rfl
  held _ _ _ _ _ := rfl

theorem Starts.not_holdsZero (h : Starts l b) : b.holdsZero n = false := by
  cases h <;> rfl

theorem step_heldAtZero (hs : HeldAtZero c s) (hok : InTime c s l)
    (h : step c s l = some s') : HeldAtZero c s' := by
  cases step_cases h with
  | delayed d => exact ⟨hs.disabled, hs.held⟩
  | received f =>
      constructor
      · intro hoff n hn
        rw [canCallback_target]
        exact hs.disabled hoff n hn
      · intro t ht n hn hz
        rw [canCallback_target]
        exact hs.held t ht n hn hz
  | called hspin hb =>
      constructor
      · exact hs.disabled
      · intro t ht n hn hz
        rcases List.mem_append.mp ht with hold | hnew
        · exact hs.held t hold n hn hz
        · obtain rfl := List.mem_singleton.mp hnew
          rw [hb.not_holdsZero] at hz
          cases hz
  | @moved task pre post t turn hthreads hwake hturn hact =>
      obtain ⟨hfailure, hcommand⟩ := hok t.body (mover_eq hthreads)
      have hmem : t ∈ s.threads := mover_mem hthreads
      constructor
      · intro hoff n hn
        rcases s.shared.apply_motorsEnabled turn.act with hsame | ⟨on, ha⟩
        · have hoff' : s.shared.motorsEnabled = false := hsame.symm.trans hoff
          rcases target_after_turn hturn (hs.disabled hoff' n hn) with hz | ⟨rpm, hnext, hrpm⟩
          · exact hz
          · have hon := (hcommand (n, rpm) hnext hrpm).1
            rw [hoff'] at hon
            cases hon
        · dsimp only at hoff ⊢
          rw [ha] at hoff ⊢
          obtain rfl : on = false := hoff
          have hacts := Body.turn_acts hturn
          rw [ha] at hacts
          rcases hacts.clears with hfail | hdisable
          · exact hfailure hfail n hn
          · exact hs.held t hmem n hn (by rw [hdisable]; rfl)
      · intro u hu n hn hz
        have hkeep : ∀ v ∈ s.threads, v.body.holdsZero n = true →
            (s.shared.apply turn.act).drives.target n = 0 := by
          intro v hv hvz
          rcases target_after_turn hturn (hs.held v hv n hn hvz) with hzero | ⟨rpm, hnext, hrpm⟩
          · exact hzero
          · have hnone := (hcommand (n, rpm) hnext hrpm).2 v hv
            rw [hvz] at hnone
            cases hnone
        rcases mem_replaced.mp hu with hus | hother
        · rcases holdsZero_of_turn hturn hus hn hz with hb | ⟨rest, hb⟩
          · exact hkeep t hmem hb
          · have hzeroed : turn.act = setTargetVelocity n 0 := by
              rw [hb] at hturn
              cases hturn
              rfl
            rw [hzeroed]
            exact (s.shared.drives.storeTarget_target n n _).trans (by simp [mounted])
        · exact hkeep u (other_mem hthreads hother) hz

theorem Body.failure_act (h : b.turn c s task = some turn) (hfail : b.reportsFailure = true) :
    turn.act = .storeMotorsEnabled false := by
  cases b with
  | transition pc =>
      cases pc with
      | storeEnabled ok =>
          obtain rfl : ok = false := by simpa [Body.reportsFailure] using hfail
          cases h
          rfl
      | _ => cases hfail
  | recovery pc =>
      cases pc with
      | storeEnabled ok =>
          obtain rfl : ok = false := by simpa [Body.reportsFailure] using hfail
          cases h
          rfl
      | _ => cases hfail
  | _ => cases hfail

/-- A failure that finds a speed standing breaks the property at once, unless
a callback is in flight. -/
theorem failure_breaks (hb : b ∈ s.mover l) (hfail : b.reportsFailure = true)
    (hn : n ∈ c.driveMotorIds) (hspeed : s.shared.drives.target n ≠ 0)
    (hidle : anyOf s.threads .cmd = false) (h : step c s l = some s') :
    ¬ ZeroWhenDisabled c s' := by
  intro hzero
  cases step_cases h with
  | delayed d => cases hb
  | received f => cases hb
  | called hspin hstarts => cases hstarts <;> cases hb
  | @moved task pre post t turn hthreads hwake hturn hact =>
      rw [mover_eq hthreads] at hb
      obtain rfl := Option.some.inj hb
      have hstore := Body.failure_act hturn hfail
      have hidle' : anyOf (pre ++ turn.threads s.shared.now ++ post) .cmd = false := by
        by_contra hcmd
        rw [cmd_of_moved hthreads hturn (Bool.eq_true_of_not_eq_false hcmd)] at hidle
        cases hidle
      rw [hstore] at hzero
      exact hspeed (hzero rfl hidle' n hn)

/-- In every run without such steps, every state reached has zero targets
while the motors are disabled. -/
theorem zero_when_disabled (c : Config) (now : Time) (ls : List Label) (t : State)
    (hok : Along (step c) (fun s l _ => InTime c s l) (start c now) ls)
    (hrun : run (step c) (start c now) ls = some t) : ZeroWhenDisabled c t := by
  intro hoff _
  have keep : ∀ s l s', HeldAtZero c s → InTime c s l → step c s l = some s' →
      HeldAtZero c s' := fun s l s' hs hok h => step_heldAtZero hs hok h
  exact (invariant_of_run keep (start_heldAtZero c now) hok hrun).disabled hoff

/-- The brake engages while the drive runs at 100 rpm; the interlock disables it. -/
def stopByBrake : List Label :=
  bringUp ++ command 100 ++ [Label.brake true] ++ moves 2 7 ++ moves 2 4 ++
  [Label.delay (1 / 20)] ++ moves 2 1 ++ [Label.delay (1 / 20)] ++ moves 2 2

theorem zero_after_brake :
    ∃ t, run (step brakeDrive) (start brakeDrive 100) stopByBrake = some t ∧
      t.shared.motorsEnabled = false ∧ ZeroWhenDisabled brakeDrive t := by
  have hoff : ((run (step brakeDrive) (start brakeDrive 100) stopByBrake).map
      fun t => t.shared.motorsEnabled) = some false := by decide +kernel
  obtain ⟨t, hrun, ht⟩ := Option.map_eq_some_iff.mp hoff
  exact ⟨t, hrun, ht, zero_when_disabled brakeDrive 100 stopByBrake t (by decide +kernel) hrun⟩

/-- The recovery clears `motors_enabled_` and leaves the target at 100 rpm. -/
theorem speed_after_failure :
    ∃ t, run (step oneDrive) (start oneDrive 100) failedRecovery = some t ∧
      t.shared.motorsEnabled = false ∧ t.shared.drives.target 1 = 100 ∧
      ¬ ZeroWhenDisabled oneDrive t := by
  have hbroken : ((run (step oneDrive) (start oneDrive 100) failedRecovery).map fun t =>
      decide (t.shared.motorsEnabled = false ∧ t.shared.drives.target 1 = 100 ∧
        ¬ ZeroWhenDisabled oneDrive t)) = some true := by decide +kernel
  obtain ⟨t, hrun, ht⟩ := Option.map_eq_some_iff.mp hbroken
  exact ⟨t, hrun, of_decide_eq_true ht⟩

end PolishingRobot.Motor
