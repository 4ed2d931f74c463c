import PolishingRobot.Motor.Node

/-!
# The interlock between its threads

What the interlock needs of the shared memory are seven signals, and what it
needs of a thread is a role. `Plays` is the protocol on roles: threads that
evaluate under the mutex, threads that hold the flag and apply a goal, and
threads that have given the flag back and look at the inputs once more.
-/

namespace PolishingRobot.Motor

open Runs

/-- The two conditions as they stand, the edge detector, the mutex, the flag
`transition_in_progress_` and `motors_enabled_`. -/
structure Signals where
  tractionOk : Bool
  brakeOk : Bool
  initialized : Bool
  committed : Bool
  locked : Bool
  inTransition : Bool
  enabled : Bool

def Signals.want (g : Signals) : Bool := g.tractionOk && g.brakeOk

def Shared.signals (c : Config) (σ : Shared) : Signals where
  tractionOk := tractionOk c σ
  brakeOk := brakeOk c σ
  initialized := σ.brakeFbInitialized
  committed := σ.lastBrakeWantEnabled
  locked := σ.tractionEnableMutex
  inTransition := σ.transitionInProgress
  enabled := σ.motorsEnabled

/-- What is done to the servos: `enable_motor` or `disable_motor` by a
transition, `reset_motor` by a recovery. -/
inductive Servo where
  | enable
  | disable
  | reset
  deriving DecidableEq, Repr

/-- The answer of `computeWantEnabled` that asks for the action. -/
def Servo.goal : Servo → Bool
  | .enable => true
  | .disable => false
  | .reset => true

inductive Role where
  | bystander
  /-- Before a call of `updateEnableState`. -/
  | caller
  | evaluating (pc : UpdateEnableState)
  /-- A transition until it has stored `motors_enabled_`. -/
  | applying (want : Bool)
  | applied (want : Bool)
  | rechecking (want : Bool)
  | comparing (want traction : Bool)
  /-- A recovery until it has stored `motors_enabled_`. -/
  | recovering
  | recovered
  | releasing
  deriving DecidableEq, Repr

namespace Role

/-- Holders of `transition_in_progress_`. -/
def flags : Role → Nat
  | evaluating (.commit _) => 1
  | applying _ => 1
  | applied _ => 1
  | recovering => 1
  | recovered => 1
  | releasing => 1
  | _ => 0

/-- Holders of the mutex. -/
def locks : Role → Nat
  | evaluating .lock => 0
  | evaluating _ => 1
  | _ => 0

/-- The thread will see to it that the present inputs are applied. -/
def attends (g : Signals) : Role → Bool
  | caller => true
  | evaluating _ => true
  | applying _ => true
  | applied _ => true
  | rechecking want => want ≠ g.want
  | comparing want traction => want ≠ (traction && g.brakeOk)
  | _ => false

/-- The thread holds the flag for a recovery. -/
def rescues : Role → Bool
  | recovering => true
  | recovered => true
  | releasing => true
  | _ => false

/-- What an evaluation has read has changed since. -/
def stale (g : Signals) : Role → Prop
  | evaluating (.loadBrake traction) => traction ≠ g.tractionOk
  | evaluating (.compare want) => want ≠ g.want
  | _ => False

end Role

/-- One access of a thread in a role: the servo action it completes, the
signals afterwards and the roles it leaves. -/
inductive Plays (g : Signals) : Role → Option Servo → Signals → List Role → Prop
  | bystands {rs : List Role} (hrs : ∀ r ∈ rs, r = .bystander) : Plays g .bystander none g rs
  | waits {rs : List Role} (hrs : ∀ r ∈ rs, r = .bystander) :
      Plays g .caller none g (.caller :: rs)
  | calls (traction brake : Bool) :
      Plays g .caller none { g with tractionOk := traction, brakeOk := brake }
        [.evaluating .lock]
  | lock (hfree : g.locked = false) :
      Plays g (.evaluating .lock) none { g with locked := true } [.evaluating .loadTraction]
  | loadTraction :
      Plays g (.evaluating .loadTraction) none g [.evaluating (.loadBrake g.tractionOk)]
  | loadBrake (traction : Bool) :
      Plays g (.evaluating (.loadBrake traction)) none g
        [.evaluating (.compare (traction && g.brakeOk))]
  | settled {want : Bool} {rs : List Role} (hinit : g.initialized = true)
      (hwant : want = g.committed) (hrs : ∀ r ∈ rs, r = .bystander) :
      Plays g (.evaluating (.compare want)) none { g with locked := false } rs
  | differs (want : Bool) :
      Plays g (.evaluating (.compare want)) none g [.evaluating (.exchange want)]
  | dropped {want : Bool} {rs : List Role} (hflag : g.inTransition = true)
      (hrs : ∀ r ∈ rs, r = .bystander) :
      Plays g (.evaluating (.exchange want)) none { g with locked := false } rs
  | taken (want : Bool) (hflag : g.inTransition = false) :
      Plays g (.evaluating (.exchange want)) none { g with inTransition := true }
        [.evaluating (.commit want)]
  | commit {want : Bool} {rs : List Role} (hrs : ∀ r ∈ rs, r = .bystander) :
      Plays g (.evaluating (.commit want)) none
        { g with initialized := true, committed := want, locked := false }
        (rs ++ [.applying want])
  | applies (want : Bool) : Plays g (.applying want) none g [.applying want]
  | applied (want enabled : Bool) (hwant : enabled = true → want = true) :
      Plays g (.applying want) (some (if want then .enable else .disable))
        { g with enabled := enabled } [.applied want]
  | releases (want : Bool) :
      Plays g (.applied want) none { g with inTransition := false } [.rechecking want]
  | rechecks (want : Bool) :
      Plays g (.rechecking want) none g [.comparing want g.tractionOk]
  | agrees {want traction : Bool} (hwant : want = (traction && g.brakeOk)) :
      Plays g (.comparing want traction) none g []
  | reevaluates (want traction : Bool) :
      Plays g (.comparing want traction) none g [.evaluating .lock]
  | takesRecovery (hflag : g.inTransition = false) :
      Plays g .bystander none { g with inTransition := true } [.recovering]
  | recovers : Plays g .recovering none g [.recovering]
  | recovered (ok : Bool) :
      Plays g .recovering (some .reset) { g with enabled := ok }
        [if ok then .recovered else .releasing]
  | clears : Plays g .recovered none g [.releasing]
  | releasesRecovery : Plays g .releasing none { g with inTransition := false } []

variable {g g' : Signals} {r u : Role} {rs : List Role} {x : Option Servo}

/-- Only the holder of the flag commits, acts on the servos or stores
`motors_enabled_`. -/
theorem Plays.frame (h : Plays g r x g' rs) (hr : r.flags = 0) :
    x = none ∧ g'.committed = g.committed ∧ g'.initialized = g.initialized ∧
      g'.enabled = g.enabled := by
  cases h with
  | commit hrs => cases hr
  | applied want enabled hwant => cases hr
  | recovered ok => cases hr
  | _ => exact ⟨rfl, rfl, rfl, rfl⟩

/-- Inputs change right before an evaluation. -/
theorem Plays.inputs (h : Plays g r x g' rs) :
    (g'.tractionOk = g.tractionOk ∧ g'.brakeOk = g.brakeOk) ∨ rs = [.evaluating .lock] := by
  cases h with
  | calls traction brake => exact .inr rfl
  | _ => exact .inl ⟨rfl, rfl⟩

theorem Plays.initialized (h : Plays g r x g' rs) (hinit : g.initialized = true) :
    g'.initialized = true := by
  cases h with
  | commit hrs => rfl
  | _ => exact hinit

theorem Plays.committed (h : Plays g r x g' rs)
    (hinit : g.committed = true → g.initialized = true) :
    g'.committed = true → g'.initialized = true := by
  cases h with
  | commit hrs => exact fun _ => rfl
  | _ => exact hinit

/-- The flag comes down at the two releases. -/
theorem Plays.released (h : Plays g r x g' rs) (hflag : g'.inTransition = false) :
    g.inTransition = false ∨ (∃ want, r = .applied want) ∨ r = .releasing := by
  cases h with
  | releases want => exact .inr (.inl ⟨want, rfl⟩)
  | releasesRecovery => exact .inr (.inr rfl)
  | taken want h => cases hflag
  | takesRecovery h => cases hflag
  | _ => exact .inl hflag

theorem tokens_bystanders {w : Role → Nat} (hw : w .bystander = 0)
    (hrs : ∀ r ∈ rs, r = .bystander) : tokens w rs = 0 := by
  induction rs with
  | nil => rfl
  | cons r rs ih =>
      rw [tokens_cons, hrs r (by simp), hw, ih fun u hu => hrs u (by simp [hu])]

/-- A holder gives back what it holds. -/
theorem given_back {b : Bool} (h : 1 ≤ b.toNat) : 0 + b.toNat = 1 + Bool.toNat false := by
  have hle := Bool.toNat_le b
  rw [Bool.toNat_false]
  omega

/-- The flag passes from role to role. -/
theorem Plays.flags (h : Plays g r x g' rs) (hr : r.flags ≤ g.inTransition.toNat) :
    tokens Role.flags rs + g.inTransition.toNat = r.flags + g'.inTransition.toNat := by
  have hbystander : Role.bystander.flags = 0 := rfl
  cases h with
  | bystands hrs => rw [tokens_bystanders hbystander hrs]; rfl
  | waits hrs => rw [tokens_cons, tokens_bystanders hbystander hrs]; rfl
  | settled hinit hwant hrs => rw [tokens_bystanders hbystander hrs]; rfl
  | dropped hflag hrs => rw [tokens_bystanders hbystander hrs]; rfl
  | commit hrs => simp [tokens_bystanders hbystander hrs, Role.flags]
  | taken want hflag => simp [hflag, Role.flags]
  | takesRecovery hflag => simp [hflag, Role.flags]
  | recovered ok => cases ok <;> simp [Role.flags]
  | releases want => exact given_back hr
  | releasesRecovery => exact given_back hr
  | _ => simp [Role.flags]

/-- So does the mutex. -/
theorem Plays.locks (h : Plays g r x g' rs) (hr : r.locks ≤ g.locked.toNat) :
    tokens Role.locks rs + g.locked.toNat = r.locks + g'.locked.toNat := by
  have hbystander : Role.bystander.locks = 0 := rfl
  cases h with
  | bystands hrs => rw [tokens_bystanders hbystander hrs]; rfl
  | waits hrs => rw [tokens_cons, tokens_bystanders hbystander hrs]; rfl
  | settled hinit hwant hrs => rw [tokens_bystanders hbystander hrs]; exact given_back hr
  | dropped hflag hrs => rw [tokens_bystanders hbystander hrs]; exact given_back hr
  | commit hrs =>
      rw [tokens_append, tokens_bystanders hbystander hrs]
      exact given_back hr
  | lock hfree => simp [hfree, Role.locks]
  | recovered ok => cases ok <;> simp [Role.locks]
  | _ => simp [Role.locks]

/-- The signals, the roles of all threads and the last completed servo action. -/
structure View where
  signals : Signals
  roles : List Role
  servo : Option Servo := none

/-- The flag is given back by a recovery only while the goal committed last is
to enable, and while this still is the answer or some thread will attend to it. -/
def View.Guarded (v : View) (r : Role) : Prop :=
  r = .releasing → v.signals.committed = true ∧
    (v.signals.want = true ∨ ∃ u ∈ v.roles, u.attends v.signals = true)

/-- A thread plays its role, or a callback starts. -/
inductive View.Step (v : View) : Option Role → View → Prop
  | plays {pre post rs : List Role} {r : Role} {x : Option Servo} {g : Signals}
      (hroles : v.roles = pre ++ r :: post) (hplays : Plays v.signals r x g rs) :
      View.Step v (some r) ⟨g, pre ++ rs ++ post, x.or v.servo⟩
  | joins {r : Role} (hr : r = .bystander ∨ r = .caller) :
      View.Step v none { v with roles := v.roles ++ [r] }

/-- What the thread knows about the commitment and the servos. -/
def Role.Knows (v : View) : Role → Prop
  | applying want => v.signals.initialized = true ∧ v.signals.committed = want
  | applied want => v.signals.initialized = true ∧ v.signals.committed = want ∧
      v.servo.map Servo.goal = some want ∧ (v.signals.enabled = true → want = true)
  | rechecking _ => v.signals.initialized = true
  | comparing _ _ => v.signals.initialized = true
  | recovered => v.servo = some .reset
  | releasing => v.servo = some .reset
  | _ => True

/-- Flag and mutex have one holder, and an evaluation that has read an old input
has another one behind it. -/
structure Held (v : View) : Prop where
  flags : tokens Role.flags v.roles = v.signals.inTransition.toNat
  locks : tokens Role.locks v.roles = v.signals.locked.toNat
  initialized : v.signals.committed = true → v.signals.initialized = true
  knows : ∀ r ∈ v.roles, r.Knows v
  stale : ∀ r ∈ v.roles, r.stale v.signals → Role.evaluating .lock ∈ v.roles

/-- The last commitment is what the inputs ask for, or somebody is at it. -/
def View.Tended (v : View) : Prop :=
  (∃ r ∈ v.roles, r.attends v.signals = true) ∨ (∃ r ∈ v.roles, r.rescues = true) ∨
    v.signals.initialized = true ∧ v.signals.committed = v.signals.want

/-- With the flag down the servos are where the last commitment wants them. -/
structure Attended (v : View) : Prop extends Held v where
  resting : v.signals.inTransition = false → v.signals.initialized = true →
    v.servo.map Servo.goal = some v.signals.committed ∧
      (v.signals.enabled = true → v.signals.committed = true)
  tended : v.Tended

section Preservation

variable {v v' : View} {pre post : List Role}

/-- Knowledge of the commitment survives as long as nobody changes it. -/
theorem Role.Knows.of_same (h : u.Knows v)
    (hinit : v'.signals.initialized = v.signals.initialized)
    (hcommitted : v'.signals.committed = v.signals.committed)
    (henabled : v'.signals.enabled = v.signals.enabled) (hservo : v'.servo = v.servo) :
    u.Knows v' := by
  unfold Role.Knows at h ⊢
  rw [hinit, hcommitted, henabled, hservo]
  exact h

/-- A thread without the flag knows at most that there was a commitment. -/
theorem Role.Knows.of_initialized (h : u.Knows v) (hu : u.flags = 0)
    (hinit : v.signals.initialized = true → v'.signals.initialized = true) : u.Knows v' := by
  cases u with
  | rechecking want => exact hinit h
  | comparing want traction => exact hinit h
  | bystander => trivial
  | caller => trivial
  | evaluating pc => trivial
  | recovering => trivial
  | _ => cases hu

/-- The goal of a servo action is the goal that was committed. -/
theorem Servo.goal_ite (want : Bool) : (if want then enable else disable).goal = want := by
  cases want <;> rfl

theorem Plays.knows {roles : List Role} (h : Plays v.signals r x g rs) (hr : r.Knows v)
    (hu : u ∈ rs) : u.Knows ⟨g, roles, x.or v.servo⟩ := by
  have hbystander : ∀ {us : List Role}, (∀ r ∈ us, r = .bystander) → u ∈ us →
      u.Knows ⟨g, roles, x.or v.servo⟩ := by
    intro us hus hmem
    rw [hus u hmem]
    trivial
  cases h with
  | bystands hrs => exact hbystander hrs hu
  | waits hrs =>
      rcases List.mem_cons.mp hu with rfl | hu
      · trivial
      · exact hbystander hrs hu
  | settled hinit hwant hrs => exact hbystander hrs hu
  | dropped hflag hrs => exact hbystander hrs hu
  | commit hrs =>
      rcases List.mem_append.mp hu with hu | hu
      · exact hbystander hrs hu
      · obtain rfl := List.mem_singleton.mp hu
        exact ⟨rfl, rfl⟩
  | applies want => obtain rfl := List.mem_singleton.mp hu; exact hr
  | applied want enabled hwant =>
      obtain rfl := List.mem_singleton.mp hu
      exact ⟨hr.1, hr.2, congrArg some (Servo.goal_ite want), hwant⟩
  | releases want => obtain rfl := List.mem_singleton.mp hu; exact hr.1
  | rechecks want => obtain rfl := List.mem_singleton.mp hu; exact hr
  | recovered ok =>
      obtain rfl := List.mem_singleton.mp hu
      cases ok <;> rfl
  | clears => obtain rfl := List.mem_singleton.mp hu; exact hr
  | agrees hwant => cases hu
  | releasesRecovery => cases hu
  | _ => obtain rfl := List.mem_singleton.mp hu; trivial

/-- A stale evaluation was stale before, unless another one now stands behind it. -/
theorem Plays.stale (h : Plays g r x g' rs) (hu : u ∈ rs) (hstale : u.stale g') :
    r.stale g ∨ rs = [.evaluating .lock] := by
  have hbystander : ∀ {us : List Role}, (∀ r ∈ us, r = .bystander) → u ∉ us := by
    intro us hus hmem
    rw [hus u hmem] at hstale
    exact hstale
  cases h with
  | bystands hrs => exact absurd hu (hbystander hrs)
  | waits hrs =>
      rcases List.mem_cons.mp hu with rfl | hu
      · cases hstale
      · exact absurd hu (hbystander hrs)
  | settled hinit hwant hrs => exact absurd hu (hbystander hrs)
  | dropped hflag hrs => exact absurd hu (hbystander hrs)
  | commit hrs =>
      rcases List.mem_append.mp hu with hu | hu
      · exact absurd hu (hbystander hrs)
      · obtain rfl := List.mem_singleton.mp hu
        cases hstale
  | loadTraction =>
      obtain rfl := List.mem_singleton.mp hu
      exact absurd rfl hstale
  | loadBrake traction =>
      obtain rfl := List.mem_singleton.mp hu
      left
      rintro rfl
      exact hstale rfl
  | calls traction brake => exact .inr rfl
  | reevaluates want traction => exact .inr rfl
  | recovered ok =>
      obtain rfl := List.mem_singleton.mp hu
      cases ok <;> cases hstale
  | agrees hwant => cases hu
  | releasesRecovery => cases hu
  | _ => obtain rfl := List.mem_singleton.mp hu; cases hstale

theorem Held.inTransition (hv : Held v) (hr : r ∈ v.roles) (hflag : r.flags ≠ 0) :
    v.signals.inTransition = true := by
  have hle : r.flags ≤ tokens Role.flags v.roles := le_tokens hr
  rw [hv.flags] at hle
  cases hdown : v.signals.inTransition with
  | true => rfl
  | false =>
      rw [hdown] at hle
      exact absurd (Nat.le_zero.mp hle) hflag

theorem Held.locked (hv : Held v) (hr : r ∈ v.roles) (hlock : r.locks ≠ 0) :
    v.signals.locked = true := by
  have hle : r.locks ≤ tokens Role.locks v.roles := le_tokens hr
  rw [hv.locks] at hle
  cases hfree : v.signals.locked with
  | true => rfl
  | false =>
      rw [hfree] at hle
      exact absurd (Nat.le_zero.mp hle) hlock

/-- There is no second holder of the flag. -/
theorem Held.flags_other (hv : Held v) (hroles : v.roles = pre ++ r :: post)
    (hu : u ∈ pre ++ post) (hflag : r.flags ≠ 0) : u.flags = 0 := by
  have hsum : r.flags + u.flags ≤ tokens Role.flags (pre ++ r :: post) := add_le_tokens hu
  rw [← hroles, hv.flags] at hsum
  have hle := Bool.toNat_le v.signals.inTransition
  omega

/-- The first access of an evaluation waits for the mutex. -/
theorem Plays.waits_for_mutex (h : Plays g (.evaluating .lock) x g' rs) : g.locked = false := by
  cases h with
  | lock hfree => exact hfree

theorem Role.stale_of_inputs (h : u.stale g') (htraction : g'.tractionOk = g.tractionOk)
    (hbrake : g'.brakeOk = g.brakeOk) : u.stale g := by
  unfold Role.stale Signals.want at h ⊢
  rwa [htraction, hbrake] at h

theorem Role.stale_locks (h : u.stale g) : u.locks ≠ 0 := by
  cases u with
  | evaluating pc => cases pc <;> first | exact Nat.one_ne_zero | cases h
  | _ => cases h

/-- The mutex keeps the evaluation behind a stale one where it is. -/
theorem Held.stale_step (hv : Held v) (hroles : v.roles = pre ++ r :: post)
    (h : Plays v.signals r x g rs) (hu : u ∈ pre ++ rs ++ post) (hstale : u.stale g) :
    Role.evaluating .lock ∈ pre ++ rs ++ post := by
  rcases h.inputs with ⟨htraction, hbrake⟩ | rfl
  · have behind : ∀ w ∈ v.roles, w.stale v.signals →
        Role.evaluating .lock ∈ pre ++ rs ++ post := by
      intro w hw hstale
      have hlock := hv.stale w hw hstale
      rw [hroles, mem_at] at hlock
      rcases hlock with rfl | hother
      · have hlocked := hv.locked hw (Role.stale_locks hstale)
        rw [h.waits_for_mutex] at hlocked
        cases hlocked
      · exact mem_replaced.mpr (.inr hother)
    rcases mem_replaced.mp hu with hus | hother
    · rcases h.stale hus hstale with hold | rfl
      · exact behind r (mover_mem hroles) hold
      · exact mem_replaced.mpr (.inl (by simp))
    · exact behind u (other_mem hroles hother)
        (Role.stale_of_inputs hstale htraction hbrake)
  · exact mem_replaced.mpr (.inl (by simp))

theorem Held.knows_step (hv : Held v) (hroles : v.roles = pre ++ r :: post)
    (h : Plays v.signals r x g rs) (hu : u ∈ pre ++ rs ++ post) :
    u.Knows ⟨g, pre ++ rs ++ post, x.or v.servo⟩ := by
  rcases mem_replaced.mp hu with hus | hother
  · exact h.knows (hv.knows r (mover_mem hroles)) hus
  · have hknows := hv.knows u (other_mem hroles hother)
    by_cases hflag : r.flags = 0
    · obtain ⟨rfl, hcommitted, hinit, henabled⟩ := h.frame hflag
      exact hknows.of_same hinit hcommitted henabled rfl
    · exact hknows.of_initialized (hv.flags_other hroles hother hflag) h.initialized

theorem Held.play (hv : Held v) (hroles : v.roles = pre ++ r :: post)
    (h : Plays v.signals r x g rs) : Held ⟨g, pre ++ rs ++ post, x.or v.servo⟩ := by
  have hr : r ∈ v.roles := mover_mem hroles
  constructor
  · have hflags := h.flags (hv.flags ▸ le_tokens hr)
    have htotal := hv.flags
    simp only [hroles, tokens_append, tokens_cons] at htotal ⊢
    omega
  · have hlocks := h.locks (hv.locks ▸ le_tokens hr)
    have htotal := hv.locks
    simp only [hroles, tokens_append, tokens_cons] at htotal ⊢
    omega
  · exact h.committed hv.initialized
  · exact fun u hu => hv.knows_step hroles h hu
  · exact fun u hu hstale => hv.stale_step hroles h hu hstale

/-- When the flag comes down, its holder has left the servos where the
commitment wants them. -/
theorem Attended.resting_step (hv : Attended v) (hroles : v.roles = pre ++ r :: post)
    (h : Plays v.signals r x g rs) (hguard : v.Guarded r) (hflag : g.inTransition = false)
    (hinit : g.initialized = true) :
    (x.or v.servo).map Servo.goal = some g.committed ∧
      (g.enabled = true → g.committed = true) := by
  have hr : r ∈ v.roles := mover_mem hroles
  have hknows := hv.knows r hr
  rcases h.released hflag with hdown | ⟨want, rfl⟩ | rfl
  · have hfree : r.flags = 0 := by
      by_contra hne
      rw [hv.inTransition hr hne] at hdown
      cases hdown
    obtain ⟨rfl, hcommitted, hsame, henabled⟩ := h.frame hfree
    rw [hcommitted, henabled]
    exact hv.resting hdown (hsame ▸ hinit)
  · cases h with
    | releases want =>
        obtain ⟨-, hcommitted, hservo, henabled⟩ := hknows
        rw [hcommitted]
        exact ⟨hservo, henabled⟩
  · cases h with
    | releasesRecovery =>
        rw [(hguard rfl).1]
        exact ⟨by rw [show v.servo = some .reset from hknows]; rfl, fun _ => rfl⟩

theorem Role.attends_of_inputs (htraction : g'.tractionOk = g.tractionOk)
    (hbrake : g'.brakeOk = g.brakeOk) : u.attends g' = u.attends g := by
  unfold Role.attends Signals.want
  rw [htraction, hbrake]

/-- A holder of the flag attends or rescues. -/
theorem Role.attends_or_rescues (h : u.flags ≠ 0) :
    u.attends g = true ∨ u.rescues = true := by
  cases u with
  | evaluating pc => exact .inl rfl
  | applying want => exact .inl rfl
  | applied want => exact .inl rfl
  | recovering => exact .inr rfl
  | recovered => exact .inr rfl
  | releasing => exact .inr rfl
  | _ => exact absurd rfl h

theorem Attended.tended_step (hv : Attended v) (hroles : v.roles = pre ++ r :: post)
    (h : Plays v.signals r x g rs) (hguard : v.Guarded r) :
    View.Tended ⟨g, pre ++ rs ++ post, x.or v.servo⟩ := by
  have hr : r ∈ v.roles := mover_mem hroles
  have hknows := hv.knows r hr
  have attend : ∀ u ∈ rs, u.attends g = true → View.Tended ⟨g, pre ++ rs ++ post, x.or v.servo⟩ :=
    fun u hu hattend => .inl ⟨u, mem_replaced.mpr (.inl hu), hattend⟩
  have rescue : ∀ u ∈ rs, u.rescues = true → View.Tended ⟨g, pre ++ rs ++ post, x.or v.servo⟩ :=
    fun u hu hrescue => .inr (.inl ⟨u, mem_replaced.mpr (.inl hu), hrescue⟩)
  have other : ∀ u ∈ v.roles, u ≠ r → u ∈ pre ++ rs ++ post := by
    intro u hu hne
    rw [hroles, mem_at] at hu
    exact mem_replaced.mpr (.inr (hu.resolve_left hne))
  -- A thread that neither attends nor rescues changes nothing for the others.
  have idle : g = v.signals → r.attends v.signals = false → r.rescues = false →
      View.Tended ⟨g, pre ++ rs ++ post, x.or v.servo⟩ := by
    rintro rfl hattends hrescues
    rcases hv.tended with ⟨u, hu, hattend⟩ | ⟨u, hu, hrescue⟩ | hsettled
    · refine .inl ⟨u, other u hu ?_, hattend⟩
      rintro rfl
      rw [hattends] at hattend
      cases hattend
    · refine .inr (.inl ⟨u, other u hu ?_, hrescue⟩)
      rintro rfl
      rw [hrescues] at hrescue
      cases hrescue
    · exact .inr (.inr hsettled)
  cases h with
  | bystands hrs => exact idle rfl rfl rfl
  | settled hinit hwant hrs =>
      rename_i want
      by_cases hcurrent : want = v.signals.want
      · exact .inr (.inr ⟨hinit, hwant.symm.trans hcurrent⟩)
      · have hlock := hv.stale _ hr hcurrent
        exact .inl ⟨_, other _ hlock (by simp), rfl⟩
  | dropped hflag hrs =>
      have hholder : 0 < tokens Role.flags v.roles := by
        rw [hv.flags, hflag]
        exact Nat.one_pos
      obtain ⟨u, hu, hpos⟩ := exists_of_tokens_pos hholder
      have hplace : u ∈ pre ++ rs ++ post := by
        apply other u hu
        rintro rfl
        cases hpos
      rcases Role.attends_or_rescues (Nat.pos_iff_ne_zero.mp hpos) with hattend | hrescue
      · exact .inl ⟨u, hplace, hattend⟩
      · exact .inr (.inl ⟨u, hplace, hrescue⟩)
  | commit hrs => exact attend _ (List.mem_append_right _ List.mem_cons_self) rfl
  | releases want =>
      obtain ⟨hinit, hcommitted, -⟩ := hknows
      by_cases hcurrent : want = v.signals.want
      · exact .inr (.inr ⟨hinit, hcommitted.trans hcurrent⟩)
      · exact attend (.rechecking want) List.mem_cons_self (decide_eq_true hcurrent)
  | rechecks want =>
      by_cases hcurrent : want = v.signals.want
      · exact idle rfl (by simp [Role.attends, hcurrent]) rfl
      · exact attend (.comparing want _) List.mem_cons_self (decide_eq_true hcurrent)
  | agrees hwant => exact idle rfl (by simp [Role.attends, hwant]) rfl
  | takesRecovery hflag => exact rescue _ List.mem_cons_self rfl
  | recovers => exact rescue _ List.mem_cons_self rfl
  | recovered ok => exact rescue _ List.mem_cons_self (by cases ok <;> rfl)
  | clears => exact rescue _ List.mem_cons_self rfl
  | releasesRecovery =>
      obtain ⟨hcommitted, hwant | ⟨u, hu, hattend⟩⟩ := hguard rfl
      · exact .inr (.inr ⟨hv.initialized hcommitted, hcommitted.trans hwant.symm⟩)
      · refine .inl ⟨u, other u hu ?_, (Role.attends_of_inputs rfl rfl).trans hattend⟩
        rintro rfl
        cases hattend
  | _ => exact attend _ List.mem_cons_self rfl

theorem Held.join (hv : Held v) (hr : r = .bystander ∨ r = .caller) :
    Held { v with roles := v.roles ++ [r] } := by
  constructor
  · rcases hr with rfl | rfl <;> simpa [Role.flags] using hv.flags
  · rcases hr with rfl | rfl <;> simpa [Role.locks] using hv.locks
  · exact hv.initialized
  · intro u hu
    rcases List.mem_append.mp hu with hold | hnew
    · exact hv.knows u hold
    · obtain rfl := List.mem_singleton.mp hnew
      rcases hr with rfl | rfl <;> trivial
  · intro u hu hstale
    rcases List.mem_append.mp hu with hold | hnew
    · exact List.mem_append_left _ (hv.stale u hold hstale)
    · obtain rfl := List.mem_singleton.mp hnew
      rcases hr with rfl | rfl <;> cases hstale

theorem View.Tended.join (hv : v.Tended) (r : Role) :
    View.Tended { v with roles := v.roles ++ [r] } := by
  rcases hv with ⟨u, hu, hattend⟩ | ⟨u, hu, hrescue⟩ | hsettled
  · exact .inl ⟨u, List.mem_append_left _ hu, hattend⟩
  · exact .inr (.inl ⟨u, List.mem_append_left _ hu, hrescue⟩)
  · exact .inr (.inr hsettled)

theorem Held.step {mover : Option Role} (hv : Held v) (h : v.Step mover v') : Held v' := by
  cases h with
  | plays hroles hplays => exact hv.play hroles hplays
  | joins hr => exact hv.join hr

/-- Under the guard every step leaves the commitment tended. -/
theorem Attended.step {mover : Option Role} (hv : Attended v) (h : v.Step mover v')
    (hguard : ∀ r ∈ mover, v.Guarded r) : Attended v' where
  toHeld := hv.toHeld.step h
  resting := by
    cases h with
    | plays hroles hplays => exact hv.resting_step hroles hplays (hguard _ rfl)
    | joins hr => exact hv.resting
  tended := by
    cases h with
    | plays hroles hplays => exact hv.tended_step hroles hplays (hguard _ rfl)
    | joins hr => exact hv.tended.join _

/-- Once all threads stand by, the last servo action is what the inputs ask for. -/
theorem Attended.agrees (hv : Attended v) (hidle : ∀ r ∈ v.roles, r = .bystander) :
    v.servo.map Servo.goal = some v.signals.want ∧
      (v.signals.enabled = true → v.signals.want = true) := by
  have hdown : v.signals.inTransition = false := by
    have hflags := hv.flags
    rw [tokens_bystanders rfl hidle] at hflags
    exact Bool.toNat_eq_zero.mp hflags.symm
  rcases hv.tended with ⟨u, hu, hattend⟩ | ⟨u, hu, hrescue⟩ | ⟨hinit, hcommitted⟩
  · rw [hidle u hu] at hattend
    cases hattend
  · rw [hidle u hu] at hrescue
    cases hrescue
  · rw [← hcommitted]
    exact hv.resting hdown hinit

end Preservation

end PolishingRobot.Motor
