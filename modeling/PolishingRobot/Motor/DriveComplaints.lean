import PolishingRobot.Motor.StartUp
import Mathlib.Data.Fintype.Basic

/-!
# What a tick does about the drives

A drive complains by a pending configuration, an error code, late feedback or a
statusword other than `OPERATION_ENABLED`. A tick asks for a recovery only when
some drive complains: one that finds every servo on has no effect, whatever
`motors_enabled_` says, and one that finds a complaint with all feedback
current starts a recovery.
-/

namespace PolishingRobot.Motor

open Runs

variable {c : Config} {σ : Shared} {s s' t : State} {task : Nat} {turn : Turn} {l : Label}
  {b : Body} {d : Drives} {now : Time} {m n : NodeId}

inductive Complaint where
  | reinit
  | error
  | late
  | off
  deriving DecidableEq, Repr

instance : Fintype Complaint where
  elems := {.reinit, .error, .late, .off}
  complete k := by cases k <;> decide

/-- What is wrong with a drive. -/
def Drives.complains (c : Config) (d : Drives) (now : Time) (n : NodeId) : Complaint → Prop
  | .reinit => (d n).needsReinit = true
  | .error => (d n).errorCode ≠ 0
  | .late => c.feedbackTimeoutSec < d.feedbackAge n now ∨
      c.reinitFeedbackLossSec < d.feedbackAge n now
  | .off => d.stateOf n ≠ .operationEnabled

/-- The drive is in operation, without an error or a pending configuration, and
its feedback is current. -/
def Drives.On (c : Config) (d : Drives) (now : Time) (n : NodeId) : Prop :=
  (d n).needsReinit = false ∧ (d n).errorCode = 0 ∧ d.feedbackAge n now ≤ c.feedbackTimeoutSec ∧
    d.feedbackAge n now ≤ c.reinitFeedbackLossSec ∧ d.isOperationEnabled n = true

/-- The servos are wanted on, and all of them are. -/
def ServosOn (c : Config) (σ : Shared) : Prop :=
  computeWantEnabled c σ = true ∧ ∀ n ∈ c.driveMotorIds, σ.drives.On c σ.now n

/-- All servos are on, no transition is in progress, and commands are discarded. -/
def Dead (c : Config) (σ : Shared) : Prop :=
  ServosOn c σ ∧ σ.transitionInProgress = false ∧ σ.motorsEnabled = false

instance (c : Config) (d : Drives) (now : Time) (n : NodeId) :
    DecidablePred (d.complains c now n)
  | .reinit => inferInstanceAs (Decidable ((d n).needsReinit = true))
  | .error => inferInstanceAs (Decidable ((d n).errorCode ≠ 0))
  | .late => inferInstanceAs (Decidable (_ ∨ _))
  | .off => inferInstanceAs (Decidable (d.stateOf n ≠ .operationEnabled))

instance (c : Config) (d : Drives) (now : Time) (n : NodeId) : Decidable (d.On c now n) :=
  inferInstanceAs (Decidable (_ ∧ _ ∧ _ ∧ _ ∧ _))

instance (c : Config) (σ : Shared) : Decidable (ServosOn c σ) :=
  inferInstanceAs (Decidable (_ ∧ ∀ n ∈ _, _))

instance (c : Config) (σ : Shared) : Decidable (Dead c σ) :=
  inferInstanceAs (Decidable (_ ∧ _ ∧ _))

/-- A servo is on if its drive has no complaint. -/
theorem Drives.on_iff : d.On c now n ↔ ∀ k, ¬ d.complains c now n k := by
  constructor
  · rintro ⟨hreinit, herror, htimeout, hloss, henabled⟩ k
    cases k with
    | reinit => simp [Drives.complains, hreinit]
    | error => simp [Drives.complains, herror]
    | late => exact not_or.mpr ⟨not_lt.mpr htimeout, not_lt.mpr hloss⟩
    | off => exact not_not_intro (of_decide_eq_true henabled)
  · intro h
    obtain ⟨htimeout, hloss⟩ := not_or.mp (h .late)
    exact ⟨Bool.eq_false_of_not_eq_true (h .reinit), not_not.mp (h .error), not_lt.mp htimeout,
      not_lt.mp hloss, decide_eq_true (not_not.mp (h .off))⟩

/-- The members that complaints are read from. -/
def Drives.shown (d : Drives) (n : NodeId) : Bool × UInt16 × Time × UInt16 :=
  ((d n).needsReinit, (d n).errorCode, (d n).lastFeedbackTime, (d n).statusFlags)

theorem Drives.complains_congr {d' : Drives} {k : Complaint} (h : d'.shown n = d.shown n) :
    d'.complains c now n k ↔ d.complains c now n k := by
  simp only [Drives.shown, Prod.mk.injEq] at h
  obtain ⟨hreinit, herror, htime, hstatus⟩ := h
  cases k with
  | reinit => rw [Drives.complains, Drives.complains, hreinit]
  | error => rw [Drives.complains, Drives.complains, herror]
  | late => rw [Drives.complains, Drives.complains, Drives.feedbackAge, Drives.feedbackAge, htime]
  | off => rw [Drives.complains, Drives.complains, Drives.stateOf, Drives.stateOf, hstatus]

theorem Drives.on_congr {d' : Drives} (h : d'.shown n = d.shown n) :
    d'.On c now n ↔ d.On c now n := by
  simp only [Drives.on_iff, Drives.complains_congr h]

/-- An entry written without touching these members changes nothing. -/
theorem Drives.shown_update {e : MotorState}
    (h : (e.needsReinit, e.errorCode, e.lastFeedbackTime, e.statusFlags) = d.shown m) :
    Drives.shown (Function.update d m e) n = d.shown n := by
  by_cases hn : n = m
  · subst hn
    simpa [Drives.shown] using h
  · simp [Drives.shown, hn]

theorem Drives.shown_rememberAlarm : (d.rememberAlarm m).shown n = d.shown n :=
  Drives.shown_update rfl

theorem Drives.shown_storeTarget {rpm : Rpm} : (d.storeTarget m rpm).shown n = d.shown n :=
  Drives.shown_update rfl

theorem Drives.on_of_requestReinit {time : Time} (h : Drives.On c (d.requestReinit m time) now n) :
    d.On c now n := by
  unfold Drives.requestReinit at h
  split at h
  · exact h
  · by_cases hn : n = m
    · subst hn
      simp [Drives.On] at h
    · refine (Drives.on_congr ?_).mp h
      simp [Drives.shown, hn]

/-- Feedback that is current was current before. -/
theorem Drives.on_of_later {delay : Time} (hdelay : 0 ≤ delay)
    (h : Drives.On c d (now + delay) n) : d.On c now n := by
  obtain ⟨hreinit, herror, htimeout, hloss, henabled⟩ := h
  refine ⟨hreinit, herror, ?_, ?_, henabled⟩
  · simp only [Drives.feedbackAge] at htimeout ⊢
    linarith
  · simp only [Drives.feedbackAge] at hloss ⊢
    linarith

/-- The places of a tick that has found nothing wrong so far. -/
inductive Untroubled (c : Config) : ControlLoop → Prop
  | watchdogLoad : Untroubled c .watchdogLoad
  | velocity (rest : List NodeId) (data : List ℚ) : Untroubled c (.velocity rest data)
  | status (rest : List NodeId) (data : List ℚ) : Untroubled c (.status rest data)
  | alarms {rest : List NodeId} (h : ∀ n ∈ rest, n ∈ c.driveMotorIds) :
      Untroubled c (.alarms rest {})
  | feedback {rest : List NodeId} (h : ∀ n ∈ rest, n ∈ c.driveMotorIds) :
      Untroubled c (.feedback rest {})
  | storeError : Untroubled c (.storeError {})
  | publishError : Untroubled c (.publishError {})
  | enabled {rest : List NodeId} (h : ∀ n ∈ rest, n ∈ c.driveMotorIds) :
      Untroubled c (.enabled rest {})
  | reinitPending {rest : List NodeId} (h : ∀ n ∈ rest, n ∈ c.driveMotorIds) :
      Untroubled c (.reinitPending rest)

/-- A tick that goes on at an untroubled place goes on untroubled. -/
theorem Untroubled.next {pc : ControlLoop} (h : Untroubled c pc) :
    ∀ u ∈ some (Body.control pc), ∃ pc', u = .control pc' ∧ Untroubled c pc' := by
  rintro u ⟨⟩
  exact ⟨pc, rfl, h⟩

/-- One access of such a tick: the node stays dead, and the tick goes on
untroubled or ends. -/
theorem controlLoop_untroubled {pc : ControlLoop} (hdead : Dead c σ) (h : Untroubled c pc) :
    Dead c (σ.apply (controlLoop c σ pc).act) ∧ (controlLoop c σ pc).spawned = none ∧
      ∀ u ∈ (controlLoop c σ pc).self, ∃ pc', u = .control pc' ∧ Untroubled c pc' := by
  obtain ⟨⟨hwant, hon⟩, hflag, hoff⟩ := hdead
  have hdead : Dead c σ := ⟨⟨hwant, hon⟩, hflag, hoff⟩
  cases h with
  | watchdogLoad =>
      refine ⟨hdead, rfl, ?_⟩
      simp only [controlLoop, hoff]
      exact Untroubled.next (.velocity _ _)
  | velocity rest data =>
      cases rest with
      | nil =>
          exact ⟨hdead, rfl, Untroubled.next (.status _ _)⟩
      | cons node rest =>
          exact ⟨hdead, rfl, Untroubled.next (.velocity _ _)⟩
  | status rest data =>
      cases rest with
      | nil =>
          exact ⟨hdead, rfl, Untroubled.next (.alarms fun n hn => hn)⟩
      | cons node rest =>
          exact ⟨hdead, rfl, Untroubled.next (.status _ _)⟩
  | @alarms rest hrest =>
      cases rest with
      | nil =>
          exact ⟨hdead, rfl, Untroubled.next (.feedback fun n hn => hn)⟩
      | cons node rest =>
          have hnone : σ.drives.alarm node = none :=
            if_pos (hon node (hrest node List.mem_cons_self)).2.1
          refine ⟨⟨⟨hwant, fun n hn => ?_⟩, hflag, hoff⟩, rfl, ?_⟩
          · exact (Drives.on_congr Drives.shown_rememberAlarm).mpr (hon n hn)
          · simp only [controlLoop, hnone]
            exact Untroubled.next (.alarms fun n hn => hrest n (List.mem_cons_of_mem _ hn))
  | @feedback rest hrest =>
      cases rest with
      | nil =>
          exact ⟨hdead, rfl, Untroubled.next .storeError⟩
      | cons node rest =>
          obtain ⟨-, -, htimeout, hloss, -⟩ := hon node (hrest node List.mem_cons_self)
          refine ⟨hdead, rfl, ?_⟩
          simp only [controlLoop, if_neg (not_lt.mpr htimeout), if_neg (not_lt.mpr hloss)]
          exact Untroubled.next (.feedback fun n hn => hrest n (List.mem_cons_of_mem _ hn))
  | storeError =>
      exact ⟨hdead, rfl, Untroubled.next .publishError⟩
  | publishError =>
      exact ⟨hdead, rfl, Untroubled.next (.enabled fun n hn => hn)⟩
  | @enabled rest hrest =>
      cases rest with
      | nil =>
          exact ⟨hdead, rfl, Untroubled.next (.reinitPending fun n hn => hn)⟩
      | cons node rest =>
          obtain ⟨-, -, -, -, henabled⟩ := hon node (hrest node List.mem_cons_self)
          refine ⟨hdead, rfl, ?_⟩
          simp only [controlLoop, if_pos henabled]
          exact Untroubled.next (.enabled fun n hn => hrest n (List.mem_cons_of_mem _ hn))
  | @reinitPending rest hrest =>
      cases rest with
      | nil => exact ⟨hdead, rfl, fun u hu => absurd hu (Option.not_mem_none u)⟩
      | cons node rest =>
          obtain ⟨hreinit, -⟩ := hon node (hrest node List.mem_cons_self)
          refine ⟨hdead, rfl, ?_⟩
          simp only [controlLoop, hreinit]
          exact Untroubled.next (.reinitPending fun n hn => hrest n (List.mem_cons_of_mem _ hn))

/-- The next tick, run behind all other threads for a number of accesses. -/
def tickAlone (s : State) (accesses : Nat) : List Label :=
  .tick :: moves s.threads.length accesses

/-- `reset_motor` has been started, under the flag. -/
def Recovers (c : Config) (s : State) : Prop :=
  s.shared.transitionInProgress = true ∧
    ∃ u ∈ s.threads, u.body = .recovery (.resetting (.reinit c.driveMotorIds))

/-- Once the interval since the last attempt has passed, the next tick starts a
recovery, or enables the motors. -/
def TickServes (c : Config) (s : State) : Prop :=
  ∀ lastResetAttempt, c.faultResetIntervalSec < s.shared.now - lastResetAttempt →
    ∃ accesses t,
      run (step c) { s with shared := { s.shared with lastResetAttempt := lastResetAttempt } }
        (tickAlone s accesses) = some t ∧
      (Recovers c t ∨ t.shared.motorsEnabled = true)

/-- While callbacks are called: if all servos are on and no transition is in
progress, commands are applied or the next tick sees to it. -/
def ServosServed (c : Config) (s : State) : Prop :=
  s.shared.spinning = true → ServosOn c s.shared → s.shared.transitionInProgress = false →
    s.shared.motorsEnabled = true ∨ TickServes c s

/-- The threads are those before the tick, and the tick itself if it has not ended. -/
def Ticking (c : Config) (ts : List Thread) (s : State) : Prop :=
  Dead c s.shared ∧ (s.threads = ts ∨
    ∃ pc wake, s.threads = ts ++ [⟨.control pc, wake⟩] ∧ Untroubled c pc)

theorem step_ticking {ts : List Thread} {accessed : Nat} (hs : Ticking c ts s)
    (h : step c s (.thread ts.length accessed) = some s') : Ticking c ts s' := by
  obtain ⟨hdead, hthreads⟩ := hs
  generalize hl : Label.thread ts.length accessed = l at h
  cases step_cases h with
  | delayed d hd => cases hl
  | received f hopen => cases hl
  | called hspin hb => cases hl; cases hb
  | @moved task pre post u turn hsplit hwake hturn hact =>
      obtain ⟨hlength, -⟩ := Label.thread.inj hl
      rcases hthreads with hended | ⟨pc, wake, hlast, huntroubled⟩
      · -- Behind the other threads there is none to move.
        have hlong := congrArg List.length (hended.symm.trans hsplit)
        simp only [List.length_append, List.length_cons] at hlong
        omega
      · obtain ⟨rfl, htail⟩ := List.append_inj (hlast.symm.trans hsplit) hlength
        obtain ⟨rfl, rfl⟩ := List.cons.inj htail
        cases hturn
        obtain ⟨hdead', hspawned, hself⟩ := controlLoop_untroubled hdead huntroubled
        refine ⟨hdead', ?_⟩
        cases hnext : (controlLoop c s.shared pc).self with
        | none =>
            left
            simp [Turn.threads, hnext, hspawned]
        | some b =>
            obtain ⟨pc', rfl, hpc'⟩ := hself b hnext
            right
            refine ⟨pc', s.shared.now + (controlLoop c s.shared pc).sleep, ?_, hpc'⟩
            simp [Turn.threads, hnext, hspawned]

/-- A tick of a dead node ends without an effect. -/
theorem dead_not_served (hdead : Dead c s.shared) : ¬ TickServes c s := by
  intro hserves
  have hdue : c.faultResetIntervalSec <
      s.shared.now - (s.shared.now - (c.faultResetIntervalSec + 1)) := by
    linarith
  obtain ⟨accesses, t, hrun, hserved⟩ := hserves _ hdue
  rw [tickAlone, run_cons] at hrun
  obtain ⟨s₁, htick, hmoves⟩ := Option.bind_eq_some_iff.mp hrun
  have hstart : Ticking c s.threads s₁ := by
    rw [step] at htick
    split at htick
    · cases htick
      exact ⟨hdead, .inr ⟨.watchdogLoad, s.shared.now, rfl, .watchdogLoad⟩⟩
    · cases htick
  have hend : Ticking c s.threads t := by
    have hlabels : Along (step c) (fun _ l _ => l = .thread s.threads.length 0) s₁
        (moves s.threads.length accesses) :=
      along_of_forall_mem _ (fun l hl => List.eq_of_mem_replicate hl) _
    refine invariant_of_run ?_ hstart hlabels hmoves
    rintro u l u' hu rfl hstep
    exact step_ticking hu hstep
  obtain ⟨⟨-, hflag, hoff⟩, -⟩ := hend
  rcases hserved with ⟨h, -⟩ | h
  · rw [hflag] at h
    cases h
  · rw [hoff] at h
    cases h

/-- A spinning node serves all its drives exactly if it is not dead. -/
theorem servosServed_iff :
    ServosServed c s ↔ (s.shared.spinning = true → ¬ Dead c s.shared) := by
  constructor
  · rintro hserved hspin ⟨hon, hflag, hoff⟩
    rcases hserved hspin hon hflag with h | h
    · rw [hoff] at h
      cases h
    · exact dead_not_served ⟨hon, hflag, hoff⟩ h
  · intro hdead hspin hon hflag
    left
    by_contra hoff
    exact hdead hspin ⟨hon, hflag, Bool.eq_false_of_not_eq_true hoff⟩

/-- Some drive of the list has the complaint. -/
def Complaining (c : Config) (σ : Shared) (nodes : List NodeId) (k : Complaint) : Prop :=
  ∃ n ∈ nodes, σ.drives.complains c σ.now n k

/-- A recovery is wanted and due: the motors are off, all feedback is current,
and some drive complains. -/
structure Troubled (c : Config) (σ : Shared) : Prop where
  disabled : σ.motorsEnabled = false
  wanted : computeWantEnabled c σ = true
  free : σ.transitionInProgress = false
  due : c.faultResetIntervalSec < σ.now - σ.lastResetAttempt
  current : ∀ n ∈ c.driveMotorIds, ¬ σ.drives.complains c σ.now n .late
  trouble : ∃ k, Complaining c σ c.driveMotorIds k

/-- What is left of a tick will ask for a recovery: the complaint has been
found, or lies in front of it. -/
inductive Committed (c : Config) (complaining : List NodeId → Complaint → Prop) :
    ControlLoop → Prop
  | watchdogLoad : Committed c complaining .watchdogLoad
  | velocity (rest : List NodeId) (data : List ℚ) : Committed c complaining (.velocity rest data)
  | status (rest : List NodeId) (data : List ℚ) : Committed c complaining (.status rest data)
  | alarms {rest : List NodeId} {found : Findings} (htime : found.feedbackTimeout = false)
      (h : found.driveFault = true ∨ complaining rest .error ∨
        complaining c.driveMotorIds .off ∨ complaining c.driveMotorIds .reinit) :
      Committed c complaining (.alarms rest found)
  | publishAlarm (text : String) (rest : List NodeId) :
      Committed c complaining (.publishAlarm text rest)
  | feedback {rest : List NodeId} {found : Findings} (hrest : ∀ n ∈ rest, n ∈ c.driveMotorIds)
      (htime : found.feedbackTimeout = false)
      (h : found.driveFault = true ∨ complaining c.driveMotorIds .off ∨
        complaining c.driveMotorIds .reinit) : Committed c complaining (.feedback rest found)
  | storeError {found : Findings} (htime : found.feedbackTimeout = false)
      (h : found.driveFault = true ∨ complaining c.driveMotorIds .off ∨
        complaining c.driveMotorIds .reinit) : Committed c complaining (.storeError found)
  | publishError {found : Findings} (htime : found.feedbackTimeout = false)
      (h : found.driveFault = true ∨ complaining c.driveMotorIds .off ∨
        complaining c.driveMotorIds .reinit) : Committed c complaining (.publishError found)
  | enabled {rest : List NodeId} {found : Findings} (htime : found.feedbackTimeout = false)
      (h : found.driveFault = true ∨ found.notEnabled = true ∨ complaining rest .off ∨
        complaining c.driveMotorIds .reinit) : Committed c complaining (.enabled rest found)
  | reinitPending {rest : List NodeId} (h : complaining rest .reinit) :
      Committed c complaining (.reinitPending rest)
  | wantTraction : Committed c complaining .wantTraction
  | wantBrake : Committed c complaining (.wantBrake true)
  | loadTransition : Committed c complaining .loadTransition
  | interval : Committed c complaining .interval
  | exchange : Committed c complaining .exchange

/-- An upper bound of the accesses up to the exchange of the flag. -/
def ControlLoop.ahead (c : Config) : ControlLoop → Nat
  | .watchdogLoad => 7 * c.driveMotorIds.length + 13
  | .velocity rest _ => 6 * c.driveMotorIds.length + rest.length + 12
  | .status rest _ => 5 * c.driveMotorIds.length + rest.length + 11
  | .alarms rest _ => 3 * c.driveMotorIds.length + 2 * rest.length + 10
  | .publishAlarm _ rest => 3 * c.driveMotorIds.length + 2 * rest.length + 11
  | .feedback rest _ => 2 * c.driveMotorIds.length + rest.length + 9
  | .storeError _ => 2 * c.driveMotorIds.length + 8
  | .publishError _ => 2 * c.driveMotorIds.length + 7
  | .enabled rest _ => c.driveMotorIds.length + rest.length + 6
  | .reinitPending rest => rest.length + 5
  | .wantTraction => 4
  | .wantBrake _ => 3
  | .loadTransition => 2
  | .interval => 1
  | _ => 0

/-- The accesses that a tick makes on its way to the exchange. -/
def Action.reports : Action → Bool
  | .skip | .publish _ | .rememberAlarm _ | .storeError _ => true
  | _ => false

theorem complaining_apply {a : Action} (ha : a.reports = true) :
    Complaining c (σ.apply a) = Complaining c σ := by
  funext nodes k
  cases a with
  | rememberAlarm m =>
      simp only [Complaining, Shared.apply, Drives.complains_congr Drives.shown_rememberAlarm]
  | skip => rfl
  | publish p => rfl
  | storeError on => rfl
  | _ => cases ha

theorem Troubled.apply {a : Action} (h : Troubled c σ) (ha : a.reports = true) :
    Troubled c (σ.apply a) := by
  have hsame := complaining_apply (c := c) (σ := σ) ha
  have hcurrent : ∀ n ∈ c.driveMotorIds,
      ¬ (σ.apply a).drives.complains c (σ.apply a).now n .late := by
    intro n hn hlate
    have hone : Complaining c (σ.apply a) [n] .late := ⟨n, List.mem_singleton_self n, hlate⟩
    rw [hsame] at hone
    obtain ⟨m, hm, hlate'⟩ := hone
    obtain rfl := List.mem_singleton.mp hm
    exact h.current m hn hlate'
  have htrouble : ∃ k, Complaining c (σ.apply a) c.driveMotorIds k := hsame ▸ h.trouble
  cases a with
  | skip => exact h
  | publish p => exact h
  | storeError on => exact ⟨h.disabled, h.wanted, h.free, h.due, hcurrent, htrouble⟩
  | rememberAlarm m => exact ⟨h.disabled, h.wanted, h.free, h.due, hcurrent, htrouble⟩
  | _ => cases ha

/-- A complaint of a list is one of its head or of its tail. -/
theorem complaining_cons {rest : List NodeId} {k : Complaint} :
    Complaining c σ (n :: rest) k ↔
      σ.drives.complains c σ.now n k ∨ Complaining c σ rest k := by
  simp [Complaining]

/-- One access of such a tick brings it closer to the exchange. -/
theorem controlLoop_committed {pc : ControlLoop} (hσ : Troubled c σ)
    (h : Committed c (Complaining c σ) pc) (hpc : pc ≠ .exchange) :
    (controlLoop c σ pc).act.reports = true ∧ (controlLoop c σ pc).spawned = none ∧
      (controlLoop c σ pc).sleep = 0 ∧ ∃ pc', (controlLoop c σ pc).self = some (.control pc') ∧
        Committed c (Complaining c σ) pc' ∧ pc'.ahead c < pc.ahead c := by
  have htraction : tractionOk c σ = true := (Bool.and_eq_true_iff.mp hσ.wanted).1
  have hbrake : brakeOk c σ = true := (Bool.and_eq_true_iff.mp hσ.wanted).2
  cases h with
  | watchdogLoad =>
      refine ⟨rfl, rfl, rfl, .velocity c.driveMotorIds [], ?_, .velocity _ _, ?_⟩
      · simp [controlLoop, hσ.disabled]
      · simp only [ControlLoop.ahead]
        omega
  | velocity rest data =>
      cases rest with
      | nil =>
          refine ⟨rfl, rfl, rfl, _, rfl, .status _ _, ?_⟩
          simp only [ControlLoop.ahead, List.length_nil]
          omega
      | cons node rest =>
          refine ⟨rfl, rfl, rfl, _, rfl, .velocity _ _, ?_⟩
          simp [ControlLoop.ahead]
  | status rest data =>
      cases rest with
      | nil =>
          refine ⟨rfl, rfl, rfl, _, rfl, .alarms rfl ?_, ?_⟩
          · obtain ⟨k, n, hn, hk⟩ := hσ.trouble
            cases k with
            | reinit => exact .inr (.inr (.inr ⟨n, hn, hk⟩))
            | error => exact .inr (.inl ⟨n, hn, hk⟩)
            | late => exact absurd hk (hσ.current n hn)
            | off => exact .inr (.inr (.inl ⟨n, hn, hk⟩))
          · simp only [ControlLoop.ahead, List.length_nil]
            omega
      | cons node rest =>
          refine ⟨rfl, rfl, rfl, _, rfl, .status _ _, ?_⟩
          simp [ControlLoop.ahead]
  | @alarms rest found htime htrouble =>
      cases rest with
      | nil =>
          refine ⟨rfl, rfl, rfl, _, rfl, .feedback (fun n hn => hn) htime ?_, ?_⟩
          · rcases htrouble with hfault | ⟨n, hn, -⟩ | hrest
            · exact .inl hfault
            · exact absurd hn List.not_mem_nil
            · exact .inr hrest
          · simp only [ControlLoop.ahead, List.length_nil]
            omega
      | cons node rest =>
          cases halarm : σ.drives.alarm node with
          | some text =>
              refine ⟨rfl, rfl, rfl, .publishAlarm text rest, ?_, .publishAlarm _ _, ?_⟩
              · simp [controlLoop, halarm]
              · simp only [ControlLoop.ahead, List.length_cons]
                omega
          | none =>
              have hquiet : ¬ σ.drives.complains c σ.now node .error := by
                unfold Drives.alarm at halarm
                split at halarm
                · exact not_not_intro ‹_›
                · cases halarm
              refine ⟨rfl, rfl, rfl, .alarms rest found, ?_, .alarms htime ?_, ?_⟩
              · simp [controlLoop, halarm]
              · rw [complaining_cons] at htrouble
                exact htrouble.imp_right fun h => h.imp_left fun h => h.resolve_left hquiet
              · simp only [ControlLoop.ahead, List.length_cons]
                omega
  | publishAlarm text rest =>
      refine ⟨rfl, rfl, rfl, _, rfl, .alarms rfl (.inl rfl), ?_⟩
      simp [ControlLoop.ahead]
  | @feedback rest found hrest htime htrouble =>
      cases rest with
      | nil =>
          refine ⟨rfl, rfl, rfl, _, rfl, .storeError htime htrouble, ?_⟩
          simp [ControlLoop.ahead]
      | cons node rest =>
          obtain ⟨hintime, hheard⟩ := not_or.mp (hσ.current node (hrest node List.mem_cons_self))
          refine ⟨rfl, rfl, rfl, .feedback rest found, ?_, .feedback ?_ htime htrouble, ?_⟩
          · simp [controlLoop, hintime, hheard]
          · exact fun n hn => hrest n (List.mem_cons_of_mem _ hn)
          · simp [ControlLoop.ahead]
  | storeError htime htrouble =>
      refine ⟨rfl, rfl, rfl, _, rfl, .publishError htime htrouble, ?_⟩
      simp [ControlLoop.ahead]
  | publishError htime htrouble =>
      refine ⟨rfl, rfl, rfl, _, rfl, .enabled htime ?_, ?_⟩
      · exact htrouble.imp_right .inr
      · simp only [ControlLoop.ahead]
        omega
  | @enabled rest found htime htrouble =>
      cases rest with
      | nil =>
          by_cases hfault : (found.driveFault || found.notEnabled) = true
          · refine ⟨rfl, rfl, rfl, .wantTraction, ?_, .wantTraction, ?_⟩
            · simp [controlLoop, htime, hfault]
            · simp only [ControlLoop.ahead]
              omega
          · refine ⟨rfl, rfl, rfl, .reinitPending c.driveMotorIds, ?_, .reinitPending ?_, ?_⟩
            · simp [controlLoop, htime, hfault]
            · rcases htrouble with h | h | ⟨n, hn, -⟩ | hreinit
              · exact absurd (by simp [h]) hfault
              · exact absurd (by simp [h]) hfault
              · exact absurd hn List.not_mem_nil
              · exact hreinit
            · simp [ControlLoop.ahead]
      | cons node rest =>
          cases hon : σ.drives.isOperationEnabled node with
          | true =>
              refine ⟨rfl, rfl, rfl, .enabled rest found, ?_, .enabled htime ?_, ?_⟩
              · simp [controlLoop, hon]
              · rw [complaining_cons] at htrouble
                refine htrouble.imp_right fun h => h.imp_right fun h => h.imp_left fun h => ?_
                exact h.resolve_left (not_not_intro (of_decide_eq_true hon))
              · simp [ControlLoop.ahead]
          | false =>
              refine ⟨rfl, rfl, rfl, .enabled rest { found with notEnabled := true }, ?_,
                .enabled htime (.inr (.inl rfl)), ?_⟩
              · simp [controlLoop, hon]
              · simp [ControlLoop.ahead]
  | @reinitPending rest htrouble =>
      cases rest with
      | nil =>
          obtain ⟨n, hn, -⟩ := htrouble
          exact absurd hn List.not_mem_nil
      | cons node rest =>
          cases hreinit : (σ.drives node).needsReinit with
          | true =>
              refine ⟨rfl, rfl, rfl, .wantTraction, ?_, .wantTraction, ?_⟩
              · simp [controlLoop, hreinit]
              · simp [ControlLoop.ahead]
          | false =>
              refine ⟨rfl, rfl, rfl, .reinitPending rest, ?_, .reinitPending ?_, ?_⟩
              · simp [controlLoop, hreinit]
              · refine (complaining_cons.mp htrouble).resolve_left fun hpending => ?_
                rw [Drives.complains, hreinit] at hpending
                cases hpending
              · simp [ControlLoop.ahead]
  | wantTraction =>
      refine ⟨rfl, rfl, rfl, .wantBrake true, ?_, .wantBrake, ?_⟩
      · simp [controlLoop, htraction]
      · simp [ControlLoop.ahead]
  | wantBrake =>
      refine ⟨rfl, rfl, rfl, .loadTransition, ?_, .loadTransition, ?_⟩
      · simp [controlLoop, hbrake]
      · simp [ControlLoop.ahead]
  | loadTransition =>
      refine ⟨rfl, rfl, rfl, .interval, ?_, .interval, ?_⟩
      · simp [controlLoop, hσ.free]
      · simp [ControlLoop.ahead]
  | interval =>
      refine ⟨rfl, rfl, rfl, .exchange, ?_, .exchange, ?_⟩
      · simp [controlLoop, hσ.due]
      · simp [ControlLoop.ahead]
  | exchange => exact absurd rfl hpc

/-- A tick behind all other threads makes its next access. -/
theorem step_tick {ts : List Thread} {pc : ControlLoop}
    (hthreads : s.threads = ts ++ [⟨.control pc, s.shared.now⟩]) :
    step c s (.thread ts.length 0) =
      some ⟨s.shared.apply (controlLoop c s.shared pc).act,
        ts ++ (controlLoop c s.shared pc).threads s.shared.now⟩ := by
  simp [step, threadStep, hthreads, stepAt_length, Thread.step, Body.turn]

/-- At the exchange two accesses are left: it takes the flag and starts the
recovery. -/
theorem recovers_of_exchange {ts : List Thread} (hfree : s.shared.transitionInProgress = false)
    (hthreads : s.threads = ts ++ [⟨.control .exchange, s.shared.now⟩]) :
    ∃ t, run (step c) s (moves ts.length 2) = some t ∧ Recovers c t := by
  let taken : State := ⟨s.shared.apply .takeTransition,
    ts ++ [⟨.control .startRecovery, (s.shared.apply .takeTransition).now⟩]⟩
  have hexchange : step c s (.thread ts.length 0) = some taken := by
    rw [step_tick hthreads]
    simp [taken, controlLoop, hfree, Turn.threads, Shared.apply]
  let started : State := ⟨taken.shared.apply .stampResetAttempt,
    ts ++ [⟨.recovery (.resetting (.reinit c.driveMotorIds)), taken.shared.now⟩]⟩
  have hbehind : taken.threads = ts ++ [⟨.control .startRecovery, taken.shared.now⟩] := rfl
  have hstart : step c taken (.thread ts.length 0) = some started := step_tick hbehind
  refine ⟨started, ?_, rfl, _, List.mem_append_right _ List.mem_cons_self, rfl⟩
  simp [moves, List.replicate_succ, hexchange, hstart]

/-- A committed tick, run behind all other threads, starts a recovery. -/
theorem recovers_of_committed {ts : List Thread} {pc : ControlLoop}
    (hσ : Troubled c s.shared) (hpc : Committed c (Complaining c s.shared) pc)
    (hthreads : s.threads = ts ++ [⟨.control pc, s.shared.now⟩]) :
    ∃ accesses t, run (step c) s (moves ts.length accesses) = some t ∧ Recovers c t := by
  induction hahead : pc.ahead c using Nat.strongRecOn generalizing s pc with
  | ind bound ih =>
      by_cases hlast : pc = .exchange
      · subst hlast
        exact ⟨2, recovers_of_exchange hσ.free hthreads⟩
      · obtain ⟨hreports, hspawned, hsleep, pc', hself, hpc', hless⟩ :=
          controlLoop_committed hσ hpc hlast
        let next : State := ⟨s.shared.apply (controlLoop c s.shared pc).act,
          ts ++ [⟨.control pc', s.shared.now⟩]⟩
        have hstep : step c s (.thread ts.length 0) = some next := by
          rw [step_tick hthreads]
          simp [next, Turn.threads, hself, hspawned, hsleep]
        have hnow : next.shared.now = s.shared.now := Shared.apply_now _ _
        have hcommitted : Committed c (Complaining c next.shared) pc' :=
          (complaining_apply hreports).symm ▸ hpc'
        have hbehind : next.threads = ts ++ [⟨.control pc', next.shared.now⟩] := by
          rw [hnow]
        obtain ⟨accesses, t, hrun, hserved⟩ :=
          ih (pc'.ahead c) (hahead ▸ hless) (hσ.apply hreports) hcommitted hbehind rfl
        refine ⟨accesses + 1, t, ?_, hserved⟩
        simp only [moves, List.replicate_succ, run_cons, hstep, Option.bind_some]
        exact hrun

/-- A node in trouble: the next tick past the interval starts a recovery. -/
theorem trouble_served (hspin : s.shared.spinning = true)
    (hidle : anyOf s.threads .control = false) (hwanted : computeWantEnabled c s.shared = true)
    (hfree : s.shared.transitionInProgress = false) (hoff : s.shared.motorsEnabled = false)
    (hcurrent : ∀ n ∈ c.driveMotorIds, ¬ s.shared.drives.complains c s.shared.now n .late)
    (htrouble : ∃ k, Complaining c s.shared c.driveMotorIds k) : TickServes c s := by
  intro lastResetAttempt hdue
  let waited : State := { s with shared := { s.shared with lastResetAttempt := lastResetAttempt } }
  have htick : step c waited .tick = some (waited.call (.control .watchdogLoad)) := by
    have hcan : (waited.shared.spinning && !anyOf waited.threads .control) = true := by
      simp [waited, hspin, hidle]
    exact if_pos hcan
  have hσ : Troubled c (waited.call (.control .watchdogLoad)).shared :=
    ⟨hoff, hwanted, hfree, hdue, hcurrent, htrouble⟩
  obtain ⟨accesses, t, hrun, hserved⟩ := recovers_of_committed hσ .watchdogLoad rfl
  refine ⟨accesses, t, ?_, .inl hserved⟩
  rw [tickAlone, run_cons]
  change (step c waited .tick).bind _ = _
  rw [htick]
  exact hrun

/-- While callbacks are called and all feedback is current: if the servos are
wanted on, no transition is in progress and no tick is under way, commands are
applied or the next tick sees to it, whatever the drives show. -/
def CurrentServed (c : Config) (s : State) : Prop :=
  s.shared.spinning = true → anyOf s.threads .control = false →
    computeWantEnabled c s.shared = true → s.shared.transitionInProgress = false →
    (∀ n ∈ c.driveMotorIds, ¬ s.shared.drives.complains c s.shared.now n .late) →
    s.shared.motorsEnabled = true ∨ TickServes c s

/-- A node that is not dead applies commands, or finds a complaint to act on. -/
theorem currentServed_of_not_dead (h : ¬ Dead c s.shared) : CurrentServed c s := by
  intro hspin hidle hwanted hfree hcurrent
  cases hoff : s.shared.motorsEnabled with
  | true => exact .inl rfl
  | false =>
      right
      refine trouble_served hspin hidle hwanted hfree hoff hcurrent ?_
      by_contra hnone
      refine h ⟨⟨hwanted, fun n hn => Drives.on_iff.mpr fun k hk => ?_⟩, hfree, hoff⟩
      exact hnone ⟨k, n, hn, hk⟩

end PolishingRobot.Motor
