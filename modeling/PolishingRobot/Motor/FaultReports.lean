import PolishingRobot.Motor.TickReadings

/-!
# Faults that are reported

`/motor/error` combines the error codes of TPDO3 with the ages of TPDO2. The
statusword of TPDO1 has no part in it, so a drive in `FAULT` is reported only
when one of the other two shows something as well.
-/

namespace PolishingRobot.Motor

open Runs

variable {c : Config} {σ : Shared} {s s' : State} {task : Nat} {turn : Turn} {l : Label}
  {b : Body} {r : Readings} {raised : Bool}

/-- Every drive's alarm and age have been read. -/
def Readings.Complete (c : Config) (r : Readings) : Prop :=
  r.alarms.map Prod.fst = c.driveMotorIds ∧ r.ages.map Prod.fst = c.driveMotorIds

/-- No drive was in `FAULT`, none had an error code, and no feedback was older
than `feedback_timeout_sec_`. -/
def Readings.Sound (c : Config) (r : Readings) : Prop :=
  (∀ p ∈ r.alarms, getCia402State p.2.statusFlags ≠ .fault ∧ p.2.errorCode = 0) ∧
    ∀ p ∈ r.ages, p.2 ≤ c.feedbackTimeoutSec

/-- A tick that publishes `/motor/error` has read every drive; it publishes true
if it has found one in `FAULT`, and false only if it has found nothing wrong. -/
def FaultsReported (c : Config) (w : State × Readings) (l : Label) : Prop :=
  ∀ raised, actionOf c w.1 l = some (.publish (.error raised)) →
    w.2.Complete c ∧ (w.2.faulted = true → raised = true) ∧ (raised = false → w.2.Sound c)

/-- The tick publishes `/motor/error` next. -/
def Body.atError : Body → Bool
  | .control (.publishError _) => true
  | _ => false

/-- A tick that publishes `/motor/error` and has found a drive in `FAULT` has
also found an error code or feedback that is too old. -/
def FaultsShow (c : Config) (w : State × Readings) (l : Label) : Prop :=
  ∀ b ∈ w.1.mover l, b.atError = true → w.2.faulted = true →
    w.2.coded = true ∨ w.2.late c = true

theorem Readings.sound_iff : r.Sound c ↔
    r.faulted = false ∧ r.coded = false ∧ r.late c = false := by
  simp only [Readings.Sound, Readings.faulted, Readings.coded, Readings.late, List.any_eq_false,
    decide_eq_true_eq, not_lt, not_not]
  constructor
  · rintro ⟨halarms, hages⟩
    exact ⟨fun p hp => (halarms p hp).1, fun p hp => (halarms p hp).2, hages⟩
  · rintro ⟨hfaults, hcodes, hages⟩
    exact ⟨fun p hp => ⟨hfaults p hp, hcodes p hp⟩, hages⟩

theorem controlLoop_error {pc : ControlLoop}
    (h : (controlLoop c σ pc).act = .publish (.error raised)) :
    ∃ found, pc = .publishError found ∧
      raised = (found.driveFault || found.feedbackTimeout) := by
  cases pc with
  | publishError found => cases h; exact ⟨found, rfl, rfl⟩
  | watchdogZero rest => cases rest <;> cases h
  | velocity rest data => cases rest <;> cases h
  | status rest data => cases rest <;> cases h
  | alarms rest found => cases rest <;> cases h
  | feedback rest found => cases rest <;> cases h
  | enabled rest found => cases rest <;> cases h
  | reinitPending rest => cases rest <;> cases h
  | exchange => rw [controlLoop] at h; split at h <;> cases h
  | _ => cases h

theorem Body.turn_error (h : b.turn c s task = some turn)
    (ha : turn.act = .publish (.error raised)) :
    ∃ found, b = .control (.publishError found) ∧
      raised = (found.driveFault || found.feedbackTimeout) := by
  have hacts := Body.turn_acts h
  rw [ha] at hacts
  generalize hpublish : Action.publish (.error raised) = a at hacts
  cases hacts with
  | publish pc p =>
      cases h
      obtain ⟨found, rfl, hraised⟩ := controlLoop_error ha
      exact ⟨found, rfl, hraised⟩
  | drive hb hd => subst hpublish; cases hd
  | evaluation b hpc he => subst hpublish; cases he
  | _ => cases hpublish

/-- At its publication a tick has read every drive, and raises the error for
the codes and the ages. -/
theorem InTick.published {found : Findings} {t : Thread} (hs : InTick c s r)
    (ht : t ∈ s.threads) (hbody : t.body = .control (.publishError found)) :
    r.Complete c ∧ (found.driveFault || found.feedbackTimeout) = (r.coded || r.late c) := by
  have htallied : Tallied c r found [] [] c.driveMotorIds := hs.tallied t ht _ hbody
  refine ⟨⟨?_, ?_⟩, ?_⟩
  · simpa using htallied.alarms
  · simpa using htallied.ages
  · rw [htallied.driveFault, htallied.feedbackTimeout]

theorem reported_iff_show (hs : InTick c s r) (h : step c s l = some s') :
    FaultsReported c (s, r) l ↔ FaultsShow c (s, r) l := by
  cases step_cases h with
  | delayed d hd =>
      constructor
      · exact fun _ b hb => nomatch hb
      · exact fun _ raised ha => nomatch ha
  | received f hopen =>
      constructor
      · exact fun _ b hb => nomatch hb
      · exact fun _ raised ha => nomatch ha
  | @called l b hspin hb =>
      constructor
      · intro _ u hu
        cases hb <;> cases hu
      · intro _ raised ha
        rw [hb.actionOf_eq_none] at ha
        cases ha
  | @moved task pre post t turn hthreads hwake hturn hact =>
      have ht : t ∈ s.threads := mover_mem hthreads
      have hmover : s.mover (.thread pre.length task) = some t.body := mover_eq hthreads
      constructor
      · intro hreported b hb herror hfault
        obtain rfl := Option.some.inj (hmover.symm.trans hb)
        generalize hbody : t.body = b at hturn herror
        unfold Body.atError at herror
        split at herror
        · rename_i found
          cases hturn
          obtain ⟨-, hraised⟩ := hs.published ht hbody
          have htrue := (hreported _ hact).2.1 hfault
          rw [hraised] at htrue
          exact Bool.or_eq_true_iff.mp htrue
        · cases herror
      · intro hshow raised ha
        obtain ⟨found, hbody, rfl⟩ :=
          Body.turn_error hturn (Option.some.inj (hact.symm.trans ha))
        obtain ⟨hcomplete, hraised⟩ := hs.published ht hbody
        have hfaults : r.faulted = true → r.coded = true ∨ r.late c = true :=
          hshow t.body hmover (by rw [hbody]; rfl)
        dsimp only
        rw [hraised]
        refine ⟨hcomplete, fun hfault => Bool.or_eq_true_iff.mpr (hfaults hfault), ?_⟩
        intro hfalse
        obtain ⟨hcoded, hlate⟩ := Bool.or_eq_false_iff.mp hfalse
        refine Readings.sound_iff.mpr ⟨?_, hcoded, hlate⟩
        by_contra hfault
        rcases hfaults (Bool.eq_true_of_not_eq_false hfault) with h | h
        · rw [hcoded] at h
          cases h
        · rw [hlate] at h
          cases h

/-- Along a run every tick reports faulted drives exactly if no tick finds one
without an error code or feedback that is too old. -/
theorem faults_reported_iff (c : Config) (now : Time) (ls : List Label) :
    Along (reading c) (fun w l _ => FaultsReported c w l) (start c now, {}) ls ↔
      Along (reading c) (fun w l _ => FaultsShow c w l) (start c now, {}) ls := by
  have same : ∀ (w : State × Readings) l w', InTick c w.1 w.2 → reading c w l = some w' →
      (FaultsReported c w l ↔ FaultsShow c w l) :=
    fun w l w' hw h => reported_iff_show hw (observe_eq_some h).1
  exact along_iff_of_invariant reading_inTick same (start_inTick c now)

/-- Drive 1 reports the state `FAULT`, and current feedback, but no TPDO3 with an
error code; the next tick comes to its publication. -/
def faultWithoutCode : List Label :=
  bringUp ++ [statusFrame 0x08, feedbackFrame, Label.tick] ++ moves 2 11

/-- It publishes false. -/
theorem fault_not_published :
    ∃ w, run (reading oneDrive) (start oneDrive 100, {}) faultWithoutCode = some w ∧
      w.2.faulted = true ∧
      actionOf oneDrive w.1 (.thread 2 0) = some (.publish (.error false)) ∧
      ¬ Along (reading oneDrive) (fun w l _ => FaultsReported oneDrive w l)
        (start oneDrive 100, {}) (faultWithoutCode ++ [.thread 2 0]) := by
  have hend : ((run (reading oneDrive) (start oneDrive 100, {}) faultWithoutCode).map fun w =>
      decide (w.2.faulted = true ∧
        actionOf oneDrive w.1 (.thread 2 0) = some (.publish (.error false)) ∧
        (reading oneDrive w (.thread 2 0)).isSome = true)) = some true := by decide +kernel
  obtain ⟨w, hrun, hw⟩ := Option.map_eq_some_iff.mp hend
  obtain ⟨hfault, hact, hsome⟩ := of_decide_eq_true hw
  obtain ⟨w', hstep⟩ := Option.isSome_iff_exists.mp hsome
  refine ⟨w, hrun, hfault, hact, ?_⟩
  intro hreported
  obtain ⟨-, hraised, -⟩ := hreported.after_prefix hrun hstep false hact
  cases hraised hfault

end PolishingRobot.Motor
