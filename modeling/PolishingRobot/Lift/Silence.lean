import PolishingRobot.Lift.Freshness
import PolishingRobot.Lift.PositionArithmetic

/-!
# Whether silence can look like a standstill

Homing completes and a manual command is released when the position stays near
a reference for long enough. The log says when the newest position frame was
received and which positions the polls used since each reference was set.
-/

namespace PolishingRobot.Lift

open Runs

variable {c : Config} {now rxNow : Time} {pos : Int32} {fresh : Bool} {di : UInt8}
  {s t u : State}

/-- The motion stage completes homing because the position stands still. -/
def HomingStall (c : Config) (now : Time) (pos : Int32) (fresh : Bool) (di : UInt8) (s : State) :
    Prop :=
  ComparesHoming c now fresh di s ∧ wordNear pos s.stallRefPos c.homeStallCounts = true ∧
    c.homeMinSec ≤ now - s.homeStart ∧ c.homeStallSec ≤ now - s.stallSince

/-- The release stage drops a command because the position stands still. -/
def ReleaseStall (c : Config) (now : Time) (pos : Int32) (fresh : Bool) (di : UInt8) (s : State) :
    Prop :=
  ComparesManual c now fresh di s ∧ wordNear pos s.velRefPos c.homeStallCounts = true ∧
    c.releaseStopSec ≤ now - s.velRefTime

/-- The motion stage takes the position as the new homing reference. -/
def SetsHoming (c : Config) (now : Time) (pos : Int32) (fresh : Bool) (di : UInt8) (s : State) :
    Prop :=
  s.mode = .homing ∧ ¬ c.homeTimeoutSec < now - s.homeStart ∧
    ¬ (c.useLimitSwitchForHome = true ∧ atLowerLimit c di fresh = true) ∧ fresh = true ∧
    (s.stallTracking = false ∨ wordNear pos s.stallRefPos c.homeStallCounts = false)

/-- The release stage takes the position as the new reference of the command. -/
def SetsManual (c : Config) (now : Time) (pos : Int32) (fresh : Bool) (di : UInt8) (s : State) :
    Prop :=
  c.autoReleaseOnStop = true ∧ s.mode = .manual ∧ s.lastVelCmd ≠ 0 ∧ fresh = true ∧
    ¬ (s.lastVelCmd < 0 ∧ atLowerLimit c di fresh = true) ∧
    ¬ now - s.velCmdTime < c.releaseGraceSec ∧
    (s.velRefValid = false ∨ wordNear pos s.velRefPos c.homeStallCounts = false)

/-- The release stage passes over a reference without a comparison: another
mode is active, or the spin-up time runs. -/
def SkipsManual (c : Config) (now : Time) (fresh : Bool) (di : UInt8) (s : State) : Prop :=
  fresh = true ∧ s.velRefValid = true ∧
    (s.mode ≠ .manual ∨
      (¬ (s.lastVelCmd < 0 ∧ atLowerLimit c di fresh = true) ∧
        now - s.velCmdTime < c.releaseGraceSec))

section Decidable

instance : Decidable (ComparesHoming c now fresh di s) := by
  unfold ComparesHoming
  infer_instance

instance : Decidable (ComparesManual c now fresh di s) := by
  unfold ComparesManual
  infer_instance

instance : Decidable (HomingStall c now pos fresh di s) := by
  unfold HomingStall
  infer_instance

instance : Decidable (ReleaseStall c now pos fresh di s) := by
  unfold ReleaseStall
  infer_instance

instance : Decidable (SetsHoming c now pos fresh di s) := by
  unfold SetsHoming
  infer_instance

instance : Decidable (SetsManual c now pos fresh di s) := by
  unfold SetsManual
  infer_instance

instance : Decidable (SkipsManual c now fresh di s) := by
  unfold SkipsManual
  infer_instance

instance {a b tol : Int32} : Decidable (Comparable a b tol) := by
  unfold Comparable
  infer_instance

end Decidable

theorem HomingStall.completes (h : HomingStall c now pos fresh di s) :
    updateMotion c now pos fresh di s =
      finishHoming c now (sendVelocity c now s.homeDirSpeed s) := by
  obtain ⟨⟨hmode, htime, hlow, hfresh, htrack⟩, hnear, hmin, hstall⟩ := h
  rw [← motionWith_wordNear, motionWith]
  simp only [hmode]
  unfold homingWith
  rw [if_neg htime, if_neg hlow]
  simp [sendVelocity_eq, hfresh, htrack, hnear, hmin, hstall]

theorem ReleaseStall.releases (h : ReleaseStall c now pos fresh di s) :
    releaseIfBlocked c now pos fresh di s = sendVelocity c now 0 s := by
  obtain ⟨⟨hauto, hmode, hvel, hfresh, hlow, hgrace, hvalid⟩, hnear, hstop⟩ := h
  rw [← releaseWith_wordNear, releaseWith, if_neg (by simp [hauto, hmode, hvel, hfresh]),
    if_neg hlow, if_neg hgrace, if_neg (by simp [hvalid, hnear]), if_pos hstop]

/-- Between two states: a reference that counts afterwards counted before, and
is the same. -/
structure KeepsRefs (s t : State) : Prop where
  homing : t.mode = .homing → t.stallTracking = true →
    s.mode = .homing ∧ s.stallTracking = true ∧ t.stallRefPos = s.stallRefPos
  manual : t.velRefValid = true →
    s.velRefValid = true ∧ t.velRefPos = s.velRefPos ∧ t.lastVelCmd = s.lastVelCmd

theorem KeepsRefs.refl (s : State) : KeepsRefs s s :=
  ⟨fun hmode htrack => ⟨hmode, htrack, rfl⟩, fun hvalid => ⟨hvalid, rfl, rfl⟩⟩

theorem KeepsRefs.trans (h : KeepsRefs s t) (h' : KeepsRefs t u) : KeepsRefs s u := by
  refine ⟨?_, ?_⟩
  · intro hmode htrack
    obtain ⟨hmode', htrack', href'⟩ := h'.homing hmode htrack
    obtain ⟨hmode, htrack, href⟩ := h.homing hmode' htrack'
    exact ⟨hmode, htrack, href'.trans href⟩
  · intro hvalid
    obtain ⟨hvalid', href', hlast'⟩ := h'.manual hvalid
    obtain ⟨hvalid, href, hlast⟩ := h.manual hvalid'
    exact ⟨hvalid, href'.trans href, hlast'.trans hlast⟩

/-- A changed velocity gives its reference up. -/
theorem sendVelocity_manual (now : Time) (rpm : Int16) (s : State)
    (hvalid : (sendVelocity c now rpm s).velRefValid = true) :
    s.velRefValid = true ∧ rpm = s.lastVelCmd := by
  rw [sendVelocity_eq] at hvalid
  by_cases hrpm : rpm = s.lastVelCmd
  · exact ⟨by simpa [hrpm] using hvalid, hrpm⟩
  · simp [hrpm] at hvalid

theorem sendVelocity_keepsRefs (c : Config) (now : Time) (rpm : Int16) (s : State) :
    KeepsRefs s (sendVelocity c now rpm s) := by
  refine ⟨?_, ?_⟩
  · rw [sendVelocity_eq]
    exact fun hmode htrack => ⟨hmode, htrack, rfl⟩
  · intro hvalid
    obtain ⟨hold, hrpm⟩ := sendVelocity_manual now rpm s hvalid
    rw [sendVelocity_eq]
    exact ⟨hold, rfl, hrpm⟩

/-- A state that agrees with another on the velocity reference, and tracks no
homing run. -/
theorem KeepsRefs.of_manual (h : KeepsRefs s t)
    (hhoming : ¬ (u.mode = .homing ∧ u.stallTracking = true))
    (hvalid : u.velRefValid = t.velRefValid) (href : u.velRefPos = t.velRefPos)
    (hlast : u.lastVelCmd = t.lastVelCmd) : KeepsRefs s u := by
  refine ⟨fun hmode htrack => absurd ⟨hmode, htrack⟩ hhoming, ?_⟩
  intro hu
  obtain ⟨hs, href', hlast'⟩ := h.manual (hvalid ▸ hu)
  exact ⟨hs, href.trans href', hlast.trans hlast'⟩

/-- A state that agrees with another on both references. -/
theorem KeepsRefs.congr (h : KeepsRefs s t) (hmode : u.mode = t.mode)
    (htrack : u.stallTracking = t.stallTracking) (hstall : u.stallRefPos = t.stallRefPos)
    (hvalid : u.velRefValid = t.velRefValid) (href : u.velRefPos = t.velRefPos)
    (hlast : u.lastVelCmd = t.lastVelCmd) : KeepsRefs s u := by
  refine ⟨?_, ?_⟩
  · intro hm ht
    obtain ⟨hs, hs', hs''⟩ := h.homing (hmode ▸ hm) (htrack ▸ ht)
    exact ⟨hs, hs', hstall.trans hs''⟩
  · intro hu
    obtain ⟨hs, href', hlast'⟩ := h.manual (hvalid ▸ hu)
    exact ⟨hs, href.trans href', hlast.trans hlast'⟩

theorem AlarmResetStep.keepsRefs {manual : Bool} (h : AlarmResetStep c now manual s t) :
    KeepsRefs s t := by
  cases h with
  | exhausted => exact (KeepsRefs.refl s).congr rfl rfl rfl rfl rfl rfl
  | sent =>
      dsimp only [sendAlarmReset, sendFrame]
      exact (sendVelocity_keepsRefs c now 0 s).congr rfl rfl rfl rfl rfl rfl

theorem AutoResetStep.keepsRefs (h : AutoResetStep c now s t) : KeepsRefs s t := by
  cases h with
  | idle => exact .refl s
  | retry _ _ _ _ h => exact h.keepsRefs

theorem ResumeStep.keepsRefs (h : ResumeStep c now pos s t) : KeepsRefs s t := by
  cases h with
  | nothing => exact .refl s
  | givenUp => exact (KeepsRefs.refl s).congr rfl rfl rfl rfl rfl rfl
  | homing => exact (KeepsRefs.refl s).of_manual (by simp) rfl rfl rfl
  | absolute => exact (KeepsRefs.refl s).of_manual (by simp) rfl rfl rfl
  | relative => exact (KeepsRefs.refl s).of_manual (by simp) rfl rfl rfl

theorem raiseAlarm_keepsRefs (now : Time) (s : State) : KeepsRefs s (raiseAlarm c now s) := by
  rw [raiseAlarm_eq]
  exact (sendVelocity_keepsRefs c now 0 s).of_manual (by simp) rfl rfl rfl

theorem AlarmStep.keepsRefs {st : UInt8} (h : AlarmStep c now st fresh pos s t) :
    KeepsRefs s t := by
  cases h with
  | stale => exact .refl s
  | quiet => exact .refl s
  | cleared _ _ _ h =>
      have hclear : KeepsRefs s (clearAlarm s) := (KeepsRefs.refl s).congr rfl rfl rfl rfl rfl rfl
      exact hclear.trans h.keepsRefs
  | raised _ _ _ h => exact (raiseAlarm_keepsRefs now s).trans h.keepsRefs
  | standing _ _ _ h => exact h.keepsRefs

theorem homingStarted_keepsRefs (now : Time) (s : State) : KeepsRefs s (homingStarted c now s) :=
  (KeepsRefs.refl s).of_manual (by simp [homingStarted, cancelResume]) rfl rfl rfl

theorem AutoHomeStep.keepsRefs (h : AutoHomeStep c now fresh s t) : KeepsRefs s t := by
  cases h with
  | idle => exact .refl s
  | started => exact homingStarted_keepsRefs now s

/-- Up to the motion stage a poll sets no reference. -/
theorem beforeMotion_keepsRefs (now : Time) (s : State) : KeepsRefs s (beforeMotion c now s) :=
  (updateAlarm_step c now _ _ _ s).keepsRefs.trans (autoHome_step c now _ _).keepsRefs

theorem commandCallback_keepsRefs (now : Time) (cmd : String) (s : State) :
    KeepsRefs s (commandCallback c now cmd s) := by
  unfold commandCallback
  split
  · exact .refl s
  have hstop : KeepsRefs s (cancelResume { s with mode := .manual }) :=
    (KeepsRefs.refl s).of_manual (by simp [cancelResume]) rfl rfl rfl
  dsimp only
  split
  · exact hstop.trans (sendVelocity_keepsRefs ..)
  split
  · exact hstop.trans (sendVelocity_keepsRefs ..)
  · exact hstop.trans (sendVelocity_keepsRefs ..)

theorem velocityCmdCallback_keepsRefs (now : Time) (rpm : Int16) (s : State) :
    KeepsRefs s (velocityCmdCallback c now rpm s) := by
  have hstop : KeepsRefs s (cancelResume { s with mode := .manual }) :=
    (KeepsRefs.refl s).of_manual (by simp [cancelResume]) rfl rfl rfl
  exact hstop.trans (sendVelocity_keepsRefs ..)

theorem positionCmdCallback_keepsRefs (target : Int32) (s : State) :
    KeepsRefs s (positionCmdCallback c target s) := by
  unfold positionCmdCallback
  split
  · exact .refl s
  split
  · exact .refl s
  · exact (KeepsRefs.refl s).of_manual (by simp [sendPosition, sendFrame]) rfl rfl rfl

theorem incPositionCmdCallback_keepsRefs (inc : Int32) (s : State) :
    KeepsRefs s (incPositionCmdCallback c inc s) := by
  unfold incPositionCmdCallback
  split
  · exact .refl s
  · exact (KeepsRefs.refl s).of_manual (by simp [sendIncPosition, sendFrame]) rfl rfl rfl

theorem homeCallback_keepsRefs (now : Time) (start : Bool) (s : State) :
    KeepsRefs s (homeCallback c now start s) := by
  cases start with
  | true =>
      rw [homeCallback_true]
      split
      · exact .refl s
      · exact homingStarted_keepsRefs now s
  | false =>
      unfold homeCallback
      have hcancel : KeepsRefs s (cancelResume { s with pendingHome := false }) :=
        (KeepsRefs.refl s).congr rfl rfl rfl rfl rfl rfl
      simp only [Bool.false_eq_true, not_false_eq_true, if_true]
      split
      · have hstop : KeepsRefs s
            { cancelResume { s with pendingHome := false } with mode := .manual } :=
          hcancel.of_manual (by simp) rfl rfl rfl
        exact hstop.trans (sendVelocity_keepsRefs ..)
      · exact hcancel

theorem requestAlarmReset_keepsRefs (now : Time) (manual : Bool) (s : State) :
    KeepsRefs s (requestAlarmReset c now manual s) :=
  (requestAlarmReset_step c now manual s).keepsRefs

theorem resetCallback_keepsRefs (now : Time) (on : Bool) (s : State) :
    KeepsRefs s (resetCallback c now on s) := by
  unfold resetCallback
  split
  · exact .refl s
  have hclear : KeepsRefs s { s with
      alarmResetAttempts := 0, alarmResetExhausted := false, resumeCycles := 0 } :=
    (KeepsRefs.refl s).congr rfl rfl rfl rfl rfl rfl
  dsimp only
  split
  · exact hclear.congr rfl rfl rfl rfl rfl rfl
  · exact hclear.trans (requestAlarmReset_keepsRefs ..)

/-- A callback other than a poll sets no reference. -/
theorem step_keepsRefs (s : State) {e : Event}
    (he : ∀ rxNow now frames, e ≠ .poll rxNow now frames) : KeepsRefs s (step c s e) := by
  have hclear : KeepsRefs s { s with tx := [] } := (KeepsRefs.refl s).congr rfl rfl rfl rfl rfl rfl
  unfold step
  cases e with
  | command now cmd => exact hclear.trans (commandCallback_keepsRefs ..)
  | velocityCmd now rpm => exact hclear.trans (velocityCmdCallback_keepsRefs ..)
  | positionCmd now target =>
      dsimp only [callback]
      split
      · exact hclear.trans (positionCmdCallback_keepsRefs ..)
      · exact hclear
  | incPositionCmd now inc =>
      dsimp only [callback]
      split
      · exact hclear.trans (incPositionCmdCallback_keepsRefs ..)
      · exact hclear
  | home now start =>
      dsimp only [callback]
      split
      · exact hclear.trans (homeCallback_keepsRefs ..)
      · exact hclear
  | reset now on => exact hclear.trans (resetCallback_keepsRefs ..)
  | poll rxNow now frames => exact absurd rfl (he rxNow now frames)

/-- The motion stage sets the homing reference, or compares the position with
the one that goes on counting. -/
theorem updateMotion_homing (hset : ¬ SetsHoming c now pos fresh di s)
    (hmode : (updateMotion c now pos fresh di s).mode = .homing)
    (htrack : (updateMotion c now pos fresh di s).stallTracking = true) :
    ComparesHoming c now fresh di s ∧ wordNear pos s.stallRefPos c.homeStallCounts = true ∧
      (updateMotion c now pos fresh di s).stallRefPos = s.stallRefPos := by
  rw [← motionWith_wordNear] at hmode htrack ⊢
  cases hs : s.mode with
  | manual => simp [motionWith, hs] at hmode
  | position =>
      simp only [motionWith, hs] at hmode
      split at hmode <;> simp_all
  | homing =>
      simp only [motionWith, hs] at hmode htrack ⊢
      have htime : ¬ c.homeTimeoutSec < now - s.homeStart := by
        intro htime
        simp [homingWith, htime] at hmode
      have hlow : ¬ (c.useLimitSwitchForHome = true ∧ atLowerLimit c di fresh = true) := by
        intro hlow
        simp [homingWith, htime, hlow, finishHoming_eq] at hmode
      have hfresh : fresh = true := by
        by_contra hfresh
        simp [homingWith, htime, hlow, hfresh] at htrack
      obtain ⟨htracking, hnear⟩ : s.stallTracking = true ∧
          wordNear pos s.stallRefPos c.homeStallCounts = true := by
        by_contra hno
        apply hset
        refine ⟨hs, htime, hlow, hfresh, ?_⟩
        cases htracking : s.stallTracking
        · exact .inl rfl
        · exact .inr (by simpa [htracking] using hno)
      have hcompares : ComparesHoming c now fresh di s := ⟨hs, htime, hlow, hfresh, htracking⟩
      refine ⟨hcompares, hnear, ?_⟩
      rw [homingWith_stallRefPos hcompares, if_pos hnear]

/-- The motion stage sets no reference of a command. -/
theorem updateMotion_manual
    (hvalid : (updateMotion c now pos fresh di s).velRefValid = true) :
    s.velRefValid = true ∧ (updateMotion c now pos fresh di s).velRefPos = s.velRefPos ∧
      (updateMotion c now pos fresh di s).lastVelCmd = s.lastVelCmd := by
  have hstep := updateMotion_step c now pos fresh di s
  revert hvalid hstep
  generalize updateMotion c now pos fresh di s = t
  intro hvalid hstep
  cases hstep with
  | idle => exact ⟨hvalid, rfl, rfl⟩
  | reached => exact ⟨hvalid, rfl, rfl⟩
  | homing _ h =>
      cases h with
      | timeout => exact (sendVelocity_keepsRefs c now 0 s).manual hvalid
      | limit =>
          rw [finishHoming_eq] at hvalid ⊢
          exact (sendVelocity_keepsRefs c now 0 s).manual hvalid
      | unheard => exact (sendVelocity_keepsRefs c now s.homeDirSpeed s).manual hvalid
      | moving => exact (sendVelocity_keepsRefs c now s.homeDirSpeed s).manual hvalid
      | stalled =>
          rw [finishHoming_eq] at hvalid ⊢
          have hsend := (sendVelocity_keepsRefs c now s.homeDirSpeed s).trans
            (sendVelocity_keepsRefs c now 0 _)
          exact hsend.manual hvalid
      | waiting => exact (sendVelocity_keepsRefs c now s.homeDirSpeed s).manual hvalid

/-- The release stage leaves homing alone. -/
theorem releaseIfBlocked_homing (c : Config) (now : Time) (pos : Int32) (fresh : Bool)
    (di : UInt8) (s : State) :
    (releaseIfBlocked c now pos fresh di s).mode = s.mode ∧
      (releaseIfBlocked c now pos fresh di s).stallTracking = s.stallTracking ∧
      (releaseIfBlocked c now pos fresh di s).stallRefPos = s.stallRefPos := by
  have hstep := releaseIfBlocked_step c now pos fresh di s
  revert hstep
  generalize releaseIfBlocked c now pos fresh di s = t
  intro hstep
  cases hstep with
  | idle => exact ⟨rfl, rfl, rfl⟩
  | watch => exact ⟨rfl, rfl, rfl⟩
  | release =>
      rw [sendVelocity_eq]
      exact ⟨rfl, rfl, rfl⟩

/-- The release stage sets the reference of the command, compares the position
with it, or passes over it. -/
theorem releaseIfBlocked_manual (hfresh : fresh = true)
    (harmed : s.velRefValid = true → c.autoReleaseOnStop = true ∧ s.lastVelCmd ≠ 0)
    (hset : ¬ SetsManual c now pos fresh di s)
    (hvalid : (releaseIfBlocked c now pos fresh di s).velRefValid = true) :
    s.velRefValid = true ∧ (releaseIfBlocked c now pos fresh di s).velRefPos = s.velRefPos ∧
      (releaseIfBlocked c now pos fresh di s).lastVelCmd = s.lastVelCmd ∧
      ((ComparesManual c now fresh di s ∧ wordNear pos s.velRefPos c.homeStallCounts = true) ∨
        SkipsManual c now fresh di s) := by
  have hsend : (sendVelocity c now 0 s).velRefValid = true → s.lastVelCmd = 0 := by
    intro h
    exact (sendVelocity_manual now 0 s h).2.symm
  rw [← releaseWith_wordNear] at hvalid ⊢
  unfold releaseWith at hvalid ⊢
  split at hvalid
  · rename_i hskip
    rw [if_pos hskip]
    obtain ⟨hauto, hvel⟩ := harmed hvalid
    have hmode : s.mode ≠ .manual := by simpa [hauto, hvel, hfresh] using hskip
    exact ⟨hvalid, rfl, rfl, .inr ⟨hfresh, hvalid, .inl hmode⟩⟩
  rename_i hskip
  rw [if_neg hskip]
  simp only [not_or, not_not] at hskip
  obtain ⟨hauto, hmode, hvel, -⟩ := hskip
  split at hvalid
  · exact absurd (hsend hvalid) hvel
  rename_i hlow
  rw [if_neg hlow]
  split at hvalid
  · rename_i hgrace
    rw [if_pos hgrace]
    exact ⟨hvalid, rfl, rfl, .inr ⟨hfresh, hvalid, .inr ⟨hlow, hgrace⟩⟩⟩
  rename_i hgrace
  rw [if_neg hgrace]
  split at hvalid
  · rename_i hmove
    refine absurd ⟨hauto, hmode, hvel, hfresh, hlow, hgrace, ?_⟩ hset
    simpa using hmove
  rename_i hmove
  rw [if_neg hmove]
  split at hvalid
  · exact absurd (hsend hvalid) hvel
  rename_i hstop
  rw [if_neg hstop]
  simp only [not_or, not_not] at hmove
  exact ⟨hvalid, rfl, rfl, .inl ⟨⟨hauto, hmode, hvel, hfresh, hlow, hgrace, hvalid⟩, hmove.2⟩⟩

theorem SetsManual.sets (h : SetsManual c now pos fresh di s) :
    releaseIfBlocked c now pos fresh di s =
      { s with velRefPos := pos, velRefTime := now, velRefValid := true } := by
  obtain ⟨hauto, hmode, hvel, hfresh, hlow, hgrace, hmove⟩ := h
  rw [← releaseWith_wordNear, releaseWith, if_neg (by simp [hauto, hmode, hvel, hfresh]),
    if_neg hlow, if_neg hgrace, if_pos (by simpa using hmove)]

/-- The positions that fresh polls used since the reference of a homing run was
set, and since the reference of a manual command was. -/
structure StallLog where
  homing : List Int32 := []
  manual : List Int32 := []
  deriving DecidableEq, Repr

/-- The log after a callback. -/
def StallLog.after (c : Config) (o : Observed) (e : Event) (log : StallLog) : StallLog :=
  match e with
  | .poll rxNow now frames =>
      let r := polled c rxNow frames o.driver
      let pos := r.rx.position
      let fresh := isFresh c now r.rx
      if fresh then
        { homing :=
            if SetsHoming c now pos fresh r.rx.diByte (beforeMotion c now r) then []
            else log.homing ++ [pos]
          manual :=
            if SetsManual c now pos fresh r.rx.diByte (beforeRelease c now r) then []
            else log.manual ++ [pos] }
      else log
  | _ => log

/-- A position frame was received after the reference time. -/
def FrameLog.HeardSince (log : FrameLog) (ref : Time) : Prop :=
  ∃ rxTime, log.newest = some rxTime ∧ ref < rxTime

instance (log : FrameLog) (ref : Time) : Decidable (log.HeardSince ref) :=
  decidable_of_iff (log.newest.any fun rxTime => ref < rxTime) (by
    cases hnew : log.newest <;> simp [FrameLog.HeardSince, hnew])

/-- The driver with both logs. -/
def stallStep (c : Config) : Observed × StallLog → Event → Option (Observed × StallLog) :=
  observe (total (observedStep c)) (StallLog.after c)

theorem stallStep_eq (ol : Observed × StallLog) (e : Event) :
    stallStep c ol e = some (observedStep c ol.1 e, ol.2.after c ol.1 e) := rfl

/-- A poll that infers a stall has heard of the lift since the reference was
set, and all that it heard lies near the reference. -/
def StallsAreHeard (c : Config) (ol : Observed × StallLog) (e : Event) (ol' : Observed × StallLog) :
    Prop :=
  match e with
  | .poll rxNow now frames =>
      let r := polled c rxNow frames ol.1.driver
      let pos := r.rx.position
      let fresh := isFresh c now r.rx
      let m := beforeMotion c now r
      let w := beforeRelease c now r
      (HomingStall c now pos fresh r.rx.diByte m →
        ol'.1.log.HeardSince m.stallSince ∧
          ∀ p ∈ ol'.2.homing, exactNear p m.stallRefPos c.homeStallCounts = true) ∧
      (ReleaseStall c now pos fresh r.rx.diByte w →
        ol'.1.log.HeardSince w.velRefTime ∧
          ∀ p ∈ ol'.2.manual, exactNear p w.velRefPos c.homeStallCounts = true)
  | _ => True

/-- At a poll: what is compared is comparable, and a position that the release
stage passes over lies near the reference that it keeps. -/
def WatchesFairly (c : Config) (ol : Observed × StallLog) (e : Event) : Prop :=
  match e with
  | .poll rxNow now frames =>
      let r := polled c rxNow frames ol.1.driver
      let pos := r.rx.position
      let fresh := isFresh c now r.rx
      let m := beforeMotion c now r
      let w := beforeRelease c now r
      (ComparesHoming c now fresh r.rx.diByte m →
        Comparable pos m.stallRefPos c.homeStallCounts) ∧
      (ComparesManual c now fresh r.rx.diByte w →
        Comparable pos w.velRefPos c.homeStallCounts) ∧
      (SkipsManual c now fresh r.rx.diByte w →
        exactNear pos w.velRefPos c.homeStallCounts = true)
  | _ => True

instance (ps : List Int32) (ref tol : Int32) :
    Decidable (∀ p ∈ ps, exactNear p ref tol = true) := ps.decidableBAll _

instance (ol : Observed × StallLog) (e : Event) (ol' : Observed × StallLog) :
    Decidable (StallsAreHeard c ol e ol') :=
  match e with
  | .poll _ _ _ => inferInstanceAs (Decidable ((_ → _ ∧ _) ∧ (_ → _ ∧ _)))
  | .command _ _ | .velocityCmd _ _ | .positionCmd _ _ | .incPositionCmd _ _ | .home _ _
  | .reset _ _ => inferInstanceAs (Decidable True)

instance (ol : Observed × StallLog) (e : Event) : Decidable (WatchesFairly c ol e) :=
  match e with
  | .poll _ _ _ => inferInstanceAs (Decidable ((_ → _) ∧ (_ → _) ∧ (_ → _)))
  | .command _ _ | .velocityCmd _ _ | .positionCmd _ _ | .incPositionCmd _ _ | .home _ _
  | .reset _ _ => inferInstanceAs (Decidable True)

/-- A reference that counts is near every position used since it was set, and
a reference of a command belongs to a watched, moving command. -/
structure Watched (c : Config) (ol : Observed × StallLog) : Prop where
  explains : Explains ol.1.log ol.1.driver.rx
  homing : ol.1.driver.mode = .homing → ol.1.driver.stallTracking = true →
    ∀ p ∈ ol.2.homing, exactNear p ol.1.driver.stallRefPos c.homeStallCounts = true
  manual : ol.1.driver.velRefValid = true →
    ∀ p ∈ ol.2.manual, exactNear p ol.1.driver.velRefPos c.homeStallCounts = true
  armed : ol.1.driver.velRefValid = true →
    c.autoReleaseOnStop = true ∧ ol.1.driver.lastVelCmd ≠ 0

theorem start_watched (c : Config) : Watched c (⟨start c, {}⟩, {}) := by
  have hstart : (start c).rx = {} ∧ (start c).velRefValid = false := by
    unfold start
    dsimp only
    split <;> exact ⟨rfl, rfl⟩
  refine ⟨?_, by simp, by simp, ?_⟩
  · rw [hstart.1]
    exact ⟨by simp, by simp, by simp⟩
  · intro hvalid
    rw [hstart.2] at hvalid
    cases hvalid

/-- A callback that sets no reference and uses no position. -/
theorem Watched.of_keepsRefs {ol : Observed × StallLog} {o : Observed} (h : Watched c ol)
    (hexplains : Explains o.log o.driver.rx) (hkeeps : KeepsRefs ol.1.driver o.driver) :
    Watched c (o, ol.2) := by
  refine ⟨hexplains, ?_, ?_, ?_⟩
  · intro hmode htrack
    obtain ⟨hmode, htrack, href⟩ := hkeeps.homing hmode htrack
    rw [href]
    exact h.homing hmode htrack
  · intro hvalid
    obtain ⟨hvalid, href, -⟩ := hkeeps.manual hvalid
    rw [href]
    exact h.manual hvalid
  · intro hvalid
    obtain ⟨hvalid, -, hlast⟩ := hkeeps.manual hvalid
    rw [hlast]
    exact h.armed hvalid

section Poll

variable {ol : Observed × StallLog} {frames : List RxFrame}

theorem polled_keepsRefs (c : Config) (rxNow now : Time) (frames : List RxFrame) (s : State) :
    KeepsRefs s (beforeMotion c now (polled c rxNow frames s)) := by
  have hpolled : KeepsRefs s (polled c rxNow frames s) := by
    unfold polled
    rw [pollReceive_eq]
    exact (KeepsRefs.refl s).congr rfl rfl rfl rfl rfl rfl
  exact hpolled.trans (beforeMotion_keepsRefs now _)

theorem beforeRelease_manual {r : State} (hkeeps : KeepsRefs s (beforeMotion c now r))
    (hvalid : (beforeRelease c now r).velRefValid = true) :
    s.velRefValid = true ∧ (beforeRelease c now r).velRefPos = s.velRefPos ∧
      (beforeRelease c now r).lastVelCmd = s.lastVelCmd := by
  obtain ⟨hvalid, href, hlast⟩ := updateMotion_manual hvalid
  obtain ⟨hs, href', hlast'⟩ := hkeeps.manual hvalid
  exact ⟨hs, href.trans href', hlast.trans hlast'⟩

/-- While the homing reference is compared with, everything logged for it is
near. -/
theorem Watched.homing_near {r : State} (h : Watched c ol)
    (hr : polled c rxNow frames ol.1.driver = r)
    (hfair : WatchesFairly c ol (.poll rxNow now frames))
    (hcompares : ComparesHoming c now (isFresh c now r.rx) r.rx.diByte (beforeMotion c now r))
    (hnear : wordNear r.rx.position (beforeMotion c now r).stallRefPos c.homeStallCounts = true) :
    ∀ p ∈ (ol.2.after c ol.1 (.poll rxNow now frames)).homing,
      exactNear p (beforeMotion c now r).stallRefPos c.homeStallCounts = true := by
  subst hr
  have hcomparable := hfair.1 hcompares
  obtain ⟨hmode, -, -, hfresh, htrack⟩ := hcompares
  obtain ⟨hmode, htracking, href⟩ :=
    (polled_keepsRefs c rxNow now frames ol.1.driver).homing hmode htrack
  intro p hp
  dsimp only [StallLog.after] at hp
  rw [if_pos hfresh, if_neg (by simp [SetsHoming, htrack, hnear])] at hp
  rcases List.mem_append.mp hp with hold | hnew
  · rw [href]
    exact h.homing hmode htracking p hold
  · obtain rfl := List.mem_singleton.mp hnew
    rw [← wordNear_eq_exactNear_iff.mpr hcomparable]
    exact hnear

/-- While the reference of a command is held and not set anew, everything
logged for it is near. -/
theorem Watched.manual_near {r : State} (h : Watched c ol)
    (hr : polled c rxNow frames ol.1.driver = r)
    (hfair : WatchesFairly c ol (.poll rxNow now frames))
    (hfresh : isFresh c now r.rx = true)
    (hvalid : (beforeRelease c now r).velRefValid = true)
    (hkeep : ¬ SetsManual c now r.rx.position (isFresh c now r.rx) r.rx.diByte
      (beforeRelease c now r))
    (hwatch : (ComparesManual c now (isFresh c now r.rx) r.rx.diByte (beforeRelease c now r) ∧
        wordNear r.rx.position (beforeRelease c now r).velRefPos c.homeStallCounts = true) ∨
      SkipsManual c now (isFresh c now r.rx) r.rx.diByte (beforeRelease c now r)) :
    ∀ p ∈ (ol.2.after c ol.1 (.poll rxNow now frames)).manual,
      exactNear p (beforeRelease c now r).velRefPos c.homeStallCounts = true := by
  subst hr
  obtain ⟨hs, href, -⟩ :=
    beforeRelease_manual (polled_keepsRefs c rxNow now frames ol.1.driver) hvalid
  intro p hp
  dsimp only [StallLog.after] at hp
  rw [if_pos hfresh, if_neg hkeep] at hp
  rcases List.mem_append.mp hp with hold | hnew
  · rw [href]
    exact h.manual hs p hold
  · obtain rfl := List.mem_singleton.mp hnew
    rcases hwatch with ⟨hcompares, hnear⟩ | hskips
    · rw [← wordNear_eq_exactNear_iff.mpr (hfair.2.1 hcompares)]
      exact hnear
    · exact hfair.2.2 hskips

/-- A stale poll logs nothing, and no reference counts that did not before. -/
theorem stale_keepsRefs {r : State} (hkeeps : KeepsRefs s (beforeMotion c now r))
    (hstale : isFresh c now r.rx = false) : KeepsRefs s (pollDecide c now r) := by
  have hskip : pollDecide c now r = beforeRelease c now r := by
    have hrelease : releaseIfBlocked c now r.rx.position (isFresh c now r.rx) r.rx.diByte
        (beforeRelease c now r) = beforeRelease c now r := by
      unfold releaseIfBlocked
      simp [hstale]
    exact hrelease
  rw [hskip]
  refine ⟨?_, beforeRelease_manual hkeeps⟩
  intro hmode htrack
  obtain ⟨hcompares, -, href⟩ :=
    updateMotion_homing (by simp [SetsHoming, hstale]) hmode htrack
  obtain ⟨-, -, -, hfresh, -⟩ := hcompares
  rw [hstale] at hfresh
  cases hfresh

/-- A fair poll keeps the logged positions near the references. -/
theorem poll_watched (h : Watched c ol) (hfair : WatchesFairly c ol (.poll rxNow now frames)) :
    Watched c (observedStep c ol.1 (.poll rxNow now frames),
      ol.2.after c ol.1 (.poll rxNow now frames)) := by
  have hexplains := observedStep_explains h.explains (c := c) (.poll rxNow now frames)
  obtain ⟨r, hr⟩ : ∃ r, polled c rxNow frames ol.1.driver = r := ⟨_, rfl⟩
  have hkeeps := polled_keepsRefs c rxNow now frames ol.1.driver
  rw [hr] at hkeeps
  have hdriver : (observedStep c ol.1 (.poll rxNow now frames)).driver = pollDecide c now r := by
    rw [← hr]
    rfl
  cases hfresh : isFresh c now r.rx with
  | false =>
      have hlog : ol.2.after c ol.1 (.poll rxNow now frames) = ol.2 := by
        dsimp only [StallLog.after]
        rw [hr, if_neg (by simp [hfresh])]
      rw [hlog]
      apply h.of_keepsRefs hexplains
      rw [hdriver]
      exact stale_keepsRefs hkeeps hfresh
  | true =>
      have hrelease : pollDecide c now r = releaseIfBlocked c now r.rx.position
          (isFresh c now r.rx) r.rx.diByte (beforeRelease c now r) := rfl
      have harmed : (beforeRelease c now r).velRefValid = true →
          c.autoReleaseOnStop = true ∧ (beforeRelease c now r).lastVelCmd ≠ 0 := by
        intro hvalid
        obtain ⟨hs, -, hlast⟩ := beforeRelease_manual hkeeps hvalid
        rw [hlast]
        exact h.armed hs
      obtain ⟨hmode', htrack', href'⟩ := releaseIfBlocked_homing c now r.rx.position
        (isFresh c now r.rx) r.rx.diByte (beforeRelease c now r)
      refine ⟨hexplains, ?_, ?_, ?_⟩
      · rw [hdriver, hrelease, hmode', htrack', href']
        intro hmode htrack
        by_cases hset : SetsHoming c now r.rx.position (isFresh c now r.rx) r.rx.diByte
            (beforeMotion c now r)
        · dsimp only [StallLog.after]
          rw [hr, if_pos hfresh, if_pos hset]
          simp
        · obtain ⟨hcompares, hnear, href⟩ := updateMotion_homing hset hmode htrack
          have hnearby := h.homing_near hr hfair hcompares hnear
          rw [show (beforeRelease c now r).stallRefPos = _ from href]
          exact hnearby
      · rw [hdriver, hrelease]
        intro hvalid
        by_cases hset : SetsManual c now r.rx.position (isFresh c now r.rx) r.rx.diByte
            (beforeRelease c now r)
        · dsimp only [StallLog.after]
          rw [hr, if_pos hfresh, if_pos hset]
          simp
        · obtain ⟨hw, href, -, hwatch⟩ := releaseIfBlocked_manual hfresh harmed hset hvalid
          rw [href]
          exact h.manual_near hr hfair hfresh hw hset hwatch
      · rw [hdriver, hrelease]
        intro hvalid
        by_cases hset : SetsManual c now r.rx.position (isFresh c now r.rx) r.rx.diByte
            (beforeRelease c now r)
        · rw [hset.sets]
          exact ⟨hset.1, hset.2.2.1⟩
        · obtain ⟨hw, -, hlast, -⟩ := releaseIfBlocked_manual hfresh harmed hset hvalid
          rw [hlast]
          exact harmed hw

/-- Every fair callback keeps the logged positions near the references. -/
theorem stallStep_watched {ol ol' : Observed × StallLog} {e : Event} (h : Watched c ol)
    (hfair : WatchesFairly c ol e) (hstep : stallStep c ol e = some ol') : Watched c ol' := by
  rw [stallStep_eq] at hstep
  obtain rfl := Option.some.inj hstep
  cases e with
  | poll rxNow now frames => exact poll_watched h hfair
  | _ =>
      refine h.of_keepsRefs (observedStep_explains h.explains _) ?_
      dsimp only [observedStep]
      apply step_keepsRefs
      simp

end Poll

/-- Data that is younger than a duration was received after every time that
lies at least that duration back. -/
theorem heardSince_of_fresh {log : FrameLog} {d : RxData} {ref wait : Time}
    (h : Explains log d) (hfresh : isFresh c now d = true) (hwait : c.timeoutSec ≤ wait)
    (hlong : wait ≤ now - ref) : log.HeardSince ref := by
  obtain ⟨rxTime, hnew, hyoung⟩ := h.fresh_iff.mp hfresh
  refine ⟨rxTime, hnew, ?_⟩
  linarith

theorem poll_stallsAreHeard {ol : Observed × StallLog} {frames : List RxFrame}
    (hhome : c.timeoutSec ≤ c.homeStallSec) (hrelease : c.timeoutSec ≤ c.releaseStopSec)
    (h : Watched c ol) (hfair : WatchesFairly c ol (.poll rxNow now frames)) :
    StallsAreHeard c ol (.poll rxNow now frames)
      (observedStep c ol.1 (.poll rxNow now frames),
        ol.2.after c ol.1 (.poll rxNow now frames)) := by
  obtain ⟨r, hr⟩ : ∃ r, polled c rxNow frames ol.1.driver = r := ⟨_, rfl⟩
  have hexplains : Explains (observedStep c ol.1 (.poll rxNow now frames)).log r.rx := by
    have hold : Explains ol.1.log ({ ol.1.driver with tx := [] } : State).rx := h.explains
    rw [← hr]
    exact pollReceive_explains hold rxNow now frames
  dsimp only [StallsAreHeard]
  rw [hr]
  refine ⟨?_, ?_⟩
  · rintro ⟨hcompares, hnear, -, hstall⟩
    exact ⟨heardSince_of_fresh hexplains hcompares.2.2.2.1 hhome hstall,
      h.homing_near hr hfair hcompares hnear⟩
  · rintro ⟨hcompares, hnear, hstop⟩
    have hcompares' := hcompares
    obtain ⟨-, -, -, hfresh, -, -, hvalid⟩ := hcompares'
    have hkeep : ¬ SetsManual c now r.rx.position (isFresh c now r.rx) r.rx.diByte
        (beforeRelease c now r) := by
      simp [SetsManual, hvalid, hnear]
    exact ⟨heardSince_of_fresh hexplains hfresh hrelease hstop,
      h.manual_near hr hfair hfresh hvalid hkeep (.inl ⟨hcompares, hnear⟩)⟩

/-- A homing run whose replies stop above the limit. -/
def heardHoming : List Event :=
  [.home 1 true, .poll 2 2 [monitorReply 90 4], .poll 3 3 [monitorReply 91 4],
    .poll 4 4 [monitorReply 90 4]]

/-- A homing run with one reply above the limit, and no reply after it. -/
def silentHoming : List Event :=
  [.home 1 true, .poll 2 2 [monitorReply 90 4], .poll 4 4 []]

/-- The defaults, with data that counts as fresh for three seconds. -/
def patientConfig : Config :=
  Config.ofParameters true { upSpeedRpm := 500, timeoutSec := 3 }

end PolishingRobot.Lift
