import Mathlib.Data.List.Induction
import PolishingRobot.Lift.Frame

/-!
# The mode invariant

An active alarm keeps the driver in manual mode, a pending resume exists only
during an alarm and is never a homing run, and a homing run has consumed the
deferred start-up homing. Each stage and each callback keeps this, so every
run does.
-/

namespace PolishingRobot.Lift

variable {c : Config} {now : Time} {pos : Int32} {fresh : Bool} {di st : UInt8} {s t : State}

/-- What the mode, the alarm flag and the pending resume say about each other.
Data has been received only through an open port. -/
structure Consistent (c : Config) (s : State) : Prop where
  manual_of_alarm : s.alarmActive = true → s.mode = .manual
  alarm_of_resume : s.resumeMode ≠ .manual → s.alarmActive = true
  resume_ne_homing : s.resumeMode ≠ .homing
  claimed_of_homing : s.mode = .homing → s.pendingHome = false
  open_of_data : s.rx.gotData = true → c.serialOpen = true

/-- Steps that only change other members keep the invariant. -/
theorem Consistent.congr (h : Consistent c s) (halarm : t.alarmActive = s.alarmActive)
    (hmode : t.mode = s.mode) (hresume : t.resumeMode = s.resumeMode)
    (hpending : t.pendingHome = s.pendingHome) (hrx : t.rx = s.rx) : Consistent c t where
  manual_of_alarm := by
    rw [halarm, hmode]
    exact h.manual_of_alarm
  alarm_of_resume := by
    rw [halarm, hresume]
    exact h.alarm_of_resume
  resume_ne_homing := by
    rw [hresume]
    exact h.resume_ne_homing
  claimed_of_homing := by
    rw [hmode, hpending]
    exact h.claimed_of_homing
  open_of_data := by
    rw [hrx]
    exact h.open_of_data

/-- Without an alarm nothing is pending. -/
theorem Consistent.resume_manual (h : Consistent c s) (ha : s.alarmActive = false) :
    s.resumeMode = .manual := by
  by_contra hne
  rw [h.alarm_of_resume hne] at ha
  cases ha

/-- Homing runs without an alarm. -/
theorem Consistent.quiet_of_homing (h : Consistent c s) (hmode : s.mode = .homing) :
    s.alarmActive = false := by
  by_contra ha
  rw [h.manual_of_alarm (by simpa using ha)] at hmode
  cases hmode

/-- Fresh data has come through an open port. -/
theorem Consistent.open_of_fresh (hs : Consistent c s) (h : isFresh c now s.rx = true) :
    c.serialOpen = true := by
  apply hs.open_of_data
  simp only [isFresh, Bool.and_eq_true] at h
  exact h.1

/-- Without an alarm and without a resume every mode is allowed. -/
theorem Consistent.of_quiet (ha : t.alarmActive = false) (hr : t.resumeMode = .manual)
    (hp : t.mode = .homing → t.pendingHome = false)
    (hrx : t.rx.gotData = true → c.serialOpen = true) : Consistent c t where
  manual_of_alarm := by simp [ha]
  alarm_of_resume := by simp [hr]
  resume_ne_homing := by simp [hr]
  claimed_of_homing := hp
  open_of_data := hrx

/-- In manual mode with nothing pending the alarm flag is free. -/
theorem Consistent.of_manual (hm : t.mode = .manual) (hr : t.resumeMode = .manual)
    (hrx : t.rx.gotData = true → c.serialOpen = true) : Consistent c t where
  manual_of_alarm := fun _ => hm
  alarm_of_resume := by simp [hr]
  resume_ne_homing := by simp [hr]
  claimed_of_homing := by simp [hm]
  open_of_data := hrx

theorem start_consistent (c : Config) : Consistent c (start c) := by
  unfold start
  dsimp only
  split
  · exact .of_manual rfl rfl (by simp [sendPositionVel, sendFrame])
  · exact .of_manual rfl rfl (by simp)

theorem sendVelocity_consistent (h : Consistent c s) (now : Time) (rpm : Int16) :
    Consistent c (sendVelocity c now rpm s) := by
  rw [sendVelocity_eq]
  exact h.congr rfl rfl rfl rfl rfl

theorem foldl_handleFrame_gotData (rxNow : Time) (frames : List RxFrame) (d : RxData)
    (h : (frames.foldl (handleFrame rxNow) d).gotData = true) :
    d.gotData = true ∨ frames ≠ [] := by
  cases frames with
  | nil => exact .inl h
  | cons f fs => exact .inr (by simp)

theorem pollReceive_consistent (h : Consistent c s) (rxNow : Time) (frames : List RxFrame) :
    Consistent c (pollReceive c rxNow frames s) := by
  rw [pollReceive_eq]
  refine ⟨h.manual_of_alarm, h.alarm_of_resume, h.resume_ne_homing, h.claimed_of_homing, ?_⟩
  intro hgot
  rcases foldl_handleFrame_gotData rxNow _ _ hgot with hold | hnew
  · exact h.open_of_data hold
  · by_contra hclosed
    simp [hclosed] at hnew

theorem AlarmResetStep.consistent {manual : Bool} (h : AlarmResetStep c now manual s t)
    (hs : Consistent c s) : Consistent c t := by
  cases h with
  | exhausted => exact hs.congr rfl rfl rfl rfl rfl
  | sent =>
      dsimp only [sendAlarmReset, sendFrame]
      exact (sendVelocity_consistent hs now 0).congr rfl rfl rfl rfl rfl

theorem AutoResetStep.consistent (h : AutoResetStep c now s t) (hs : Consistent c s) :
    Consistent c t := by
  cases h with
  | idle => exact hs
  | retry _ _ _ _ h => exact h.consistent hs

theorem raiseAlarm_consistent (hs : Consistent c s) (now : Time) :
    Consistent c (raiseAlarm c now s) := by
  rw [raiseAlarm_eq]
  refine ⟨fun _ => rfl, fun _ => rfl, ?_, by simp, ?_⟩
  · dsimp only
    split
    · simp
    · exact hs.resume_ne_homing
  · simpa using hs.open_of_data

theorem ResumeStep.consistent (h : ResumeStep c now pos (clearAlarm s) t)
    (hs : Consistent c s) : Consistent c t := by
  cases h with
  | nothing hr => exact .of_quiet rfl hr hs.claimed_of_homing hs.open_of_data
  | givenUp => exact .of_quiet rfl rfl hs.claimed_of_homing hs.open_of_data
  | homing hr => exact absurd hr hs.resume_ne_homing
  | absolute => exact .of_quiet rfl rfl (by simp) hs.open_of_data
  | relative => exact .of_quiet rfl rfl (by simp) hs.open_of_data

theorem AlarmStep.consistent (h : AlarmStep c now st fresh pos s t) (hs : Consistent c s) :
    Consistent c t := by
  cases h with
  | stale => exact hs
  | quiet => exact hs
  | cleared _ _ _ h => exact h.consistent hs
  | raised _ _ _ h => exact h.consistent (raiseAlarm_consistent hs now)
  | standing _ _ _ h => exact h.consistent hs

theorem AutoHomeStep.consistent (h : AutoHomeStep c now fresh s t) (hs : Consistent c s) :
    Consistent c t := by
  cases h with
  | idle => exact hs
  | started _ _ ha => exact .of_quiet ha rfl (fun _ => rfl) hs.open_of_data

theorem finishHoming_consistent (hs : Consistent c s) (hmode : s.mode = .homing) (now : Time) :
    Consistent c (finishHoming c now s) := by
  rw [finishHoming_eq, sendVelocity_eq]
  exact .of_manual rfl (hs.resume_manual (hs.quiet_of_homing hmode)) hs.open_of_data

theorem HomingStep.consistent (h : HomingStep c now pos fresh di s t) (hs : Consistent c s)
    (hmode : s.mode = .homing) : Consistent c t := by
  have hv := sendVelocity_consistent hs now s.homeDirSpeed
  have hvmode : (sendVelocity c now s.homeDirSpeed s).mode = .homing := by
    rw [sendVelocity_eq]
    exact hmode
  cases h with
  | timeout =>
      rw [sendVelocity_eq]
      exact ⟨fun _ => rfl, hs.alarm_of_resume, hs.resume_ne_homing, by simp, hs.open_of_data⟩
  | limit => exact finishHoming_consistent hs hmode now
  | unheard => exact hv.congr rfl rfl rfl rfl rfl
  | moving => exact hv.congr rfl rfl rfl rfl rfl
  | stalled => exact finishHoming_consistent hv hvmode now
  | waiting => exact hv

theorem MotionStep.consistent (h : MotionStep c now pos fresh di s t) (hs : Consistent c s) :
    Consistent c t := by
  cases h with
  | idle => exact hs
  | homing hmode h => exact h.consistent hs hmode
  | reached =>
      exact ⟨fun _ => rfl, hs.alarm_of_resume, hs.resume_ne_homing, by simp, hs.open_of_data⟩

theorem ReleaseStep.consistent (h : ReleaseStep c now pos fresh di s t)
    (hs : Consistent c s) : Consistent c t := by
  cases h with
  | idle => exact hs
  | watch => exact hs.congr rfl rfl rfl rfl rfl
  | release => exact sendVelocity_consistent hs now 0

theorem AlarmResetStep.mode_eq {manual : Bool} (h : AlarmResetStep c now manual s t) :
    t.mode = s.mode := by
  cases h with
  | exhausted => rfl
  | sent =>
      dsimp only [sendAlarmReset, sendFrame]
      rw [sendVelocity_eq]

theorem AutoResetStep.mode_eq (h : AutoResetStep c now s t) : t.mode = s.mode := by
  cases h with
  | idle => rfl
  | retry _ _ _ _ h => exact h.mode_eq

/-- If homing runs after the alarm stage of fresh data, that stage saw no
alarm and did nothing. -/
theorem AlarmStep.of_homing (h : AlarmStep c now st fresh pos s t) (hs : Consistent c s)
    (hmode : t.mode = .homing) (hfresh : fresh = true) : t = s ∧ alarmBit st = false := by
  cases h with
  | stale hstale => rw [hfresh] at hstale; cases hstale
  | quiet _ hbit => exact ⟨rfl, hbit⟩
  | cleared _ _ hactive h =>
      have hmanual := hs.manual_of_alarm hactive
      have hclear : (clearAlarm s).mode = .manual := hmanual
      cases h with
      | nothing => rw [hclear] at hmode; cases hmode
      | givenUp => rw [hclear] at hmode; cases hmode
      | homing hr => exact absurd hr hs.resume_ne_homing
      | absolute => cases hmode
      | relative => cases hmode
  | raised _ _ _ h =>
      rw [h.mode_eq, raiseAlarm_eq] at hmode
      cases hmode
  | standing _ _ hactive h =>
      rw [h.mode_eq, hs.manual_of_alarm hactive] at hmode
      cases hmode

theorem pollDecide_consistent (hs : Consistent c s) (now : Time) :
    Consistent c (pollDecide c now s) := by
  have h₁ := (updateAlarm_step c now s.rx.statusByte (isFresh c now s.rx)
    s.rx.position s).consistent hs
  have h₂ := (autoHome_step c now (isFresh c now s.rx) _).consistent h₁
  have h₃ := (updateMotion_step c now s.rx.position (isFresh c now s.rx)
    s.rx.diByte _).consistent h₂
  exact (releaseIfBlocked_step c now _ _ _ _).consistent h₃

theorem homeCallback_consistent (hs : Consistent c s) (now : Time) (start : Bool) :
    Consistent c (homeCallback c now start s) := by
  cases start with
  | true =>
      rw [homeCallback_true]
      split
      · exact hs
      · rename_i h
        obtain ⟨ha, -⟩ := not_or.mp h
        exact .of_quiet (Bool.eq_false_iff.mpr ha) rfl (fun _ => rfl) hs.open_of_data
  | false =>
      simp only [homeCallback, Bool.false_eq_true, not_false_eq_true, if_true]
      split
      · rw [sendVelocity_eq]
        exact .of_manual rfl rfl hs.open_of_data
      · exact ⟨hs.manual_of_alarm, by simp [cancelResume], by simp [cancelResume],
          fun _ => rfl, hs.open_of_data⟩

theorem resetCallback_consistent (hs : Consistent c s) (now : Time) (on : Bool) :
    Consistent c (resetCallback c now on s) := by
  unfold resetCallback
  split
  · exact hs
  · dsimp only
    split
    · exact hs.congr rfl rfl rfl rfl rfl
    · exact (requestAlarmReset_step c now true _).consistent (hs.congr rfl rfl rfl rfl rfl)

theorem commandCallback_consistent (hs : Consistent c s) (now : Time) (cmd : String) :
    Consistent c (commandCallback c now cmd s) := by
  have hm : Consistent c (cancelResume { s with mode := .manual }) :=
    .of_manual rfl rfl hs.open_of_data
  unfold commandCallback
  split
  · exact hs
  · dsimp only
    split
    · exact sendVelocity_consistent hm now _
    · split
      · exact sendVelocity_consistent hm now _
      · exact sendVelocity_consistent hm now _

theorem positionCmdCallback_consistent (hs : Consistent c s) (target : Int32) :
    Consistent c (positionCmdCallback c target s) := by
  unfold positionCmdCallback
  split
  · exact hs
  · split
    · exact hs
    · rename_i ha
      have hmode : Mode.position ≠ .homing := by decide
      exact .of_quiet (Bool.eq_false_iff.mpr ha) rfl (fun h => absurd h hmode) hs.open_of_data

theorem incPositionCmdCallback_consistent (hs : Consistent c s) (inc : Int32) :
    Consistent c (incPositionCmdCallback c inc s) := by
  unfold incPositionCmdCallback
  split
  · exact hs
  · rename_i ha
    have hmode : Mode.position ≠ .homing := by decide
    exact .of_quiet (Bool.eq_false_iff.mpr ha) rfl (fun h => absurd h hmode) hs.open_of_data

/-- Every callback keeps the mode invariant. -/
theorem step_consistent (hs : Consistent c s) (e : Event) : Consistent c (step c s e) := by
  have h₀ : Consistent c { s with tx := [] } := hs.congr rfl rfl rfl rfl rfl
  cases e with
  | command now cmd => exact commandCallback_consistent h₀ now cmd
  | velocityCmd now rpm =>
      have hm : Consistent c (cancelResume { s with mode := .manual, tx := [] }) :=
        .of_manual rfl rfl hs.open_of_data
      exact sendVelocity_consistent hm now rpm
  | positionCmd now target =>
      dsimp only [step, callback]
      split
      · exact positionCmdCallback_consistent h₀ target
      · exact h₀
  | incPositionCmd now inc =>
      dsimp only [step, callback]
      split
      · exact incPositionCmdCallback_consistent h₀ inc
      · exact h₀
  | home now start =>
      dsimp only [step, callback]
      split
      · exact homeCallback_consistent h₀ now start
      · exact h₀
  | reset now on => exact resetCallback_consistent h₀ now on
  | poll rxNow now frames =>
      exact pollDecide_consistent (pollReceive_consistent h₀ rxNow frames) now

/-- The mode invariant holds after every list of callbacks. -/
theorem run_consistent (c : Config) (es : List Event) : Consistent c (run c es) := by
  induction es using List.reverseRecOn with
  | nil => exact start_consistent c
  | append_singleton es e ih =>
      rw [run_append_singleton]
      exact step_consistent ih e

end PolishingRobot.Lift
