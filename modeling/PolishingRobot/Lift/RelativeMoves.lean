import PolishingRobot.Lift.DriveLink

/-!
# Relative moves and the drive's coordinate

An accepted increment is recorded as a target relative to the last received
position. The target is the position the drive is told to reach only if that
position still is where the drive settles. `Aligned` carries the recorded
target through alarms to the absolute command that resumes it.
-/

namespace PolishingRobot.Lift

open Runs

variable {c : Config} {now : Time} {pos told : Int32} {fresh : Bool} {di st : UInt8}
  {s t : State}

/-- Once homed, the target of a running or interrupted move is the position
told. -/
structure Aligned (c : Config) (told : Int32) (s : State) : Prop where
  consistent : Consistent c s
  open_of_homed : s.homed = true → c.serialOpen = true
  target : s.homed = true → s.mode = .position → s.targetPos = told
  resume : s.homed = true → s.resumeMode = .position → s.resumeTarget = told

/-- A state with no move running or interrupted is aligned with any position. -/
theorem Aligned.of_idle (hc : Consistent c t) (hopen : t.homed = true → c.serialOpen = true)
    (hmode : t.mode ≠ .position) (hresume : t.resumeMode ≠ .position) : Aligned c told t :=
  ⟨hc, hopen, fun _ h => absurd h hmode, fun _ h => absurd h hresume⟩

/-- Steps that leave the moves alone keep them aligned. -/
theorem Aligned.congr (h : Aligned c told s) (hc : Consistent c t) (hhomed : t.homed = s.homed)
    (hmode : t.mode = s.mode) (htarget : t.targetPos = s.targetPos)
    (hrmode : t.resumeMode = s.resumeMode) (hrtarget : t.resumeTarget = s.resumeTarget) :
    Aligned c told t := by
  refine ⟨hc, ?_, ?_, ?_⟩
  · rw [hhomed]
    exact h.open_of_homed
  · rw [hhomed, hmode, htarget]
    exact h.target
  · rw [hhomed, hrmode, hrtarget]
    exact h.resume

theorem sendVelocity_aligned (h : Aligned c told s) (now : Time) (rpm : Int16) :
    Aligned c told (sendVelocity c now rpm s) := by
  have hc := sendVelocity_consistent h.consistent now rpm
  rw [sendVelocity_eq] at hc ⊢
  exact h.congr hc rfl rfl rfl rfl rfl

theorem AlarmResetStep.aligned {manual : Bool} (h : AlarmResetStep c now manual s t)
    (hs : Aligned c told s) : Aligned c told t := by
  have hc := h.consistent hs.consistent
  cases h with
  | exhausted => exact hs.congr hc rfl rfl rfl rfl rfl
  | sent =>
      dsimp only [sendAlarmReset, sendFrame] at hc ⊢
      exact (sendVelocity_aligned hs now 0).congr hc rfl rfl rfl rfl rfl

theorem AutoResetStep.aligned (h : AutoResetStep c now s t) (hs : Aligned c told s) :
    Aligned c told t := by
  cases h with
  | idle => exact hs
  | retry _ _ _ _ h => exact h.aligned hs

/-- The rising edge hands the running target to the resume. -/
theorem raiseAlarm_aligned (hs : Aligned c told s) (now : Time) :
    Aligned c told (raiseAlarm c now s) := by
  have hc := raiseAlarm_consistent hs.consistent now
  have hv := sendVelocity_aligned hs now 0
  rw [raiseAlarm_eq] at hc ⊢
  refine ⟨hc, hv.open_of_homed, by simp, ?_⟩
  intro hhomed hresume
  have hhomed : s.homed = true := by
    rw [sendVelocity_eq] at hhomed
    exact hhomed
  dsimp only at hresume ⊢
  by_cases hmode : s.mode = .position
  · rw [if_pos hmode]
    exact hs.target hhomed hmode
  · rw [if_neg hmode] at hresume ⊢
    exact hs.resume hhomed hresume

/-- The falling edge hands it back. -/
theorem ResumeStep.aligned (h : ResumeStep c now pos (clearAlarm s) t) (hs : Aligned c told s) :
    Aligned c told t := by
  have hc := h.consistent hs.consistent
  cases h with
  | nothing => exact hs.congr hc rfl rfl rfl rfl rfl
  | givenUp => exact ⟨hc, hs.open_of_homed, hs.target, by simp⟩
  | homing hr => exact absurd hr hs.consistent.resume_ne_homing
  | absolute hr => exact ⟨hc, hs.open_of_homed, fun hhomed _ => hs.resume hhomed hr, by simp⟩
  | relative hr => exact ⟨hc, hs.open_of_homed, fun hhomed _ => hs.resume hhomed hr, by simp⟩

theorem AlarmStep.aligned (h : AlarmStep c now st fresh pos s t) (hs : Aligned c told s) :
    Aligned c told t := by
  cases h with
  | stale => exact hs
  | quiet => exact hs
  | cleared _ _ _ h => exact h.aligned hs
  | raised _ _ _ h => exact h.aligned (raiseAlarm_aligned hs now)
  | standing _ _ _ h => exact h.aligned hs

theorem AutoHomeStep.aligned (h : AutoHomeStep c now fresh s t) (hs : Aligned c told s) :
    Aligned c told t := by
  have hc := h.consistent hs.consistent
  cases h with
  | idle => exact hs
  | started =>
      apply Aligned.of_idle hc hs.open_of_homed <;> simp [homingStarted, cancelResume]

theorem finishHoming_aligned (hs : Aligned c told s) (hmode : s.mode = .homing)
    (hopen : c.serialOpen = true) (now : Time) : Aligned c told (finishHoming c now s) := by
  have hc := finishHoming_consistent hs.consistent hmode now
  have hresume : s.resumeMode = .manual :=
    hs.consistent.resume_manual (hs.consistent.quiet_of_homing hmode)
  rw [finishHoming_eq, sendVelocity_eq] at hc ⊢
  exact .of_idle hc (fun _ => hopen) (by simp) (by simp [hresume])

theorem MotionStep.aligned (h : MotionStep c now pos fresh di s t) (hs : Aligned c told s)
    (hopen : fresh = true → c.serialOpen = true) : Aligned c told t := by
  have hc := h.consistent hs.consistent
  cases h with
  | idle => exact hs
  | reached => exact ⟨hc, hs.open_of_homed, by simp, hs.resume⟩
  | homing hmode h =>
      have hv := sendVelocity_aligned hs now s.homeDirSpeed
      have hvmode : (sendVelocity c now s.homeDirSpeed s).mode = .homing := by
        rw [sendVelocity_eq]
        exact hmode
      cases h with
      | timeout =>
          have hv₀ := sendVelocity_aligned hs now 0
          exact ⟨hc, hv₀.open_of_homed, by simp, hv₀.resume⟩
      | limit _ _ hlow =>
          simp only [atLowerLimit, Bool.and_eq_true] at hlow
          exact finishHoming_aligned hs hmode (hopen hlow.1) now
      | unheard => exact hv.congr hc rfl rfl rfl rfl rfl
      | moving => exact hv.congr hc rfl rfl rfl rfl rfl
      | stalled hfresh => exact finishHoming_aligned hv hvmode (hopen hfresh) now
      | waiting => exact hv

theorem ReleaseStep.aligned (h : ReleaseStep c now pos fresh di s t) (hs : Aligned c told s) :
    Aligned c told t := by
  have hc := h.consistent hs.consistent
  cases h with
  | idle => exact hs
  | watch => exact hs.congr hc rfl rfl rfl rfl rfl
  | release => exact sendVelocity_aligned hs now 0

/-- The position commands of a poll: absolute only to the position told, and
once homed no relative ones. -/
def Resends (homed : Bool) (told : Int32) (f : TxFrame) : Prop :=
  (∀ x, f = .posiCmd x → x = told) ∧ (homed = true → ∀ x, f ≠ .incPosiCmd x)

theorem pollReceive_aligned (hs : Aligned c told s) (rxNow : Time) (frames : List RxFrame) :
    Aligned c told (pollReceive c rxNow frames s) := by
  have hc := pollReceive_consistent hs.consistent rxNow frames
  rw [pollReceive_eq] at hc ⊢
  exact hs.congr hc rfl rfl rfl rfl rfl

/-- A poll keeps the recorded targets and resends only the position told. -/
theorem pollDecide_aligned (hs : Aligned c told s) (now : Time) :
    Aligned c told (pollDecide c now s) ∧ Writes (Resends s.homed told) s (pollDecide c now s) := by
  obtain ⟨u, v, w, -, hu, hv, hw, hr⟩ := pollDecide_stages c now s
  have hopen : isFresh c now s.rx = true → c.serialOpen = true := hs.consistent.open_of_fresh
  refine ⟨hr.aligned (hw.aligned (hv.aligned (hu.aligned hs)) hopen), ?_⟩
  have hwu : Writes (Resends s.homed told) s u := by
    apply hu.writes
    · simp [Resends]
    · simp [Resends]
    · intro hhomed hresume
      simp [Resends, hs.resume hhomed hresume]
    · intro hhomed
      simp [Resends, hhomed]
  have hwv : Writes (Resends s.homed told) u v := hv.writes
  have hww : Writes (Resends s.homed told) v w := by
    apply hw.writes <;> simp [Resends]
  have hwr : Writes (Resends s.homed told) w (pollDecide c now s) := by
    apply hr.writes
    simp [Resends]
  exact hwu.trans (hwv.trans (hww.trans hwr))

theorem pollTimer_aligned (hs : Aligned c told s) (rxNow now : Time) (frames : List RxFrame) :
    Aligned c told (pollTimer c rxNow now frames s) ∧
      Writes (Resends s.homed told) s (pollTimer c rxNow now frames s) := by
  obtain ⟨ha, hw⟩ := pollDecide_aligned (pollReceive_aligned hs rxNow frames) now
  have hhomed : (pollReceive c rxNow frames s).homed = s.homed := by
    rw [pollReceive_eq]
  rw [hhomed] at hw
  refine ⟨ha, Writes.trans ?_ hw⟩
  apply pollReceive_writes
  simp [Resends]

/-- The condition under which `incPositionCmdCallback` takes an increment. -/
def Accepts (c : Config) (s : State) : Prop :=
  c.enablePositionControl = true ∧ s.alarmActive = false

/-- The position told after the frames of a callback. -/
def toldAfter (d : Drive) (told : Int32) (fs : List TxFrame) : Int32 :=
  (fs.foldl follow (d, told)).2

theorem Aligned.clear_tx (hs : Aligned c told s) : Aligned c told { s with tx := [] } :=
  hs.congr (hs.consistent.congr rfl rfl rfl rfl rfl) rfl rfl rfl rfl rfl

/-- What an accepted increment records and writes. -/
theorem incPositionCmd_step (h : Accepts c s) (now : Time) (inc : Int32) :
    (step c s (.incPositionCmd now inc)).targetPos = s.rx.position + inc ∧
      (step c s (.incPositionCmd now inc)).tx = sent c (.incPosiCmd inc) := by
  have hactive : ¬ s.alarmActive = true := by simp [h.2]
  dsimp only [step, callback]
  rw [if_pos h.1]
  unfold incPositionCmdCallback
  rw [if_neg hactive]
  exact ⟨rfl, sendFrame_tx c (.incPosiCmd inc) _⟩

/-- What an accepted absolute move records and writes. -/
theorem positionCmd_step (h : Accepts c s) (hhomed : s.homed = true) (now : Time)
    (target : Int32) :
    (step c s (.positionCmd now target)).targetPos = target ∧
      (step c s (.positionCmd now target)).resumeMode = .manual ∧
      (step c s (.positionCmd now target)).homed = s.homed ∧
      (step c s (.positionCmd now target)).tx = sent c (.posiCmd target) := by
  have hactive : ¬ s.alarmActive = true := by simp [h.2]
  dsimp only [step, callback]
  rw [if_pos h.1]
  unfold positionCmdCallback
  rw [if_neg (by simp [hhomed]), if_neg hactive]
  exact ⟨rfl, rfl, rfl, sendFrame_tx c (.posiCmd target) _⟩

theorem toldAfter_abs (hopen : c.serialOpen = true) (d : Drive) (told target : Int32) :
    toldAfter d told (sent c (.posiCmd target)) = target := by
  unfold toldAfter sent
  rw [if_pos hopen]
  rfl

theorem toldAfter_inc (hopen : c.serialOpen = true) (d : Drive) (told inc : Int32) :
    toldAfter d told (sent c (.incPosiCmd inc)) = d.counter + inc := by
  unfold toldAfter sent
  rw [if_pos hopen]
  rfl

theorem homeCallback_aligned (hs : Aligned c told s) (now : Time) (start : Bool) :
    Aligned c told (homeCallback c now start s) := by
  have hc := homeCallback_consistent hs.consistent now start
  cases start with
  | true =>
      rw [homeCallback_true] at hc ⊢
      split at hc
      · rw [if_pos ‹_›]
        exact hs
      · rw [if_neg ‹_›]
        apply Aligned.of_idle hc hs.open_of_homed <;> simp [homingStarted, cancelResume]
  | false =>
      have hcancel : Aligned c told (cancelResume { s with pendingHome := false }) := by
        refine ⟨?_, hs.open_of_homed, hs.target, by simp [cancelResume]⟩
        exact ⟨hs.consistent.manual_of_alarm, by simp [cancelResume], by simp [cancelResume],
          fun _ => rfl, hs.consistent.open_of_data⟩
      simp only [homeCallback, Bool.false_eq_true, not_false_eq_true, if_true] at hc ⊢
      split at hc
      · rw [if_pos ‹_›, sendVelocity_eq]
        rw [sendVelocity_eq] at hc
        apply Aligned.of_idle hc hs.open_of_homed <;> simp [cancelResume]
      · rw [if_neg ‹_›]
        exact hcancel

theorem homeCallback_writes {P : TxFrame → Prop} (hstop : P (.velCmd 0)) (now : Time)
    (start : Bool) (s : State) : Writes P s (homeCallback c now start s) := by
  cases start with
  | true =>
      rw [homeCallback_true]
      split
      · exact .refl s
      · exact .of_tx_eq rfl
  | false =>
      simp only [homeCallback, Bool.false_eq_true, not_false_eq_true, if_true]
      split
      · have hcancel : Writes P s { cancelResume { s with pendingHome := false } with
            mode := .manual } := .of_tx_eq rfl
        exact hcancel.trans (sendVelocity_writes c now 0 _ hstop)
      · exact .of_tx_eq rfl

theorem resetCallback_aligned (hs : Aligned c told s) (now : Time) (on : Bool) :
    Aligned c told (resetCallback c now on s) := by
  have hc := resetCallback_consistent hs.consistent now on
  unfold resetCallback at hc ⊢
  split
  · exact hs
  · dsimp only
    have hrearm : Aligned c told { s with
        alarmResetAttempts := 0, alarmResetExhausted := false, resumeCycles := 0 } :=
      hs.congr (hs.consistent.congr rfl rfl rfl rfl rfl) rfl rfl rfl rfl rfl
    split
    · exact hrearm.congr (hrearm.consistent.congr rfl rfl rfl rfl rfl) rfl rfl rfl rfl rfl
    · exact (requestAlarmReset_step c now true _).aligned hrearm

theorem resetCallback_writes {P : TxFrame → Prop} (hstop : P (.velCmd 0))
    (hreset : P .alarmReset) (now : Time) (on : Bool) (s : State) :
    Writes P s (resetCallback c now on s) := by
  unfold resetCallback
  split
  · exact .refl s
  · dsimp only
    split
    · exact .of_sent c (sendFrame_tx c .alarmReset _) hreset
    · have hrearm : Writes P s { s with
          alarmResetAttempts := 0, alarmResetExhausted := false, resumeCycles := 0 } :=
        .of_tx_eq rfl
      exact hrearm.trans ((requestAlarmReset_step c now true _).writes hstop hreset)

/-- A callback that writes no new position command leaves the position told. -/
theorem aligned_of_steady {d : Drive} (ht : Aligned c told t)
    (hw : Writes (Steady told) { s with tx := [] } t) :
    Aligned c (toldAfter d told t.tx) t := by
  have htold : toldAfter d told t.tx = told :=
    foldl_follow_steady (fun f hf => hw.forall_mem rfl hf) d
  rw [htold]
  exact ht

theorem command_aligned (hs : Aligned c told s) (d : Drive) (now : Time) (cmd : String) :
    Aligned c (toldAfter d told (step c s (.command now cmd)).tx)
      (step c s (.command now cmd)) := by
  obtain hidle | hmanual := em (cmd ≠ "up" ∧ cmd ≠ "down" ∧ cmd ≠ "stop")
  · have hstep : step c s (.command now cmd) = { s with tx := [] } := by
      dsimp only [step, callback, commandCallback]
      rw [if_pos hidle]
    rw [hstep]
    exact aligned_of_steady hs.clear_tx (.refl _)
  · have hmode : (step c s (.command now cmd)).mode = .manual ∧
        (step c s (.command now cmd)).resumeMode = .manual ∧
        (step c s (.command now cmd)).homed = s.homed := by
      dsimp only [step, callback, commandCallback]
      rw [if_neg hmanual]
      split_ifs <;> simp [sendVelocity_eq, cancelResume]
    apply Aligned.of_idle (step_consistent hs.consistent (.command now cmd))
    · rw [hmode.2.2]
      exact hs.open_of_homed
    · simp [hmode.1]
    · simp [hmode.2.1]

theorem positionCmd_aligned (hs : Aligned c told s) (d : Drive) (now : Time) (target : Int32) :
    Aligned c (toldAfter d told (step c s (.positionCmd now target)).tx)
      (step c s (.positionCmd now target)) := by
  by_cases haccepts : Accepts c s ∧ s.homed = true
  · obtain ⟨htarget, hrmode, hhomed, htx⟩ := positionCmd_step haccepts.1 haccepts.2 now target
    have hopen := hs.open_of_homed haccepts.2
    refine ⟨step_consistent hs.consistent (.positionCmd now target), fun _ => hopen, ?_,
      by simp [hrmode]⟩
    intro _ _
    rw [htarget, htx, toldAfter_abs hopen]
  · have hstep : step c s (.positionCmd now target) = { s with tx := [] } := by
      dsimp only [step, callback]
      unfold positionCmdCallback
      split_ifs with henabled hhomed hactive
      · rfl
      · exact absurd ⟨⟨henabled, by simpa using hactive⟩, hhomed⟩ haccepts
      · rfl
      · rfl
    rw [hstep]
    exact aligned_of_steady hs.clear_tx (.refl _)

/-- An increment keeps them together if the drive settles where the driver believes. -/
theorem incPositionCmd_aligned (hs : Aligned c told s) (d : Drive) (now : Time) (inc : Int32)
    (hsettled : Accepts c s → s.rx.position = d.counter) :
    Aligned c (toldAfter d told (step c s (.incPositionCmd now inc)).tx)
      (step c s (.incPositionCmd now inc)) := by
  by_cases haccepts : Accepts c s
  · obtain ⟨htarget, htx⟩ := incPositionCmd_step haccepts now inc
    have hrest : (step c s (.incPositionCmd now inc)).resumeMode = .manual ∧
        (step c s (.incPositionCmd now inc)).homed = s.homed := by
      have hactive : ¬ s.alarmActive = true := by simp [haccepts.2]
      dsimp only [step, callback]
      rw [if_pos haccepts.1]
      unfold incPositionCmdCallback
      rw [if_neg hactive]
      exact ⟨rfl, rfl⟩
    refine ⟨step_consistent hs.consistent (.incPositionCmd now inc), ?_, ?_, by simp [hrest.1]⟩
    · rw [hrest.2]
      exact hs.open_of_homed
    · intro hhomed _
      rw [hrest.2] at hhomed
      rw [htarget, htx, toldAfter_inc (hs.open_of_homed hhomed), hsettled haccepts]
  · have hstep : step c s (.incPositionCmd now inc) = { s with tx := [] } := by
      dsimp only [step, callback]
      unfold incPositionCmdCallback
      split_ifs with henabled hactive
      · rfl
      · exact absurd ⟨henabled, by simpa using hactive⟩ haccepts
      · rfl
    rw [hstep]
    exact aligned_of_steady hs.clear_tx (.refl _)

/-- Operator messages keep the recorded targets and the positions told
together, an increment if the drive settles where the driver believes. -/
theorem message_aligned (hs : Aligned c told s) (d : Drive) (e : Event)
    (hpoll : ∀ rxNow now frames, e ≠ .poll rxNow now frames)
    (hinc : ∀ now inc, e = .incPositionCmd now inc → Accepts c s →
      s.rx.position = d.counter) :
    Aligned c (toldAfter d told (step c s e).tx) (step c s e) := by
  have h₀ := hs.clear_tx
  cases e with
  | command now cmd => exact command_aligned hs d now cmd
  | velocityCmd now rpm =>
      apply Aligned.of_idle (step_consistent hs.consistent (.velocityCmd now rpm)) <;>
        simp [step, callback, velocityCmdCallback, sendVelocity_eq, cancelResume]
      exact hs.open_of_homed
  | positionCmd now target => exact positionCmd_aligned hs d now target
  | incPositionCmd now inc => exact incPositionCmd_aligned hs d now inc (hinc now inc rfl)
  | home now start =>
      dsimp only [step, callback]
      split
      · apply aligned_of_steady (homeCallback_aligned h₀ now start)
        apply homeCallback_writes
        simp [Steady]
      · exact aligned_of_steady h₀ (.refl _)
  | reset now on =>
      apply aligned_of_steady (resetCallback_aligned h₀ now on)
      apply resetCallback_writes <;> simp [Steady]
  | poll rxNow now frames => exact absurd rfl (hpoll rxNow now frames)

/-- Polls keep the recorded targets and the positions told together. -/
theorem poll_aligned (hs : Aligned c told s) (d : Drive) (rxNow now : Time)
    (frames : List RxFrame) :
    Aligned c (toldAfter d told (step c s (.poll rxNow now frames)).tx)
        (step c s (.poll rxNow now frames)) ∧
      ∀ x, TxFrame.posiCmd x ∈ (step c s (.poll rxNow now frames)).tx → x = told := by
  obtain ⟨ha, hw⟩ := pollTimer_aligned hs.clear_tx rxNow now frames
  refine ⟨?_, fun x hx => (hw.forall_mem rfl hx).1 x rfl⟩
  by_cases hhomed : s.homed = true
  · apply aligned_of_steady ha
    apply hw.mono
    intro f hf
    exact ⟨hf.1, hf.2 hhomed⟩
  · -- before homing no target is claimed, so any position told will do
    have hany : Aligned c (toldAfter d told (step c s (.poll rxNow now frames)).tx)
        { s with tx := [] } :=
      ⟨hs.clear_tx.consistent, hs.open_of_homed, fun h => absurd h hhomed,
        fun h => absurd h hhomed⟩
    exact (pollTimer_aligned hany rxNow now frames).1

/-- One coordinate frame: an accepted increment is recorded relative to a
received position that the drive sent after its last origin reset, as the
position the drive is told to reach; a poll resends that position only; once
homed, the target of a running move is that position. -/
def OneFrame (c : Config) (l : Link) (ev : LinkEvent) (l' : Link) : Prop :=
  (match ev with
    | .message (.incPositionCmd _ inc) =>
        Accepts c l.driver →
          (∃ d, l.heard = some d ∧ d.resets = l.settled.resets ∧
            l'.driver.targetPos = d.counter + inc) ∧
          l'.driver.targetPos = l'.told
    | .poll _ _ _ => ∀ x, TxFrame.posiCmd x ∈ l'.driver.tx → x = l.told
    | _ => True) ∧
  (l'.driver.homed = true → l'.driver.mode = .position → l'.driver.targetPos = l'.told)

/-- An increment is accepted only while the newest received position, and the
reset count behind it, are those at which the drive settles. -/
def HeardSettled (c : Config) (l : Link) (ev : LinkEvent) : Prop :=
  match ev with
  | .message (.incPositionCmd _ _) => Accepts c l.driver → l.heard = some l.settled
  | _ => True

theorem start_aligned (c : Config) : Aligned c 0 (start c) := by
  have hstart : (start c).homed = false ∧ (start c).mode = .manual ∧
      (start c).resumeMode = .manual := by
    unfold start
    dsimp only
    split <;> exact ⟨rfl, rfl, rfl⟩
  apply Aligned.of_idle (start_consistent c)
  · simp [hstart.1]
  · simp [hstart.2.1]
  · simp [hstart.2.2]

/-- An accepted increment tells the drive to go that far from where it
settles. -/
theorem call_told_inc {l : Link} (hopen : c.serialOpen = true) (h : Accepts c l.driver)
    (now : Time) (inc : Int32) :
    (l.call c (.incPositionCmd now inc)).told = l.settled.counter + inc := by
  dsimp only [Link.call]
  rw [(incPositionCmd_step h now inc).2]
  exact toldAfter_inc hopen _ _ _

/-- Under the condition every event keeps the targets aligned and has the
property. -/
theorem linkStep_oneFrame {l l' : Link} {ev : LinkEvent} (ht : Truthful c l)
    (ha : Aligned c l.told l.driver) (hok : HeardSettled c l ev)
    (hstep : linkStep c l ev = some l') :
    Aligned c l'.told l'.driver ∧ OneFrame c l ev l' := by
  cases ev with
  | message e =>
      obtain ⟨rfl, hpoll⟩ := linkStep_message hstep
      have hinc : ∀ now inc, e = .incPositionCmd now inc → Accepts c l.driver →
          l.driver.rx.position = l.settled.counter := by
        rintro now inc rfl haccepts
        exact (ht.held _ (hok haccepts)).1
      have haligned : Aligned c (l.call c e).told (l.call c e).driver :=
        message_aligned ha l.settled e hpoll hinc
      refine ⟨haligned, ?_, haligned.target⟩
      cases e with
      | incPositionCmd now inc =>
          intro haccepts
          obtain ⟨hposition, hopen⟩ := ht.held _ (hok haccepts)
          have hrecord : (l.call c (.incPositionCmd now inc)).driver.targetPos =
              l.settled.counter + inc := by
            rw [← hposition]
            exact (incPositionCmd_step haccepts now inc).1
          have htold := call_told_inc hopen haccepts now inc
          exact ⟨⟨l.settled, hok haccepts, rfl, hrecord⟩, hrecord.trans htold.symm⟩
      | _ => trivial
  | poll rxNow now k =>
      obtain rfl := Option.some.inj hstep
      obtain ⟨haligned, hresend⟩ :=
        poll_aligned ha l.settled rxNow now ((l.inFlight.take k).map Reply.frame)
      exact ⟨haligned, hresend, haligned.target⟩
  | execute =>
      dsimp only [linkStep] at hstep
      split at hstep
      · cases hstep
      · obtain rfl := Option.some.inj hstep
        exact ⟨ha, trivial, ha.target⟩
  | reply f =>
      dsimp only [linkStep] at hstep
      split at hstep
      · obtain rfl := Option.some.inj hstep
        exact ⟨ha, trivial, ha.target⟩
      · cases hstep
  | lose i =>
      obtain rfl := Option.some.inj hstep
      exact ⟨ha, trivial, ha.target⟩
  | drift counts =>
      obtain rfl := Option.some.inj hstep
      exact ⟨ha, trivial, ha.target⟩

/-- An event with the property meets the condition. -/
theorem heardSettled_of_oneFrame {l l' : Link} {ev : LinkEvent} (ht : Truthful c l)
    (hgood : OneFrame c l ev l') (hstep : linkStep c l ev = some l') : HeardSettled c l ev := by
  cases ev with
  | message e =>
      cases e with
      | incPositionCmd now inc =>
          intro haccepts
          obtain rfl := Option.some.inj hstep
          obtain ⟨⟨d, hheard, hresets, htarget⟩, hwhole⟩ := hgood.1 haccepts
          have htold := call_told_inc (ht.held d hheard).2 haccepts now inc
          have hsum : d.counter + inc = l.settled.counter + inc := by
            rw [← htarget, hwhole, htold]
          have hcounter : d.counter = l.settled.counter := by
            simpa using hsum
          have hd : d = l.settled := by
            cases d
            cases hl : l.settled
            rw [hl] at hcounter hresets
            simp_all
          rw [hheard, hd]
      | _ => trivial
  | _ => trivial

/-- A run with the property meets the condition. -/
theorem heardSettled_along {l : Link} (ht : Truthful c l) {evs : List LinkEvent}
    (hgood : Along (linkStep c) (OneFrame c) l evs) :
    Along (linkStep c) (fun l ev _ => HeardSettled c l ev) l evs := by
  have keep : ∀ l ev l', Truthful c l → OneFrame c l ev l' → linkStep c l ev = some l' →
      Truthful c l' := fun l ev l' h _ hstep => linkStep_truthful h hstep
  apply along_of_invariant keep _ ht hgood
  intro l ev l' ht hone hstep
  exact heardSettled_of_oneFrame ht hone hstep

/-- A run that meets the condition has the property. -/
theorem oneFrame_along {l : Link} (ht : Truthful c l) (ha : Aligned c l.told l.driver)
    {evs : List LinkEvent}
    (hok : Along (linkStep c) (fun l ev _ => HeardSettled c l ev) l evs) :
    Along (linkStep c) (OneFrame c) l evs := by
  have keep : ∀ l ev l', Truthful c l ∧ Aligned c l.told l.driver → HeardSettled c l ev →
      linkStep c l ev = some l' → Truthful c l' ∧ Aligned c l'.told l'.driver := by
    intro l ev l' h hev hstep
    exact ⟨linkStep_truthful h.1 hstep, (linkStep_oneFrame h.1 h.2 hev hstep).1⟩
  apply along_of_invariant keep _ ⟨ht, ha⟩ hok
  intro l ev l' h hev hstep
  exact (linkStep_oneFrame h.1 h.2 hev hstep).2

/-- Along a run of driver, line and drive, from any counter at power-up,
relative moves keep one coordinate frame exactly if every increment is
accepted while the newest received position is where the drive settles. -/
theorem one_frame_iff (c : Config) (counter : Int32) (evs : List LinkEvent) :
    Along (linkStep c) (OneFrame c) (Link.start c counter) evs ↔
      Along (linkStep c) (fun l ev _ => HeardSettled c l ev) (Link.start c counter) evs :=
  ⟨heardSettled_along (start_truthful c counter),
    oneFrame_along (start_truthful c counter) (start_aligned c)⟩

instance (c : Config) (s : State) : Decidable (Accepts c s) := inferInstanceAs (Decidable (_ ∧ _))

instance (c : Config) (l : Link) : (ev : LinkEvent) → Decidable (HeardSettled c l ev)
  | .message (.incPositionCmd _ _) => inferInstanceAs (Decidable (_ → _))
  | .message (.command _ _) | .message (.velocityCmd _ _) | .message (.positionCmd _ _)
  | .message (.home _ _) | .message (.reset _ _) | .message (.poll _ _ _) | .poll _ _ _
  | .execute | .reply _ | .lose _ | .drift _ => inferInstanceAs (Decidable True)

/-- Homing completes at position 50; the increment arrives before the next
reply. -/
def earlyIncrement : List LinkEvent :=
  [.message (.home 1 true), .reply (monitorReply 50 0), .poll 2 2 1,
    .message (.incPositionCmd 3 100)]

/-- The drive executes what it was sent; an alarm comes and goes. -/
def alarmAndResume : List LinkEvent :=
  List.replicate 6 .execute ++
    [.reply ⟨pidMonitor, [0, 0, 0, 0, 0, 0, 1, 100, 0, 0, 0, 4]⟩, .poll 4 4 1,
      .reply (monitorReply 100 4), .poll 5 5 1]

/-- The driver records 150 and, after an alarm, sends the drive there; the
drive had been told to go to 100. -/
theorem increment_across_reset :
    (Runs.run (linkStep defaultConfig) (Link.start defaultConfig 50) earlyIncrement).map
        (fun l => (l.driver.targetPos, l.told)) = some (150, 100) ∧
      (Runs.run (linkStep defaultConfig) (Link.start defaultConfig 50)
          (earlyIncrement ++ alarmAndResume)).map
        (fun l => decide (TxFrame.posiCmd 150 ∈ l.driver.tx)) = some true ∧
      ¬ Along (linkStep defaultConfig) (OneFrame defaultConfig) (Link.start defaultConfig 50)
        earlyIncrement := by
  refine ⟨by decide +kernel, by decide +kernel, ?_⟩
  intro hgood
  have hok := heardSettled_along (start_truthful defaultConfig 50) hgood
  revert hok
  decide +kernel

end PolishingRobot.Lift
