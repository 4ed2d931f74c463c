import PolishingRobot.Lift.ModeInvariant

/-!
# Alarm lock-out

From the poll that detects an alarm to the poll that sees it cleared, the
driver itself writes stop commands and alarm resets only. A nonzero speed
during that time is an operator's direct command.
-/

namespace PolishingRobot.Lift

variable {c : Config} {now : Time} {pos : Int32} {fresh : Bool} {di st : UInt8} {s t : State}

/-- The frames a poll may write during an alarm. -/
def Harmless (f : TxFrame) : Prop :=
  f = .velCmd 0 ∨ f = .alarmReset ∨ f = .reqPidData pidMonitor

/-- An operator message that sets a manual speed. -/
def Event.IsManual : Event → Prop
  | .command _ cmd => cmd = "up" ∨ cmd = "down" ∨ cmd = "stop"
  | .velocityCmd _ _ => True
  | _ => False

theorem AlarmResetStep.alarm_eq {manual : Bool} (h : AlarmResetStep c now manual s t) :
    t.alarmActive = s.alarmActive := by
  cases h with
  | exhausted => rfl
  | sent =>
      dsimp only [sendAlarmReset, sendFrame]
      rw [sendVelocity_eq]

theorem AutoHomeStep.alarm_eq (h : AutoHomeStep c now fresh s t) :
    t.alarmActive = s.alarmActive := by
  cases h <;> rfl

theorem finishHoming_alarm (c : Config) (now : Time) (s : State) :
    (finishHoming c now s).alarmActive = s.alarmActive := by
  rw [finishHoming_eq, sendVelocity_eq]

theorem HomingStep.alarm_eq (h : HomingStep c now pos fresh di s t) :
    t.alarmActive = s.alarmActive := by
  cases h with
  | timeout => rw [sendVelocity_eq]
  | limit => exact finishHoming_alarm c now s
  | unheard => rw [sendVelocity_eq]
  | moving => rw [sendVelocity_eq]
  | stalled => rw [finishHoming_alarm, sendVelocity_eq]
  | waiting => rw [sendVelocity_eq]

theorem MotionStep.alarm_eq (h : MotionStep c now pos fresh di s t) :
    t.alarmActive = s.alarmActive := by
  cases h with
  | idle => rfl
  | homing _ h => exact h.alarm_eq
  | reached => rfl

theorem ReleaseStep.alarm_eq (h : ReleaseStep c now pos fresh di s t) :
    t.alarmActive = s.alarmActive := by
  cases h with
  | idle => rfl
  | watch => rfl
  | release => rw [sendVelocity_eq]

/-- A poll that ends with an active alarm consists of its alarm stage and its
release stage: deferred homing and the motion stage do nothing. -/
theorem pollDecide_of_alarm (hs : Consistent c s)
    (ha : (pollDecide c now s).alarmActive = true) :
    ∃ u, AlarmStep c now s.rx.statusByte (isFresh c now s.rx) s.rx.position s u ∧
      u.alarmActive = true ∧
      ReleaseStep c now s.rx.position (isFresh c now s.rx) s.rx.diByte u
        (pollDecide c now s) := by
  obtain ⟨u, v, w, -, hu, hv, hw, hr⟩ := pollDecide_stages c now s
  have hactive : u.alarmActive = true := by
    rw [← hv.alarm_eq, ← hw.alarm_eq, ← hr.alarm_eq]
    exact ha
  have hvu : v = u := by
    cases hv with
    | idle => rfl
    | started _ _ hquiet => rw [hactive] at hquiet; cases hquiet
  subst hvu
  have hwv : w = v := by
    have hmode := (hu.consistent hs).manual_of_alarm hactive
    cases hw with
    | idle => rfl
    | homing h => rw [hmode] at h; cases h
    | reached h => rw [hmode] at h; cases h
  subst hwv
  exact ⟨w, hu, hactive, hr⟩

theorem AlarmResetStep.harmless {manual : Bool} (h : AlarmResetStep c now manual s t) :
    Writes Harmless s t ∧ t.homed = s.homed := by
  cases h with
  | exhausted => exact ⟨.of_tx_eq rfl, rfl⟩
  | sent =>
      have hstop := sendVelocity_writes c now 0 s (P := Harmless) (.inl rfl)
      have hreset := sendFrame_writes c .alarmReset (sendVelocity c now 0 s) (P := Harmless)
        (.inr (.inl rfl))
      refine ⟨hstop.trans (hreset.trans (.of_tx_eq rfl)), ?_⟩
      simp [sendAlarmReset, sendFrame, sendVelocity_eq]

theorem AutoResetStep.harmless (h : AutoResetStep c now s t) :
    Writes Harmless s t ∧ t.homed = s.homed := by
  cases h with
  | idle => exact ⟨.refl s, rfl⟩
  | retry _ _ _ _ h => exact h.harmless

theorem raiseAlarm_tx (c : Config) (now : Time) (s : State) :
    (raiseAlarm c now s).tx = s.tx ++ sent c (.velCmd 0) := by
  rw [raiseAlarm_eq]
  exact sendVelocity_tx c now 0 s

theorem raiseAlarm_homed (c : Config) (now : Time) (s : State) :
    (raiseAlarm c now s).homed = s.homed := by
  rw [raiseAlarm_eq, sendVelocity_eq]

theorem AlarmStep.harmless (h : AlarmStep c now st fresh pos s t)
    (ha : t.alarmActive = true) : Writes Harmless s t ∧ t.homed = s.homed := by
  cases h with
  | stale => exact ⟨.refl s, rfl⟩
  | quiet => exact ⟨.refl s, rfl⟩
  | cleared _ _ _ h => cases h <;> cases ha
  | raised _ _ _ h =>
      obtain ⟨hw, hhomed⟩ := h.harmless
      have hraise : Writes Harmless s (raiseAlarm c now s) :=
        .of_sent c (raiseAlarm_tx c now s) (.inl rfl)
      exact ⟨hraise.trans hw, hhomed.trans (raiseAlarm_homed c now s)⟩
  | standing _ _ _ h => exact h.harmless

/-- The stage that raises the alarm writes a stop. -/
theorem AlarmStep.stops (h : AlarmStep c now st fresh pos s t) (hopen : c.serialOpen = true)
    (hold : s.alarmActive = false) (ha : t.alarmActive = true) : TxFrame.velCmd 0 ∈ t.tx := by
  cases h with
  | stale => rw [hold] at ha; cases ha
  | quiet => rw [hold] at ha; cases ha
  | cleared _ _ hactive => rw [hold] at hactive; cases hactive
  | raised _ _ _ h =>
      refine h.harmless.1.mem_of_mem ?_
      rw [raiseAlarm_tx]
      exact List.mem_append_right _ ((mem_sent c).mpr ⟨hopen, rfl⟩)
  | standing _ _ hactive => rw [hold] at hactive; cases hactive

theorem ReleaseStep.harmless (h : ReleaseStep c now pos fresh di s t) :
    Writes Harmless s t ∧ t.homed = s.homed := by
  cases h with
  | idle => exact ⟨.refl s, rfl⟩
  | watch => exact ⟨.of_tx_eq rfl, rfl⟩
  | release =>
      refine ⟨sendVelocity_writes c now 0 s (.inl rfl), ?_⟩
      rw [sendVelocity_eq]

/-- A poll that ends with an active alarm writes harmless frames only and
keeps the origin flag. -/
theorem pollTimer_harmless (hs : Consistent c s) (rxNow : Time) (frames : List RxFrame)
    (ha : (pollTimer c rxNow now frames s).alarmActive = true) :
    Writes Harmless s (pollTimer c rxNow now frames s) ∧
      (pollTimer c rxNow now frames s).homed = s.homed := by
  have hr := pollReceive_consistent hs rxNow frames
  obtain ⟨u, hstep, hactive, hrel⟩ := pollDecide_of_alarm hr ha
  have hask : Writes Harmless s (pollReceive c rxNow frames s) :=
    .of_sent c (by rw [pollReceive_eq]) (.inr (.inr rfl))
  obtain ⟨hw₁, hh₁⟩ := hstep.harmless hactive
  obtain ⟨hw₂, hh₂⟩ := hrel.harmless
  refine ⟨hask.trans (hw₁.trans hw₂), hh₂.trans (hh₁.trans ?_)⟩
  rw [pollReceive_eq]

/-- The poll that detects the alarm writes a stop. -/
theorem pollTimer_stops (hs : Consistent c s) (rxNow : Time) (frames : List RxFrame)
    (hold : s.alarmActive = false)
    (ha : (pollTimer c rxNow now frames s).alarmActive = true) :
    TxFrame.velCmd 0 ∈ (pollTimer c rxNow now frames s).tx := by
  have hr := pollReceive_consistent hs rxNow frames
  obtain ⟨u, hstep, hactive, hrel⟩ := pollDecide_of_alarm hr ha
  have hold' : (pollReceive c rxNow frames s).alarmActive = false := by
    rw [pollReceive_eq]
    exact hold
  have hfresh : isFresh c now (pollReceive c rxNow frames s).rx = true := by
    cases hstep with
    | stale => rw [hold'] at hactive; cases hactive
    | quiet h => exact h
    | cleared h => exact h
    | raised h => exact h
    | standing h => exact h
  have hopen : c.serialOpen = true := hr.open_of_fresh hfresh
  exact hrel.harmless.1.mem_of_mem (hstep.stops hopen hold' hactive)

theorem resetCallback_harmless (now : Time) (on : Bool) (s : State) :
    Writes Harmless s (resetCallback c now on s) ∧
      (resetCallback c now on s).homed = s.homed ∧
      (resetCallback c now on s).alarmActive = s.alarmActive := by
  unfold resetCallback
  split
  · exact ⟨.refl s, rfl, rfl⟩
  · dsimp only
    split
    · exact ⟨sendFrame_writes c .alarmReset _ (.inr (.inl rfl)), rfl, rfl⟩
    · have h := requestAlarmReset_step c now true
        { s with alarmResetAttempts := 0, alarmResetExhausted := false, resumeCycles := 0 }
      obtain ⟨⟨fs, hfs, hP⟩, hhomed⟩ := h.harmless
      exact ⟨⟨fs, hfs, hP⟩, hhomed, h.alarm_eq⟩

/-- A home message during an alarm at most stops the lift. -/
theorem homeCallback_of_alarm (ha : s.alarmActive = true) (hm : s.mode = .manual)
    (now : Time) (start : Bool) :
    (homeCallback c now start s).tx = s.tx ∧
      (homeCallback c now start s).homed = s.homed := by
  cases start with
  | true =>
      rw [homeCallback_true]
      simp [ha]
  | false => simp [homeCallback, cancelResume, hm]

/-- A manual command writes one speed frame. -/
theorem commandCallback_writes (now : Time) (cmd : String) (s : State) :
    (commandCallback c now cmd s).homed = s.homed ∧
      ((commandCallback c now cmd s).tx = s.tx ∨
        ((cmd = "up" ∨ cmd = "down" ∨ cmd = "stop") ∧
          ∃ rpm, (commandCallback c now cmd s).tx = s.tx ++ sent c (.velCmd rpm))) := by
  have hv : ∀ rpm (u : State), (sendVelocity c now rpm u).homed = u.homed := by
    intro rpm u
    rw [sendVelocity_eq]
  unfold commandCallback
  split
  · exact ⟨rfl, .inl rfl⟩
  · rename_i h
    have hcmd : cmd = "up" ∨ cmd = "down" ∨ cmd = "stop" := by
      by_contra hne
      simp only [not_or] at hne
      exact h ⟨hne.1, hne.2.1, hne.2.2⟩
    dsimp only
    split
    · exact ⟨hv _ _, .inr ⟨hcmd, _, sendVelocity_tx c now _ _⟩⟩
    · split
      · exact ⟨hv _ _, .inr ⟨hcmd, _, sendVelocity_tx c now _ _⟩⟩
      · exact ⟨hv _ _, .inr ⟨hcmd, _, sendVelocity_tx c now _ _⟩⟩

/-- What a callback that ends in an active alarm writes: harmless frames, or
the one speed frame of a manual command. -/
theorem step_of_alarm (hs : Consistent c s) (e : Event)
    (ha : (step c s e).alarmActive = true) :
    (step c s e).homed = s.homed ∧
      ∀ f ∈ (step c s e).tx, Harmless f ∨ (e.IsManual ∧ ∃ rpm, f = .velCmd rpm) := by
  have h₀ : Consistent c { s with tx := [] } := hs.congr rfl rfl rfl rfl rfl
  have harmless : ∀ t : State, Writes Harmless { s with tx := [] } t →
      ∀ f ∈ t.tx, Harmless f ∨ (e.IsManual ∧ ∃ rpm, f = .velCmd rpm) := by
    intro t ht f hf
    exact .inl (ht.forall_mem rfl hf)
  cases e with
  | command now cmd =>
      obtain ⟨hhomed, htx⟩ := commandCallback_writes (c := c) now cmd { s with tx := [] }
      refine ⟨hhomed, ?_⟩
      intro f hf
      rcases htx with htx | ⟨hcmd, rpm, htx⟩
      · have hnil : (step c s (.command now cmd)).tx = [] := htx
        rw [hnil] at hf
        cases hf
      · have htx' : (step c s (.command now cmd)).tx = sent c (.velCmd rpm) := htx
        rw [htx'] at hf
        exact .inr ⟨hcmd, rpm, ((mem_sent c).mp hf).2⟩
  | velocityCmd now rpm =>
      have htx : (step c s (.velocityCmd now rpm)).tx = sent c (.velCmd rpm) :=
        sendVelocity_tx c now rpm _
      refine ⟨?_, ?_⟩
      · dsimp only [step, callback, velocityCmdCallback]
        rw [sendVelocity_eq]
        rfl
      · intro f hf
        rw [htx] at hf
        exact .inr ⟨trivial, rpm, ((mem_sent c).mp hf).2⟩
  | positionCmd now target =>
      have hidle : step c s (.positionCmd now target) = { s with tx := [] } := by
        dsimp only [step, callback] at ha ⊢
        unfold positionCmdCallback at ha ⊢
        split at ha <;> split_ifs at ha ⊢ <;> first | rfl | skip
        rename_i hquiet
        exact absurd ha hquiet
      rw [hidle]
      exact ⟨rfl, harmless _ (.refl _)⟩
  | incPositionCmd now inc =>
      have hidle : step c s (.incPositionCmd now inc) = { s with tx := [] } := by
        dsimp only [step, callback] at ha ⊢
        unfold incPositionCmdCallback at ha ⊢
        split_ifs at ha ⊢ <;> first | rfl | skip
        rename_i hquiet
        exact absurd ha hquiet
      rw [hidle]
      exact ⟨rfl, harmless _ (.refl _)⟩
  | home now start =>
      dsimp only [step, callback] at ha ⊢
      split at ha
      · have hactive : s.alarmActive = true := by
          cases start with
          | true =>
              rw [homeCallback_true] at ha
              split at ha
              · exact ha
              · exact ha
          | false =>
              simp only [homeCallback, Bool.false_eq_true, not_false_eq_true, if_true] at ha
              split at ha
              · rw [sendVelocity_eq] at ha
                exact ha
              · exact ha
        have hmode := h₀.manual_of_alarm hactive
        obtain ⟨htx, hhomed⟩ := homeCallback_of_alarm (c := c) (s := { s with tx := [] })
          hactive hmode now start
        rw [if_pos ‹_›]
        exact ⟨hhomed, harmless _ (.of_tx_eq htx)⟩
      · rw [if_neg ‹_›]
        exact ⟨rfl, harmless _ (.refl _)⟩
  | reset now on =>
      obtain ⟨hw, hhomed, -⟩ := resetCallback_harmless (c := c) now on { s with tx := [] }
      exact ⟨hhomed, harmless _ hw⟩
  | poll rxNow now frames =>
      obtain ⟨hw, hhomed⟩ := pollTimer_harmless h₀ rxNow frames ha
      exact ⟨hhomed, harmless _ hw⟩

/-- Only a poll changes the alarm flag. -/
theorem poll_of_alarm_change (e : Event) (h : (step c s e).alarmActive ≠ s.alarmActive) :
    ∃ rxNow now frames, e = .poll rxNow now frames := by
  cases e with
  | poll rxNow now frames => exact ⟨rxNow, now, frames, rfl⟩
  | command now cmd =>
      refine absurd ?_ h
      dsimp only [step, callback, commandCallback]
      split_ifs <;> simp [sendVelocity_eq, cancelResume]
  | velocityCmd now rpm =>
      refine absurd ?_ h
      simp [step, callback, velocityCmdCallback, sendVelocity_eq, cancelResume]
  | positionCmd now target =>
      refine absurd ?_ h
      dsimp only [step, callback, positionCmdCallback]
      split_ifs <;> rfl
  | incPositionCmd now inc =>
      refine absurd ?_ h
      dsimp only [step, callback, incPositionCmdCallback]
      split_ifs <;> rfl
  | home now start =>
      refine absurd ?_ h
      dsimp only [step, callback, homeCallback]
      split_ifs <;> simp [sendVelocity_eq, cancelResume]
  | reset now on =>
      exact absurd (resetCallback_harmless (c := c) now on { s with tx := [] }).2.2 h

/-- After every callback of every run an active alarm means manual mode and a
pending resume means an active alarm. A callback that ends with the alarm
active writes no position command and no origin reset, leaves the origin flag
alone, and writes a nonzero speed only when it is a manual command itself; the
one that detects the alarm writes a stop and no other speed. -/
theorem alarm_lockout (c : Config) (es : List Event) (e : Event) :
    let s := run c es
    let t := run c (es ++ [e])
    ((t.alarmActive = true → t.mode = .manual) ∧
      (t.resumeMode ≠ .manual → t.alarmActive = true)) ∧
    (t.alarmActive = true →
      (∀ f ∈ t.tx, f.pid ≠ pidPosiCmd ∧ f.pid ≠ pidIncPosiCmd ∧ f.pid ≠ pidPosiReset) ∧
      t.homed = s.homed ∧
      (∀ rpm, TxFrame.velCmd rpm ∈ t.tx → rpm ≠ 0 → e.IsManual) ∧
      (s.alarmActive = false →
        TxFrame.velCmd 0 ∈ t.tx ∧ ∀ rpm, TxFrame.velCmd rpm ∈ t.tx → rpm = 0)) := by
  intro s t
  have ht : t = step c s e := run_append_singleton c es e
  have hs : Consistent c s := run_consistent c es
  have hct : Consistent c t := by
    rw [ht]
    exact step_consistent hs e
  refine ⟨⟨hct.manual_of_alarm, hct.alarm_of_resume⟩, ?_⟩
  intro ha
  rw [ht] at ha ⊢
  obtain ⟨hhomed, hframes⟩ := step_of_alarm hs e ha
  have hnonzero : ∀ rpm, TxFrame.velCmd rpm ∈ (step c s e).tx → rpm ≠ 0 → e.IsManual := by
    intro rpm hmem hne
    rcases hframes _ hmem with (h | h | h) | ⟨hman, -⟩
    · exact absurd (TxFrame.velCmd.inj h) hne
    · cases h
    · cases h
    · exact hman
  refine ⟨?_, hhomed, hnonzero, ?_⟩
  · intro f hf
    rcases hframes f hf with (rfl | rfl | rfl) | ⟨-, rpm, rfl⟩ <;>
      simp only [TxFrame.pid] <;> decide
  · intro hold
    obtain ⟨rxNow, now, frames, rfl⟩ := poll_of_alarm_change e (by rw [ha, hold]; decide)
    have h₀ : Consistent c { s with tx := [] } := hs.congr rfl rfl rfl rfl rfl
    refine ⟨pollTimer_stops h₀ rxNow frames hold ha, ?_⟩
    intro rpm hmem
    by_contra hne
    exact hnonzero rpm hmem hne

end PolishingRobot.Lift
