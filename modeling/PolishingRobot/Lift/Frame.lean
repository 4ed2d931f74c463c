import PolishingRobot.Lift.Stages

/-!
# What the stages leave unchanged, and what they write

`Writes P s t` says that `t` extends the written frames of `s` by frames that
satisfy `P`. The frame lemmas below let a poll be followed stage by stage.
-/

namespace PolishingRobot.Lift

variable (c : Config)

/-- Every frame written between `s` and `t` satisfies `P`. -/
def Writes (P : TxFrame → Prop) (s t : State) : Prop :=
  ∃ fs, t.tx = s.tx ++ fs ∧ ∀ f ∈ fs, P f

namespace Writes

variable {P Q : TxFrame → Prop} {s t u : State}

theorem refl (s : State) : Writes P s s := ⟨[], by simp, by simp⟩

theorem of_tx_eq (h : t.tx = s.tx) : Writes P s t := ⟨[], by simp [h], by simp⟩

theorem trans (h₁ : Writes P s t) (h₂ : Writes P t u) : Writes P s u := by
  obtain ⟨fs, hfs, hP⟩ := h₁
  obtain ⟨gs, hgs, hQ⟩ := h₂
  refine ⟨fs ++ gs, by rw [hgs, hfs, List.append_assoc], ?_⟩
  intro f hf
  exact (List.mem_append.mp hf).elim (hP f) (hQ f)

theorem mono (h : Writes P s t) (hPQ : ∀ f, P f → Q f) : Writes Q s t := by
  obtain ⟨fs, hfs, hP⟩ := h
  exact ⟨fs, hfs, fun f hf => hPQ f (hP f hf)⟩

/-- A frame written earlier is still there. -/
theorem mem_of_mem (h : Writes P s t) {f : TxFrame} (hf : f ∈ s.tx) : f ∈ t.tx := by
  obtain ⟨fs, hfs, _⟩ := h
  rw [hfs]
  exact List.mem_append_left _ hf

/-- A frame present at the end was there before or satisfies `P`. -/
theorem mem_cases (h : Writes P s t) {f : TxFrame} (hf : f ∈ t.tx) : f ∈ s.tx ∨ P f := by
  obtain ⟨fs, hfs, hP⟩ := h
  rw [hfs] at hf
  exact (List.mem_append.mp hf).imp id (hP f)

/-- From an empty log every frame satisfies `P`. -/
theorem forall_mem (h : Writes P s t) (hs : s.tx = []) {f : TxFrame} (hf : f ∈ t.tx) : P f := by
  rcases h.mem_cases hf with h' | h'
  · rw [hs] at h'
    cases h'
  · exact h'

theorem of_sent {f : TxFrame} (h : t.tx = s.tx ++ sent c f) (hf : P f) : Writes P s t := by
  refine ⟨sent c f, h, ?_⟩
  intro g hg
  obtain ⟨_, rfl⟩ := (mem_sent c).mp hg
  exact hf

end Writes

theorem sendVelocity_writes {P : TxFrame → Prop} (now : Time) (rpm : Int16) (s : State)
    (h : P (.velCmd rpm)) : Writes P s (sendVelocity c now rpm s) :=
  .of_sent c (sendVelocity_tx c now rpm s) h

theorem sendFrame_writes {P : TxFrame → Prop} (f : TxFrame) (s : State) (h : P f) :
    Writes P s (sendFrame c f s) :=
  .of_sent c (sendFrame_tx c f s) h

/-- A poll before its decisions has replaced the received data and written
its request, and nothing else. -/
theorem pollReceive_eq (rxNow : Time) (frames : List RxFrame) (s : State) :
    pollReceive c rxNow frames s =
      { s with
        rx := (if c.serialOpen then frames else []).foldl (handleFrame rxNow) s.rx
        tx := s.tx ++ sent c (.reqPidData pidMonitor) } := by
  rw [← sendFrame_tx]
  rfl

section

variable {c} {P : TxFrame → Prop} {now : Time} {pos : Int32} {fresh : Bool} {di st : UInt8}
  {s t : State}

theorem AlarmResetStep.writes {manual : Bool} (h : AlarmResetStep c now manual s t)
    (hstop : P (.velCmd 0)) (hreset : P .alarmReset) : Writes P s t := by
  cases h with
  | exhausted => exact .of_tx_eq rfl
  | sent =>
      apply (sendVelocity_writes c now 0 s hstop).trans
      exact .of_sent c (sendFrame_tx c .alarmReset _) hreset

theorem AutoResetStep.writes (h : AutoResetStep c now s t) (hstop : P (.velCmd 0))
    (hreset : P .alarmReset) : Writes P s t := by
  cases h with
  | idle => exact .refl s
  | retry _ _ _ _ h => exact h.writes hstop hreset

theorem raiseAlarm_writes (now : Time) (s : State) (hstop : P (.velCmd 0)) :
    Writes P s (raiseAlarm c now s) := by
  apply (sendVelocity_writes c now 0 s hstop).trans
  rw [raiseAlarm_eq]
  exact .of_tx_eq rfl

theorem ResumeStep.writes (h : ResumeStep c now pos s t)
    (habs : s.homed = true → s.resumeMode = .position → P (.posiCmd s.resumeTarget))
    (hrel : s.homed = false → P (.incPosiCmd (s.resumeTarget - pos))) : Writes P s t := by
  cases h with
  | nothing => exact .refl s
  | givenUp => exact .of_tx_eq rfl
  | homing => exact .of_tx_eq rfl
  | absolute hr hhomed => exact .of_sent c rfl (habs hhomed hr)
  | relative _ hhomed => exact .of_sent c rfl (hrel hhomed)

/-- The alarm stage writes stops, resets, and the resumed move. -/
theorem AlarmStep.writes (h : AlarmStep c now st fresh pos s t) (hstop : P (.velCmd 0))
    (hreset : P .alarmReset)
    (habs : s.homed = true → s.resumeMode = .position → P (.posiCmd s.resumeTarget))
    (hrel : s.homed = false → P (.incPosiCmd (s.resumeTarget - pos))) : Writes P s t := by
  cases h with
  | stale => exact .refl s
  | quiet => exact .refl s
  | cleared _ _ _ h =>
      have hclear : Writes P s (clearAlarm s) := .of_tx_eq rfl
      exact hclear.trans (h.writes habs hrel)
  | raised _ _ _ h => exact (raiseAlarm_writes now s hstop).trans (h.writes hstop hreset)
  | standing _ _ _ h => exact h.writes hstop hreset

theorem AutoHomeStep.writes (h : AutoHomeStep c now fresh s t) : Writes P s t := by
  cases h with
  | idle => exact .refl s
  | started => exact .of_tx_eq rfl

theorem finishHoming_writes (now : Time) (s : State) (hstop : P (.velCmd 0))
    (hreset : P .posiReset) (hmax : ∀ rpm, P (.tarPosiVel rpm)) :
    Writes P s (finishHoming c now s) := by
  refine ⟨sent c (.velCmd 0) ++ sent c .posiReset ++
    if 0 < posiBaseVelRpm c ∧ 1 < c.postHomeSpeedScale then
      sent c (.tarPosiVel (scaledPositionVel c)) else [], ?_, ?_⟩
  · rw [finishHoming_eq]
    simp only [List.append_assoc]
  · intro f hf
    rcases List.mem_append.mp hf with hf | hf
    · rcases List.mem_append.mp hf with hf | hf
      · rw [((mem_sent c).mp hf).2]
        exact hstop
      · rw [((mem_sent c).mp hf).2]
        exact hreset
    · split at hf
      · rw [((mem_sent c).mp hf).2]
        exact hmax _
      · cases hf

/-- The motion stage writes speeds, and at the end of homing the origin reset
and the raised position speed. -/
theorem MotionStep.writes (h : MotionStep c now pos fresh di s t)
    (hvel : ∀ rpm, P (.velCmd rpm)) (hreset : P .posiReset)
    (hmax : ∀ rpm, P (.tarPosiVel rpm)) : Writes P s t := by
  cases h with
  | idle => exact .refl s
  | reached => exact .of_tx_eq rfl
  | homing _ h =>
      have hsend := sendVelocity_writes c now s.homeDirSpeed s (hvel s.homeDirSpeed)
      cases h with
      | timeout => exact (sendVelocity_writes c now 0 s (hvel 0)).trans (.of_tx_eq rfl)
      | limit => exact finishHoming_writes now s (hvel 0) hreset hmax
      | unheard => exact hsend.trans (.of_tx_eq rfl)
      | moving => exact hsend.trans (.of_tx_eq rfl)
      | stalled => exact hsend.trans (finishHoming_writes now _ (hvel 0) hreset hmax)
      | waiting => exact hsend

theorem ReleaseStep.writes (h : ReleaseStep c now pos fresh di s t) (hstop : P (.velCmd 0)) :
    Writes P s t := by
  cases h with
  | idle => exact .refl s
  | watch => exact .of_tx_eq rfl
  | release => exact sendVelocity_writes c now 0 s hstop

theorem pollReceive_writes (rxNow : Time) (frames : List RxFrame) (s : State)
    (hask : P (.reqPidData pidMonitor)) : Writes P s (pollReceive c rxNow frames s) :=
  .of_sent c (by rw [pollReceive_eq]) hask

end

@[simp] theorem sendVelocity_rx (now : Time) (rpm : Int16) (s : State) :
    (sendVelocity c now rpm s).rx = s.rx := by
  rw [sendVelocity_eq]

@[simp] theorem raiseAlarm_rx (now : Time) (s : State) : (raiseAlarm c now s).rx = s.rx := by
  rw [raiseAlarm_eq]
  exact sendVelocity_rx c now 0 s

@[simp] theorem finishHoming_rx (now : Time) (s : State) :
    (finishHoming c now s).rx = s.rx := by
  rw [finishHoming_eq]
  exact sendVelocity_rx c now 0 s

section

variable {c} {now : Time} {pos : Int32} {fresh : Bool} {di st : UInt8} {s t : State}

theorem AlarmResetStep.rx_eq {manual : Bool} (h : AlarmResetStep c now manual s t) :
    t.rx = s.rx := by
  cases h with
  | exhausted => rfl
  | sent => exact sendVelocity_rx c now 0 s

theorem AutoResetStep.rx_eq (h : AutoResetStep c now s t) : t.rx = s.rx := by
  cases h with
  | idle => rfl
  | retry _ _ _ _ h => exact h.rx_eq

theorem ResumeStep.rx_eq (h : ResumeStep c now pos s t) : t.rx = s.rx := by
  cases h <;> rfl

theorem AlarmStep.rx_eq (h : AlarmStep c now st fresh pos s t) : t.rx = s.rx := by
  cases h with
  | stale => rfl
  | quiet => rfl
  | cleared _ _ _ h => exact h.rx_eq
  | raised _ _ _ h => exact h.rx_eq.trans (raiseAlarm_rx c now s)
  | standing _ _ _ h => exact h.rx_eq

theorem AutoHomeStep.rx_eq (h : AutoHomeStep c now fresh s t) : t.rx = s.rx := by
  cases h <;> rfl

theorem HomingStep.rx_eq (h : HomingStep c now pos fresh di s t) : t.rx = s.rx := by
  cases h with
  | timeout => exact sendVelocity_rx c now 0 s
  | limit => exact finishHoming_rx c now s
  | unheard => exact sendVelocity_rx c now s.homeDirSpeed s
  | moving => exact sendVelocity_rx c now s.homeDirSpeed s
  | stalled =>
      exact (finishHoming_rx c now _).trans (sendVelocity_rx c now s.homeDirSpeed s)
  | waiting => exact sendVelocity_rx c now s.homeDirSpeed s

theorem MotionStep.rx_eq (h : MotionStep c now pos fresh di s t) : t.rx = s.rx := by
  cases h with
  | idle => rfl
  | homing _ h => exact h.rx_eq
  | reached => rfl

theorem ReleaseStep.rx_eq (h : ReleaseStep c now pos fresh di s t) : t.rx = s.rx := by
  cases h with
  | idle => rfl
  | watch => rfl
  | release => exact sendVelocity_rx c now 0 s

end

theorem pollDecide_rx (c : Config) (now : Time) (s : State) : (pollDecide c now s).rx = s.rx := by
  obtain ⟨u, v, w, -, hu, hv, hw, hr⟩ := pollDecide_stages c now s
  rw [hr.rx_eq, hw.rx_eq, hv.rx_eq, hu.rx_eq]

/-- Callbacks other than polls leave the received data alone. -/
theorem callback_rx (c : Config) (s : State) (e : Event)
    (he : ∀ rxNow now frames, e ≠ .poll rxNow now frames) : (callback c s e).rx = s.rx := by
  cases e with
  | poll rxNow now frames => exact absurd rfl (he rxNow now frames)
  | command now cmd =>
      dsimp only [callback, commandCallback]
      split_ifs <;> simp [cancelResume]
  | velocityCmd now rpm => simp [callback, velocityCmdCallback, cancelResume]
  | positionCmd now target =>
      dsimp only [callback, positionCmdCallback]
      split_ifs <;> rfl
  | incPositionCmd now inc =>
      dsimp only [callback, incPositionCmdCallback]
      split_ifs <;> rfl
  | home now start =>
      dsimp only [callback, homeCallback]
      split_ifs <;> simp [cancelResume]
  | reset now on =>
      dsimp only [callback]
      unfold resetCallback
      split
      · rfl
      · dsimp only
        split
        · rfl
        · exact (requestAlarmReset_step c now true _).rx_eq

end PolishingRobot.Lift
