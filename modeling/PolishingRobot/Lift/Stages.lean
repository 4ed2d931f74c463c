import PolishingRobot.Lift.Driver

/-!
# What each poll stage can do

One inductive predicate per stage lists the outcomes with the guards under
which they occur. Later proofs split on these cases and never unfold a stage.
-/

namespace PolishingRobot.Lift

variable (c : Config)

/-- The record `sendVelocity` returns, field by field. -/
theorem sendVelocity_eq (now : Time) (rpm : Int16) (s : State) :
    sendVelocity c now rpm s =
      { s with
        lastVelCmd := rpm
        velCmdTime := if rpm ≠ s.lastVelCmd then now else s.velCmdTime
        velRefValid := if rpm ≠ s.lastVelCmd then false else s.velRefValid
        tx := if c.serialOpen then s.tx ++ [.velCmd rpm] else s.tx } := by
  by_cases h : rpm = s.lastVelCmd
  · subst h
    simp [sendVelocity, sendFrame]
  · simp [sendVelocity, sendFrame, h]

/-- The frames written by one send. -/
def sent (f : TxFrame) : List TxFrame := if c.serialOpen then [f] else []

theorem mem_sent {f g : TxFrame} : g ∈ sent c f ↔ c.serialOpen = true ∧ g = f := by
  by_cases h : c.serialOpen = true <;> simp [sent, h]

theorem sendFrame_tx (f : TxFrame) (s : State) : (sendFrame c f s).tx = s.tx ++ sent c f := by
  by_cases h : c.serialOpen = true <;> simp [sendFrame, sent, h]

theorem sendVelocity_tx (now : Time) (rpm : Int16) (s : State) :
    (sendVelocity c now rpm s).tx = s.tx ++ sent c (.velCmd rpm) := by
  by_cases h : c.serialOpen = true <;> simp [sendVelocity_eq, sent, h]

/-- Outcomes of `requestAlarmReset`. -/
inductive AlarmResetStep (now : Time) (manual : Bool) (s : State) : State → Prop
  | exhausted (hauto : manual = false) (hlimit : 0 < c.alarmResetMaxAttempts)
      (hle : c.alarmResetMaxAttempts ≤ s.alarmResetAttempts) :
      AlarmResetStep now manual s { s with alarmResetExhausted := true }
  | sent (hauto : manual = false → 0 < c.alarmResetMaxAttempts →
        s.alarmResetAttempts < c.alarmResetMaxAttempts) :
      AlarmResetStep now manual s
        { sendAlarmReset c (sendVelocity c now 0 s) with
          lastAlarmReset := now, alarmResetAttempts := s.alarmResetAttempts + 1 }

theorem requestAlarmReset_step (now : Time) (manual : Bool) (s : State) :
    AlarmResetStep c now manual s (requestAlarmReset c now manual s) := by
  unfold requestAlarmReset
  split
  · rename_i h
    exact .exhausted (by simpa using h.1) h.2.1 h.2.2
  · rename_i h
    have hattempts : (sendAlarmReset c (sendVelocity c now 0 s)).alarmResetAttempts =
        s.alarmResetAttempts := by
      simp [sendAlarmReset, sendFrame, sendVelocity_eq]
    simp only [hattempts]
    refine .sent fun hm hpos => ?_
    by_contra hle
    exact h ⟨by simp [hm], hpos, Nat.le_of_not_lt hle⟩

/-- Outcomes of `autoAlarmReset`. -/
inductive AutoResetStep (now : Time) (s : State) : State → Prop
  | idle : AutoResetStep now s s
  | retry {t : State} (hactive : s.alarmActive = true) (hauto : c.autoResetOnAlarm = true)
      (hleft : s.alarmResetExhausted = false)
      (htime : s.lastAlarmReset = 0 ∨ c.alarmResetIntervalSec ≤ now - s.lastAlarmReset)
      (h : AlarmResetStep c now false s t) : AutoResetStep now s t

theorem autoAlarmReset_step (now : Time) (s : State) :
    AutoResetStep c now s (autoAlarmReset c now s) := by
  unfold autoAlarmReset
  split
  · rename_i h
    split
    · rename_i htime
      exact .retry h.1 h.2.1 (by simpa using h.2.2) htime (requestAlarmReset_step c now false s)
    · exact .idle
  · exact .idle

/-- Outcomes of `resumeAfterAlarm`. -/
inductive ResumeStep (now : Time) (pos : Int32) (s : State) : State → Prop
  | nothing (hr : s.resumeMode = .manual) : ResumeStep now pos s s
  | givenUp (hr : s.resumeMode ≠ .manual) (hlimit : 0 < c.alarmResumeMaxCycles)
      (hle : c.alarmResumeMaxCycles ≤ s.resumeCycles) :
      ResumeStep now pos s { s with resumeMode := .manual }
  | homing (hr : s.resumeMode = .homing) :
      ResumeStep now pos s
        { s with
          resumeCycles := s.resumeCycles + 1, resumeMode := .manual, mode := .homing
          homeStart := now, stallTracking := false }
  | absolute (hr : s.resumeMode = .position) (hhomed : s.homed = true)
      (hcycles : 0 < c.alarmResumeMaxCycles → s.resumeCycles < c.alarmResumeMaxCycles) :
      ResumeStep now pos s
        { s with
          resumeCycles := s.resumeCycles + 1, resumeMode := .manual, mode := .position
          targetPos := s.resumeTarget, tx := s.tx ++ sent c (.posiCmd s.resumeTarget) }
  | relative (hr : s.resumeMode = .position) (hhomed : s.homed = false)
      (hcycles : 0 < c.alarmResumeMaxCycles → s.resumeCycles < c.alarmResumeMaxCycles) :
      ResumeStep now pos s
        { s with
          resumeCycles := s.resumeCycles + 1, resumeMode := .manual, mode := .position
          targetPos := s.resumeTarget, tx := s.tx ++ sent c (.incPosiCmd (s.resumeTarget - pos)) }

theorem resumeAfterAlarm_step (now : Time) (pos : Int32) (s : State) :
    ResumeStep c now pos s (resumeAfterAlarm c now pos s) := by
  unfold resumeAfterAlarm
  by_cases hr : s.resumeMode = .manual
  · simpa only [hr, if_true] using ResumeStep.nothing hr
  rw [if_neg hr]
  by_cases hlimit : 0 < c.alarmResumeMaxCycles ∧ c.alarmResumeMaxCycles ≤ s.resumeCycles
  · rw [if_pos hlimit]
    exact .givenUp hr hlimit.1 hlimit.2
  rw [if_neg hlimit]
  have hcycles : 0 < c.alarmResumeMaxCycles → s.resumeCycles < c.alarmResumeMaxCycles :=
    fun h => Nat.lt_of_not_le fun hle => hlimit ⟨h, hle⟩
  by_cases hhoming : s.resumeMode = .homing
  · rw [if_pos hhoming]
    exact .homing hhoming
  rw [if_neg hhoming]
  have hposition : s.resumeMode = .position := by
    cases hmode : s.resumeMode <;> simp_all
  by_cases hhomed : s.homed = true
  · have h : ResumeStep c now pos s _ := .absolute hposition hhomed hcycles
    simpa [hhomed, sendPosition, sendFrame, sent, apply_ite (s.tx ++ ·)] using h
  · have h : ResumeStep c now pos s _ := .relative hposition (by simpa using hhomed) hcycles
    simpa [hhomed, sendIncPosition, sendFrame, sent, apply_ite (s.tx ++ ·)] using h

/-- The rising edge stops the lift and remembers a position move only. -/
theorem raiseAlarm_eq (now : Time) (s : State) :
    raiseAlarm c now s =
      { sendVelocity c now 0 s with
        alarmActive := true
        alarmResetAttempts := 0
        alarmResetExhausted := false
        lastAlarmReset := 0
        resumeMode := if s.mode = .position then .position else s.resumeMode
        resumeTarget := if s.mode = .position then s.targetPos else s.resumeTarget
        mode := .manual } := by
  unfold raiseAlarm
  simp only [sendVelocity_eq]
  cases hmode : s.mode <;> simp

/-- The falling edge before the resume. -/
def clearAlarm (s : State) : State :=
  { s with alarmActive := false, alarmResetAttempts := 0, alarmResetExhausted := false }

/-- Outcomes of `updateAlarm`. -/
inductive AlarmStep (now : Time) (st : UInt8) (fresh : Bool) (pos : Int32) (s : State) :
    State → Prop
  | stale (hfresh : fresh = false) : AlarmStep now st fresh pos s s
  | quiet (hfresh : fresh = true) (hbit : alarmBit st = false)
      (hactive : s.alarmActive = false) : AlarmStep now st fresh pos s s
  | cleared {t : State} (hfresh : fresh = true) (hbit : alarmBit st = false)
      (hactive : s.alarmActive = true) (h : ResumeStep c now pos (clearAlarm s) t) :
      AlarmStep now st fresh pos s t
  | raised {t : State} (hfresh : fresh = true) (hbit : alarmBit st = true)
      (hactive : s.alarmActive = false) (h : AutoResetStep c now (raiseAlarm c now s) t) :
      AlarmStep now st fresh pos s t
  | standing {t : State} (hfresh : fresh = true) (hbit : alarmBit st = true)
      (hactive : s.alarmActive = true) (h : AutoResetStep c now s t) :
      AlarmStep now st fresh pos s t

theorem updateAlarm_step (now : Time) (st : UInt8) (fresh : Bool) (pos : Int32) (s : State) :
    AlarmStep c now st fresh pos s (updateAlarm c now st fresh pos s) := by
  unfold updateAlarm
  cases hfresh : fresh with
  | false => simpa using AlarmStep.stale rfl
  | true =>
      cases hbit : alarmBit st <;> cases hactive : s.alarmActive
      · have hidle : autoAlarmReset c now s = s := by simp [autoAlarmReset, hactive]
        simpa [hactive, hidle] using AlarmStep.quiet rfl hbit hactive
      · simpa [hactive, clearAlarm] using
          AlarmStep.cleared rfl hbit hactive (resumeAfterAlarm_step c now pos (clearAlarm s))
      · simpa [hactive] using
          AlarmStep.raised rfl hbit hactive (autoAlarmReset_step c now (raiseAlarm c now s))
      · simpa [hactive] using
          AlarmStep.standing rfl hbit hactive (autoAlarmReset_step c now s)

/-- The state a successful homing run leaves. -/
theorem finishHoming_eq (now : Time) (s : State) :
    finishHoming c now s =
      { sendVelocity c now 0 s with
        homed := true
        mode := .manual
        resumeCycles := 0
        tx := s.tx ++ sent c (.velCmd 0) ++ sent c .posiReset ++
          if 0 < posiBaseVelRpm c ∧ 1 < c.postHomeSpeedScale then
            sent c (.tarPosiVel (scaledPositionVel c)) else [] } := by
  unfold finishHoming
  by_cases hscale : 0 < posiBaseVelRpm c ∧ 1 < c.postHomeSpeedScale <;>
    cases hopen : c.serialOpen <;>
    simp [hscale, sendPositionReset, sendPositionVel, sendFrame, sendVelocity_eq, sent, hopen]

/-- Outcomes of `updateHoming`. -/
inductive HomingStep (now : Time) (pos : Int32) (fresh : Bool) (di : UInt8) (s : State) :
    State → Prop
  | timeout (h : c.homeTimeoutSec < now - s.homeStart) :
      HomingStep now pos fresh di s
        { sendVelocity c now 0 s with mode := .manual, resumeCycles := 0 }
  | limit (htime : ¬ c.homeTimeoutSec < now - s.homeStart)
      (huse : c.useLimitSwitchForHome = true) (hlow : atLowerLimit c di fresh = true) :
      HomingStep now pos fresh di s (finishHoming c now s)
  | unheard (hfresh : fresh = false) :
      HomingStep now pos fresh di s
        { sendVelocity c now s.homeDirSpeed s with stallTracking := false }
  | moving (hfresh : fresh = true)
      (h : s.stallTracking = false ∨ c.homeStallCounts < (pos - s.stallRefPos).abs) :
      HomingStep now pos fresh di s
        { sendVelocity c now s.homeDirSpeed s with
          stallRefPos := pos, stallSince := now, stallTracking := true }
  | stalled (hfresh : fresh = true) (htime : ¬ c.homeTimeoutSec < now - s.homeStart)
      (hlow : ¬ (c.useLimitSwitchForHome = true ∧ atLowerLimit c di fresh = true))
      (htrack : s.stallTracking = true)
      (hstill : ¬ c.homeStallCounts < (pos - s.stallRefPos).abs)
      (hmin : c.homeMinSec ≤ now - s.homeStart) (hstall : c.homeStallSec ≤ now - s.stallSince) :
      HomingStep now pos fresh di s
        (finishHoming c now (sendVelocity c now s.homeDirSpeed s))
  | waiting (hfresh : fresh = true) (htrack : s.stallTracking = true)
      (h : ¬ (c.homeMinSec ≤ now - s.homeStart ∧ c.homeStallSec ≤ now - s.stallSince)) :
      HomingStep now pos fresh di s (sendVelocity c now s.homeDirSpeed s)

theorem updateHoming_step (now : Time) (pos : Int32) (fresh : Bool) (di : UInt8) (s : State) :
    HomingStep c now pos fresh di s (updateHoming c now pos fresh di s) := by
  have hv : (sendVelocity c now s.homeDirSpeed s).stallTracking = s.stallTracking ∧
      (sendVelocity c now s.homeDirSpeed s).stallRefPos = s.stallRefPos ∧
      (sendVelocity c now s.homeDirSpeed s).stallSince = s.stallSince ∧
      (sendVelocity c now s.homeDirSpeed s).homeStart = s.homeStart := by
    simp [sendVelocity_eq]
  obtain ⟨htracking, href, hsince, hstart⟩ := hv
  unfold updateHoming
  split
  · exact .timeout ‹_›
  rename_i htime
  split
  · rename_i hlow
    exact .limit htime hlow.1 hlow.2
  rename_i hlow
  dsimp only
  split
  · rename_i hfresh
    exact .unheard (by simpa using hfresh)
  rename_i hfresh
  have hfresh : fresh = true := by simpa using hfresh
  split
  · rename_i hmove
    rw [htracking, href] at hmove
    exact .moving hfresh (by simpa using hmove)
  rename_i hmove
  rw [htracking, href] at hmove
  obtain ⟨htrack, hstill⟩ := not_or.mp hmove
  have htrack : s.stallTracking = true := by simpa using htrack
  split
  · rename_i hdone
    rw [hstart, hsince] at hdone
    exact .stalled hfresh htime hlow htrack hstill hdone.1 hdone.2
  · rename_i hdone
    rw [hstart, hsince] at hdone
    exact .waiting hfresh htrack hdone

/-- Outcomes of `updateMotion`. -/
inductive MotionStep (now : Time) (pos : Int32) (fresh : Bool) (di : UInt8) (s : State) :
    State → Prop
  | idle (h : s.mode ≠ .homing) : MotionStep now pos fresh di s s
  | homing {t : State} (hmode : s.mode = .homing) (h : HomingStep c now pos fresh di s t) :
      MotionStep now pos fresh di s t
  | reached (hmode : s.mode = .position) (hfresh : fresh = true)
      (htol : (s.targetPos - pos).abs ≤ c.inPositionTol) :
      MotionStep now pos fresh di s { s with mode := .manual, resumeCycles := 0 }

theorem updateMotion_step (now : Time) (pos : Int32) (fresh : Bool) (di : UInt8) (s : State) :
    MotionStep c now pos fresh di s (updateMotion c now pos fresh di s) := by
  unfold updateMotion
  cases hmode : s.mode with
  | manual => exact .idle (by simp [hmode])
  | homing => exact .homing hmode (updateHoming_step c now pos fresh di s)
  | position =>
      dsimp only
      split
      · rename_i h
        exact .reached hmode h.1 h.2
      · exact .idle (by simp [hmode])

/-- Outcomes of `releaseIfBlocked`. -/
inductive ReleaseStep (now : Time) (pos : Int32) (fresh : Bool) (di : UInt8) (s : State) :
    State → Prop
  | idle : ReleaseStep now pos fresh di s s
  | watch : ReleaseStep now pos fresh di s
      { s with velRefPos := pos, velRefTime := now, velRefValid := true }
  | release (hmode : s.mode = .manual) (hvel : s.lastVelCmd ≠ 0) (hfresh : fresh = true) :
      ReleaseStep now pos fresh di s (sendVelocity c now 0 s)

theorem releaseIfBlocked_step (now : Time) (pos : Int32) (fresh : Bool) (di : UInt8)
    (s : State) : ReleaseStep c now pos fresh di s (releaseIfBlocked c now pos fresh di s) := by
  unfold releaseIfBlocked
  split
  · exact .idle
  rename_i h
  have hmode : s.mode = .manual := by
    by_contra hne
    exact h (.inr (.inl hne))
  have hvel : s.lastVelCmd ≠ 0 := fun h0 => h (.inr (.inr (.inl h0)))
  have hfresh : fresh = true := by
    by_contra hne
    exact h (.inr (.inr (.inr hne)))
  split
  · exact .release hmode hvel hfresh
  split
  · exact .idle
  split
  · exact .watch
  split
  · exact .release hmode hvel hfresh
  · exact .idle

/-- The state an accepted homing request leaves. -/
def homingStarted (now : Time) (s : State) : State :=
  cancelResume { s with
    homeDirSpeed := (-(if 0 ≤ c.upSpeedRpm then 1 else -1 : Int32) * homingSpeed c).toInt16
    mode := .homing
    homeStart := now
    stallTracking := false
    pendingHome := false }

/-- A homing request either leaves the state alone or starts a run. -/
theorem homeCallback_true (now : Time) (s : State) :
    homeCallback c now true s =
      if s.alarmActive = true ∨ homingSpeed c = 0 then s else homingStarted c now s := by
  unfold homeCallback homingStarted
  by_cases ha : s.alarmActive = true
  · simp [ha]
  · by_cases hs : homingSpeed c = 0 <;> simp [ha, hs]

/-- Outcomes of `autoHome`. -/
inductive AutoHomeStep (now : Time) (fresh : Bool) (s : State) : State → Prop
  | idle (h : s.pendingHome = false ∨ fresh = false ∨ s.alarmActive = true ∨
      homingSpeed c = 0) : AutoHomeStep now fresh s s
  | started (hpending : s.pendingHome = true) (hfresh : fresh = true)
      (hactive : s.alarmActive = false) (hspeed : homingSpeed c ≠ 0) :
      AutoHomeStep now fresh s (homingStarted c now s)

theorem autoHome_step (now : Time) (fresh : Bool) (s : State) :
    AutoHomeStep c now fresh s (autoHome c now fresh s) := by
  unfold autoHome
  split
  · rename_i h
    rw [homeCallback_true]
    split
    · rename_i h'
      exact .idle (.inr (.inr h'))
    · rename_i h'
      obtain ⟨ha, hs⟩ := not_or.mp h'
      exact .started h.1 h.2.1 (by simpa using ha) hs
  · rename_i h
    refine .idle ?_
    cases hp : s.pendingHome <;> cases hf : fresh <;> cases ha : s.alarmActive <;> simp_all

/-- The driver when a poll has taken its frames. -/
def polled (rxNow : Time) (frames : List RxFrame) (s : State) : State :=
  pollReceive c rxNow frames { s with tx := [] }

/-- The state that the motion stage of a poll finds. -/
def beforeMotion (now : Time) (s : State) : State :=
  autoHome c now (isFresh c now s.rx)
    (updateAlarm c now s.rx.statusByte (isFresh c now s.rx) s.rx.position s)

/-- The second half of a poll passes through its four stages. -/
theorem pollDecide_stages (now : Time) (s : State) :
    ∃ u v w, beforeMotion c now s = v ∧
      AlarmStep c now s.rx.statusByte (isFresh c now s.rx) s.rx.position s u ∧
      AutoHomeStep c now (isFresh c now s.rx) u v ∧
      MotionStep c now s.rx.position (isFresh c now s.rx) s.rx.diByte v w ∧
      ReleaseStep c now s.rx.position (isFresh c now s.rx) s.rx.diByte w (pollDecide c now s) :=
  ⟨_, _, _, rfl, updateAlarm_step c now _ _ _ s, autoHome_step c now _ _,
    updateMotion_step c now _ _ _ _, releaseIfBlocked_step c now _ _ _ _⟩

end PolishingRobot.Lift
