import PolishingRobot.Lift.ModeInvariant
import PolishingRobot.Runs.LabelledRuns

/-!
# Where the origin is set

A successful homing run resets the position counter. It has two exits: the
lower limit input, and the inference from a position that stands still. With
`useLimitSwitchForHome` the second exit stays open, and it is the only way to
set the origin away from the limit.
-/

namespace PolishingRobot.Lift

open Runs

variable {c : Config} {now : Time} {pos : Int32} {fresh : Bool} {di st : UInt8} {s t u : State}

/-- No origin reset is written and the origin flag is as before. -/
structure KeepsOrigin (s t : State) : Prop where
  homed_eq : t.homed = s.homed
  writes : Writes (· ≠ .posiReset) s t

namespace KeepsOrigin

theorem refl (s : State) : KeepsOrigin s s := ⟨rfl, .refl s⟩

theorem trans (h₁ : KeepsOrigin s t) (h₂ : KeepsOrigin t u) : KeepsOrigin s u :=
  ⟨h₂.homed_eq.trans h₁.homed_eq, h₁.writes.trans h₂.writes⟩

/-- Neither the flag nor the written frames change. -/
theorem of_eq (hhomed : t.homed = s.homed) (htx : t.tx = s.tx) : KeepsOrigin s t :=
  ⟨hhomed, .of_tx_eq htx⟩

/-- One other frame is written. -/
theorem of_sent {f : TxFrame} (hhomed : t.homed = s.homed) (htx : t.tx = s.tx ++ sent c f)
    (hf : f ≠ .posiReset) : KeepsOrigin s t :=
  ⟨hhomed, .of_sent c htx hf⟩

end KeepsOrigin

theorem sendVelocity_keepsOrigin (c : Config) (now : Time) (rpm : Int16) (s : State) :
    KeepsOrigin s (sendVelocity c now rpm s) := by
  apply KeepsOrigin.of_sent _ (sendVelocity_tx c now rpm s) (by simp)
  rw [sendVelocity_eq]

theorem AlarmResetStep.keepsOrigin {manual : Bool} (h : AlarmResetStep c now manual s t) :
    KeepsOrigin s t := by
  cases h with
  | exhausted => exact .of_eq rfl rfl
  | sent =>
      apply (sendVelocity_keepsOrigin c now 0 s).trans
      exact .of_sent rfl (sendFrame_tx c .alarmReset _) (by simp)

theorem AutoResetStep.keepsOrigin (h : AutoResetStep c now s t) : KeepsOrigin s t := by
  cases h with
  | idle => exact .refl s
  | retry _ _ _ _ h => exact h.keepsOrigin

theorem raiseAlarm_keepsOrigin (c : Config) (now : Time) (s : State) :
    KeepsOrigin s (raiseAlarm c now s) := by
  apply (sendVelocity_keepsOrigin c now 0 s).trans
  rw [raiseAlarm_eq]
  exact .of_eq rfl rfl

theorem ResumeStep.keepsOrigin (h : ResumeStep c now pos s t) : KeepsOrigin s t := by
  cases h with
  | nothing => exact .refl s
  | givenUp => exact .of_eq rfl rfl
  | homing => exact .of_eq rfl rfl
  | absolute => exact .of_sent rfl rfl (by simp)
  | relative => exact .of_sent rfl rfl (by simp)

theorem AlarmStep.keepsOrigin (h : AlarmStep c now st fresh pos s t) : KeepsOrigin s t := by
  cases h with
  | stale => exact .refl s
  | quiet => exact .refl s
  | cleared _ _ _ h =>
      have hclear : KeepsOrigin s (clearAlarm s) := .of_eq rfl rfl
      exact hclear.trans h.keepsOrigin
  | raised _ _ _ h => exact (raiseAlarm_keepsOrigin c now s).trans h.keepsOrigin
  | standing _ _ _ h => exact h.keepsOrigin

theorem AutoHomeStep.keepsOrigin (h : AutoHomeStep c now fresh s t) : KeepsOrigin s t := by
  cases h with
  | idle => exact .refl s
  | started => exact .of_eq rfl rfl

theorem ReleaseStep.keepsOrigin (h : ReleaseStep c now pos fresh di s t) : KeepsOrigin s t := by
  cases h with
  | idle => exact .refl s
  | watch => exact .of_eq rfl rfl
  | release => exact sendVelocity_keepsOrigin c now 0 s

/-- The test of the exit that infers the limit from a position that stands
still, on the data and the members a poll finds. -/
def StandsStill (c : Config) (now : Time) (s : State) : Prop :=
  s.stallTracking = true ∧ ¬ c.homeStallCounts < (s.rx.position - s.stallRefPos).abs ∧
    c.homeMinSec ≤ now - s.homeStart ∧ c.homeStallSec ≤ now - s.stallSince

/-- The motion stage keeps the origin or leaves homing by one of its two
exits. -/
theorem MotionStep.origin_cases (h : MotionStep c now s.rx.position fresh di s t)
    (huse : c.useLimitSwitchForHome = true) :
    KeepsOrigin s t ∨ atLowerLimit c di fresh = true ∨
      (s.mode = .homing ∧ fresh = true ∧ ¬ c.homeTimeoutSec < now - s.homeStart ∧
        atLowerLimit c di fresh = false ∧ StandsStill c now s) := by
  cases h with
  | idle => exact .inl (.refl s)
  | reached => exact .inl (.of_eq rfl rfl)
  | homing hmode h =>
      have hsend := sendVelocity_keepsOrigin c now s.homeDirSpeed s
      cases h with
      | timeout =>
          apply Or.inl
          exact (sendVelocity_keepsOrigin c now 0 s).trans (.of_eq rfl rfl)
      | limit _ _ hlow => exact .inr (.inl hlow)
      | unheard => exact .inl (hsend.trans (.of_eq rfl rfl))
      | moving => exact .inl (hsend.trans (.of_eq rfl rfl))
      | stalled hfresh htime hlow htrack hstill hmin hstall =>
          have hhigh : atLowerLimit c di fresh = false := by
            apply Bool.eq_false_iff.mpr
            intro hat
            exact hlow ⟨huse, hat⟩
          exact .inr (.inr ⟨hmode, hfresh, htime, hhigh, htrack, hstill, hmin, hstall⟩)
      | waiting => exact .inl hsend

/-- While homing stands still above the limit, the motion stage takes the
inference exit. -/
theorem MotionStep.resets (h : MotionStep c now s.rx.position fresh di s t)
    (hopen : c.serialOpen = true) (hmode : s.mode = .homing) (hfresh : fresh = true)
    (htime : ¬ c.homeTimeoutSec < now - s.homeStart)
    (hhigh : atLowerLimit c di fresh = false) (hstill : StandsStill c now s) :
    TxFrame.posiReset ∈ t.tx := by
  obtain ⟨htrack, hnear, hmin, hstall⟩ := hstill
  cases h with
  | idle hne => exact absurd hmode hne
  | reached hpos => rw [hmode] at hpos; cases hpos
  | homing _ h =>
      cases h with
      | timeout hover => exact absurd hover htime
      | limit _ _ hlow => rw [hhigh] at hlow; cases hlow
      | unheard hstale => rw [hfresh] at hstale; cases hstale
      | moving _ hmove =>
          rcases hmove with hidle | hfar
          · rw [htrack] at hidle; cases hidle
          · exact absurd hfar hnear
      | stalled =>
          rw [finishHoming_eq]
          simp [sent, hopen]
      | waiting _ _ hwait => exact absurd ⟨hmin, hstall⟩ hwait

/-- A poll takes the inference exit: homing runs without a start-up homing or
an alarm in this poll, the data is fresh, the time is not up, the limit input
reads "not reached", and the position has stood still long enough. -/
def StallExit (c : Config) (s : State) : Event → Prop
  | .poll rxNow now frames =>
      let r := pollReceive c rxNow frames s
      r.mode = .homing ∧ isFresh c now r.rx = true ∧ alarmBit r.rx.statusByte = false ∧
        ¬ c.homeTimeoutSec < now - r.homeStart ∧
        atLowerLimit c r.rx.diByte (isFresh c now r.rx) = false ∧ StandsStill c now r
  | _ => False

/-- The step writes an origin reset or sets the origin flag. -/
def SetsOrigin (s t : State) : Prop :=
  TxFrame.posiReset ∈ t.tx ∨ (s.homed = false ∧ t.homed = true)

/-- The step is a poll whose data is fresh and whose limit input reads 0. -/
def AtLimitPoll (c : Config) (t : State) : Event → Prop
  | .poll _ now _ =>
      isFresh c now t.rx = true ∧ t.rx.diByte &&& c.limitDiDescendMask.toInt8.toUInt8 = 0
  | _ => False

theorem KeepsOrigin.not_setsOrigin (h : KeepsOrigin s t) (hs : s.tx = []) :
    ¬ SetsOrigin s t := by
  rintro (hreset | ⟨hold, hnew⟩)
  · exact h.writes.forall_mem hs hreset rfl
  · rw [h.homed_eq, hold] at hnew
    cases hnew

theorem atLowerLimit_iff :
    atLowerLimit c di fresh = true ↔
      fresh = true ∧ di &&& c.limitDiDescendMask.toInt8.toUInt8 = 0 := by
  simp [atLowerLimit]

/-- A poll that runs no homing keeps the origin; one that does may take one of
the two exits. -/
theorem pollDecide_origin_cases (hs : Consistent c s) (huse : c.useLimitSwitchForHome = true)
    (now : Time) :
    KeepsOrigin s (pollDecide c now s) ∨
      atLowerLimit c s.rx.diByte (isFresh c now s.rx) = true ∨
      (s.mode = .homing ∧ isFresh c now s.rx = true ∧ alarmBit s.rx.statusByte = false ∧
        ¬ c.homeTimeoutSec < now - s.homeStart ∧
        atLowerLimit c s.rx.diByte (isFresh c now s.rx) = false ∧ StandsStill c now s) := by
  obtain ⟨u, v, w, -, hu, hv, hw, hr⟩ := pollDecide_stages c now s
  have hrx : v.rx = s.rx := hv.rx_eq.trans hu.rx_eq
  have huv : KeepsOrigin s v := hu.keepsOrigin.trans hv.keepsOrigin
  rw [← hrx] at hw
  rcases hw.origin_cases huse with hkeep | hlow | ⟨hmode, hfresh, htime, hhigh, hstill⟩
  · exact .inl (huv.trans (hkeep.trans hr.keepsOrigin))
  · rw [hrx] at hlow
    exact .inr (.inl hlow)
  · -- a deferred start in this poll would have cleared the tracking
    have hvu : v = u := by
      cases hv with
      | idle => rfl
      | started => cases hstill.1
    subst hvu
    rw [hrx] at hfresh
    obtain ⟨rfl, hbit⟩ := hu.of_homing hs hmode hfresh
    exact .inr (.inr ⟨hmode, hfresh, hbit, htime, hhigh, hstill⟩)

/-- The inference exit writes the origin reset. -/
theorem pollDecide_resets (hs : Consistent c s) (hmode : s.mode = .homing)
    (hfresh : isFresh c now s.rx = true) (hbit : alarmBit s.rx.statusByte = false)
    (htime : ¬ c.homeTimeoutSec < now - s.homeStart)
    (hhigh : atLowerLimit c s.rx.diByte (isFresh c now s.rx) = false)
    (hstill : StandsStill c now s) : TxFrame.posiReset ∈ (pollDecide c now s).tx := by
  obtain ⟨u, v, w, -, hu, hv, hw, hr⟩ := pollDecide_stages c now s
  have hopen : c.serialOpen = true := hs.open_of_fresh hfresh
  have hus : u = s := by
    cases hu with
    | stale => rfl
    | quiet => rfl
    | cleared _ _ hactive => rw [hs.manual_of_alarm hactive] at hmode; cases hmode
    | raised _ halarm => rw [hbit] at halarm; cases halarm
    | standing _ halarm => rw [hbit] at halarm; cases halarm
  subst hus
  have hvu : v = u := by
    cases hv with
    | idle => rfl
    | started hpending => rw [hs.claimed_of_homing hmode] at hpending; cases hpending
  subst hvu
  exact hr.keepsOrigin.writes.mem_of_mem (hw.resets hopen hmode hfresh htime hhigh hstill)

theorem commandCallback_keepsOrigin (c : Config) (now : Time) (cmd : String) (s : State) :
    KeepsOrigin s (commandCallback c now cmd s) := by
  have hmanual : KeepsOrigin s (cancelResume { s with mode := .manual }) := .of_eq rfl rfl
  unfold commandCallback
  split
  · exact .refl s
  · dsimp only
    split
    · exact hmanual.trans (sendVelocity_keepsOrigin c now _ _)
    · split
      · exact hmanual.trans (sendVelocity_keepsOrigin c now _ _)
      · exact hmanual.trans (sendVelocity_keepsOrigin c now _ _)

theorem positionCmdCallback_keepsOrigin (c : Config) (target : Int32) (s : State) :
    KeepsOrigin s (positionCmdCallback c target s) := by
  unfold positionCmdCallback
  split
  · exact .refl s
  · split
    · exact .refl s
    · exact .of_sent rfl (sendFrame_tx c (.posiCmd target) _) (by simp)

theorem incPositionCmdCallback_keepsOrigin (c : Config) (inc : Int32) (s : State) :
    KeepsOrigin s (incPositionCmdCallback c inc s) := by
  unfold incPositionCmdCallback
  split
  · exact .refl s
  · exact .of_sent rfl (sendFrame_tx c (.incPosiCmd inc) _) (by simp)

theorem homeCallback_keepsOrigin (c : Config) (now : Time) (start : Bool) (s : State) :
    KeepsOrigin s (homeCallback c now start s) := by
  cases start with
  | true =>
      rw [homeCallback_true]
      split
      · exact .refl s
      · exact .of_eq rfl rfl
  | false =>
      simp only [homeCallback, Bool.false_eq_true, not_false_eq_true, if_true]
      split
      · have hmanual : KeepsOrigin s { cancelResume { s with pendingHome := false } with
            mode := .manual } := .of_eq rfl rfl
        exact hmanual.trans (sendVelocity_keepsOrigin c now 0 _)
      · exact .of_eq rfl rfl

theorem resetCallback_keepsOrigin (c : Config) (now : Time) (on : Bool) (s : State) :
    KeepsOrigin s (resetCallback c now on s) := by
  unfold resetCallback
  split
  · exact .refl s
  · dsimp only
    split
    · exact .of_sent rfl (sendFrame_tx c .alarmReset _) (by simp)
    · have hrearm : KeepsOrigin s { s with
          alarmResetAttempts := 0, alarmResetExhausted := false, resumeCycles := 0 } :=
        .of_eq rfl rfl
      exact hrearm.trans (requestAlarmReset_step c now true _).keepsOrigin

/-- No operator callback touches the origin. -/
theorem callback_keepsOrigin (c : Config) (s : State) (e : Event)
    (he : ∀ rxNow now frames, e ≠ .poll rxNow now frames) : KeepsOrigin s (callback c s e) := by
  cases e with
  | command now cmd => exact commandCallback_keepsOrigin c now cmd s
  | velocityCmd now rpm =>
      have hmanual : KeepsOrigin s (cancelResume { s with mode := .manual }) := .of_eq rfl rfl
      exact hmanual.trans (sendVelocity_keepsOrigin c now rpm _)
  | positionCmd now target =>
      dsimp only [callback]
      split
      · exact positionCmdCallback_keepsOrigin c target s
      · exact .refl s
  | incPositionCmd now inc =>
      dsimp only [callback]
      split
      · exact incPositionCmdCallback_keepsOrigin c inc s
      · exact .refl s
  | home now start =>
      dsimp only [callback]
      split
      · exact homeCallback_keepsOrigin c now start s
      · exact .refl s
  | reset now on => exact resetCallback_keepsOrigin c now on s
  | poll rxNow now frames => exact absurd rfl (he rxNow now frames)

/-- One callback sets the origin only at the limit exactly if it is not a poll
that takes the inference exit. -/
theorem step_origin_iff (hs : Consistent c s) (huse : c.useLimitSwitchForHome = true)
    (e : Event) :
    (SetsOrigin s (step c s e) → AtLimitPoll c (step c s e) e) ↔
      ¬ StallExit c { s with tx := [] } e := by
  have h₀ : Consistent c { s with tx := [] } := hs.congr rfl rfl rfl rfl rfl
  cases e with
  | poll rxNow now frames =>
      have hr := pollReceive_consistent h₀ rxNow frames
      have hrx : (step c s (.poll rxNow now frames)).rx =
          (pollReceive c rxNow frames { s with tx := [] }).rx := pollDecide_rx c now _
      constructor
      · rintro hgood ⟨hmode, hfresh, hbit, htime, hhigh, hstill⟩
        have hreset := pollDecide_resets hr hmode hfresh hbit htime hhigh hstill
        have hlow := atLowerLimit_iff.mpr (hgood (.inl hreset))
        rw [hrx, hhigh] at hlow
        cases hlow
      · intro hno hset
        rcases pollDecide_origin_cases hr huse now with hkeep | hlow | hstall
        · have hask : KeepsOrigin { s with tx := [] }
              (pollReceive c rxNow frames { s with tx := [] }) :=
            .of_sent rfl (by rw [pollReceive_eq]) (by simp)
          exact absurd hset ((hask.trans hkeep).not_setsOrigin rfl)
        · rw [← hrx] at hlow
          exact atLowerLimit_iff.mp hlow
        · exact absurd hstall hno
  | _ =>
      refine ⟨fun _ => id, fun _ hset => absurd hset ?_⟩
      exact (callback_keepsOrigin c _ _ (by simp)).not_setsOrigin rfl

/-- Along a run every origin is set at the limit switch exactly if no poll of
the run takes the inference exit. -/
theorem origin_at_limit_iff (c : Config) (huse : c.useLimitSwitchForHome = true)
    (es : List Event) :
    Along (total (step c)) (fun s e t => SetsOrigin s t → AtLimitPoll c t e) (start c) es ↔
      Along (total (step c)) (fun s e _ => ¬ StallExit c s e) (start c) es := by
  have keep : ∀ s e t, Consistent c s → total (step c) s e = some t → Consistent c t := by
    intro s e t hs ht
    obtain rfl := Option.some.inj ht
    exact step_consistent hs e
  apply along_iff_of_invariant keep _ (start_consistent c)
  intro s e t hs ht
  obtain rfl := Option.some.inj ht
  exact step_origin_iff hs huse e

instance (s t : State) : Decidable (SetsOrigin s t) := inferInstanceAs (Decidable (_ ∨ _))

instance (c : Config) (t : State) : (e : Event) → Decidable (AtLimitPoll c t e)
  | .poll _ _ _ => inferInstanceAs (Decidable (_ ∧ _))
  | .command _ _ | .velocityCmd _ _ | .positionCmd _ _ | .incPositionCmd _ _ | .home _ _
  | .reset _ _ => inferInstanceAs (Decidable False)

instance (c : Config) (now : Time) (s : State) : Decidable (StandsStill c now s) :=
  inferInstanceAs (Decidable (_ ∧ _))

instance (c : Config) (s : State) : (e : Event) → Decidable (StallExit c s e)
  | .poll _ _ _ => inferInstanceAs (Decidable (_ ∧ _))
  | .command _ _ | .velocityCmd _ _ | .positionCmd _ _ | .incPositionCmd _ _ | .home _ _
  | .reset _ _ => inferInstanceAs (Decidable False)

/-- A lift that descends to the limit switch. -/
def descent : List Event :=
  [.home 1 true, .poll 1 1 [monitorReply 90 4], .poll 2 2 [monitorReply 40 4],
    .poll 3 3 [monitorReply 5 0]]

/-- A lift that is held at one height, its limit input reading "not reached". -/
def obstructedDescent : List Event :=
  [.home 1 true, .poll 1 1 [monitorReply 90 4], .poll 3 3 [monitorReply 90 4]]

theorem origin_at_limit_descent :
    Along (total (step defaultConfig))
      (fun s e t => SetsOrigin s t → AtLimitPoll defaultConfig t e) (start defaultConfig)
      descent := by
  apply (origin_at_limit_iff defaultConfig rfl descent).mpr
  decide +kernel

theorem origin_set_midway :
    defaultConfig.useLimitSwitchForHome = true ∧
      ¬ Along (total (step defaultConfig))
        (fun s e t => SetsOrigin s t → AtLimitPoll defaultConfig t e) (start defaultConfig)
        obstructedDescent := by
  decide +kernel

end PolishingRobot.Lift
