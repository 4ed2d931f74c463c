import PolishingRobot.Lift.AlarmLockout

/-!
# Resuming after an alarm

Without operator messages the resumed moves are bounded by the cycle limit:
every resume spends one cycle, and each step that gives cycles back leaves no
move to resume. A resumed move is the one that the alarm interrupted, towards
the target of the last accepted message.
-/

namespace PolishingRobot.Lift

variable {c : Config} {now : Time} {pos : Int32} {fresh : Bool} {di st : UInt8} {s t : State}

/-- The events that no operator message causes. -/
def Event.IsPoll : Event → Prop
  | .poll .. => True
  | _ => False

/-- The state after the alarm stage of a poll. -/
def alarmStage (c : Config) (rxNow now : Time) (frames : List RxFrame) (s : State) : State :=
  let s := pollReceive c rxNow frames { s with tx := [] }
  updateAlarm c now s.rx.statusByte (isFresh c now s.rx) s.rx.position s

/-- The alarm stage of this event ends an alarm and sets the lift in motion. -/
def Resumes (c : Config) (s : State) : Event → Prop
  | .poll rxNow now frames =>
      s.alarmActive = true ∧ (alarmStage c rxNow now frames s).alarmActive = false ∧
        (alarmStage c rxNow now frames s).mode ≠ .manual
  | _ => False

instance (s : State) (e : Event) : Decidable (Resumes c s e) := by
  cases e with
  | poll => exact inferInstanceAs (Decidable (_ ∧ _ ∧ _))
  | _ => exact inferInstanceAs (Decidable False)

/-- The resumes of a run from `s`. -/
def resumeCount (c : Config) : State → List Event → Nat
  | _, [] => 0
  | s, e :: es => (if Resumes c s e then 1 else 0) + resumeCount c (step c s e) es

/-- The target of a position or increment message that is not ignored. -/
def acceptedTarget (c : Config) (s : State) : Event → Option Int32
  | .positionCmd _ target =>
      if c.enablePositionControl ∧ s.homed ∧ ¬ s.alarmActive then some target else none
  | .incPositionCmd _ inc =>
      if c.enablePositionControl ∧ ¬ s.alarmActive then some (s.rx.position + inc) else none
  | _ => none

/-- The target of the last message a run accepted. -/
def lastTarget (c : Config) : State → Option Int32 → List Event → Option Int32
  | _, last, [] => last
  | s, last, e :: es => lastTarget c (step c s e) ((acceptedTarget c s e).or last) es

theorem lastTarget_append_singleton (s : State) (last : Option Int32) (es : List Event)
    (e : Event) :
    lastTarget c s last (es ++ [e]) =
      (acceptedTarget c (es.foldl (step c) s) e).or (lastTarget c s last es) := by
  induction es generalizing s last with
  | nil => rfl
  | cons e' es ih => exact ih _ _

/-- The outcomes of the alarm stage for moves: nothing of them changes, a move
is stopped and remembered, or what was remembered is resumed or dropped. -/
inductive MoveStep (c : Config) (fresh : Bool) (pos : Int32) (s t : State) : Prop
  | kept (hmode : t.mode = s.mode) (htarget : t.targetPos = s.targetPos)
      (hresume : t.resumeMode = s.resumeMode) (hremembered : t.resumeTarget = s.resumeTarget)
      (hcycles : t.resumeCycles = s.resumeCycles)
      (hends : t.alarmActive = false → t.mode = .manual ∨ s.alarmActive = false)
  | interrupted (halarm : s.alarmActive = false) (hactive : t.alarmActive = true)
      (hmode : t.mode = .manual) (hcycles : t.resumeCycles = s.resumeCycles)
      (hresume : t.resumeMode = if s.mode = .position then .position else .manual)
      (hremembered : s.mode = .position → t.resumeTarget = s.targetPos)
  | dropped (hmode : t.mode = .manual) (hresume : t.resumeMode = .manual)
  | resumed (hfresh : fresh = true) (hr : s.resumeMode = .position)
      (hactive : s.alarmActive = true) (hclear : t.alarmActive = false)
      (hcycles : 0 < c.alarmResumeMaxCycles → s.resumeCycles < c.alarmResumeMaxCycles)
      (hspent : t.resumeCycles = s.resumeCycles + 1) (hmode : t.mode = .position)
      (hresume : t.resumeMode = .manual) (htarget : t.targetPos = s.resumeTarget)
      (hsends : c.serialOpen = true → (if s.homed then .posiCmd s.resumeTarget else
        .incPosiCmd (s.resumeTarget - pos)) ∈ t.tx)

/-- The alarm reset does not touch the move. -/
theorem AlarmResetStep.move_eq {manual : Bool} (h : AlarmResetStep c now manual s t) :
    t.mode = s.mode ∧ t.targetPos = s.targetPos ∧ t.resumeMode = s.resumeMode ∧
      t.resumeTarget = s.resumeTarget ∧ t.resumeCycles = s.resumeCycles := by
  cases h with
  | exhausted => exact ⟨rfl, rfl, rfl, rfl, rfl⟩
  | sent =>
      dsimp only [sendAlarmReset, sendFrame]
      rw [sendVelocity_eq]
      exact ⟨rfl, rfl, rfl, rfl, rfl⟩

theorem AutoResetStep.move_eq (h : AutoResetStep c now s t) :
    t.mode = s.mode ∧ t.targetPos = s.targetPos ∧ t.resumeMode = s.resumeMode ∧
      t.resumeTarget = s.resumeTarget ∧ t.resumeCycles = s.resumeCycles := by
  cases h with
  | idle => exact ⟨rfl, rfl, rfl, rfl, rfl⟩
  | retry _ _ _ _ h => exact h.move_eq

theorem AutoResetStep.alarm_eq (h : AutoResetStep c now s t) :
    t.alarmActive = s.alarmActive := by
  cases h with
  | idle => rfl
  | retry _ _ _ _ h => exact h.alarm_eq

theorem AlarmStep.move (h : AlarmStep c now st fresh pos s t) (hs : Consistent c s) :
    MoveStep c fresh pos s t := by
  cases h with
  | stale => exact .kept rfl rfl rfl rfl rfl fun h => .inr h
  | quiet _ _ hactive => exact .kept rfl rfl rfl rfl rfl fun _ => .inr hactive
  | cleared hfresh _ hactive h =>
      have hmode := hs.manual_of_alarm hactive
      cases h with
      | nothing => exact .kept rfl rfl rfl rfl rfl fun _ => .inl hmode
      | givenUp => exact .dropped hmode rfl
      | homing hr => exact absurd hr hs.resume_ne_homing
      | absolute hr hhomed hcycles =>
          refine .resumed hfresh hr hactive rfl hcycles rfl rfl rfl rfl ?_
          have hhomed : s.homed = true := hhomed
          intro hopen
          simp [clearAlarm, hhomed, sent, hopen]
      | relative hr hhomed hcycles =>
          refine .resumed hfresh hr hactive rfl hcycles rfl rfl rfl rfl ?_
          have hhomed : s.homed = false := hhomed
          intro hopen
          simp [clearAlarm, hhomed, sent, hopen]
  | raised _ _ hactive h =>
      obtain ⟨hmode, -, hresume, hremembered, hcycles⟩ := h.move_eq
      have halarm := h.alarm_eq
      rw [raiseAlarm_eq] at hmode hresume hremembered hcycles halarm
      rw [sendVelocity_eq] at hcycles
      refine .interrupted hactive halarm hmode hcycles ?_ ?_
      · rw [hresume, hs.resume_manual hactive]
      · intro hposition
        rw [hremembered]
        simp [hposition]
  | standing _ _ hactive h =>
      obtain ⟨hmode, htarget, hresume, hremembered, hcycles⟩ := h.move_eq
      refine .kept hmode htarget hresume hremembered hcycles fun hclear => ?_
      rw [h.alarm_eq, hactive] at hclear
      cases hclear

/-- A move or a pending resume after the stage was there before it. -/
structure Continues (s t : State) : Prop where
  move : t.mode = .position → s.mode = .position ∧ t.targetPos = s.targetPos
  resume : t.resumeMode = .position →
    s.resumeMode = .position ∧ t.resumeTarget = s.resumeTarget

namespace Continues

theorem refl (s : State) : Continues s s := ⟨fun h => ⟨h, rfl⟩, fun h => ⟨h, rfl⟩⟩

theorem trans {u : State} (h₁ : Continues s t) (h₂ : Continues t u) : Continues s u where
  move := by
    intro h
    obtain ⟨ht, htarget⟩ := h₂.move h
    obtain ⟨hs, htarget'⟩ := h₁.move ht
    exact ⟨hs, htarget.trans htarget'⟩
  resume := by
    intro h
    obtain ⟨ht, htarget⟩ := h₂.resume h
    obtain ⟨hs, htarget'⟩ := h₁.resume ht
    exact ⟨hs, htarget.trans htarget'⟩

theorem of_ended (hmode : t.mode ≠ .position) (hresume : t.resumeMode ≠ .position) :
    Continues s t :=
  ⟨fun h => absurd h hmode, fun h => absurd h hresume⟩

end Continues

/-- The resumes still possible without an operator message. -/
def budget (c : Config) (s : State) : Nat :=
  if s.mode = .position ∨ s.resumeMode = .position then
    c.alarmResumeMaxCycles - s.resumeCycles
  else 0

/-- The stage keeps the moves and gains no resumes. -/
structure SpendsOnly (c : Config) (s t : State) : Prop extends Continues s t where
  budget_le : budget c t ≤ budget c s

namespace SpendsOnly

theorem refl (s : State) : SpendsOnly c s s := ⟨.refl s, le_rfl⟩

theorem trans {u : State} (h₁ : SpendsOnly c s t) (h₂ : SpendsOnly c t u) : SpendsOnly c s u :=
  ⟨h₁.toContinues.trans h₂.toContinues, h₂.budget_le.trans h₁.budget_le⟩

/-- A stage that leaves the members of the move alone. -/
theorem of_same (hmode : t.mode = s.mode) (htarget : t.targetPos = s.targetPos)
    (hresume : t.resumeMode = s.resumeMode) (hremembered : t.resumeTarget = s.resumeTarget)
    (hcycles : t.resumeCycles = s.resumeCycles) : SpendsOnly c s t where
  move := fun h => ⟨hmode ▸ h, htarget⟩
  resume := fun h => ⟨hresume ▸ h, hremembered⟩
  budget_le := by
    rw [budget, budget, hmode, hresume, hcycles]

/-- A stage that leaves no move may give cycles back. -/
theorem of_ended (hmode : t.mode ≠ .position) (hresume : t.resumeMode ≠ .position) :
    SpendsOnly c s t where
  toContinues := .of_ended hmode hresume
  budget_le := by
    rw [budget, if_neg (not_or.mpr ⟨hmode, hresume⟩)]
    exact Nat.zero_le _

end SpendsOnly

theorem sendVelocity_spendsOnly (now : Time) (rpm : Int16) (s : State) :
    SpendsOnly c s (sendVelocity c now rpm s) := by
  rw [sendVelocity_eq]
  exact .of_same rfl rfl rfl rfl rfl

theorem AutoHomeStep.spendsOnly (h : AutoHomeStep c now fresh s t) : SpendsOnly c s t := by
  cases h with
  | idle => exact .refl s
  | started =>
      have hmode : (homingStarted c now s).mode ≠ .position := Mode.noConfusion
      have hresume : (homingStarted c now s).resumeMode ≠ .position := Mode.noConfusion
      exact .of_ended hmode hresume

theorem finishHoming_spendsOnly (now : Time) (s : State) (hr : s.resumeMode ≠ .position) :
    SpendsOnly c s (finishHoming c now s) := by
  rw [finishHoming_eq, sendVelocity_eq]
  exact .of_ended Mode.noConfusion hr

/-- Homing runs with nothing pending, so its exits may give cycles back. -/
theorem HomingStep.spendsOnly (h : HomingStep c now pos fresh di s t)
    (hr : s.resumeMode ≠ .position) : SpendsOnly c s t := by
  have hv := sendVelocity_spendsOnly (c := c) now s.homeDirSpeed s
  have hvr : (sendVelocity c now s.homeDirSpeed s).resumeMode ≠ .position := by
    rw [sendVelocity_eq]
    exact hr
  cases h with
  | timeout =>
      rw [sendVelocity_eq]
      exact .of_ended Mode.noConfusion hr
  | limit => exact finishHoming_spendsOnly now s hr
  | unheard => exact hv.trans (.of_same rfl rfl rfl rfl rfl)
  | moving => exact hv.trans (.of_same rfl rfl rfl rfl rfl)
  | stalled => exact hv.trans (finishHoming_spendsOnly now _ hvr)
  | waiting => exact hv

theorem MotionStep.spendsOnly (h : MotionStep c now pos fresh di s t) (hs : Consistent c s) :
    SpendsOnly c s t := by
  cases h with
  | idle => exact .refl s
  | homing hmode h =>
      apply h.spendsOnly
      rw [hs.resume_manual (hs.quiet_of_homing hmode)]
      exact Mode.noConfusion
  | reached hmode =>
      have hquiet : s.alarmActive = false := by
        by_contra ha
        rw [hs.manual_of_alarm (by simpa using ha)] at hmode
        cases hmode
      have hresume : s.resumeMode ≠ .position := by
        rw [hs.resume_manual hquiet]
        exact Mode.noConfusion
      exact .of_ended Mode.noConfusion hresume

theorem ReleaseStep.spendsOnly (h : ReleaseStep c now pos fresh di s t) : SpendsOnly c s t := by
  cases h with
  | idle => exact .refl s
  | watch => exact .of_same rfl rfl rfl rfl rfl
  | release => exact sendVelocity_spendsOnly now 0 s

/-- A poll is its alarm stage followed by stages that only spend. -/
theorem poll_moves (hs : Consistent c s) (rxNow now : Time) (frames : List RxFrame) :
    let received := pollReceive c rxNow frames { s with tx := [] }
    let t := step c s (.poll rxNow now frames)
    MoveStep c (isFresh c now received.rx) received.rx.position s
        (alarmStage c rxNow now frames s) ∧
      SpendsOnly c (alarmStage c rxNow now frames s) t ∧
      Writes (fun _ => True) (alarmStage c rxNow now frames s) t ∧ t.rx = received.rx ∧
      t.alarmActive = (alarmStage c rxNow now frames s).alarmActive := by
  intro received t
  have hclear : Consistent c { s with tx := [] } := hs.congr rfl rfl rfl rfl rfl
  have h₀ : Consistent c received := pollReceive_consistent hclear rxNow frames
  have halarm := updateAlarm_step c now received.rx.statusByte (isFresh c now received.rx)
    received.rx.position received
  have hhome := autoHome_step c now (isFresh c now received.rx)
    (alarmStage c rxNow now frames s)
  have hmotion := updateMotion_step c now received.rx.position (isFresh c now received.rx)
    received.rx.diByte (autoHome c now (isFresh c now received.rx)
      (alarmStage c rxNow now frames s))
  have hrelease := releaseIfBlocked_step c now received.rx.position (isFresh c now received.rx)
    received.rx.diByte (updateMotion c now received.rx.position (isFresh c now received.rx)
      received.rx.diByte (autoHome c now (isFresh c now received.rx)
        (alarmStage c rxNow now frames s)))
  have h₁ := halarm.consistent h₀
  refine ⟨?_, ?_, ?_, pollDecide_rx c now received, ?_⟩
  · -- Receiving has changed nothing of the move.
    cases halarm.move h₀ with
    | kept hm ht hr hrt hc he => exact .kept hm ht hr hrt hc he
    | interrupted ha ht hm hc hr hrt => exact .interrupted ha ht hm hc hr hrt
    | dropped hm hr => exact .dropped hm hr
    | resumed hf hr ha hc hcyc hsp hm hrm ht hsend =>
        exact .resumed hf hr ha hc hcyc hsp hm hrm ht hsend
  · exact (hhome.spendsOnly.trans (hmotion.spendsOnly (hhome.consistent h₁))).trans
      hrelease.spendsOnly
  · exact (hhome.writes.trans (hmotion.writes (fun _ => trivial) trivial fun _ => trivial)).trans
      (hrelease.writes trivial)
  · exact hrelease.alarm_eq.trans (hmotion.alarm_eq.trans hhome.alarm_eq)

/-- A poll that resumes spends one of the possible resumes, and no poll gains any. -/
theorem poll_budget (hmax : 0 < c.alarmResumeMaxCycles) (hs : Consistent c s)
    (rxNow now : Time) (frames : List RxFrame) :
    (if Resumes c s (.poll rxNow now frames) then 1 else 0) +
      budget c (step c s (.poll rxNow now frames)) ≤ budget c s := by
  obtain ⟨hmove, hspend, -⟩ := poll_moves hs rxNow now frames
  have hbudget := hspend.budget_le
  cases hmove with
  | kept hmode _ hresume _ hcycles hends =>
      have hnot : ¬ Resumes c s (.poll rxNow now frames) := by
        rintro ⟨hactive, hclear, hmoving⟩
        rcases hends hclear with h | h
        · exact hmoving h
        · exact absurd (hactive.symm.trans h) (by decide)
      have hsame : budget c (alarmStage c rxNow now frames s) = budget c s := by
        rw [budget, hmode, hresume, hcycles, budget]
      rw [if_neg hnot]
      omega
  | interrupted halarm hactive hmode hcycles hresume =>
      have hnot : ¬ Resumes c s (.poll rxNow now frames) := fun h =>
        absurd (hactive.symm.trans h.2.1) (by decide)
      have hle : budget c (alarmStage c rxNow now frames s) ≤ budget c s := by
        by_cases hposition : s.mode = .position
        · have hsame : budget c (alarmStage c rxNow now frames s) =
              c.alarmResumeMaxCycles - s.resumeCycles := by
            rw [budget, hcycles, hresume, if_pos hposition]
            simp
          rw [hsame, budget, if_pos (.inl hposition)]
        · rw [if_neg hposition] at hresume
          rw [budget, hmode, hresume]
          exact Nat.zero_le _
      rw [if_neg hnot]
      omega
  | dropped hmode hresume =>
      have hnot : ¬ Resumes c s (.poll rxNow now frames) := fun h => h.2.2 hmode
      have hnone : budget c (alarmStage c rxNow now frames s) = 0 := by
        rw [budget, hmode, hresume]
        rfl
      rw [if_neg hnot]
      omega
  | resumed _ hr hactive hclear hcycles hspent hmode hresume =>
      have hbefore : budget c s = c.alarmResumeMaxCycles - s.resumeCycles :=
        if_pos (.inr hr)
      have hafter : budget c (alarmStage c rxNow now frames s) =
          c.alarmResumeMaxCycles - (s.resumeCycles + 1) := by
        rw [budget, hspent, if_pos (.inl hmode)]
      have hleft : s.resumeCycles < c.alarmResumeMaxCycles := hcycles hmax
      split <;> omega

/-- Over polls alone the resumes are bounded by what is possible at their start. -/
theorem resumeCount_le_budget (hmax : 0 < c.alarmResumeMaxCycles) (hs : Consistent c s)
    (es : List Event) (hes : ∀ e ∈ es, e.IsPoll) : resumeCount c s es ≤ budget c s := by
  induction es generalizing s with
  | nil => exact Nat.zero_le _
  | cons e es ih =>
      have hrest := ih (step_consistent hs e) fun e' he' => hes e' (List.mem_cons_of_mem e he')
      cases e with
      | poll rxNow now frames =>
          have hstep := poll_budget hmax hs rxNow now frames
          simp only [resumeCount]
          omega
      | _ => exact absurd (hes _ List.mem_cons_self) id

theorem budget_le (s : State) : budget c s ≤ c.alarmResumeMaxCycles := by
  unfold budget
  split
  · exact Nat.sub_le _ _
  · exact Nat.zero_le _

/-- An operator message starts the move it asks for, or leaves no move that
was not there before. -/
theorem callback_moves (s : State) (e : Event) (he : ¬ e.IsPoll) :
    (acceptedTarget c s e = some (callback c s e).targetPos ∧
        (callback c s e).resumeMode = .manual) ∨
      acceptedTarget c s e = none ∧ Continues s (callback c s e) := by
  cases e with
  | poll => exact absurd trivial he
  | command now cmd =>
      refine .inr ⟨rfl, ?_⟩
      dsimp only [callback, commandCallback]
      split
      · exact .refl s
      · split_ifs <;> rw [sendVelocity_eq] <;>
          exact .of_ended Mode.noConfusion Mode.noConfusion
  | velocityCmd now rpm =>
      refine .inr ⟨rfl, ?_⟩
      dsimp only [callback, velocityCmdCallback]
      rw [sendVelocity_eq]
      exact .of_ended Mode.noConfusion Mode.noConfusion
  | positionCmd now target =>
      dsimp only [callback, acceptedTarget, positionCmdCallback]
      by_cases henabled : c.enablePositionControl = true
      · by_cases hhomed : s.homed = true
        · by_cases hactive : s.alarmActive = true
          · exact .inr (by simpa [henabled, hhomed, hactive] using Continues.refl s)
          · exact .inl (by
              simp [henabled, hhomed, hactive, sendPosition, sendFrame, cancelResume])
        · exact .inr (by simpa [henabled, hhomed] using Continues.refl s)
      · exact .inr (by simpa [henabled] using Continues.refl s)
  | incPositionCmd now inc =>
      dsimp only [callback, acceptedTarget, incPositionCmdCallback]
      by_cases henabled : c.enablePositionControl = true
      · by_cases hactive : s.alarmActive = true
        · exact .inr (by simpa [henabled, hactive] using Continues.refl s)
        · exact .inl (by simp [henabled, hactive, sendIncPosition, sendFrame, cancelResume])
      · exact .inr (by simpa [henabled] using Continues.refl s)
  | home now start =>
      refine .inr ⟨rfl, ?_⟩
      dsimp only [callback]
      split
      · cases start with
        | true =>
            rw [homeCallback_true]
            split
            · exact .refl s
            · exact .of_ended Mode.noConfusion Mode.noConfusion
        | false =>
            simp only [homeCallback, Bool.false_eq_true, not_false_eq_true, if_true]
            split
            · rw [sendVelocity_eq]
              exact .of_ended Mode.noConfusion Mode.noConfusion
            · exact ⟨fun h => ⟨h, rfl⟩, fun h => Mode.noConfusion h⟩
      · exact .refl s
  | reset now on =>
      refine .inr ⟨rfl, ?_⟩
      dsimp only [callback, resetCallback]
      split
      · exact .refl s
      · split
        · exact ⟨fun h => ⟨h, rfl⟩, fun h => ⟨h, rfl⟩⟩
        · have h := requestAlarmReset_step c now true
            { s with alarmResetAttempts := 0, alarmResetExhausted := false, resumeCycles := 0 }
          obtain ⟨hmode, htarget, hresume, hremembered, -⟩ := h.move_eq
          exact ⟨fun h => ⟨hmode ▸ h, htarget⟩, fun h => ⟨hresume ▸ h, hremembered⟩⟩

theorem operator_moves (s : State) (e : Event) (he : ¬ e.IsPoll) :
    (acceptedTarget c s e = some (step c s e).targetPos ∧
        (step c s e).resumeMode = .manual) ∨
      acceptedTarget c s e = none ∧ Continues s (step c s e) := by
  have htarget : acceptedTarget c { s with tx := [] } e = acceptedTarget c s e := by
    cases e <;> rfl
  rw [← htarget]
  rcases callback_moves (c := c) { s with tx := [] } e he with h | ⟨h, hcont⟩
  · exact .inl h
  · exact .inr ⟨h, hcont.move, hcont.resume⟩

/-- The alarm that is active after `es` was detected during a position move to
`target` and has not ended since. -/
def InterruptedMove (c : Config) (es : List Event) (target : Int32) : Prop :=
  ∃ before d during, es = before ++ d :: during ∧
    (run c before).alarmActive = false ∧ (run c before).mode = .position ∧
    (run c before).targetPos = target ∧
    ∀ p, p <+: during → (run c (before ++ d :: p)).alarmActive = true

/-- While the alarm lasts, the interrupted move stays the same. -/
theorem InterruptedMove.append {es : List Event} {target : Int32}
    (h : InterruptedMove c es target) (e : Event)
    (halarm : (run c (es ++ [e])).alarmActive = true) : InterruptedMove c (es ++ [e]) target := by
  obtain ⟨before, d, during, rfl, hquiet, hmode, htarget, hactive⟩ := h
  refine ⟨before, d, during ++ [e], by simp, hquiet, hmode, htarget, ?_⟩
  intro p hp
  rcases List.prefix_concat_iff.mp hp with rfl | hp
  · simpa using halarm
  · exact hactive p hp

/-- The driver is moving to the last accepted target, and remembers nothing
but a move there that the present alarm interrupted. -/
structure Remembers (c : Config) (es : List Event) : Prop where
  moving : (run c es).mode = .position →
    lastTarget c (start c) none es = some (run c es).targetPos
  pending : (run c es).resumeMode = .position →
    lastTarget c (start c) none es = some (run c es).resumeTarget ∧
      InterruptedMove c es (run c es).resumeTarget

theorem Remembers.poll {es : List Event} (h : Remembers c es) (rxNow now : Time)
    (frames : List RxFrame) : Remembers c (es ++ [.poll rxNow now frames]) := by
  have hs := run_consistent c es
  have ht := run_consistent c (es ++ [.poll rxNow now frames])
  have hlast : lastTarget c (start c) none (es ++ [.poll rxNow now frames]) =
      lastTarget c (start c) none es := by
    rw [lastTarget_append_singleton]
    rfl
  obtain ⟨hmove, hspend, -, -, halarm⟩ := poll_moves hs rxNow now frames
  rw [← run_append_singleton] at hspend halarm
  constructor
  · intro hmode
    obtain ⟨hmode', htarget⟩ := hspend.move hmode
    rw [hlast, htarget]
    cases hmove with
    | kept hm htarget' =>
        rw [htarget']
        exact h.moving (hm ▸ hmode')
    | interrupted _ _ hm => rw [hm] at hmode'; cases hmode'
    | dropped hm => rw [hm] at hmode'; cases hmode'
    | resumed _ hr _ _ _ _ _ _ htarget' =>
        rw [htarget']
        exact (h.pending hr).1
  · intro hresume
    have hactive := ht.alarm_of_resume (by rw [hresume]; exact Mode.noConfusion)
    obtain ⟨hresume', htarget⟩ := hspend.resume hresume
    rw [hlast, htarget]
    cases hmove with
    | kept _ _ hr hremembered =>
        obtain ⟨hlast', hinterrupted⟩ := h.pending (hr ▸ hresume')
        rw [hremembered]
        exact ⟨hlast', hinterrupted.append _ hactive⟩
    | interrupted hquiet _ _ _ hr hremembered =>
        have hmode : (run c es).mode = .position := by
          by_contra hne
          rw [hr, if_neg hne] at hresume'
          cases hresume'
        rw [hremembered hmode]
        refine ⟨h.moving hmode, es, _, [], rfl, hquiet, hmode, rfl, ?_⟩
        intro p hp
        rw [List.prefix_nil.mp hp]
        exact hactive
    | dropped _ hr => rw [hr] at hresume'; cases hresume'
    | resumed _ _ _ _ _ _ _ hr => rw [hr] at hresume'; cases hresume'

theorem Remembers.operator {es : List Event} (h : Remembers c es) (e : Event)
    (he : ¬ e.IsPoll) : Remembers c (es ++ [e]) := by
  have ht := run_consistent c (es ++ [e])
  have hlast := lastTarget_append_singleton (c := c) (start c) none es e
  have hrun : es.foldl (step c) (start c) = run c es := rfl
  rw [hrun] at hlast
  have hmoves := operator_moves (c := c) (run c es) e he
  rw [← run_append_singleton] at hmoves
  rcases hmoves with ⟨haccepted, hresume⟩ | ⟨hnone, hcont⟩
  · rw [haccepted, Option.some_or] at hlast
    refine ⟨fun _ => hlast, fun hr => ?_⟩
    rw [hresume] at hr
    cases hr
  · rw [hnone, Option.none_or] at hlast
    constructor
    · intro hmode
      obtain ⟨hmode', htarget⟩ := hcont.move hmode
      rw [hlast, htarget]
      exact h.moving hmode'
    · intro hresume
      have hactive := ht.alarm_of_resume (by rw [hresume]; exact Mode.noConfusion)
      obtain ⟨hresume', htarget⟩ := hcont.resume hresume
      obtain ⟨hlast', hinterrupted⟩ := h.pending hresume'
      rw [hlast, htarget]
      exact ⟨hlast', hinterrupted.append e hactive⟩

theorem start_modes (c : Config) : (start c).mode = .manual ∧ (start c).resumeMode = .manual := by
  unfold start
  dsimp only
  split <;> exact ⟨rfl, rfl⟩

theorem run_remembers (c : Config) (es : List Event) : Remembers c es := by
  induction es using List.reverseRecOn with
  | nil =>
      obtain ⟨hmode, hresume⟩ := start_modes c
      exact ⟨fun h => Mode.noConfusion (hmode.symm.trans h),
        fun h => Mode.noConfusion (hresume.symm.trans h)⟩
  | append_singleton es e ih =>
      cases e with
      | poll rxNow now frames => exact ih.poll rxNow now frames
      | _ => exact ih.operator _ id

/-- In every stretch of polls the driver resumes at most as often as the limit
allows. Every resume is of a position move that the alarm interrupted, in
position mode, towards the target of the last accepted message, and homing is
never remembered for a resume. -/
theorem resume_bounded_and_faithful (c : Config) (hmax : 0 < c.alarmResumeMaxCycles) :
    (∀ before stretch : List Event, (∀ e ∈ stretch, e.IsPoll) →
      resumeCount c (run c before) stretch ≤ c.alarmResumeMaxCycles) ∧
    (∀ es rxNow now frames, Resumes c (run c es) (.poll rxNow now frames) →
      ∃ target, lastTarget c (start c) none es = some target ∧ InterruptedMove c es target ∧
        (alarmStage c rxNow now frames (run c es)).mode = .position ∧
        (alarmStage c rxNow now frames (run c es)).targetPos = target ∧
        (if (run c es).homed then .posiCmd target else
          .incPosiCmd (target - (run c (es ++ [.poll rxNow now frames])).rx.position)) ∈
            (run c (es ++ [.poll rxNow now frames])).tx) ∧
    ∀ es, (run c es).resumeMode ≠ .homing := by
  refine ⟨?_, ?_, fun es => (run_consistent c es).resume_ne_homing⟩
  · intro before stretch hstretch
    exact (resumeCount_le_budget hmax (run_consistent c before) stretch hstretch).trans
      (budget_le _)
  · intro es rxNow now frames hresumes
    have hs := run_consistent c es
    obtain ⟨hmove, -, hwrites, hrx, -⟩ := poll_moves hs rxNow now frames
    rw [← run_append_singleton] at hwrites hrx
    cases hmove with
    | kept hm _ _ _ _ hends =>
        rcases hends hresumes.2.1 with h | h
        · exact absurd h hresumes.2.2
        · exact absurd (hresumes.1.symm.trans h) (by decide)
    | interrupted _ _ hm => exact absurd hm hresumes.2.2
    | dropped hm => exact absurd hm hresumes.2.2
    | resumed hfresh hr _ _ _ _ hmode _ htarget hsends =>
        obtain ⟨hlast, hinterrupted⟩ := (run_remembers c es).pending hr
        have hclear : Consistent c { run c es with tx := [] } := hs.congr rfl rfl rfl rfl rfl
        have hopen := (pollReceive_consistent hclear rxNow frames).open_of_fresh hfresh
        refine ⟨_, hlast, hinterrupted, hmode, htarget, ?_⟩
        rw [hrx]
        exact hwrites.mem_of_mem (hsends hopen)

/-- A move to 500 that an alarm interrupts once; the alarm is gone in the next reply. -/
def interruptedMove : List Event :=
  [.incPositionCmd 10 500, .poll 20 20 [⟨pidMonitor, [0, 0, 0, 0, 0, 0, 1, 0, 0, 0, 0, 1]⟩]]

theorem resume_bounded_and_faithful_interruptedMove :
    resumeCount defaultConfig (run defaultConfig interruptedMove)
      [.poll 30 30 [monitorReply 7 1]] ≤ 3 ∧
    TxFrame.incPosiCmd 493 ∈
      (run defaultConfig (interruptedMove ++ [.poll 30 30 [monitorReply 7 1]])).tx := by
  obtain ⟨hbound, hfaithful, -⟩ := resume_bounded_and_faithful defaultConfig (by decide +kernel)
  constructor
  · exact hbound interruptedMove _ (by simp [Event.IsPoll])
  · obtain ⟨target, hlast, -, -, -, hframe⟩ := hfaithful interruptedMove 30 30 [monitorReply 7 1]
      (by decide +kernel)
    have htarget : lastTarget defaultConfig (start defaultConfig) none interruptedMove =
        some 500 := by decide +kernel
    rw [htarget] at hlast
    obtain rfl := Option.some.inj hlast
    have hhomed : (run defaultConfig interruptedMove).homed = false := by decide +kernel
    have hpos : (run defaultConfig
        (interruptedMove ++ [.poll 30 30 [monitorReply 7 1]])).rx.position = 7 := by
      decide +kernel
    rw [hhomed, hpos] at hframe
    exact hframe

end PolishingRobot.Lift
