import PolishingRobot.Lift.ManualStop
import PolishingRobot.Lift.Resume
import PolishingRobot.Lists.Splits

/-!
# Who ordered a homing run

A poll drives the lift at a speed only while homing. Every such speed goes back to
the event that started the run: a request, or the deferred homing of the start-up,
which runs at most once and before any request.
-/

namespace PolishingRobot.Lift

open PolishingRobot.Lists (split_append_singleton)

variable {c : Config} {now : Time} {pos : Int32} {fresh : Bool} {di st : UInt8} {s t : State}

/-- The speed of a homing run. -/
def homingVelocity (c : Config) : Int16 :=
  (-(if 0 ≤ c.upSpeedRpm then 1 else -1 : Int32) * homingSpeed c).toInt16

/-- A homing run begins: a request without an alarm, or the deferred one on fresh data. -/
def StartsHoming (c : Config) (s : State) : Event → Prop
  | .home _ start =>
      start = true ∧ c.enablePositionControl = true ∧ s.alarmActive = false ∧ homingSpeed c ≠ 0
  | .poll rxNow now frames =>
      s.pendingHome = true ∧ isFresh c now (polled c rxNow frames s).rx = true ∧
        (alarmStage c rxNow now frames s).alarmActive = false ∧ homingSpeed c ≠ 0
  | _ => False

/-- The message takes the lift out of a homing run, or starts it anew. -/
def Overrides (c : Config) (s : State) (e : Event) : Prop :=
  match e with
  | .home _ start => c.enablePositionControl = true ∧ (start = false ∨ homingSpeed c ≠ 0)
  | .positionCmd _ _ | .incPositionCmd _ _ => acceptedTarget c s e ≠ none
  | e => e.IsManual

/-- `e` started the homing run that every later event found going on. -/
def HomingSince (c : Config) (es : List Event) (e : Event) : Prop :=
  ∃ before behind, es = before ++ e :: behind ∧ StartsHoming c (run c before) e ∧
    ∀ p m q, behind = p ++ m :: q →
      (run c (before ++ e :: p)).mode = .homing ∧ ¬ Overrides c (run c (before ++ e :: p)) m

/-- No homing run has been started or called off. -/
def Untouched (c : Config) (es : List Event) : Prop :=
  ∀ p m q, es = p ++ m :: q →
    ¬ StartsHoming c (run c p) m ∧ ∀ now, m = .home now false → c.enablePositionControl = false

/-- The deferred homing stays as it was and no homing run begins. -/
structure KeepsHoming (s t : State) : Prop where
  pending : t.pendingHome = s.pendingHome
  homing : t.mode = .homing →
    s.mode = .homing ∧ t.homeStart = s.homeStart ∧ t.homeDirSpeed = s.homeDirSpeed

namespace KeepsHoming

variable {u : State}

theorem refl (s : State) : KeepsHoming s s := ⟨rfl, fun h => ⟨h, rfl, rfl⟩⟩

theorem trans (h₁ : KeepsHoming s t) (h₂ : KeepsHoming t u) : KeepsHoming s u where
  pending := h₂.pending.trans h₁.pending
  homing := by
    intro hu
    obtain ⟨ht, hstart, hspeed⟩ := h₂.homing hu
    obtain ⟨hs, hstart', hspeed'⟩ := h₁.homing ht
    exact ⟨hs, hstart.trans hstart', hspeed.trans hspeed'⟩

theorem of_ended (hpending : t.pendingHome = s.pendingHome) (hmode : t.mode ≠ .homing) :
    KeepsHoming s t :=
  ⟨hpending, fun h => absurd h hmode⟩

theorem of_position (hpending : t.pendingHome = s.pendingHome) (hmode : t.mode = .position) :
    KeepsHoming s t := by
  apply of_ended hpending
  rw [hmode]
  simp

end KeepsHoming

theorem sendVelocity_keepsHoming (c : Config) (now : Time) (rpm : Int16) (s : State) :
    KeepsHoming s (sendVelocity c now rpm s) := by
  rw [sendVelocity_eq]
  exact ⟨rfl, fun h => ⟨h, rfl, rfl⟩⟩

theorem AlarmResetStep.keepsHoming {manual : Bool} (h : AlarmResetStep c now manual s t) :
    KeepsHoming s t := by
  cases h with
  | exhausted => exact ⟨rfl, fun h => ⟨h, rfl, rfl⟩⟩
  | sent =>
      apply (sendVelocity_keepsHoming c now 0 s).trans
      exact ⟨rfl, fun h => ⟨h, rfl, rfl⟩⟩

theorem AutoResetStep.keepsHoming (h : AutoResetStep c now s t) : KeepsHoming s t := by
  cases h with
  | idle => exact .refl s
  | retry _ _ _ _ h => exact h.keepsHoming

/-- An alarm ends homing and never resumes it. -/
theorem AlarmStep.keepsHoming (h : AlarmStep c now st fresh pos s t) (hs : Consistent c s) :
    KeepsHoming s t := by
  cases h with
  | stale => exact .refl s
  | quiet => exact .refl s
  | cleared _ _ _ h =>
      cases h with
      | nothing => exact ⟨rfl, fun h => ⟨h, rfl, rfl⟩⟩
      | givenUp => exact ⟨rfl, fun h => ⟨h, rfl, rfl⟩⟩
      | homing hr => exact absurd hr hs.resume_ne_homing
      | absolute => exact .of_ended rfl nofun
      | relative => exact .of_ended rfl nofun
  | raised _ _ _ h =>
      have hraise : KeepsHoming s (raiseAlarm c now s) := by
        rw [raiseAlarm_eq, sendVelocity_eq]
        exact .of_ended rfl nofun
      exact hraise.trans h.keepsHoming
  | standing _ _ _ h => exact h.keepsHoming

theorem finishHoming_keepsHoming (c : Config) (now : Time) (s : State) :
    KeepsHoming s (finishHoming c now s) := by
  rw [finishHoming_eq, sendVelocity_eq]
  exact .of_ended rfl nofun

theorem HomingStep.keepsHoming (h : HomingStep c now pos fresh di s t) : KeepsHoming s t := by
  have hsend := sendVelocity_keepsHoming c now s.homeDirSpeed s
  cases h with
  | timeout =>
      rw [sendVelocity_eq]
      exact .of_ended rfl nofun
  | limit => exact finishHoming_keepsHoming c now s
  | unheard => exact hsend.trans ⟨rfl, fun h => ⟨h, rfl, rfl⟩⟩
  | moving => exact hsend.trans ⟨rfl, fun h => ⟨h, rfl, rfl⟩⟩
  | stalled => exact hsend.trans (finishHoming_keepsHoming c now _)
  | waiting => exact hsend

theorem MotionStep.keepsHoming (h : MotionStep c now pos fresh di s t) : KeepsHoming s t := by
  cases h with
  | idle => exact .refl s
  | homing _ h => exact h.keepsHoming
  | reached => exact .of_ended rfl nofun

theorem ReleaseStep.keepsHoming (h : ReleaseStep c now pos fresh di s t) : KeepsHoming s t := by
  cases h with
  | idle => exact .refl s
  | watch => exact ⟨rfl, fun h => ⟨h, rfl, rfl⟩⟩
  | release => exact sendVelocity_keepsHoming c now 0 s

theorem resetCallback_keepsHoming (now : Time) (on : Bool) (s : State) :
    KeepsHoming s (resetCallback c now on s) := by
  unfold resetCallback
  split
  · exact .refl s
  · dsimp only
    split
    · exact ⟨rfl, fun h => ⟨h, rfl, rfl⟩⟩
    · have h := requestAlarmReset_step c now true
        { s with alarmResetAttempts := 0, alarmResetExhausted := false, resumeCycles := 0 }
      have hrearm : KeepsHoming s
          { s with alarmResetAttempts := 0, alarmResetExhausted := false, resumeCycles := 0 } :=
        ⟨rfl, fun h => ⟨h, rfl, rfl⟩⟩
      exact hrearm.trans h.keepsHoming

/-- A homing run that began at `now` or has already ended. -/
structure Begun (c : Config) (now : Time) (t : State) : Prop where
  claimed : t.pendingHome = false
  homing : t.mode = .homing → t.homeStart = now ∧ t.homeDirSpeed = homingVelocity c

theorem Begun.keeps (h : Begun c now s) (hkeeps : KeepsHoming s t) : Begun c now t where
  claimed := hkeeps.pending.trans h.claimed
  homing := by
    intro ht
    obtain ⟨hs, hstart, hspeed⟩ := hkeeps.homing ht
    obtain ⟨hstart', hspeed'⟩ := h.homing hs
    exact ⟨hstart.trans hstart', hspeed.trans hspeed'⟩

theorem homingStarted_begun (c : Config) (now : Time) (s : State) :
    Begun c now (homingStarted c now s) :=
  ⟨rfl, fun _ => ⟨rfl, rfl⟩⟩

theorem polled_keepsHoming (c : Config) (rxNow : Time) (frames : List RxFrame) (s : State) :
    KeepsHoming s (polled c rxNow frames s) := by
  rw [polled, pollReceive_eq]
  exact ⟨rfl, fun h => ⟨h, rfl, rfl⟩⟩

/-- Up to its motion stage a poll begins a homing run or leaves it alone. -/
theorem beforeMotion_homing (hs : Consistent c s) (rxNow now : Time) (frames : List RxFrame) :
    StartsHoming c s (.poll rxNow now frames) ∧
        Begun c now (beforeMotion c now (polled c rxNow frames s)) ∨
      ¬ StartsHoming c s (.poll rxNow now frames) ∧
        KeepsHoming s (beforeMotion c now (polled c rxNow frames s)) := by
  have hpolled := polled_keepsHoming c rxNow frames s
  have hconsistent : Consistent c (polled c rxNow frames s) := by
    apply pollReceive_consistent
    exact hs.congr rfl rfl rfl rfl rfl
  have halarm := (updateAlarm_step c now (polled c rxNow frames s).rx.statusByte
    (isFresh c now (polled c rxNow frames s).rx) (polled c rxNow frames s).rx.position
    (polled c rxNow frames s)).keepsHoming hconsistent
  have hkeeps := hpolled.trans halarm
  have hauto := autoHome_step c now (isFresh c now (polled c rxNow frames s).rx)
    (updateAlarm c now (polled c rxNow frames s).rx.statusByte
      (isFresh c now (polled c rxNow frames s).rx) (polled c rxNow frames s).rx.position
      (polled c rxNow frames s))
  rw [← beforeMotion] at hauto
  generalize beforeMotion c now (polled c rxNow frames s) = v at hauto ⊢
  cases hauto with
  | idle h =>
      refine .inr ⟨?_, hkeeps⟩
      rintro ⟨hpending, hfresh, hactive, hspeed⟩
      rcases h with h | h | h | h
      · rw [hkeeps.pending, hpending] at h
        cases h
      · rw [hfresh] at h
        cases h
      · rw [alarmStage] at hactive
        exact absurd (hactive.symm.trans h) (by decide)
      · exact hspeed h
  | started hpending hfresh hactive hspeed =>
      refine .inl ⟨⟨?_, hfresh, hactive, hspeed⟩, homingStarted_begun c now _⟩
      rw [← hkeeps.pending]
      exact hpending

/-- The motion and the release stage end a homing run at most. -/
theorem poll_keepsHoming (rxNow now : Time) (frames : List RxFrame) (s : State) :
    KeepsHoming (beforeMotion c now (polled c rxNow frames s))
      (step c s (.poll rxNow now frames)) := by
  obtain ⟨u, v, w, hbefore, -, -, hw, hr⟩ :=
    pollDecide_stages c now (polled c rxNow frames s)
  rw [hbefore]
  exact hw.keepsHoming.trans hr.keepsHoming

/-- What a callback does to the homing run: it begins one, it calls the homing off, or it
leaves it alone. -/
inductive HomingChange (c : Config) (s : State) (e : Event) (t : State) : Prop
  | begun (hstarts : StartsHoming c s e) (h : Begun c e.time t)
  | calledOff (hoff : ∃ now, e = .home now false) (hpending : t.pendingHome = false)
      (hmode : t.mode ≠ .homing)
  | kept (hstarts : ¬ StartsHoming c s e) (h : KeepsHoming s t)
      (hoverrides : t.mode = .homing → ¬ Overrides c s e)
      (hoff : ∀ now, e = .home now false → c.enablePositionControl = false)

/-- A move is accepted and ends the homing run, or it is ignored. -/
theorem move_homing {e : Event} (h : (∃ now target, e = .positionCmd now target) ∨
      ∃ now inc, e = .incPositionCmd now inc) :
    KeepsHoming s (step c s e) ∧ ((step c s e).mode = .homing → acceptedTarget c s e = none) := by
  have hidle : KeepsHoming s { s with tx := [] } := ⟨rfl, fun h => ⟨h, rfl, rfl⟩⟩
  rcases h with ⟨now, target, rfl⟩ | ⟨now, inc, rfl⟩
  · simp only [step, callback, positionCmdCallback, acceptedTarget]
    by_cases haccepted : c.enablePositionControl = true ∧ s.homed = true ∧ ¬ s.alarmActive = true
    · obtain ⟨henable, hhomed, hactive⟩ := haccepted
      simp only [if_pos henable, hhomed, not_true_eq_false, if_false, if_neg hactive]
      refine ⟨.of_position rfl rfl, fun hmode => ?_⟩
      cases hmode
    · rw [if_neg haccepted]
      refine ⟨?_, fun _ => rfl⟩
      split_ifs with henable hhomed hactive
      · exact hidle
      · exact absurd ⟨henable, hhomed, hactive⟩ haccepted
      · exact hidle
      · exact hidle
  · simp only [step, callback, incPositionCmdCallback, acceptedTarget]
    by_cases haccepted : c.enablePositionControl = true ∧ ¬ s.alarmActive = true
    · obtain ⟨henable, hactive⟩ := haccepted
      simp only [if_pos henable, if_neg hactive]
      refine ⟨.of_position rfl rfl, fun hmode => ?_⟩
      cases hmode
    · rw [if_neg haccepted]
      refine ⟨?_, fun _ => rfl⟩
      split_ifs with henable hactive
      · exact hidle
      · exact absurd ⟨henable, hactive⟩ haccepted
      · exact hidle

/-- A homing message starts a run, calls it off, or is ignored. -/
theorem home_homing (hs : Consistent c s) (now : Time) (start : Bool) :
    HomingChange c s (.home now start) (step c s (.home now start)) := by
  have hidle : KeepsHoming s { s with tx := [] } := ⟨rfl, fun h => ⟨h, rfl, rfl⟩⟩
  by_cases henable : c.enablePositionControl = true
  · cases start with
    | false =>
        refine .calledOff ⟨now, rfl⟩ ?_ ?_
        · simp only [step, callback, homeCallback, if_pos henable, Bool.false_eq_true,
            not_false_eq_true, if_true]
          split
          · rw [sendVelocity_eq]
            rfl
          · rfl
        · simp only [step, callback, homeCallback, if_pos henable, Bool.false_eq_true,
            not_false_eq_true, if_true]
          split
          · rw [sendVelocity_eq]
            intro hmode
            cases hmode
          · assumption
    | true =>
        simp only [step, callback, if_pos henable]
        rw [homeCallback_true]
        by_cases hrefused : s.alarmActive = true ∨ homingSpeed c = 0
        · rw [if_pos hrefused]
          refine .kept ?_ hidle ?_ fun now hoff => by cases hoff
          · rintro ⟨-, -, hactive, hspeed⟩
            rcases hrefused with h | h
            · rw [hactive] at h
              cases h
            · exact hspeed h
          · rintro hmode ⟨-, hstart | hspeed⟩
            · cases hstart
            · have hquiet : s.alarmActive = false := hs.quiet_of_homing hmode
              rcases hrefused with h | h
              · rw [hquiet] at h
                cases h
              · exact hspeed h
        · rw [if_neg hrefused]
          obtain ⟨hactive, hspeed⟩ := not_or.mp hrefused
          exact .begun ⟨rfl, henable, by simpa using hactive, hspeed⟩ (homingStarted_begun c now _)
  · simp only [step, callback, if_neg henable]
    exact .kept (fun h => henable h.2.1) hidle (fun _ h => henable h.1)
      fun _ _ => by simpa using henable

theorem step_homing (hs : Consistent c s) (e : Event) : HomingChange c s e (step c s e) := by
  by_cases hmanual : e.IsManual
  · obtain ⟨hmode, -, hpending⟩ := manual_step e hmanual s
    have hended : (step c s e).mode ≠ .homing := by
      rw [hmode]
      decide
    refine .kept ?_ (.of_ended hpending hended) (fun h => absurd h hended) ?_
    · cases e with
      | home => exact absurd hmanual id
      | poll => exact absurd hmanual id
      | _ => exact id
    · rintro now rfl
      exact absurd hmanual id
  · have hidle : KeepsHoming s { s with tx := [] } := ⟨rfl, fun h => ⟨h, rfl, rfl⟩⟩
    cases e with
    | command now cmd =>
        have hunknown : cmd ≠ "up" ∧ cmd ≠ "down" ∧ cmd ≠ "stop" := by
          simpa only [Event.IsManual, not_or] using hmanual
        refine .kept id ?_ (fun _ => hmanual) nofun
        dsimp only [step, callback, commandCallback]
        rwa [if_pos hunknown]
    | velocityCmd => exact absurd trivial hmanual
    | positionCmd now target =>
        obtain ⟨hkeeps, hignored⟩ := move_homing (c := c) (s := s) (.inl ⟨now, target, rfl⟩)
        exact .kept id hkeeps (fun hmode h => h (hignored hmode)) nofun
    | incPositionCmd now inc =>
        obtain ⟨hkeeps, hignored⟩ := move_homing (c := c) (s := s) (.inr ⟨now, inc, rfl⟩)
        exact .kept id hkeeps (fun hmode h => h (hignored hmode)) nofun
    | home now start => exact home_homing hs now start
    | reset now on =>
        refine .kept id ?_ (fun _ => id) nofun
        exact hidle.trans (resetCallback_keepsHoming now on _)
    | poll rxNow now frames =>
        have hlater := poll_keepsHoming (c := c) rxNow now frames s
        rcases beforeMotion_homing hs rxNow now frames with ⟨hstarts, h⟩ | ⟨hstarts, h⟩
        · exact .begun hstarts (h.keeps hlater)
        · exact .kept hstarts (h.trans hlater) (fun _ => id) nofun

/-- A frame that sets no speed, or that of the homing run of `s`, which is in time. -/
def SpeedInTime (c : Config) (now : Time) (s : State) (f : TxFrame) : Prop :=
  ∀ v, f = .velCmd v →
    v = 0 ∨ s.mode = .homing ∧ ¬ c.homeTimeoutSec < now - s.homeStart ∧ v = s.homeDirSpeed

theorem SpeedInTime.stop (c : Config) (now : Time) (s : State) : SpeedInTime c now s (.velCmd 0) :=
  fun _ h => .inl (TxFrame.velCmd.inj h).symm

theorem updateMotion_speeds (c : Config) (now : Time) (pos : Int32) (fresh : Bool) (di : UInt8)
    (s : State) : Writes (SpeedInTime c now s) s (updateMotion c now pos fresh di s) := by
  have hstop := SpeedInTime.stop c now s
  have hstep := updateMotion_step c now pos fresh di s
  generalize hmotion : updateMotion c now pos fresh di s = t at hstep ⊢
  cases hstep with
  | idle => exact .refl s
  | reached => exact .of_tx_eq rfl
  | homing hmode h =>
      by_cases htime : c.homeTimeoutSec < now - s.homeStart
      · -- The timeout is looked at before anything else.
        have hended : t = { sendVelocity c now 0 s with mode := .manual, resumeCycles := 0 } := by
          rw [← hmotion, updateMotion, hmode]
          exact if_pos htime
        rw [hended]
        exact (sendVelocity_writes c now 0 s hstop).trans (.of_tx_eq rfl)
      · have hspeed : SpeedInTime c now s (.velCmd s.homeDirSpeed) :=
          fun v h => .inr ⟨hmode, htime, (TxFrame.velCmd.inj h).symm⟩
        have hsend := sendVelocity_writes c now s.homeDirSpeed s hspeed
        cases h with
        | timeout h => exact absurd h htime
        | limit => exact finishHoming_writes now s hstop nofun fun _ => nofun
        | unheard => exact hsend.trans (.of_tx_eq rfl)
        | moving => exact hsend.trans (.of_tx_eq rfl)
        | stalled => exact hsend.trans (finishHoming_writes now _ hstop nofun fun _ => nofun)
        | waiting => exact hsend

/-- A speed that a poll sends is that of a homing run in time. -/
theorem poll_speeds (c : Config) (rxNow now : Time) (frames : List RxFrame) (s : State) {v : Int16}
    (hv : v ≠ 0) (hsent : .velCmd v ∈ (step c s (.poll rxNow now frames)).tx) :
    (beforeMotion c now (polled c rxNow frames s)).mode = .homing ∧
      now - (beforeMotion c now (polled c rxNow frames s)).homeStart ≤ c.homeTimeoutSec ∧
      v = (beforeMotion c now (polled c rxNow frames s)).homeDirSpeed := by
  let p := polled c rxNow frames s
  let b := beforeMotion c now p
  let m := updateMotion c now p.rx.position (isFresh c now p.rx) p.rx.diByte b
  have hstop := SpeedInTime.stop c now b
  have hask : Writes (SpeedInTime c now b) { s with tx := [] } p :=
    pollReceive_writes rxNow frames _ nofun
  have halarm : Writes (SpeedInTime c now b) p b := by
    obtain ⟨u, v, w, hbefore, hu, hv, -, -⟩ := pollDecide_stages c now p
    have hfirst : Writes (SpeedInTime c now b) p u :=
      hu.writes hstop nofun (fun _ _ => nofun) fun _ => nofun
    rw [← hbefore] at hv
    exact hfirst.trans hv.writes
  have hmotion : Writes (SpeedInTime c now b) b m := updateMotion_speeds c now _ _ _ b
  have hrelease : Writes (SpeedInTime c now b) m (step c s (.poll rxNow now frames)) :=
    (releaseIfBlocked_step c now _ _ _ _).writes hstop
  have hall := ((hask.trans halarm).trans hmotion).trans hrelease
  obtain h | ⟨hmode, htime, hspeed⟩ := hall.forall_mem rfl hsent v rfl
  · exact absurd h hv
  · exact ⟨hmode, not_lt.mp htime, hspeed⟩

theorem Untouched.nil (c : Config) : Untouched c [] := by
  intro p m q h
  simp at h

/-- A homing run goes on until it is overridden. -/
theorem HomingSince.append {es : List Event} {e m : Event} (h : HomingSince c es e)
    (hmode : (run c es).mode = .homing) (hm : ¬ Overrides c (run c es) m) :
    HomingSince c (es ++ [m]) e := by
  obtain ⟨before, behind, rfl, hstarts, hgoing⟩ := h
  refine ⟨before, behind ++ [m], by simp, hstarts, ?_⟩
  intro p n q hsplit
  rcases split_append_singleton hsplit with ⟨rfl, rfl, -⟩ | ⟨q', -, hbehind⟩
  · exact ⟨hmode, hm⟩
  · exact hgoing p n q' hbehind

theorem HomingSince.last {es : List Event} {e : Event} (h : StartsHoming c (run c es) e) :
    HomingSince c (es ++ [e]) e := by
  refine ⟨es, [], rfl, h, ?_⟩
  intro p m q hsplit
  simp at hsplit

/-- What a run remembers of its homing. -/
structure Ordered (c : Config) (es : List Event) : Prop where
  since : (run c es).mode = .homing → ∃ e, HomingSince c es e ∧
    (run c es).homeStart = e.time ∧ (run c es).homeDirSpeed = homingVelocity c
  pending : (run c es).pendingHome = true →
    c.enablePositionControl = true ∧ c.autoHomeOnStart = true ∧ Untouched c es

theorem start_ordered (c : Config) : Ordered c [] where
  since := by
    intro hmode
    rw [run_nil, (start_modes c).1] at hmode
    cases hmode
  pending := by
    intro hpending
    have hboth : (c.enablePositionControl && c.autoHomeOnStart) = true := by
      rw [← hpending, run_nil, start]
      split
      · rfl
      · rfl
    rw [Bool.and_eq_true] at hboth
    exact ⟨hboth.1, hboth.2, .nil c⟩

theorem Ordered.step {es : List Event} (h : Ordered c es) (e : Event) : Ordered c (es ++ [e]) := by
  have hchange := step_homing (run_consistent c es) e
  rw [← run_append_singleton] at hchange
  constructor
  · intro hmode
    cases hchange with
    | begun hstarts hbegun =>
        obtain ⟨hstart, hspeed⟩ := hbegun.homing hmode
        exact ⟨e, .last hstarts, hstart, hspeed⟩
    | calledOff _ _ hended => exact absurd hmode hended
    | kept _ hkeeps hoverrides =>
        obtain ⟨hbefore, hstart, hspeed⟩ := hkeeps.homing hmode
        obtain ⟨e', hsince, hstart', hspeed'⟩ := h.since hbefore
        exact ⟨e', hsince.append hbefore (hoverrides hmode), hstart.trans hstart',
          hspeed.trans hspeed'⟩
  · intro hpending
    cases hchange with
    | begun _ hbegun =>
        rw [hbegun.claimed] at hpending
        cases hpending
    | calledOff _ hclaimed =>
        rw [hclaimed] at hpending
        cases hpending
    | kept hstarts hkeeps _ hoff =>
        obtain ⟨henable, hauto, huntouched⟩ := h.pending (hkeeps.pending ▸ hpending)
        refine ⟨henable, hauto, ?_⟩
        intro p m q hsplit
        rcases split_append_singleton hsplit with ⟨rfl, rfl, -⟩ | ⟨q', -, hes⟩
        · exact ⟨hstarts, hoff⟩
        · exact huntouched p m q' hes

theorem run_ordered (c : Config) (es : List Event) : Ordered c es := by
  induction es using List.reverseRecOn with
  | nil => exact start_ordered c
  | append_singleton es e ih => exact ih.step e

/-- In every run a poll sends a speed only in a homing run that an event started at most
the timeout before and that nothing has called off since; and a poll starts one by itself
only as the deferred homing of the start-up, before any other homing order. -/
theorem homing_is_ordered (c : Config) (es : List Event) (rxNow now : Time)
    (frames : List RxFrame) :
    let poll := Event.poll rxNow now frames
    (∀ v, v ≠ 0 → .velCmd v ∈ (step c (run c es) poll).tx →
      v = homingVelocity c ∧
        ∃ e, HomingSince c (es ++ [poll]) e ∧ now - e.time ≤ c.homeTimeoutSec) ∧
      (StartsHoming c (run c es) poll →
        c.enablePositionControl = true ∧ c.autoHomeOnStart = true ∧ Untouched c es) := by
  intro poll
  constructor
  · intro v hv hsent
    obtain ⟨hmode, htime, hspeed⟩ := poll_speeds c rxNow now frames (run c es) hv hsent
    rcases beforeMotion_homing (run_consistent c es) rxNow now frames with
      ⟨hstarts, hbegun⟩ | ⟨-, hkeeps⟩
    · obtain ⟨hstart, hvelocity⟩ := hbegun.homing hmode
      rw [hstart] at htime
      exact ⟨hspeed.trans hvelocity, poll, .last hstarts, htime⟩
    · obtain ⟨hbefore, hstart, hvelocity⟩ := hkeeps.homing hmode
      obtain ⟨e, hsince, hstart', hvelocity'⟩ := (run_ordered c es).since hbefore
      rw [hstart, hstart'] at htime
      exact ⟨(hspeed.trans hvelocity).trans hvelocity', e, hsince.append hbefore id, htime⟩
  · intro hstarts
    exact (run_ordered c es).pending hstarts.1

/-- A homing run that was asked for a second before. -/
theorem homing_is_ordered_request :
    let poll := Event.poll 2 2 [monitorReply 90 4]
    TxFrame.velCmd (-500) ∈ (step defaultConfig (run defaultConfig [.home 1 true]) poll).tx ∧
      (-500 : Int16) = homingVelocity defaultConfig ∧
      ∃ e, HomingSince defaultConfig [.home 1 true, poll] e ∧
        2 - e.time ≤ defaultConfig.homeTimeoutSec := by
  intro poll
  have hsent : TxFrame.velCmd (-500) ∈
      (step defaultConfig (run defaultConfig [.home 1 true]) poll).tx := by decide +kernel
  exact ⟨hsent, (homing_is_ordered defaultConfig [.home 1 true] 2 2 _).1 (-500) (by decide) hsent⟩

end PolishingRobot.Lift
