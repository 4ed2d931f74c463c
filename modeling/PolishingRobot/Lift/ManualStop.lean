import PolishingRobot.Lift.AlarmLockout
import PolishingRobot.Runs.LabelledRuns

/-!
# What a manual command cancels

A manual command drops a running move, a running homing and a pending resume.
It leaves the deferred start-up homing armed. `Disarmed` is what the lift must
satisfy to stay still until the next request for motion.
-/

namespace PolishingRobot.Lift

open Runs

variable {c : Config} {now : Time} {pos : Int32} {fresh : Bool} {di st : UInt8} {s t : State}

/-- Events that ask for no motion. -/
def Event.IsQuiet : Event → Prop
  | .poll _ _ _ | .reset _ _ => True
  | .home _ start => start = false
  | _ => False

/-- A poll enters or continues homing. -/
def RunsHoming (c : Config) (s : State) : Event → Prop
  | .poll rxNow now frames => (beforeMotion c now (pollReceive c rxNow frames s)).mode = .homing
  | _ => False

/-- A callback writes no position command and no nonzero speed, and neither
runs homing nor ends in it. -/
structure StaysStill (c : Config) (s : State) (e : Event) (t : State) : Prop where
  no_move : ∀ f ∈ t.tx, f.pid ≠ pidPosiCmd ∧ f.pid ≠ pidIncPosiCmd
  no_speed : ∀ rpm, TxFrame.velCmd rpm ∈ t.tx → rpm = 0
  not_homing : t.mode ≠ .homing
  no_homing_run : ¬ RunsHoming c s e

/-- Nothing is left that could start the lift by itself. -/
structure Disarmed (c : Config) (s : State) : Prop where
  consistent : Consistent c s
  manual : s.mode = .manual
  no_resume : s.resumeMode = .manual
  no_start : s.pendingHome = false ∨ homingSpeed c = 0 ∨ c.serialOpen = false

theorem sendVelocity_disarmed (hs : Disarmed c s) (now : Time) (rpm : Int16) :
    Disarmed c (sendVelocity c now rpm s) := by
  have hc := sendVelocity_consistent hs.consistent now rpm
  rw [sendVelocity_eq] at hc ⊢
  exact ⟨hc, hs.manual, hs.no_resume, hs.no_start⟩

theorem AlarmResetStep.disarmed {manual : Bool} (h : AlarmResetStep c now manual s t)
    (hs : Disarmed c s) : Disarmed c t := by
  have hc := h.consistent hs.consistent
  cases h with
  | exhausted => exact ⟨hc, hs.manual, hs.no_resume, hs.no_start⟩
  | sent =>
      have hv := sendVelocity_disarmed hs now 0
      dsimp only [sendAlarmReset, sendFrame] at hc ⊢
      exact ⟨hc, hv.manual, hv.no_resume, hv.no_start⟩

theorem AutoResetStep.disarmed (h : AutoResetStep c now s t) (hs : Disarmed c s) :
    Disarmed c t := by
  cases h with
  | idle => exact hs
  | retry _ _ _ _ h => exact h.disarmed hs

theorem raiseAlarm_disarmed (hs : Disarmed c s) (now : Time) :
    Disarmed c (raiseAlarm c now s) := by
  have hc := raiseAlarm_consistent hs.consistent now
  have hv := sendVelocity_disarmed hs now 0
  rw [raiseAlarm_eq] at hc ⊢
  refine ⟨hc, rfl, ?_, hv.no_start⟩
  simp [hs.manual, hs.no_resume]

/-- With nothing to resume, clearing an alarm writes nothing. -/
theorem ResumeStep.eq_of_manual (h : ResumeStep c now pos s t) (hr : s.resumeMode = .manual) :
    t = s := by
  cases h with
  | nothing => rfl
  | givenUp hne => exact absurd hr hne
  | homing hh => rw [hr] at hh; cases hh
  | absolute hp => rw [hr] at hp; cases hp
  | relative hp => rw [hr] at hp; cases hp

theorem AlarmStep.disarmed (h : AlarmStep c now st fresh pos s t) (hs : Disarmed c s) :
    Disarmed c t ∧ Writes Harmless s t := by
  have hc := h.consistent hs.consistent
  cases h with
  | stale => exact ⟨hs, .refl s⟩
  | quiet => exact ⟨hs, .refl s⟩
  | cleared _ _ _ h =>
      have hclear : (clearAlarm s).resumeMode = .manual := hs.no_resume
      obtain rfl := h.eq_of_manual hclear
      exact ⟨⟨hc, hs.manual, hs.no_resume, hs.no_start⟩, .of_tx_eq rfl⟩
  | raised _ _ _ h =>
      have hraise : Writes Harmless s (raiseAlarm c now s) :=
        .of_sent c (raiseAlarm_tx c now s) (.inl rfl)
      exact ⟨h.disarmed (raiseAlarm_disarmed hs now), hraise.trans h.harmless.1⟩
  | standing _ _ _ h => exact ⟨h.disarmed hs, h.harmless.1⟩

theorem ReleaseStep.disarmed (h : ReleaseStep c now pos fresh di s t) (hs : Disarmed c s) :
    Disarmed c t := by
  cases h with
  | idle => exact hs
  | watch => exact ⟨hs.consistent.congr rfl rfl rfl rfl rfl, hs.manual, hs.no_resume, hs.no_start⟩
  | release => exact sendVelocity_disarmed hs now 0

/-- A deferred homing does not start from a disarmed state. -/
theorem AutoHomeStep.eq_of_disarmed {r : State} (h : AutoHomeStep c now (isFresh c now r.rx) s t)
    (hs : Disarmed c s) (hrx : s.rx = r.rx) : t = s := by
  cases h with
  | idle => rfl
  | started hpending hfresh _ hspeed =>
      rcases hs.no_start with hnone | hzero | hclosed
      · rw [hpending] at hnone
        cases hnone
      · exact absurd hzero hspeed
      · rw [← hrx] at hfresh
        rw [hs.consistent.open_of_fresh hfresh] at hclosed
        cases hclosed

/-- The decisions of a poll in a disarmed state only stop the lift. -/
theorem pollDecide_disarmed (hs : Disarmed c s) (now : Time) :
    Disarmed c (pollDecide c now s) ∧ Writes Harmless s (pollDecide c now s) ∧
      (beforeMotion c now s).mode = .manual := by
  obtain ⟨u, v, w, hbefore, hu, hv, hw, hr⟩ := pollDecide_stages c now s
  obtain ⟨hdu, hwu⟩ := hu.disarmed hs
  obtain rfl := hv.eq_of_disarmed hdu hu.rx_eq
  have hwv : w = v := by
    cases hw with
    | idle => rfl
    | homing hmode => rw [hdu.manual] at hmode; cases hmode
    | reached hmode => rw [hdu.manual] at hmode; cases hmode
  subst hwv
  refine ⟨hr.disarmed hdu, hwu.trans hr.harmless.1, ?_⟩
  rw [hbefore]
  exact hdu.manual

theorem pollReceive_disarmed (hs : Disarmed c s) (rxNow : Time) (frames : List RxFrame) :
    Disarmed c (pollReceive c rxNow frames s) := by
  have hc := pollReceive_consistent hs.consistent rxNow frames
  rw [pollReceive_eq] at hc ⊢
  exact ⟨hc, hs.manual, hs.no_resume, hs.no_start⟩

theorem resetCallback_disarmed (hs : Disarmed c s) (now : Time) (on : Bool) :
    Disarmed c (resetCallback c now on s) := by
  have hc := resetCallback_consistent hs.consistent now on
  unfold resetCallback at hc ⊢
  split
  · exact hs
  · dsimp only
    have hrearm : Disarmed c { s with
        alarmResetAttempts := 0, alarmResetExhausted := false, resumeCycles := 0 } :=
      ⟨hs.consistent.congr rfl rfl rfl rfl rfl, hs.manual, hs.no_resume, hs.no_start⟩
    split
    · exact ⟨hrearm.consistent.congr rfl rfl rfl rfl rfl, hs.manual, hs.no_resume, hs.no_start⟩
    · exact (requestAlarmReset_step c now true _).disarmed hrearm

theorem homeCallback_disarmed (hs : Disarmed c s) (now : Time) :
    Disarmed c (homeCallback c now false s) := by
  have hc := homeCallback_consistent hs.consistent now false
  have hmode : ¬ (cancelResume { s with pendingHome := false }).mode = .homing := by
    simp [cancelResume, hs.manual]
  simp only [homeCallback, Bool.false_eq_true, not_false_eq_true, if_true, if_neg hmode] at hc ⊢
  exact ⟨hc, hs.manual, rfl, .inl rfl⟩

/-- A quiet callback keeps the lift disarmed and writes harmless frames. -/
theorem quiet_disarmed (hs : Disarmed c s) (e : Event) (he : e.IsQuiet) :
    Disarmed c (step c s e) ∧ Writes Harmless { s with tx := [] } (step c s e) ∧
      ¬ RunsHoming c s e := by
  have h₀ : Disarmed c { s with tx := [] } :=
    ⟨hs.consistent.congr rfl rfl rfl rfl rfl, hs.manual, hs.no_resume, hs.no_start⟩
  cases e with
  | poll rxNow now frames =>
      have hr := pollReceive_disarmed h₀ rxNow frames
      obtain ⟨hd, hw, -⟩ := pollDecide_disarmed hr now
      have hask : Writes Harmless { s with tx := [] }
          (pollReceive c rxNow frames { s with tx := [] }) :=
        .of_sent c (by rw [pollReceive_eq]) (.inr (.inr rfl))
      refine ⟨hd, hask.trans hw, ?_⟩
      intro hrun
      have hmode := (pollDecide_disarmed (pollReceive_disarmed hs rxNow frames) now).2.2
      have hrun' : (beforeMotion c now (pollReceive c rxNow frames s)).mode = .homing := hrun
      rw [hmode] at hrun'
      cases hrun'
  | reset now on =>
      exact ⟨resetCallback_disarmed h₀ now on, (resetCallback_harmless now on _).1, id⟩
  | home now start =>
      obtain rfl : start = false := he
      dsimp only [step, callback]
      split
      · refine ⟨homeCallback_disarmed h₀ now, .of_tx_eq ?_, id⟩
        simp [homeCallback, cancelResume, hs.manual]
      · exact ⟨h₀, .refl _, id⟩
  | command => cases he
  | velocityCmd => cases he
  | positionCmd => cases he
  | incPositionCmd => cases he

/-- A quiet callback of a disarmed lift leaves it still. -/
theorem quiet_staysStill (hs : Disarmed c s) (e : Event) (he : e.IsQuiet) :
    StaysStill c s e (step c s e) := by
  obtain ⟨hd, hw, hrun⟩ := quiet_disarmed hs e he
  refine ⟨?_, ?_, ?_, hrun⟩
  · intro f hf
    rcases hw.forall_mem rfl hf with rfl | rfl | rfl <;> simp only [TxFrame.pid] <;> decide
  · intro rpm hmem
    rcases hw.forall_mem rfl hmem with h | h | h
    · exact TxFrame.velCmd.inj h
    · cases h
    · cases h
  · rw [hd.manual]
    decide

/-- A manual command ends in manual mode with nothing to resume, and leaves
the deferred homing as it was. -/
theorem manual_step (e : Event) (he : e.IsManual) (s : State) :
    (step c s e).mode = .manual ∧ (step c s e).resumeMode = .manual ∧
      (step c s e).pendingHome = s.pendingHome := by
  cases e with
  | command now cmd =>
      have hknown : ¬ (cmd ≠ "up" ∧ cmd ≠ "down" ∧ cmd ≠ "stop") := by
        rintro ⟨hup, hdown, hstop⟩
        rcases he with h | h | h
        · exact hup h
        · exact hdown h
        · exact hstop h
      dsimp only [step, callback, commandCallback]
      rw [if_neg hknown]
      split_ifs <;> simp [sendVelocity_eq, cancelResume]
  | velocityCmd now rpm =>
      simp [step, callback, velocityCmdCallback, sendVelocity_eq, cancelResume]
  | positionCmd => cases he
  | incPositionCmd => cases he
  | home => cases he
  | reset => cases he
  | poll => cases he

/-- Fresh data without an alarm starts a deferred homing. -/
theorem beforeMotion_of_pending (hfresh : isFresh c now s.rx = true)
    (hbit : alarmBit s.rx.statusByte = false) (hr : s.resumeMode = .manual)
    (hpending : s.pendingHome = true) (hspeed : homingSpeed c ≠ 0) :
    (beforeMotion c now s).mode = .homing := by
  obtain ⟨u, v, w, hbefore, hu, hv, -, -⟩ := pollDecide_stages c now s
  have hquiet : u.alarmActive = false ∧ u.pendingHome = true := by
    cases hu with
    | stale hstale => rw [hfresh] at hstale; cases hstale
    | quiet _ _ hactive => exact ⟨hactive, hpending⟩
    | cleared _ _ _ h =>
        have hclear : (clearAlarm s).resumeMode = .manual := hr
        obtain rfl := h.eq_of_manual hclear
        exact ⟨rfl, hpending⟩
    | raised _ halarm => rw [hbit] at halarm; cases halarm
    | standing _ halarm => rw [hbit] at halarm; cases halarm
  rw [hbefore]
  cases hv with
  | started => rfl
  | idle h =>
      rcases h with h | h | h | h
      · rw [hquiet.2] at h; cases h
      · rw [hfresh] at h; cases h
      · rw [hquiet.1] at h; cases h
      · exact absurd h hspeed

/-- A poll that receives a fresh reply without an alarm. -/
def freshPoll (c : Config) : Event := .poll 0 (c.timeoutSec - 1) [monitorReply 0 0]

/-- An armed deferred homing runs at the next fresh poll. -/
theorem freshPoll_runsHoming (hopen : c.serialOpen = true) (hr : s.resumeMode = .manual)
    (hpending : s.pendingHome = true) (hspeed : homingSpeed c ≠ 0) :
    RunsHoming c s (freshPoll c) := by
  have hrx : (pollReceive c 0 [monitorReply 0 0] s).rx = handleFrame 0 s.rx (monitorReply 0 0) := by
    rw [pollReceive_eq]
    simp [hopen]
  have hmonitor : (monitorReply 0 0).IsMonitor := by decide
  have hdata : (handleFrame 0 s.rx (monitorReply 0 0)).gotData = true ∧
      (handleFrame 0 s.rx (monitorReply 0 0)).lastRx = 0 ∧
      (handleFrame 0 s.rx (monitorReply 0 0)).statusByte = 0 := by
    unfold handleFrame
    rw [if_pos hmonitor]
    exact ⟨rfl, rfl, rfl⟩
  obtain ⟨hgot, hlast, hstatus⟩ := hdata
  apply beforeMotion_of_pending
  · rw [hrx]
    simp [isFresh, hgot, hlast]
  · rw [hrx, hstatus]
    decide
  · rw [pollReceive_eq]
    exact hr
  · rw [pollReceive_eq]
    exact hpending
  · exact hspeed

/-- After a manual command the lift stays still through every sequence of
polls, resets and homing aborts exactly if no deferred start-up homing can
fire: none was pending, or homing has no speed, or the port is closed. -/
theorem manual_stops_iff (c : Config) (es : List Event) (m : Event) (hm : m.IsManual) :
    (∀ qs : List Event, (∀ e ∈ qs, e.IsQuiet) →
        Along (total (step c)) (StaysStill c) (run c (es ++ [m])) qs) ↔
      ((run c es).pendingHome = false ∨ homingSpeed c = 0 ∨ c.serialOpen = false) := by
  have hrun : run c (es ++ [m]) = step c (run c es) m := run_append_singleton c es m
  obtain ⟨hmode, hresume, hpending⟩ := manual_step (c := c) m hm (run c es)
  have hc : Consistent c (step c (run c es) m) := step_consistent (run_consistent c es) m
  rw [hrun]
  constructor
  · intro hstill
    by_contra harmed
    simp only [not_or, Bool.not_eq_false] at harmed
    obtain ⟨harm, hspeed, hopen⟩ := harmed
    have hquiet : ∀ e ∈ [freshPoll c], e.IsQuiet := by
      intro e he
      obtain rfl := List.mem_singleton.mp he
      trivial
    have hpoll := ((along_total_cons _ _ _ _ _).mp (hstill _ hquiet)).1
    apply hpoll.no_homing_run
    exact freshPoll_runsHoming hopen hresume (hpending.trans harm) hspeed
  · intro hstart qs hqs
    have hdisarmed : Disarmed c (step c (run c es) m) := by
      refine ⟨hc, hmode, hresume, ?_⟩
      rw [hpending]
      exact hstart
    have keep : ∀ s e t, Disarmed c s → e.IsQuiet → total (step c) s e = some t →
        Disarmed c t := by
      intro s e t hs he ht
      obtain rfl := Option.some.inj ht
      exact (quiet_disarmed hs e he).1
    apply along_of_invariant keep _ hdisarmed (along_of_forall_mem _ hqs _)
    intro s e t hs he ht
    obtain rfl := Option.some.inj ht
    exact quiet_staysStill hs e he

/-- The defaults with homing at start-up. -/
def autoHomeConfig : Config :=
  Config.ofParameters true { upSpeedRpm := 500, autoHomeOnStart := true }

theorem manual_stops_default :
    Along (total (step defaultConfig)) (StaysStill defaultConfig)
      (run defaultConfig [.home 1 true, .poll 2 2 [monitorReply 90 4], .command 3 "stop"])
      [.poll 4 4 [monitorReply 80 4], .reset 5 true, .poll 6 6 [monitorReply 80 0]] := by
  apply (manual_stops_iff defaultConfig [.home 1 true, .poll 2 2 [monitorReply 90 4]]
    (.command 3 "stop") (.inr (.inr rfl))).mpr
  · exact .inl (by decide +kernel)
  · intro e he
    simp only [List.mem_cons, List.not_mem_nil, or_false] at he
    rcases he with rfl | rfl | rfl <;> trivial

/-- The driver homes at the first reply although it was told to stop. -/
theorem homing_after_stop :
    let s := run autoHomeConfig [.command 1 "stop"]
    let e : Event := .poll 2 2 [monitorReply 90 4]
    e.IsQuiet ∧ (step autoHomeConfig s e).mode = .homing ∧
      TxFrame.velCmd (-500) ∈ (step autoHomeConfig s e).tx ∧
      ¬ Along (total (step autoHomeConfig)) (StaysStill autoHomeConfig) s [e] := by
  intro s e
  have hmode : (step autoHomeConfig s e).mode = .homing := by decide +kernel
  refine ⟨trivial, hmode, by decide +kernel, ?_⟩
  intro h
  exact ((along_total_cons _ _ _ _ _).mp h).1.not_homing hmode

end PolishingRobot.Lift
