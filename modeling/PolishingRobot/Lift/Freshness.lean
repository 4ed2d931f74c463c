import PolishingRobot.Lift.ModeInvariant
import PolishingRobot.Runs.LabelledRuns

/-!
# What the freshness stamp vouches for

One stamp covers three values that arrive in two kinds of frame. The log of
the received frames says which monitor reply the status and input bytes come
from; a position reply renews the stamp without renewing those bytes.
-/

namespace PolishingRobot.Lift

open Runs

variable {c : Config} {now rxNow : Time} {frames : List RxFrame} {s t : State}

/-- The time of the newest accepted frame, and the newest monitor reply. -/
structure FrameLog where
  newest : Option Time := none
  monitor : Option (Time × RxFrame) := none
  deriving DecidableEq, Repr

/-- Log one received frame. -/
def FrameLog.record (rxNow : Time) (log : FrameLog) (f : RxFrame) : FrameLog :=
  if f.IsMonitor then { newest := some rxNow, monitor := some (rxNow, f) }
  else if f.IsPosiData then { log with newest := some rxNow }
  else log

/-- The driver and the log of its frames. -/
structure Observed where
  driver : State
  log : FrameLog := {}
  deriving DecidableEq, Repr

/-- The log after a callback. -/
def FrameLog.after (c : Config) (log : FrameLog) : Event → FrameLog
  | .poll rxNow _ frames => (if c.serialOpen then frames else []).foldl (record rxNow) log
  | _ => log

/-- One callback of the logged driver. -/
def observedStep (c : Config) (o : Observed) (e : Event) : Observed :=
  ⟨step c o.driver e, o.log.after c e⟩

/-- The state that the release stage of a poll finds. -/
def beforeRelease (c : Config) (now : Time) (s : State) : State :=
  updateMotion c now s.rx.position (isFresh c now s.rx) s.rx.diByte (beforeMotion c now s)

/-- What a poll may decide on the status and input bytes of its data. -/
inductive StatusDecision (c : Config) (now : Time) (s : State) : Prop
  /-- The alarm is raised or cleared. -/
  | alarm (h : (updateAlarm c now s.rx.statusByte (isFresh c now s.rx) s.rx.position
      s).alarmActive ≠ s.alarmActive)
  /-- Homing completes by the limit input. -/
  | limit (hmode : (beforeMotion c now s).mode = .homing)
      (htime : ¬ c.homeTimeoutSec < now - (beforeMotion c now s).homeStart)
      (huse : c.useLimitSwitchForHome = true)
      (hlow : atLowerLimit c s.rx.diByte (isFresh c now s.rx) = true)
  /-- A descent is released by the limit input. -/
  | release (hauto : c.autoReleaseOnStop = true) (hmode : (beforeRelease c now s).mode = .manual)
      (hdown : (beforeRelease c now s).lastVelCmd < 0)
      (hlow : atLowerLimit c s.rx.diByte (isFresh c now s.rx) = true)

/-- The status and input bytes were decoded from a monitor reply that is
younger than the timeout. -/
def Vouched (c : Config) (now : Time) (log : FrameLog) (d : RxData) : Prop :=
  ∃ rxTime f, log.monitor = some (rxTime, f) ∧ f.IsMonitor ∧ now - rxTime < c.timeoutSec ∧
    d.statusByte = f.data.getD 6 0 ∧ d.diByte = f.data.getD 11 0

/-- A poll decides on vouched bytes only, and counts no others as fresh. -/
def DecidesVouched (c : Config) (o : Observed) (e : Event) (o' : Observed) : Prop :=
  match e with
  | .poll rxNow now frames =>
      let r := pollReceive c rxNow frames o.driver
      (StatusDecision c now r → Vouched c now o'.log r.rx) ∧
        (isFresh c now r.rx = true → Vouched c now o'.log r.rx)
  | _ => True

/-- At a poll: if the newest accepted frame is younger than the timeout, so is
the newest monitor reply. -/
def MonitorKeepsUp (c : Config) (o : Observed) (e : Event) : Prop :=
  match e with
  | .poll _ now _ =>
      (∃ rxTime, (o.log.after c e).newest = some rxTime ∧ now - rxTime < c.timeoutSec) →
        ∃ rxTime f, (o.log.after c e).monitor = some (rxTime, f) ∧ now - rxTime < c.timeoutSec
  | _ => True

/-- The data members are what the logged frames say. -/
structure Explains (log : FrameLog) (d : RxData) : Prop where
  stamp : ∀ rxTime, log.newest = some rxTime → d.gotData = true ∧ d.lastRx = rxTime
  silent : log.newest = none → d.gotData = false
  bytes : ∀ rxTime f, log.monitor = some (rxTime, f) →
    f.IsMonitor ∧ d.statusByte = f.data.getD 6 0 ∧ d.diByte = f.data.getD 11 0

theorem Explains.handleFrame {log : FrameLog} {d : RxData} (h : Explains log d) (rxNow : Time)
    (f : RxFrame) : Explains (log.record rxNow f) (handleFrame rxNow d f) := by
  unfold FrameLog.record Lift.handleFrame
  by_cases hmonitor : f.IsMonitor
  · simp only [if_pos hmonitor]
    refine ⟨?_, by simp, ?_⟩
    · intro rxTime htime
      exact ⟨rfl, Option.some.inj htime⟩
    · intro rxTime g hg
      obtain ⟨-, rfl⟩ := Prod.mk.inj (Option.some.inj hg)
      exact ⟨hmonitor, rfl, rfl⟩
  · by_cases hposi : f.IsPosiData
    · simp only [if_neg hmonitor, if_pos hposi]
      refine ⟨?_, by simp, h.bytes⟩
      intro rxTime htime
      exact ⟨rfl, Option.some.inj htime⟩
    · simpa only [if_neg hmonitor, if_neg hposi] using h

theorem Explains.foldl {log : FrameLog} {d : RxData} (h : Explains log d) (rxNow : Time)
    (frames : List RxFrame) :
    Explains (frames.foldl (FrameLog.record rxNow) log)
      (frames.foldl (Lift.handleFrame rxNow) d) := by
  induction frames generalizing log d with
  | nil => exact h
  | cons f frames ih => exact ih (h.handleFrame rxNow f)

/-- The stamp is fresh exactly if the newest accepted frame is young. -/
theorem Explains.fresh_iff {log : FrameLog} {d : RxData} (h : Explains log d) :
    isFresh c now d = true ↔
      ∃ rxTime, log.newest = some rxTime ∧ now - rxTime < c.timeoutSec := by
  cases hnew : log.newest with
  | none =>
      have hgot := h.silent hnew
      simp [isFresh, hgot]
  | some rxTime =>
      obtain ⟨hgot, hlast⟩ := h.stamp rxTime hnew
      simp [isFresh, hgot, hlast]

/-- The bytes are vouched for exactly if the newest monitor reply is young. -/
theorem Explains.vouched_iff {log : FrameLog} {d : RxData} (h : Explains log d) :
    Vouched c now log d ↔
      ∃ rxTime f, log.monitor = some (rxTime, f) ∧ now - rxTime < c.timeoutSec := by
  constructor
  · rintro ⟨rxTime, f, hlog, -, hyoung, -⟩
    exact ⟨rxTime, f, hlog, hyoung⟩
  · rintro ⟨rxTime, f, hlog, hyoung⟩
    obtain ⟨hmonitor, hstatus, hdi⟩ := h.bytes rxTime f hlog
    exact ⟨rxTime, f, hlog, hmonitor, hyoung, hstatus, hdi⟩

theorem AlarmStep.fresh_of_change {st : UInt8} {fresh : Bool} {pos : Int32}
    (h : AlarmStep c now st fresh pos s t) (hchange : t.alarmActive ≠ s.alarmActive) :
    fresh = true := by
  cases h with
  | stale => exact absurd rfl hchange
  | quiet hfresh => exact hfresh
  | cleared hfresh => exact hfresh
  | raised hfresh => exact hfresh
  | standing hfresh => exact hfresh

/-- No decision is made on data that is not fresh. -/
theorem StatusDecision.fresh (h : StatusDecision c now s) : isFresh c now s.rx = true := by
  cases h with
  | alarm hchange => exact (updateAlarm_step c now _ _ _ s).fresh_of_change hchange
  | limit _ _ _ hlow =>
      simp only [atLowerLimit, Bool.and_eq_true] at hlow
      exact hlow.1
  | release _ _ _ hlow =>
      simp only [atLowerLimit, Bool.and_eq_true] at hlow
      exact hlow.1

theorem pollReceive_explains {log : FrameLog} (h : Explains log s.rx) (rxNow now : Time)
    (frames : List RxFrame) :
    Explains (log.after c (.poll rxNow now frames)) (pollReceive c rxNow frames s).rx := by
  rw [pollReceive_eq]
  exact h.foldl rxNow _

/-- Every callback keeps the log and the received data together. -/
theorem observedStep_explains {o : Observed} (h : Explains o.log o.driver.rx) (e : Event) :
    Explains (observedStep c o e).log (observedStep c o e).driver.rx := by
  cases e with
  | poll rxNow now frames =>
      have hrx : (step c o.driver (.poll rxNow now frames)).rx =
          (pollReceive c rxNow frames { o.driver with tx := [] }).rx := pollDecide_rx c now _
      have hr : Explains o.log ({ o.driver with tx := [] } : State).rx := h
      have hafter := pollReceive_explains (c := c) hr rxNow now frames
      rw [← hrx] at hafter
      exact hafter
  | _ =>
      dsimp only [observedStep, step, FrameLog.after]
      rw [callback_rx c _ _ (by simp)]
      exact h

/-- A callback decides on vouched bytes only exactly if the monitor replies
keep up with the stamp. -/
theorem decidesVouched_iff {o : Observed} (h : Explains o.log o.driver.rx) (e : Event) :
    DecidesVouched c o e (observedStep c o e) ↔ MonitorKeepsUp c o e := by
  cases e with
  | poll rxNow now frames =>
      have hr := pollReceive_explains (c := c) h rxNow now frames
      have hvouched : Vouched c now _ _ ↔ _ := hr.vouched_iff
      have hfresh : isFresh c now _ = true ↔ _ := hr.fresh_iff
      constructor
      · rintro ⟨-, hgood⟩ hnewest
        exact hvouched.mp (hgood (hfresh.mpr hnewest))
      · intro hkeeps
        have hgood : isFresh c now (pollReceive c rxNow frames o.driver).rx = true →
            Vouched c now (o.log.after c (.poll rxNow now frames))
              (pollReceive c rxNow frames o.driver).rx := by
          intro hnew
          exact hvouched.mpr (hkeeps (hfresh.mp hnew))
        exact ⟨fun hdecides => hgood hdecides.fresh, hgood⟩
  | _ => exact Iff.rfl

/-- Along a run every decision on the status and input bytes, and every count
of them as fresh, rests on a monitor reply younger than the timeout exactly if
at every poll with a young accepted frame the newest monitor reply is young. -/
theorem vouched_decisions_iff (c : Config) (es : List Event) :
    Along (total (observedStep c)) (DecidesVouched c) ⟨start c, {}⟩ es ↔
      Along (total (observedStep c)) (fun o e _ => MonitorKeepsUp c o e) ⟨start c, {}⟩ es := by
  have keep : ∀ o e o', Explains o.log o.driver.rx → total (observedStep c) o e = some o' →
      Explains o'.log o'.driver.rx := by
    intro o e o' h ho
    obtain rfl := Option.some.inj ho
    exact observedStep_explains h e
  have hstart : Explains ({} : FrameLog) (start c).rx := by
    have hrx : (start c).rx = {} := by
      unfold start
      dsimp only
      split <;> rfl
    rw [hrx]
    exact ⟨by simp, by simp, by simp⟩
  apply along_iff_of_invariant keep _ hstart
  intro o e o' h ho
  obtain rfl := Option.some.inj ho
  exact decidesVouched_iff h e

/-- A homing request and a poll that only a position reply answers. -/
def unwatchedHoming : List Event :=
  [.home 1 true, .poll 2 2 [⟨pidPosiData, [90, 0, 0, 0]⟩]]

/-- The initial input byte reads as "limit reached" and completes homing,
although no monitor reply has ever been received. -/
theorem homed_on_unreceived_input :
    let o := observedStep defaultConfig ⟨start defaultConfig, {}⟩ (.home 1 true)
    StatusDecision defaultConfig 2
        (pollReceive defaultConfig 2 [⟨pidPosiData, [90, 0, 0, 0]⟩] o.driver) ∧
      (run defaultConfig unwatchedHoming).homed = true ∧
      ¬ Along (total (observedStep defaultConfig)) (DecidesVouched defaultConfig)
        ⟨start defaultConfig, {}⟩ unwatchedHoming := by
  intro o
  have hlimit : StatusDecision defaultConfig 2
      (pollReceive defaultConfig 2 [⟨pidPosiData, [90, 0, 0, 0]⟩] o.driver) := by
    apply StatusDecision.limit <;> decide +kernel
  refine ⟨hlimit, by decide +kernel, ?_⟩
  intro h
  obtain ⟨-, hpoll⟩ := (along_total_cons _ _ _ _ _).mp h
  obtain ⟨rxTime, f, hlog, -⟩ := ((along_total_cons _ _ _ _ _).mp hpoll).1.1 hlimit
  cases hlog

end PolishingRobot.Lift
