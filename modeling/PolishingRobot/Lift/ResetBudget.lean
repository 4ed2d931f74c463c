import PolishingRobot.Lift.ModeInvariant
import PolishingRobot.Runs.LabelledRuns

/-!
# The budget of alarm resets

The attempt counter, the exhausted flag and the time of the last reset are set
and cleared by the edges of the alarm, by the polls and by `/lift/reset`. The
record beside the state counts the frames since the budget was armed.
-/

namespace PolishingRobot.Lift

open Runs

variable {c : Config} {now rxNow : Time} {pos : Int32} {fresh : Bool} {di st : UInt8}
  {s t : State} {rpm : Int16} {f : TxFrame}

/-- How many reset frames the callback wrote. -/
def State.resetsSent (s : State) : Nat := s.tx.count .alarmReset

/-- The members that the resets depend on, and the reset frames of the current
callback. -/
structure AlarmView where
  active : Bool
  attempts : Nat
  exhausted : Bool
  last : Time
  sent : Nat

def State.alarmView (s : State) : AlarmView :=
  ⟨s.alarmActive, s.alarmResetAttempts, s.alarmResetExhausted, s.lastAlarmReset, s.resetsSent⟩

/-- Since the budget was armed: the reset frames, the automatic ones among
them, and whether the driver has given up. During an alarm also the time of
its newest reset frame. -/
structure ResetLog where
  resets : Nat := 0
  autos : Nat := 0
  gaveUp : Bool := false
  previous : Option Time := none
  deriving DecidableEq, Repr

/-- The record after a callback that leaves the members `v`. -/
def ResetLog.note (armed manual wasActive : Bool) (now : Time) (v : AlarmView) (log : ResetLog) :
    ResetLog :=
  { resets := (if armed then 0 else log.resets) + v.sent
    autos := (if armed then 0 else log.autos) + if manual then 0 else v.sent
    gaveUp := (!armed && log.gaveUp) || v.exhausted
    previous :=
      if v.active then
        if v.sent ≠ 0 then some now else if wasActive then log.previous else none
      else none }

/-- The callback arms the budget: a rising edge of the alarm, or `/lift/reset`. -/
def arms (s t : State) : Event → Bool
  | .reset _ on => on
  | .poll _ _ _ => !s.alarmActive && t.alarmActive
  | _ => false

/-- The callback answers `/lift/reset`. All other reset frames are automatic. -/
def Event.isReset : Event → Bool
  | .reset _ _ => true
  | _ => false

def ResetLog.after (c : Config) (s : State) (e : Event) (log : ResetLog) : ResetLog :=
  log.note (arms s (step c s e) e) e.isReset s.alarmActive e.time (step c s e).alarmView

/-- The driver and the record. -/
def resetStep (c : Config) : State × ResetLog → Event → Option (State × ResetLog) :=
  observe (total (step c)) (ResetLog.after c)

theorem resetStep_eq (sl : State × ResetLog) (e : Event) :
    resetStep c sl e = some (step c sl.1 e, sl.2.after c sl.1 e) := rfl

/-- An automatic reset frame goes out in a poll, for an alarm bit in fresh
data, and not after giving up. -/
structure AutoResetAllowed (c : Config) (sl : State × ResetLog) (e : Event) (t : State) :
    Prop where
  poll : ∃ rxNow now frames, e = .poll rxNow now frames ∧
    isFresh c now (polled c rxNow frames sl.1).rx = true ∧
    alarmBit (polled c rxNow frames sl.1).rx.statusByte = true
  left : sl.2.gaveUp = true → arms sl.1 t e = true

/-- The budget is kept by a callback. -/
structure KeepsBudget (c : Config) (sl : State × ResetLog) (e : Event) (sl' : State × ResetLog) :
    Prop where
  attempts : sl'.1.alarmResetAttempts ≤ c.alarmResetMaxAttempts
  resets : sl'.2.resets ≤ c.alarmResetMaxAttempts
  autos : sl'.2.autos ≤ c.alarmResetMaxAttempts
  automatic : e.isReset = false → .alarmReset ∈ sl'.1.tx → AutoResetAllowed c sl e sl'.1

/-- An automatic reset frame goes out the interval after the previous reset
frame of the same alarm, or later. -/
def KeepsInterval (c : Config) (sl : State × ResetLog) (e : Event) (sl' : State × ResetLog) :
    Prop :=
  e.isReset = false → .alarmReset ∈ sl'.1.tx →
    ∀ u, sl.2.previous = some u → c.alarmResetIntervalSec ≤ e.time - u

theorem resetsSent_sent (h : t.tx = s.tx ++ sent c f) (hf : f ≠ .alarmReset) :
    t.resetsSent = s.resetsSent := by
  rw [State.resetsSent, h, List.count_append, sent]
  split
  · rw [List.count_singleton, if_neg (by simpa using hf)]
    rfl
  · rfl

theorem alarmView_congr (halarm : t.alarmActive = s.alarmActive)
    (hattempts : t.alarmResetAttempts = s.alarmResetAttempts)
    (hexhausted : t.alarmResetExhausted = s.alarmResetExhausted)
    (hlast : t.lastAlarmReset = s.lastAlarmReset) (hsent : t.resetsSent = s.resetsSent) :
    t.alarmView = s.alarmView := by
  rw [State.alarmView, State.alarmView, halarm, hattempts, hexhausted, hlast, hsent]

theorem sendFrame_alarmView (f : TxFrame) (s : State) (hf : f ≠ .alarmReset) :
    (sendFrame c f s).alarmView = s.alarmView :=
  alarmView_congr rfl rfl rfl rfl (resetsSent_sent (sendFrame_tx c f s) hf)

@[simp] theorem sendVelocity_alarmView (c : Config) (now : Time) (rpm : Int16) (s : State) :
    (sendVelocity c now rpm s).alarmView = s.alarmView := by
  have hsent : (sendVelocity c now rpm s).resetsSent = s.resetsSent :=
    resetsSent_sent (sendVelocity_tx c now rpm s) (by simp)
  rw [State.alarmView, hsent, sendVelocity_eq]
  rfl

theorem finishHoming_alarmView (now : Time) (s : State) :
    (finishHoming c now s).alarmView = s.alarmView := by
  unfold finishHoming
  dsimp only
  have hreset : (sendPositionReset c (sendVelocity c now 0 s)).alarmView = s.alarmView :=
    (sendFrame_alarmView .posiReset _ (by simp)).trans (sendVelocity_alarmView c now 0 s)
  split
  · exact (sendFrame_alarmView (.tarPosiVel _) _ (by simp)).trans hreset
  · exact hreset

theorem AutoHomeStep.alarmView_eq (h : AutoHomeStep c now fresh s t) :
    t.alarmView = s.alarmView := by
  cases h with
  | idle => rfl
  | started => rfl

theorem MotionStep.alarmView_eq (h : MotionStep c now pos fresh di s t) :
    t.alarmView = s.alarmView := by
  cases h with
  | idle => rfl
  | reached => rfl
  | homing _ h =>
      have hsend := sendVelocity_alarmView c now s.homeDirSpeed s
      cases h with
      | timeout => exact sendVelocity_alarmView c now 0 s
      | limit => exact finishHoming_alarmView now s
      | unheard => exact hsend
      | moving => exact hsend
      | stalled => exact (finishHoming_alarmView now _).trans hsend
      | waiting => exact hsend

theorem ReleaseStep.alarmView_eq (h : ReleaseStep c now pos fresh di s t) :
    t.alarmView = s.alarmView := by
  cases h with
  | idle => rfl
  | watch => rfl
  | release => exact sendVelocity_alarmView c now 0 s

theorem ResumeStep.alarmView_eq (h : ResumeStep c now pos s t) : t.alarmView = s.alarmView := by
  cases h with
  | nothing => rfl
  | givenUp => rfl
  | homing => rfl
  | absolute => exact alarmView_congr rfl rfl rfl rfl (resetsSent_sent rfl (by simp))
  | relative => exact alarmView_congr rfl rfl rfl rfl (resetsSent_sent rfl (by simp))

theorem commandCallback_alarmView (now : Time) (cmd : String) (s : State) :
    (commandCallback c now cmd s).alarmView = s.alarmView := by
  unfold commandCallback
  split
  · rfl
  dsimp only
  split
  · exact sendVelocity_alarmView ..
  split
  · exact sendVelocity_alarmView ..
  · exact sendVelocity_alarmView ..

theorem positionCmdCallback_alarmView (target : Int32) (s : State) :
    (positionCmdCallback c target s).alarmView = s.alarmView := by
  unfold positionCmdCallback
  split
  · rfl
  split
  · rfl
  · exact sendFrame_alarmView (.posiCmd target) _ (by simp)

theorem incPositionCmdCallback_alarmView (inc : Int32) (s : State) :
    (incPositionCmdCallback c inc s).alarmView = s.alarmView := by
  unfold incPositionCmdCallback
  split
  · rfl
  · exact sendFrame_alarmView (.incPosiCmd inc) _ (by simp)

theorem homeCallback_alarmView (now : Time) (start : Bool) (s : State) :
    (homeCallback c now start s).alarmView = s.alarmView := by
  cases start with
  | true =>
      rw [homeCallback_true]
      split <;> rfl
  | false =>
      simp only [homeCallback, Bool.false_eq_true, not_false_eq_true, if_true]
      split
      · exact sendVelocity_alarmView ..
      · rfl

/-- Only polls and `/lift/reset` touch the budget. -/
theorem step_alarmView (s : State) {e : Event} (hreset : e.isReset = false)
    (hpoll : ∀ rxNow now frames, e ≠ .poll rxNow now frames) :
    (step c s e).alarmView = ({ s with tx := [] } : State).alarmView := by
  unfold step
  cases e with
  | command now cmd => exact commandCallback_alarmView ..
  | velocityCmd now rpm => exact sendVelocity_alarmView ..
  | positionCmd now target =>
      dsimp only [callback]
      split
      · exact positionCmdCallback_alarmView ..
      · rfl
  | incPositionCmd now inc =>
      dsimp only [callback]
      split
      · exact incPositionCmdCallback_alarmView ..
      · rfl
  | home now start =>
      dsimp only [callback]
      split
      · exact homeCallback_alarmView ..
      · rfl
  | reset now on => cases hreset
  | poll rxNow now frames => exact absurd rfl (hpoll rxNow now frames)

/-- The frames that one reset puts on the line. -/
def perReset (c : Config) : Nat := if c.serialOpen then 1 else 0

theorem AlarmResetStep.alarmView_eq {manual : Bool} (h : AlarmResetStep c now manual s t) :
    (manual = false ∧ c.alarmResetMaxAttempts ≤ s.alarmResetAttempts ∧
        t.alarmView = { s.alarmView with exhausted := true }) ∨
      ((manual = false → 0 < c.alarmResetMaxAttempts →
          s.alarmResetAttempts < c.alarmResetMaxAttempts) ∧
        t.alarmView =
          { s.alarmView with
            attempts := s.alarmResetAttempts + 1
            last := now
            sent := s.resetsSent + perReset c }) := by
  cases h with
  | exhausted hauto _ hle => exact .inl ⟨hauto, hle, rfl⟩
  | sent hauto =>
      refine .inr ⟨hauto, ?_⟩
      have hstop := sendVelocity_alarmView c now 0 s
      have hsent : (sendAlarmReset c (sendVelocity c now 0 s)).resetsSent =
          (sendVelocity c now 0 s).resetsSent + perReset c := by
        rw [State.resetsSent, sendAlarmReset, sendFrame_tx, List.count_append]
        congr 1
        rw [PolishingRobot.Lift.sent, perReset]
        split <;> rfl
      rw [State.alarmView] at hstop ⊢
      obtain ⟨hactive, -, hexhausted, -, hcount⟩ := AlarmView.mk.inj hstop
      rw [hcount] at hsent
      simp only [State.alarmView, AlarmView.mk.injEq]
      exact ⟨hactive, trivial, hexhausted, trivial, hsent⟩

/-- What a poll can do to the budget. `seen` says that it sees the alarm bit in
fresh data. -/
inductive PollBudget (c : Config) (now : Time) (seen : Prop) (v : AlarmView) : AlarmView → Prop
  | same : PollBudget c now seen v v
  | cleared (hactive : v.active = true) :
      PollBudget c now seen v { v with active := false, attempts := 0, exhausted := false }
  | raised (hactive : v.active = false) :
      PollBudget c now seen v
        { v with active := true, attempts := 0, exhausted := false, last := 0 }
  | raisedSent (hseen : seen) (hactive : v.active = false) :
      PollBudget c now seen v
        { active := true, attempts := 1, exhausted := false, last := now
          sent := v.sent + perReset c }
  | gaveUp (hactive : v.active = true) :
      PollBudget c now seen v { v with exhausted := true }
  | retried (hseen : seen) (hactive : v.active = true) (hexhausted : v.exhausted = false)
      (htime : v.last = 0 ∨ c.alarmResetIntervalSec ≤ now - v.last)
      (hleft : 0 < c.alarmResetMaxAttempts → v.attempts < c.alarmResetMaxAttempts) :
      PollBudget c now seen v
        { v with attempts := v.attempts + 1, last := now, sent := v.sent + perReset c }

theorem raiseAlarm_alarmView (now : Time) (s : State) :
    (raiseAlarm c now s).alarmView =
      { s.alarmView with active := true, attempts := 0, exhausted := false, last := 0 } := by
  have hstop := sendVelocity_alarmView c now 0 s
  rw [State.alarmView] at hstop ⊢
  obtain ⟨-, -, -, -, hcount⟩ := AlarmView.mk.inj hstop
  rw [raiseAlarm_eq]
  simp only [State.alarmView, AlarmView.mk.injEq]
  exact ⟨trivial, trivial, trivial, trivial, hcount⟩

theorem AlarmStep.budget (h : AlarmStep c now st fresh pos s t)
    (hmax : 0 < c.alarmResetMaxAttempts) :
    PollBudget c now (fresh = true ∧ alarmBit st = true) s.alarmView t.alarmView := by
  cases h with
  | stale => exact .same
  | quiet => exact .same
  | cleared _ _ hactive h =>
      rw [h.alarmView_eq]
      exact .cleared hactive
  | raised hfresh hbit hactive h =>
      cases h with
      | idle =>
          rw [raiseAlarm_alarmView]
          exact .raised hactive
      | retry _ _ _ _ h =>
          have hraised := raiseAlarm_alarmView (c := c) now s
          have hattempts : (raiseAlarm c now s).alarmResetAttempts = 0 :=
            congrArg AlarmView.attempts hraised
          have hcount : (raiseAlarm c now s).resetsSent = s.resetsSent :=
            congrArg AlarmView.sent hraised
          rcases h.alarmView_eq with ⟨-, hle, -⟩ | ⟨-, hview⟩
          · omega
          · rw [hview, hraised, hattempts, hcount]
            exact .raisedSent ⟨hfresh, hbit⟩ hactive
  | standing hfresh hbit hactive h =>
      cases h with
      | idle => exact .same
      | retry _ _ hleft htime h =>
          rcases h.alarmView_eq with ⟨-, -, hview⟩ | ⟨hauto, hview⟩
          · rw [hview]
            exact .gaveUp hactive
          · rw [hview]
            exact .retried ⟨hfresh, hbit⟩ hactive hleft htime (hauto rfl)

theorem polled_alarmView (c : Config) (rxNow : Time) (frames : List RxFrame) (s : State) :
    (polled c rxNow frames s).alarmView = ({ s with tx := [] } : State).alarmView := by
  have hsent : (polled c rxNow frames s).resetsSent = ({ s with tx := [] } : State).resetsSent := by
    have htx : (polled c rxNow frames s).tx =
        ({ s with tx := [] } : State).tx ++ sent c (.reqPidData pidMonitor) := by
      rw [polled, pollReceive_eq]
    exact resetsSent_sent htx (by simp)
  rw [State.alarmView, hsent, polled, pollReceive_eq]
  rfl

theorem poll_resetBudget (hmax : 0 < c.alarmResetMaxAttempts) (rxNow now : Time)
    (frames : List RxFrame) (s : State) :
    PollBudget c now
      (isFresh c now (polled c rxNow frames s).rx = true ∧
        alarmBit (polled c rxNow frames s).rx.statusByte = true)
      ({ s with tx := [] } : State).alarmView
      (step c s (.poll rxNow now frames)).alarmView := by
  obtain ⟨u, v, w, -, halarm, hhome, hmotion, hrelease⟩ :=
    pollDecide_stages c now (polled c rxNow frames s)
  have hview : (step c s (.poll rxNow now frames)).alarmView = u.alarmView :=
    (hrelease.alarmView_eq.trans hmotion.alarmView_eq).trans hhome.alarmView_eq
  rw [hview, ← polled_alarmView c rxNow frames s]
  exact halarm.budget hmax

/-- `/lift/reset` gives one reset of its own, and during an alarm counts it. -/
theorem reset_alarmView (now : Time) (s : State) :
    (step c s (.reset now true)).alarmView =
      { active := s.alarmActive
        attempts := if s.alarmActive then 1 else 0
        exhausted := false
        last := now
        sent := perReset c } := by
  have hmanual := requestAlarmReset_step c now true
    { s with tx := [], alarmResetAttempts := 0, alarmResetExhausted := false, resumeCycles := 0 }
  cases hactive : s.alarmActive with
  | true =>
      have hstep : step c s (.reset now true) = requestAlarmReset c now true
          { s with
            tx := [], alarmResetAttempts := 0, alarmResetExhausted := false, resumeCycles := 0 } := by
        simp [step, callback, resetCallback, hactive]
      rw [hstep]
      rcases hmanual.alarmView_eq with ⟨hauto, -, -⟩ | ⟨-, hview⟩
      · cases hauto
      · rw [hview]
        simp [State.alarmView, hactive, State.resetsSent]
  | false =>
      have hstep : step c s (.reset now true) = { sendAlarmReset c
          { s with
            tx := [], alarmResetAttempts := 0, alarmResetExhausted := false, resumeCycles := 0 } with
          lastAlarmReset := now } := by
        simp [step, callback, resetCallback, hactive]
      rw [hstep]
      simp only [State.alarmView, State.resetsSent, sendAlarmReset, sendFrame_tx]
      simp only [sendFrame, hactive, perReset, sent]
      split <;> simp

/-- What the record and the members say about each other. -/
structure Budgeted (c : Config) (v : AlarmView) (log : ResetLog) : Prop where
  attempts : v.attempts ≤ c.alarmResetMaxAttempts
  resets : log.resets ≤ c.alarmResetMaxAttempts
  autos : log.autos ≤ c.alarmResetMaxAttempts
  spent : v.active = true → log.resets ≤ v.attempts ∧ log.autos ≤ v.attempts
  gaveUp : log.gaveUp = true → v.active = true → v.exhausted = true
  previous : ∀ u, log.previous = some u → v.active = true ∧ v.last = u
  closed : c.serialOpen = false → log.previous = none

section Keep

variable {v v' : AlarmView} {log : ResetLog} {seen : Prop}

theorem perReset_le (c : Config) : perReset c ≤ 1 := by
  unfold perReset
  split <;> omega

theorem perReset_eq_zero : perReset c = 0 ↔ c.serialOpen = false := by
  simp [perReset]

/-- The newest reset frame of the alarm is one of the callback, or it was the
newest before. -/
theorem previous_note {armed manual wasActive : Bool} {u : Time}
    (h : (log.note armed manual wasActive now v).previous = some u) :
    v.active = true ∧
      ((v.sent ≠ 0 ∧ u = now) ∨ (v.sent = 0 ∧ wasActive = true ∧ log.previous = some u)) := by
  simp only [ResetLog.note] at h
  split at h
  · refine ⟨‹_›, ?_⟩
    split at h
    · exact .inl ⟨‹_›, (Option.some.inj h).symm⟩
    · rename_i hsent
      split at h
      · exact .inr ⟨not_not.mp hsent, ‹_›, h⟩
      · cases h
  · cases h

/-- Through a closed port no reset frame is written. -/
theorem Budgeted.note_closed (hs : Budgeted c v log) (hsent : v'.sent = perReset c)
    (armed manual wasActive : Bool) (hopen : c.serialOpen = false) :
    (log.note armed manual wasActive now v').previous = none := by
  simp [ResetLog.note, hsent, perReset_eq_zero.mpr hopen, hs.closed hopen]

/-- A callback that has written a reset frame has it as the newest one. -/
theorem Budgeted.note_previous (hs : Budgeted c v log) (hsent : v'.sent = perReset c)
    {armed manual wasActive : Bool} {u : Time}
    (hu : (log.note armed manual wasActive now v').previous = some u) :
    v'.active = true ∧ now = u := by
  obtain ⟨hactive, ⟨-, rfl⟩ | ⟨hnone, -, hold⟩⟩ := previous_note hu
  · exact ⟨hactive, rfl⟩
  · rw [hs.closed (perReset_eq_zero.mp (hsent.symm.trans hnone))] at hold
    cases hold

/-- A callback that writes no reset frame and changes none of the members. -/
theorem Budgeted.quiet (hs : Budgeted c v log) (hsent : v.sent = 0) (manual : Bool) :
    Budgeted c v (log.note false manual v.active now v) := by
  refine ⟨hs.attempts, ?_, ?_, ?_, ?_, ?_, ?_⟩
  · simpa [ResetLog.note, hsent] using hs.resets
  · simpa [ResetLog.note, hsent] using hs.autos
  · simpa [ResetLog.note, hsent] using hs.spent
  · intro hgave hactive
    simp only [ResetLog.note, Bool.not_false, Bool.true_and, Bool.or_eq_true] at hgave
    exact hgave.elim (fun h => hs.gaveUp h hactive) id
  · intro u hu
    obtain ⟨-, ⟨hwrote, -⟩ | ⟨-, -, hold⟩⟩ := previous_note hu
    · exact absurd hsent hwrote
    · exact hs.previous u hold
  · intro hopen
    simp [ResetLog.note, hsent, hs.closed hopen]

/-- The alarm arms the budget and spends the first reset of it. -/
theorem Budgeted.raised (hs : Budgeted c v log) (hmax : 0 < c.alarmResetMaxAttempts)
    (hv : v' = ⟨true, 1, false, now, perReset c⟩) :
    Budgeted c v' (log.note true false false now v') := by
  have hper := perReset_le c
  have hsent : v'.sent = perReset c := by rw [hv]
  have hresets : (log.note true false false now v').resets = perReset c := by
    simp [ResetLog.note, hsent]
  have hautos : (log.note true false false now v').autos = perReset c := by
    simp [ResetLog.note, hsent]
  refine ⟨?_, ?_, ?_, ?_, ?_, ?_, ?_⟩
  · rw [hv]
    exact hmax
  · omega
  · omega
  · intro _
    rw [hresets, hautos, hv]
    exact ⟨hper, hper⟩
  · simp [ResetLog.note, hv]
  · intro u hu
    obtain ⟨hactive, rfl⟩ := hs.note_previous hsent hu
    rw [hv]
    exact ⟨rfl, rfl⟩
  · exact hs.note_closed hsent true false false

/-- A retry of a standing alarm spends one more. -/
theorem Budgeted.retried (hs : Budgeted c v log) (hactive : v.active = true)
    (hexhausted : v.exhausted = false) (hleft : v.attempts < c.alarmResetMaxAttempts)
    (hv : v' = { v with attempts := v.attempts + 1, last := now, sent := perReset c }) :
    Budgeted c v' (log.note false false true now v') := by
  have hper := perReset_le c
  have hspent := hs.spent hactive
  have hsent : v'.sent = perReset c := by rw [hv]
  have hresets : (log.note false false true now v').resets = log.resets + perReset c := by
    simp [ResetLog.note, hsent]
  have hautos : (log.note false false true now v').autos = log.autos + perReset c := by
    simp [ResetLog.note, hsent]
  refine ⟨?_, ?_, ?_, ?_, ?_, ?_, ?_⟩
  · rw [hv]
    exact hleft
  · omega
  · omega
  · intro _
    rw [hresets, hautos, hv]
    dsimp only
    omega
  · intro hgave _
    have hbefore : log.gaveUp = true := by simpa [ResetLog.note, hv, hexhausted] using hgave
    rw [hs.gaveUp hbefore hactive] at hexhausted
    cases hexhausted
  · intro u hu
    obtain ⟨-, rfl⟩ := hs.note_previous hsent hu
    rw [hv]
    exact ⟨hactive, rfl⟩
  · exact hs.note_closed hsent false false true

/-- A poll keeps the budget. -/
theorem PollBudget.keep (h : PollBudget c now seen v v') (hs : Budgeted c v log)
    (hsent : v.sent = 0) (hmax : 0 < c.alarmResetMaxAttempts) :
    Budgeted c v' (log.note (!v.active && v'.active) false v.active now v') := by
  cases h with
  | same =>
      rw [Bool.not_and_self]
      exact hs.quiet hsent false
  | cleared hactive =>
      refine ⟨Nat.zero_le _, ?_, ?_, by simp, by simp, by simp [ResetLog.note],
        by simp [ResetLog.note]⟩
      · simpa [ResetLog.note, hsent] using hs.resets
      · simpa [ResetLog.note, hsent] using hs.autos
  | raised hactive =>
      refine ⟨Nat.zero_le _, ?_, ?_, ?_, ?_, ?_, ?_⟩ <;> simp [ResetLog.note, hactive, hsent]
  | raisedSent _ hactive =>
      rw [hactive]
      exact hs.raised hmax (by rw [hsent, Nat.zero_add])
  | gaveUp hactive =>
      refine ⟨hs.attempts, ?_, ?_, ?_, fun _ _ => rfl, ?_, ?_⟩
      · simpa [ResetLog.note, hsent] using hs.resets
      · simpa [ResetLog.note, hsent] using hs.autos
      · simpa [ResetLog.note, hsent] using hs.spent
      · intro u hu
        obtain ⟨-, ⟨hwrote, -⟩ | ⟨-, -, hold⟩⟩ := previous_note hu
        · exact absurd hsent hwrote
        · exact hs.previous u hold
      · intro hopen
        simp [ResetLog.note, hsent, hs.closed hopen]
  | retried _ hactive hexhausted htime hleft =>
      rw [Bool.not_and_self, hactive]
      exact hs.retried hactive hexhausted (hleft hmax) (by rw [hsent, Nat.zero_add, hactive])

/-- A poll that writes a reset frame is allowed to. -/
theorem PollBudget.allowed (h : PollBudget c now seen v v') (hs : Budgeted c v log)
    (hsent : v.sent = 0) (hwrote : v'.sent ≠ 0) :
    seen ∧ (∀ u, log.previous = some u → u ≠ 0 → c.alarmResetIntervalSec ≤ now - u) ∧
      (log.gaveUp = true → (!v.active && v'.active) = true) := by
  cases h with
  | same => exact absurd hsent hwrote
  | cleared => exact absurd hsent hwrote
  | raised => exact absurd hsent hwrote
  | gaveUp => exact absurd hsent hwrote
  | raisedSent hseen hactive =>
      refine ⟨hseen, ?_, fun _ => by simp [hactive]⟩
      intro u hu
      rw [(hs.previous u hu).1] at hactive
      cases hactive
  | retried hseen hactive hexhausted htime =>
      refine ⟨hseen, ?_, ?_⟩
      · intro u hu hne
        obtain ⟨-, rfl⟩ := hs.previous u hu
        exact htime.resolve_left hne
      · intro hgave
        rw [hs.gaveUp hgave hactive] at hexhausted
        cases hexhausted

/-- `/lift/reset` arms the budget and spends one reset of it. -/
theorem Budgeted.reset (hs : Budgeted c v log) (hmax : 0 < c.alarmResetMaxAttempts)
    (hv : v' = ⟨v.active, if v.active then 1 else 0, false, now, perReset c⟩) :
    Budgeted c v' (log.note true true v.active now v') := by
  have hper := perReset_le c
  have hsent : v'.sent = perReset c := by rw [hv]
  refine ⟨?_, ?_, ?_, ?_, ?_, ?_, ?_⟩
  · rw [hv]
    dsimp only
    split <;> omega
  · simp only [ResetLog.note, hsent, if_true]
    omega
  · simp [ResetLog.note]
  · intro hactive
    rw [hv] at hactive ⊢
    dsimp only at hactive
    simpa [ResetLog.note, hactive] using hper
  · simp [ResetLog.note, hv]
  · intro u hu
    obtain ⟨hactive, rfl⟩ := hs.note_previous hsent hu
    rw [hv] at hactive ⊢
    exact ⟨hactive, rfl⟩
  · exact hs.note_closed hsent true true v.active

end Keep

/-- The invariant between callbacks. -/
def BudgetHeld (c : Config) (sl : State × ResetLog) : Prop :=
  Budgeted c { sl.1.alarmView with sent := 0 } sl.2

theorem mem_tx_iff : .alarmReset ∈ s.tx ↔ s.resetsSent ≠ 0 := by
  rw [State.resetsSent, ne_eq, List.count_eq_zero, not_not]

variable {sl sl' : State × ResetLog} {e : Event}

/-- Every callback keeps the budget. -/
theorem resetStep_budget (hmax : 0 < c.alarmResetMaxAttempts) (hs : BudgetHeld c sl)
    (hstep : resetStep c sl e = some sl') :
    Budgeted c sl'.1.alarmView sl'.2 ∧
      (e.isReset = false → .alarmReset ∈ sl'.1.tx → AutoResetAllowed c sl e sl'.1 ∧
        ∀ u, sl.2.previous = some u → u ≠ 0 → c.alarmResetIntervalSec ≤ e.time - u) := by
  obtain ⟨s, log⟩ := sl
  rw [resetStep_eq] at hstep
  obtain rfl := Option.some.inj hstep
  have hs : Budgeted c ({ s with tx := [] } : State).alarmView log := hs
  have hquiet : (step c s e).alarmView = ({ s with tx := [] } : State).alarmView →
      arms s (step c s e) e = false →
        Budgeted c (step c s e).alarmView (log.after c s e) ∧ .alarmReset ∉ (step c s e).tx := by
    intro hview harms
    have hsent : (step c s e).resetsSent = 0 := congrArg AlarmView.sent hview
    refine ⟨?_, fun hmem => mem_tx_iff.mp hmem hsent⟩
    rw [ResetLog.after, harms, hview]
    exact hs.quiet rfl e.isReset
  cases e with
  | reset now on =>
      refine ⟨?_, fun hauto => by cases hauto⟩
      cases on with
      | true => exact hs.reset hmax (reset_alarmView now s)
      | false => exact (hquiet rfl rfl).1
  | poll rxNow now frames =>
      have hpoll := poll_resetBudget hmax rxNow now frames s
      refine ⟨hpoll.keep hs rfl hmax, ?_⟩
      intro _ hmem
      obtain ⟨hseen, hinterval, hleft⟩ := hpoll.allowed hs rfl (mem_tx_iff.mp hmem)
      exact ⟨⟨⟨rxNow, now, frames, rfl, hseen⟩, hleft⟩, hinterval⟩
  | command now cmd =>
      obtain ⟨hkept, hnone⟩ := hquiet (step_alarmView s rfl (by simp)) rfl
      exact ⟨hkept, fun _ hmem => absurd hmem hnone⟩
  | velocityCmd now rpm =>
      obtain ⟨hkept, hnone⟩ := hquiet (step_alarmView s rfl (by simp)) rfl
      exact ⟨hkept, fun _ hmem => absurd hmem hnone⟩
  | positionCmd now target =>
      obtain ⟨hkept, hnone⟩ := hquiet (step_alarmView s rfl (by simp)) rfl
      exact ⟨hkept, fun _ hmem => absurd hmem hnone⟩
  | incPositionCmd now inc =>
      obtain ⟨hkept, hnone⟩ := hquiet (step_alarmView s rfl (by simp)) rfl
      exact ⟨hkept, fun _ hmem => absurd hmem hnone⟩
  | home now start =>
      obtain ⟨hkept, hnone⟩ := hquiet (step_alarmView s rfl (by simp)) rfl
      exact ⟨hkept, fun _ hmem => absurd hmem hnone⟩

theorem start_budget (c : Config) : BudgetHeld c (start c, {}) := by
  have hstart : (start c).alarmActive = false ∧ (start c).alarmResetAttempts = 0 := by
    unfold start
    dsimp only
    split <;> exact ⟨rfl, rfl⟩
  refine ⟨?_, Nat.zero_le _, Nat.zero_le _, ?_, by simp, by simp, fun _ => rfl⟩
  · exact (Nat.le_of_eq hstart.2).trans (Nat.zero_le _)
  · intro hactive
    exact absurd (hstart.1.symm.trans hactive) (by simp)

theorem resetStep_held (hmax : 0 < c.alarmResetMaxAttempts) (hs : BudgetHeld c sl)
    (hstep : resetStep c sl e = some sl') : BudgetHeld c sl' := by
  obtain ⟨hkept, -⟩ := resetStep_budget hmax hs hstep
  exact ⟨hkept.attempts, hkept.resets, hkept.autos, hkept.spent, hkept.gaveUp, hkept.previous,
    hkept.closed⟩

/-- The newest reset frame of an alarm was written by this callback or before. -/
theorem previous_after (hstep : resetStep c sl e = some sl') {u : Time}
    (hu : sl'.2.previous = some u) : u = e.time ∨ sl.2.previous = some u := by
  rw [resetStep_eq] at hstep
  obtain rfl := Option.some.inj hstep
  simp only [ResetLog.after, ResetLog.note] at hu
  split at hu
  · split at hu
    · exact .inl (Option.some.inj hu).symm
    split at hu
    · exact .inr hu
    · cases hu
  · cases hu

/-- With a limit on the attempts, along every run the budget is kept. If the
clock never reads 0, which stands for no reset, the interval is kept too. -/
theorem reset_budget (c : Config) (hmax : 0 < c.alarmResetMaxAttempts) (es : List Event) :
    Along (resetStep c) (KeepsBudget c) (start c, {}) es ∧
      ((∀ e ∈ es, e.time ≠ 0) → Along (resetStep c) (KeepsInterval c) (start c, {}) es) := by
  constructor
  · have keep : ∀ sl e sl', BudgetHeld c sl → True → resetStep c sl e = some sl' →
        BudgetHeld c sl' := fun sl e sl' hs _ hstep => resetStep_held hmax hs hstep
    have good : ∀ sl e sl', BudgetHeld c sl → True → resetStep c sl e = some sl' →
        KeepsBudget c sl e sl' := by
      intro sl e sl' hs _ hstep
      obtain ⟨hkept, hauto⟩ := resetStep_budget hmax hs hstep
      exact ⟨hkept.attempts, hkept.resets, hkept.autos, fun he hmem => (hauto he hmem).1⟩
    exact along_of_invariant keep good (start_budget c) (along_of_forall (fun _ _ _ _ => trivial) _ _)
  · intro hclock
    let Inv : State × ResetLog → Prop := fun sl =>
      BudgetHeld c sl ∧ ∀ u, sl.2.previous = some u → u ≠ 0
    have keep : ∀ sl e sl', Inv sl → e.time ≠ 0 → resetStep c sl e = some sl' → Inv sl' := by
      rintro sl e sl' ⟨hs, hset⟩ hnow hstep
      refine ⟨resetStep_held hmax hs hstep, ?_⟩
      intro u hu
      rcases previous_after hstep hu with rfl | hold
      · exact hnow
      · exact hset u hold
    have good : ∀ sl e sl', Inv sl → e.time ≠ 0 → resetStep c sl e = some sl' →
        KeepsInterval c sl e sl' := by
      rintro sl e sl' ⟨hs, hset⟩ - hstep he hmem u hu
      obtain ⟨-, hauto⟩ := resetStep_budget hmax hs hstep
      exact (hauto he hmem).2 u hu (hset u hu)
    exact along_of_invariant keep good ⟨start_budget c, by simp⟩ (along_of_forall_mem _ hclock _)

/-- An alarm, retries, a manual reset in between, and a second alarm. -/
def twoAlarms : List Event :=
  let alarm : RxFrame := ⟨pidMonitor, [0, 0, 0, 0, 0, 0, 1, 0, 0, 0, 0, 4]⟩
  [.poll 1 1 [alarm], .poll 3 3 [alarm], .reset 4 true, .poll 5 5 [alarm],
    .poll 6 6 [monitorReply 0 4], .poll 7 7 [alarm]]

theorem reset_budget_twoAlarms :
    Along (resetStep defaultConfig) (KeepsBudget defaultConfig) (start defaultConfig, {})
        twoAlarms ∧
      Along (resetStep defaultConfig) (KeepsInterval defaultConfig) (start defaultConfig, {})
        twoAlarms := by
  obtain ⟨hbudget, hinterval⟩ := reset_budget defaultConfig (by decide) twoAlarms
  refine ⟨hbudget, hinterval ?_⟩
  simp [twoAlarms, Event.time]

end PolishingRobot.Lift
