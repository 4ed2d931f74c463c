import PolishingRobot.Lift.PositionArithmetic
import PolishingRobot.Runs.LabelledRuns

/-!
# Homing on an axis that obeys

The drive moves the axis down while the homing speed is commanded, and answers
every poll with the counter and the limit input. Then homing ends at the lower
limit within a deadline, and from there on the counter reads the height above the
limit.
-/

namespace PolishingRobot.Lift

open Numbers Runs

/-- The least speed of the descent in counts per second, the longest time between
two polls, and the counts from the lower limit to the top. -/
structure AxisLimits where
  rate : ℚ
  period : ℚ
  top : ℕ
  rate_pos : 0 < rate
  period_pos : 0 < period
  top_lt : top < 2 ^ 31

/-- The counts above the lower limit, what the counter reads at the limit, and the
time of the last poll. -/
structure Axis where
  height : ℕ
  offset : Int32
  time : Time

/-- A poll, with the height that the last of its frames was made at. -/
structure Sample where
  rxNow : Time
  now : Time
  height : ℕ
  older : List RxFrame
  reply : RxFrame

variable (c : Config) (a : AxisLimits)

/-- The speed of a homing run. -/
def downSpeed : Int16 := (-(if 0 ≤ c.upSpeedRpm then 1 else -1 : Int32) * homingSpeed c).toInt16

/-- The axis stands while the speed is 0, and descends at the homing speed until
it is at the limit. -/
def Moves (v : Int16) (dt : ℚ) (h h' : ℕ) : Prop :=
  (v = 0 → h' = h) ∧ (v = downSpeed c → h' = 0 ∨ h' + a.rate * dt ≤ h)

instance (v : Int16) (dt : ℚ) (h h' : ℕ) : Decidable (Moves c a v dt h h') :=
  inferInstanceAs (Decidable (_ ∧ _))

/-- The poll comes in time, the axis has moved as it was told, and the reply says
where it is, without an alarm. -/
structure Fits (w : State × Axis) (p : Sample) : Prop where
  later : w.2.time ≤ p.now
  punctual : p.now ≤ w.2.time + a.period
  heard : p.now - p.rxNow < c.timeoutSec
  moves : Moves c a w.1.lastVelCmd (p.now - w.2.time) w.2.height p.height
  below : p.height ≤ a.top
  monitor : p.reply.IsMonitor
  quiet : alarmBit (p.reply.data.getD 6 0) = false
  counter : le32 (p.reply.data.drop 7) = w.2.offset + Int32.ofNat p.height
  limit : atLowerLimit c (p.reply.data.getD 11 0) true = decide (p.height = 0)

instance (w : State × Axis) (p : Sample) : Decidable (Fits c a w p) :=
  decidable_of_iff
    (w.2.time ≤ p.now ∧ p.now ≤ w.2.time + a.period ∧ p.now - p.rxNow < c.timeoutSec ∧
      Moves c a w.1.lastVelCmd (p.now - w.2.time) w.2.height p.height ∧ p.height ≤ a.top ∧
      p.reply.IsMonitor ∧ alarmBit (p.reply.data.getD 6 0) = false ∧
      le32 (p.reply.data.drop 7) = w.2.offset + Int32.ofNat p.height ∧
      atLowerLimit c (p.reply.data.getD 11 0) true = decide (p.height = 0))
    ⟨fun ⟨h₁, h₂, h₃, h₄, h₅, h₆, h₇, h₈, h₉⟩ => ⟨h₁, h₂, h₃, h₄, h₅, h₆, h₇, h₈, h₉⟩,
      fun ⟨h₁, h₂, h₃, h₄, h₅, h₆, h₇, h₈, h₉⟩ => ⟨h₁, h₂, h₃, h₄, h₅, h₆, h₇, h₈, h₉⟩⟩

def Sample.event (p : Sample) : Event := .poll p.rxNow p.now (p.older ++ [p.reply])

/-- One poll of the driver on the axis; a reset sets the counter to 0 where the
axis is. -/
def loop (w : State × Axis) (p : Sample) : State × Axis :=
  let s := step c w.1 p.event
  (s, { height := p.height
        offset := if .posiReset ∈ s.tx then -Int32.ofNat p.height else w.2.offset
        time := p.now })

/-- How long the axis has to stand at the limit. -/
def settleSec : ℚ := if c.useLimitSwitchForHome then 0 else max 0 (max c.homeMinSec c.homeStallSec)

def deadline : ℚ := 3 * a.period + a.top / a.rate + settleSec c

/-- The parameters suit the axis: it passes more than the stall tolerance in the
stall time, and it reaches the limit before the timeout. -/
structure Suits : Prop where
  tolerance : 0 ≤ c.homeStallCounts.toInt
  passes : c.homeStallCounts.toInt < a.rate * c.homeStallSec
  reaches : deadline c a ≤ c.homeTimeoutSec

/-- A poll of the run goes on downward, or sets the origin at the limit and stops;
the polls behind it only ask for data. -/
inductive HomingPoll (w : State × Axis) (p : Sample) (w' : State × Axis) : Prop
  | descends (hmode : w.1.mode = .homing) (hmode' : w'.1.mode = .homing)
      (htx : w'.1.tx = [.reqPidData pidMonitor, .velCmd (downSpeed c)])
  | arrives (hmode : w.1.mode = .homing) (hlimit : p.height = 0) (hmode' : w'.1.mode = .manual)
      (hhomed : w'.1.homed = true) (hstop : w'.1.lastVelCmd = 0) (hreset : .posiReset ∈ w'.1.tx)
  | rests (hmode : w.1.mode = .manual) (hmode' : w'.1.mode = .manual)
      (htx : w'.1.tx = [.reqPidData pidMonitor])

/-- The origin is set: the counter reads the height, and nothing moves the axis. -/
structure Homed (w : State × Axis) : Prop where
  homed : w.1.homed = true
  mode : w.1.mode = .manual
  stopped : w.1.lastVelCmd = 0
  counter : w.2.offset = 0

variable {c a} {w : State × Axis} {p : Sample} {s : State} {now : Time} {pos : Int32} {di : UInt8}

/-- A reply with all the data replaces what was received. -/
theorem foldl_monitor (rxNow : Time) (older : List RxFrame) {f : RxFrame} (hf : f.IsMonitor)
    (d : RxData) :
    (older ++ [f]).foldl (handleFrame rxNow) d =
      { rpm := le16 f.data
        statusByte := f.data.getD 6 0
        position := le32 (f.data.drop 7)
        diByte := f.data.getD 11 0
        gotData := true
        lastRx := rxNow } := by
  rw [List.foldl_append, List.foldl_cons, List.foldl_nil, handleFrame, if_pos hf]

/-- What the driver is when the poll has read its frames. -/
def received (p : Sample) (s : State) : State :=
  { s with
    tx := [.reqPidData pidMonitor]
    rx := { rpm := le16 p.reply.data
            statusByte := p.reply.data.getD 6 0
            position := le32 (p.reply.data.drop 7)
            diByte := p.reply.data.getD 11 0
            gotData := true
            lastRx := p.rxNow } }

/-- Without an alarm and without a deferred homing, the motion stage follows the
reading. -/
theorem step_sample (hopen : c.serialOpen = true) (hfits : Fits c a w p)
    (halarm : w.1.alarmActive = false) (hpending : w.1.pendingHome = false) :
    step c w.1 p.event =
      releaseIfBlocked c p.now (le32 (p.reply.data.drop 7)) true (p.reply.data.getD 11 0)
        (updateMotion c p.now (le32 (p.reply.data.drop 7)) true (p.reply.data.getD 11 0)
          (received p w.1)) := by
  have hreceive : pollReceive c p.rxNow (p.older ++ [p.reply]) { w.1 with tx := [] } =
      received p w.1 := by
    rw [pollReceive]
    simp only [hopen, if_true, foldl_monitor p.rxNow p.older hfits.monitor]
    simp [requestMonitor, sendFrame, hopen, received]
  have hfresh : isFresh c p.now (received p w.1).rx = true := by
    simpa [isFresh, received] using hfits.heard
  have hstatus : alarmBit (received p w.1).rx.statusByte = false := hfits.quiet
  have halarm' : updateAlarm c p.now (received p w.1).rx.statusByte true
      (received p w.1).rx.position (received p w.1) = received p w.1 := by
    have hactive : (received p w.1).alarmActive = false := halarm
    simp [updateAlarm, hstatus, hactive, autoAlarmReset]
  have hhome : autoHome c p.now true (received p w.1) = received p w.1 := by
    have hnone : (received p w.1).pendingHome = false := hpending
    simp [autoHome, hnone]
  rw [step, Sample.event, callback, pollTimer, hreceive, pollDecide]
  simp only [hfresh, halarm', hhome]
  rfl

theorem releaseIfBlocked_idle (h : s.mode ≠ .manual ∨ s.lastVelCmd = 0) :
    releaseIfBlocked c now pos true di s = s := by
  rw [releaseIfBlocked, if_pos]
  rcases h with h | h
  · exact .inr (.inl h)
  · exact .inr (.inr (.inl h))

/-- The exits and the two ways on of a homing run that is heard in time. -/
theorem updateHoming_eq (htime : now - s.homeStart ≤ c.homeTimeoutSec) :
    updateHoming c now pos true di s =
      if c.useLimitSwitchForHome ∧ atLowerLimit c di true then finishHoming c now s
      else if ¬ s.stallTracking ∨ c.homeStallCounts < (pos - s.stallRefPos).abs then
        { sendVelocity c now s.homeDirSpeed s with
          stallRefPos := pos, stallSince := now, stallTracking := true }
      else if c.homeMinSec ≤ now - s.homeStart ∧ c.homeStallSec ≤ now - s.stallSince then
        finishHoming c now (sendVelocity c now s.homeDirSpeed s)
      else sendVelocity c now s.homeDirSpeed s := by
  rw [updateHoming, if_neg (not_lt.mpr htime)]
  simp only [sendVelocity_eq, not_true_eq_false, if_false]

/-- The end of a run. -/
theorem finishHoming_homed (hopen : c.serialOpen = true) (now : Time) (s : State) :
    (finishHoming c now s).homed = true ∧ (finishHoming c now s).mode = .manual ∧
      (finishHoming c now s).lastVelCmd = 0 ∧ .posiReset ∈ (finishHoming c now s).tx ∧
      (finishHoming c now s).alarmActive = s.alarmActive ∧
      (finishHoming c now s).pendingHome = s.pendingHome := by
  rw [finishHoming_eq, sendVelocity_eq]
  simp [sent, hopen]

/-- Two heights compare as their readings do. -/
theorem abs_counter {offset tol : Int32} {h r : ℕ} (hr : r < 2 ^ 31) (hle : h ≤ r) :
    tol < (offset + Int32.ofNat h - (offset + Int32.ofNat r)).abs ↔ tol.toInt < (r : ℤ) - h := by
  have hdiff : offset + Int32.ofNat h - (offset + Int32.ofNat r) =
      Int32.ofNat h - Int32.ofNat r := by grind
  have hh : (Int32.ofNat h).toInt = h := Int32.toInt_ofNat_of_lt (by omega)
  have hr' : (Int32.ofNat r).toInt = r := Int32.toInt_ofNat_of_lt hr
  have hdist : |(h : ℤ) - r| = r - h := by
    rw [abs_sub_comm, abs_of_nonneg (by omega)]
  rw [hdiff, Int32.lt_iff_toInt_lt, toInt_abs_sub, hh, hr', wrapDistance_of_lt, hdist]
  rw [hdist]
  push_cast
  omega

variable (c a) in
/-- A homing run that began at `t₀`. -/
structure Underway (t₀ : Time) (w : State × Axis) : Prop where
  mode : w.1.mode = .homing
  alarm : w.1.alarmActive = false
  pending : w.1.pendingHome = false
  speed : w.1.homeDirSpeed = downSpeed c
  start : w.1.homeStart = t₀

variable (c a) in
/-- Still at the limit: the axis has not stood there for long enough. -/
structure Settles (t₀ t₁ : Time) (r : ℕ) (w : State × Axis) : Prop where
  switch : c.useLimitSwitchForHome = false
  near : (r : ℤ) ≤ c.homeStallCounts.toInt
  arrived : w.1.stallSince ≤ t₁ + a.top / a.rate + a.period
  waits : w.2.time - t₀ < c.homeMinSec ∨ w.2.time - w.1.stallSince < c.homeStallSec

variable (c a) in
/-- The speed is commanded since the first poll at `t₁`, and the reference of the
stall detection is the height `r`. -/
structure Descending (t₀ t₁ : Time) (r : ℕ) (w : State × Axis) : Prop
    extends Underway c t₀ w where
  velocity : w.1.lastVelCmd = downSpeed c
  first : t₁ ≤ t₀ + a.period
  progress : w.2.height = 0 ∨ w.2.height + a.rate * (w.2.time - t₁) ≤ a.top
  tracking : w.1.stallTracking = true
  ref : w.1.stallRefPos = w.2.offset + Int32.ofNat r
  ref_le : r ≤ a.top
  below : w.2.height ≤ r
  since : w.1.stallSince ≤ w.2.time
  fall : w.2.height = 0 ∨ w.2.height + a.rate * (w.2.time - w.1.stallSince) ≤ r
  limit : w.2.height = 0 → Settles c a t₀ t₁ r w

/-- The run is over. -/
structure Resting (w : State × Axis) : Prop extends Homed w where
  alarm : w.1.alarmActive = false
  pending : w.1.pendingHome = false

/-- The driver of a run that goes on with a new reference. -/
def movedOn (c : Config) (p : Sample) (s : State) : State :=
  { sendVelocity c p.now s.homeDirSpeed (received p s) with
    stallRefPos := le32 (p.reply.data.drop 7), stallSince := p.now, stallTracking := true }

variable {t₀ t₁ : Time} {r : ℕ}

/-- One poll of a run before the timeout. -/
theorem step_underway (hopen : c.serialOpen = true) (hunder : Underway c t₀ w)
    (hfits : Fits c a w p) (htime : p.now - t₀ ≤ c.homeTimeoutSec) :
    step c w.1 p.event =
      if c.useLimitSwitchForHome ∧ p.height = 0 then finishHoming c p.now (received p w.1)
      else if ¬ w.1.stallTracking ∨
          c.homeStallCounts < (le32 (p.reply.data.drop 7) - w.1.stallRefPos).abs then
        movedOn c p w.1
      else if c.homeMinSec ≤ p.now - t₀ ∧ c.homeStallSec ≤ p.now - w.1.stallSince then
        finishHoming c p.now (sendVelocity c p.now w.1.homeDirSpeed (received p w.1))
      else sendVelocity c p.now w.1.homeDirSpeed (received p w.1) := by
  have hmode : (received p w.1).mode = .homing := hunder.mode
  have hstart : (received p w.1).homeStart = t₀ := hunder.start
  have htime' : p.now - (received p w.1).homeStart ≤ c.homeTimeoutSec := by rwa [hstart]
  have hmotion : updateMotion c p.now (le32 (p.reply.data.drop 7)) true
      (p.reply.data.getD 11 0) (received p w.1) =
        updateHoming c p.now (le32 (p.reply.data.drop 7)) true (p.reply.data.getD 11 0)
          (received p w.1) := by
    rw [updateMotion, hmode]
  rw [step_sample hopen hfits hunder.alarm hunder.pending, hmotion, updateHoming_eq htime',
    hfits.limit, hstart]
  simp only [decide_eq_true_iff]
  apply releaseIfBlocked_idle
  have hon : (sendVelocity c p.now (received p w.1).homeDirSpeed (received p w.1)).mode =
      .homing := by
    rw [sendVelocity_eq]
    exact hmode
  split_ifs
  · exact .inr (finishHoming_homed hopen p.now _).2.2.1
  · exact .inl (by simp [hon])
  · exact .inr (finishHoming_homed hopen p.now _).2.2.1
  · exact .inl (by simp [hon])

/-- The run stops at the limit. -/
theorem loop_arrives (hopen : c.serialOpen = true) (hunder : Underway c t₀ w)
    (hlimit : p.height = 0) {u : State} (hstep : step c w.1 p.event = finishHoming c p.now u)
    (halarm : u.alarmActive = false) (hpending : u.pendingHome = false) :
    HomingPoll c w p (loop c w p) ∧ Resting (loop c w p) := by
  obtain ⟨hhomed, hmode, hstop, hreset, halarm', hpending'⟩ := finishHoming_homed hopen p.now u
  have hloop : (loop c w p).1 = finishHoming c p.now u := hstep
  have hcounter : (loop c w p).2.offset = 0 := by
    change (if .posiReset ∈ (step c w.1 p.event).tx then -Int32.ofNat p.height else _) = 0
    rw [hstep, if_pos hreset, hlimit]
    rfl
  rw [← hloop] at hhomed hmode hstop hreset halarm' hpending'
  refine ⟨.arrives hunder.mode hlimit hmode hhomed hstop hreset, ?_⟩
  exact ⟨⟨hhomed, hmode, hstop, hcounter⟩, halarm'.trans halarm, hpending'.trans hpending⟩

/-- The run goes on downward. -/
theorem loop_descends (hopen : c.serialOpen = true) (hunder : Underway c t₀ w)
    (hstep : step c w.1 p.event = movedOn c p w.1 ∨
      step c w.1 p.event = sendVelocity c p.now w.1.homeDirSpeed (received p w.1)) :
    HomingPoll c w p (loop c w p) ∧ Underway c t₀ (loop c w p) ∧
      (loop c w p).1.lastVelCmd = downSpeed c ∧ (loop c w p).2.offset = w.2.offset := by
  have hfields : (loop c w p).1.mode = .homing ∧ (loop c w p).1.alarmActive = false ∧
      (loop c w p).1.pendingHome = false ∧ (loop c w p).1.homeDirSpeed = downSpeed c ∧
      (loop c w p).1.homeStart = t₀ ∧ (loop c w p).1.lastVelCmd = downSpeed c ∧
      (loop c w p).1.tx = [.reqPidData pidMonitor, .velCmd (downSpeed c)] := by
    change (step c w.1 p.event).mode = _ ∧ (step c w.1 p.event).alarmActive = _ ∧
      (step c w.1 p.event).pendingHome = _ ∧ (step c w.1 p.event).homeDirSpeed = _ ∧
      (step c w.1 p.event).homeStart = _ ∧ (step c w.1 p.event).lastVelCmd = _ ∧
      (step c w.1 p.event).tx = _
    rcases hstep with hstep | hstep
    · rw [hstep, movedOn, sendVelocity_eq]
      simp [received, hopen, hunder.mode, hunder.alarm, hunder.pending, hunder.speed, hunder.start]
    · rw [hstep, sendVelocity_eq]
      simp [received, hopen, hunder.mode, hunder.alarm, hunder.pending, hunder.speed, hunder.start]
  obtain ⟨hmode, halarm, hpending, hspeed, hstart, hvelocity, htx⟩ := hfields
  have hoffset : (loop c w p).2.offset = w.2.offset := by
    change (if .posiReset ∈ (loop c w p).1.tx then _ else _) = _
    rw [htx]
    exact if_neg (by simp)
  exact ⟨.descends hunder.mode hmode htx, ⟨hmode, halarm, hpending, hspeed, hstart⟩, hvelocity,
    hoffset⟩

/-- Behind the run a poll only asks for data. -/
theorem loop_rests (hopen : c.serialOpen = true) (hrest : Resting w) (hfits : Fits c a w p) :
    HomingPoll c w p (loop c w p) ∧ Resting (loop c w p) := by
  have hmode : (received p w.1).mode = .manual := hrest.mode
  have hmotion : updateMotion c p.now (le32 (p.reply.data.drop 7)) true
      (p.reply.data.getD 11 0) (received p w.1) = received p w.1 := by
    rw [updateMotion, hmode]
  have hstep : step c w.1 p.event = received p w.1 := by
    rw [step_sample hopen hfits hrest.alarm hrest.pending, hmotion]
    exact releaseIfBlocked_idle (.inr hrest.stopped)
  have hloop : (loop c w p).1 = received p w.1 := hstep
  have hcounter : (loop c w p).2.offset = 0 := by
    change (if .posiReset ∈ (step c w.1 p.event).tx then _ else w.2.offset) = 0
    rw [hstep, if_neg (by simp [received]), hrest.counter]
  refine ⟨.rests hrest.mode (by rw [hloop]; exact hmode) (by rw [hloop]; rfl), ?_⟩
  refine ⟨⟨?_, ?_, ?_, hcounter⟩, ?_, ?_⟩
  · rw [hloop]
    exact hrest.homed
  · rw [hloop]
    exact hmode
  · rw [hloop]
    exact hrest.stopped
  · rw [hloop]
    exact hrest.alarm
  · rw [hloop]
    exact hrest.pending

/-- The axis has descended by at least the rate times the time. -/
theorem moves_covered {h h' : ℕ} {dt t bound : ℚ} (hdt : 0 ≤ dt)
    (hmoves : h' = 0 ∨ h' + a.rate * dt ≤ h) (hold : h = 0 ∨ h + a.rate * t ≤ bound) :
    h' = 0 ∨ h' + a.rate * (t + dt) ≤ bound := by
  rcases hmoves with hzero | hmoves
  · exact .inl hzero
  · rcases hold with rfl | hold
    · left
      have hnonneg : 0 ≤ a.rate * dt := mul_nonneg a.rate_pos.le hdt
      have hle : (h' : ℚ) ≤ 0 := by
        push_cast at hmoves
        linarith
      exact Nat.le_zero.mp (by exact_mod_cast hle)
    · right
      rw [mul_add]
      linarith

theorem height_le {h h' : ℕ} {dt : ℚ} (hdt : 0 ≤ dt) (hmoves : h' = 0 ∨ h' + a.rate * dt ≤ h) :
    h' ≤ h := by
  rcases hmoves with rfl | hmoves
  · exact Nat.zero_le h
  · have hnonneg : 0 ≤ a.rate * dt := mul_nonneg a.rate_pos.le hdt
    have hle : (h' : ℚ) ≤ h := by linarith
    exact_mod_cast hle

/-- Above the limit the descent has not taken its time yet. -/
theorem time_lt_of_above {h : ℕ} {t : ℚ} (hpos : h ≠ 0) (hle : h + a.rate * t ≤ a.top) :
    t < a.top / a.rate := by
  have hheight : (0 : ℚ) < h := by exact_mod_cast Nat.pos_of_ne_zero hpos
  rw [lt_div_iff₀ a.rate_pos]
  linarith

theorem settleSec_nonneg (c : Config) : 0 ≤ settleSec c := by
  unfold settleSec
  split
  · exact le_rfl
  · exact le_max_left _ _

theorem fall_time_nonneg (a : AxisLimits) : 0 ≤ a.top / a.rate :=
  div_nonneg (Nat.cast_nonneg _) a.rate_pos.le

theorem Suits.stall_pos (h : Suits c a) : 0 < c.homeStallSec := by
  have htolerance : (0 : ℚ) ≤ c.homeStallCounts.toInt := by exact_mod_cast h.tolerance
  have hpasses := h.passes
  have hmul : 0 < a.rate * c.homeStallSec := by linarith
  exact (mul_pos_iff_of_pos_left a.rate_pos).mp hmul

/-- The reference moves on with the axis. -/
theorem loop_moves_on (hsuits : Suits c a) (hopen : c.serialOpen = true)
    (hunder : Underway c t₀ w) (hfits : Fits c a w p)
    (hstep : step c w.1 p.event = movedOn c p w.1)
    (hswitch : ¬ (c.useLimitSwitchForHome = true ∧ p.height = 0)) (hfirst : t₁ ≤ t₀ + a.period)
    (hprogress : p.height = 0 ∨ p.height + a.rate * (p.now - t₁) ≤ a.top)
    (harrived : p.height = 0 → p.now ≤ t₁ + a.top / a.rate + a.period) :
    HomingPoll c w p (loop c w p) ∧ Descending c a t₀ t₁ p.height (loop c w p) := by
  obtain ⟨hdown, hunder', hvelocity, hoffset⟩ := loop_descends hopen hunder (.inl hstep)
  have hloop : (loop c w p).1 = movedOn c p w.1 := hstep
  have hsince : (loop c w p).1.stallSince = p.now := by rw [hloop, movedOn]
  refine ⟨hdown, hunder', hvelocity, hfirst, hprogress, ?_, ?_, hfits.below, le_rfl, hsince.le,
    .inr ?_, ?_⟩
  · rw [hloop, movedOn]
  · rw [hloop, hoffset]
    exact hfits.counter
  · rw [hsince]
    change (p.height : ℚ) + a.rate * (p.now - p.now) ≤ p.height
    rw [sub_self, mul_zero, add_zero]
  · intro hlimit
    have hlimit : p.height = 0 := hlimit
    have hoff : c.useLimitSwitchForHome = false := by
      by_contra hon
      exact hswitch ⟨by simpa using hon, hlimit⟩
    refine ⟨hoff, ?_, ?_, .inr ?_⟩
    · rw [hlimit]
      exact hsuits.tolerance
    · rw [hsince]
      exact harrived hlimit
    · rw [hsince]
      change p.now - p.now < c.homeStallSec
      rw [sub_self]
      exact hsuits.stall_pos

/-- The first poll commands the speed, or the axis is at the limit already. -/
theorem first_poll (hsuits : Suits c a) (hopen : c.serialOpen = true)
    (hunder : Underway c w.2.time w) (htracking : w.1.stallTracking = false)
    (hfits : Fits c a w p) :
    HomingPoll c w p (loop c w p) ∧
      ((∃ t₁ r, Descending c a w.2.time t₁ r (loop c w p)) ∨ Resting (loop c w p)) := by
  have hpunctual := hfits.punctual
  have hperiod := a.period_pos
  have hfall := fall_time_nonneg a
  have htime : p.now - w.2.time ≤ c.homeTimeoutSec := by
    have hreaches := hsuits.reaches
    have hsettle := settleSec_nonneg c
    unfold deadline at hreaches
    linarith
  have hpoll := step_underway hopen hunder hfits htime
  by_cases hswitch : c.useLimitSwitchForHome ∧ p.height = 0
  · rw [if_pos hswitch] at hpoll
    obtain ⟨hdone, hrest⟩ := loop_arrives hopen hunder hswitch.2 hpoll hunder.alarm hunder.pending
    exact ⟨hdone, .inr hrest⟩
  · rw [if_neg hswitch, if_pos (.inl (by simp [htracking]))] at hpoll
    have hprogress : (p.height : ℚ) + a.rate * (p.now - p.now) ≤ a.top := by
      rw [sub_self, mul_zero, add_zero]
      exact_mod_cast hfits.below
    obtain ⟨hdown, hnext⟩ := loop_moves_on hsuits hopen hunder hfits hpoll hswitch hpunctual
      (.inr hprogress) (fun _ => by linarith)
    exact ⟨hdown, .inl ⟨p.now, p.height, hnext⟩⟩

/-- How long a run can be under way. -/
theorem Descending.time_lt (h : Descending c a t₀ t₁ r w) :
    w.2.time < t₀ + deadline c a - a.period := by
  have hfirst := h.first
  have hperiod := a.period_pos
  have hsettle := settleSec_nonneg c
  unfold deadline
  by_cases hlimit : w.2.height = 0
  · obtain ⟨hoff, -, harrived, hwaits⟩ := h.limit hlimit
    have hsettle' : settleSec c = max 0 (max c.homeMinSec c.homeStallSec) := by
      rw [settleSec, if_neg (by simp [hoff])]
    have hmin : c.homeMinSec ≤ settleSec c := by
      rw [hsettle']
      exact (le_max_left _ _).trans (le_max_right _ _)
    have hstall : c.homeStallSec ≤ settleSec c := by
      rw [hsettle']
      exact (le_max_right _ _).trans (le_max_right _ _)
    have hfall := fall_time_nonneg a
    rcases hwaits with hwaits | hwaits
    · linarith
    · linarith
  · have hlt := time_lt_of_above hlimit (h.progress.resolve_left hlimit)
    linarith

/-- Each poll of the descent goes on, or ends it at the limit. -/
theorem next_poll (hsuits : Suits c a) (hopen : c.serialOpen = true)
    (h : Descending c a t₀ t₁ r w) (hfits : Fits c a w p) :
    HomingPoll c w p (loop c w p) ∧
      ((∃ r', Descending c a t₀ t₁ r' (loop c w p)) ∨ Resting (loop c w p)) := by
  have hunder := h.toUnderway
  have hdt : 0 ≤ p.now - w.2.time := sub_nonneg.mpr hfits.later
  have hmoves := hfits.moves.2 h.velocity
  have hlower : p.height ≤ w.2.height := height_le hdt hmoves
  have hprogress : p.height = 0 ∨ p.height + a.rate * (p.now - t₁) ≤ a.top := by
    have hdescent := moves_covered hdt hmoves h.progress
    rwa [show w.2.time - t₁ + (p.now - w.2.time) = p.now - t₁ by ring] at hdescent
  have hfall : p.height = 0 ∨ p.height + a.rate * (p.now - w.1.stallSince) ≤ r := by
    have hdescent := moves_covered hdt hmoves h.fall
    rwa [show w.2.time - w.1.stallSince + (p.now - w.2.time) = p.now - w.1.stallSince by ring]
      at hdescent
  have htime : p.now - t₀ ≤ c.homeTimeoutSec := by
    have hlt := h.time_lt
    have hpunctual := hfits.punctual
    have hreaches := hsuits.reaches
    linarith
  have hpoll := step_underway hopen hunder hfits htime
  have hmoved : c.homeStallCounts < (le32 (p.reply.data.drop 7) - w.1.stallRefPos).abs ↔
      c.homeStallCounts.toInt < (r : ℤ) - p.height := by
    rw [hfits.counter, h.ref]
    exact abs_counter (h.ref_le.trans_lt a.top_lt) (hlower.trans h.below)
  by_cases hswitch : c.useLimitSwitchForHome ∧ p.height = 0
  · rw [if_pos hswitch] at hpoll
    obtain ⟨hdone, hrest⟩ := loop_arrives hopen hunder hswitch.2 hpoll hunder.alarm hunder.pending
    exact ⟨hdone, .inr hrest⟩
  rw [if_neg hswitch] at hpoll
  by_cases hfar : c.homeStallCounts.toInt < (r : ℤ) - p.height
  · rw [if_pos (.inr (hmoved.mpr hfar))] at hpoll
    have harrived : p.height = 0 → p.now ≤ t₁ + a.top / a.rate + a.period := by
      intro hlimit
      have habove : w.2.height ≠ 0 := by
        intro hold
        have hnear := (h.limit hold).near
        omega
      have hlt := time_lt_of_above habove (h.progress.resolve_left habove)
      have hpunctual := hfits.punctual
      linarith
    obtain ⟨hdown, hnext⟩ := loop_moves_on hsuits hopen hunder hfits hpoll hswitch h.first
      hprogress harrived
    exact ⟨hdown, .inl ⟨p.height, hnext⟩⟩
  rw [if_neg (not_or.mpr ⟨by simp [h.tracking], mt hmoved.mp hfar⟩)] at hpoll
  by_cases hready : c.homeMinSec ≤ p.now - t₀ ∧ c.homeStallSec ≤ p.now - w.1.stallSince
  · rw [if_pos hready] at hpoll
    -- Above the limit the axis would have passed the tolerance by now.
    have hlimit : p.height = 0 := by
      by_contra habove
      have hpassed := hfall.resolve_left habove
      have hstall := mul_le_mul_of_nonneg_left hready.2 a.rate_pos.le
      have hnear : (r : ℚ) - p.height ≤ c.homeStallCounts.toInt := by
        exact_mod_cast not_lt.mp hfar
      have hpasses := hsuits.passes
      linarith
    obtain ⟨hdone, hrest⟩ := loop_arrives hopen hunder hlimit hpoll
      (by rw [sendVelocity_eq]; exact hunder.alarm) (by rw [sendVelocity_eq]; exact hunder.pending)
    exact ⟨hdone, .inr hrest⟩
  rw [if_neg hready] at hpoll
  obtain ⟨hdown, hunder', hvelocity, hoffset⟩ := loop_descends hopen hunder (.inr hpoll)
  have hloop : (loop c w p).1 =
      sendVelocity c p.now w.1.homeDirSpeed (received p w.1) := hpoll
  have hsince : (loop c w p).1.stallSince = w.1.stallSince := by
    rw [hloop, sendVelocity_eq]
    rfl
  refine ⟨hdown, .inl ⟨r, hunder', hvelocity, h.first, hprogress, ?_, ?_, h.ref_le,
    hlower.trans h.below, ?_, ?_, ?_⟩⟩
  · rw [hloop, sendVelocity_eq]
    exact h.tracking
  · rw [hloop, hoffset, sendVelocity_eq]
    exact h.ref
  · rw [hsince]
    exact h.since.trans hfits.later
  · rw [hsince]
    exact hfall
  · intro hlimit
    have hlimit : p.height = 0 := hlimit
    refine ⟨?_, ?_, ?_, ?_⟩
    · by_contra hon
      exact hswitch ⟨by simpa using hon, hlimit⟩
    · omega
    · rw [hsince]
      by_cases hold : w.2.height = 0
      · exact (h.limit hold).arrived
      · have hlt := time_lt_of_above hold (h.progress.resolve_left hold)
        have hperiod := a.period_pos
        have hlate := h.since
        linarith
    · rw [hsince]
      rcases not_and_or.mp hready with hmin | hstall
      · exact .inl (not_le.mp hmin)
      · exact .inr (not_le.mp hstall)

variable (c a) in
/-- Before the first poll, on the way down, or done. -/
def InRun (t₀ : Time) (w : State × Axis) : Prop :=
  (Underway c t₀ w ∧ w.1.stallTracking = false ∧ w.2.time = t₀) ∨
    (∃ t₁ r, Descending c a t₀ t₁ r w) ∨ Resting w

theorem InRun.poll (hsuits : Suits c a) (hopen : c.serialOpen = true) (h : InRun c a t₀ w)
    (hfits : Fits c a w p) : HomingPoll c w p (loop c w p) ∧ InRun c a t₀ (loop c w p) := by
  rcases h with ⟨hunder, htracking, rfl⟩ | ⟨t₁, r, hdescending⟩ | hrest
  · obtain ⟨hpoll, hnext⟩ := first_poll hsuits hopen hunder htracking hfits
    exact ⟨hpoll, .inr hnext⟩
  · obtain ⟨hpoll, hnext⟩ := next_poll hsuits hopen hdescending hfits
    exact ⟨hpoll, .inr (hnext.imp_left fun hdescends => ⟨t₁, hdescends⟩)⟩
  · obtain ⟨hpoll, hnext⟩ := loop_rests hopen hrest hfits
    exact ⟨hpoll, .inr (.inr hnext)⟩

theorem deadline_pos (c : Config) (a : AxisLimits) : 0 < deadline c a := by
  have hperiod := a.period_pos
  have hfall := fall_time_nonneg a
  have hsettle := settleSec_nonneg c
  unfold deadline
  linarith

theorem InRun.homed (h : InRun c a t₀ w) (hlate : t₀ + deadline c a ≤ w.2.time) : Homed w := by
  rcases h with ⟨-, -, htime⟩ | ⟨t₁, r, hdescending⟩ | hrest
  · have hpos := deadline_pos c a
    linarith
  · have hlt := hdescending.time_lt
    have hperiod := a.period_pos
    linarith
  · exact hrest.toHomed

/-- The request starts the run. -/
theorem homing_requested (henable : c.enablePositionControl = true) (hspeed : homingSpeed c ≠ 0)
    (halarm : s.alarmActive = false) (t₀ : Time) (x : Axis) (hx : x.time = t₀) :
    InRun c a t₀ (step c s (.home t₀ true), x) := by
  have hstep : step c s (.home t₀ true) = homingStarted c t₀ { s with tx := [] } := by
    rw [step, callback, if_pos henable, homeCallback_true, if_neg]
    simp [halarm, hspeed]
  left
  rw [hstep]
  exact ⟨⟨rfl, halarm, rfl, rfl, rfl⟩, rfl, hx⟩

/-- From any state without an alarm and any height, on an axis that obeys: a homing
request leads to polls that go down until one sets the origin at the limit and
stops, and after the deadline the origin is set. Both exits of the homing run are
covered, with the limit switch and by standing still. -/
theorem homing_reaches_the_limit (c : Config) (a : AxisLimits) (hsuits : Suits c a)
    (hopen : c.serialOpen = true) (henable : c.enablePositionControl = true)
    (hspeed : homingSpeed c ≠ 0) (s : State) (halarm : s.alarmActive = false) (t₀ : Time)
    (height : ℕ) (offset : Int32) (ps : List Sample)
    (hfits : Along (total (loop c)) (fun w p _ => Fits c a w p)
      (step c s (.home t₀ true), ⟨height, offset, t₀⟩) ps) :
    Along (total (loop c)) (HomingPoll c) (step c s (.home t₀ true), ⟨height, offset, t₀⟩) ps ∧
      ∀ w, Runs.run (total (loop c)) (step c s (.home t₀ true), ⟨height, offset, t₀⟩) ps = some w →
        t₀ + deadline c a ≤ w.2.time → Homed w := by
  have hstart : InRun c a t₀ (step c s (.home t₀ true), ⟨height, offset, t₀⟩) :=
    homing_requested henable hspeed halarm t₀ _ rfl
  have keep : ∀ w p w', InRun c a t₀ w → Fits c a w p → total (loop c) w p = some w' →
      InRun c a t₀ w' := by
    intro w p w' hw hp hstep
    obtain rfl := Option.some.inj hstep
    exact (hw.poll hsuits hopen hp).2
  have good : ∀ w p w', InRun c a t₀ w → Fits c a w p → total (loop c) w p = some w' →
      HomingPoll c w p w' := by
    intro w p w' hw hp hstep
    obtain rfl := Option.some.inj hstep
    exact (hw.poll hsuits hopen hp).1
  refine ⟨along_of_invariant keep good hstart hfits, ?_⟩
  intro w hrun hlate
  exact (invariant_of_run keep hstart hfits hrun).homed hlate

/-- Two counts above the limit, at 10 counts a second. -/
def shortAxis : AxisLimits := ⟨10, 1 / 2, 2, by norm_num, by norm_num, by norm_num⟩

/-- The counter starts at 100, and stands at 0 behind the reset. -/
def shortDescent : List Sample :=
  [⟨1 / 2, 1 / 2, 2, [], monitorReply 102 4⟩, ⟨1, 1, 0, [], monitorReply 100 0⟩,
    ⟨3 / 2, 3 / 2, 0, [], monitorReply 0 0⟩, ⟨2, 2, 0, [], monitorReply 0 0⟩]

theorem homing_reaches_the_limit_short :
    ∃ w, Runs.run (total (loop defaultConfig))
      (step defaultConfig {} (.home 0 true), ⟨2, 100, 0⟩) shortDescent = some w ∧ Homed w := by
  have hsuits : Suits defaultConfig shortAxis :=
    ⟨by decide +kernel, by decide +kernel, by decide +kernel⟩
  exact ⟨_, rfl, (homing_reaches_the_limit defaultConfig shortAxis hsuits rfl rfl
    (by decide +kernel)
    {} rfl 0 2 100 shortDescent (by decide +kernel)).2 _ rfl (by decide +kernel)⟩

end PolishingRobot.Lift
