import PolishingRobot.Lift.Stages
import PolishingRobot.Numbers.Words

/-!
# Position arithmetic in 32 bits

Positions, targets and references are compared by the absolute value of their
difference, and an increment is added to the last position. Both are done in
32-bit words. `homingWith`, `motionWith` and `releaseWith` are the stages with
the comparison as a parameter.
-/

namespace PolishingRobot.Lift

open Numbers

variable {c : Config} {now : Time} {pos a b tol : Int32} {fresh : Bool} {di : UInt8} {s : State}

/-- The comparison of the source. -/
def wordNear (a b tol : Int32) : Bool := ¬ tol < (a - b).abs

/-- The comparison of the positions as integers. -/
def exactNear (a b tol : Int32) : Bool := |a.toInt - b.toInt| ≤ tol.toInt

/-- The distance fits a word, or the word that it becomes lies beyond the
tolerance as well. -/
def Comparable (a b tol : Int32) : Prop :=
  |a.toInt - b.toInt| < 2 ^ 31 ∨
    (2 ^ 31 < |a.toInt - b.toInt| ∧ tol.toInt < 2 ^ 32 - |a.toInt - b.toInt|)

theorem toInt_abs (x : Int32) : x.abs.toInt = |x.toInt|.bmod (2 ^ 32) := by
  have habs : x.abs.toInt = x.toBitVec.abs.toInt := rfl
  have hx : x.toInt = x.toBitVec.toInt := rfl
  rw [habs, hx, BitVec.toInt_abs_eq_natAbs]
  split
  · rename_i hmin
    rw [hmin]
    decide
  · rename_i hmin
    have hne : x.toInt ≠ -2 ^ 31 := by
      intro h
      apply hmin
      apply BitVec.toInt_inj.mp
      rw [← hx, h]
      decide
    have hlow := x.le_toInt
    have hhigh := x.toInt_lt
    rw [← hx, Int.natCast_natAbs]
    refine (bmod_of_inWord (h := 2 ^ 31) ⟨?_, ?_⟩).symm
    · have := abs_nonneg x.toInt
      push_cast
      omega
    · rw [abs_lt]
      push_cast
      constructor <;> omega

theorem toInt_abs_sub (a b : Int32) :
    (a - b).abs.toInt = wrapDistance (2 ^ 31) a.toInt b.toInt := by
  rw [toInt_abs, Int32.toInt_sub]
  rfl

theorem abs_toInt_sub_lt (a b : Int32) : |a.toInt - b.toInt| < 2 * (2 ^ 31 : ℕ) := by
  have ha := a.le_toInt
  have ha' := a.toInt_lt
  have hb := b.le_toInt
  have hb' := b.toInt_lt
  rw [abs_lt]
  push_cast
  constructor <;> omega

/-- The comparison in words is right exactly for comparable values. -/
theorem wordNear_eq_exactNear_iff : wordNear a b tol = exactNear a b tol ↔ Comparable a b tol := by
  have hword : (wordNear a b tol = true) ↔ wrapDistance (2 ^ 31) a.toInt b.toInt ≤ tol.toInt := by
    rw [wordNear, decide_eq_true_iff, Int32.lt_iff_toInt_lt, toInt_abs_sub, not_lt]
  have hexact : (exactNear a b tol = true) ↔ |a.toInt - b.toInt| ≤ tol.toInt := by
    rw [exactNear, decide_eq_true_iff]
  rw [Bool.eq_iff_iff, hword, hexact,
    wrapDistance_le_iff (abs_toInt_sub_lt a b) (by simpa using tol.le_toInt)
      (by simpa using tol.toInt_lt)]
  norm_num [Comparable]

/-- Every value is comparable with itself. -/
theorem wordNear_self (a tol : Int32) : wordNear a a tol = exactNear a a tol :=
  wordNear_eq_exactNear_iff.mpr (.inl (by simp))

/-- The homing branch of `updateMotion` with a comparison. -/
def homingWith (c : Config) (near : Int32 → Int32 → Int32 → Bool) (now : Time) (pos : Int32)
    (fresh : Bool) (di : UInt8) (s : State) : State :=
  if c.homeTimeoutSec < now - s.homeStart then
    { sendVelocity c now 0 s with mode := .manual, resumeCycles := 0 }
  else if c.useLimitSwitchForHome ∧ atLowerLimit c di fresh then
    finishHoming c now s
  else
    let s := sendVelocity c now s.homeDirSpeed s
    if ¬ fresh then { s with stallTracking := false }
    else if ¬ s.stallTracking ∨ ¬ near pos s.stallRefPos c.homeStallCounts then
      { s with stallRefPos := pos, stallSince := now, stallTracking := true }
    else if c.homeMinSec ≤ now - s.homeStart ∧ c.homeStallSec ≤ now - s.stallSince then
      finishHoming c now s
    else s

/-- `updateMotion` with a comparison. -/
def motionWith (c : Config) (near : Int32 → Int32 → Int32 → Bool) (now : Time) (pos : Int32)
    (fresh : Bool) (di : UInt8) (s : State) : State :=
  match s.mode with
  | .homing => homingWith c near now pos fresh di s
  | .position =>
      if fresh ∧ near s.targetPos pos c.inPositionTol then
        { s with mode := .manual, resumeCycles := 0 }
      else s
  | .manual => s

/-- `releaseIfBlocked` with a comparison. -/
def releaseWith (c : Config) (near : Int32 → Int32 → Int32 → Bool) (now : Time) (pos : Int32)
    (fresh : Bool) (di : UInt8) (s : State) : State :=
  if ¬ c.autoReleaseOnStop ∨ s.mode ≠ .manual ∨ s.lastVelCmd = 0 ∨ ¬ fresh then s
  else if s.lastVelCmd < 0 ∧ atLowerLimit c di fresh then sendVelocity c now 0 s
  else if now - s.velCmdTime < c.releaseGraceSec then s
  else if ¬ s.velRefValid ∨ ¬ near pos s.velRefPos c.homeStallCounts then
    { s with velRefPos := pos, velRefTime := now, velRefValid := true }
  else if c.releaseStopSec ≤ now - s.velRefTime then sendVelocity c now 0 s
  else s

theorem homingWith_wordNear (c : Config) : homingWith c wordNear = updateHoming c := by
  funext now pos fresh di s
  simp only [homingWith, updateHoming, wordNear, decide_eq_true_eq, not_not]

/-- The source compares in words. -/
theorem motionWith_wordNear (c : Config) : motionWith c wordNear = updateMotion c := by
  funext now pos fresh di s
  have htol : wordNear s.targetPos pos c.inPositionTol = true ↔
      (s.targetPos - pos).abs ≤ c.inPositionTol := by
    rw [wordNear, decide_eq_true_iff, Int32.not_lt]
  cases hmode : s.mode with
  | homing => simp only [motionWith, updateMotion, hmode, homingWith_wordNear]
  | position => simp only [motionWith, updateMotion, hmode, htol]
  | manual => simp only [motionWith, updateMotion, hmode]

theorem releaseWith_wordNear (c : Config) : releaseWith c wordNear = releaseIfBlocked c := by
  funext now pos fresh di s
  simp only [releaseWith, releaseIfBlocked, wordNear, decide_eq_true_eq, not_not]

variable {near : Int32 → Int32 → Int32 → Bool}

/-- The poll compares the position with the reference of the homing run. -/
def ComparesHoming (c : Config) (now : Time) (fresh : Bool) (di : UInt8) (s : State) : Prop :=
  s.mode = .homing ∧ ¬ c.homeTimeoutSec < now - s.homeStart ∧
    ¬ (c.useLimitSwitchForHome = true ∧ atLowerLimit c di fresh = true) ∧ fresh = true ∧
    s.stallTracking = true

/-- The poll compares the position with the reference of a manual command. -/
def ComparesManual (c : Config) (now : Time) (fresh : Bool) (di : UInt8) (s : State) : Prop :=
  c.autoReleaseOnStop = true ∧ s.mode = .manual ∧ s.lastVelCmd ≠ 0 ∧ fresh = true ∧
    ¬ (s.lastVelCmd < 0 ∧ atLowerLimit c di fresh = true) ∧
    ¬ now - s.velCmdTime < c.releaseGraceSec ∧ s.velRefValid = true

/-- A homing poll that compares keeps the reference of a near position. -/
theorem homingWith_stallRefPos (h : ComparesHoming c now fresh di s) :
    (homingWith c near now pos fresh di s).stallRefPos =
      if near pos s.stallRefPos c.homeStallCounts then s.stallRefPos else pos := by
  obtain ⟨-, htime, hlow, hfresh, htrack⟩ := h
  unfold homingWith
  rw [if_neg htime, if_neg hlow]
  cases hnear : near pos s.stallRefPos c.homeStallCounts with
  | false => simp [sendVelocity_eq, hfresh, hnear]
  | true =>
      simp only [sendVelocity_eq, hfresh, htrack, hnear, not_true_eq_false, or_false, if_false]
      split
      · rw [finishHoming_eq, sendVelocity_eq]
        rfl
      · rfl

/-- Without a comparison the comparison does not matter. -/
theorem homingWith_congr {near' : Int32 → Int32 → Int32 → Bool}
    (hmode : s.mode = .homing)
    (h : ComparesHoming c now fresh di s →
      near pos s.stallRefPos c.homeStallCounts = near' pos s.stallRefPos c.homeStallCounts) :
    homingWith c near now pos fresh di s = homingWith c near' now pos fresh di s := by
  unfold homingWith
  split
  · rfl
  rename_i htime
  split
  · rfl
  rename_i hlow
  dsimp only
  split
  · rfl
  rename_i hfresh
  have hsend : (sendVelocity c now s.homeDirSpeed s).stallTracking = s.stallTracking ∧
      (sendVelocity c now s.homeDirSpeed s).stallRefPos = s.stallRefPos := by
    rw [sendVelocity_eq]
    exact ⟨rfl, rfl⟩
  rw [hsend.1, hsend.2]
  cases htrack : s.stallTracking with
  | false => simp
  | true => rw [h ⟨hmode, htime, hlow, not_not.mp hfresh, htrack⟩]

/-- A release stage that compares keeps the reference of a near position. -/
theorem releaseWith_velRefPos (h : ComparesManual c now fresh di s) :
    (releaseWith c near now pos fresh di s).velRefPos =
      if near pos s.velRefPos c.homeStallCounts then s.velRefPos else pos := by
  obtain ⟨hauto, hmode, hvel, hfresh, hlow, hgrace, hvalid⟩ := h
  unfold releaseWith
  rw [if_neg (by simp [hauto, hmode, hvel, hfresh]), if_neg hlow, if_neg hgrace]
  cases hnear : near pos s.velRefPos c.homeStallCounts with
  | false => simp
  | true =>
      simp only [hvalid, not_true_eq_false, or_false, if_false, if_true]
      split
      · rw [sendVelocity_eq]
      · rfl

theorem releaseWith_congr {near' : Int32 → Int32 → Int32 → Bool}
    (h : ComparesManual c now fresh di s →
      near pos s.velRefPos c.homeStallCounts = near' pos s.velRefPos c.homeStallCounts) :
    releaseWith c near now pos fresh di s = releaseWith c near' now pos fresh di s := by
  unfold releaseWith
  split
  · rfl
  rename_i hskip
  simp only [not_or, not_not] at hskip
  obtain ⟨hauto, hmode, hvel, hfresh⟩ := hskip
  split
  · rfl
  rename_i hlow
  split
  · rfl
  rename_i hgrace
  cases hvalid : s.velRefValid with
  | false => simp
  | true => rw [h ⟨hauto, hmode, hvel, hfresh, hlow, hgrace, hvalid⟩]

/-- A comparison that goes wrong moves the reference away from where it goes
right, since a position is comparable with itself. -/
theorem comparable_of_ref_eq {ref : Int32}
    (h : (if wordNear pos ref tol then ref else pos) = if exactNear pos ref tol then ref else pos) :
    Comparable pos ref tol := by
  apply wordNear_eq_exactNear_iff.mp
  cases hword : wordNear pos ref tol <;> cases hexact : exactNear pos ref tol
  · rfl
  · simp only [hword, hexact, if_true] at h
    have hsame := wordNear_self ref tol
    rw [show pos = ref from h] at hword hexact
    rw [hword, hexact] at hsame
    exact hsame
  · simp only [hword, hexact, if_true] at h
    have hsame := wordNear_self ref tol
    rw [show pos = ref from h.symm] at hword hexact
    rw [hword, hexact] at hsame
    exact hsame
  · rfl

/-- On one state, position and increment: the driver calculates as with
integers. -/
structure ExactPositions (c : Config) (now : Time) (pos : Int32) (fresh : Bool) (di : UInt8)
    (s : State) (inc : Int32) : Prop where
  reached : s.mode = .position → fresh = true →
    ((updateMotion c now pos fresh di s).mode = .manual ↔
      |s.targetPos.toInt - pos.toInt| ≤ c.inPositionTol.toInt)
  recorded : s.alarmActive = false →
    (incPositionCmdCallback c inc s).targetPos.toInt = s.rx.position.toInt + inc.toInt
  homing : s.mode = .homing →
    updateMotion c now pos fresh di s = motionWith c exactNear now pos fresh di s
  release : releaseIfBlocked c now pos fresh di s = releaseWith c exactNear now pos fresh di s

/-- What is compared is comparable, and the sum that is recorded fits a word. -/
structure Representable (c : Config) (now : Time) (pos : Int32) (fresh : Bool) (di : UInt8)
    (s : State) (inc : Int32) : Prop where
  reached : s.mode = .position → fresh = true → Comparable s.targetPos pos c.inPositionTol
  recorded : s.alarmActive = false → InWord (2 ^ 31) (s.rx.position.toInt + inc.toInt)
  homing : ComparesHoming c now fresh di s → Comparable pos s.stallRefPos c.homeStallCounts
  release : ComparesManual c now fresh di s → Comparable pos s.velRefPos c.homeStallCounts

theorem reached_iff (hmode : s.mode = .position) (hfresh : fresh = true) :
    (updateMotion c now pos fresh di s).mode = .manual ↔
      wordNear s.targetPos pos c.inPositionTol = true := by
  rw [← motionWith_wordNear, motionWith]
  simp only [hmode, hfresh, true_and]
  split
  · simp [*]
  · simp [*]

theorem recorded_iff {inc : Int32} (halarm : s.alarmActive = false) :
    (incPositionCmdCallback c inc s).targetPos.toInt = s.rx.position.toInt + inc.toInt ↔
      InWord (2 ^ 31) (s.rx.position.toInt + inc.toInt) := by
  have htarget : (incPositionCmdCallback c inc s).targetPos = s.rx.position + inc := by
    simp [incPositionCmdCallback, halarm, sendIncPosition, sendFrame, cancelResume]
  rw [htarget]
  constructor
  · intro h
    rw [← h]
    exact ⟨(s.rx.position + inc).le_toInt, (s.rx.position + inc).toInt_lt⟩
  · intro h
    rw [Int32.toInt_add]
    exact bmod_of_inWord h

/-- For every state, every target, reference, position and increment: the
driver calculates as with integers exactly if what it compares is comparable and
the sum it records fits 32 bits. -/
theorem exact_positions_iff (c : Config) (now : Time) (pos : Int32) (fresh : Bool) (di : UInt8)
    (s : State) (inc : Int32) :
    ExactPositions c now pos fresh di s inc ↔ Representable c now pos fresh di s inc := by
  constructor
  · intro h
    refine ⟨?_, ?_, ?_, ?_⟩
    · intro hmode hfresh
      apply wordNear_eq_exactNear_iff.mp
      rw [Bool.eq_iff_iff, ← reached_iff hmode hfresh, h.reached hmode hfresh, exactNear,
        decide_eq_true_iff]
    · intro halarm
      exact (recorded_iff halarm).mp (h.recorded halarm)
    · intro hcompares
      have heq := congrArg State.stallRefPos (h.homing hcompares.1)
      rw [← motionWith_wordNear] at heq
      simp only [motionWith, hcompares.1, homingWith_stallRefPos hcompares] at heq
      exact comparable_of_ref_eq heq
    · intro hcompares
      have heq := congrArg State.velRefPos h.release
      rw [← releaseWith_wordNear, releaseWith_velRefPos hcompares,
        releaseWith_velRefPos hcompares] at heq
      exact comparable_of_ref_eq heq
  · intro h
    refine ⟨?_, ?_, ?_, ?_⟩
    · intro hmode hfresh
      rw [reached_iff hmode hfresh, wordNear_eq_exactNear_iff.mpr (h.reached hmode hfresh),
        exactNear, decide_eq_true_iff]
    · intro halarm
      exact (recorded_iff halarm).mpr (h.recorded halarm)
    · intro hmode
      rw [← motionWith_wordNear, motionWith, motionWith]
      simp only [hmode]
      exact homingWith_congr hmode fun hcompares =>
        wordNear_eq_exactNear_iff.mpr (h.homing hcompares)
    · rw [← releaseWith_wordNear]
      exact releaseWith_congr fun hcompares =>
        wordNear_eq_exactNear_iff.mpr (h.release hcompares)

/-- A homed lift is sent to the greatest position. -/
def farTarget : List Event :=
  [.home 1 true, .poll 2 2 [monitorReply 50 0], .positionCmd 3 2147483647]

/-- At the other end of the range the move counts as done. -/
theorem far_target_reached :
    let s := run defaultConfig farTarget
    s.mode = .position ∧ s.targetPos = 2147483647 ∧
      (step defaultConfig s (.poll 4 4 [⟨pidPosiData, [8, 0, 0, 128]⟩])).mode = .manual ∧
      ¬ ExactPositions defaultConfig 4 (-2147483640) true 0 s 0 := by
  intro s
  have hmode : s.mode = .position := by decide +kernel
  have htarget : s.targetPos = 2147483647 := by decide +kernel
  refine ⟨hmode, htarget, by decide +kernel, ?_⟩
  intro h
  have hreached : (updateMotion defaultConfig 4 (-2147483640) true 0 s).mode = .manual := by
    decide +kernel
  have hnear := (h.reached hmode rfl).mp hreached
  rw [htarget] at hnear
  exact absurd hnear (by decide)

end PolishingRobot.Lift
