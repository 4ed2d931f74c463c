import PolishingRobot.Base.Controller
import PolishingRobot.Numbers.WithNan
import Mathlib.Algebra.Order.Ring.Abs
import Mathlib.Data.Sign.Basic
import Mathlib.Tactic.Linarith

/-!
# Limits for every twist

The limits of `controlTimer` on doubles that may be `nan`. A number leaves them
bounded, with its sign, and unchanged if it was within; `nan` loses both
comparisons and leaves them as the full speed backwards.
-/

namespace PolishingRobot.Base

open Numbers

/-- A double of a twist: a rational number or `nan`. -/
abbrev Double := WithNan ℚ

variable {p : Parameters} {maxVel : ℚ}

/-- The limits cut a number from both sides. -/
theorem limited_num (hmax : 0 < maxVel) (v : ℚ) :
    limited maxVel (.num v : Double) = .num (max (-maxVel) (min v maxVel)) := by
  unfold limited
  rw [if_pos hmax, WithNan.ratCast_eq, Rat.cast_id]
  have hmin : stdMin (.num v : Double) (.num maxVel) = .num (min v maxVel) := by
    simp only [stdMin, WithNan.num_lt_num]
    split
    · rw [min_eq_right (le_of_lt ‹_›)]
    · rw [min_eq_left (not_lt.mp ‹_›)]
  rw [hmin]
  simp only [stdMax, WithNan.neg_num, WithNan.num_lt_num]
  split
  · rw [max_eq_right (le_of_lt ‹_›)]
  · rw [max_eq_left (not_lt.mp ‹_›)]

/-- Neither comparison holds of `nan`, so the lower limit is what remains. -/
theorem limited_nan (hmax : 0 < maxVel) : limited maxVel (.nan : Double) = .num (-maxVel) := by
  unfold limited
  rw [if_pos hmax, WithNan.ratCast_eq, Rat.cast_id, stdMin, if_neg (WithNan.not_lt_nan _), stdMax,
    if_neg (WithNan.not_lt_nan _), WithNan.neg_num]

/-- What the limits promise for one component. A request is `stale` when no
message has come for too long. -/
structure SoundlyLimited (maxVel : ℚ) (stale : Prop) (request out : Double) : Prop where
  bounded : ∃ v, out = .num v ∧ |v| ≤ maxVel
  exact : ∀ v, request = .num v → |v| ≤ maxVel → ¬ stale → out = request
  sign : ∀ v, request = .num v → ¬ stale → ∃ v', out = .num v' ∧ SignType.sign v' = SignType.sign v
  rests : request = .nan ∨ stale → out = .num 0

theorem abs_clamp_le (hmax : 0 < maxVel) (v : ℚ) : |max (-maxVel) (min v maxVel)| ≤ maxVel := by
  rw [abs_le]
  refine ⟨le_max_left _ _, max_le (by linarith) (min_le_right _ _)⟩

theorem clamp_eq_self {v : ℚ} (hv : |v| ≤ maxVel) : max (-maxVel) (min v maxVel) = v := by
  obtain ⟨hlower, hupper⟩ := abs_le.mp hv
  rw [min_eq_left hupper, max_eq_right hlower]

theorem sign_clamp (hmax : 0 < maxVel) (v : ℚ) :
    SignType.sign (max (-maxVel) (min v maxVel)) = SignType.sign v := by
  rcases lt_trichotomy v 0 with hv | rfl | hv
  · have hclamp : max (-maxVel) (min v maxVel) < 0 :=
      max_lt (by linarith) (lt_of_le_of_lt (min_le_left _ _) hv)
    rw [sign_neg hclamp, sign_neg hv]
  · rw [clamp_eq_self (by simpa using hmax.le)]
  · have hclamp : 0 < max (-maxVel) (min v maxVel) :=
      lt_of_lt_of_le (lt_min hv hmax) (le_max_right _ _)
    rw [sign_pos hclamp, sign_pos hv]

/-- A number is limited soundly. -/
theorem soundlyLimited_num (hmax : 0 < maxVel) {stale : Prop} (hstale : ¬ stale) (v : ℚ) :
    SoundlyLimited maxVel stale (.num v) (limited maxVel (.num v : Double)) := by
  rw [limited_num hmax]
  refine ⟨⟨_, rfl, abs_clamp_le hmax v⟩, ?_, ?_, ?_⟩
  · intro v' heq hv' _
    obtain rfl := WithNan.num_inj.mp heq
    rw [clamp_eq_self hv']
  · intro v' heq _
    obtain rfl := WithNan.num_inj.mp heq
    exact ⟨_, rfl, sign_clamp hmax v⟩
  · rintro (h | h)
    · cases h
    · exact absurd h hstale

/-- Zero stays zero, whatever was asked for. -/
theorem soundlyLimited_stale (hmax : 0 < maxVel) {stale : Prop} (hstale : stale)
    (request : Double) :
    SoundlyLimited maxVel stale request (limited maxVel (.num 0 : Double)) := by
  have hzero : limited maxVel (.num 0 : Double) = .num 0 := by
    rw [limited_num hmax, clamp_eq_self (by simpa using hmax.le)]
  rw [hzero]
  refine ⟨⟨0, rfl, by simpa using hmax.le⟩, ?_, ?_, fun _ => rfl⟩
  · exact fun _ _ _ hfresh => absurd hstale hfresh
  · exact fun _ _ hfresh => absurd hstale hfresh

/-- What the limits make of a request is sound exactly if it is a number. -/
theorem soundlyLimited_iff (hmax : 0 < maxVel) {stale : Prop} (hstale : ¬ stale)
    (request : Double) :
    SoundlyLimited maxVel stale request (limited maxVel request) ↔ request ≠ .nan := by
  constructor
  · rintro h rfl
    have hzero := h.rests (.inl rfl)
    rw [limited_nan hmax, WithNan.num_inj] at hzero
    linarith
  · intro hnum
    obtain ⟨v, rfl⟩ := WithNan.exists_num hnum
    exact soundlyLimited_num hmax hstale v

/-- The parameters with which the kinematics are defined. -/
def ValidGeometry (p : Parameters) : Prop :=
  0 < p.wheelRadius ∧ 0 < p.wheelSeparation ∧ p.gearRatio ≠ 0

instance (p : Parameters) : Decidable (ValidGeometry p) := inferInstanceAs (Decidable (_ ∧ _))

/-- The message for a twist, in the order of the motors. -/
def motorCommand (p : Parameters) (v w : Double) : List Double :=
  if p.swapLr then [(inverseKinematics p v w).2, (inverseKinematics p v w).1]
  else [(inverseKinematics p v w).1, (inverseKinematics p v w).2]

/-- What is commanded at a tick is a twist whose components are soundly limited. -/
def SoundTick (p : Parameters) (now : Time) (s : BaseController Double) : Prop :=
  ∃ v w, boundedTarget p now s = (v, w) ∧ controlTimer p now s = motorCommand p v w ∧
    SoundlyLimited p.maxLinearVel (p.cmdVelTimeout < now - s.lastCmdVelTime) s.targetV v ∧
    SoundlyLimited p.maxAngularVel (p.cmdVelTimeout < now - s.lastCmdVelTime) s.targetW w

theorem controlTimer_of_valid (hgeometry : ValidGeometry p) (now : Time)
    (s : BaseController Double) :
    controlTimer p now s =
      motorCommand p (boundedTarget p now s).1 (boundedTarget p now s).2 := by
  have hvalid : ¬ (p.wheelRadius ≤ 0 ∨ p.gearRatio = 0) :=
    not_or.mpr ⟨hgeometry.1.not_ge, hgeometry.2.2⟩
  exact if_neg hvalid

/-- For every twist and every age of it, what `controlTimer` commands is soundly
limited exactly if the message is too old or none of its components is `nan`. -/
theorem limits_sound_iff (p : Parameters) (hgeometry : ValidGeometry p)
    (hlinear : 0 < p.maxLinearVel) (hangular : 0 < p.maxAngularVel) (s : BaseController Double)
    (sent now : Time) (linearX angularZ : Double) :
    SoundTick p now (cmdVelCallback sent s linearX angularZ) ↔
      p.cmdVelTimeout < now - sent ∨ (linearX ≠ .nan ∧ angularZ ≠ .nan) := by
  have hcommand := controlTimer_of_valid hgeometry now (cmdVelCallback sent s linearX angularZ)
  by_cases hstale : p.cmdVelTimeout < now - sent
  · have htarget : boundedTarget p now (cmdVelCallback sent s linearX angularZ) =
        (limited p.maxLinearVel (.num 0), limited p.maxAngularVel (.num 0)) := by
      unfold boundedTarget
      exact congrArg (fun t : Double × Double =>
        (limited p.maxLinearVel t.1, limited p.maxAngularVel t.2)) (if_pos hstale)
    rw [htarget] at hcommand
    refine iff_of_true ⟨_, _, htarget, hcommand, ?_, ?_⟩ (.inl hstale)
    · exact soundlyLimited_stale hlinear hstale _
    · exact soundlyLimited_stale hangular hstale _
  · have htarget : boundedTarget p now (cmdVelCallback sent s linearX angularZ) =
        (limited p.maxLinearVel linearX, limited p.maxAngularVel angularZ) := by
      unfold boundedTarget
      exact congrArg (fun t : Double × Double =>
        (limited p.maxLinearVel t.1, limited p.maxAngularVel t.2)) (if_neg hstale)
    rw [htarget] at hcommand
    have hv := soundlyLimited_iff hlinear hstale linearX
    have hw := soundlyLimited_iff hangular hstale angularZ
    rw [or_iff_right hstale, ← hv, ← hw]
    constructor
    · rintro ⟨v, w, hvw, -, hv, hw⟩
      obtain ⟨rfl, rfl⟩ := Prod.mk.inj (htarget.symm.trans hvw)
      exact ⟨hv, hw⟩
    · rintro ⟨hv, hw⟩
      exact ⟨_, _, htarget, hcommand, hv, hw⟩

/-- The defaults with both limits. -/
def limitedParameters : Parameters := { maxLinearVel := 1, maxAngularVel := 2 }

theorem limits_sound_iff_tooFast :
    SoundTick limitedParameters 1 (cmdVelCallback 1 BaseController.start (.num (-3)) (.num 2)) :=
  (limits_sound_iff limitedParameters (by decide +kernel) (by decide +kernel) (by decide +kernel)
    BaseController.start 1 1 (.num (-3)) (.num 2)).mpr (.inr ⟨nofun, nofun⟩)

/-- A request that is `nan` drives the base backwards at full speed. -/
theorem nan_drives_backwards :
    let s := cmdVelCallback 1 BaseController.start .nan (.num 0)
    boundedTarget limitedParameters 1 s = ((.num (-1), .num 0) : Double × Double) ∧
      ¬ SoundTick limitedParameters 1 s := by
  intro s
  have htarget : boundedTarget limitedParameters 1 s = ((.num (-1), .num 0) : Double × Double) := by
    decide +kernel
  refine ⟨htarget, ?_⟩
  rintro ⟨v, w, hvw, -, hv, -⟩
  obtain ⟨rfl, rfl⟩ := Prod.mk.inj (htarget.symm.trans hvw)
  have hzero : (WithNan.num (-1 : ℚ)) = .num 0 := hv.rests (.inl rfl)
  rw [WithNan.num_inj] at hzero
  linarith

end PolishingRobot.Base
