import Mathlib.Algebra.Order.Floor.Ring
import Mathlib.Data.Rat.Floor
import Mathlib.Tactic.Linarith
import Mathlib.Tactic.FieldSimp
import Mathlib.Tactic.Ring

/-!
# Truncation toward zero

A number is cut to the integer next to it on the side of zero. Scaling, cutting
and scaling back quantizes a number in steps of `1 / k`: less than a step is
lost, no magnitude grows, and no sign turns.
-/

namespace PolishingRobot.Numbers

variable {α : Type*} [Field α] [LinearOrder α]

/-- What holds of nonnegative numbers and survives a change of sign holds. -/
theorem nonneg_or_neg_induction [IsStrictOrderedRing α] {P : α → Prop}
    (hneg : ∀ x, P (-x) → P x) (hnonneg : ∀ x, 0 ≤ x → P x) (x : α) : P x := by
  rcases le_total 0 x with h | h
  · exact hnonneg x h
  · exact hneg x (hnonneg (-x) (neg_nonneg.mpr h))

variable [FloorRing α]

/-- The integer part, on the side of zero. -/
def towardZero (x : α) : ℤ := if 0 ≤ x then ⌊x⌋ else ⌈x⌉

theorem towardZero_of_nonneg {x : α} (h : 0 ≤ x) : towardZero x = ⌊x⌋ := if_pos h

variable [IsStrictOrderedRing α]

theorem towardZero_of_nonpos {x : α} (h : x ≤ 0) : towardZero x = ⌈x⌉ := by
  by_cases hx : 0 ≤ x
  · obtain rfl := le_antisymm h hx
    simp [towardZero]
  · exact if_neg hx

@[simp] theorem towardZero_neg (x : α) : towardZero (-x) = -towardZero x := by
  rcases le_total 0 x with h | h
  · rw [towardZero_of_nonneg h, towardZero_of_nonpos (neg_nonpos.mpr h), Int.ceil_neg]
  · rw [towardZero_of_nonpos h, towardZero_of_nonneg (neg_nonneg.mpr h), Int.floor_neg]

@[simp] theorem towardZero_intCast (i : ℤ) : towardZero (i : α) = i := by
  simp [towardZero]

/-- Less than one is cut off. -/
theorem abs_towardZero_sub_lt (x : α) : |(towardZero x : α) - x| < 1 := by
  induction x using nonneg_or_neg_induction with
  | hneg x ih => rwa [towardZero_neg, Int.cast_neg, neg_sub_neg, abs_sub_comm] at ih
  | hnonneg x h =>
      rw [towardZero_of_nonneg h, abs_lt]
      have hlower := Int.lt_floor_add_one x
      have hupper := Int.floor_le x
      constructor <;> linarith

/-- The magnitude does not grow. -/
theorem abs_towardZero_le (x : α) : |(towardZero x : α)| ≤ |x| := by
  induction x using nonneg_or_neg_induction with
  | hneg x ih => rwa [towardZero_neg, Int.cast_neg, abs_neg, abs_neg] at ih
  | hnonneg x h =>
      have hfloor : (0 : α) ≤ (⌊x⌋ : α) := Int.cast_nonneg (Int.floor_nonneg.mpr h)
      rw [towardZero_of_nonneg h, abs_of_nonneg hfloor, abs_of_nonneg h]
      exact Int.floor_le x

/-- The sign does not turn. -/
theorem towardZero_mul_nonneg (x : α) : 0 ≤ (towardZero x : α) * x := by
  induction x using nonneg_or_neg_induction with
  | hneg x ih => rwa [towardZero_neg, Int.cast_neg, neg_mul_neg] at ih
  | hnonneg x h =>
      rw [towardZero_of_nonneg h]
      exact mul_nonneg (Int.cast_nonneg (Int.floor_nonneg.mpr h)) h

theorem towardZero_mono {x y : α} (h : x ≤ y) : towardZero x ≤ towardZero y := by
  rcases le_total 0 x with hx | hx
  · rw [towardZero_of_nonneg hx, towardZero_of_nonneg (hx.trans h)]
    exact Int.floor_le_floor h
  rcases le_total 0 y with hy | hy
  · calc towardZero x = ⌈x⌉ := towardZero_of_nonpos hx
      _ ≤ 0 := Int.ceil_le.mpr (by simpa using hx)
      _ ≤ ⌊y⌋ := Int.floor_nonneg.mpr hy
      _ = towardZero y := (towardZero_of_nonneg hy).symm
  · rw [towardZero_of_nonpos hx, towardZero_of_nonpos hy]
    exact Int.ceil_le_ceil h

/-- The integer part lies in a range of integers up to less than one beyond it. -/
theorem towardZero_mem_iff {n : ℤ} (hn : 0 < n) (x : α) :
    (-n ≤ towardZero x ∧ towardZero x < n) ↔ (-n - 1 : α) < x ∧ x < n := by
  have hn' : (0 : α) < n := Int.cast_pos.mpr hn
  rcases le_total 0 x with hx | hx
  · have hfloor : 0 ≤ ⌊x⌋ := Int.floor_nonneg.mpr hx
    rw [towardZero_of_nonneg hx, Int.floor_lt]
    exact ⟨fun h => ⟨by linarith, h.2⟩, fun h => ⟨by omega, h.2⟩⟩
  · have hceil : ⌈x⌉ ≤ 0 := Int.ceil_le.mpr (by simpa using hx)
    have hlow : -n ≤ ⌈x⌉ ↔ (-n - 1 : α) < x := by
      rw [← Int.sub_one_lt_iff, Int.lt_ceil]
      simp
    rw [towardZero_of_nonpos hx, hlow]
    exact ⟨fun h => ⟨h.1, by linarith⟩, fun h => ⟨h.1, by omega⟩⟩

/-- On the rationals, the truncating division of the two parts. -/
theorem towardZero_rat (q : ℚ) : q.num.tdiv q.den = towardZero q := by
  induction q using nonneg_or_neg_induction with
  | hneg q ih =>
      rw [towardZero_neg, Rat.neg_num, Rat.neg_den, Int.neg_tdiv] at ih
      exact neg_injective ih
  | hnonneg q h =>
      rw [towardZero_of_nonneg h, Rat.floor_def']
      exact Int.tdiv_eq_ediv_of_nonneg (Rat.num_nonneg.mpr h)

/-- The number in steps of `1 / k`. -/
def quantize (k x : α) : α := towardZero (x * k) / k

variable {k : α}

theorem quantize_neg (k x : α) : quantize k (-x) = -quantize k x := by
  rw [quantize, quantize, neg_mul, towardZero_neg, Int.cast_neg, neg_div]

/-- A sign passes through. -/
theorem quantize_sign_mul {s : α} (hs : s = 1 ∨ s = -1) (k x : α) :
    quantize k (s * x) = s * quantize k x := by
  rcases hs with rfl | rfl
  · rw [one_mul, one_mul]
  · rw [neg_one_mul, neg_one_mul, quantize_neg]

theorem abs_quantize_sub_lt (hk : 0 < k) (x : α) : |quantize k x - x| < 1 / k := by
  have hscaled : quantize k x - x = (towardZero (x * k) - x * k) / k := by
    rw [quantize]
    field_simp
  rw [hscaled, abs_div, abs_of_pos hk]
  exact div_lt_div_of_pos_right (abs_towardZero_sub_lt (x * k)) hk

theorem abs_quantize_le (hk : 0 < k) (x : α) : |quantize k x| ≤ |x| := by
  rw [quantize, abs_div, abs_of_pos hk, div_le_iff₀ hk]
  calc |(towardZero (x * k) : α)| ≤ |x * k| := abs_towardZero_le (x * k)
    _ = |x| * k := by rw [abs_mul, abs_of_pos hk]

theorem quantize_mul_nonneg (hk : 0 < k) (x : α) : 0 ≤ quantize k x * x := by
  have hcut := towardZero_mul_nonneg (x * k)
  have hpull : quantize k x * x = towardZero (x * k) * (x * k) / (k * k) := by
    rw [quantize]
    field_simp
  rw [hpull]
  exact div_nonneg hcut (mul_pos hk hk).le

/-- Nothing is lost of a multiple of the step. -/
theorem quantize_eq_self (hk : 0 < k) {x : α} {i : ℤ} (h : x * k = i) : quantize k x = x := by
  rw [quantize, h, towardZero_intCast, ← h]
  field_simp

end PolishingRobot.Numbers
