import Mathlib.Algebra.Order.Group.Int
import Mathlib.Algebra.Order.Ring.Abs
import Mathlib.Data.Nat.Cast.Order.Ring
import Mathlib.Data.Int.Order.Basic
import Mathlib.Tactic.Ring

/-!
# Integers in machine words

A word holds the integers from `-h` to `h - 1`. An integer outside saturates at
the end of the range, or wraps modulo `2 * h`. Far values come near when their
difference wraps.
-/

namespace PolishingRobot.Numbers

variable {h : ℕ} {v a b tol : ℤ}

/-- The integer fits the word. -/
def InWord (h : ℕ) (v : ℤ) : Prop := -h ≤ v ∧ v < h

/-- The integer of the word that is next to `v`. -/
def saturate (h : ℕ) (v : ℤ) : ℤ := max (-h) (min (h - 1) v)

instance (h : ℕ) (v : ℤ) : Decidable (InWord h v) := inferInstanceAs (Decidable (_ ∧ _))

theorem saturate_of_inWord (hv : InWord h v) : saturate h v = v := by
  obtain ⟨hlow, hhigh⟩ := hv
  unfold saturate
  omega

theorem saturate_of_ge (hpos : 0 < h) (hv : (h : ℤ) ≤ v) : saturate h v = h - 1 := by
  unfold saturate
  omega

theorem saturate_of_lt (hv : v < -h) : saturate h v = -h := by
  unfold saturate
  omega

theorem inWord_saturate (hpos : 0 < h) (v : ℤ) : InWord h (saturate h v) := by
  unfold saturate InWord
  omega

/-- Saturation keeps the sign in words of at least two bits. -/
theorem sign_saturate (hh : 2 ≤ h) (v : ℤ) : (saturate h v).sign = v.sign := by
  rcases lt_trichotomy v 0 with hv | rfl | hv
  · rw [Int.sign_eq_neg_one_of_neg hv, Int.sign_eq_neg_one_of_neg]
    unfold saturate
    omega
  · rw [saturate_of_inWord ⟨by omega, by omega⟩]
  · rw [Int.sign_eq_one_of_pos hv, Int.sign_eq_one_of_pos]
    unfold saturate
    omega

theorem bmod_of_inWord (hv : InWord h v) : v.bmod (2 * h) = v := by
  obtain ⟨hlow, hhigh⟩ := hv
  rw [Int.bmod_eq_iff (by omega)]
  refine ⟨by omega, by omega, ?_⟩
  simp

/-- The wrapped integer is the remainder, or lies a whole turn below it. -/
theorem bmod_cases (h : ℕ) (v : ℤ) :
    (v.bmod (2 * h) = v % (2 * h) ∧ v % (2 * h) < h) ∨
      (v.bmod (2 * h) = v % (2 * h) - 2 * h ∧ h ≤ v % (2 * h)) := by
  have hcast : ((2 * h : ℕ) : ℤ) = 2 * h := by push_cast; rfl
  rcases lt_or_ge (v % (2 * h)) h with hr | hr
  · left
    rw [Int.bmod_eq_emod_of_lt (by rw [hcast]; omega), hcast]
    exact ⟨rfl, hr⟩
  · right
    rw [Int.bmod_neg _ _ (by rw [hcast]; omega), hcast]
    exact ⟨rfl, hr⟩

/-- Wrapping saturates what fits, and outside the integers that happen to meet
the end of the range. -/
theorem bmod_eq_saturate_iff (hpos : 0 < h) :
    v.bmod (2 * h) = saturate h v ↔
      InWord h v ∨ (h ≤ v ∧ v % (2 * h) = h - 1) ∨ (v < -h ∧ v % (2 * h) = h) := by
  by_cases hv : InWord h v
  · simp [hv, bmod_of_inWord hv, saturate_of_inWord hv]
  · have hnonneg : 0 ≤ v % (2 * h) := Int.emod_nonneg v (by omega)
    have hlt : v % (2 * h) < 2 * h := Int.emod_lt_of_pos v (by omega)
    simp only [hv, false_or]
    rcases lt_or_ge v h with hlow | hhigh
    · have hbelow : v < -h := by
        by_contra hge
        exact hv ⟨not_lt.mp hge, hlow⟩
      rw [saturate_of_lt hbelow]
      rcases bmod_cases h v with ⟨heq, hr⟩ | ⟨heq, hr⟩ <;> omega
    · rw [saturate_of_ge hpos hhigh]
      rcases bmod_cases h v with ⟨heq, hr⟩ | ⟨heq, hr⟩ <;> omega

/-- The distance of two integers as words compute it: the difference and its
absolute value wrap. -/
def wrapDistance (h : ℕ) (a b : ℤ) : ℤ := |(a - b).bmod (2 * h)|.bmod (2 * h)

theorem wrapDistance_of_lt (hd : |a - b| < h) : wrapDistance h a b = |a - b| := by
  obtain ⟨hlow, hhigh⟩ := abs_lt.mp hd
  rw [wrapDistance, bmod_of_inWord ⟨by omega, hhigh⟩, bmod_of_inWord]
  exact ⟨by have := abs_nonneg (a - b); omega, hd⟩

/-- The smallest distance that a word cannot hold becomes the least word. -/
theorem wrapDistance_of_eq (hd : |a - b| = h) : wrapDistance h a b = -h := by
  have hself : (h : ℤ).bmod (2 * h) = -h := Int.bmod_eq_neg (by omega) (by push_cast; rfl)
  have hdiff : (a - b).bmod (2 * h) = -h := by
    rcases (abs_eq (by omega)).mp hd with hpos | hneg
    · rw [hpos, hself]
    · rw [hneg]
      by_cases hzero : h = 0
      · simp [hzero]
      · exact bmod_of_inWord ⟨le_refl _, by omega⟩
  rw [wrapDistance, hdiff, abs_neg, Nat.abs_cast, hself]

/-- Farther distances come back. -/
theorem wrapDistance_of_gt (hlow : h < |a - b|) (hhigh : |a - b| < 2 * h) :
    wrapDistance h a b = 2 * h - |a - b| := by
  have hdiff : |(a - b).bmod (2 * h)| = 2 * h - |a - b| := by
    rcases le_total 0 (a - b) with hd | hd
    · rw [abs_of_nonneg hd] at hlow hhigh ⊢
      have hbmod : (a - b).bmod (2 * h) = a - b - 2 * h := by
        rw [Int.bmod_eq_iff (by omega)]
        exact ⟨by omega, by omega, -1, by push_cast; ring⟩
      rw [hbmod, abs_of_nonpos (by omega)]
      ring
    · rw [abs_of_nonpos hd] at hlow hhigh ⊢
      have hbmod : (a - b).bmod (2 * h) = a - b + 2 * h := by
        rw [Int.bmod_eq_iff (by omega)]
        exact ⟨by omega, by omega, 1, by push_cast; ring⟩
      rw [hbmod, abs_of_nonneg (by omega)]
      ring
  rw [wrapDistance, hdiff, bmod_of_inWord ⟨by omega, by omega⟩]

/-- A comparison of the wrapped distance is right for distances that fit a word,
and for those that come back beyond the tolerance. -/
theorem wrapDistance_le_iff (hab : |a - b| < 2 * h) (hlow : -h ≤ tol) (hhigh : tol < h) :
    (wrapDistance h a b ≤ tol ↔ |a - b| ≤ tol) ↔
      |a - b| < h ∨ (h < |a - b| ∧ tol < 2 * h - |a - b|) := by
  rcases lt_trichotomy |a - b| (h : ℤ) with hd | hd | hd
  · simp [wrapDistance_of_lt hd, hd]
  · rw [wrapDistance_of_eq hd, hd]
    constructor
    · intro hsame
      have := hsame.mp hlow
      omega
    · rintro (hlt | ⟨hlt, -⟩) <;> exact absurd hlt (lt_irrefl _)
  · rw [wrapDistance_of_gt hd hab]
    constructor
    · intro hsame
      right
      refine ⟨hd, ?_⟩
      by_contra hnear
      have := hsame.mp (not_lt.mp hnear)
      omega
    · rintro (hlt | ⟨-, hfar⟩)
      · omega
      · constructor <;> intro hle <;> omega

/-- A distance of 2 ^ 32 - 1 is one step for 32-bit words. -/
example : wrapDistance (2 ^ 31) (2 ^ 31 - 1) (-2 ^ 31) = 1 := by decide

end PolishingRobot.Numbers
