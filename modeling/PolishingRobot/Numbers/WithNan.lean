import Mathlib.Algebra.Order.Field.Basic
import Mathlib.Data.Rat.Cast.Defs

/-!
# Numbers and one value that is none

Floating-point arithmetic without its rounding: a result is a number or `nan`.
Every operation on `nan` gives `nan`, and so does a division by zero. A
comparison with `nan` is false, so the order is not total and the two ways to
write a minimum differ.
-/

namespace PolishingRobot.Numbers

/-- A number, or none. -/
inductive WithNan (α : Type*) where
  | num (value : α)
  | nan
  deriving DecidableEq, Repr

namespace WithNan

variable {α : Type*}

/-- An operation on two numbers; `nan` goes through. -/
def map₂ (f : α → α → α) : WithNan α → WithNan α → WithNan α
  | num a, num b => num (f a b)
  | _, _ => nan

instance [Add α] : Add (WithNan α) := ⟨map₂ (· + ·)⟩

instance [Sub α] : Sub (WithNan α) := ⟨map₂ (· - ·)⟩

instance [Mul α] : Mul (WithNan α) := ⟨map₂ (· * ·)⟩

instance [Neg α] : Neg (WithNan α) where
  neg
    | num a => num (-a)
    | nan => nan

instance [Div α] [Zero α] [DecidableEq α] : Div (WithNan α) where
  div
    | num a, num b => if b = 0 then nan else num (a / b)
    | _, _ => nan

instance [RatCast α] : RatCast (WithNan α) := ⟨fun q => num q⟩

instance [LT α] : LT (WithNan α) where
  lt
    | num a, num b => a < b
    | _, _ => False

instance [LT α] [DecidableLT α] : DecidableLT (WithNan α)
  | num a, num b => inferInstanceAs (Decidable (a < b))
  | num _, nan => isFalse id
  | nan, num _ => isFalse id
  | nan, nan => isFalse id

section Numbers

variable (a b : α)

@[simp] theorem num_inj {a b : α} : num a = num b ↔ a = b := ⟨num.inj, congrArg num⟩

@[simp] theorem num_ne_nan : num a ≠ nan := nofun

theorem exists_num {x : WithNan α} (h : x ≠ nan) : ∃ a, x = num a := by
  cases x with
  | num a => exact ⟨a, rfl⟩
  | nan => exact absurd rfl h

@[simp] theorem num_add_num [Add α] : num a + num b = num (a + b) := rfl

@[simp] theorem num_sub_num [Sub α] : num a - num b = num (a - b) := rfl

@[simp] theorem num_mul_num [Mul α] : num a * num b = num (a * b) := rfl

@[simp] theorem neg_num [Neg α] : -num a = num (-a) := rfl

@[simp] theorem ratCast_eq [RatCast α] (q : ℚ) : (q : WithNan α) = num (q : α) := rfl

@[simp] theorem num_lt_num [LT α] {a b : α} : num a < num b ↔ a < b := Iff.rfl

end Numbers

section Nan

variable (x : WithNan α)

@[simp] theorem nan_not_lt [LT α] : ¬ nan < x := by
  cases x <;> exact id

@[simp] theorem not_lt_nan [LT α] : ¬ x < nan := by
  cases x <;> exact id

@[simp] theorem nan_add [Add α] : nan + x = nan := rfl

@[simp] theorem nan_mul [Mul α] : nan * x = nan := rfl

@[simp] theorem add_nan [Add α] : x + nan = nan := by
  cases x <;> rfl

@[simp] theorem mul_nan [Mul α] : x * nan = nan := by
  cases x <;> rfl

end Nan

end WithNan

end PolishingRobot.Numbers
