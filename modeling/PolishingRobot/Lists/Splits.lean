import Mathlib.Data.List.Induction

/-!
# Lists that are split at an element

The parts on both sides of an element are determined when the element is the last
one of its kind.
-/

namespace PolishingRobot.Lists

variable {α : Type*}

/-- A list is split in one way at the last element with a property. -/
theorem split_last {p : α → Prop} {xs xs' ys ys' : List α} {a a' : α}
    (h : xs ++ a :: ys = xs' ++ a' :: ys') (ha : p a) (ha' : p a') (hys : ∀ b ∈ ys, ¬ p b)
    (hys' : ∀ b ∈ ys', ¬ p b) : xs = xs' ∧ a = a' ∧ ys = ys' := by
  rcases List.append_eq_append_iff.mp h with ⟨zs, rfl, hzs⟩ | ⟨zs, rfl, hzs⟩
  · cases zs with
    | nil =>
        obtain ⟨rfl, rfl⟩ := List.cons.inj hzs
        exact ⟨(List.append_nil xs).symm, rfl, rfl⟩
    | cons z zs =>
        obtain ⟨-, rfl⟩ := List.cons.inj hzs
        exact absurd ha' (hys a' (by simp))
  · cases zs with
    | nil =>
        obtain ⟨rfl, rfl⟩ := List.cons.inj hzs
        exact ⟨List.append_nil xs', rfl, rfl⟩
    | cons z zs =>
        obtain ⟨-, rfl⟩ := List.cons.inj hzs
        exact absurd ha (hys' a (by simp))

/-- An element of a list with one more at its end is that one, or was there before. -/
theorem split_append_singleton {es p q : List α} {e m : α} (h : es ++ [e] = p ++ m :: q) :
    p = es ∧ m = e ∧ q = [] ∨ ∃ q', q = q' ++ [e] ∧ es = p ++ m :: q' := by
  rcases List.eq_nil_or_concat q with rfl | ⟨q', e', rfl⟩
  · obtain ⟨hp, hm⟩ := List.append_inj' h rfl
    exact .inl ⟨hp.symm, (List.cons.inj hm).1.symm, rfl⟩
  · rw [List.concat_eq_append, ← List.cons_append, ← List.append_assoc] at h
    obtain ⟨hes, he⟩ := List.append_inj' h rfl
    obtain rfl : e = e' := (List.cons.inj he).1
    exact .inr ⟨q', List.concat_eq_append, hes⟩

end PolishingRobot.Lists
