import Mathlib.Data.List.Basic

/-!
# Occurrences of a word

The occurrences of a word in a list, found from the left and without overlaps, and
what is left of the list without them.
-/

namespace PolishingRobot.Lists

variable {α : Type} [DecidableEq α] (word : List α)

/-- The number of occurrences, behind `skip` elements of the last one. -/
def occurrencesFrom : ℕ → List α → ℕ
  | _, [] => 0
  | skip + 1, _ :: xs => occurrencesFrom skip xs
  | 0, x :: xs =>
      if word <+: x :: xs then occurrencesFrom (word.length - 1) xs + 1
      else occurrencesFrom 0 xs

/-- What is outside of the occurrences. -/
def outsideFrom : ℕ → List α → List α
  | _, [] => []
  | skip + 1, _ :: xs => outsideFrom skip xs
  | 0, x :: xs =>
      if word <+: x :: xs then outsideFrom (word.length - 1) xs else x :: outsideFrom 0 xs

def occurrences (xs : List α) : ℕ := occurrencesFrom word 0 xs

def outside (xs : List α) : List α := outsideFrom word 0 xs

variable {word} {x : α} {xs ys : List α}

@[simp] theorem occurrences_nil : occurrences word [] = 0 := rfl

@[simp] theorem outside_nil : outside word [] = [] := rfl

theorem skip_append (k : ℕ) (h : xs.length = k) :
    occurrencesFrom word k (xs ++ ys) = occurrences word ys ∧
      outsideFrom word k (xs ++ ys) = outside word ys := by
  induction xs generalizing k with
  | nil =>
      obtain rfl : 0 = k := h
      exact ⟨rfl, rfl⟩
  | cons x xs ih =>
      obtain rfl : xs.length + 1 = k := h
      exact ih xs.length rfl

/-- A word in front counts once, and is left out. -/
theorem occurrences_word (h : word ≠ []) :
    occurrences word (word ++ ys) = occurrences word ys + 1 ∧
      outside word (word ++ ys) = outside word ys := by
  cases word with
  | nil => exact absurd rfl h
  | cons a as =>
      have hprefix : (a :: as) <+: a :: (as ++ ys) := List.prefix_append (a :: as) ys
      obtain ⟨hcount, hrest⟩ :
          occurrencesFrom (a :: as) as.length (as ++ ys) = occurrences (a :: as) ys ∧
            outsideFrom (a :: as) as.length (as ++ ys) = outside (a :: as) ys :=
        skip_append as.length rfl
      constructor
      · calc occurrences (a :: as) (a :: as ++ ys)
            = occurrencesFrom (a :: as) as.length (as ++ ys) + 1 := if_pos hprefix
          _ = occurrences (a :: as) ys + 1 := by rw [hcount]
      · calc outside (a :: as) (a :: as ++ ys)
            = outsideFrom (a :: as) as.length (as ++ ys) := if_pos hprefix
          _ = outside (a :: as) ys := hrest

/-- An element that begins no occurrence. -/
theorem occurrences_cons (h : ¬ word <+: x :: xs) :
    occurrences word (x :: xs) = occurrences word xs ∧
      outside word (x :: xs) = x :: outside word xs :=
  ⟨if_neg h, if_neg h⟩

/-- An element other than the first of the word. -/
theorem occurrences_cons_of_ne {a : α} (as xs : List α) (h : x ≠ a) :
    occurrences (a :: as) (x :: xs) = occurrences (a :: as) xs ∧
      outside (a :: as) (x :: xs) = x :: outside (a :: as) xs := by
  apply occurrences_cons
  rintro ⟨rest, hrest⟩
  exact h (List.cons.inj hrest).1.symm

/-- A question that no element of the word answers is about the elements outside. -/
theorem filter_outsideFrom {p : α → Bool} (hne : word ≠ []) (hword : ∀ a ∈ word, p a = false)
    (skip : ℕ) (xs : List α) (hskip : ∀ a ∈ xs.take skip, p a = false) :
    (outsideFrom word skip xs).filter p = xs.filter p := by
  induction xs generalizing skip with
  | nil => cases skip <;> rfl
  | cons x xs ih =>
      cases skip with
      | succ k =>
          have hx : ¬ p x = true := by simpa using hskip x (by simp)
          rw [List.filter_cons_of_neg hx]
          apply ih
          intro a ha
          exact hskip a (by simp [ha])
      | zero =>
          rw [outsideFrom]
          split
          · rename_i hprefix
            obtain ⟨rest, hrest⟩ := hprefix
            cases word with
            | nil => exact absurd rfl hne
            | cons b bs =>
                obtain ⟨rfl, rfl⟩ := List.cons.inj hrest
                have hb : ¬ p b = true := by simpa using hword b (by simp)
                rw [List.filter_cons_of_neg hb]
                apply ih
                intro a ha
                have hmem : a ∈ bs := by simpa using ha
                exact hword a (List.mem_cons_of_mem _ hmem)
          · rw [List.filter_cons, List.filter_cons, ih 0 (by simp)]

theorem filter_outside {p : α → Bool} (hne : word ≠ []) (hword : ∀ a ∈ word, p a = false)
    (xs : List α) : (outside word xs).filter p = xs.filter p :=
  filter_outsideFrom hne hword 0 xs (by simp)

end PolishingRobot.Lists
