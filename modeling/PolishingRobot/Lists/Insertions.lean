import Mathlib.Data.List.Induction
import Mathlib.Data.List.Sort

/-!
# Insertions into a list

Blocks are inserted into a list at positions of the original list, the last
position first. Every block lands at its position, and blocks of one position
end up in reverse order.
-/

namespace PolishingRobot.Lists

variable {α β : Type*}

/-- A block and the position in front of which it is inserted. -/
structure Insertion (α : Type*) where
  position : Nat
  block : List α

def Insertion.map (f : α → β) (i : Insertion α) : Insertion β := ⟨i.position, i.block.map f⟩

def splice (xs : List α) (i : Insertion α) : List α :=
  xs.take i.position ++ i.block ++ xs.drop i.position

/-- The insertions by descending position; those of one position keep their order. -/
def lastFirst (is : List (Insertion α)) : List (Insertion α) :=
  is.insertionSort fun i j => j.position ≤ i.position

def insertAll (xs : List α) (is : List (Insertion α)) : List α := (lastFirst is).foldl splice xs

/-- What is inserted at a position. -/
def gap (is : List (Insertion α)) (p : Nat) : List α :=
  (is.filter (·.position = p)).reverse.flatMap (·.block)

/-- The elements from position `p` on, each followed by what the next gap holds. -/
def weave (g : Nat → List α) : Nat → List α → List α
  | _, [] => []
  | p, x :: xs => x :: (g (p + 1) ++ weave g (p + 1) xs)

section Weave

variable {g g' : Nat → List α} {p : Nat} {xs ys : List α}

@[simp] theorem weave_nil (g : Nat → List α) (p : Nat) : weave g p [] = [] := rfl

theorem weave_append (g : Nat → List α) (p : Nat) (xs ys : List α) :
    weave g p (xs ++ ys) = weave g p xs ++ weave g (p + xs.length) ys := by
  induction xs generalizing p with
  | nil => rfl
  | cons x xs ih =>
      have hlength : p + (x :: xs).length = p + 1 + xs.length := by
        rw [List.length_cons]
        omega
      rw [List.cons_append, weave, ih, weave, List.cons_append, List.append_assoc, hlength]

theorem weave_congr (h : ∀ q, p < q → q ≤ p + xs.length → g q = g' q) :
    weave g p xs = weave g' p xs := by
  induction xs generalizing p with
  | nil => rfl
  | cons x xs ih =>
      rw [List.length_cons] at h
      rw [weave, weave, h (p + 1) (by omega) (by omega), ih]
      intro q hq hq'
      exact h q (by omega) (by omega)

theorem weave_empty (xs : List α) (p : Nat) : weave (fun _ => []) p xs = xs := by
  induction xs generalizing p with
  | nil => rfl
  | cons x xs ih => rw [weave, ih, List.nil_append]

/-- Gaps without content leave the list alone. -/
theorem weave_quiet (h : ∀ q, p < q → q ≤ p + xs.length → g q = []) : weave g p xs = xs := by
  rw [weave_congr h, weave_empty]

/-- Only the last gap has content. -/
theorem weave_last (hxs : xs ≠ []) (h : ∀ q, p < q → q < p + xs.length → g q = []) :
    weave g p xs = xs ++ g (p + xs.length) := by
  obtain ⟨init, last, rfl⟩ := (List.eq_nil_or_concat' xs).resolve_left hxs
  rw [List.length_append, List.length_singleton] at h ⊢
  have hinit : weave g p init = init := by
    apply weave_quiet
    intro q hq hq'
    exact h q hq (by omega)
  rw [weave_append, hinit, weave, weave_nil, List.append_nil, List.append_assoc,
    List.singleton_append, Nat.add_assoc]

/-- A splice in front of which no gap has content fills its own gap. -/
theorem splice_weave (i : Insertion α) (hi : i.position ≤ xs.length)
    (hbefore : ∀ q < i.position, g q = []) (hsame : ∀ q, q ≠ i.position → g' q = g q)
    (hat : g' i.position = i.block ++ g i.position) :
    splice (g 0 ++ weave g 0 xs) i = g' 0 ++ weave g' 0 xs := by
  obtain ⟨ys, zs, rfl, hlength⟩ : ∃ ys zs, xs = ys ++ zs ∧ ys.length = i.position :=
    ⟨xs.take i.position, xs.drop i.position, by simp, by simpa using hi⟩
  have htail : weave g' i.position zs = weave g i.position zs := by
    apply weave_congr
    intro q hq _
    exact hsame q (by omega)
  rw [weave_append, weave_append, hlength, Nat.zero_add, htail]
  rcases Nat.eq_zero_or_pos i.position with hzero | hpos
  · obtain rfl : ys = [] := List.length_eq_zero_iff.mp (hlength.trans hzero)
    rw [hzero] at hat
    simp [splice, hzero, hat]
  · have hys : ys ≠ [] := by
      rintro rfl
      rw [List.length_nil] at hlength
      omega
    have hleft : weave g 0 ys = ys ++ g i.position := by
      rw [weave_last hys, Nat.zero_add, hlength]
      intro q _ hq
      exact hbefore q (by omega)
    have hleft' : weave g' 0 ys = ys ++ (i.block ++ g i.position) := by
      rw [weave_last hys, Nat.zero_add, hlength, hat]
      intro q _ hq
      rw [hsame q (by omega)]
      exact hbefore q (by omega)
    have hfirst : g' 0 = [] := by
      rw [hsame 0 (by omega)]
      exact hbefore 0 hpos
    rw [hleft, hleft', hbefore 0 hpos, hfirst, List.nil_append, List.nil_append,
      List.append_assoc, List.append_assoc, List.append_assoc, splice, ← hlength,
      List.take_left, List.drop_left]
    simp only [List.append_assoc]

end Weave

section Insertions

variable {is : List (Insertion α)} {xs : List α}

theorem gap_append_singleton (is : List (Insertion α)) (i : Insertion α) (p : Nat) :
    gap (is ++ [i]) p = if i.position = p then i.block ++ gap is p else gap is p := by
  by_cases h : i.position = p
  · simp [gap, List.filter_append, h]
  · simp [gap, List.filter_append, h]

theorem gap_eq_nil {p : Nat} (h : ∀ i ∈ is, i.position ≠ p) : gap is p = [] := by
  have hnone : is.filter (·.position = p) = [] := by
    rw [List.filter_eq_nil_iff]
    intro i hi heq
    exact h i hi (by simpa using heq)
  rw [gap, hnone]
  rfl

theorem foldl_splice (hdescending : is.Pairwise fun i j => j.position ≤ i.position)
    (hbound : ∀ i ∈ is, i.position ≤ xs.length) :
    is.foldl splice xs = gap is 0 ++ weave (gap is) 0 xs := by
  induction is using List.reverseRecOn with
  | nil => exact (weave_empty xs 0).symm
  | append_singleton is i ih =>
      obtain ⟨his, -, hlast⟩ := List.pairwise_append.mp hdescending
      rw [List.foldl_append, List.foldl_cons, List.foldl_nil,
        ih his fun j hj => hbound j (List.mem_append_left _ hj)]
      apply splice_weave i (hbound i (by simp))
      · intro q hq
        apply gap_eq_nil
        intro j hj heq
        have := hlast j hj i (List.mem_singleton_self i)
        omega
      · intro q hq
        rw [gap_append_singleton, if_neg (Ne.symm hq)]
      · rw [gap_append_singleton, if_pos rfl]

/-- The insertions of one position keep their order when sorted. -/
theorem filter_lastFirst (is : List (Insertion α)) (p : Nat) :
    (lastFirst is).filter (·.position = p) = is.filter (·.position = p) := by
  have hperm : (lastFirst is).Perm is := List.perm_insertionSort _ is
  have hequal : (is.filter (·.position = p)).Pairwise fun i j => j.position ≤ i.position := by
    apply List.Pairwise.imp_of_mem (R := fun _ _ => True)
    · intro i j hi hj _
      have hi := (List.mem_filter.mp hi).2
      have hj := (List.mem_filter.mp hj).2
      rw [decide_eq_true_eq] at hi hj
      omega
    · exact List.pairwise_of_forall fun _ _ => trivial
  have hsub : (is.filter (·.position = p)).Sublist (lastFirst is) :=
    List.sublist_insertionSort hequal List.filter_sublist
  have hsub' := hsub.filter (·.position = p)
  rw [List.filter_filter] at hsub'
  simp only [Bool.and_self] at hsub'
  exact (hsub'.eq_of_length (hperm.filter _).length_eq.symm).symm

/-- All insertions land at their positions. -/
theorem insertAll_eq (hbound : ∀ i ∈ is, i.position ≤ xs.length) :
    insertAll xs is = gap is 0 ++ weave (gap is) 0 xs := by
  have hgap : gap (lastFirst is) = gap is := by
    funext p
    rw [gap, gap, filter_lastFirst]
  have hperm : (lastFirst is).Perm is := List.perm_insertionSort _ is
  rw [insertAll, foldl_splice, hgap]
  · exact List.pairwise_insertionSort _ is
  · intro i hi
    exact hbound i (hperm.mem_iff.mp hi)

/-- What is inserted in front of the end of a list with `n` elements. -/
def gapBefore (is : List (Insertion α)) (n p : Nat) : List α := if p < n then gap is p else []

/-- What is inserted behind the last element is at the end. -/
theorem insertAll_last (hbound : ∀ i ∈ is, i.position ≤ xs.length) :
    insertAll xs is = gapBefore is xs.length 0 ++ weave (gapBefore is xs.length) 0 xs ++
      gap is xs.length := by
  rw [insertAll_eq hbound]
  rcases List.eq_nil_or_concat' xs with rfl | ⟨init, last, rfl⟩
  · simp [gapBefore]
  · have hlength : (init ++ [last]).length = init.length + 1 := by simp
    have hfirst : gapBefore is (init.length + 1) 0 = gap is 0 := if_pos (Nat.zero_lt_succ _)
    have hend : gapBefore is (init.length + 1) (init.length + 1) = [] := if_neg (Nat.lt_irrefl _)
    have hinit : weave (gap is) 0 init = weave (gapBefore is (init.length + 1)) 0 init := by
      apply weave_congr
      intro q _ hq
      exact (if_pos (by omega)).symm
    rw [hlength, hfirst, weave_append, weave_append, hinit, Nat.zero_add]
    simp [weave, hend]

/-- Insertions behind the last element. -/
theorem insertAll_end (h : ∀ i ∈ is, i.position = xs.length) :
    insertAll xs is = xs ++ gap is xs.length := by
  rw [insertAll_eq fun i hi => (h i hi).le]
  by_cases hxs : xs = []
  · rw [hxs, weave_nil, List.append_nil]
    rfl
  · have hlength : xs.length ≠ 0 := by simpa using hxs
    have hfirst : gap is 0 = [] := by
      apply gap_eq_nil
      intro i hi hzero
      exact hlength ((h i hi).symm.trans hzero)
    rw [hfirst, List.nil_append, weave_last hxs, Nat.zero_add]
    intro q _ hq
    apply gap_eq_nil
    intro i hi heq
    have := h i hi
    omega

theorem mem_splice {i : Insertion α} {x : α} : x ∈ splice xs i ↔ x ∈ xs ∨ x ∈ i.block := by
  have hxs : x ∈ xs ↔ x ∈ xs.take i.position ∨ x ∈ xs.drop i.position := by
    rw [← List.mem_append, List.take_append_drop]
  rw [splice, List.mem_append, List.mem_append, hxs]
  tauto

/-- Everything inserted and nothing else is added. -/
theorem mem_insertAll {x : α} : x ∈ insertAll xs is ↔ x ∈ xs ∨ ∃ i ∈ is, x ∈ i.block := by
  have hperm : (lastFirst is).Perm is := List.perm_insertionSort _ is
  have hfold : ∀ (js : List (Insertion α)) (ys : List α),
      x ∈ js.foldl splice ys ↔ x ∈ ys ∨ ∃ i ∈ js, x ∈ i.block := by
    intro js
    induction js with
    | nil => simp
    | cons j js ih =>
        intro ys
        rw [List.foldl_cons, ih, mem_splice]
        simp [or_assoc]
  rw [insertAll, hfold]
  simp only [hperm.mem_iff]

theorem splice_map (f : α → β) (xs : List α) (i : Insertion α) :
    splice (xs.map f) (i.map f) = (splice xs i).map f := by
  simp [splice, Insertion.map]

/-- Insertions commute with a map of the elements. -/
theorem insertAll_map (f : α → β) (xs : List α) (is : List (Insertion α)) :
    insertAll (xs.map f) (is.map (·.map f)) = (insertAll xs is).map f := by
  have hsort : lastFirst (is.map (·.map f)) = (lastFirst is).map (·.map f) :=
    (List.map_insertionSort (fun i j : Insertion α => j.position ≤ i.position)
      (fun i j : Insertion β => j.position ≤ i.position) (Insertion.map f) is
      fun _ _ _ _ => Iff.rfl).symm
  rw [insertAll, hsort, insertAll]
  generalize lastFirst is = js
  induction js generalizing xs with
  | nil => rfl
  | cons j js ih => rw [List.map_cons, List.foldl_cons, List.foldl_cons, splice_map, ih]

end Insertions

end PolishingRobot.Lists
