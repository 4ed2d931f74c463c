import PolishingRobot.Lists.Insertions

/-!
# Where the elements of a list with insertions come from

Elements that carry their origin show what insertions do to a list: its own
elements stay in order, and every block stays in one piece at its place.
-/

namespace PolishingRobot.Lists

variable {α : Type*}

/-- An element of the list, or one of the block of an insertion. -/
inductive Origin where
  | kept (index : Nat)
  | inserted (insertion index : Nat)
  deriving DecidableEq

def Origin.isKept : Origin → Bool
  | kept _ => true
  | inserted _ _ => false

/-- The elements with their indices. -/
def numbered (f : Nat → Origin) (xs : List α) : List (Origin × α) :=
  xs.zipIdx.map fun x => (f x.2, x.1)

def Insertion.number (i : Insertion α) (k : Nat) : Insertion (Origin × α) :=
  ⟨i.position, numbered (.inserted k) i.block⟩

/-- The insertions with their numbers. -/
def numberedInsertions (is : List (Insertion α)) : List (Insertion (Origin × α)) :=
  is.zipIdx.map fun i => i.1.number i.2

/-- The list after the insertions, every element with its origin. -/
def traced (xs : List α) (is : List (Insertion α)) : List (Origin × α) :=
  insertAll (numbered .kept xs) (numberedInsertions is)

section Splices

variable {xs ys zs : List α} {is : List (Insertion α)} {i : Insertion α} {q : α → Bool}

theorem splice_append (h : i.position ≤ ys.length) :
    splice (ys ++ zs) i = splice ys i ++ zs := by
  rw [splice, List.take_append_of_le_length h, List.drop_append_of_le_length h, splice,
    List.append_assoc _ _ zs]

theorem length_splice (xs : List α) (i : Insertion α) :
    (splice xs i).length = xs.length + i.block.length := by
  rw [splice, List.length_append, List.length_append, List.length_take, List.length_drop]
  omega

/-- Insertions into the front of a list leave its back alone. -/
theorem foldl_splice_append (h : ∀ i ∈ is, i.position ≤ ys.length) :
    is.foldl splice (ys ++ zs) = is.foldl splice ys ++ zs := by
  induction is generalizing ys with
  | nil => rfl
  | cons i is ih =>
      rw [List.foldl_cons, List.foldl_cons, splice_append (h i (by simp)), ih]
      intro j hj
      have := h j (by simp [hj])
      rw [length_splice]
      omega

/-- Insertions behind a place leave what is in front of it alone. -/
theorem take_foldl_splice {p : Nat} (hp : p ≤ xs.length) (h : ∀ i ∈ is, p ≤ i.position) :
    (is.foldl splice xs).take p = xs.take p := by
  induction is generalizing xs with
  | nil => rfl
  | cons i is ih =>
      have hlength := length_splice xs i
      rw [List.foldl_cons, ih (by omega) fun j hj => h j (by simp [hj])]
      have hposition := h i (by simp)
      rw [splice, List.append_assoc, List.take_append_of_le_length, List.take_take,
        Nat.min_eq_left hposition]
      rw [List.length_take]
      omega

/-- What the blocks do not have is kept in order. -/
theorem filter_foldl_splice (h : ∀ i ∈ is, ∀ x ∈ i.block, q x = false) :
    (is.foldl splice xs).filter q = xs.filter q := by
  induction is generalizing xs with
  | nil => rfl
  | cons i is ih =>
      have hblock : i.block.filter q = [] := by
        rw [List.filter_eq_nil_iff]
        intro x hx
        simp [h i (by simp) x hx]
      rw [List.foldl_cons, ih fun j hj => h j (by simp [hj]), splice, List.filter_append,
        List.filter_append, hblock, List.append_nil, ← List.filter_append, List.take_append_drop]

theorem perm_foldl_splice (xs : List α) (is : List (Insertion α)) :
    (is.foldl splice xs).Perm (xs ++ is.flatMap (·.block)) := by
  induction is generalizing xs with
  | nil => simp
  | cons i is ih =>
      have hsplice : (splice xs i).Perm (xs ++ i.block) := by
        have hback : xs.take i.position ++ (xs.drop i.position ++ i.block) = xs ++ i.block := by
          rw [← List.append_assoc, List.take_append_drop]
        rw [splice, List.append_assoc, ← hback]
        exact List.perm_append_comm.append_left _
      rw [List.foldl_cons, List.flatMap_cons, ← List.append_assoc]
      exact (ih _).trans (hsplice.append_right _)

/-- Every element of the list and of the blocks is there once. -/
theorem perm_insertAll (xs : List α) (is : List (Insertion α)) :
    (insertAll xs is).Perm (xs ++ is.flatMap (·.block)) := by
  have hperm : (lastFirst is).Perm is := List.perm_insertionSort _ is
  rw [insertAll]
  exact (perm_foldl_splice xs _).trans ((hperm.flatMap_right _).append_left xs)

theorem filter_insertAll (h : ∀ i ∈ is, ∀ x ∈ i.block, q x = false) :
    (insertAll xs is).filter q = xs.filter q := by
  have hperm : (lastFirst is).Perm is := List.perm_insertionSort _ is
  apply filter_foldl_splice
  intro i hi
  exact h i (hperm.mem_iff.mp hi)

/-- A block stands in one piece, with the elements in front of its position and
other blocks before it. -/
theorem exists_block (hbound : ∀ i ∈ is, i.position ≤ xs.length) (hi : i ∈ is) :
    ∃ (js : List (Insertion α)) (after : List α), (∀ j ∈ js, j ∈ is) ∧
      insertAll xs is = js.foldl splice (xs.take i.position) ++ (i.block ++ after) := by
  have hperm : (lastFirst is).Perm is := List.perm_insertionSort _ is
  have hdescending : (lastFirst is).Pairwise fun i j => j.position ≤ i.position :=
    List.pairwise_insertionSort _ is
  obtain ⟨behind, front, hsplit⟩ := List.append_of_mem (hperm.mem_iff.mpr hi)
  rw [hsplit, List.pairwise_append, List.pairwise_cons] at hdescending
  obtain ⟨-, ⟨hfront, -⟩, hbehind⟩ := hdescending
  have hposition := hbound i hi
  have htake : (behind.foldl splice xs).take i.position = xs.take i.position := by
    apply take_foldl_splice hposition
    intro j hj
    exact hbehind j hj i (by simp)
  refine ⟨front, (behind.foldl splice xs).drop i.position, ?_, ?_⟩
  · intro j hj
    apply hperm.mem_iff.mp
    rw [hsplit]
    simp [hj]
  · rw [insertAll, hsplit, List.foldl_append, List.foldl_cons, splice, htake, List.append_assoc,
      foldl_splice_append]
    intro j hj
    rw [List.length_take_of_le hposition]
    exact hfront j hj

end Splices

section Traced

variable {xs : List α} {is : List (Insertion α)}

theorem numbered_snd (f : Nat → Origin) (xs : List α) : (numbered f xs).map Prod.snd = xs := by
  rw [numbered, List.map_map]
  exact List.zipIdx_map_fst 0 xs

theorem mem_numbered {f : Nat → Origin} {x : Origin × α} (hx : x ∈ numbered f xs) :
    ∃ k, x.1 = f k ∧ xs[k]? = some x.2 := by
  obtain ⟨⟨y, k⟩, hy, rfl⟩ := List.mem_map.mp hx
  exact ⟨k, rfl, List.mem_zipIdx_iff_getElem?.mp hy⟩

theorem mem_numberedInsertions {i : Insertion (Origin × α)} (hi : i ∈ numberedInsertions is) :
    ∃ (k : Nat) (j : Insertion α), is[k]? = some j ∧ i = j.number k := by
  obtain ⟨⟨j, k⟩, hj, rfl⟩ := List.mem_map.mp hi
  exact ⟨k, j, List.mem_zipIdx_iff_getElem?.mp hj, rfl⟩

theorem number_mem {i : Insertion α} {k : Nat} (hi : is[k]? = some i) :
    i.number k ∈ numberedInsertions is :=
  List.mem_map.mpr ⟨(i, k), List.mem_zipIdx_iff_getElem?.mpr hi, rfl⟩

theorem isKept_of_block {i : Insertion (Origin × α)} (hi : i ∈ numberedInsertions is)
    {x : Origin × α} (hx : x ∈ i.block) : x.1.isKept = false := by
  obtain ⟨k, j, -, rfl⟩ := mem_numberedInsertions hi
  obtain ⟨m, hm, -⟩ := mem_numbered hx
  rw [hm]
  rfl

theorem filter_numbered (xs : List α) :
    (numbered .kept xs).filter (·.1.isKept) = numbered .kept xs := by
  rw [List.filter_eq_self]
  intro x hx
  obtain ⟨k, hk, -⟩ := mem_numbered hx
  rw [hk]
  rfl

/-- Without the origins it is the list after the insertions. -/
theorem traced_snd (xs : List α) (is : List (Insertion α)) :
    (traced xs is).map Prod.snd = insertAll xs is := by
  have hinsertions : (numberedInsertions is).map (·.map Prod.snd) = is := by
    have hnumber : ∀ x : Insertion α × Nat, (x.1.number x.2).map Prod.snd = x.1 := by
      intro x
      rw [Insertion.number, Insertion.map, numbered_snd]
    rw [numberedInsertions, List.map_map]
    calc is.zipIdx.map ((·.map Prod.snd) ∘ fun i => i.1.number i.2)
        = is.zipIdx.map Prod.fst := List.map_congr_left fun x _ => hnumber x
      _ = is := List.zipIdx_map_fst 0 is
  rw [traced, ← insertAll_map, numbered_snd, hinsertions]

/-- The list's own elements stay in order. -/
theorem traced_kept (xs : List α) (is : List (Insertion α)) :
    (traced xs is).filter (·.1.isKept) = numbered .kept xs := by
  rw [traced, filter_insertAll, filter_numbered]
  intro i hi x hx
  exact isKept_of_block hi hx

theorem perm_traced (xs : List α) (is : List (Insertion α)) :
    (traced xs is).Perm (numbered .kept xs ++ (numberedInsertions is).flatMap (·.block)) :=
  perm_insertAll _ _

/-- What is not the list's own is of a block. -/
theorem mem_traced {x : Origin × α} (hx : x ∈ traced xs is) (hnew : x.1.isKept = false) :
    ∃ (k : Nat) (i : Insertion α) (m : Nat),
      is[k]? = some i ∧ x.1 = .inserted k m ∧ i.block[m]? = some x.2 := by
  rcases List.mem_append.mp ((perm_traced xs is).mem_iff.mp hx) with hx | hx
  · obtain ⟨k, hk, -⟩ := mem_numbered hx
    rw [hk] at hnew
    cases hnew
  · obtain ⟨j, hj, hx⟩ := List.mem_flatMap.mp hx
    obtain ⟨k, i, hi, rfl⟩ := mem_numberedInsertions hj
    obtain ⟨m, hm, hblock⟩ := mem_numbered hx
    exact ⟨k, i, m, hi, hm, hblock⟩

/-- Every block stays in one piece between the elements before its position and
those from it on. -/
theorem traced_block (hbound : ∀ i ∈ is, i.position ≤ xs.length) {k : Nat} {i : Insertion α}
    (hi : is[k]? = some i) :
    ∃ before after, traced xs is = before ++ (numbered (.inserted k) i.block ++ after) ∧
      before.filter (·.1.isKept) = (numbered .kept xs).take i.position := by
  have hlength : (numbered .kept xs).length = xs.length := by simp [numbered]
  have hbound' : ∀ j ∈ numberedInsertions is, j.position ≤ (numbered .kept xs).length := by
    intro j hj
    obtain ⟨m, j', hj', rfl⟩ := mem_numberedInsertions hj
    rw [hlength]
    exact hbound j' (List.mem_of_getElem? hj')
  obtain ⟨js, after, hjs, heq⟩ := exists_block hbound' (number_mem hi)
  refine ⟨_, after, heq, ?_⟩
  rw [filter_foldl_splice fun j hj x hx => isKept_of_block (hjs j hj) hx]
  have hall : ∀ x ∈ (numbered .kept xs).take i.position, x.1.isKept = true := by
    intro x hx
    obtain ⟨m, hm, -⟩ := mem_numbered (List.mem_of_mem_take hx)
    rw [hm]
    rfl
  exact List.filter_eq_self.mpr hall

end Traced

end PolishingRobot.Lists
