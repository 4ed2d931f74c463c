import Mathlib.Data.List.DropRight

/-!
# Strings of the scripts

A Python string is its list of characters. Lines are what `splitlines` makes of
a text; joining them with newlines is undone by it.
-/

namespace PolishingRobot.Params

abbrev Line := List Char

/-- `str.isspace` of one character. -/
def isSpace (c : Char) : Bool :=
  let n := c.toNat
  (9 ≤ n && n ≤ 13) || (28 ≤ n && n ≤ 32) || n == 0x85 || n == 0xA0 || n == 0x1680 ||
    (0x2000 ≤ n && n ≤ 0x200A) || n == 0x2028 || n == 0x2029 || n == 0x202F || n == 0x205F ||
    n == 0x3000

/-- The characters that end a line for `str.splitlines`. -/
def isLineBreak (c : Char) : Bool :=
  let n := c.toNat
  (10 ≤ n && n ≤ 13) || (28 ≤ n && n ≤ 30) || n == 0x85 || n == 0x2028 || n == 0x2029

def lstrip (s : Line) : Line := s.dropWhile isSpace

def rstrip (s : Line) : Line := s.rdropWhile isSpace

def strip (s : Line) : Line := rstrip (lstrip s)

/-- `s.split(':', 1)[0]`. -/
def beforeColon (s : Line) : Line := s.takeWhile (· ≠ ':')

/-- `str.splitlines`. -/
def splitlines : List Char → List Line
  | [] => []
  | '\r' :: '\n' :: cs => [] :: splitlines cs
  | c :: cs =>
      if isLineBreak c then [] :: splitlines cs
      else
        match splitlines cs with
        | [] => [[c]]
        | l :: ls => (c :: l) :: ls

/-- `'\n'.join`. -/
def joinLines (ls : List Line) : List Char := List.intercalate ['\n'] ls

/-- Every line with its newline. -/
def unlines (ls : List Line) : List Char := ls.flatMap (· ++ ['\n'])

/-- No line break inside. -/
def Unbroken (s : Line) : Prop := ∀ c ∈ s, isLineBreak c = false

instance (s : Line) : Decidable (Unbroken s) := List.decidableBAll _ s

section Lines

variable {s : Line} {ls : List Line} {cs : List Char} {c : Char}

theorem isSpace_of_isLineBreak (h : isLineBreak c = true) : isSpace c = true := by
  simp only [isLineBreak, isSpace, Bool.or_eq_true, Bool.and_eq_true, decide_eq_true_eq,
    beq_iff_eq] at h ⊢
  omega

@[simp] theorem unbroken_nil : Unbroken [] := fun _ hc => absurd hc List.not_mem_nil

@[simp] theorem unbroken_cons : Unbroken (c :: s) ↔ isLineBreak c = false ∧ Unbroken s := by
  simp [Unbroken]

@[simp] theorem unbroken_append {t : Line} : Unbroken (s ++ t) ↔ Unbroken s ∧ Unbroken t := by
  simp [Unbroken, or_imp, forall_and]

theorem splitlines_cons_of_unbroken (h : isLineBreak c = false) :
    splitlines (c :: cs) =
      match splitlines cs with
      | [] => [[c]]
      | l :: ls => (c :: l) :: ls := by
  have hreturn : c ≠ '\r' := by
    rintro rfl
    exact absurd h (by decide)
  rw [splitlines]
  · rw [h]
    rfl
  · intro _ hc
    exact absurd hc hreturn

/-- A line up to its newline. -/
theorem splitlines_append_newline (hs : Unbroken s) (cs : List Char) :
    splitlines (s ++ '\n' :: cs) = s :: splitlines cs := by
  induction s with
  | nil => simp [splitlines, isLineBreak]
  | cons c s ih =>
      obtain ⟨hc, hs⟩ := unbroken_cons.mp hs
      rw [List.cons_append, splitlines_cons_of_unbroken hc, ih hs]

/-- A last line without newline. -/
theorem splitlines_of_unbroken (hs : Unbroken s) (hne : s ≠ []) : splitlines s = [s] := by
  induction s with
  | nil => exact absurd rfl hne
  | cons c s ih =>
      obtain ⟨hc, hs⟩ := unbroken_cons.mp hs
      rw [splitlines_cons_of_unbroken hc]
      cases s with
      | nil => rfl
      | cons d s => rw [ih hs (by simp)]

theorem splitlines_unlines (hls : ∀ l ∈ ls, Unbroken l) : splitlines (unlines ls) = ls := by
  induction ls with
  | nil => rfl
  | cons l ls ih =>
      rw [unlines, List.flatMap_cons, List.append_assoc, List.singleton_append,
        splitlines_append_newline (hls l (by simp))]
      exact congrArg (l :: ·) (ih fun m hm => hls m (by simp [hm]))

theorem joinLines_cons_cons (l m : Line) (ls : List Line) :
    joinLines (l :: m :: ls) = l ++ '\n' :: joinLines (m :: ls) := by
  simp [joinLines, List.intercalate]

theorem joinLines_append_newline (hne : ls ≠ []) : joinLines ls ++ ['\n'] = unlines ls := by
  induction ls with
  | nil => exact absurd rfl hne
  | cons l ls ih =>
      cases ls with
      | nil => simp [joinLines, List.intercalate, unlines]
      | cons m ls =>
          rw [joinLines_cons_cons, List.append_assoc, List.cons_append, ih (by simp)]
          simp [unlines]

/-- Joined lines are split again, unless the last one is empty. -/
theorem splitlines_joinLines (hls : ∀ l ∈ ls, Unbroken l) (hlast : ls.getLast? ≠ some []) :
    splitlines (joinLines ls) = ls := by
  induction ls with
  | nil => rfl
  | cons l ls ih =>
      cases ls with
      | nil =>
          have hne : l ≠ [] := by
            rintro rfl
            exact hlast rfl
          have hjoin : joinLines [l] = l := by simp [joinLines, List.intercalate]
          rw [hjoin, splitlines_of_unbroken (hls l (by simp)) hne]
      | cons m ls =>
          rw [joinLines_cons_cons, splitlines_append_newline (hls l (by simp)),
            ih (fun k hk => hls k (by simp [hk])) (by simpa using hlast)]

end Lines

end PolishingRobot.Params
