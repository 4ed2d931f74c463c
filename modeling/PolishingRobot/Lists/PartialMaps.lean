import Mathlib.Data.List.Basic
import Mathlib.Tactic.Cases

/-!
# Maps that may fail

`mapM` over options has a value where the function has one at every element.
-/

namespace PolishingRobot.Lists

variable {α β : Type} {f : α → Option β} {as : List α} {bs : List β}

/-- A map has these values exactly if the function has them one by one. -/
theorem mapM_eq_some_iff : as.mapM f = some bs ↔ as.map f = bs.map some := by
  induction as generalizing bs with
  | nil =>
      rw [List.mapM_nil, List.map_nil]
      cases bs with
      | nil => simp
      | cons b bs => simp
  | cons a as ih =>
      rw [List.mapM_cons, List.map_cons]
      cases bs with
      | nil =>
          cases f a with
          | none => simp
          | some b => cases as.mapM f with
            | none => simp
            | some bs => simp
      | cons b bs =>
          rw [List.map_cons, List.cons.injEq, ← ih]
          cases f a with
          | none => simp
          | some b' => cases as.mapM f with
            | none => simp
            | some bs' => simp

theorem mapM_isSome_iff : (as.mapM f).isSome ↔ ∀ a ∈ as, (f a).isSome := by
  constructor
  · intro h a ha
    obtain ⟨bs, hbs⟩ := Option.isSome_iff_exists.mp h
    have hmem : f a ∈ bs.map some := by
      rw [← mapM_eq_some_iff.mp hbs]
      exact List.mem_map_of_mem ha
    obtain ⟨b, -, hb⟩ := List.mem_map.mp hmem
    rw [← hb]
    rfl
  · intro h
    have hvalues : as.mapM f = some (as.pmap (fun a ha => (f a).get ha) h) := by
      rw [mapM_eq_some_iff, List.map_pmap]
      simp
    rw [hvalues]
    rfl

/-- The values at the first positions. -/
theorem mapM_range_eq_some_iff {f : Nat → Option β} {n : Nat} :
    (List.range n).mapM f = some bs ↔
      bs.length = n ∧ ∀ i (h : i < bs.length), f i = some bs[i] := by
  rw [mapM_eq_some_iff]
  constructor
  · intro h
    have hlength : bs.length = n := by simpa using (congrArg List.length h).symm
    refine ⟨hlength, ?_⟩
    intro i hi
    have hget : ((List.range n).map f)[i]? = (bs.map some)[i]? := by rw [h]
    simpa [hi, hlength ▸ hi] using hget
  · rintro ⟨rfl, hvalues⟩
    apply List.ext_getElem
    · simp
    · intro i hi hi'
      simpa using hvalues i (by simpa using hi')

end PolishingRobot.Lists
