import Mathlib.Data.List.Basic

/-!
# Steps of one element of a list

A pool of threads is a list. A step picks one index and replaces the element
there by the elements its move leaves behind: its continuation, the elements
it has started, or nothing. Every other element stays. The lemmas split such a
step and count the tokens that the elements hold.
-/

namespace PolishingRobot.Runs

variable {T A : Type*} {f : T → Option (A × List T)} {ts ts' : List T} {i : Nat} {a : A}

/-- The element at the index moves; the elements it leaves take its place. -/
def stepAt (f : T → Option (A × List T)) : List T → Nat → Option (A × List T)
  | [], _ => none
  | t :: ts, 0 => (f t).map fun p => (p.1, p.2 ++ ts)
  | t :: ts, i + 1 => (stepAt f ts i).map fun p => (p.1, t :: p.2)

/-- The element that moved, with what stands before and behind it. -/
theorem stepAt_split (h : stepAt f ts i = some (a, ts')) :
    ∃ pre t post us, ts = pre ++ t :: post ∧ pre.length = i ∧ f t = some (a, us) ∧
      ts' = pre ++ us ++ post := by
  induction ts generalizing i ts' with
  | nil => cases h
  | cons t ts ih =>
      cases i with
      | zero =>
          obtain ⟨⟨b, us⟩, hf, heq⟩ := Option.map_eq_some_iff.mp h
          obtain ⟨rfl, rfl⟩ := Prod.mk.inj heq
          exact ⟨[], t, ts, us, rfl, rfl, hf, rfl⟩
      | succ i =>
          obtain ⟨⟨b, rest⟩, hrest, heq⟩ := Option.map_eq_some_iff.mp h
          obtain ⟨rfl, rfl⟩ := Prod.mk.inj heq
          obtain ⟨pre, u, post, us, rfl, rfl, hf, rfl⟩ := ih hrest
          exact ⟨t :: pre, u, post, us, rfl, rfl, hf, rfl⟩

/-- The element behind a given number of others moves. -/
theorem stepAt_length (f : T → Option (A × List T)) (pre : List T) (t : T) (post : List T) :
    stepAt f (pre ++ t :: post) pre.length = (f t).map fun p => (p.1, pre ++ p.2 ++ post) := by
  induction pre with
  | nil => rfl
  | cons u pre ih =>
      rw [List.cons_append, List.length_cons, stepAt, ih, Option.map_map]
      rfl

/-- The moved element and the others. -/
theorem mem_at {pre post : List T} {t u : T} :
    u ∈ pre ++ t :: post ↔ u = t ∨ u ∈ pre ++ post := by
  simp only [List.mem_append, List.mem_cons]
  exact or_left_comm

theorem mover_mem {pre post : List T} {t : T} (hts : ts = pre ++ t :: post) : t ∈ ts := by
  rw [hts]
  exact mem_at.mpr (.inl rfl)

theorem other_mem {pre post : List T} {t u : T} (hts : ts = pre ++ t :: post)
    (hu : u ∈ pre ++ post) : u ∈ ts := by
  rw [hts]
  exact mem_at.mpr (.inr hu)

/-- What the moved element leaves and the others. -/
theorem mem_replaced {pre us post : List T} {u : T} :
    u ∈ pre ++ us ++ post ↔ u ∈ us ∨ u ∈ pre ++ post := by
  simp only [List.mem_append]
  rw [or_comm (a := u ∈ pre) (b := u ∈ us), or_assoc]

/-- The tokens that the elements hold together. -/
def tokens (w : T → Nat) : List T → Nat
  | [] => 0
  | t :: ts => w t + tokens w ts

variable {w : T → Nat}

@[simp] theorem tokens_nil (w : T → Nat) : tokens w [] = 0 := rfl

@[simp] theorem tokens_cons (w : T → Nat) (t : T) (ts : List T) :
    tokens w (t :: ts) = w t + tokens w ts := rfl

@[simp] theorem tokens_append (w : T → Nat) (ts us : List T) :
    tokens w (ts ++ us) = tokens w ts + tokens w us := by
  induction ts with
  | nil => simp
  | cons t ts ih =>
      rw [List.cons_append, tokens_cons, tokens_cons, ih]
      omega

theorem le_tokens {t : T} (ht : t ∈ ts) : w t ≤ tokens w ts := by
  induction ts with
  | nil => cases ht
  | cons u ts ih =>
      rw [tokens_cons]
      rcases List.mem_cons.mp ht with rfl | ht
      · omega
      · have := ih ht
        omega

/-- Two elements at different places both count. -/
theorem add_le_tokens {pre post : List T} {t u : T} (hu : u ∈ pre ++ post) :
    w t + w u ≤ tokens w (pre ++ t :: post) := by
  have hrest : w u ≤ tokens w (pre ++ post) := le_tokens hu
  simp only [tokens_append, tokens_cons] at hrest ⊢
  omega

theorem exists_of_tokens_pos (h : 0 < tokens w ts) : ∃ t ∈ ts, 0 < w t := by
  induction ts with
  | nil => cases h
  | cons t ts ih =>
      rw [tokens_cons] at h
      by_cases ht : 0 < w t
      · exact ⟨t, by simp, ht⟩
      · obtain ⟨u, hu, hwu⟩ := ih (by omega)
        exact ⟨u, by simp [hu], hwu⟩

end PolishingRobot.Runs
