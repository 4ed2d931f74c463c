import Mathlib

/-!
# Parameters of process data objects

A process data object has an identifier, a transmission type and a mapping: a
number of entries, each an object. A device refuses to change an object that is
valid, and to enter into a mapping that is in use. The procedure that invalidates,
clears, enters, counts and validates is never refused.
-/

namespace PolishingRobot.Wire

/-- What a device accepts, over its identifiers and objects. -/
structure PdoRules (C O : Type) where
  valid : C → Bool
  mappable : O → Bool
  bits : O → ℕ
  maxObjects : ℕ
  maxBits : ℕ

structure PdoParameters (C O : Type) where
  cobId : C
  transmissionType : UInt8
  count : ℕ
  entries : ℕ → O

inductive PdoWrite (C O : Type) where
  | cobId (c : C)
  | transmissionType (t : UInt8)
  | count (n : ℕ)
  | entry (k : ℕ) (object : O)

variable {C O : Type} (r : PdoRules C O)

namespace PdoParameters

/-- The objects that the PDO carries. -/
def mapped (p : PdoParameters C O) : List O :=
  (List.range p.count).map fun k => p.entries (k + 1)

/-- `none`: the device refuses. -/
def write (p : PdoParameters C O) : PdoWrite C O → Option (PdoParameters C O)
  | .cobId c => if r.valid p.cobId && r.valid c then none else some { p with cobId := c }
  | .transmissionType t =>
      if r.valid p.cobId then none else some { p with transmissionType := t }
  | .count n =>
      let objects := (List.range n).map fun k => p.entries (k + 1)
      if !r.valid p.cobId && n ≤ r.maxObjects && (objects.map r.bits).sum ≤ r.maxBits then
        some { p with count := n }
      else none
  | .entry k object =>
      if !r.valid p.cobId && p.count = 0 && 0 < k && k ≤ r.maxObjects && r.mappable object then
        some { p with entries := Function.update p.entries k object }
      else none

/-- A refused write changes nothing. -/
def accept (p : PdoParameters C O) (x : PdoWrite C O) : PdoParameters C O := (p.write r x).getD p

end PdoParameters

/-- The entries of a mapping from a subindex on. -/
def entryWrites (i : ℕ) (objects : List O) : List (PdoWrite C O) :=
  (objects.zipIdx i).map fun x => .entry (x.2 + 1) x.1

/-- The procedure. -/
def mappingProcedure (invalid : C) (t : UInt8) (objects : List O) (cobId : C) :
    List (PdoWrite C O) :=
  [.cobId invalid, .transmissionType t, .count 0] ++ entryWrites 0 objects ++
    [.count objects.length, .cobId cobId]

/-- The device carries the objects of a mapping. -/
structure Suitable (objects : List O) : Prop where
  mappable : ∀ o ∈ objects, r.mappable o = true
  length : objects.length ≤ r.maxObjects
  bits : (objects.map r.bits).sum ≤ r.maxBits

variable {r} {p : PdoParameters C O} {objects : List O}

@[simp] theorem entryWrites_nil (i : ℕ) : (entryWrites i [] : List (PdoWrite C O)) = [] := rfl

@[simp] theorem entryWrites_cons (i : ℕ) (o : O) :
    (entryWrites i (o :: objects) : List (PdoWrite C O)) =
      .entry (i + 1) o :: entryWrites (i + 1) objects := rfl

/-- The entries are accepted one after the other; those below are kept. -/
theorem foldl_entryWrites {i : ℕ} (hvalid : r.valid p.cobId = false) (hcount : p.count = 0)
    (hmappable : ∀ o ∈ objects, r.mappable o = true) (hlength : i + objects.length ≤ r.maxObjects) :
    ∃ entries : ℕ → O, (entryWrites i objects).foldl (PdoParameters.accept r) p =
        { p with entries := entries } ∧
      (∀ k ≤ i, entries k = p.entries k) ∧
      ∀ k (hk : k < objects.length), entries (i + k + 1) = objects[k] := by
  induction objects generalizing i p with
  | nil => exact ⟨p.entries, rfl, fun _ _ => rfl, fun k hk => absurd hk (Nat.not_lt_zero k)⟩
  | cons o objects ih =>
      have hroom : i + 1 + objects.length ≤ r.maxObjects := by
        rw [List.length_cons] at hlength
        omega
      let q : PdoParameters C O := { p with entries := Function.update p.entries (i + 1) o }
      have hentry : p.accept r (.entry (i + 1) o) = q := by
        have hle : i + 1 ≤ r.maxObjects := by omega
        simp [PdoParameters.accept, PdoParameters.write, hvalid, hcount, hle,
          hmappable o List.mem_cons_self, q]
      obtain ⟨entries, hfold, hbelow, hat⟩ := ih (p := q) (i := i + 1) hvalid hcount
        (fun x hx => hmappable x (List.mem_cons_of_mem o hx)) hroom
      refine ⟨entries, ?_, ?_, ?_⟩
      · rw [entryWrites_cons, List.foldl_cons, hentry, hfold]
      · intro k hk
        rw [hbelow k (by omega)]
        exact Function.update_of_ne (by omega) _ _
      · intro k hk
        cases k with
        | zero =>
            rw [Nat.add_zero, hbelow (i + 1) (Nat.le_refl _)]
            exact Function.update_self _ _ _
        | succ k =>
            have hnext := hat k (by simpa using hk)
            rw [show i + (k + 1) + 1 = i + 1 + k + 1 by omega, hnext]
            rfl

/-- After the procedure the PDO is as it says, whatever it was before. -/
theorem foldl_mappingProcedure {invalid cobId : C} (h : Suitable r objects)
    (hinvalid : r.valid invalid = false) (t : UInt8) (p : PdoParameters C O) :
    let q := (mappingProcedure invalid t objects cobId).foldl (PdoParameters.accept r) p
    q.cobId = cobId ∧ q.transmissionType = t ∧ q.mapped = objects := by
  let cleared : PdoParameters C O :=
    { p with cobId := invalid, transmissionType := t, count := 0 }
  have hclear : ([.cobId invalid, .transmissionType t, .count 0] : List (PdoWrite C O)).foldl
      (PdoParameters.accept r) p = cleared := by
    simp [PdoParameters.accept, PdoParameters.write, hinvalid, cleared]
  obtain ⟨entries, hfold, -, hat⟩ := foldl_entryWrites (p := cleared) (i := 0) hinvalid rfl
    h.mappable (by simpa using h.length)
  have hobjects : ((List.range objects.length).map fun k => entries (k + 1)) = objects := by
    apply List.ext_getElem
    · simp
    · intro k _ hk
      rw [List.getElem_map, List.getElem_range]
      simpa using hat k hk
  have hcount : PdoParameters.accept r { cleared with entries := entries } (.count objects.length) =
      { cleared with entries := entries, count := objects.length } := by
    simp [PdoParameters.accept, PdoParameters.write, hobjects, h.length, h.bits, hinvalid, cleared]
  have hvalidate : PdoParameters.accept r
      { cleared with entries := entries, count := objects.length } (.cobId cobId) =
      { cleared with entries := entries, count := objects.length, cobId := cobId } := by
    simp [PdoParameters.accept, PdoParameters.write, hinvalid, cleared]
  have hall : (mappingProcedure invalid t objects cobId).foldl (PdoParameters.accept r) p =
      { cleared with entries := entries, count := objects.length, cobId := cobId } := by
    rw [mappingProcedure, List.foldl_append, List.foldl_append, hclear, hfold, List.foldl_cons,
      hcount, List.foldl_cons, hvalidate, List.foldl_nil]
  intro q
  rw [show q = _ from hall]
  exact ⟨rfl, rfl, hobjects⟩

end PolishingRobot.Wire
