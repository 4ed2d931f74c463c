import PolishingRobot.Params.YamlFiles

/-!
# The lines below a header

A key of a node has its value from its line and the lines up to the next key. Where
the script ends the content of a node, keys that are indented by two blanks are in
front, and only lines of the last key can be behind.
-/

namespace PolishingRobot.Params

section Fields

variable {ended : Bool} {k : Nat} {n : Name} {v : Inline} {e : YamlLine}
  {es fs pre below rest : List YamlLine}

theorem fieldsOf_cons (he : e.keyName = none) (ended : Bool) (es : List YamlLine) :
    fieldsOf ended (e :: es) = (e :: (fieldsOf ended es).1, (fieldsOf ended es).2) := by
  cases e with
  | filler f => rfl
  | header n t => rfl
  | key j n v => cases he
  | below m r => rfl

/-- Lines without a key belong to the key above. -/
theorem fieldsOf_append (hes : Keyless es) (ended : Bool) (fs : List YamlLine) :
    fieldsOf ended (es ++ fs) = (es ++ (fieldsOf ended fs).1, (fieldsOf ended fs).2) := by
  induction es with
  | nil => rfl
  | cons e es ih =>
      rw [List.cons_append, fieldsOf_cons (hes e List.mem_cons_self),
        ih fun e he => hes e (List.mem_cons_of_mem _ he)]
      rfl

/-- What is in front of a key is read for itself. -/
theorem fieldsOf_append_key (ended : Bool) (es : List YamlLine) (k : Nat) (n : Name) (v : Inline)
    (fs : List YamlLine) :
    fieldsOf ended (es ++ .key k n v :: fs) =
      ((fieldsOf true es).1, (fieldsOf true es).2 ++ (fieldsOf ended (.key k n v :: fs)).2) := by
  induction es with
  | nil => rfl
  | cons e es ih =>
      cases hname : e.keyName with
      | none => rw [List.cons_append, fieldsOf_cons hname, fieldsOf_cons hname, ih]
      | some n' =>
          cases e with
          | key j m i =>
              rw [List.cons_append, fieldsOf, ih]
              simp [fieldsOf]
          | filler f => cases hname
          | header m t => cases hname
          | below m r => cases hname

theorem fieldsOf_startsAt (h : StartsAt k rest) (ended : Bool) : (fieldsOf ended rest).1 = [] := by
  cases rest with
  | nil => rfl
  | cons e rest =>
      obtain ⟨n, v, rfl⟩ := h e rfl
      rfl

/-- A key has the lines up to the next one. -/
theorem fields_split (hbelow : Keyless below) (hrest : StartsAt k rest) (ended : Bool)
    (pre : List YamlLine) (j : Nat) (n : Name) (v : Inline) :
    (fieldsOf ended (pre ++ .key j n v :: (below ++ rest))).2 = (fieldsOf true pre).2 ++
      ⟨n, j, v, below, ended || !(fieldsOf ended rest).2.isEmpty⟩ :: (fieldsOf ended rest).2 := by
  rw [fieldsOf_append_key, fieldsOf, fieldsOf_append hbelow, fieldsOf_startsAt hrest,
    List.append_nil]

theorem startsAt_nil (k : Nat) : StartsAt k [] := by
  intro e he
  cases he

/-- The last key has the lines that are left. -/
theorem fields_last (hbelow : Keyless below) (ended : Bool) (pre : List YamlLine) (j : Nat)
    (n : Name) (v : Inline) :
    (fieldsOf ended (pre ++ .key j n v :: below)).2 =
      (fieldsOf true pre).2 ++ [⟨n, j, v, below, ended⟩] := by
  have h := fields_split hbelow (startsAt_nil 0) ended pre j n v
  rw [List.append_nil] at h
  rw [h]
  simp [fieldsOf]

/-- The keys in the lines are the fields in order. -/
theorem fields_names (ended : Bool) (es : List YamlLine) :
    (fieldsOf ended es).2.map (·.name) = es.filterMap YamlLine.keyName := by
  induction es with
  | nil => rfl
  | cons e es ih =>
      cases hname : e.keyName with
      | none => rw [fieldsOf_cons hname, List.filterMap_cons_none hname, ih]
      | some n' =>
          cases e with
          | key j m i =>
              obtain rfl : m = n' := Option.some.inj hname
              rw [List.filterMap_cons_some hname, ← ih]
              rfl
          | filler f => cases hname
          | header m t => cases hname
          | below m r => cases hname

theorem name_of_key (h : .key k n v ∈ es) (ended : Bool) :
    n ∈ (fieldsOf ended es).2.map (·.name) := by
  rw [fields_names]
  exact List.mem_filterMap.mpr ⟨_, h, rfl⟩

theorem key_of_name (h : n ∈ (fieldsOf ended es).2.map (·.name)) : ∃ k v, .key k n v ∈ es := by
  rw [fields_names] at h
  obtain ⟨e, he, hname⟩ := List.mem_filterMap.mp h
  cases e with
  | key k m v =>
      obtain rfl : m = n := Option.some.inj hname
      exact ⟨k, v, he⟩
  | filler f => cases hname
  | header m t => cases hname
  | below m r => cases hname

theorem key_not_mem_keyless (h : Keyless es) (k : Nat) (n : Name) (v : Inline) :
    .key k n v ∉ es := by
  intro hmem
  cases h _ hmem

/-- The last of the lines that is a key. -/
theorem exists_last_key (h : ¬ Keyless es) :
    ∃ pre k n v below, es = pre ++ .key k n v :: below ∧ Keyless below := by
  induction es with
  | nil => exact absurd (fun e he => absurd he List.not_mem_nil) h
  | cons e es ih =>
      by_cases hes : Keyless es
      · have hkey : e.keyName ≠ none := fun hname => h (List.forall_mem_cons.mpr ⟨hname, hes⟩)
        cases e with
        | key k n v => exact ⟨[], k, n, v, es, rfl, hes⟩
        | filler f => exact absurd rfl hkey
        | header n t => exact absurd rfl hkey
        | below m r => exact absurd rfl hkey
      · obtain ⟨pre, k, n, v, below, rfl, hbelow⟩ := ih hes
        exact ⟨e :: pre, k, n, v, below, rfl, hbelow⟩

theorem keyless_append : Keyless (es ++ fs) ↔ Keyless es ∧ Keyless fs := List.forall_mem_append

theorem quiet_append : Quiet (es ++ fs) ↔ Quiet es ∧ Quiet fs := List.forall_mem_append

theorem quiet_nil : Quiet [] := List.forall_mem_nil _

theorem keyless_of_quiet (h : Quiet es) : Keyless es := by
  intro e he
  have hquiet := h e he
  cases e with
  | filler f => rfl
  | header n t => rfl
  | key k n v => cases hquiet
  | below m r => rfl

theorem quiet_fillers (fs : List Filler) : Quiet ((fillers fs).map Entry.yaml) := by
  intro e he
  obtain ⟨d, hd, rfl⟩ := List.mem_map.mp he
  obtain ⟨f, -, rfl⟩ := List.mem_map.mp hd
  rfl

/-- Up to the first key there may be lines without one. -/
theorem exists_startsAt (k : Nat) (h : ∀ j n v, .key j n v ∈ es → j = k) :
    ∃ more rest, es = more ++ rest ∧ Keyless more ∧ StartsAt k rest := by
  refine ⟨es.takeWhile (·.keyName.isNone), es.dropWhile (·.keyName.isNone),
    List.takeWhile_append_dropWhile.symm, ?_, ?_⟩
  · intro e he
    have hnone := List.mem_takeWhile_imp he
    exact Option.isNone_iff_eq_none.mp hnone
  · intro e he
    have hmem : e ∈ es := (List.dropWhile_sublist _).mem (List.mem_of_head? he)
    have hkey := List.head?_dropWhile_not (·.keyName.isNone) es
    rw [he] at hkey
    cases e with
    | key j n v =>
        obtain rfl := h j n v hmem
        exact ⟨n, v, rfl⟩
    | filler f => cases hkey
    | header n t => cases hkey
    | below m r => cases hkey

end Fields

section Leads

variable {k : Nat} {es fs : List YamlLine}

theorem Leads.append (h : Leads k es) (fs : List YamlLine) : Leads k (es ++ fs) := by
  obtain ⟨pre, n, v, post, rfl, hpre⟩ := h
  exact ⟨pre, n, v, post ++ fs, by rw [List.append_assoc]; rfl, hpre⟩

theorem Leads.not_keyless (h : Leads k es) : ¬ Keyless es := by
  obtain ⟨pre, n, v, post, rfl, -⟩ := h
  intro hkeyless
  exact key_not_mem_keyless hkeyless k n v (by simp)

/-- The first key is in front if not only blank lines and comments are. -/
theorem Leads.of_append (h : Leads k (es ++ fs)) (hes : ¬ Quiet es) : Leads k es := by
  obtain ⟨pre, n, v, post, hsplit, hpre⟩ := h
  rcases List.append_eq_append_iff.mp hsplit with ⟨zs, rfl, -⟩ | ⟨zs, rfl, hzs⟩
  · exact absurd (quiet_append.mp hpre).1 hes
  · cases zs with
    | nil =>
        rw [List.append_nil] at hes
        exact absurd hpre hes
    | cons z zs =>
        obtain ⟨rfl, -⟩ := List.cons.inj hzs
        exact ⟨pre, n, v, zs, rfl, hpre⟩

end Leads

namespace Section

variable {x : Section} {k : Nat} {n : Name} {v : Inline}

/-- The lines in front of the insertion line. -/
def front (x : Section) : List YamlLine := x.body.take x.contentLength

def rear (x : Section) : List YamlLine := x.body.drop x.contentLength

theorem front_append_rear (x : Section) : x.front ++ x.rear = x.body := List.take_append_drop ..

theorem indent_of_key (h : .key k n v ∈ x.body) : k = x.indent := x.inside _ h

/-- Where the keys have the indentation of the template's, all of them are in front. -/
theorem keyless_rear (hindent : x.indent = 2) : Keyless x.rear := by
  intro e he
  cases e with
  | key k n v =>
      obtain rfl : k = 2 := (indent_of_key (List.mem_of_mem_drop he)).trans hindent
      exact absurd he (x.key_not_mem_drop n v)
  | filler f => rfl
  | header n t => rfl
  | below m r => rfl

/-- The script takes a line in front for a key. -/
theorem not_quiet_front (h : x.contentLength ≠ 0) : ¬ Quiet x.front := by
  intro hquiet
  apply h
  rw [Section.contentLength, contentLength_eq_zero_iff]
  intro l hl
  obtain ⟨e, he, rfl⟩ := List.mem_map.mp hl
  rw [← x.front_append_rear] at he
  rcases List.mem_append.mp he with he | he
  · have hsignificant := hquiet e he
    cases e with
    | filler f => exact Entry.subKey_filler f
    | header n t => cases hsignificant
    | key k n v => cases hsignificant
    | below m r => cases hsignificant
  · have hline : e.line ∈ yamlLines x.rear := List.mem_map_of_mem he
    rw [rear, yamlLines, List.map_drop] at hline
    exact subKey_of_mem_drop hline

theorem leads_front (h : x.contentLength ≠ 0) : Leads x.indent x.front := by
  have hleads := x.leads
  rw [← x.front_append_rear] at hleads
  exact hleads.of_append (not_quiet_front h)

/-- Where the keys are indented deeper, the script sees none. -/
theorem contentLength_of_deeper (h : 2 < x.indent) : x.contentLength = 0 := by
  rw [Section.contentLength, contentLength_eq_zero_iff]
  intro l hl
  obtain ⟨e, he, rfl⟩ := List.mem_map.mp hl
  have hinside := x.inside e he
  cases e with
  | filler f => exact Entry.subKey_filler f
  | header n t => exact YamlLine.subKey_header n t
  | key k n v =>
      obtain rfl : k = x.indent := hinside
      rw [← Option.not_isSome_iff_eq_none, YamlLine.subKey_key x.indent_pos n v,
        decide_eq_true_iff]
      exact h.ne'
  | below m r =>
      apply YamlLine.subKey_below
      rcases hinside with hm | ⟨hm, -⟩
      · omega
      · omega

end Section

end PolishingRobot.Params
