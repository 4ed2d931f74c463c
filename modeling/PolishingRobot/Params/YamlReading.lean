import PolishingRobot.Params.NodeContents
import PolishingRobot.Params.Plan

/-!
# What a YAML loader makes of a user's file

Valid files are read as their two levels, a repeated key with its last value. Of
other texts that are accepted only this is assumed: the keys of a node are those at
the indentation of its first one, a key has its value from the lines up to the next,
and a value does not stay the same when keys come between its lines.
-/

namespace PolishingRobot.Params

/-- The YAML loader: `Plain` lines mean what they look like, and a `Valid` value is one,
a scalar or a list. -/
structure BlockYaml (V : Type) where
  load : SafeLoad V
  Plain : YamlLine → Prop
  Valid : FieldValue → Prop
  value : FieldValue → V

namespace BlockYaml

variable {V : Type} (y : BlockYaml V)

/-- `yaml.safe_load(text) or {}`. -/
def read (text : List Char) : Option (Loaded (Loaded V)) := (y.load text).map Loaded.orEmpty

/-- The mapping that the keys build up one after the other. -/
def dict (fs : List Field) : List (Line × V) :=
  fs.foldl (fun d f => assign d f.name.chars (y.value f.value)) []

def keys (fs : List Field) : Loaded V := .mapping ((y.dict fs).map fun e => (.str e.1, e.2))

def nodes (xs : List Section) : Loaded (Loaded V) :=
  .mapping (xs.map fun x => (.str x.name.chars, y.keys x.fields))

/-- The value of a text on the line of its key. -/
def scalar (r : Rest) : V := y.value ⟨2, .scalar r, [], true⟩

/-- Blank lines and comments below do not belong to the text. -/
def OneLine (r : Rest) : Prop :=
  ∀ below ended, Quiet below →
    y.Valid ⟨2, .scalar r, below, ended⟩ ∧ y.value ⟨2, .scalar r, below, ended⟩ = y.scalar r

def Sound (fs : List Field) : Prop := ∀ f ∈ fs, y.Valid f.value

/-- The last line of a key among those below a header; the values in front are whole. -/
structure KeyAt (indent : Nat) (lines pre : List YamlLine) (name : Name) (value : Inline)
    (post : List YamlLine) : Prop where
  leads : Leads indent lines
  inside : ValuesInside indent lines
  split : lines = pre ++ .key indent name value :: post
  sound : y.Sound (fieldsOf true pre).2
  last : ∀ value', .key indent name value' ∉ post

/-- What an accepted text says about a node and the lines up to the next header: where
its keys are, that none is shallower than the first, that a value is what stands up to
the next key, and that it is another one if lines come between its own that are deeper
than its key, or in front of which it is no value. -/
structure Accepts (m : Loaded (Loaded V)) (node : Name) (lines : List YamlLine) : Prop where
  keys : ∀ indent, Leads indent lines → ValuesInside indent lines →
    ∀ key v, Maps m (.str node.chars) key v →
      ∃ name value, key = .str name.chars ∧ .key indent name value ∈ lines
  shallow : ∀ indent pre other name value post, Leads indent lines →
    lines = pre ++ .key other name value :: post → y.Sound (fieldsOf true pre).2 → indent ≤ other
  whole : ∀ indent pre name value below rest v,
    y.KeyAt indent lines pre name value (below ++ rest) → Keyless below → StartsAt indent rest →
    y.Valid ⟨indent, value, below, true⟩ → Maps m (.str node.chars) (.str name.chars) v →
    v = y.value ⟨indent, value, below, true⟩
  changed : ∀ indent pre name value below other name' value' between more rest ended v,
    y.KeyAt indent lines pre name value
      (below ++ .key other name' value' :: (between ++ (more ++ rest))) →
    Keyless below → Keyless more → indent < other ∨
      indent = other ∧ ¬ y.Valid ⟨indent, value, below, true⟩ →
    y.Valid ⟨indent, value, below ++ more, ended⟩ →
    Maps m (.str node.chars) (.str name.chars) v → v ≠ y.value ⟨indent, value, below ++ more, ended⟩

/-- The loader reads mappings of mappings in block style. -/
structure ReadsBlocks : Prop where
  blank : y.Plain (.filler (.blank 0))
  valid_append : ∀ indent value below ended more ended',
    y.Valid ⟨indent, value, below, ended⟩ → Quiet more →
      y.Valid ⟨indent, value, below ++ more, ended'⟩
  reads : ∀ (preamble : List Filler) (xs : List Section) (ended : Bool),
    (xs.map (·.name)).Nodup → Newlines ended xs → (∀ e ∈ fileLines preamble xs, y.Plain e) →
    (∀ x ∈ xs, y.Sound x.fields) →
    y.read (linesText (yamlLines (fileLines preamble xs)) ended) = some (y.nodes xs)
  accepts : ∀ (es : List YamlLine) (m : Loaded (Loaded V)), (∀ e ∈ es, y.Plain e) →
    y.read (linesText (yamlLines es) true) = some m → ∀ before node tail behind after,
      es = before ++ .header node tail :: (behind ++ after) →
      (∀ e ∈ behind, e.isHeader = false) → (∀ e, after.head? = some e → e.isHeader = true) →
      (∀ t, .header node t ∉ before ++ after) → y.Accepts m node behind

end BlockYaml

section Dict

variable {V : Type} {y : BlockYaml V} {fs gs : List Field} {xs : List Section} {x : Section}

theorem mem_assign_self (d : List (Line × V)) (key : Line) (v : V) : (key, v) ∈ assign d key v := by
  rw [assign]
  split_ifs with hknown
  · obtain ⟨e, he, hname⟩ := List.any_eq_true.mp hknown
    exact List.mem_map.mpr ⟨e, he, if_pos (by simpa using hname)⟩
  · exact List.mem_append_right _ (List.mem_singleton_self _)

theorem mem_assign_of_mem {d : List (Line × V)} {key name : Line} {v w : V}
    (h : (name, v) ∈ d) (hsame : key = name → w = v) : (name, v) ∈ assign d key w := by
  rw [assign]
  split_ifs
  · refine List.mem_map.mpr ⟨_, h, ?_⟩
    split_ifs with hname
    · rw [← hname, hsame hname.symm]
    · rfl
  · exact List.mem_append_left _ h

/-- A value stays when the later values of its key are the same, and it is read there
if it is not read before. -/
theorem mem_dict_append {name : Line} {v : V}
    (h : (name, v) ∈ y.dict fs ∨ ∃ g ∈ gs, g.name.chars = name)
    (hsame : ∀ g ∈ gs, g.name.chars = name → y.value g.value = v) :
    (name, v) ∈ y.dict (fs ++ gs) := by
  rw [BlockYaml.dict, List.foldl_append, ← BlockYaml.dict]
  generalize y.dict fs = d at h
  induction gs generalizing d with
  | nil =>
      rcases h with h | ⟨g, hg, -⟩
      · exact h
      · cases hg
  | cons g gs ih =>
      have hsame' : ∀ f ∈ gs, f.name.chars = name → y.value f.value = v :=
        fun f hf => hsame f (List.mem_cons_of_mem _ hf)
      apply ih hsame'
      by_cases hname : g.name.chars = name
      · left
        have hself := mem_assign_self d g.name.chars (y.value g.value)
        rw [hsame g List.mem_cons_self hname] at hself
        simpa only [hsame g List.mem_cons_self hname, hname] using hself
      · rcases h with h | ⟨f, hf, hf'⟩
        · exact .inl (mem_assign_of_mem h fun heq => absurd heq hname)
        · rcases List.mem_cons.mp hf with rfl | hf
          · exact absurd hf' hname
          · exact .inr ⟨f, hf, hf'⟩

/-- Keys that do not repeat are read in order. -/
theorem dict_of_nodup (h : (fs.map (·.name)).Nodup) :
    y.dict fs = fs.map fun f => (f.name.chars, y.value f.value) := by
  induction fs using List.reverseRecOn with
  | nil => rfl
  | append_singleton fs f ih =>
      rw [List.map_append, List.map_singleton, List.nodup_append] at h
      have hfresh : f.name.chars ∉ (y.dict fs).map (·.1) := by
        rw [ih h.1, List.map_map]
        intro hmem
        obtain ⟨g, hg, hname⟩ := List.mem_map.mp hmem
        exact h.2.2 _ (List.mem_map_of_mem hg) _ (List.mem_singleton_self _)
          (Name.chars_injective hname)
      rw [BlockYaml.dict, List.foldl_append, ← BlockYaml.dict, List.foldl_cons, List.foldl_nil,
        assign_fresh hfresh, ih h.1, List.map_append, List.map_singleton]

theorem mem_dict_of_nodup (h : (fs.map (·.name)).Nodup) {f : Field} (hf : f ∈ fs) :
    (f.name.chars, y.value f.value) ∈ y.dict fs := by
  rw [dict_of_nodup h]
  exact List.mem_map.mpr ⟨f, hf, rfl⟩

theorem keys_of_nodup (h : (fs.map (·.name)).Nodup) :
    y.keys fs = .mapping (fs.map fun f => (.str f.name.chars, y.value f.value)) := by
  rw [BlockYaml.keys, dict_of_nodup h, List.map_map]
  rfl

theorem contains_keys_of_nodup (h : (fs.map (·.name)).Nodup) (name : Name) :
    (y.keys fs).contains (.str name.chars) = some (decide (name ∈ fs.map (·.name))) := by
  rw [keys_of_nodup h]
  exact contains_mapping Field.name (fun f => y.value f.value) fs name

/-- The values stay valid with blank lines and comments behind them, and with the last
newline or without. -/
theorem sound_append (hy : y.ReadsBlocks) {ended : Bool} {es more : List YamlLine}
    (h : y.Sound (fieldsOf ended es).2) (hmore : Quiet more) (ended' : Bool) :
    y.Sound (fieldsOf ended' (es ++ more)).2 := by
  have hkeyless := keyless_of_quiet hmore
  by_cases hes : Keyless es
  · have hnone := fieldsOf_append (keyless_append.mpr ⟨hes, hkeyless⟩) ended' []
    rw [List.append_nil] at hnone
    rw [hnone]
    exact List.forall_mem_nil _
  · obtain ⟨pre, k, n, v, below, rfl, hbelow⟩ := exists_last_key hes
    rw [fields_last hbelow] at h
    rw [List.append_assoc, List.cons_append, fields_last (keyless_append.mpr ⟨hbelow, hkeyless⟩)]
    intro f hf
    rcases List.mem_append.mp hf with hf | hf
    · exact h f (List.mem_append_left _ hf)
    · obtain rfl := List.mem_singleton.mp hf
      exact hy.valid_append k v below ended more ended' (h ⟨n, k, v, below, ended⟩ (by simp)) hmore

theorem contains_sections (xs : List Section) (name : Name) :
    (y.nodes xs).contains (.str name.chars) = some (decide (name ∈ xs.map (·.name))) :=
  contains_mapping Section.name (fun x => y.keys x.fields) xs name

theorem get_sections (h : (xs.map (·.name)).Nodup) (hx : x ∈ xs) :
    (y.nodes xs).get (.str x.name.chars) = some (y.keys x.fields) :=
  get_mapping Section.name (fun x => y.keys x.fields) h hx

theorem maps_of_mem_dict (hx : x ∈ xs) {name : Line} {v : V} (h : (name, v) ∈ y.dict x.fields) :
    Maps (y.nodes xs) (.str x.name.chars) (.str name) v := by
  refine ⟨_, _, rfl, List.mem_map.mpr ⟨x, hx, rfl⟩, ?_⟩
  exact List.mem_map.mpr ⟨_, h, rfl⟩

end Dict

end PolishingRobot.Params
