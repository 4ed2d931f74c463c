import PolishingRobot.Params.YamlLines

/-!
# A user's parameter file

Every node has its keys at one indentation; blank lines and comments stand anywhere,
and below a key is the rest of its value. What the script takes for the content of a
node ends behind the last line that it takes for a key.
-/

namespace PolishingRobot.Params

/-- What stands behind the colon of a key with an indentation, and on the lines below;
the last of these may end with the file, without a newline. -/
structure FieldValue where
  indent : Nat
  inline : Inline
  below : List YamlLine
  ended : Bool

structure Field where
  name : Name
  value : FieldValue

/-- The lines in front of the first key, and every key with the lines below it. -/
def fieldsOf (ended : Bool) : List YamlLine → List YamlLine × List Field
  | [] => ([], [])
  | .key indent name value :: es =>
      let rest := fieldsOf ended es
      ([], ⟨name, indent, value, rest.1, ended || !rest.2.isEmpty⟩ :: rest.2)
  | e :: es => (e :: (fieldsOf ended es).1, (fieldsOf ended es).2)

/-- Blank lines and comments. -/
def Quiet (es : List YamlLine) : Prop := ∀ e ∈ es, e.significant = false

/-- No key is among the lines. -/
def Keyless (es : List YamlLine) : Prop := ∀ e ∈ es, e.keyName = none

/-- The lines of values are deeper than keys with the indentation, or items of lists. -/
def ValuesInside (indent : Nat) (es : List YamlLine) : Prop :=
  ∀ m r, .below m r ∈ es → (YamlLine.below m r).Inside indent

/-- The first line, if there is one, is a key. -/
def StartsAt (indent : Nat) (es : List YamlLine) : Prop :=
  ∀ e, es.head? = some e → ∃ name value, e = .key indent name value

/-- The first line that is neither blank nor a comment is a key. -/
def Leads (indent : Nat) (es : List YamlLine) : Prop :=
  ∃ pre name value post, es = pre ++ .key indent name value :: post ∧ Quiet pre

/-- A node with at least one key, up to the next header. -/
structure Section where
  name : Name
  tail : Tail
  indent : Nat
  indent_pos : 0 < indent
  body : List YamlLine
  inside : ∀ e ∈ body, e.Inside indent
  leads : Leads indent body
  ended : Bool

namespace Section

def lines (x : Section) : List YamlLine := .header x.name x.tail :: x.body

def fields (x : Section) : List Field := (fieldsOf x.ended x.body).2

end Section

abbrev sectionLines (xs : List Section) : List YamlLine := xs.flatMap (·.lines)

/-- Only the last node may end without a newline. -/
def Newlines (ended : Bool) : List Section → Prop
  | [] => True
  | x :: xs => x.ended = (ended || !xs.isEmpty) ∧ Newlines ended xs

/-- The lines of a file. -/
def fileLines (preamble : List Filler) (xs : List Section) : List YamlLine :=
  (fillers preamble).map Entry.yaml ++ sectionLines xs

/-- A file of two levels; without a last newline its last line is not empty. -/
structure UserFile where
  preamble : List Filler
  sections : List Section
  nodup : (sections.map (·.name)).Nodup
  fields_nodup : ∀ x ∈ sections, (x.fields.map (·.name)).Nodup
  ended : Bool
  newlines : Newlines ended sections
  complete : ended = true ∨ (yamlLines (fileLines preamble sections)).getLast? ≠ some []

def UserFile.entries (u : UserFile) : List YamlLine := fileLines u.preamble u.sections

abbrev UserFile.names (u : UserFile) : List Name := u.sections.map (·.name)

/-- The text of the lines, with a newline at its end or without. -/
def linesText (ls : List Line) (ended : Bool) : List Char :=
  if ended then unlines ls else joinLines ls

def UserFile.text (u : UserFile) : List Char := linesText (yamlLines u.entries) u.ended

theorem unbroken_yamlLines (es : List YamlLine) : ∀ l ∈ yamlLines es, Unbroken l := by
  intro l hl
  obtain ⟨e, -, rfl⟩ := List.mem_map.mp hl
  exact e.unbroken_line

/-- A text whose last line is written out is split into its lines. -/
theorem splitlines_linesText {es : List YamlLine} {ended : Bool}
    (h : ended = true ∨ (yamlLines es).getLast? ≠ some []) :
    splitlines (linesText (yamlLines es) ended) = yamlLines es := by
  cases ended with
  | true => exact splitlines_unlines (unbroken_yamlLines es)
  | false => exact splitlines_joinLines (unbroken_yamlLines es) (h.resolve_left nofun)

/-- The lines up to the last one that is taken for a key and those continuing it. -/
def contentLength : List Line → Nat
  | [] => 0
  | l :: ls =>
      if contentLength ls ≠ 0 then contentLength ls + 1
      else if (subKey l).isSome then 1 + (ls.takeWhile continues).length else 0

def Section.contentLength (x : Section) : Nat := Params.contentLength (yamlLines x.body)

/-- A node and the number of a line. -/
abbrev Place := Section × Nat

/-- The nodes whose headers the script recognises, from line `i` on, each with the
node in which the script takes its content to end and the line behind that content.
A header that is not recognised leaves its keys to the node above; first comes the
place at which the content of a node above ends, if it does not end there itself. -/
def landings (i : Nat) : List Section → Option Place × List (Section × Place)
  | [] => (none, [])
  | x :: xs =>
      let rest := landings (i + 1 + x.body.length) xs
      let here : Place := (x, i + 1 + x.contentLength)
      if x.tail.recognised then (none, (x, rest.1.getD here) :: rest.2)
      else (rest.1.or (if x.contentLength = 0 then none else some here), rest.2)

def UserFile.landings (u : UserFile) : List (Section × Place) :=
  (Params.landings u.preamble.length u.sections).2

section ContentLength

variable {l : Line} {ls : List Line}

theorem contentLength_le (ls : List Line) : contentLength ls ≤ ls.length := by
  induction ls with
  | nil => exact Nat.le_refl 0
  | cons l ls ih =>
      have htake := (List.takeWhile_sublist (l := ls) continues).length_le
      rw [contentLength, List.length_cons]
      split_ifs <;> omega

theorem contentLength_eq_zero_iff : contentLength ls = 0 ↔ ∀ l ∈ ls, subKey l = none := by
  induction ls with
  | nil => simp [contentLength]
  | cons l ls ih =>
      rw [contentLength, List.forall_mem_cons, ← ih, ← Option.not_isSome_iff_eq_none]
      split_ifs with hrest hkey
      · exact iff_of_false (by simp) fun h => hrest h.2
      · exact iff_of_false (by omega) fun h => h.1 hkey
      · exact iff_of_true rfl ⟨hkey, not_not.mp hrest⟩

/-- Behind the content no line is taken for a key. -/
theorem subKey_of_mem_drop (hl : l ∈ ls.drop (contentLength ls)) : subKey l = none := by
  induction ls with
  | nil => cases hl
  | cons m ls ih =>
      rw [contentLength] at hl
      split_ifs at hl with hrest hkey
      · exact ih hl
      · rw [Nat.add_comm, List.drop_succ_cons] at hl
        exact contentLength_eq_zero_iff.mp (not_not.mp hrest) l (List.mem_of_mem_drop hl)
      · have hzero : contentLength (m :: ls) = 0 := by
          rw [contentLength, if_neg hrest, if_neg hkey]
        exact contentLength_eq_zero_iff.mp hzero l hl

end ContentLength

section Lines

variable {x : Section}

theorem YamlLine.topKey_of_inside {k : Nat} (hk : 0 < k) {e : YamlLine} (he : e.Inside k) :
    topKey e.line = none := by
  cases e with
  | filler f => exact Entry.topKey_filler f
  | header n t => cases he
  | key j n v =>
      obtain rfl : j = k := he
      exact topKey_key hk n v
  | below m r =>
      apply topKey_below
      rcases he with he | ⟨he, -⟩
      · omega
      · omega

theorem Section.topKey_body {l : Line} (hl : l ∈ yamlLines x.body) : topKey l = none := by
  obtain ⟨e, he, rfl⟩ := List.mem_map.mp hl
  exact YamlLine.topKey_of_inside x.indent_pos (x.inside e he)

theorem Section.contentLength_le_length (x : Section) : x.contentLength ≤ x.body.length := by
  have h := contentLength_le (yamlLines x.body)
  rwa [List.length_map] at h

theorem Section.length_lines (x : Section) : x.lines.length = 1 + x.body.length := by
  rw [lines, List.length_cons, Nat.add_comm]

theorem length_sectionLines_cons (x : Section) (xs : List Section) :
    (sectionLines (x :: xs)).length = 1 + x.body.length + (sectionLines xs).length := by
  rw [sectionLines, List.flatMap_cons, List.length_append, x.length_lines]

theorem UserFile.length_entries (u : UserFile) :
    u.entries.length = u.preamble.length + (sectionLines u.sections).length := by
  rw [entries, fileLines, List.length_append, List.length_map, List.length_map]

/-- Keys that are indented by two blanks are all in the content. -/
theorem Section.key_not_mem_drop (n : Name) (v : Inline) :
    .key 2 n v ∉ x.body.drop x.contentLength := by
  intro hmem
  have hline : (YamlLine.key 2 n v).line ∈ (yamlLines x.body).drop x.contentLength := by
    rw [← List.map_drop]
    exact List.mem_map_of_mem hmem
  have hkey := YamlLine.subKey_key (Nat.zero_lt_two) n v
  rw [subKey_of_mem_drop hline] at hkey
  cases hkey

end Lines

end PolishingRobot.Params
