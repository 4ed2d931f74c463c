import PolishingRobot.Params.Documents

/-!
# Lines of a user's parameter file

A user may indent the keys of a node as he likes, write a list or a text of several
lines below its key, and put comments behind headers and keys. The script takes a
header with a comment for no header, and only a line indented by two blanks for a key.
-/

namespace PolishingRobot.Params

/-- What stands behind a colon that has no value on its line. -/
inductive Tail where
  | blank (width : Nat)
  | comment (width : Nat) (text : Rest)

def Tail.chars : Tail → Line
  | blank width => blanks width
  | comment width text => ' ' :: blanks width ++ '#' :: text.chars

/-- What stands behind the colon of a key. -/
inductive Inline where
  | scalar (r : Rest)
  | tail (t : Tail)

def Inline.chars : Inline → Line
  | scalar r => r.chars
  | tail t => t.chars

/-- A line of a mapping of mappings in block style. Below a key are the items of its
list or more lines of its text. -/
inductive YamlLine where
  | filler (f : Filler)
  | header (name : Name) (tail : Tail)
  | key (indent : Nat) (name : Name) (value : Inline)
  | below (indent : Nat) (text : Rest)

theorem Tail.unbroken (t : Tail) : Unbroken t.chars := by
  have hblank : isLineBreak ' ' = false := rfl
  have hhash : isLineBreak '#' = false := rfl
  cases t with
  | blank width => exact Entry.unbroken_blanks width
  | comment width text => simp [chars, Entry.unbroken_blanks, hblank, hhash, text.unbroken]

theorem Inline.unbroken (v : Inline) : Unbroken v.chars := by
  cases v with
  | scalar r => exact r.unbroken
  | tail t => exact t.unbroken

namespace YamlLine

def line : YamlLine → Line
  | filler f => (Entry.filler f).line
  | header name tail => name.chars ++ ':' :: tail.chars
  | key indent name value => blanks indent ++ (name.chars ++ ':' :: value.chars)
  | below indent text => blanks indent ++ text.chars

/-- Neither blank nor a comment. -/
def significant : YamlLine → Bool
  | filler _ => false
  | _ => true

def isHeader : YamlLine → Bool
  | header _ _ => true
  | _ => false

def keyName : YamlLine → Option Name
  | key _ name _ => some name
  | _ => none

/-- It may stand in a node whose keys have the indentation: what belongs to a value is
deeper or an item of a list. -/
def Inside (k : Nat) : YamlLine → Prop
  | filler _ => True
  | header _ _ => False
  | key indent _ _ => indent = k
  | below indent text => k < indent ∨ k ≤ indent ∧ text.chars.head? = some '-'

instance (k : Nat) : (e : YamlLine) → Decidable (e.Inside k)
  | filler _ => inferInstanceAs (Decidable True)
  | header _ _ => inferInstanceAs (Decidable False)
  | key indent _ _ => inferInstanceAs (Decidable (indent = k))
  | below indent text =>
      inferInstanceAs (Decidable (k < indent ∨ k ≤ indent ∧ text.chars.head? = some '-'))

theorem isHeader_of_inside {k : Nat} {e : YamlLine} (he : e.Inside k) : e.isHeader = false := by
  cases e with
  | header n t => cases he
  | filler f => rfl
  | key j n v => rfl
  | below m r => rfl

end YamlLine

abbrev yamlLines (es : List YamlLine) : List Line := es.map YamlLine.line

/-- A line of a parameter file as a line of a user's file. -/
def Entry.yaml : Entry → YamlLine
  | .filler f => .filler f
  | .header name width => .header name (.blank width)
  | .key name rest => .key 2 name (.scalar rest)

@[simp] theorem Entry.yaml_line (e : Entry) : e.yaml.line = e.line := by
  cases e <;> rfl

/-- The script takes the header for one: its last character but blanks is a colon. -/
def Tail.recognised : Tail → Bool
  | blank _ => true
  | comment _ text => (rstrip text.chars).getLast? = some ':'

/-- `rstrip` stops at the last character that is no space. -/
theorem rstrip_append_cons_eq {c : Char} (hc : isSpace c = false) (s t : Line) :
    rstrip (s ++ c :: t) = s ++ c :: rstrip t := by
  rw [rstrip, rstrip, List.rdropWhile, List.reverse_append, List.reverse_cons, List.append_assoc,
    List.dropWhile_append]
  split_ifs with hempty
  · rw [List.isEmpty_iff] at hempty
    rw [List.singleton_append, List.dropWhile_cons_of_neg (by simp [hc]), List.rdropWhile, hempty]
    simp
  · simp [List.rdropWhile]

theorem rstrip_blanks (k : Nat) : rstrip (blanks k) = [] := by
  rw [rstrip, List.rdropWhile_eq_nil_iff]
  intro c hc
  rw [(List.mem_replicate.mp hc).2, isSpace_blank]

namespace YamlLine

variable {n : Name} {t : Tail} {k : Nat}

theorem head?_blanks_append (hk : 0 < k) (s : Line) : (blanks k ++ s).head? = some ' ' := by
  obtain ⟨j, rfl⟩ := Nat.exists_eq_add_of_lt hk
  simp [blanks, List.replicate_succ]

theorem topKey_of_indented {l : Line} (h : l.head? = some ' ') : topKey l = none := by
  apply if_neg
  rintro ⟨-, hhead, -⟩
  exact hhead (by simp [h])

theorem topKey_key (hk : 0 < k) (n : Name) (v : Inline) : topKey (key k n v).line = none :=
  topKey_of_indented (head?_blanks_append hk _)

theorem topKey_below (hk : 0 < k) (r : Rest) : topKey (below k r).line = none :=
  topKey_of_indented (head?_blanks_append hk _)

theorem head?_header (n : Name) (t : Tail) :
    ∃ c, (header n t).line.head? = some c ∧ c ≠ ' ' ∧ c ≠ '\t' ∧ c ≠ '#' := by
  obtain ⟨c, s, hcons, hc, hhash⟩ := n.exists_cons
  refine ⟨c, by simp [line, hcons], ?_, ?_, hhash⟩
  · rintro rfl
    exact absurd hc (by decide)
  · rintro rfl
    exact absurd hc (by decide)

/-- A header is taken for one exactly if it ends with a colon. -/
theorem topKey_header (n : Name) (t : Tail) :
    topKey (header n t).line = if t.recognised then some n.chars else none := by
  obtain ⟨c, hhead, hblank, htab, hhash⟩ := head?_header n t
  have hstart : (header n t).line ≠ [] ∧
      (header n t).line.head? ∉ [some ' ', some '\t', some '#'] := by
    constructor
    · intro hnil
      rw [hnil] at hhead
      cases hhead
    · rw [hhead]
      simp [hblank, htab, hhash]
  have hend : (rstrip (header n t).line).getLast? = some ':' ↔ t.recognised = true := by
    cases t with
    | blank width =>
        have hline : (header n (.blank width)).line = n.chars ++ ':' :: blanks width := rfl
        rw [hline, rstrip_append_cons_eq isSpace_colon, rstrip_blanks]
        simp [Tail.recognised]
    | comment width text =>
        have hline : (header n (.comment width text)).line =
            (n.chars ++ ':' :: ' ' :: blanks width) ++ '#' :: text.chars := by
          simp [line, Tail.chars]
        rw [hline, rstrip_append_cons_eq isSpace_hash, Tail.recognised, decide_eq_true_iff,
          List.getLast?_append]
        cases rstrip text.chars with
        | nil => simp
        | cons d ds => simp [List.getLast?_cons_cons]
  rw [topKey]
  by_cases hrec : t.recognised = true
  · rw [if_pos ⟨hstart.1, hstart.2, hend.mpr hrec⟩, if_pos hrec, line, n.beforeColon_append,
      n.strip_chars]
  · rw [if_neg fun h => hrec (hend.mp h.2.2), if_neg hrec]

theorem take_header (n : Name) (t : Tail) (k : Nat) :
    (header n t).line.take (k + 1) ≠ blanks (k + 1) := by
  obtain ⟨c, hhead, hblank, -⟩ := head?_header n t
  intro h
  have hfirst := congrArg List.head? h
  rw [List.head?_take, hhead] at hfirst
  simp [blanks, List.replicate_succ, hblank] at hfirst

/-- No header is taken for a key or for the continuation of one. -/
theorem subKey_header (n : Name) (t : Tail) : subKey (header n t).line = none := by
  apply if_neg
  rintro ⟨htake, -⟩
  exact take_header n t 1 htake

theorem continues_header (n : Name) (t : Tail) : continues (header n t).line = false := by
  have htake : (header n t).line.take 3 ≠ [' ', ' ', ' '] := take_header n t 2
  simp [continues, htake]

/-- A key is taken for one exactly if it is indented by two blanks. -/
theorem subKey_key (hk : 0 < k) (n : Name) (v : Inline) :
    (subKey (key k n v).line).isSome = decide (k = 2) := by
  obtain ⟨c, s, hcons, hc, hhash⟩ := n.exists_cons
  by_cases htwo : k = 2
  · subst htwo
    have hline : (key 2 n v).line = (Entry.key n ⟨v.chars, v.unbroken⟩).line := rfl
    rw [hline, Entry.subKey_key]
    rfl
  · have hnone : subKey (key k n v).line = none := by
      apply if_neg
      rintro ⟨htake, hhead⟩
      match k, hk, htwo with
      | 1, _, _ =>
          have hblank : c = ' ' := by simpa [line, blanks, hcons] using htake
          rw [hblank] at hc
          cases hc
      | k + 3, _, _ => simp [line, blanks, List.replicate_succ] at hhead
    rw [hnone, decide_eq_false htwo]
    rfl

theorem subKey_below (hk : 2 < k) (r : Rest) : subKey (below k r).line = none := by
  obtain ⟨j, rfl⟩ : ∃ j, k = j + 3 := ⟨k - 3, by omega⟩
  apply if_neg
  rintro ⟨-, hhead⟩
  simp [line, blanks, List.replicate_succ] at hhead

/-- No line has a line break inside. -/
theorem unbroken_line (e : YamlLine) : Unbroken e.line := by
  have hcolon : isLineBreak ':' = false := rfl
  cases e with
  | filler f => exact (Entry.filler f).unbroken_line
  | header n t => simp [line, Entry.unbroken_name, hcolon, t.unbroken]
  | key k n v => simp [line, Entry.unbroken_blanks, Entry.unbroken_name, hcolon, v.unbroken]
  | below k r => simp [line, Entry.unbroken_blanks, r.unbroken]

end YamlLine

end PolishingRobot.Params
