import PolishingRobot.Params.SyncParam

/-!
# Parameter files

A parameter file has header lines, keys indented by two blanks under them, comment
lines and blank lines. A comment that is indented deeper than the keys and follows
a key belongs to it.
-/

namespace PolishingRobot.Params

open PolishingRobot.Lists

/-- A character of a name. -/
def isNameChar (c : Char) : Bool := ¬ isSpace c && c ≠ ':'

/-- The characters of a name. -/
def IsName (n : Line) : Prop := n ≠ [] ∧ n.all isNameChar = true ∧ n.head? ≠ some '#'

instance (n : Line) : Decidable (IsName n) := inferInstanceAs (Decidable (_ ∧ _ ∧ _))

/-- A name of a node or of a key. -/
structure Name where
  chars : Line
  isName : IsName chars
  deriving DecidableEq

/-- The rest of a line. -/
structure Rest where
  chars : Line
  unbroken : Unbroken chars

/-- A line without a name. -/
inductive Filler where
  | blank (width : Nat)
  | comment (indent : Nat) (text : Rest)

/-- A comment that is indented deeper than a key. -/
def Filler.deeper : Filler → Bool
  | .blank _ => false
  | .comment indent _ => 3 ≤ indent

inductive Entry where
  | filler (f : Filler)
  | header (name : Name) (width : Nat)
  | key (name : Name) (rest : Rest)

def blanks (n : Nat) : Line := List.replicate n ' '

def Entry.line : Entry → Line
  | .filler (.blank width) => blanks width
  | .filler (.comment indent text) => blanks indent ++ '#' :: text.chars
  | .header name width => name.chars ++ ':' :: blanks width
  | .key name rest => ' ' :: ' ' :: (name.chars ++ ':' :: rest.chars)

/-- The line continues a key above it. -/
def Entry.continues : Entry → Bool
  | .filler f => f.deeper
  | _ => false

abbrev lines (es : List Entry) : List Line := es.map Entry.line

abbrev fillers (fs : List Filler) : List Entry := fs.map Entry.filler

section Strip

variable {s t : Line} {c : Char}

@[simp] theorem isSpace_blank : isSpace ' ' = true := rfl

@[simp] theorem isSpace_colon : isSpace ':' = false := rfl

@[simp] theorem isSpace_hash : isSpace '#' = false := rfl

theorem lstrip_blanks_append (n : Nat) (s : Line) : lstrip (blanks n ++ s) = lstrip s := by
  rw [lstrip, List.dropWhile_append_of_pos]
  · rfl
  · intro c hc
    rw [(List.mem_replicate.mp hc).2, isSpace_blank]

theorem lstrip_cons (hc : isSpace c = false) (s : Line) : lstrip (c :: s) = c :: s := by
  rw [lstrip, List.dropWhile_cons_of_neg]
  simp [hc]

/-- `rstrip` keeps everything up to a character that is no space. -/
theorem rstrip_append_cons (hc : isSpace c = false) (s t : Line) :
    ∃ u, rstrip (s ++ c :: t) = s ++ c :: u ∧ ((∀ d ∈ t, isSpace d = true) → u = []) := by
  rw [rstrip, List.rdropWhile, List.reverse_append, List.reverse_cons, List.append_assoc,
    List.dropWhile_append]
  by_cases hempty : (t.reverse.dropWhile isSpace).isEmpty
  · refine ⟨[], ?_, fun _ => rfl⟩
    rw [if_pos hempty, List.singleton_append, List.dropWhile_cons_of_neg (by simp [hc])]
    simp
  · refine ⟨(t.reverse.dropWhile isSpace).reverse, ?_, ?_⟩
    · rw [if_neg hempty]
      simp
    · intro hall
      rw [List.isEmpty_iff] at hempty
      exact absurd (List.dropWhile_eq_nil_iff.mpr fun d hd => hall d (List.mem_reverse.mp hd)) hempty

theorem strip_of_head_last {d : Char} (hc : isSpace c = false) (hd : isSpace d = false) :
    strip (c :: s ++ [d]) = c :: s ++ [d] := by
  rw [strip, List.cons_append, lstrip_cons hc, ← List.cons_append]
  obtain ⟨u, hu, hnil⟩ := rstrip_append_cons hd (c :: s) []
  rw [hu, hnil (by simp)]

theorem Name.isSpace_of_mem (n : Name) {c : Char} (hc : c ∈ n.chars) : isSpace c = false := by
  have h := List.all_eq_true.mp n.isName.2.1 c hc
  simp only [isNameChar, Bool.and_eq_true, decide_eq_true_eq] at h
  simpa using h.1

theorem Name.ne_colon_of_mem (n : Name) {c : Char} (hc : c ∈ n.chars) : c ≠ ':' := by
  have h := List.all_eq_true.mp n.isName.2.1 c hc
  simp only [isNameChar, Bool.and_eq_true, decide_eq_true_eq] at h
  exact h.2

theorem Name.exists_cons (n : Name) :
    ∃ c s, n.chars = c :: s ∧ isSpace c = false ∧ c ≠ '#' := by
  obtain ⟨c, s, hcons⟩ := List.exists_cons_of_ne_nil n.isName.1
  refine ⟨c, s, hcons, n.isSpace_of_mem (by simp [hcons]), ?_⟩
  rintro rfl
  exact n.isName.2.2 (by rw [hcons]; rfl)

theorem Name.strip_chars (n : Name) : strip n.chars = n.chars := by
  obtain ⟨c, s, hcons, hc, -⟩ := n.exists_cons
  rcases List.eq_nil_or_concat' s with rfl | ⟨init, d, rfl⟩
  · obtain ⟨u, hu, hnil⟩ := rstrip_append_cons hc [] []
    rw [List.nil_append] at hu
    rw [hcons, strip, lstrip_cons hc, hu, hnil (by simp)]
    rfl
  · rw [hcons]
    exact strip_of_head_last hc (n.isSpace_of_mem (by simp [hcons]))

theorem Name.beforeColon_append (n : Name) (s : Line) :
    beforeColon (n.chars ++ ':' :: s) = n.chars := by
  rw [beforeColon, List.takeWhile_append_of_pos, List.takeWhile_cons_of_neg (by simp),
    List.append_nil]
  intro c hc
  simpa using n.ne_colon_of_mem hc

end Strip

namespace Entry

@[simp] theorem topKey_filler (f : Filler) : topKey (filler f).line = none := by
  apply if_neg
  rintro ⟨hne, hhead, -⟩
  apply hhead
  cases f with
  | blank width =>
      cases width with
      | zero => exact absurd rfl hne
      | succ width => simp [line, blanks, List.replicate_succ]
  | comment indent text =>
      cases indent with
      | zero => simp [line, blanks]
      | succ indent => simp [line, blanks, List.replicate_succ]

@[simp] theorem topKey_key (n : Name) (r : Rest) : topKey (key n r).line = none := by
  apply if_neg
  rintro ⟨-, hhead, -⟩
  exact hhead (by simp [line])

@[simp] theorem topKey_header (n : Name) (w : Nat) : topKey (header n w).line = some n.chars := by
  obtain ⟨c, s, hcons, hc, hhash⟩ := n.exists_cons
  obtain ⟨u, hu, hnil⟩ := rstrip_append_cons isSpace_colon n.chars (blanks w)
  have hspaces : ∀ d ∈ blanks w, isSpace d = true := by
    intro d hd
    rw [(List.mem_replicate.mp hd).2, isSpace_blank]
  have hhead : (header n w).line.head? = some c := by simp [line, hcons]
  rw [topKey, if_pos]
  · rw [line, n.beforeColon_append, n.strip_chars]
  · refine ⟨by simp [line], ?_, ?_⟩
    · rw [hhead]
      have hblank : c ≠ ' ' := by
        rintro rfl
        exact absurd hc (by decide)
      have htab : c ≠ '\t' := by
        rintro rfl
        exact absurd hc (by decide)
      simp [hblank, htab, hhash]
    · rw [line, hu, hnil hspaces]
      simp

@[simp] theorem subKey_filler (f : Filler) : subKey (filler f).line = none := by
  apply if_neg
  rintro ⟨htake, hhead⟩
  apply hhead
  cases f with
  | blank width =>
      match width with
      | 0 => simp [line, blanks] at htake
      | 1 => simp [line, blanks] at htake
      | 2 => simp [line, blanks]
      | width + 3 => simp [line, blanks, List.replicate_succ]
  | comment indent text =>
      match indent with
      | 0 => simp [line, blanks] at htake
      | 1 => simp [line, blanks] at htake
      | 2 => simp [line, blanks, List.replicate_succ]
      | indent + 3 => simp [line, blanks, List.replicate_succ]

@[simp] theorem subKey_key (n : Name) (r : Rest) : subKey (key n r).line = some n.chars := by
  obtain ⟨c, s, hcons, hc, hhash⟩ := n.exists_cons
  obtain ⟨u, hu, -⟩ := rstrip_append_cons isSpace_colon n.chars r.chars
  have hstrip : strip (key n r).line = n.chars ++ ':' :: u := by
    have hline : (key n r).line = blanks 2 ++ (n.chars ++ ':' :: r.chars) := rfl
    rw [strip, hline, lstrip_blanks_append, ← hu, hcons, List.cons_append, lstrip_cons hc]
  have hblank : c ≠ ' ' := by
    rintro rfl
    exact absurd hc (by decide)
  rw [subKey, if_pos, hstrip, if_pos, n.beforeColon_append, n.strip_chars]
  · simp [hcons, hhash]
  · simp [line, hcons, hblank, hhash]

theorem line_continues (e : Entry) : Params.continues e.line = e.continues := by
  cases e with
  | header n w => simp [Params.continues, continues]
  | key n r => simp [Params.continues, continues]
  | filler f =>
      cases f with
      | blank width =>
          have hstrip : strip (filler (.blank width)).line = [] := by
            have hline : (filler (.blank width)).line = blanks width ++ [] := by simp [line]
            rw [strip, hline, lstrip_blanks_append]
            rfl
          simp [Params.continues, hstrip, continues, Filler.deeper]
      | comment indent text =>
          have hstrip : strip (filler (.comment indent text)).line ≠ [] := by
            obtain ⟨u, hu, -⟩ := rstrip_append_cons isSpace_hash [] text.chars
            rw [List.nil_append] at hu
            rw [strip, line, lstrip_blanks_append, lstrip_cons isSpace_hash, hu]
            simp
          have htake : (filler (.comment indent text)).line.take 3 = [' ', ' ', ' '] ↔
              3 ≤ indent := by
            match indent with
            | 0 => simp [line, blanks]
            | 1 => simp [line, blanks]
            | 2 => simp [line, blanks, List.replicate_succ]
            | indent + 3 => simp [line, blanks, List.replicate_succ]
          simp [Params.continues, hstrip, continues, Filler.deeper, htake]

theorem unbroken_blanks (n : Nat) : Unbroken (blanks n) := by
  intro c hc
  rw [(List.mem_replicate.mp hc).2]
  rfl

theorem unbroken_name (n : Name) : Unbroken n.chars := by
  intro c hc
  by_contra hbreak
  have hspace := isSpace_of_isLineBreak (Bool.of_not_eq_false hbreak)
  rw [n.isSpace_of_mem hc] at hspace
  cases hspace

/-- No line of a parameter file has a line break inside. -/
theorem unbroken_line (e : Entry) : Unbroken e.line := by
  have hblank : isLineBreak ' ' = false := rfl
  have hcolon : isLineBreak ':' = false := rfl
  have hhash : isLineBreak '#' = false := rfl
  cases e with
  | header n w => simp [line, unbroken_name, unbroken_blanks, hcolon]
  | key n r => simp [line, unbroken_name, hblank, hcolon, r.unbroken]
  | filler f =>
      cases f with
      | blank width => exact unbroken_blanks width
      | comment indent text => simp [line, unbroken_blanks, hhash, text.unbroken]

end Entry

/-- No continuation comes first. -/
def Shallow (fs : List Filler) : Prop := ∀ f, fs.head? = some f → f.deeper = false

theorem shallow_nil : Shallow [] := fun _ h => nomatch h

/-- A comment that continues a key. -/
structure Extension where
  extra : Nat
  text : Rest

def Extension.filler (x : Extension) : Filler := .comment (3 + x.extra) x.text

/-- A key with the comments that continue it, and what stands above it. -/
structure KeyBlock where
  above : List Filler
  shallow : Shallow above
  name : Name
  rest : Rest
  more : List Extension

/-- A node with at least one key; `lead` stands between its header and the first key. -/
structure Node where
  above : List Filler
  shallow : Shallow above
  name : Name
  width : Nat
  lead : List Filler
  blocks : List KeyBlock
  blocks_ne : blocks ≠ []
  nodup : (blocks.map (·.name)).Nodup

/-- A parameter file. -/
structure Document where
  preamble : List Filler
  nodes : List Node
  nodup : (nodes.map (·.name)).Nodup
  bottom : List Filler
  shallow : Shallow bottom

/-- The lines of the key itself. -/
def KeyBlock.core (b : KeyBlock) : List Entry :=
  .key b.name b.rest :: fillers (b.more.map (·.filler))

def KeyBlock.entries (b : KeyBlock) : List Entry := fillers b.above ++ b.core

def blockEntries (bs : List KeyBlock) : List Entry := bs.flatMap (·.entries)

/-- The node from its header on. -/
def Node.body (s : Node) : List Entry :=
  .header s.name s.width :: (fillers s.lead ++ blockEntries s.blocks)

def Node.entries (s : Node) : List Entry := fillers s.above ++ s.body

def nodeEntries (ss : List Node) : List Entry := ss.flatMap (·.entries)

def Document.entries (d : Document) : List Entry :=
  fillers d.preamble ++ (nodeEntries d.nodes ++ fillers d.bottom)

abbrev Node.keys (s : Node) : List Name := s.blocks.map (·.name)

abbrev Document.names (d : Document) : List Name := d.nodes.map (·.name)

/-- The text of the lines, with a newline at its end or without. -/
def fileText (es : List Entry) (ended : Bool) : List Char :=
  if ended then unlines (lines es) else joinLines (lines es)

section Entries

@[simp] theorem blockEntries_nil : blockEntries [] = [] := rfl

@[simp] theorem blockEntries_cons (b : KeyBlock) (bs : List KeyBlock) :
    blockEntries (b :: bs) = b.entries ++ blockEntries bs := rfl

@[simp] theorem blockEntries_append (bs cs : List KeyBlock) :
    blockEntries (bs ++ cs) = blockEntries bs ++ blockEntries cs := List.flatMap_append

@[simp] theorem nodeEntries_nil : nodeEntries [] = [] := rfl

@[simp] theorem nodeEntries_cons (s : Node) (ss : List Node) :
    nodeEntries (s :: ss) = s.entries ++ nodeEntries ss := rfl

@[simp] theorem nodeEntries_append (ss ts : List Node) :
    nodeEntries (ss ++ ts) = nodeEntries ss ++ nodeEntries ts := List.flatMap_append

theorem Name.chars_injective : Function.Injective Name.chars := by
  intro m n h
  cases m
  cases n
  simpa using h

theorem Name.eq_of_key {m n : Name} (h : Key.str m.chars = .str n.chars) : m = n :=
  Name.chars_injective (Key.str.inj h)

theorem Node.nodup_chars (s : Node) : (s.blocks.map (·.name.chars)).Nodup := by
  have h := s.nodup.map Name.chars_injective
  rwa [List.map_map] at h

theorem Document.nodup_chars (d : Document) : (d.nodes.map (·.name.chars)).Nodup := by
  have h := d.nodup.map Name.chars_injective
  rwa [List.map_map] at h

end Entries

/-- The keys in front of the first header, and those under every header. -/
def group : List Entry → List (Name × Rest) × List (Name × List (Name × Rest))
  | [] => ([], [])
  | .filler _ :: es => group es
  | .header n _ :: es => ([], (n, (group es).1) :: (group es).2)
  | .key k r :: es => ((k, r) :: (group es).1, (group es).2)

abbrev KeyBlock.binding (b : KeyBlock) : Name × Rest := (b.name, b.rest)

abbrev Node.bindings (s : Node) : Name × List (Name × Rest) :=
  (s.name, s.blocks.map (·.binding))

section Group

@[simp] theorem group_fillers (fs : List Filler) (es : List Entry) :
    group (fillers fs ++ es) = group es := by
  induction fs with
  | nil => rfl
  | cons f fs ih => exact ih

@[simp] theorem group_core (b : KeyBlock) (es : List Entry) :
    group (b.core ++ es) = (b.binding :: (group es).1, (group es).2) := by
  rw [KeyBlock.core, List.cons_append, group, group_fillers]

theorem group_blockEntries (bs : List KeyBlock) (es : List Entry) :
    group (blockEntries bs ++ es) = (bs.map (·.binding) ++ (group es).1, (group es).2) := by
  induction bs with
  | nil => rfl
  | cons b bs ih =>
      rw [blockEntries_cons, KeyBlock.entries, List.append_assoc, List.append_assoc,
        group_fillers, group_core, ih]
      rfl

theorem group_body (s : Node) (es : List Entry) :
    group (s.body ++ es) =
      ([], (s.name, s.blocks.map (·.binding) ++ (group es).1) :: (group es).2) := by
  rw [Node.body, List.cons_append, group, List.append_assoc, group_fillers, group_blockEntries]

theorem group_nodeEntries {es : List Entry} (hes : (group es).1 = []) (ss : List Node) :
    group (nodeEntries ss ++ es) = ([], ss.map (·.bindings) ++ (group es).2) := by
  induction ss with
  | nil => exact Prod.ext hes rfl
  | cons s ss ih =>
      rw [nodeEntries_cons, Node.entries, List.append_assoc, List.append_assoc, group_fillers,
        group_body, ih, List.append_nil]
      rfl

theorem group_entries (d : Document) : group d.entries = ([], d.nodes.map (·.bindings)) := by
  have hbottom : group (fillers d.bottom) = ([], []) := by
    have h := group_fillers d.bottom []
    rwa [List.append_nil] at h
  rw [Document.entries, group_fillers, group_nodeEntries (by rw [hbottom]), hbottom,
    List.append_nil]

end Group

section Text

variable {es : List Entry} {ended : Bool}

theorem unbroken_lines (es : List Entry) : ∀ l ∈ lines es, Unbroken l := by
  intro l hl
  obtain ⟨e, -, rfl⟩ := List.mem_map.mp hl
  exact e.unbroken_line

/-- A text whose last line is written out is split into its lines. -/
theorem splitlines_fileText (h : ended = true ∨ (lines es).getLast? ≠ some []) :
    splitlines (fileText es ended) = lines es := by
  cases ended with
  | true => exact splitlines_unlines (unbroken_lines es)
  | false => exact splitlines_joinLines (unbroken_lines es) (h.resolve_left nofun)

end Text

end PolishingRobot.Params
