import PolishingRobot.Params.MergedLines
import PolishingRobot.Params.YamlReading

/-!
# A template as a file of two levels

The lines of a template are those of nodes whose keys are indented by two blanks and
have their values on their lines, so its keys are read with these values.
-/

namespace PolishingRobot.Params

def KeyBlock.key (b : KeyBlock) : YamlLine := .key 2 b.name (.scalar b.rest)

/-- The lines of new keys. -/
def keyLines (indent : Nat) (bs : List KeyBlock) : List YamlLine :=
  bs.flatMap fun b =>
    .key indent b.name (.scalar b.rest) :: (fillers (b.more.map (·.filler))).map Entry.yaml

/-- The values of the keys in the template, on the lines of the keys. -/
def BlockYaml.blockKeys {V : Type} (y : BlockYaml V) (bs : List KeyBlock) : Loaded V :=
  .mapping (bs.map fun b => (.str b.name.chars, y.scalar b.rest))

/-- The lines are keys of the template, blank lines and comments. -/
def KeysOnly (es : List YamlLine) (bs : List KeyBlock) : Prop :=
  es.filter (·.significant) = bs.map (·.key)

section KeysOnly

variable {ended : Bool} {es es' : List YamlLine} {bs bs' : List KeyBlock}

theorem filter_quiet (h : Quiet es) : es.filter (·.significant) = [] := by
  rw [List.filter_eq_nil_iff]
  intro e he
  rw [h e he]
  exact Bool.false_ne_true

theorem keysOnly_quiet (h : Quiet es) : KeysOnly es [] := filter_quiet h

theorem KeysOnly.append (h : KeysOnly es bs) (h' : KeysOnly es' bs') : KeysOnly (es ++ es') (bs ++ bs') := by
  rw [KeysOnly, List.filter_append, h, h', List.map_append]

theorem keysOnly_key (b : KeyBlock) : KeysOnly [b.key] [b] := List.filter_cons_of_pos rfl

theorem keysOnly_core (b : KeyBlock) : KeysOnly (b.core.map Entry.yaml) [b] :=
  (keysOnly_key b).append (keysOnly_quiet (quiet_fillers (b.more.map (·.filler))))

theorem keysOnly_blockEntries (bs : List KeyBlock) : KeysOnly ((blockEntries bs).map Entry.yaml) bs := by
  induction bs with
  | nil => rfl
  | cons b bs ih =>
      rw [blockEntries_cons, KeyBlock.entries, List.map_append, List.map_append]
      exact ((keysOnly_quiet (quiet_fillers b.above)).append (keysOnly_core b)).append ih

theorem keyLines_cons (k : Nat) (b : KeyBlock) (bs : List KeyBlock) :
    keyLines k (b :: bs) = .key k b.name (.scalar b.rest) ::
      ((fillers (b.more.map (·.filler))).map Entry.yaml ++ keyLines k bs) := rfl

theorem keyLines_append (k : Nat) (bs cs : List KeyBlock) :
    keyLines k (bs ++ cs) = keyLines k bs ++ keyLines k cs := List.flatMap_append

theorem keyLines_eq (bs : List KeyBlock) :
    keyLines 2 bs = bs.flatMap fun b => b.core.map Entry.yaml := rfl

theorem keysOnly_keyLines (bs : List KeyBlock) : KeysOnly (keyLines 2 bs) bs := by
  induction bs with
  | nil => rfl
  | cons b bs ih => exact (keysOnly_core b).append ih

/-- Every line stands inside a node with the indentation of the template. -/
theorem KeysOnly.inside (h : KeysOnly es bs) {e : YamlLine} (he : e ∈ es) : e.Inside 2 := by
  cases hsignificant : e.significant with
  | false =>
      cases e with
      | filler f => trivial
      | header n t => cases hsignificant
      | key k n v => cases hsignificant
      | below m r => cases hsignificant
  | true =>
      have hmem : e ∈ es.filter (·.significant) := List.mem_filter.mpr ⟨he, hsignificant⟩
      rw [h] at hmem
      obtain ⟨b, -, rfl⟩ := List.mem_map.mp hmem
      rfl

theorem KeysOnly.leads (h : KeysOnly es bs) (hbs : bs ≠ []) : Leads 2 es := by
  obtain ⟨b, bs, rfl⟩ := List.exists_cons_of_ne_nil hbs
  obtain ⟨pre, post, rfl, hpre, -, -⟩ := List.filter_eq_cons_iff.mp h
  exact ⟨pre, b.name, _, post, rfl, fun e he => Bool.eq_false_iff.mpr (hpre e he)⟩

/-- A field is a key of the template with its value on its line. -/
def Field.Reads (f : Field) (b : KeyBlock) : Prop :=
  f.name = b.name ∧ f.value.indent = 2 ∧ f.value.inline = .scalar b.rest ∧ Quiet f.value.below

/-- The fields in the lines are the keys of the template. -/
theorem KeysOnly.fields (h : KeysOnly es bs) (ended : Bool) :
    Quiet (fieldsOf ended es).1 ∧ List.Forall₂ Field.Reads (fieldsOf ended es).2 bs := by
  induction es generalizing bs with
  | nil =>
      obtain rfl : bs = [] := List.map_eq_nil_iff.mp h.symm
      exact ⟨fun e he => absurd he List.not_mem_nil, .nil⟩
  | cons e es ih =>
      cases hsignificant : e.significant with
      | false =>
          rw [KeysOnly, List.filter_cons_of_neg (by simp [hsignificant])] at h
          have hfiller : Quiet [e] := List.forall_mem_singleton.mpr hsignificant
          have hname : e.keyName = none := keyless_of_quiet hfiller e (List.mem_singleton_self e)
          obtain ⟨hquiet, hfields⟩ := ih h
          rw [fieldsOf_cons hname]
          exact ⟨List.forall_mem_cons.mpr ⟨hsignificant, hquiet⟩, hfields⟩
      | true =>
          rw [KeysOnly, List.filter_cons_of_pos hsignificant] at h
          cases bs with
          | nil => cases h
          | cons b bs =>
              obtain ⟨hkey, hrest⟩ := List.cons.inj h
              subst hkey
              obtain ⟨hquiet, hfields⟩ := ih hrest
              exact ⟨fun e he => absurd he List.not_mem_nil, .cons ⟨rfl, rfl, rfl, hquiet⟩ hfields⟩

theorem names_of_reads {fs : List Field} (h : List.Forall₂ Field.Reads fs bs) :
    fs.map (·.name) = bs.map (·.name) := by
  induction h with
  | nil => rfl
  | cons hread _ ih => rw [List.map_cons, List.map_cons, ih, hread.1]

theorem exists_of_reads {fs : List Field} (h : List.Forall₂ Field.Reads fs bs) {f : Field}
    (hf : f ∈ fs) : ∃ b ∈ bs, f.Reads b := by
  induction h with
  | nil => cases hf
  | cons hread _ ih =>
      rcases List.mem_cons.mp hf with rfl | hf
      · exact ⟨_, List.mem_cons_self, hread⟩
      · obtain ⟨b, hb, hread⟩ := ih hf
        exact ⟨b, List.mem_cons_of_mem _ hb, hread⟩

end KeysOnly

section OneLine

variable {V : Type} {y : BlockYaml V} {bs : List KeyBlock} {fs : List Field} {f : Field}
  {b : KeyBlock}

/-- What is read for a key of the template. -/
theorem Field.Reads.value (h : f.Reads b) (hb : y.OneLine b.rest) :
    y.Valid f.value ∧ y.value f.value = y.scalar b.rest := by
  obtain ⟨n, indent, inline, below, ended⟩ := f
  obtain ⟨-, rfl, rfl, hbelow⟩ := h
  exact hb below ended hbelow

theorem sound_of_reads (h : List.Forall₂ Field.Reads fs bs) (hbs : ∀ b ∈ bs, y.OneLine b.rest) :
    y.Sound fs := by
  intro f hf
  obtain ⟨b, hb, hread⟩ := exists_of_reads h hf
  exact (hread.value (hbs b hb)).1

theorem keys_of_reads (h : List.Forall₂ Field.Reads fs bs) (hbs : ∀ b ∈ bs, y.OneLine b.rest)
    (hnodup : (bs.map (·.name)).Nodup) : y.keys fs = y.blockKeys bs := by
  rw [keys_of_nodup ((names_of_reads h).symm ▸ hnodup), BlockYaml.blockKeys]
  congr 1
  clear hnodup
  induction h with
  | nil => rfl
  | cons hread _ ih =>
      obtain ⟨hb, hbs⟩ := List.forall_mem_cons.mp hbs
      rw [List.map_cons, List.map_cons, ih hbs, hread.1, (hread.value hb).2]

end OneLine

/-- The lines of a node below its header, up to the next one. -/
def Placed.body (p : Placed) : List YamlLine :=
  (fillers p.node.lead ++ (blockEntries p.node.blocks ++ fillers p.after)).map Entry.yaml

theorem Placed.keysOnly_body (p : Placed) : KeysOnly p.body p.node.blocks := by
  have h := ((keysOnly_quiet (quiet_fillers p.node.lead)).append
    ((keysOnly_blockEntries p.node.blocks).append (keysOnly_quiet (quiet_fillers p.after))))
  rw [List.nil_append, List.append_nil, ← List.map_append, ← List.map_append] at h
  exact h

/-- A node of the template as a node of YAML. -/
def Placed.section (p : Placed) : Section where
  name := p.node.name
  tail := .blank p.node.width
  indent := 2
  indent_pos := Nat.zero_lt_two
  body := p.body
  inside _ he := p.keysOnly_body.inside he
  leads := p.keysOnly_body.leads p.node.blocks_ne
  ended := true

/-- The nodes of a file whose text ends with a newline or without. -/
def withEnd (ended : Bool) : List Section → List Section
  | [] => []
  | x :: xs => { x with ended := ended || !xs.isEmpty } :: withEnd ended xs

section WithEnd

variable {ended : Bool} {x : Section} {xs : List Section}

theorem isEmpty_withEnd (ended : Bool) (xs : List Section) :
    (withEnd ended xs).isEmpty = xs.isEmpty := by
  cases xs <;> rfl

theorem newlines_withEnd (ended : Bool) (xs : List Section) : Newlines ended (withEnd ended xs) := by
  induction xs with
  | nil => trivial
  | cons x xs ih => exact ⟨by rw [isEmpty_withEnd], ih⟩

theorem names_withEnd (ended : Bool) (xs : List Section) :
    (withEnd ended xs).map (·.name) = xs.map (·.name) := by
  induction xs with
  | nil => rfl
  | cons x xs ih => rw [withEnd, List.map_cons, List.map_cons, ih]

theorem sectionLines_withEnd (ended : Bool) (xs : List Section) :
    sectionLines (withEnd ended xs) = sectionLines xs := by
  induction xs with
  | nil => rfl
  | cons x xs ih => exact congrArg (x.lines ++ ·) ih

theorem exists_of_mem_withEnd {z : Section} (h : z ∈ withEnd ended xs) :
    ∃ x ∈ xs, ∃ ended', z = { x with ended := ended' } := by
  induction xs with
  | nil => cases h
  | cons x xs ih =>
      rcases List.mem_cons.mp h with rfl | h
      · exact ⟨x, List.mem_cons_self, _, rfl⟩
      · obtain ⟨z', hz', heq⟩ := ih h
        exact ⟨z', List.mem_cons_of_mem _ hz', heq⟩

theorem exists_mem_withEnd (ended : Bool) (hx : x ∈ xs) :
    ∃ ended', { x with ended := ended' } ∈ withEnd ended xs := by
  induction xs with
  | nil => cases hx
  | cons z xs ih =>
      rcases List.mem_cons.mp hx with rfl | hx
      · exact ⟨_, List.mem_cons_self⟩
      · obtain ⟨ended', hmem⟩ := ih hx
        exact ⟨ended', List.mem_cons_of_mem _ hmem⟩

end WithEnd

/-- The nodes of the template. -/
def Document.sections (t : Document) : List Section := t.placed.map (·.section)

/-- The lines mean what they look like, and every value is on the line of its key. -/
structure BlockYaml.PlainTemplate {V : Type} (y : BlockYaml V) (t : Document) : Prop where
  plain : ∀ e ∈ t.entries, y.Plain e.yaml
  oneLine : ∀ r ∈ t.nodes, ∀ b ∈ r.blocks, y.OneLine b.rest

section Template

variable {V : Type} {y : BlockYaml V} {t : Document}

theorem lines_placed (bottom : {fs : List Filler // Shallow fs}) (ns : List Node) :
    (nodeEntries ns ++ fillers bottom.1).map Entry.yaml =
      (fillers (following ns bottom.1)).map Entry.yaml ++
        sectionLines ((placed bottom ns).map (·.section)) := by
  induction ns with
  | nil => exact (List.append_nil _).symm
  | cons s ns ih =>
      have hlines : sectionLines ((placed bottom (s :: ns)).map (·.section)) =
          (s.body ++ fillers (following ns bottom.1)).map Entry.yaml ++
            sectionLines ((placed bottom ns).map (·.section)) := by
        simp [placed, sectionLines, Section.lines, Placed.section, Placed.body, Node.body,
          Entry.yaml]
      rw [nodeEntries_cons, List.append_assoc, List.map_append, ih, hlines, Node.entries]
      simp [following]

theorem fileLines_template (t : Document) :
    t.entries.map Entry.yaml = fileLines (t.preamble ++ following t.nodes t.bottom) t.sections := by
  rw [Document.entries, List.map_append, lines_placed ⟨t.bottom, t.shallow⟩ t.nodes, fileLines,
    fillers, fillers, fillers, List.map_append, List.map_append, List.append_assoc]
  rfl

theorem sections_names (t : Document) : t.sections.map (·.name) = t.names := by
  rw [Document.sections, List.map_map, Document.names,
    ← placed_nodes ⟨t.bottom, t.shallow⟩ t.nodes, List.map_map]
  rfl

theorem node_of_placed {p : Placed} (hp : p ∈ t.placed) : p.node ∈ t.nodes := by
  rw [← placed_nodes ⟨t.bottom, t.shallow⟩ t.nodes]
  exact List.mem_map_of_mem hp

/-- The nodes of the template map its keys to the values on their lines. -/
theorem nodes_withEnd {ended : Bool} (h : ∀ p ∈ t.placed, ∀ ended,
      y.keys (fieldsOf ended p.body).2 = y.blockKeys p.node.blocks) :
    y.nodes (withEnd ended t.sections) =
      .mapping (t.nodes.map fun r => (.str r.name.chars, y.blockKeys r.blocks)) := by
  have hall : ∀ ps : List Placed, (∀ p ∈ ps, ∀ ended,
      y.keys (fieldsOf ended p.body).2 = y.blockKeys p.node.blocks) →
      y.nodes (withEnd ended (ps.map (·.section))) =
        .mapping (ps.map fun p => (.str p.node.name.chars, y.blockKeys p.node.blocks)) := by
    intro ps hps
    rw [BlockYaml.nodes]
    congr 1
    induction ps with
    | nil => rfl
    | cons p ps ih =>
        obtain ⟨hp, hps⟩ := List.forall_mem_cons.mp hps
        rw [List.map_cons, withEnd, List.map_cons, ih hps, List.map_cons]
        exact congrArg (fun ks => (_, ks) :: _) (hp _)
  rw [Document.sections, hall t.placed h, ← placed_nodes ⟨t.bottom, t.shallow⟩ t.nodes,
    List.map_map]
  rfl

/-- A template is read with the values on the lines of its keys. -/
theorem read_template (hy : y.ReadsBlocks) {t : File} (ht : y.PlainTemplate t.doc) :
    y.read t.text = some (.mapping (t.doc.nodes.map fun r =>
      (.str r.name.chars, y.blockKeys r.blocks))) := by
  have hlines : t.text = linesText (yamlLines (fileLines
      (t.doc.preamble ++ following t.doc.nodes t.doc.bottom) (withEnd t.ended t.doc.sections)))
        t.ended := by
    rw [fileLines, sectionLines_withEnd, ← fileLines, ← fileLines_template, yamlLines, List.map_map]
    simp only [Function.comp_def, Entry.yaml_line]
    rfl
  have hreads : ∀ p ∈ t.doc.placed, ∀ ended, y.Sound (fieldsOf ended p.body).2 ∧
      y.keys (fieldsOf ended p.body).2 = y.blockKeys p.node.blocks := by
    intro p hp ended
    have hfields := (p.keysOnly_body.fields ended).2
    have hone := ht.oneLine p.node (node_of_placed hp)
    exact ⟨sound_of_reads hfields hone, keys_of_reads hfields hone p.node.nodup⟩
  have hnames : ((withEnd t.ended t.doc.sections).map (·.name)).Nodup := by
    rw [names_withEnd, sections_names]
    exact t.doc.nodup
  have hplain : ∀ e ∈ fileLines (t.doc.preamble ++ following t.doc.nodes t.doc.bottom)
      (withEnd t.ended t.doc.sections), y.Plain e := by
    intro e he
    rw [fileLines, sectionLines_withEnd, ← fileLines, ← fileLines_template] at he
    obtain ⟨d, hd, rfl⟩ := List.mem_map.mp he
    exact ht.plain d hd
  have hsound : ∀ x ∈ withEnd t.ended t.doc.sections, y.Sound x.fields := by
    intro x hx
    obtain ⟨z, hz, ended, rfl⟩ := exists_of_mem_withEnd hx
    obtain ⟨p, hp, rfl⟩ := List.mem_map.mp hz
    exact (hreads p hp ended).1
  rw [hlines, hy.reads _ _ _ hnames (newlines_withEnd _ _) hplain hsound,
    nodes_withEnd fun p hp ended => (hreads p hp ended).2]

end Template

end PolishingRobot.Params
