import PolishingRobot.Params.KeptLines
import PolishingRobot.Params.Landings
import PolishingRobot.Params.TemplateSections

/-!
# What the script inserts into a user's file

A node of the template that the user has is looked up among the recognised headers:
if it is not among them the script stops, otherwise its new keys go to the line
where it lands. Other nodes go behind the last line.
-/

namespace PolishingRobot.Params

open PolishingRobot.Lists

/-- The keys of a node of the template that the user's node lacks. -/
def lacking (r : Node) (s : Section) : List KeyBlock :=
  r.blocks.filter (·.name ∉ s.fields.map (·.name))

/-- The insertions of keys at a line, without what stands above them. -/
def keysAt (line : Nat) (bs : List KeyBlock) : List (Insertion YamlLine) :=
  bs.map fun b => ⟨line, b.core.map Entry.yaml⟩

/-- The insertions for one node of the template. -/
def placedInsertions (u : UserFile) (p : Placed) : List (Insertion YamlLine) :=
  if p.node.name ∈ u.names then
    u.landings.flatMap fun l =>
      if p.node.name = l.1.name then keysAt l.2.2 (lacking p.node l.1) else []
  else [⟨u.entries.length, p.lines.map Entry.yaml⟩]

def userInsertions (t : Document) (u : UserFile) : List (Insertion YamlLine) :=
  t.placed.flatMap (placedInsertions u)

/-- The user's lines with everything that the script inserts. -/
def userPlanned (t : Document) (u : UserFile) : List YamlLine :=
  insertAll u.entries (userInsertions t u)

/-- A header of the user that is not recognised has the name of a node of the template. -/
def HidesHeader (t : Document) (u : UserFile) : Prop :=
  ∃ r ∈ t.nodes, ∃ x ∈ u.sections, r.name = x.name ∧ x.tail.recognised = false

/-- The lines mean what they look like, and the values are scalars and lists. -/
structure BlockYaml.PlainFile {V : Type} (y : BlockYaml V) (u : UserFile) : Prop where
  plain : ∀ e ∈ u.entries, y.Plain e
  valid : ∀ x ∈ u.sections, y.Sound x.fields

theorem map_yaml_line (es : List Entry) : yamlLines (es.map Entry.yaml) = lines es := by
  rw [yamlLines, List.map_map]
  exact List.map_congr_left fun e _ => e.yaml_line

section Main

variable {V : Type} {y : BlockYaml V} {t : Document} {u : UserFile} {x : Section} {p : Place}

/-- What the script works on. -/
def userSources (y : BlockYaml V) (t : Document) (u : UserFile) : Sources V where
  tmplLines := lines t.entries
  userLines := yamlLines u.entries
  userStruct := y.nodes (withEnd false u.sections)

/-- What the script collects for a node of the template is what is planned. -/
abbrev CollectsPlanned (y : BlockYaml V) (t : Document) (u : UserFile) (p : Placed) : Prop :=
  ∃ adds, nodeAdditions (userSources y t u)
      (.str p.node.name.chars, y.blockKeys p.node.blocks) = some adds ∧
    adds.map (·.insertion) = (placedInsertions u p).map (·.map YamlLine.line)

/-- The keys of a node are found whether its last line has its newline or not. -/
theorem get_section (y : BlockYaml V) (t : Document) (hx : x ∈ u.sections) :
    ∃ keys, (userSources y t u).userStruct.get (.str x.name.chars) = some keys ∧
      ∀ name : Name, keys.contains (.str name.chars) =
        some (decide (name ∈ x.fields.map (·.name))) := by
  obtain ⟨ended, hmem⟩ := exists_mem_withEnd false hx
  have hnodup : ((withEnd false u.sections).map (·.name)).Nodup := by
    rw [names_withEnd]
    exact u.nodup
  have hnames : (fieldsOf ended x.body).2.map (·.name) = x.fields.map (·.name) := by
    rw [fields_names, Section.fields, fields_names]
  have hfields := u.fields_nodup x hx
  rw [← hnames] at hfields ⊢
  exact ⟨y.keys (fieldsOf ended x.body).2, get_sections hnodup hmem,
    contains_keys_of_nodup hfields⟩

theorem contains_section (y : BlockYaml V) (t : Document) (u : UserFile) (name : Name) :
    (userSources y t u).userStruct.contains (.str name.chars) =
      some (decide (name ∈ u.names)) := by
  rw [UserFile.names, ← names_withEnd false u.sections]
  exact contains_sections (withEnd false u.sections) name

theorem landings_nodup (u : UserFile) : (u.landings.map (·.1.name)).Nodup := by
  have hsub : ((u.sections.filter (·.tail.recognised)).map (·.name)).Nodup :=
    u.nodup.sublist (List.filter_sublist.map _)
  rwa [← landings_nodes u.preamble.length, List.map_map] at hsub

theorem placedInsertions_known (h : (x, p) ∈ u.landings) {q : Placed}
    (hname : q.node.name = x.name) :
    placedInsertions u q = keysAt p.2 (lacking q.node x) := by
  have hmem : q.node.name ∈ u.names := by
    rw [hname]
    exact List.mem_map_of_mem (mem_sections_of_landing h).1
  rw [placedInsertions, if_pos hmem, hname]
  simp only [eq_comm (a := x.name)]
  exact flatMap_unique (landings_nodup u) h fun l => keysAt l.2.2 (lacking q.node l.1)

/-- A node whose namesake is recognised. -/
theorem nodeAdditions_landing {tpre tpost : List Node} {r : Node}
    (ht : t.nodes = tpre ++ r :: tpost) (h : (x, p) ∈ u.landings) (hname : r.name = x.name) :
    CollectsPlanned y t u ⟨r, following tpost t.bottom, shallow_following t.shallow tpost⟩ := by
  obtain ⟨hx, hrec⟩ := mem_sections_of_landing h
  have hmem : r.name ∈ u.names := by
    rw [hname]
    exact List.mem_map_of_mem hx
  have hcontains := contains_section y t u r.name
  rw [decide_eq_true hmem] at hcontains
  obtain ⟨ub, hub, hend⟩ := lookup_landing h
  have hblock : lookup (userSources y t u).userBlocks (.str r.name.chars) = some ub := by
    rw [hname]
    exact hub
  obtain ⟨keys, hget, hkeys⟩ := get_section y t hx
  rw [← hname] at hget
  have hkey : ∀ b ∈ r.blocks, ∃ adds,
      keyAdditions (userSources y t u) (.str r.name.chars) ub (.str b.name.chars) = some adds ∧
        adds.map (·.insertion) = if b.name ∈ x.fields.map (·.name) then [] else
          [⟨ub.contentEnd, lines b.core⟩] := fun b hb =>
    keyAdditions_of_get rfl ht ub hb hget (hkeys b.name)
  obtain ⟨adds, hadds, hmap⟩ := collect_eq hkey
  refine ⟨adds, ?_, ?_⟩
  · rw [BlockYaml.blockKeys, nodeAdditions_known _ hcontains hblock, collect_map]
    exact hadds
  · have hplan := placedInsertions_known h (q := ⟨r, following tpost t.bottom,
      shallow_following t.shallow tpost⟩) hname
    rw [hplan, hmap, hend, flatMap_unless, keysAt, List.map_map, lacking]
    exact List.map_congr_left fun b _ => congrArg (Insertion.mk p.2) (map_yaml_line b.core).symm

/-- A node that the user does not have. -/
theorem nodeAdditions_unknown {tpre tpost : List Node} {r : Node}
    (ht : t.nodes = tpre ++ r :: tpost) (hnew : r.name ∉ u.names) :
    CollectsPlanned y t u ⟨r, following tpost t.bottom, shallow_following t.shallow tpost⟩ := by
  have hcontains := contains_section y t u r.name
  rw [decide_eq_false hnew] at hcontains
  refine ⟨_, nodeAdditions_new _ hcontains (lookup_node ht), ?_⟩
  have hlines : slice (userSources y t u).tmplLines _ _ = _ := slice_node ht
  rw [placedInsertions, if_neg hnew, List.map_singleton, List.map_singleton, hlines]
  simp only [Insertion.map, map_yaml_line, userSources, List.length_map]
  rfl

/-- Every node, unless a header hides its namesake. -/
theorem nodeAdditions_placed (h : ¬ HidesHeader t u) {tpre tpost : List Node} {r : Node}
    (ht : t.nodes = tpre ++ r :: tpost) :
    CollectsPlanned y t u ⟨r, following tpost t.bottom, shallow_following t.shallow tpost⟩ := by
  by_cases hmem : r.name ∈ u.names
  · obtain ⟨x, hx, hname⟩ := List.mem_map.mp hmem
    cases hrec : x.tail.recognised with
    | true =>
        obtain ⟨p, hp⟩ := exists_landing hx hrec
        exact nodeAdditions_landing ht hp hname.symm
    | false => exact absurd ⟨r, by rw [ht]; simp, x, hx, hname.symm, hrec⟩ h
  · exact nodeAdditions_unknown ht hmem

/-- A node whose namesake is not recognised: the lookup of its lines raises. -/
theorem nodeAdditions_hidden {r : Node} (hx : x ∈ u.sections)
    (hrec : x.tail.recognised = false) (hname : r.name = x.name) :
    nodeAdditions (userSources y t u) (.str r.name.chars, y.blockKeys r.blocks) = none := by
  have hmem : r.name ∈ u.names := by
    rw [hname]
    exact List.mem_map_of_mem hx
  have hcontains := contains_section y t u r.name
  rw [decide_eq_true hmem] at hcontains
  have hblock : lookup (userSources y t u).userBlocks (.str r.name.chars) = none := by
    rw [hname]
    exact lookup_unrecognised hx hrec
  rw [BlockYaml.blockKeys, nodeAdditions, hcontains, Option.bind_some]
  simp [hblock]

/-- What the script collects from the files as they are read. -/
theorem additions_of_reads {load : SafeLoad V} {tmplText : List Char} {userLines : List Line}
    {items : List (Key × Loaded V)} {userStruct : Loaded (Loaded V)}
    (htmpl : (load tmplText).map Loaded.orEmpty = some (.mapping items))
    (huser : (load (joinLines userLines)).map Loaded.orEmpty = some userStruct) :
    additions load tmplText userLines =
      collect (nodeAdditions ⟨splitlines tmplText, userLines, userStruct⟩) items := by
  obtain ⟨tmplLoad, htmplLoad, htmplRead⟩ := Option.map_eq_some_iff.mp htmpl
  obtain ⟨userLoad, huserLoad, huserRead⟩ := Option.map_eq_some_iff.mp huser
  simp [additions, htmplLoad, huserLoad, htmplRead, huserRead, Loaded.items]

theorem splitlines_userText (u : UserFile) : splitlines u.text = yamlLines u.entries :=
  splitlines_linesText u.complete

/-- The script reads both files as they are meant. -/
theorem additions_userSources (hy : y.ReadsBlocks) {t : File} {u : UserFile}
    (ht : y.PlainTemplate t.doc) (hu : y.PlainFile u) :
    additions y.load t.text (yamlLines u.entries) =
      collect (fun r : Node => nodeAdditions (userSources y t.doc u)
        (.str r.name.chars, y.blockKeys r.blocks)) t.doc.nodes := by
  have hentries : fileLines u.preamble (withEnd false u.sections) = u.entries := by
    rw [fileLines, sectionLines_withEnd]
    rfl
  have hnames : ((withEnd false u.sections).map (·.name)).Nodup := by
    rw [names_withEnd]
    exact u.nodup
  have hsound : ∀ x ∈ withEnd false u.sections, y.Sound x.fields := by
    intro x hx
    obtain ⟨z, hz, ended, rfl⟩ := exists_of_mem_withEnd hx
    have hsound := sound_append hy (hu.valid z hz) quiet_nil ended
    rwa [List.append_nil] at hsound
  have huser : y.read (joinLines (yamlLines u.entries)) =
      some (y.nodes (withEnd false u.sections)) := by
    rw [← hentries]
    apply hy.reads _ _ false hnames (newlines_withEnd _ _) _ hsound
    rw [hentries]
    exact hu.plain
  have hlines : splitlines t.text = lines t.doc.entries := splitlines_fileText t.complete
  rw [additions_of_reads (read_template hy ht) huser, hlines, collect_map]
  rfl

/-- The script stops at a header that it does not recognise. -/
theorem main_hidden (hy : y.ReadsBlocks) {t : File} {u : UserFile}
    (ht : y.PlainTemplate t.doc) (hu : y.PlainFile u)
    (h : HidesHeader t.doc u) : main y.load t.text (some u.text) = none := by
  obtain ⟨r, hr, x, hx, hname, hrec⟩ := h
  have hnone : ∀ rs : List Node, r ∈ rs → collect (fun r : Node =>
      nodeAdditions (userSources y t.doc u) (.str r.name.chars, y.blockKeys r.blocks)) rs =
        none := by
    intro rs
    induction rs with
    | nil => exact fun h => absurd h List.not_mem_nil
    | cons s rs ih =>
        intro hmem
        rw [collect]
        rcases List.mem_cons.mp hmem with rfl | hmem
        · rw [nodeAdditions_hidden hx hrec hname]
          rfl
        · rw [ih hmem]
          cases nodeAdditions (userSources y t.doc u) (.str s.name.chars, y.blockKeys s.blocks) <;>
            rfl
  rw [main_eq_additions, splitlines_userText, additions_userSources hy ht hu, hnone _ hr]
  rfl

/-- Otherwise it writes the user's lines with the planned insertions, or nothing if
there are none. -/
theorem main_userPlanned (hy : y.ReadsBlocks) {t : File} {u : UserFile}
    (ht : y.PlainTemplate t.doc) (hu : y.PlainFile u)
    (h : ¬ HidesHeader t.doc u) :
    ∃ out, main y.load t.text (some u.text) = some out ∧
      (userInsertions t.doc u = [] → out = .upToDate) ∧
      (userInsertions t.doc u ≠ [] → out.userText u.text =
        linesText (yamlLines (userPlanned t.doc u)) true) := by
  obtain ⟨adds, hadds, hmap⟩ := collect_placed
    (f := fun r : Node => nodeAdditions (userSources y t.doc u)
      (.str r.name.chars, y.blockKeys r.blocks))
    (h := fun p => (placedInsertions u p).map (·.map YamlLine.line))
    fun _ _ _ hnodes => nodeAdditions_placed h hnodes
  have hinsertions : adds.map (·.insertion) =
      (userInsertions t.doc u).map (·.map YamlLine.line) := by
    rw [hmap, userInsertions, List.map_flatMap]
  have hall := additions_userSources hy ht hu
  rw [hadds] at hall
  have hmain := main_eq_additions y.load t.text u.text
  rw [splitlines_userText, hall, Option.map_some] at hmain
  refine ⟨_, hmain, ?_, ?_⟩
  · intro hnone
    rw [hnone, List.map_nil, List.map_eq_nil_iff] at hinsertions
    rw [if_pos hinsertions]
  · intro hsome
    have hne : adds ≠ [] := by
      rintro rfl
      exact hsome (List.map_eq_nil_iff.mp hinsertions.symm)
    have hblocks := additions_fromTemplate hall
    have hlines : insertAll (yamlLines u.entries) (adds.map (·.insertion)) =
        yamlLines (userPlanned t.doc u) := by
      rw [hinsertions, insertAll_map]
      rfl
    have hnonempty : yamlLines (userPlanned t.doc u) ≠ [] := by
      obtain ⟨i, hi⟩ := List.exists_mem_of_ne_nil (adds.map (·.insertion)) (by simpa using hne)
      obtain ⟨l, hl⟩ := List.exists_mem_of_ne_nil i.block (hblocks i hi).block_ne
      rw [← hlines]
      exact List.ne_nil_of_mem (mem_insertAll.mpr (.inr ⟨i, hi, hl⟩))
    rw [if_neg hne, Outcome.userText, hlines, joinLines_append_newline hnonempty]
    rfl

end Main

end PolishingRobot.Params
