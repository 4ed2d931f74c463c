import PolishingRobot.Params.Blocks

/-!
# What the script inserts

For parameter files that the loader reads as such, the script inserts every node
that the user lacks behind the last line, and every key that a node of the user
lacks behind the last key of that node.
-/

namespace PolishingRobot.Params

open PolishingRobot.Lists

/-- The YAML loader: `Plain` lines mean what they look like, and `value` is the
scalar of a line. -/
structure Yaml (V : Type) where
  load : SafeLoad V
  Plain : Entry → Prop
  value : Rest → V

/-- `yaml.safe_load(text) or {}`. -/
def Yaml.read {V : Type} (y : Yaml V) (text : List Char) : Option (Loaded (Loaded V)) :=
  (y.load text).map Loaded.orEmpty

def Yaml.keys {V : Type} (y : Yaml V) (ks : List (Name × Rest)) : Loaded V :=
  .mapping (ks.map fun k => (.str k.1.chars, y.value k.2))

def Yaml.nodes {V : Type} (y : Yaml V) (ns : List (Name × List (Name × Rest))) :
    Loaded (Loaded V) :=
  .mapping (ns.map fun n => (.str n.1.chars, y.keys n.2))

/-- The value is at this key of this node. -/
def Maps {V : Type} (m : Loaded (Loaded V)) (node key : Key) (v : V) : Prop :=
  ∃ nodes keys, m = .mapping nodes ∧ (node, .mapping keys) ∈ nodes ∧ (key, v) ∈ keys

/-- The loader reads parameter files: the two levels of a file with unique names;
and whatever it makes of repeated keys, no key leaves its node. -/
structure Yaml.ReadsFiles {V : Type} (y : Yaml V) : Prop where
  blank : y.Plain (.filler (.blank 0))
  reads : ∀ (d : Document) (ended : Bool), (∀ e ∈ d.entries, y.Plain e) →
    y.read (fileText d.entries ended) = some (y.nodes (group d.entries).2)
  confines : ∀ (es : List Entry) (ended : Bool) (m : Loaded (Loaded V)),
    (∀ e ∈ es, y.Plain e) → (group es).1 = [] → y.read (fileText es ended) = some m →
    ∀ node key v, Maps m node key v → ∃ n ∈ (group es).2, ∃ k ∈ n.2,
      node = .str n.1.chars ∧ key = .str k.1.chars

/-- A parameter file as text; without a last newline its last line is not empty. -/
structure File where
  doc : Document
  ended : Bool
  complete : ended = true ∨ (lines doc.entries).getLast? ≠ some []

def File.text (f : File) : List Char := fileText f.doc.entries f.ended

/-- A node with the lines up to the next header. -/
structure Placed where
  node : Node
  after : List Filler
  shallow : Shallow after

theorem shallow_following {bottom : List Filler} (h : Shallow bottom) (ss : List Node) :
    Shallow (following ss bottom) := by
  cases ss with
  | nil => exact h
  | cons s _ => exact s.shallow

def placed (bottom : {fs : List Filler // Shallow fs}) : List Node → List Placed
  | [] => []
  | s :: ss => ⟨s, following ss bottom.1, shallow_following bottom.2 ss⟩ :: placed bottom ss

def Document.placed (d : Document) : List Placed := Params.placed ⟨d.bottom, d.shallow⟩ d.nodes

/-- The nodes with the numbers of the lines behind them. -/
def ends (i : Nat) : List Node → List (Node × Nat)
  | [] => []
  | s :: ss => (s, i + s.entries.length) :: ends (i + s.entries.length) ss

def Document.ends (d : Document) : List (Node × Nat) := Params.ends d.preamble.length d.nodes

/-- The keys of a node that another one lacks. -/
def missing (r s : Node) : List KeyBlock := r.blocks.filter (·.name ∉ s.keys)

/-- The lines of a new node, behind an empty one. -/
def Placed.lines (p : Placed) : List Entry :=
  .filler (.blank 0) :: (p.node.body ++ fillers p.after)

/-- The insertions for one node of the template. -/
def nodeInsertions (u : Document) (p : Placed) : List (Insertion Entry) :=
  if p.node.name ∈ u.names then
    u.ends.flatMap fun e =>
      if p.node.name = e.1.name then (missing p.node e.1).map fun b => ⟨e.2, b.core⟩ else []
  else [⟨u.entries.length, p.lines⟩]

def insertions (t u : Document) : List (Insertion Entry) := t.placed.flatMap (nodeInsertions u)

section Plan

variable {V : Type} {y : Yaml V} {t u : Document}

theorem collect_eq {α : Type} {f : α → Option (List Addition)} {h : α → List (Insertion Line)}
    {as : List α} (hf : ∀ a ∈ as, ∃ adds, f a = some adds ∧ adds.map (·.insertion) = h a) :
    ∃ adds, collect f as = some adds ∧ adds.map (·.insertion) = as.flatMap h := by
  induction as with
  | nil => exact ⟨[], rfl, rfl⟩
  | cons a as ih =>
      obtain ⟨xs, hxs, hmap⟩ := hf a (by simp)
      obtain ⟨ys, hys, hmap'⟩ := ih fun b hb => hf b (by simp [hb])
      refine ⟨xs ++ ys, ?_, ?_⟩
      · rw [collect, hxs, Option.bind_some, hys]
        rfl
      · rw [List.map_append, hmap, hmap', List.flatMap_cons]

theorem collect_map {α β : Type} (f : β → Option (List Addition)) (g : α → β) (as : List α) :
    collect f (as.map g) = collect (fun a => f (g a)) as := by
  induction as with
  | nil => rfl
  | cons a as ih => rw [List.map_cons, collect, collect, ih]

theorem flatMap_unless {α β : Type} (p : α → Prop) [DecidablePred p] (f : α → β) (as : List α) :
    (as.flatMap fun a => if p a then [] else [f a]) = (as.filter fun a => ¬ p a).map f := by
  induction as with
  | nil => rfl
  | cons a as ih =>
      rw [List.flatMap_cons, ih]
      by_cases h : p a <;> simp [h]

theorem mem_ends {i : Nat} {pre post : List Node} {s : Node} :
    (s, i + (nodeEntries pre).length + s.entries.length) ∈ ends i (pre ++ s :: post) := by
  induction pre generalizing i with
  | nil => simp [ends]
  | cons r pre ih =>
      have hlength : i + (nodeEntries (r :: pre)).length =
          i + r.entries.length + (nodeEntries pre).length := by
        rw [nodeEntries_cons, List.length_append, ← Nat.add_assoc]
      rw [hlength, List.cons_append, ends]
      exact List.mem_cons_of_mem _ ih

@[simp] theorem ends_nodes (i : Nat) (ss : List Node) : (ends i ss).map (·.1) = ss := by
  induction ss generalizing i with
  | nil => rfl
  | cons s ss ih => rw [ends, List.map_cons, ih]

theorem mem_names_of_end {e : Node × Nat} (he : e ∈ u.ends) : e.1.name ∈ u.names := by
  have hnode : e.1 ∈ u.ends.map (·.1) := List.mem_map_of_mem he
  rw [Document.ends, ends_nodes] at hnode
  exact List.mem_map_of_mem hnode

theorem flatMap_of_forall_ne {α β κ : Type} [DecidableEq κ] {key : α → κ} {n : κ} {as : List α}
    (h : ∀ a ∈ as, key a ≠ n) (f : α → List β) :
    (as.flatMap fun a => if key a = n then f a else []) = [] := by
  rw [List.flatMap_eq_nil_iff]
  intro a ha
  exact if_neg (h a ha)

/-- Of elements with different keys only one counts. -/
theorem flatMap_unique {α β κ : Type} [DecidableEq κ] {key : α → κ} {a : α} {as : List α}
    (hnodup : (as.map key).Nodup) (ha : a ∈ as) (f : α → List β) :
    (as.flatMap fun a' => if key a' = key a then f a' else []) = f a := by
  induction as with
  | nil => cases ha
  | cons d as ih =>
      obtain ⟨hnot, hnodup⟩ := List.nodup_cons.mp hnodup
      rw [List.flatMap_cons]
      rcases List.mem_cons.mp ha with rfl | ha
      · have hrest : ∀ a' ∈ as, key a' ≠ key a := by
          intro a' ha' heq
          exact hnot (List.mem_map.mpr ⟨a', ha', heq⟩)
        rw [if_pos rfl, flatMap_of_forall_ne hrest, List.append_nil]
      · have hne : key d ≠ key a := by
          intro heq
          exact hnot (List.mem_map.mpr ⟨a, ha, heq.symm⟩)
        rw [if_neg hne, List.nil_append, ih hnodup ha]

theorem ends_nodup (u : Document) : (u.ends.map (·.1.name)).Nodup := by
  have h := u.nodup
  rwa [← ends_nodes u.preamble.length u.nodes, List.map_map] at h

theorem nodeInsertions_known {e : Node × Nat} (he : e ∈ u.ends) {p : Placed}
    (h : p.node.name = e.1.name) :
    nodeInsertions u p = (missing p.node e.1).map fun b => ⟨e.2, b.core⟩ := by
  have hmem : p.node.name ∈ u.names := by
    rw [h]
    exact mem_names_of_end he
  rw [nodeInsertions, if_pos hmem, h]
  simp only [eq_comm (a := e.1.name)]
  exact flatMap_unique (ends_nodup u) he _

section Mapping

variable {α β : Type} {as : List α} {a : α} (name : α → Name)

theorem contains_mapping (f : α → β) (as : List α) (n : Name) :
    (Loaded.mapping (as.map fun a => (Key.str (name a).chars, f a))).contains (.str n.chars) =
      some (decide (n ∈ as.map name)) := by
  simp only [Loaded.contains, List.any_map, Option.some.injEq]
  rw [Bool.eq_iff_iff, List.any_eq_true, decide_eq_true_iff]
  simp [Name.chars_injective.eq_iff]

/-- A mapping whose keys do not repeat has the value of each. -/
theorem get_mapping (f : α → Loaded β) (hnodup : (as.map name).Nodup) (ha : a ∈ as) :
    (Loaded.mapping (as.map fun a => (Key.str (name a).chars, f a))).get (.str (name a).chars) =
      some (f a) := by
  have hstr : Function.Injective fun n : Name => Key.str n.chars := fun _ _ => Name.eq_of_key
  have hkeys : ((as.map fun a => (Key.str (name a).chars, f a)).map (·.1)).Nodup := by
    have h := hnodup.map hstr
    rw [List.map_map] at h ⊢
    exact h
  rw [Loaded.get, find?_of_nodup hkeys (List.mem_map.mpr ⟨a, ha, rfl⟩)]
  rfl

end Mapping

theorem contains_nodes (d : Document) (n : Name) :
    (y.nodes (d.nodes.map (·.bindings))).contains (.str n.chars) = some (decide (n ∈ d.names)) := by
  have hnames : (d.nodes.map (·.bindings)).map (·.1) = d.names := List.map_map
  rw [← hnames]
  exact contains_mapping Prod.fst (fun n => y.keys n.2) (d.nodes.map (·.bindings)) n

theorem contains_keys (s : Node) (n : Name) :
    (y.keys (s.blocks.map (·.binding))).contains (.str n.chars) = some (decide (n ∈ s.keys)) := by
  have hkeys : (s.blocks.map (·.binding)).map (·.1) = s.keys := List.map_map
  rw [← hkeys]
  exact contains_mapping Prod.fst (fun k => y.value k.2) (s.blocks.map (·.binding)) n

theorem get_nodes (d : Document) {s : Node} (hs : s ∈ d.nodes) :
    (y.nodes (d.nodes.map (·.bindings))).get (.str s.name.chars) =
      some (y.keys (s.blocks.map (·.binding))) := by
  have hnodup : ((d.nodes.map (·.bindings)).map (·.1)).Nodup := by
    rw [List.map_map]
    exact d.nodup
  exact get_mapping Prod.fst (fun n => y.keys n.2) hnodup (a := s.bindings) (List.mem_map_of_mem hs)

/-- What the script works on. -/
def sources (y : Yaml V) (t u : Document) : Sources V where
  tmplLines := lines t.entries
  userLines := lines u.entries
  userStruct := y.nodes (u.nodes.map (·.bindings))

/-- For a key that the user lacks, its lines in the template are inserted. -/
theorem keyAdditions_of_get {src : Sources V} {tpre tpost : List Node} {r : Node}
    (htmpl : src.tmplLines = lines t.entries) (ht : t.nodes = tpre ++ r :: tpost) (ub : NodeBlock)
    {b : KeyBlock} (hb : b ∈ r.blocks) {keys : Loaded V} {present : Prop} [Decidable present]
    (hget : src.userStruct.get (.str r.name.chars) = some keys)
    (hcontains : keys.contains (.str b.name.chars) = some (decide present)) :
    ∃ adds, keyAdditions src (.str r.name.chars) ub (.str b.name.chars) = some adds ∧
      adds.map (·.insertion) = if present then [] else [⟨ub.contentEnd, lines b.core⟩] := by
  rw [keyAdditions, hget, Option.bind_some, hcontains, Option.bind_some]
  by_cases hpresent : present
  · exact ⟨[], by simp [hpresent], by simp [hpresent]⟩
  · have hlookup := lookup_node ht
    obtain ⟨i, j, hkey, hslice⟩ := slice_key ht hb hlookup
    rw [← htmpl] at hlookup hslice
    have hblocks : lookup src.tmplBlocks (.str r.name.chars) = _ := hlookup
    simp [hpresent, hblocks, hkey, hslice]

theorem keyAdditions_eq {tpre tpost : List Node} {r s : Node} (ht : t.nodes = tpre ++ r :: tpost)
    (hs : s ∈ u.nodes) (hname : r.name = s.name) (ub : NodeBlock) {b : KeyBlock}
    (hb : b ∈ r.blocks) :
    ∃ adds, keyAdditions (sources y t u) (.str r.name.chars) ub (.str b.name.chars) = some adds ∧
      adds.map (·.insertion) = if b.name ∈ s.keys then [] else
        [⟨ub.contentEnd, lines b.core⟩] := by
  have hget : (sources y t u).userStruct.get (.str r.name.chars) =
      some (y.keys (s.blocks.map (·.binding))) := by
    rw [hname]
    exact get_nodes u hs
  exact keyAdditions_of_get rfl ht ub hb hget (contains_keys s b.name)

theorem nodeAdditions_new {src : Sources V} {node : Key} (keys : Loaded V) {tb : NodeBlock}
    (hcontains : src.userStruct.contains node = some false)
    (htmpl : lookup src.tmplBlocks node = some tb) :
    nodeAdditions src (node, keys) =
      some [⟨⟨src.userLines.length, [] :: slice src.tmplLines tb.start tb.stop⟩,
        node.text ++ newNode⟩] := by
  simp [nodeAdditions, hcontains, htmpl]

theorem nodeAdditions_known {src : Sources V} {node : Key} (keys : List (Key × V)) {ub : NodeBlock}
    (hcontains : src.userStruct.contains node = some true)
    (huser : lookup src.userBlocks node = some ub) :
    nodeAdditions src (node, .mapping keys) =
      collect (fun key => keyAdditions src node ub key.1) keys := by
  simp [nodeAdditions, hcontains, huser]

theorem nodeAdditions_eq {tpre tpost : List Node} {r : Node} (ht : t.nodes = tpre ++ r :: tpost) :
    ∃ adds, nodeAdditions (sources y t u) (.str r.name.chars, y.keys (r.blocks.map (·.binding))) =
        some adds ∧
      adds.map (·.insertion) = (nodeInsertions u ⟨r, following tpost t.bottom,
        shallow_following t.shallow tpost⟩).map (·.map Entry.line) := by
  have hcontains : (sources y t u).userStruct.contains (.str r.name.chars) =
      some (decide (r.name ∈ u.names)) := contains_nodes u r.name
  by_cases hmem : r.name ∈ u.names
  · obtain ⟨s, hs, hname⟩ := List.mem_map.mp hmem
    obtain ⟨upre, upost, hu⟩ := List.append_of_mem hs
    let e := u.preamble.length + (nodeEntries upre).length + s.entries.length
    have hub : lookup (sources y t u).userBlocks (.str r.name.chars) =
        some (nodeBlock (u.preamble.length + (nodeEntries upre).length) s
          (following upost u.bottom)) := by
      rw [← hname]
      exact lookup_node hu
    have hend : (s, e) ∈ u.ends := by
      rw [Document.ends, hu]
      exact mem_ends
    have hplan : nodeInsertions u ⟨r, following tpost t.bottom,
        shallow_following t.shallow tpost⟩ = (missing r s).map fun b => ⟨e, b.core⟩ :=
      nodeInsertions_known hend hname.symm
    rw [decide_eq_true hmem] at hcontains
    obtain ⟨adds, hadds, hmap⟩ := collect_eq fun b hb => keyAdditions_eq (y := y) ht hs hname.symm
      (nodeBlock (u.preamble.length + (nodeEntries upre).length) s (following upost u.bottom)) hb
    refine ⟨adds, ?_, ?_⟩
    · rw [Yaml.keys, nodeAdditions_known _ hcontains hub, collect_map, collect_map]
      exact hadds
    · rw [hplan, hmap, contentEnd_nodeBlock, flatMap_unless, List.map_map, missing]
      rfl
  · rw [decide_eq_false hmem] at hcontains
    refine ⟨_, nodeAdditions_new _ hcontains (lookup_node ht), ?_⟩
    have hlines := slice_node ht
    rw [nodeInsertions, if_neg hmem, List.map_singleton, List.map_singleton]
    simp only [Insertion.map, Placed.lines, List.map_cons, sources, List.length_map]
    rw [hlines]
    rfl

/-- What is inserted for a template is what is inserted for its nodes, one after the other. -/
theorem collect_placed {t : Document} {f : Node → Option (List Addition)}
    {h : Placed → List (Insertion Line)}
    (hf : ∀ pre r post, t.nodes = pre ++ r :: post → ∃ adds, f r = some adds ∧
      adds.map (·.insertion) = h ⟨r, following post t.bottom, shallow_following t.shallow post⟩) :
    ∃ adds, collect f t.nodes = some adds ∧ adds.map (·.insertion) = t.placed.flatMap h := by
  have hsuffix : ∀ post pre : List Node, t.nodes = pre ++ post →
      ∃ adds, collect f post = some adds ∧
        adds.map (·.insertion) = (placed ⟨t.bottom, t.shallow⟩ post).flatMap h := by
    intro post
    induction post with
    | nil => exact fun _ _ => ⟨[], rfl, rfl⟩
    | cons r post ih =>
        intro pre ht
        obtain ⟨xs, hxs, hmap⟩ := hf pre r post ht
        obtain ⟨ys, hys, hmap'⟩ := ih (pre ++ [r]) (by rw [ht, List.append_assoc]; rfl)
        refine ⟨xs ++ ys, ?_, ?_⟩
        · rw [collect, hxs, Option.bind_some, hys]
          rfl
        · rw [List.map_append, hmap, hmap', placed, List.flatMap_cons]
  exact hsuffix t.nodes [] rfl

/-- The additions for the template are the insertions that are planned. -/
theorem collect_nodes (y : Yaml V) (t u : Document) :
    ∃ adds, collect (nodeAdditions (sources y t u))
        ((t.nodes.map (·.bindings)).map fun n => (Key.str n.1.chars, y.keys n.2)) = some adds ∧
      adds.map (·.insertion) = (insertions t u).map (·.map Entry.line) := by
  rw [List.map_map, collect_map, insertions, List.map_flatMap]
  exact collect_placed fun pre r post ht => nodeAdditions_eq ht

theorem block_ne_nil {i : Insertion Entry} (hi : i ∈ insertions t u) : i.block ≠ [] := by
  obtain ⟨p, -, hi⟩ := List.mem_flatMap.mp hi
  rw [nodeInsertions] at hi
  split_ifs at hi
  · obtain ⟨e, -, hi⟩ := List.mem_flatMap.mp hi
    split_ifs at hi
    · obtain ⟨b, -, rfl⟩ := List.mem_map.mp hi
      exact List.cons_ne_nil _ _
    · cases hi
  · rw [List.mem_singleton.mp hi]
    exact List.cons_ne_nil _ _

/-- The user's lines with everything that the script inserts. -/
def planned (t u : Document) : List Entry := insertAll u.entries (insertions t u)

/-- On parameter files, the script writes the user's lines with the planned
insertions, or nothing if there are none. -/
theorem main_planned (hy : y.ReadsFiles) {t u : File} (ht : ∀ e ∈ t.doc.entries, y.Plain e)
    (hu : ∀ e ∈ u.doc.entries, y.Plain e) :
    ∃ out, main y.load t.text (some u.text) = some out ∧
      (insertions t.doc u.doc = [] → out = .upToDate) ∧
      (insertions t.doc u.doc ≠ [] →
        ∃ added, out = .merged (fileText (planned t.doc u.doc) true) added) := by
  obtain ⟨adds, hadds, hmap⟩ := collect_nodes y t.doc u.doc
  obtain ⟨tmplStruct, htmpl, htmplRead⟩ := Option.map_eq_some_iff.mp (hy.reads t.doc t.ended ht)
  obtain ⟨userStruct, huser, huserRead⟩ := Option.map_eq_some_iff.mp (hy.reads u.doc false hu)
  rw [group_entries] at htmplRead huserRead
  have htmplLines : splitlines t.text = lines t.doc.entries := splitlines_fileText t.complete
  have huserLines : splitlines u.text = lines u.doc.entries := splitlines_fileText u.complete
  have hmain : main y.load t.text (some u.text) =
      some (if adds = [] then .upToDate else
        .merged (joinLines (insertAll (lines u.doc.entries) (adds.map (·.insertion))) ++ ['\n'])
          (adds.map (·.report))) := by
    have htmplLoad : y.load t.text = some tmplStruct := htmpl
    have huserLoad : y.load (joinLines (lines u.doc.entries)) = some userStruct := huser
    simp only [main, htmplLines, huserLines, htmplLoad, huserLoad, Option.bind_some, htmplRead,
      huserRead]
    change (collect (nodeAdditions (sources y t.doc u.doc)) _).map _ = _
    rw [hadds]
    rfl
  refine ⟨_, hmain, ?_, ?_⟩
  · intro hnone
    rw [hnone, List.map_nil, List.map_eq_nil_iff] at hmap
    rw [if_pos hmap]
  · intro hsome
    have hadds' : adds ≠ [] := by
      rintro rfl
      exact hsome (List.map_eq_nil_iff.mp hmap.symm)
    have hplanned : planned t.doc u.doc ≠ [] := by
      obtain ⟨i, hi⟩ := List.exists_mem_of_ne_nil _ hsome
      obtain ⟨e, he⟩ := List.exists_mem_of_ne_nil _ (block_ne_nil hi)
      exact List.ne_nil_of_mem (mem_insertAll.mpr (.inr ⟨i, hi, he⟩))
    refine ⟨adds.map (·.report), ?_⟩
    rw [if_neg hadds', hmap, insertAll_map, ← planned,
      joinLines_append_newline (by simpa using hplanned)]
    rfl

end Plan

end PolishingRobot.Params
