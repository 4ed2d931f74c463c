import PolishingRobot.Params.LineLoader
import PolishingRobot.Params.MergedLines

/-!
# The additive merge

The merged file is the additive union of the template and the user's file, except
where new keys of the user's last node meet new nodes at the end of the file.
-/

namespace PolishingRobot.Params

open PolishingRobot.Lists

section Union

variable {V : Type}

/-- The value at a key of a node. -/
def Document.Has (y : Yaml V) (d : Document) (node key : Key) (v : V) : Prop :=
  ∃ s ∈ d.nodes, node = .str s.name.chars ∧
    ∃ b ∈ s.blocks, key = .str b.name.chars ∧ v = y.value b.rest

/-- A mapping of mappings without repeated keys. -/
def TwoLevel (m : Loaded (Loaded V)) : Prop :=
  ∃ nodes, m = .mapping nodes ∧ (nodes.map (·.1)).Nodup ∧
    ∀ n ∈ nodes, ∃ keys, n.2 = .mapping keys ∧ keys ≠ [] ∧ (keys.map (·.1)).Nodup

/-- The user's values, the template's where the user has none, and nothing else. -/
def IsUnion (y : Yaml V) (t u : Document) (m : Loaded (Loaded V)) : Prop :=
  TwoLevel m ∧ ∀ node key v, Maps m node key v ↔
    u.Has y node key v ∨ (¬ ∃ w, u.Has y node key w) ∧ t.Has y node key v

/-- The merged file reads as the union, and a second run adds nothing. -/
def MergesToUnion (y : Yaml V) (t u : File) : Prop :=
  ∃ out, main y.load t.text (some u.text) = some out ∧
    (∃ m, y.read (out.userText u.text) = some m ∧ IsUnion y t.doc u.doc m) ∧
    main y.load t.text (some (out.userText u.text)) = some .upToDate

/-- The user's last node ends with the file and lacks keys, and the template has a
node behind it that the user lacks. -/
def Misplaces (t u : Document) : Prop :=
  ∃ s, u.nodes.getLast? = some s ∧ u.bottom = [] ∧
    ∃ pre r post, t.nodes = pre ++ r :: post ∧ r.name = s.name ∧ missing r s ≠ [] ∧
      ∃ n ∈ post, n.name ∉ u.names

end Union

/-- A key without what stands above it. -/
def KeyBlock.bare (b : KeyBlock) : KeyBlock := { b with above := [], shallow := shallow_nil }

section Merged

variable {t u : Document} {s : Node}

theorem mem_newBlocks {b : KeyBlock} :
    b ∈ newBlocks t s ↔ ∃ r ∈ t.nodes, r.name = s.name ∧ b ∈ r.blocks ∧ b.name ∉ s.keys := by
  rw [newBlocks, List.mem_flatMap]
  constructor
  · rintro ⟨r, hr, hb⟩
    split_ifs at hb with hname
    · obtain ⟨hb, hnew⟩ := List.mem_filter.mp hb
      exact ⟨r, hr, hname, hb, by simpa using hnew⟩
    · cases hb
  · rintro ⟨r, hr, hname, hb, hnew⟩
    refine ⟨r, hr, ?_⟩
    rw [if_pos hname]
    exact List.mem_filter.mpr ⟨hb, by simpa using hnew⟩

theorem newBlocks_known {r : Node} (hr : r ∈ t.nodes) (hname : r.name = s.name) :
    newBlocks t s = missing r s := by
  rw [newBlocks, ← hname]
  exact flatMap_unique t.nodup hr _

theorem newBlocks_unknown (hname : ∀ r ∈ t.nodes, r.name ≠ s.name) : newBlocks t s = [] :=
  flatMap_of_forall_ne hname _

theorem newBlocks_nodup (t : Document) (s : Node) : ((newBlocks t s).map (·.name)).Nodup := by
  by_cases hknown : ∃ r ∈ t.nodes, r.name = s.name
  · obtain ⟨r, hr, hname⟩ := hknown
    rw [newBlocks_known hr hname]
    exact r.nodup.sublist (List.filter_sublist.map _)
  · rw [newBlocks_unknown fun r hr hname => hknown ⟨r, hr, hname⟩]
    exact List.nodup_nil

/-- A node of the user with the keys that it lacks. -/
def extend (t : Document) (s : Node) : Node where
  above := s.above
  shallow := s.shallow
  name := s.name
  width := s.width
  lead := s.lead
  blocks := s.blocks ++ (newBlocks t s).reverse.map (·.bare)
  blocks_ne := by simp [s.blocks_ne]
  nodup := by
    have hnames : ((newBlocks t s).reverse.map (·.bare)).map (·.name) =
        ((newBlocks t s).map (·.name)).reverse := by
      rw [List.map_map, ← List.map_reverse]
      rfl
    rw [List.map_append, hnames, List.nodup_append]
    refine ⟨s.nodup, List.nodup_reverse.mpr (newBlocks_nodup t s), ?_⟩
    rintro n hn n' hn' rfl
    obtain ⟨b, hb, rfl⟩ := List.mem_map.mp (List.mem_reverse.mp hn')
    obtain ⟨r, -, -, -, hnew⟩ := mem_newBlocks.mp hb
    exact hnew hn

theorem shallow_blank {fs : List Filler} (h : Shallow fs) : Shallow (fs ++ [.blank 0]) := by
  intro f hf
  cases fs with
  | nil =>
      obtain rfl := Option.some.inj hf
      rfl
  | cons g fs => exact h f hf

/-- The nodes behind a file, each behind an empty line, and what is at the new end. -/
def attach (bottom : {fs : List Filler // Shallow fs}) :
    List Placed → List Node × {fs : List Filler // Shallow fs}
  | [] => ([], bottom)
  | p :: ps =>
      let rest := attach ⟨p.after, p.shallow⟩ ps
      ({ p.node with
          above := bottom.1 ++ [.blank 0]
          shallow := shallow_blank bottom.2 } :: rest.1, rest.2)

theorem attach_names (bottom : {fs : List Filler // Shallow fs}) (ps : List Placed) :
    (attach bottom ps).1.map (·.name) = ps.map (·.node.name) := by
  induction ps generalizing bottom with
  | nil => rfl
  | cons p ps ih => rw [attach, List.map_cons, List.map_cons, ih]

theorem attach_entries (bottom : {fs : List Filler // Shallow fs}) (ps : List Placed) :
    nodeEntries (attach bottom ps).1 ++ fillers (attach bottom ps).2.1 =
      fillers bottom.1 ++ placedEntries ps := by
  induction ps generalizing bottom with
  | nil => simp [attach, nodeEntries, placedEntries]
  | cons p ps ih =>
      have hrest := ih ⟨p.after, p.shallow⟩
      simp only [attach, nodeEntries, List.flatMap_cons, Node.entries, List.append_assoc,
        placedEntries, Placed.lines] at hrest ⊢
      rw [hrest]
      simp [Node.body]

theorem mem_attach {bottom : {fs : List Filler // Shallow fs}} {ps : List Placed} {n : Node}
    (hn : n ∈ (attach bottom ps).1) :
    ∃ p ∈ ps, n.name = p.node.name ∧ n.blocks = p.node.blocks := by
  induction ps generalizing bottom with
  | nil => cases hn
  | cons p ps ih =>
      rcases List.mem_cons.mp hn with rfl | hn
      · exact ⟨p, by simp, rfl, rfl⟩
      · obtain ⟨q, hq, hname⟩ := ih hn
        exact ⟨q, by simp [hq], hname⟩

theorem exists_mem_attach {bottom : {fs : List Filler // Shallow fs}} {ps : List Placed}
    {p : Placed} (hp : p ∈ ps) :
    ∃ n ∈ (attach bottom ps).1, n.name = p.node.name ∧ n.blocks = p.node.blocks := by
  induction ps generalizing bottom with
  | nil => cases hp
  | cons q ps ih =>
      rcases List.mem_cons.mp hp with rfl | hp
      · exact ⟨_, List.mem_cons_self, rfl, rfl⟩
      · obtain ⟨n, hn, hname⟩ := @ih ⟨q.after, q.shallow⟩ hp
        exact ⟨n, List.mem_cons_of_mem _ hn, hname⟩

theorem newNodes_fresh {p : Placed} (hp : p ∈ newNodes t u) :
    p.node ∈ t.nodes ∧ p.node.name ∉ u.names := by
  obtain ⟨hp, hnew⟩ := List.mem_filter.mp hp
  have hnode : p.node ∈ t.placed.map (·.node) := List.mem_map_of_mem hp
  rw [Document.placed, placed_nodes] at hnode
  exact ⟨hnode, by simpa using hnew⟩

theorem exists_placed {r : Node} (hr : r ∈ t.nodes) : ∃ p ∈ t.placed, p.node = r := by
  rw [← placed_nodes ⟨t.bottom, t.shallow⟩ t.nodes] at hr
  exact List.mem_map.mp hr

theorem placed_nodup (t : Document) : (t.placed.map (·.node.name)).Nodup := by
  have h := t.nodup
  rwa [← placed_nodes ⟨t.bottom, t.shallow⟩ t.nodes, List.map_map] at h

/-- The user's nodes with their new keys, and the new nodes behind them. -/
def merged (t u : Document) : Document where
  preamble := u.preamble
  nodes := u.nodes.map (extend t) ++ (attach ⟨u.bottom, u.shallow⟩ (newNodes t u).reverse).1
  nodup := by
    have hnames : (u.nodes.map (extend t)).map (·.name) = u.names := by
      rw [List.map_map]
      rfl
    have hnew : ((newNodes t u).map (·.node.name)).Nodup :=
      (placed_nodup t).sublist (List.filter_sublist.map _)
    rw [List.map_append, hnames, attach_names, List.map_reverse, List.nodup_append]
    refine ⟨u.nodup, List.nodup_reverse.mpr hnew, ?_⟩
    rintro n hn n' hn' rfl
    obtain ⟨p, hp, rfl⟩ := List.mem_map.mp (List.mem_reverse.mp hn')
    exact (newNodes_fresh hp).2 hn
  bottom := (attach ⟨u.bottom, u.shallow⟩ (newNodes t u).reverse).2.1
  shallow := (attach ⟨u.bottom, u.shallow⟩ (newNodes t u).reverse).2.2

theorem extend_entries (t : Document) (s : Node) :
    (extend t s).entries = s.entries ++ coreEntries (newBlocks t s).reverse := by
  have hbare : blockEntries ((newBlocks t s).reverse.map (·.bare)) =
      coreEntries (newBlocks t s).reverse := by
    rw [blockEntries, List.flatMap_map]
    rfl
  have hblocks : blockEntries (extend t s).blocks =
      blockEntries s.blocks ++ coreEntries (newBlocks t s).reverse := by
    rw [← hbare, blockEntries, blockEntries, blockEntries, ← List.flatMap_append]
    rfl
  rw [Node.entries, Node.body, hblocks, Node.entries, Node.body]
  simp [extend]

theorem merged_entries (t u : Document) :
    (merged t u).entries = fillers u.preamble ++
      ((u.nodes.flatMap fun s => s.entries ++ coreEntries (newBlocks t s).reverse) ++
        (fillers u.bottom ++ placedEntries (newNodes t u).reverse)) := by
  have hold : nodeEntries (u.nodes.map (extend t)) =
      u.nodes.flatMap fun s => s.entries ++ coreEntries (newBlocks t s).reverse := by
    rw [nodeEntries, List.flatMap_map]
    simp only [extend_entries]
  have hnew := attach_entries ⟨u.bottom, u.shallow⟩ (newNodes t u).reverse
  rw [Document.entries, merged, ← hold, ← hnew, nodeEntries, List.flatMap_append,
    List.append_assoc]
  rfl

/-- At the end of the last node, unless it is misplaced, the keys come first. -/
theorem gap_last_keys {e : Node × Nat} (he : e ∈ u.ends) (hend : e.2 = u.entries.length)
    (hlast : u.nodes.getLast? = some e.1) (hbottom : u.bottom = []) (hplace : ¬ Misplaces t u) :
    gap (insertions t u) u.entries.length =
      coreEntries (newBlocks t e.1).reverse ++ placedEntries (newNodes t u).reverse := by
  by_cases hknown : ∃ p ∈ t.placed, p.node.name = e.1.name
  · obtain ⟨p, hp, hname⟩ := hknown
    obtain ⟨pre, post, hsplit⟩ := List.append_of_mem hp
    have hold : p.node.name ∈ u.names := by
      rw [hname]
      exact mem_names_of_end he
    have hnodes : t.nodes = pre.map (·.node) ++ p.node :: post.map (·.node) := by
      rw [← placed_nodes ⟨t.bottom, t.shallow⟩ t.nodes, ← Document.placed, hsplit,
        List.map_append, List.map_cons]
    have hnew : newNodes t u = pre.filter (·.node.name ∉ u.names) ++
        post.filter (·.node.name ∉ u.names) := by
      rw [newNodes, hsplit, List.filter_append, List.filter_cons_of_neg (by simpa using hold)]
    have hblocks : newBlocks t e.1 = missing p.node e.1 :=
      newBlocks_known (by rw [hnodes]; simp) hname
    rw [gap_last he hend hsplit hname, hblocks, hnew]
    by_cases hkeys : missing p.node e.1 = []
    · simp [hkeys, coreEntries, placedEntries]
    · have hpost : post.filter (·.node.name ∉ u.names) = [] := by
        rw [List.filter_eq_nil_iff]
        intro q hq hfresh
        refine hplace ⟨e.1, hlast, hbottom, _, p.node, _, hnodes, hname, hkeys, q.node,
          List.mem_map_of_mem hq, ?_⟩
        simpa using hfresh
      rw [hpost, List.append_nil]
      rfl
  · have hunknown : ∀ p ∈ t.placed, p.node.name ≠ e.1.name := fun p hp hname =>
      hknown ⟨p, hp, hname⟩
    have hblocks : newBlocks t e.1 = [] := by
      apply newBlocks_unknown
      intro r hr hname
      obtain ⟨p, hp, rfl⟩ := exists_placed hr
      exact hunknown p hp hname
    rw [gap_last_unknown he hend hunknown, hblocks]
    rfl

theorem flatMap_ends {β : Type} (f : Node → List β) (i : Nat) (ss : List Node) :
    ((ends i ss).flatMap fun e => f e.1) = ss.flatMap f := by
  have h := ends_nodes i ss
  conv_rhs => rw [← h, List.flatMap_map]

/-- The nodes that end before the file get their new keys. -/
theorem flatMap_gaps {es : List (Node × Nat)} (hes : ∀ e ∈ es, e ∈ u.ends)
    (hend : ∀ e ∈ es, e.2 < u.entries.length) :
    (es.flatMap fun e => e.1.entries ++ gap (insertions t u) e.2) =
      es.flatMap fun e => e.1.entries ++ coreEntries (newBlocks t e.1).reverse := by
  apply List.flatMap_congr
  intro e he
  rw [gap_node (hes e he) (hend e he)]

/-- The lines of a file that ends with its last node. -/
theorem planned_last {init : List Node} (hnodes : u.nodes = init ++ [s]) (hbottom : u.bottom = []) :
    (s, u.entries.length) ∈ u.ends ∧
      planned t u = fillers u.preamble ++
        ((init.flatMap fun s => s.entries ++ coreEntries (newBlocks t s).reverse) ++
          (s.entries ++ gap (insertions t u) u.entries.length)) := by
  have hs := s.length_pos
  have hlength := entries_length u
  have hfile : u.preamble.length + (nodeEntries init).length + s.entries.length =
      u.entries.length := by
    rw [hlength, hnodes, hbottom]
    simp [nodeEntries]
    omega
  have hends : u.ends = ends u.preamble.length init ++ [(s, u.entries.length)] := by
    rw [Document.ends, hnodes, ends_append, ends, ends, hfile]
  have hinit : ∀ e ∈ ends u.preamble.length init, e.2 < u.entries.length := by
    intro e he
    have := (ends_bounds he).2
    omega
  have hmem : ∀ e ∈ ends u.preamble.length init, e ∈ u.ends := by
    intro e he
    rw [hends]
    exact List.mem_append_left _ he
  refine ⟨by rw [hends]; simp, ?_⟩
  rw [planned_eq, if_pos ⟨by simp [hnodes], hbottom⟩, hends, List.flatMap_append,
    flatMap_gaps hmem hinit,
    flatMap_ends fun s => s.entries ++ coreEntries (newBlocks t s).reverse]
  simp

/-- Unless keys are misplaced, the script writes the merged file. -/
theorem planned_merged (hplace : ¬ Misplaces t u) : planned t u = (merged t u).entries := by
  by_cases hmeet : u.nodes ≠ [] ∧ u.bottom = []
  · obtain ⟨hnodes, hbottom⟩ := hmeet
    obtain ⟨init, s, hsplit⟩ := (List.eq_nil_or_concat' u.nodes).resolve_left hnodes
    obtain ⟨hlast, hplanned⟩ := planned_last (t := t) hsplit hbottom
    have hgap : gap (insertions t u) u.entries.length =
        coreEntries (newBlocks t s).reverse ++ placedEntries (newNodes t u).reverse :=
      gap_last_keys hlast rfl (by rw [hsplit]; simp) hbottom hplace
    rw [hplanned, merged_entries, hgap, hsplit, hbottom]
    simp
  · have hend : ∀ e ∈ u.ends, e.2 < u.entries.length := by
      intro e he
      have hlength := entries_length u
      have hbound := (ends_bounds he).2
      have hnodes : u.nodes ≠ [] := by
        intro hnone
        rw [Document.ends, hnone] at he
        cases he
      have hbottom : 0 < u.bottom.length := by
        apply List.length_pos_of_ne_nil
        intro hnone
        exact hmeet ⟨hnodes, hnone⟩
      omega
    rw [planned_eq, merged_entries, if_neg hmeet, gap_file fun e he => (hend e he).ne,
      flatMap_gaps (fun _ he => he) hend, Document.ends,
      flatMap_ends fun s => s.entries ++ coreEntries (newBlocks t s).reverse]

theorem mem_merged {n : Node} (hn : n ∈ (merged t u).nodes) :
    (∃ s ∈ u.nodes, n = extend t s) ∨
      ∃ p ∈ newNodes t u, n.name = p.node.name ∧ n.blocks = p.node.blocks := by
  rcases List.mem_append.mp hn with hn | hn
  · obtain ⟨s, hs, rfl⟩ := List.mem_map.mp hn
    exact .inl ⟨s, hs, rfl⟩
  · obtain ⟨p, hp, hname⟩ := mem_attach hn
    exact .inr ⟨p, List.mem_reverse.mp hp, hname⟩

theorem extend_mem_merged (hs : s ∈ u.nodes) : extend t s ∈ (merged t u).nodes :=
  List.mem_append_left _ (List.mem_map_of_mem hs)

theorem exists_mem_merged {p : Placed} (hp : p ∈ newNodes t u) :
    ∃ n ∈ (merged t u).nodes, n.name = p.node.name ∧ n.blocks = p.node.blocks := by
  obtain ⟨n, hn, hname⟩ := exists_mem_attach (List.mem_reverse.mpr hp)
  exact ⟨n, List.mem_append_right _ hn, hname⟩

theorem node_unique {d : Document} {r s : Node} (hr : r ∈ d.nodes) (hs : s ∈ d.nodes)
    (hname : r.name = s.name) : r = s :=
  List.inj_on_of_nodup_map d.nodup hr hs hname

/-- Every key of the template is in the merged file. -/
theorem merged_complete {r n : Node} (hr : r ∈ t.nodes) (hn : n ∈ (merged t u).nodes)
    (hname : n.name = r.name) {b : KeyBlock} (hb : b ∈ r.blocks) : b.name ∈ n.keys := by
  rcases mem_merged hn with ⟨s, hs, rfl⟩ | ⟨p, hp, hpname, hblocks⟩
  · by_cases hold : b.name ∈ s.keys
    · obtain ⟨c, hc, hkey⟩ := List.mem_map.mp hold
      exact List.mem_map.mpr ⟨c, List.mem_append_left _ hc, hkey⟩
    · have hnew : b ∈ newBlocks t s := mem_newBlocks.mpr ⟨r, hr, hname.symm, hb, hold⟩
      refine List.mem_map.mpr ⟨b.bare, List.mem_append_right _ ?_, rfl⟩
      exact List.mem_map_of_mem (List.mem_reverse.mpr hnew)
  · obtain rfl : p.node = r := node_unique (newNodes_fresh hp).1 hr (hpname.symm.trans hname)
    rw [Node.keys, hblocks]
    exact List.mem_map_of_mem hb

/-- Nothing is left to insert. -/
theorem insertions_merged (t u : Document) : insertions t (merged t u) = [] := by
  rw [insertions, List.flatMap_eq_nil_iff]
  intro p hp
  have hr : p.node ∈ t.nodes := by
    have hnode : p.node ∈ t.placed.map (·.node) := List.mem_map_of_mem hp
    rwa [Document.placed, placed_nodes] at hnode
  obtain ⟨n, hn, hname⟩ : ∃ n ∈ (merged t u).nodes, n.name = p.node.name := by
    by_cases hold : p.node.name ∈ u.names
    · obtain ⟨s, hs, hname⟩ := List.mem_map.mp hold
      exact ⟨extend t s, extend_mem_merged hs, hname⟩
    · have hnew : p ∈ newNodes t u := List.mem_filter.mpr ⟨hp, by simpa using hold⟩
      obtain ⟨n, hn, hname, -⟩ := exists_mem_merged hnew
      exact ⟨n, hn, hname⟩
  rw [nodeInsertions, if_pos (List.mem_map.mpr ⟨n, hn, hname⟩), List.flatMap_eq_nil_iff]
  intro e he
  split_ifs with heq
  · have hmem : e.1 ∈ (merged t u).nodes := by
      have h : e.1 ∈ (merged t u).ends.map (·.1) := List.mem_map_of_mem he
      rwa [Document.ends, ends_nodes] at h
    have hnone : missing p.node e.1 = [] := by
      rw [missing, List.filter_eq_nil_iff]
      intro b hb
      simpa using merged_complete hr hmem heq.symm hb
    rw [hnone]
    rfl
  · rfl

end Merged

section Meaning

variable {V : Type} {y : Yaml V} {t u d : Document} {node key : Key} {v : V}

theorem maps_nodes : Maps (y.nodes (d.nodes.map (·.bindings))) node key v ↔ d.Has y node key v := by
  constructor
  · rintro ⟨nodes, keys, hnodes, hnode, hkey⟩
    obtain rfl : _ = nodes := Loaded.mapping.inj hnodes
    simp only [List.map_map, List.mem_map, Function.comp_apply, Prod.mk.injEq] at hnode
    obtain ⟨s, hs, rfl, hkeys⟩ := hnode
    obtain rfl : _ = keys := Loaded.mapping.inj hkeys
    simp only [List.map_map, List.mem_map, Function.comp_apply, Prod.mk.injEq] at hkey
    obtain ⟨b, hb, rfl, rfl⟩ := hkey
    exact ⟨s, hs, rfl, b, hb, rfl, rfl⟩
  · rintro ⟨s, hs, rfl, b, hb, rfl, rfl⟩
    refine ⟨_, _, rfl, List.mem_map.mpr ⟨s.bindings, List.mem_map_of_mem hs, rfl⟩, ?_⟩
    exact List.mem_map.mpr ⟨b.binding, List.mem_map_of_mem hb, rfl⟩

theorem twoLevel_nodes (y : Yaml V) (d : Document) :
    TwoLevel (y.nodes (d.nodes.map (·.bindings))) := by
  have hstr : Function.Injective fun n : Name => Key.str n.chars := by
    intro m n h
    exact Name.eq_of_key h
  refine ⟨_, rfl, ?_, ?_⟩
  · have h := d.nodup.map hstr
    rw [List.map_map] at h
    rw [List.map_map, List.map_map]
    exact h
  · intro n hn
    rw [List.map_map] at hn
    obtain ⟨s, -, rfl⟩ := List.mem_map.mp hn
    refine ⟨_, rfl, ?_, ?_⟩
    · simpa using s.blocks_ne
    · have h := s.nodup.map hstr
      rw [List.map_map] at h
      rw [List.map_map, List.map_map]
      exact h

theorem not_has_of_missing {s : Node} (hs : s ∈ u.nodes) {n : Name} (hn : n ∉ s.keys) :
    ¬ ∃ w, u.Has y (.str s.name.chars) (.str n.chars) w := by
  rintro ⟨w, r, hr, hname, b, hb, hkey, -⟩
  obtain rfl : s = r := node_unique hs hr (Name.eq_of_key hname)
  rw [Name.eq_of_key hkey] at hn
  exact hn (List.mem_map_of_mem hb)

theorem not_has_of_unknown {n : Name} (hn : n ∉ u.names) :
    ¬ ∃ w, u.Has y (.str n.chars) key w := by
  rintro ⟨w, r, hr, hname, -⟩
  rw [Name.eq_of_key hname] at hn
  exact hn (List.mem_map_of_mem hr)

/-- The merged file has what the user has, and from the template what the user lacks. -/
theorem merged_has : (merged t u).Has y node key v ↔
    u.Has y node key v ∨ (¬ ∃ w, u.Has y node key w) ∧ t.Has y node key v := by
  constructor
  · rintro ⟨n, hn, rfl, b, hb, rfl, rfl⟩
    rcases mem_merged hn with ⟨s, hs, rfl⟩ | ⟨p, hp, hname, hblocks⟩
    · rcases List.mem_append.mp hb with hb | hb
      · exact .inl ⟨s, hs, rfl, b, hb, rfl, rfl⟩
      · obtain ⟨c, hc, rfl⟩ := List.mem_map.mp hb
        obtain ⟨r, hr, hname, hcr, hnew⟩ := mem_newBlocks.mp (List.mem_reverse.mp hc)
        refine .inr ⟨not_has_of_missing hs hnew, r, hr, ?_, c, hcr, rfl, rfl⟩
        exact congrArg (Key.str ∘ Name.chars) hname.symm
    · obtain ⟨hr, hnew⟩ := newNodes_fresh hp
      rw [hname]
      rw [hblocks] at hb
      exact .inr ⟨not_has_of_unknown hnew, p.node, hr, rfl, b, hb, rfl, rfl⟩
  · rintro (⟨s, hs, rfl, b, hb, rfl, rfl⟩ | ⟨hnot, r, hr, rfl, b, hb, rfl, rfl⟩)
    · exact ⟨extend t s, extend_mem_merged hs, rfl, b, List.mem_append_left _ hb, rfl, rfl⟩
    · by_cases hold : r.name ∈ u.names
      · obtain ⟨s, hs, hname⟩ := List.mem_map.mp hold
        have hnew : b ∈ newBlocks t s := by
          refine mem_newBlocks.mpr ⟨r, hr, hname.symm, hb, ?_⟩
          intro hkey
          obtain ⟨c, hc, hcname⟩ := List.mem_map.mp hkey
          exact hnot ⟨_, s, hs, by rw [hname], c, hc, by rw [hcname], rfl⟩
        refine ⟨extend t s, extend_mem_merged hs, by rw [← hname]; rfl, b.bare, ?_, rfl, rfl⟩
        exact List.mem_append_right _ (List.mem_map_of_mem (List.mem_reverse.mpr hnew))
      · obtain ⟨p, hp, rfl⟩ := exists_placed hr
        have hnew : p ∈ newNodes t u := List.mem_filter.mpr ⟨hp, by simpa using hold⟩
        obtain ⟨n, hn, hname, hblocks⟩ := exists_mem_merged hnew
        refine ⟨n, hn, by rw [hname], b, ?_, rfl, rfl⟩
        rwa [hblocks]

theorem isUnion_merged (y : Yaml V) (t u : Document) :
    IsUnion y t u (y.nodes (group (merged t u).entries).2) := by
  rw [group_entries]
  exact ⟨twoLevel_nodes y (merged t u), fun _ _ _ => maps_nodes.trans merged_has⟩

theorem placed_split {bottom : {fs : List Filler // Shallow fs}} {ss : List Node} {p : Placed}
    (hp : p ∈ placed bottom ss) :
    ∃ pre post, ss = pre ++ p.node :: post ∧ p.after = following post bottom.1 := by
  induction ss with
  | nil => cases hp
  | cons s ss ih =>
      rcases List.mem_cons.mp hp with rfl | hp
      · exact ⟨[], ss, rfl, rfl⟩
      · obtain ⟨pre, post, hsplit, hafter⟩ := ih hp
        exact ⟨s :: pre, post, by rw [hsplit]; rfl, hafter⟩

/-- A node is in the file with the lines up to the next header. -/
theorem mem_entries_of_placed {p : Placed} (hp : p ∈ t.placed) {e : Entry}
    (he : e ∈ p.node.body ++ fillers p.after) : e ∈ t.entries := by
  obtain ⟨pre, post, hsplit, hafter⟩ := placed_split hp
  have hsub : ∀ e ∈ fillers (following post t.bottom),
      e ∈ nodeEntries post ++ fillers t.bottom := by
    intro e he
    cases post with
    | nil => exact he
    | cons r post =>
        apply List.mem_append_left
        rw [nodeEntries, List.flatMap_cons, Node.entries]
        exact List.mem_append_left _ (List.mem_append_left _ he)
  have hentries : t.entries = (fillers t.preamble ++ (nodeEntries pre ++ fillers p.node.above)) ++
      (p.node.body ++ (nodeEntries post ++ fillers t.bottom)) := by
    simp [Document.entries, hsplit, nodeEntries, Node.entries]
  rw [hentries]
  apply List.mem_append_right
  rcases List.mem_append.mp he with he | he
  · exact List.mem_append_left _ he
  · rw [hafter] at he
    exact List.mem_append_right _ (hsub e he)

theorem plain_planned (hy : y.ReadsFiles) (ht : ∀ e ∈ t.entries, y.Plain e)
    (hu : ∀ e ∈ u.entries, y.Plain e) : ∀ e ∈ planned t u, y.Plain e := by
  intro e he
  rcases mem_insertAll.mp he with he | ⟨i, hi, he⟩
  · exact hu e he
  · obtain ⟨p, hp, hi⟩ := List.mem_flatMap.mp hi
    by_cases hold : p.node.name ∈ u.names
    · obtain ⟨d, hd, hname⟩ := exists_end hold
      rw [nodeInsertions_known hd hname] at hi
      obtain ⟨b, hb, rfl⟩ := List.mem_map.mp hi
      apply ht e (mem_entries_of_placed hp (List.mem_append_left _ _))
      refine List.mem_cons_of_mem _ (List.mem_append_right _ ?_)
      exact List.mem_flatMap.mpr ⟨b, (List.mem_filter.mp hb).1, List.mem_append_right _ he⟩
    · rw [nodeInsertions, if_neg hold, List.mem_singleton] at hi
      rw [hi] at he
      rcases List.mem_cons.mp he with rfl | he
      · exact hy.blank
      · exact ht e (mem_entries_of_placed hp he)

/-- The text that the script leaves behind has the planned lines. -/
theorem main_text (hy : y.ReadsFiles) {t u : File} (ht : ∀ e ∈ t.doc.entries, y.Plain e)
    (hu : ∀ e ∈ u.doc.entries, y.Plain e) :
    ∃ out ended, main y.load t.text (some u.text) = some out ∧
      out.userText u.text = fileText (planned t.doc u.doc) ended ∧
      (ended = true ∨ (lines (planned t.doc u.doc)).getLast? ≠ some []) ∧
      (insertions t.doc u.doc = [] → out = .upToDate) := by
  obtain ⟨out, hout, hnone, hsome⟩ := main_planned hy ht hu
  by_cases his : insertions t.doc u.doc = []
  · have hsame : planned t.doc u.doc = u.doc.entries := by
      rw [planned, his]
      rfl
    refine ⟨out, u.ended, hout, ?_, ?_, hnone⟩
    · rw [hnone his, hsame]
      rfl
    · rw [hsame]
      exact u.complete
  · obtain ⟨added, rfl⟩ := hsome his
    exact ⟨_, true, hout, rfl, .inl rfl, hnone⟩

/-- Keys that are not misplaced are merged. -/
theorem mergesToUnion_of_placed (hy : y.ReadsFiles) {t u : File}
    (ht : ∀ e ∈ t.doc.entries, y.Plain e) (hu : ∀ e ∈ u.doc.entries, y.Plain e)
    (hplace : ¬ Misplaces t.doc u.doc) : MergesToUnion y t u := by
  obtain ⟨out, ended, hout, htext, hended, -⟩ := main_text hy ht hu
  have hplain := plain_planned hy ht hu
  rw [planned_merged hplace] at htext hended hplain
  let f : File := ⟨merged t.doc u.doc, ended, hended⟩
  have hf : f.text = out.userText u.text := htext.symm
  obtain ⟨out', -, hout', -, -, hnone⟩ := main_text (u := f) hy ht hplain
  refine ⟨out, hout, ⟨_, ?_, isUnion_merged y t.doc u.doc⟩, ?_⟩
  · rw [htext]
    exact hy.reads (merged t.doc u.doc) ended hplain
  · rw [← hf, hout', hnone (insertions_merged t.doc u.doc)]

theorem header_of_mem_group {es : List Entry} {g : Name × List (Name × Rest)}
    (hg : g ∈ (group es).2) : ∃ w, Entry.header g.1 w ∈ es := by
  induction es with
  | nil => cases hg
  | cons e es ih =>
      cases e with
      | filler f =>
          obtain ⟨w, hw⟩ := ih hg
          exact ⟨w, List.mem_cons_of_mem _ hw⟩
      | key n r =>
          obtain ⟨w, hw⟩ := ih hg
          exact ⟨w, List.mem_cons_of_mem _ hw⟩
      | header n width =>
          rcases List.mem_cons.mp hg with rfl | hg
          · exact ⟨width, List.mem_cons_self⟩
          · obtain ⟨w, hw⟩ := ih hg
            exact ⟨w, List.mem_cons_of_mem _ hw⟩

theorem group_node (s : Node) (es : List Entry) :
    group (s.entries ++ es) =
      ([], (s.name, s.blocks.map (·.binding) ++ (group es).1) :: (group es).2) := by
  rw [Node.entries, List.append_assoc, group_fillers, group_body]

/-- A node that no other header repeats has its own keys alone. -/
theorem group_confined {s : Node} {before behind : List Entry}
    (hbefore : ∀ w, Entry.header s.name w ∉ before)
    (hbehind : ∀ w, Entry.header s.name w ∉ behind) (hfirst : (group behind).1 = [])
    {g : Name × List (Name × Rest)} (hg : g ∈ (group (before ++ (s.entries ++ behind))).2)
    (hname : g.1 = s.name) : g.2 = s.blocks.map (·.binding) := by
  induction before with
  | nil =>
      rw [List.nil_append, group_node, hfirst, List.append_nil] at hg
      rcases List.mem_cons.mp hg with rfl | hg
      · rfl
      · obtain ⟨w, hw⟩ := header_of_mem_group hg
        rw [hname] at hw
        exact absurd hw (hbehind w)
  | cons e before ih =>
      have hrest := ih fun w hw => hbefore w (List.mem_cons_of_mem _ hw)
      cases e with
      | filler f => exact hrest hg
      | key n r => exact hrest hg
      | header n width =>
          rcases List.mem_cons.mp hg with rfl | hg
          · obtain rfl : n = s.name := hname
            exact absurd List.mem_cons_self (hbefore width)
          · exact hrest hg

theorem header_not_mem_fillers {n : Name} {w : Nat} (fs : List Filler) :
    Entry.header n w ∉ fillers fs := by
  simp

theorem header_not_mem_core {n : Name} {w : Nat} (b : KeyBlock) : Entry.header n w ∉ b.core := by
  simp [KeyBlock.core]

theorem header_mem_body {n : Name} {w : Nat} {s : Node} (h : Entry.header n w ∈ s.body) :
    n = s.name := by
  rcases List.mem_cons.mp h with h | h
  · exact (Entry.header.inj h).1
  · rcases List.mem_append.mp h with h | h
    · exact absurd h (header_not_mem_fillers _)
    · obtain ⟨b, -, h⟩ := List.mem_flatMap.mp h
      rcases List.mem_append.mp h with h | h
      · exact absurd h (header_not_mem_fillers _)
      · exact absurd h (header_not_mem_core b)

theorem header_mem_entries {n : Name} {w : Nat} {s : Node} (h : Entry.header n w ∈ s.entries) :
    n = s.name := by
  rcases List.mem_append.mp h with h | h
  · exact absurd h (header_not_mem_fillers _)
  · exact header_mem_body h

theorem header_mem_placed {n : Name} {w : Nat} {ps : List Placed}
    (h : Entry.header n w ∈ placedEntries ps) : ∃ p ∈ ps, n = p.node.name := by
  obtain ⟨p, hp, h⟩ := List.mem_flatMap.mp h
  rcases List.mem_cons.mp h with h | h
  · cases h
  · rcases List.mem_append.mp h with h | h
    · exact ⟨p, hp, header_mem_body h⟩
    · exact absurd h (header_not_mem_fillers _)

theorem placed_of_nodes {pre post : List Node} {r : Node} (ht : t.nodes = pre ++ r :: post) :
    ∃ ppre p ppost, t.placed = ppre ++ p :: ppost ∧ p.node = r ∧ ppost.map (·.node) = post := by
  have hmap := placed_nodes ⟨t.bottom, t.shallow⟩ t.nodes
  rw [← Document.placed, ht] at hmap
  obtain ⟨ppre, tail, hsplit, -, htail⟩ := List.map_eq_append_iff.mp hmap
  obtain ⟨p, ppost, rfl, hp, hppost⟩ := List.map_eq_cons_iff.mp htail
  exact ⟨ppre, p, ppost, hsplit, hp, hppost⟩

theorem group_placed (p : Placed) (ps : List Placed) (es : List Entry) :
    (group (placedEntries (p :: ps) ++ es)).1 = [] := by
  rw [placedEntries, List.flatMap_cons, Placed.lines, List.append_assoc, List.cons_append, group,
    List.append_assoc, group_body]

theorem header_not_mem_cores {n : Name} {w : Nat} (bs : List KeyBlock) :
    Entry.header n w ∉ coreEntries bs := by
  intro h
  obtain ⟨b, -, h⟩ := List.mem_flatMap.mp h
  exact header_not_mem_core b h

theorem header_not_mem_new {n : Name} {w : Nat} {ps : List Placed} (hn : n ∈ u.names) :
    Entry.header n w ∉ placedEntries (ps.filter (·.node.name ∉ u.names)).reverse := by
  intro h
  obtain ⟨p, hp, rfl⟩ := header_mem_placed h
  have hfresh := (List.mem_filter.mp (List.mem_reverse.mp hp)).2
  exact of_decide_eq_true hfresh hn

/-- A misplaced key is not read under its node. -/
theorem group_misplaced {s : Node} (hlast : u.nodes.getLast? = some s) (hbottom : u.bottom = [])
    {pre post : List Node} {r n : Node} (ht : t.nodes = pre ++ r :: post)
    (hname : r.name = s.name) (hn : n ∈ post) (hnew : n.name ∉ u.names) :
    (group (planned t u)).1 = [] ∧
      ∀ g ∈ (group (planned t u)).2, g.1 = s.name → g.2 = s.blocks.map (·.binding) := by
  obtain ⟨init, hnodes⟩ : ∃ init, u.nodes = init ++ [s] :=
    ⟨u.nodes.dropLast, (List.dropLast_append_getLast? s hlast).symm⟩
  obtain ⟨hend, hplanned⟩ := planned_last (t := t) hnodes hbottom
  have hs : s.name ∈ u.names := mem_names_of_end hend
  obtain ⟨ppre, p, ppost, hplaced, rfl, rfl⟩ := placed_of_nodes ht
  have hgap := gap_last hend rfl hplaced hname
  obtain ⟨q, qs, hq⟩ : ∃ q qs, (ppost.filter (·.node.name ∉ u.names)).reverse = q :: qs := by
    obtain ⟨q, hq, rfl⟩ := List.mem_map.mp hn
    apply List.exists_cons_of_ne_nil
    apply List.ne_nil_of_mem (a := q)
    exact List.mem_reverse.mpr (List.mem_filter.mpr ⟨hq, decide_eq_true hnew⟩)
  have hfirst : (group (gap (insertions t u) u.entries.length)).1 = [] := by
    rw [hgap, hq, group_placed]
  have hbehind : ∀ w, Entry.header s.name w ∉ gap (insertions t u) u.entries.length := by
    intro w hw
    rw [hgap] at hw
    rcases List.mem_append.mp hw with hw | hw
    · exact header_not_mem_new hs hw
    · rcases List.mem_append.mp hw with hw | hw
      · exact header_not_mem_cores _ hw
      · exact header_not_mem_new hs hw
  have hbefore : ∀ w, Entry.header s.name w ∉ fillers u.preamble ++
      init.flatMap fun s => s.entries ++ coreEntries (newBlocks t s).reverse := by
    intro w hw
    rcases List.mem_append.mp hw with hw | hw
    · exact header_not_mem_fillers _ hw
    · obtain ⟨r, hr, hw⟩ := List.mem_flatMap.mp hw
      rcases List.mem_append.mp hw with hw | hw
      · have hnodup := u.nodup
        rw [hnodes, List.map_append, List.nodup_append] at hnodup
        exact hnodup.2.2 _ (List.mem_map_of_mem hr) _ (by simp) (header_mem_entries hw).symm
      · exact header_not_mem_cores _ hw
  rw [hplanned]
  refine ⟨?_, ?_⟩
  · rw [group_fillers]
    cases init with
    | nil => rw [List.flatMap_nil, List.nil_append, group_node]
    | cons r init =>
        rw [List.flatMap_cons, List.append_assoc, List.append_assoc, group_node]
  · intro g hg
    rw [← List.append_assoc] at hg
    exact group_confined hbefore hbehind hfirst hg

/-- A file with misplaced keys does not read as the union. -/
theorem not_mergesToUnion (hy : y.ReadsFiles) {t u : File}
    (ht : ∀ e ∈ t.doc.entries, y.Plain e) (hu : ∀ e ∈ u.doc.entries, y.Plain e)
    (hplace : Misplaces t.doc u.doc) : ¬ MergesToUnion y t u := by
  rintro ⟨out, hout, ⟨m, hread, hunion⟩, -⟩
  obtain ⟨s, hlast, hbottom, pre, r, post, hnodes, hname, hkeys, n, hn, hnew⟩ := hplace
  obtain ⟨out', ended, hout', htext, -⟩ := main_text hy ht hu
  obtain rfl : out = out' := Option.some.inj (hout.symm.trans hout')
  obtain ⟨hfirst, hconfined⟩ := group_misplaced hlast hbottom hnodes hname hn hnew
  obtain ⟨b, hb⟩ := List.exists_mem_of_ne_nil _ hkeys
  obtain ⟨hb, hfresh⟩ := List.mem_filter.mp hb
  have hfresh : b.name ∉ s.keys := by simpa using hfresh
  have hs : s ∈ u.doc.nodes := List.mem_of_getLast? hlast
  have hhas : t.doc.Has y (.str s.name.chars) (.str b.name.chars) (y.value b.rest) :=
    ⟨r, by rw [hnodes]; simp, by rw [hname], b, hb, rfl, rfl⟩
  have hmaps := (hunion.2 _ _ _).mpr (.inr ⟨not_has_of_missing hs hfresh, hhas⟩)
  rw [htext] at hread
  obtain ⟨g, hg, k, hk, hnode, hkey⟩ := hy.confines _ ended m (plain_planned hy ht hu) hfirst hread
    _ _ _ hmaps
  have hgname := Name.eq_of_key hnode
  rw [hconfined g hg hgname.symm] at hk
  obtain ⟨c, hc, rfl⟩ := List.mem_map.mp hk
  rw [Name.eq_of_key hkey] at hfresh
  exact hfresh (List.mem_map_of_mem hc)

end Meaning

def lift : Name := ⟨['l', 'i', 'f', 't'], by decide⟩

def arm : Name := ⟨['a', 'r', 'm'], by decide⟩

def port : Name := ⟨['p', 'o', 'r', 't'], by decide⟩

def mode : Name := ⟨['m', 'o', 'd', 'e'], by decide⟩

def auto : Rest := ⟨[' ', 'a', 'u', 't', 'o'], by decide⟩

def keyLine (n : Name) : KeyBlock := ⟨[], shallow_nil, n, auto, []⟩

def armNode : Node :=
  ⟨[], shallow_nil, arm, 0, [], [keyLine port], by decide, by decide⟩

def liftNode : Node :=
  ⟨[], shallow_nil, lift, 0, [], [keyLine port], by decide, by decide⟩

/-- The node with one more key. -/
def newLiftNode : Node :=
  ⟨[], shallow_nil, lift, 0, [], [keyLine port, keyLine mode], by decide, by decide⟩

def template : File :=
  ⟨⟨[], [newLiftNode, armNode], by decide, [], shallow_nil⟩, true, .inl rfl⟩

/-- A file that ends with its last key. -/
def shortFile : File := ⟨⟨[], [liftNode], by decide, [], shallow_nil⟩, true, .inl rfl⟩

/-- The same with an empty last line. -/
def paddedFile : File :=
  ⟨⟨[], [liftNode], by decide, [.blank 0], shallow_blank shallow_nil⟩, true, .inl rfl⟩

/-- The merge is the additive union exactly if no key is misplaced. -/
theorem mergesToUnion_iff {V : Type} (y : Yaml V) (hy : y.ReadsFiles) (t u : File)
    (ht : ∀ e ∈ t.doc.entries, y.Plain e) (hu : ∀ e ∈ u.doc.entries, y.Plain e) :
    MergesToUnion y t u ↔ ¬ Misplaces t.doc u.doc := by
  constructor
  · intro h hplace
    exact not_mergesToUnion hy ht hu hplace h
  · exact mergesToUnion_of_placed hy ht hu

/-- An empty last line keeps the new key and the new node apart. -/
theorem mergesToUnion_iff_padded : MergesToUnion lineYaml template paddedFile :=
  (mergesToUnion_iff lineYaml lineYaml_readsFiles template paddedFile (fun _ _ => trivial)
    fun _ _ => trivial).mpr fun ⟨_, _, hbottom, _⟩ => nomatch hbottom

theorem misplaces_mode : Misplaces template.doc shortFile.doc := by
  have hmissing : missing newLiftNode liftNode ≠ [] := List.ne_nil_of_length_pos (by decide)
  exact ⟨liftNode, rfl, rfl, [], newLiftNode, [armNode], rfl, rfl, hmissing, armNode, by simp,
    by decide⟩

/-- The new key of `lift` is merged into `arm`. -/
theorem new_key_leaves_node :
    ¬ ∀ (y : Yaml Line), y.ReadsFiles → ∀ t u : File, (∀ e ∈ t.doc.entries, y.Plain e) →
      (∀ e ∈ u.doc.entries, y.Plain e) → MergesToUnion y t u := by
  intro hclaim
  have hmerges := hclaim lineYaml lineYaml_readsFiles template shortFile (fun _ _ => trivial)
    fun _ _ => trivial
  exact not_mergesToUnion lineYaml_readsFiles (fun _ _ => trivial) (fun _ _ => trivial)
    misplaces_mode hmerges

/-- The new key of `lift` lands behind the keys of `arm`. -/
example : (main lineYaml.load template.text (some shortFile.text)).map
    (Outcome.userText shortFile.text) =
      some (fileText (liftNode.entries ++ .filler (.blank 0) :: armNode.entries ++
        (keyLine mode).core) true) := by
  decide +kernel

end PolishingRobot.Params
