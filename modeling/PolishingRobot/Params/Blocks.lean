import PolishingRobot.Params.Documents

/-!
# Blocks of parameter files

`parse_blocks` finds every node and every key of a parameter file where they are:
a key up to its last continuation, a node up to the next header, and the end of
its last key as the end of its content.
-/

namespace PolishingRobot.Params

theorem not_mem_of_nodup {α : Type} {a : α} {xs ys : List α} (h : (xs ++ a :: ys).Nodup) :
    a ∉ xs := by
  intro hmem
  exact (List.nodup_append.mp h).2.2 a hmem a (by simp) rfl

section Dictionary

variable {α : Type} {d : List (Line × α)} {key : Line} {value : α}

theorem assign_fresh (h : key ∉ d.map (·.1)) (value : α) :
    assign d key value = d ++ [(key, value)] := by
  apply if_neg
  simpa using h

theorem modify_last (h : key ∉ d.map (·.1)) (value : α) (f : α → α) :
    modify (d ++ [(key, value)]) key f = d ++ [(key, f value)] := by
  have hsame : ∀ e ∈ d, (if e.1 = key then (e.1, f e.2) else e) = id e := by
    intro e he
    apply if_neg
    rintro rfl
    exact h (List.mem_map_of_mem he)
  have hfront : d.map (fun e => if e.1 = key then (e.1, f e.2) else e) = d := by
    rw [List.map_congr_left hsame, List.map_id]
  rw [modify, List.map_append, hfront]
  simp

theorem find?_of_nodup {κ β : Type} [DecidableEq κ] {ds : List (κ × β)} {k : κ} {b : β}
    (h : (ds.map (·.1)).Nodup) (hmem : (k, b) ∈ ds) : ds.find? (·.1 = k) = some (k, b) := by
  induction ds with
  | nil => cases hmem
  | cons e ds ih =>
      obtain ⟨hnot, hds⟩ := List.nodup_cons.mp h
      rcases List.mem_cons.mp hmem with rfl | hmem
      · exact List.find?_cons_of_pos (by simp)
      · have hne : e.1 ≠ k := by
          rintro rfl
          exact hnot (List.mem_map.mpr ⟨_, hmem, rfl⟩)
        rw [List.find?_cons_of_neg (by simpa using hne), ih hds hmem]

theorem lookup_of_nodup (h : (d.map (·.1)).Nodup) (hmem : (key, value) ∈ d) :
    lookup d (.str key) = some value := by
  rw [lookup, find?_of_nodup h hmem]
  rfl

end Dictionary

/-- The ranges of the keys, from line `i` on. -/
def blockRanges (i : Nat) : List KeyBlock → List (Line × Nat × Nat)
  | [] => []
  | b :: bs =>
      (b.name.chars, i + b.above.length, i + b.entries.length) ::
        blockRanges (i + b.entries.length) bs

/-- The lines between the nodes and the next header. -/
def following : List Node → List Filler → List Filler
  | [], bottom => bottom
  | s :: _, _ => s.above

/-- What is found of a node whose lines start at `i`. -/
def nodeBlock (i : Nat) (s : Node) (after : List Filler) : NodeBlock where
  start := i + s.above.length
  stop := i + s.entries.length + after.length
  keys := blockRanges (i + s.above.length + 1 + s.lead.length) s.blocks

def nodeBlocks (i : Nat) : List Node → List Filler → List (Line × NodeBlock)
  | [], _ => []
  | s :: ss, bottom =>
      (s.name.chars, nodeBlock i s (following ss bottom)) ::
        nodeBlocks (i + s.entries.length) ss bottom

section Lengths

variable (b : KeyBlock) (s : Node)

theorem KeyBlock.length_entries : b.entries.length = b.above.length + 1 + b.more.length := by
  simp [KeyBlock.entries, KeyBlock.core]
  omega

theorem Node.length_entries :
    s.entries.length = s.above.length + 1 + s.lead.length + (blockEntries s.blocks).length := by
  simp [Node.entries, Node.body]
  omega

end Lengths

/-- No line at the head continues a key. -/
def Closed (es : List Entry) : Prop := es.takeWhile (·.continues) = []

section Parse

variable {total i stop : Nat} {es : List Entry} {name : Line} {start : Nat}
  {nodes : List (Line × NodeBlock)} {keys : List (Line × Nat × Nat)}

theorem closed_fillers {fs : List Filler} (h : Shallow fs) (hes : Closed es) :
    Closed (fillers fs ++ es) := by
  cases fs with
  | nil => exact hes
  | cons f fs =>
      have hf : ((Entry.filler f).continues) = false := h f rfl
      simp [Closed, hf]

theorem closed_block (b : KeyBlock) (es : List Entry) : Closed (b.entries ++ es) := by
  rw [KeyBlock.entries, List.append_assoc]
  apply closed_fillers b.shallow
  simp [Closed, KeyBlock.core, Entry.continues]

theorem nodeEntries_append_eq (s : Node) (ss : List Node) (es : List Entry) :
    nodeEntries (s :: ss) ++ es = fillers s.above ++ (s.body ++ (nodeEntries ss ++ es)) := by
  rw [nodeEntries_cons, Node.entries, List.append_assoc, List.append_assoc]

theorem closed_nodes {bottom : List Filler} (hbottom : Shallow bottom) (ss : List Node) :
    Closed (nodeEntries ss ++ fillers bottom) := by
  cases ss with
  | nil =>
      have h : Closed (fillers bottom ++ []) := closed_fillers hbottom rfl
      rwa [List.append_nil] at h
  | cons s ss =>
      rw [nodeEntries_append_eq]
      apply closed_fillers s.shallow
      simp [Closed, Node.body, Entry.continues]

theorem takeWhile_continues (h : Closed es) (xs : List Extension) :
    (lines (fillers (xs.map (·.filler)) ++ es)).takeWhile continues =
      lines (fillers (xs.map (·.filler))) := by
  have hcompose : continues ∘ Entry.line = Entry.continues := by
    funext e
    exact e.line_continues
  rw [List.takeWhile_map, hcompose, List.takeWhile_append_of_pos]
  · rw [h, List.append_nil]
  · intro e he
    simp only [List.mem_map] at he
    obtain ⟨f, ⟨x, -, rfl⟩, rfl⟩ := he
    simp [Entry.continues, Extension.filler, Filler.deeper]

/-- The lines above the first header. -/
theorem parseLines_preamble (fs : List Filler) (es : List Entry) :
    parseLines total i (lines (fillers fs ++ es)) (none, nodes) =
      parseLines total (i + fs.length) (lines es) (none, nodes) := by
  induction fs generalizing i with
  | nil => rfl
  | cons f fs ih =>
      have hlength : i + (f :: fs).length = i + 1 + fs.length := by
        rw [List.length_cons]
        omega
      rw [hlength, ← ih]
      simp [parseLines, parseLine]

/-- Lines without a name move the end of the node. -/
theorem parseLines_fillers (hfresh : name ∉ nodes.map (·.1)) (fs : List Filler)
    (es : List Entry) :
    parseLines total i (lines (fillers fs ++ es))
        (some name, nodes ++ [(name, ⟨start, stop, keys⟩)]) =
      parseLines total (i + fs.length) (lines es)
        (some name, nodes ++ [(name, ⟨start, if fs = [] then stop else i + fs.length, keys⟩)]) := by
  induction fs generalizing i stop with
  | nil => rfl
  | cons f fs ih =>
      have hlength : i + (f :: fs).length = i + 1 + fs.length := by
        rw [List.length_cons]
        omega
      have hstep : parseLines total i (lines (fillers (f :: fs) ++ es))
            (some name, nodes ++ [(name, ⟨start, stop, keys⟩)]) =
          parseLines total (i + 1) (lines (fillers fs ++ es))
            (some name, nodes ++ [(name, ⟨start, i + 1, keys⟩)]) := by
        simp [parseLines, parseLine, modify_last hfresh]
      rw [hstep, ih, hlength]
      cases fs with
      | nil => rfl
      | cons _ _ => simp

theorem parseLines_key (hfresh : name ∉ nodes.map (·.1)) (n : Name) (r : Rest)
    (es : List Entry) :
    parseLines total i (lines (.key n r :: es))
        (some name, nodes ++ [(name, ⟨start, stop, keys⟩)]) =
      parseLines total (i + 1) (lines es) (some name, nodes ++ [(name, ⟨start, i + 1,
        assign keys n.chars (i, i + 1 + ((lines es).takeWhile continues).length)⟩)]) := by
  simp [parseLines, parseLine, modify_last hfresh]

theorem parseLines_block (hfresh : name ∉ nodes.map (·.1)) (b : KeyBlock)
    (hkey : b.name.chars ∉ keys.map (·.1)) (hes : Closed es) :
    parseLines total i (lines (b.entries ++ es))
        (some name, nodes ++ [(name, ⟨start, stop, keys⟩)]) =
      parseLines total (i + b.entries.length) (lines es)
        (some name, nodes ++ [(name, ⟨start, i + b.entries.length,
          keys ++ [(b.name.chars, i + b.above.length, i + b.entries.length)]⟩)]) := by
  have hsplit : b.entries ++ es =
      fillers b.above ++ .key b.name b.rest :: (fillers (b.more.map (·.filler)) ++ es) := by
    rw [KeyBlock.entries, List.append_assoc]
    rfl
  have hlength : i + b.entries.length = i + b.above.length + 1 + b.more.length := by
    rw [b.length_entries]
    omega
  have hmore : (lines (fillers (b.more.map (·.filler)))).length = b.more.length := by simp
  have hstop : (if b.more.map (·.filler) = [] then i + b.above.length + 1
      else i + b.above.length + 1 + (b.more.map (·.filler)).length) =
        i + b.above.length + 1 + b.more.length := by
    cases b.more with
    | nil => rfl
    | cons x xs => simp
  rw [hsplit, parseLines_fillers hfresh, parseLines_key hfresh, takeWhile_continues hes,
    assign_fresh hkey, parseLines_fillers hfresh, hmore, hstop, List.length_map, hlength]

theorem parseLines_blocks (hfresh : name ∉ nodes.map (·.1)) (bs : List KeyBlock)
    (hne : bs ≠ []) (hkeys : (keys.map (·.1) ++ bs.map (·.name.chars)).Nodup) (hes : Closed es) :
    parseLines total i (lines (blockEntries bs ++ es))
        (some name, nodes ++ [(name, ⟨start, stop, keys⟩)]) =
      parseLines total (i + (blockEntries bs).length) (lines es)
        (some name, nodes ++ [(name, ⟨start, i + (blockEntries bs).length,
          keys ++ blockRanges i bs⟩)]) := by
  induction bs generalizing i stop keys with
  | nil => exact absurd rfl hne
  | cons b bs ih =>
      have hkey : b.name.chars ∉ keys.map (·.1) := not_mem_of_nodup hkeys
      have hlength : i + (blockEntries (b :: bs)).length =
          i + b.entries.length + (blockEntries bs).length := by
        rw [blockEntries_cons, List.length_append, ← Nat.add_assoc]
      have hclosed : Closed (blockEntries bs ++ es) := by
        cases bs with
        | nil => exact hes
        | cons c cs =>
            rw [blockEntries_cons, List.append_assoc]
            exact closed_block c _
      rw [hlength, blockEntries_cons, List.append_assoc,
        parseLines_block hfresh b hkey hclosed]
      by_cases hbs : bs = []
      · rw [hbs]
        rfl
      · rw [ih hbs (by simpa using hkeys), List.append_assoc]
        rfl

theorem parseLines_header {nodes : List (Line × NodeBlock)} {n : Name}
    (hfresh : n.chars ∉ nodes.map (·.1)) (width : Nat) (es : List Entry) (cur : Option Line) :
    parseLines total i (lines (.header n width :: es)) (cur, nodes) =
      parseLines total (i + 1) (lines es)
        (some n.chars, nodes ++ [(n.chars, ⟨i, total, []⟩)]) := by
  simp [parseLines, parseLine, assign_fresh hfresh]

theorem parseLines_body (s : Node) (hfresh : s.name.chars ∉ nodes.map (·.1)) (hes : Closed es)
    (cur : Option Line) :
    parseLines total i (lines (s.body ++ es)) (cur, nodes) =
      parseLines total (i + s.body.length) (lines es)
        (some s.name.chars, nodes ++ [(s.name.chars, ⟨i, i + s.body.length,
          blockRanges (i + 1 + s.lead.length) s.blocks⟩)]) := by
  have hsplit : s.body ++ es =
      .header s.name s.width :: (fillers s.lead ++ (blockEntries s.blocks ++ es)) := by
    rw [Node.body, List.cons_append, List.append_assoc]
  have hlength : i + s.body.length =
      i + 1 + s.lead.length + (blockEntries s.blocks).length := by
    simp [Node.body]
    omega
  have hkeys : (([] : List (Line × Nat × Nat)).map (·.1) ++
      s.blocks.map (·.name.chars)).Nodup := s.nodup_chars
  rw [hsplit, parseLines_header hfresh, parseLines_fillers hfresh,
    parseLines_blocks hfresh s.blocks s.blocks_ne hkeys hes, hlength, List.nil_append]

/-- The node being read takes the lines up to the next header. -/
theorem parseLines_nodes {bottom : List Filler} (hbottom : Shallow bottom) (ss : List Node)
    (hnames : (nodes.map (·.1) ++ name :: ss.map (·.name.chars)).Nodup) :
    parseLines total i (lines (nodeEntries ss ++ fillers bottom))
        (some name, nodes ++ [(name, ⟨start, i, keys⟩)]) =
      nodes ++ (name, ⟨start, i + (following ss bottom).length, keys⟩) ::
        nodeBlocks i ss bottom := by
  have hstop : ∀ fs : List Filler, (if fs = [] then i else i + fs.length) = i + fs.length := by
    intro fs
    cases fs <;> simp
  have hfresh : name ∉ nodes.map (·.1) := not_mem_of_nodup hnames
  induction ss generalizing i start name keys nodes with
  | nil =>
      rw [nodeEntries_nil, List.nil_append, ← List.append_nil (fillers bottom),
        parseLines_fillers hfresh, hstop]
      rfl
  | cons s ss ih =>
      have hlength : i + s.above.length + s.body.length = i + s.entries.length := by
        simp [Node.entries]
        omega
      have hnames' : ((nodes ++ [(name, (⟨start, i + s.above.length, keys⟩ : NodeBlock))]).map
          (·.1) ++ s.name.chars :: ss.map (·.name.chars)).Nodup := by
        simpa using hnames
      have hfresh' : s.name.chars ∉
          (nodes ++ [(name, (⟨start, i + s.above.length, keys⟩ : NodeBlock))]).map (·.1) :=
        not_mem_of_nodup hnames'
      rw [nodeEntries_append_eq, parseLines_fillers hfresh, hstop,
        parseLines_body s hfresh' (closed_nodes hbottom ss), ih hnames' _ hfresh',
        List.append_assoc, hlength]
      · rfl
      · intro fs
        cases fs <;> simp

/-- The nodes of a parameter file and where they are. -/
theorem parseBlocks_entries (d : Document) :
    parseBlocks (lines d.entries) = nodeBlocks d.preamble.length d.nodes d.bottom := by
  have hnames := d.nodup_chars
  rw [parseBlocks, Document.entries, parseLines_preamble, Nat.zero_add]
  cases hnodes : d.nodes with
  | nil =>
      rw [nodeEntries_nil, List.nil_append, ← List.append_nil (fillers d.bottom),
        parseLines_preamble]
      rfl
  | cons s ss =>
      have hlength : d.preamble.length + s.above.length + s.body.length =
          d.preamble.length + s.entries.length := by
        simp [Node.entries]
        omega
      rw [hnodes] at hnames
      rw [nodeEntries_append_eq, parseLines_preamble, parseLines_body s (by simp) (closed_nodes d.shallow ss),
        parseLines_nodes d.shallow ss (by simpa using hnames), hlength]
      rfl

end Parse

section Find

variable {d : Document} {pre post : List Node} {s : Node}

theorem slice_lines {xs ys zs : List Entry} {a b : Nat} (ha : a = xs.length)
    (hb : b = xs.length + ys.length) : slice (lines (xs ++ (ys ++ zs))) a b = lines ys := by
  have ha' : a = (lines xs).length := by simp [ha]
  have hb' : b = (lines xs ++ lines ys).length := by simp [hb]
  have hlines : lines (xs ++ (ys ++ zs)) = lines xs ++ lines ys ++ lines zs := by simp
  rw [slice, hlines, hb', List.take_left, ha', List.drop_left]

theorem nodeBlocks_names (i : Nat) (ss : List Node) (bottom : List Filler) :
    (nodeBlocks i ss bottom).map (·.1) = ss.map (·.name.chars) := by
  induction ss generalizing i with
  | nil => rfl
  | cons s ss ih =>
      rw [nodeBlocks, List.map_cons, List.map_cons, ih]

theorem mem_nodeBlocks (i : Nat) (pre : List Node) (s : Node) (post : List Node)
    (bottom : List Filler) :
    (s.name.chars, nodeBlock (i + (nodeEntries pre).length) s (following post bottom)) ∈
      nodeBlocks i (pre ++ s :: post) bottom := by
  induction pre generalizing i with
  | nil => simp [nodeBlocks]
  | cons r pre ih =>
      have hlength : i + (nodeEntries (r :: pre)).length =
          i + r.entries.length + (nodeEntries pre).length := by
        rw [nodeEntries_cons, List.length_append, ← Nat.add_assoc]
      rw [hlength, List.cons_append, nodeBlocks]
      exact List.mem_cons_of_mem _ (ih _)

theorem lookup_node (hd : d.nodes = pre ++ s :: post) :
    lookup (parseBlocks (lines d.entries)) (.str s.name.chars) =
      some (nodeBlock (d.preamble.length + (nodeEntries pre).length) s
        (following post d.bottom)) := by
  rw [parseBlocks_entries, hd]
  apply lookup_of_nodup
  · rw [nodeBlocks_names, ← hd]
    exact d.nodup_chars
  · exact mem_nodeBlocks _ pre s post d.bottom

/-- The lines of a node from its header to the next one. -/
theorem slice_node (hd : d.nodes = pre ++ s :: post) :
    let n := nodeBlock (d.preamble.length + (nodeEntries pre).length) s (following post d.bottom)
    slice (lines d.entries) n.start n.stop =
      lines (s.body ++ fillers (following post d.bottom)) := by
  obtain ⟨rest, hrest⟩ : ∃ rest, nodeEntries post ++ fillers d.bottom =
      fillers (following post d.bottom) ++ rest := by
    cases post with
    | nil => exact ⟨[], (List.append_nil _).symm⟩
    | cons r post => exact ⟨_, nodeEntries_append_eq r post _⟩
  have hsplit : d.entries = (fillers d.preamble ++ (nodeEntries pre ++ fillers s.above)) ++
      ((s.body ++ fillers (following post d.bottom)) ++ rest) := by
    rw [Document.entries, hd, nodeEntries_append, nodeEntries_cons, Node.entries]
    simp only [List.append_assoc]
    rw [← hrest]
  rw [hsplit]
  apply slice_lines
  · simp [nodeBlock]
    omega
  · simp [nodeBlock, Node.entries]
    omega

theorem blockRanges_names (i : Nat) (bs : List KeyBlock) :
    (blockRanges i bs).map (·.1) = bs.map (·.name.chars) := by
  induction bs generalizing i with
  | nil => rfl
  | cons b bs ih =>
      rw [blockRanges, List.map_cons, List.map_cons, ih]

theorem mem_blockRanges (i : Nat) (pre : List KeyBlock) (b : KeyBlock) (post : List KeyBlock) :
    (b.name.chars, i + (blockEntries pre).length + b.above.length,
        i + (blockEntries pre).length + b.entries.length) ∈ blockRanges i (pre ++ b :: post) := by
  induction pre generalizing i with
  | nil => simp [blockRanges]
  | cons c pre ih =>
      have hlength : i + (blockEntries (c :: pre)).length =
          i + c.entries.length + (blockEntries pre).length := by
        rw [blockEntries_cons, List.length_append, ← Nat.add_assoc]
      rw [hlength, List.cons_append, blockRanges]
      exact List.mem_cons_of_mem _ (ih _)

/-- The lines of a key of a node. -/
theorem slice_key (hd : d.nodes = pre ++ s :: post) {b : KeyBlock} (hb : b ∈ s.blocks)
    {n : NodeBlock} (hn : lookup (parseBlocks (lines d.entries)) (.str s.name.chars) = some n) :
    ∃ i j, lookup n.keys (.str b.name.chars) = some (i, j) ∧
      slice (lines d.entries) i j = lines b.core := by
  obtain ⟨bpre, bpost, hblocks⟩ := List.append_of_mem hb
  rw [lookup_node hd] at hn
  obtain rfl := Option.some.inj hn
  let first := d.preamble.length + (nodeEntries pre).length + s.above.length + 1 + s.lead.length
  refine ⟨first + (blockEntries bpre).length + b.above.length,
    first + (blockEntries bpre).length + b.entries.length, ?_, ?_⟩
  · apply lookup_of_nodup
    · rw [nodeBlock, blockRanges_names]
      exact s.nodup_chars
    · rw [nodeBlock, hblocks]
      exact mem_blockRanges _ bpre b bpost
  · have hsplit : d.entries =
        (fillers d.preamble ++ (nodeEntries pre ++ (fillers s.above ++
          (.header s.name s.width :: (fillers s.lead ++ (blockEntries bpre ++ fillers b.above)))))) ++
          (b.core ++ (blockEntries bpost ++ (nodeEntries post ++ fillers d.bottom))) := by
      simp [Document.entries, hd, Node.entries, Node.body, hblocks, KeyBlock.entries]
    rw [hsplit]
    apply slice_lines
    · simp
      omega
    · simp [KeyBlock.entries]
      omega

theorem max?_blockRanges (bs : List KeyBlock) (hbs : bs ≠ []) (i : Nat) :
    ((blockRanges i bs).map (·.2.2)).max? = some (i + (blockEntries bs).length) := by
  induction bs generalizing i with
  | nil => exact absurd rfl hbs
  | cons b bs ih =>
      have hlength : i + (blockEntries (b :: bs)).length =
          i + b.entries.length + (blockEntries bs).length := by
        rw [blockEntries_cons, List.length_append, ← Nat.add_assoc]
      rw [hlength, blockRanges, List.map_cons, List.max?_cons]
      by_cases hlast : bs = []
      · simp [hlast, blockRanges]
      · rw [ih hlast]
        simp [Option.elim]

/-- The content of a node ends where its lines end. -/
theorem contentEnd_nodeBlock (i : Nat) (s : Node) (after : List Filler) :
    (nodeBlock i s after).contentEnd = i + s.entries.length := by
  rw [NodeBlock.contentEnd, nodeBlock, max?_blockRanges _ s.blocks_ne, Option.getD_some,
    s.length_entries]
  omega

end Find

end PolishingRobot.Params
