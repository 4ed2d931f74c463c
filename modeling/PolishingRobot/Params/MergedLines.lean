import PolishingRobot.Params.Plan

/-!
# The lines of the merged file

The insertions of the plan go to the ends of the user's nodes and to the end of the
file. Where the last node ends with the file, the two meet at one position.
-/

namespace PolishingRobot.Params

open PolishingRobot.Lists

section Ends

variable {i : Nat} {ss : List Node}

theorem Node.length_pos (s : Node) : 0 < s.entries.length := by
  rw [Node.entries, Node.body, List.length_append, List.length_cons]
  omega

theorem ends_bounds {e : Node × Nat} (he : e ∈ ends i ss) :
    i < e.2 ∧ e.2 ≤ i + (nodeEntries ss).length := by
  induction ss generalizing i with
  | nil => cases he
  | cons s ss ih =>
      have hlength : (nodeEntries (s :: ss)).length =
          s.entries.length + (nodeEntries ss).length := List.length_append
      have hpos := s.length_pos
      rw [hlength]
      rcases List.mem_cons.mp he with rfl | he
      · exact ⟨by simpa using hpos, by simp only []; omega⟩
      · obtain ⟨hlower, hupper⟩ := ih he
        omega

/-- No two nodes end at one line. -/
theorem ends_injective {e e' : Node × Nat} (he : e ∈ ends i ss) (he' : e' ∈ ends i ss)
    (h : e.2 = e'.2) : e = e' := by
  induction ss generalizing i with
  | nil => cases he
  | cons s ss ih =>
      rw [ends] at he he'
      rcases List.mem_cons.mp he with rfl | he
      · rcases List.mem_cons.mp he' with rfl | he'
        · rfl
        · exact absurd h (ends_bounds he').1.ne
      · rcases List.mem_cons.mp he' with rfl | he'
        · exact absurd h (ends_bounds he).1.ne'
        · exact ih he he'

theorem ends_append (i : Nat) (xs ys : List Node) :
    ends i (xs ++ ys) = ends i xs ++ ends (i + (nodeEntries xs).length) ys := by
  induction xs generalizing i with
  | nil => rfl
  | cons s xs ih =>
      have hlength : i + (nodeEntries (s :: xs)).length =
          i + s.entries.length + (nodeEntries xs).length := by
        rw [nodeEntries_cons, List.length_append, ← Nat.add_assoc]
      rw [List.cons_append, ends, ends, ih, hlength, List.cons_append]

theorem exists_last_end (i : Nat) (hss : ss ≠ []) :
    ∃ e ∈ ends i ss, e.2 = i + (nodeEntries ss).length := by
  obtain ⟨init, s, rfl⟩ := (List.eq_nil_or_concat' ss).resolve_left hss
  refine ⟨_, mem_ends, ?_⟩
  simp
  omega

/-- Gaps at the ends of nodes alone. -/
theorem weave_nodes {g : Nat → List Entry}
    (h : ∀ q, i < q → q ≤ i + (nodeEntries ss).length → (∀ e ∈ ends i ss, e.2 ≠ q) → g q = []) :
    weave g i (nodeEntries ss) = (ends i ss).flatMap fun e => e.1.entries ++ g e.2 := by
  induction ss generalizing i with
  | nil => rfl
  | cons s ss ih =>
      have hlength : (nodeEntries (s :: ss)).length =
          s.entries.length + (nodeEntries ss).length := List.length_append
      have hpos := s.length_pos
      have hnode : weave g i s.entries = s.entries ++ g (i + s.entries.length) := by
        apply weave_last (List.ne_nil_of_length_pos hpos)
        intro q hq hq'
        apply h q hq (by omega)
        intro e he
        rw [ends] at he
        rcases List.mem_cons.mp he with rfl | he
        · exact hq'.ne'
        · have := (ends_bounds he).1
          omega
      rw [nodeEntries_cons, weave_append, hnode, ih, ends, List.flatMap_cons]
      intro q hq hq' hne
      apply h q (by omega) (by omega)
      intro e he
      rw [ends] at he
      rcases List.mem_cons.mp he with rfl | he
      · simp only []
        omega
      · exact hne e he

end Ends

/-- The keys of the template that a node of the user lacks. -/
def newBlocks (t : Document) (s : Node) : List KeyBlock :=
  t.nodes.flatMap fun r => if r.name = s.name then missing r s else []

/-- The nodes of the template that the user lacks. -/
def newNodes (t u : Document) : List Placed := t.placed.filter (·.node.name ∉ u.names)

/-- The lines of keys, without what stands above them. -/
def coreEntries (bs : List KeyBlock) : List Entry := bs.flatMap (·.core)

def placedEntries (ps : List Placed) : List Entry := ps.flatMap (·.lines)

def keyInsertions (at_ : Nat) (bs : List KeyBlock) : List (Insertion Entry) :=
  bs.map fun b => ⟨at_, b.core⟩

def fileInsertions (u : Document) (ps : List Placed) : List (Insertion Entry) :=
  ps.map fun p => ⟨u.entries.length, p.lines⟩

section Gaps

variable {t u : Document} {e : Node × Nat} {p : Placed}

theorem entries_length (u : Document) :
    u.entries.length = u.preamble.length + (nodeEntries u.nodes).length + u.bottom.length := by
  simp [Document.entries]
  omega

theorem ends_le (he : e ∈ u.ends) : e.2 ≤ u.entries.length := by
  have hbound := (ends_bounds he).2
  rw [entries_length]
  omega

theorem exists_end {n : Name} (hn : n ∈ u.names) : ∃ e ∈ u.ends, n = e.1.name := by
  obtain ⟨s, hs, rfl⟩ := List.mem_map.mp hn
  rw [← ends_nodes u.preamble.length u.nodes] at hs
  obtain ⟨e, he, rfl⟩ := List.mem_map.mp hs
  exact ⟨e, he, rfl⟩

/-- The insertions for a node lie at the end of its namesake or of the file. -/
theorem nodeInsertions_position {i : Insertion Entry} (hi : i ∈ nodeInsertions u p) :
    (∃ e ∈ u.ends, i.position = e.2) ∨ i.position = u.entries.length := by
  by_cases hmem : p.node.name ∈ u.names
  · obtain ⟨e, he, hname⟩ := exists_end hmem
    rw [nodeInsertions_known he hname] at hi
    obtain ⟨b, -, rfl⟩ := List.mem_map.mp hi
    exact .inl ⟨e, he, rfl⟩
  · rw [nodeInsertions, if_neg hmem] at hi
    rw [List.mem_singleton.mp hi]
    exact .inr rfl

theorem insertions_position {i : Insertion Entry} (hi : i ∈ insertions t u) :
    (∃ e ∈ u.ends, i.position = e.2) ∨ i.position = u.entries.length := by
  obtain ⟨p, -, hi⟩ := List.mem_flatMap.mp hi
  exact nodeInsertions_position hi

/-- Of the insertions for a node of the template, those at the end of a node: its
keys, and the node itself if the file ends there. -/
theorem filter_nodeInsertions (he : e ∈ u.ends) (p : Placed) :
    (nodeInsertions u p).filter (·.position = e.2) =
      (if p.node.name = e.1.name then keyInsertions e.2 (missing p.node e.1) else []) ++
        (if e.2 = u.entries.length ∧ p.node.name ∉ u.names then fileInsertions u [p] else []) := by
  by_cases hmem : p.node.name ∈ u.names
  · have hold : ¬ (e.2 = u.entries.length ∧ p.node.name ∉ u.names) := fun h => h.2 hmem
    rw [if_neg hold, List.append_nil]
    by_cases hname : p.node.name = e.1.name
    · rw [if_pos hname, nodeInsertions_known he hname, List.filter_eq_self.mpr]
      · rfl
      · intro i hi
        obtain ⟨b, -, rfl⟩ := List.mem_map.mp hi
        simp
    · obtain ⟨e', he', hname'⟩ := exists_end hmem
      rw [if_neg hname, nodeInsertions_known he' hname', List.filter_eq_nil_iff]
      intro i hi heq
      obtain ⟨b, -, rfl⟩ := List.mem_map.mp hi
      have hend : e' = e := ends_injective he' he (by simpa using heq)
      rw [hend] at hname'
      exact hname hname'
  · have hname : p.node.name ≠ e.1.name := by
      intro h
      rw [h] at hmem
      exact hmem (mem_names_of_end he)
    rw [if_neg hname, List.nil_append, nodeInsertions, if_neg hmem]
    by_cases hend : e.2 = u.entries.length
    · simp [hend, hmem, fileInsertions]
    · have hend' : u.entries.length ≠ e.2 := Ne.symm hend
      simp [hend, hend']

theorem gap_of_filter {is js : List (Insertion Entry)} {q : Nat}
    (h : is.filter (·.position = q) = js) : gap is q = js.reverse.flatMap (·.block) := by
  rw [gap, h]

theorem flatMap_keyInsertions (n : Nat) (bs : List KeyBlock) :
    (keyInsertions n bs).reverse.flatMap (·.block) = coreEntries bs.reverse := by
  rw [keyInsertions, ← List.map_reverse, List.flatMap_map]
  rfl

theorem flatMap_fileInsertions (u : Document) (ps : List Placed) :
    (fileInsertions u ps).reverse.flatMap (·.block) = placedEntries ps.reverse := by
  rw [fileInsertions, ← List.map_reverse, List.flatMap_map]
  rfl

theorem placed_nodes (bottom : {fs : List Filler // Shallow fs}) (ss : List Node) :
    (placed bottom ss).map (·.node) = ss := by
  induction ss with
  | nil => rfl
  | cons s ss ih => rw [placed, List.map_cons, ih]

theorem flatMap_placed {β : Type} (f : Node → List β) (t : Document) :
    (t.placed.flatMap fun p => f p.node) = t.nodes.flatMap f := by
  have h := placed_nodes ⟨t.bottom, t.shallow⟩ t.nodes
  rw [Document.placed]
  conv_rhs => rw [← h, List.flatMap_map]

/-- Behind a node that ends before the file there are its new keys. -/
theorem gap_node (he : e ∈ u.ends) (hend : e.2 < u.entries.length) :
    gap (insertions t u) e.2 = coreEntries (newBlocks t e.1).reverse := by
  have hfilter : (insertions t u).filter (·.position = e.2) =
      keyInsertions e.2 (newBlocks t e.1) := by
    rw [insertions, List.filter_flatMap]
    simp only [filter_nodeInsertions he, hend.ne, false_and, if_false, List.append_nil]
    rw [flatMap_placed fun r =>
      if r.name = e.1.name then keyInsertions e.2 (missing r e.1) else []]
    rw [keyInsertions, newBlocks, List.map_flatMap]
    congr
    funext r
    split_ifs <;> rfl
  rw [gap_of_filter hfilter, flatMap_keyInsertions]

/-- Behind the file there are the new nodes, where no node ends with it. -/
theorem gap_file (hend : ∀ e ∈ u.ends, e.2 ≠ u.entries.length) :
    gap (insertions t u) u.entries.length = placedEntries (newNodes t u).reverse := by
  have hfilter : (insertions t u).filter (·.position = u.entries.length) =
      fileInsertions u (newNodes t u) := by
    have hnode : ∀ p : Placed, (nodeInsertions u p).filter (·.position = u.entries.length) =
        if p.node.name ∈ u.names then [] else [⟨u.entries.length, p.lines⟩] := by
      intro p
      by_cases hmem : p.node.name ∈ u.names
      · obtain ⟨e, he, hname⟩ := exists_end hmem
        rw [if_pos hmem, nodeInsertions_known he hname, List.filter_eq_nil_iff]
        intro i hi heq
        obtain ⟨b, -, rfl⟩ := List.mem_map.mp hi
        exact hend e he (by simpa using heq)
      · simp [nodeInsertions, hmem]
    rw [insertions, List.filter_flatMap]
    simp only [hnode]
    rw [flatMap_unless]
    rfl
  rw [gap_of_filter hfilter, flatMap_fileInsertions]

/-- Of the insertions for other nodes, those at the end of the last node. -/
theorem filter_others (he : e ∈ u.ends) (hend : e.2 = u.entries.length) {ps : List Placed}
    (hname : ∀ p ∈ ps, p.node.name ≠ e.1.name) :
    (ps.flatMap (nodeInsertions u)).filter (·.position = u.entries.length) =
      fileInsertions u (ps.filter (·.node.name ∉ u.names)) := by
  induction ps with
  | nil => rfl
  | cons p ps ih =>
      have hnode := filter_nodeInsertions he p
      rw [if_neg (hname p (by simp)), List.nil_append, hend] at hnode
      rw [List.flatMap_cons, List.filter_append, hnode, ih fun q hq => hname q (by simp [hq])]
      by_cases hmem : p.node.name ∈ u.names
      · rw [if_neg (not_and_of_not_right _ (not_not.mpr hmem)),
          List.filter_cons_of_neg (by simpa using hmem), List.nil_append]
      · rw [if_pos ⟨rfl, hmem⟩, List.filter_cons_of_pos (by simpa using hmem)]
        rfl

/-- At the end of a node that ends with the file, the new keys stand between the
new nodes that come after its namesake in the template and those before it. -/
theorem gap_last (he : e ∈ u.ends) (hend : e.2 = u.entries.length) {pre post : List Placed}
    (hp : t.placed = pre ++ p :: post) (hname : p.node.name = e.1.name) :
    gap (insertions t u) u.entries.length =
      placedEntries (post.filter (·.node.name ∉ u.names)).reverse ++
        (coreEntries (missing p.node e.1).reverse ++
          placedEntries (pre.filter (·.node.name ∉ u.names)).reverse) := by
  have hnodup : (pre.map (·.node.name) ++ p.node.name :: post.map (·.node.name)).Nodup := by
    have h := t.nodup
    rw [← placed_nodes ⟨t.bottom, t.shallow⟩ t.nodes, ← Document.placed, hp, List.map_map,
      List.map_append, List.map_cons] at h
    exact h
  obtain ⟨-, htail, hdisjoint⟩ := List.nodup_append.mp hnodup
  have hpre : ∀ q ∈ pre, q.node.name ≠ e.1.name := by
    intro q hq
    rw [← hname]
    exact hdisjoint _ (List.mem_map_of_mem hq) _ (by simp)
  have hpost : ∀ q ∈ post, q.node.name ≠ e.1.name := by
    intro q hq heq
    rw [← hname] at heq
    exact (List.nodup_cons.mp htail).1 (List.mem_map.mpr ⟨q, hq, heq⟩)
  have hnode : (nodeInsertions u p).filter (·.position = u.entries.length) =
      keyInsertions u.entries.length (missing p.node e.1) := by
    have hold : ¬ (e.2 = u.entries.length ∧ p.node.name ∉ u.names) := by
      rw [hname]
      exact fun h => h.2 (mem_names_of_end he)
    rw [← hend, filter_nodeInsertions he p, if_pos hname, if_neg hold, List.append_nil]
  have hfilter : (insertions t u).filter (·.position = u.entries.length) =
      fileInsertions u (pre.filter (·.node.name ∉ u.names)) ++
        (keyInsertions u.entries.length (missing p.node e.1) ++
          fileInsertions u (post.filter (·.node.name ∉ u.names))) := by
    rw [insertions, hp, List.flatMap_append, List.flatMap_cons, List.filter_append,
      List.filter_append, filter_others he hend hpre, filter_others he hend hpost, hnode]
  rw [gap_of_filter hfilter, List.reverse_append, List.reverse_append, List.flatMap_append,
    List.flatMap_append, flatMap_fileInsertions, flatMap_keyInsertions, flatMap_fileInsertions,
    List.append_assoc]

/-- Without a namesake in the template there are the new nodes alone. -/
theorem gap_last_unknown (he : e ∈ u.ends) (hend : e.2 = u.entries.length)
    (hname : ∀ p ∈ t.placed, p.node.name ≠ e.1.name) :
    gap (insertions t u) u.entries.length = placedEntries (newNodes t u).reverse := by
  rw [insertions, gap_of_filter (filter_others he hend hname), flatMap_fileInsertions]
  rfl

/-- The lines of the user's file, with the gaps between its nodes. -/
theorem planned_eq (t u : Document) :
    planned t u = fillers u.preamble ++
      ((u.ends.flatMap fun e => e.1.entries ++ gap (insertions t u) e.2) ++
        if u.nodes ≠ [] ∧ u.bottom = [] then []
        else fillers u.bottom ++ gap (insertions t u) u.entries.length) := by
  by_cases hnodes : u.nodes = []
  · have hends : u.ends = [] := by rw [Document.ends, hnodes, ends]
    have hentries : u.entries = fillers u.preamble ++ fillers u.bottom := by
      rw [Document.entries, hnodes]
      rfl
    have hposition : ∀ i ∈ insertions t u, i.position = u.entries.length := by
      intro i hi
      rcases insertions_position hi with ⟨e, he, -⟩ | hend
      · rw [hends] at he
        cases he
      · exact hend
    rw [planned, insertAll_end hposition, if_neg (not_and_of_not_left _ (not_not.mpr hnodes)),
      hends, List.flatMap_nil, List.nil_append, ← List.append_assoc, ← hentries]
  · have hpositive : 0 < (nodeEntries u.nodes).length := by
      obtain ⟨s, ss, hss⟩ := List.exists_cons_of_ne_nil hnodes
      have hpos := s.length_pos
      rw [hss, nodeEntries_cons, List.length_append]
      omega
    have hlength := entries_length u
    have hquiet : ∀ q, q < u.entries.length → (∀ e ∈ u.ends, e.2 ≠ q) →
        gap (insertions t u) q = [] := by
      intro q hq hne
      apply gap_eq_nil
      intro i hi heq
      rcases insertions_position hi with ⟨e, he, hposition⟩ | hposition
      · exact hne e he (hposition.symm.trans heq)
      · omega
    have hbefore : ∀ q ≤ u.preamble.length, gap (insertions t u) q = [] := by
      intro q hq
      apply hquiet q (by omega)
      intro e he
      have := (ends_bounds he).1
      omega
    have hbound : ∀ i ∈ insertions t u, i.position ≤ u.entries.length := by
      intro i hi
      rcases insertions_position hi with ⟨e, he, hposition⟩ | hposition
      · rw [hposition]
        exact ends_le he
      · exact hposition.le
    have hpreamble : weave (gap (insertions t u)) 0 (fillers u.preamble) = fillers u.preamble := by
      apply weave_quiet
      intro q _ hq
      rw [Nat.zero_add, List.length_map] at hq
      exact hbefore q hq
    have hmiddle : weave (gap (insertions t u)) u.preamble.length (nodeEntries u.nodes) =
        u.ends.flatMap fun e => e.1.entries ++ gap (insertions t u) e.2 := by
      apply weave_nodes
      intro q _ hq hne
      obtain ⟨e, he, hlast⟩ := exists_last_end u.preamble.length hnodes
      have := hne e he
      exact hquiet q (by omega) hne
    have hbottom : weave (gap (insertions t u)) (u.preamble.length + (nodeEntries u.nodes).length)
        (fillers u.bottom) = if u.nodes ≠ [] ∧ u.bottom = [] then [] else
          fillers u.bottom ++ gap (insertions t u) u.entries.length := by
      by_cases hbottom : u.bottom = []
      · rw [if_pos ⟨hnodes, hbottom⟩, hbottom]
        rfl
      · rw [if_neg (not_and_of_not_right _ hbottom), weave_last (by simpa using hbottom),
          List.length_map, ← hlength]
        intro q hq hq'
        rw [List.length_map, ← hlength] at hq'
        apply hquiet q hq'
        intro e he
        have := (ends_bounds he).2
        omega
    have hsplit : weave (gap (insertions t u)) 0 u.entries =
        weave (gap (insertions t u)) 0 (fillers u.preamble) ++
          (weave (gap (insertions t u)) u.preamble.length (nodeEntries u.nodes) ++
            weave (gap (insertions t u)) (u.preamble.length + (nodeEntries u.nodes).length)
              (fillers u.bottom)) := by
      rw [Document.entries, weave_append, weave_append, List.length_map, Nat.zero_add]
    rw [planned, insertAll_eq hbound, hbefore 0 (by omega), List.nil_append, hsplit, hpreamble,
      hmiddle, hbottom]

end Gaps

end PolishingRobot.Params
