import PolishingRobot.Params.MergedLines
import PolishingRobot.Params.UserPlan

/-!
# The lines of the merged user's file

In front of the last line each content end has the new keys that land there. Behind
the last line new keys meet new nodes: keys that follow a new node belong to it.
-/

namespace PolishingRobot.Params

open PolishingRobot.Lists

/-- The keys of a node of the template that land at a line. -/
def landedOf (u : UserFile) (line : Nat) (r : Node) : List KeyBlock :=
  u.landings.flatMap fun l => if r.name = l.1.name ∧ l.2.2 = line then lacking r l.1 else []

/-- The new keys that land at a line, in the order of the template. -/
def landedKeys (t : Document) (u : UserFile) (line : Nat) : List KeyBlock :=
  t.nodes.flatMap (landedOf u line)

/-- What is inserted behind the last line. -/
inductive EndPiece where
  | key (b : KeyBlock)
  | node (p : Placed)

def EndPiece.lines : EndPiece → List YamlLine
  | key b => b.core.map Entry.yaml
  | node p => p.lines.map Entry.yaml

def endPiecesOf (u : UserFile) (p : Placed) : List EndPiece :=
  if p.node.name ∈ u.names then (landedOf u u.entries.length p.node).map .key else [.node p]

/-- What is inserted behind the last line, as it stands there: the last of the
template comes first. -/
def endPieces (t : Document) (u : UserFile) : List EndPiece :=
  (t.placed.flatMap (endPiecesOf u)).reverse

/-- The keys in front of the first node, and those behind every node. -/
def spread : List EndPiece → List KeyBlock × List (Placed × List KeyBlock)
  | [] => ([], [])
  | .key b :: cs => (b :: (spread cs).1, (spread cs).2)
  | .node p :: cs => ([], (p, (spread cs).1) :: (spread cs).2)

/-- The new keys in the lines of the user's node whose content ends at the place. -/
def keysFor (t : Document) (u : UserFile) (p : Place) : List KeyBlock :=
  if p.2 < u.entries.length then (landedKeys t u p.2).reverse else (spread (endPieces t u)).1

/-- The new nodes behind the user's, each with the keys that follow it. -/
def nodesAdded (t : Document) (u : UserFile) : List (Placed × List KeyBlock) :=
  (spread (endPieces t u)).2

section Gaps

variable {t : Document} {u : UserFile} {p : Placed} {q : Nat}

theorem filter_keysAt (line : Nat) (bs : List KeyBlock) (q : Nat) :
    (keysAt line bs).filter (·.position = q) = if line = q then keysAt q bs else [] := by
  rw [keysAt, List.filter_map]
  split_ifs with h
  · subst h
    rw [List.filter_eq_self.mpr]
    · rfl
    · intro b _
      exact decide_eq_true rfl
  · rw [List.filter_eq_nil_iff.mpr, List.map_nil]
    intro b _ hb
    exact h (of_decide_eq_true hb)

/-- Of the insertions for known nodes, those at a line. -/
theorem filter_landings (u : UserFile) (r : Node) (q : Nat) :
    (u.landings.flatMap fun l => if r.name = l.1.name then keysAt l.2.2 (lacking r l.1)
        else []).filter (·.position = q) = keysAt q (landedOf u q r) := by
  rw [List.filter_flatMap, landedOf, keysAt, List.map_flatMap]
  apply List.flatMap_congr
  intro l _
  by_cases hname : r.name = l.1.name
  · rw [if_pos hname, filter_keysAt]
    by_cases hline : l.2.2 = q
    · rw [if_pos hline, if_pos ⟨hname, hline⟩]
      rfl
    · rw [if_neg hline, if_neg fun h => hline h.2]
      rfl
  · rw [if_neg hname, if_neg fun h => hname h.1]
    rfl

theorem landedOf_unknown {r : Node} (h : r.name ∉ u.names) : landedOf u q r = [] := by
  rw [landedOf, List.flatMap_eq_nil_iff]
  rintro ⟨x, p⟩ hl
  apply if_neg
  rintro ⟨hname, -⟩
  rw [hname] at h
  exact h (List.mem_map_of_mem (mem_sections_of_landing hl).1)

theorem filter_placed_before (hq : q < u.entries.length) (p : Placed) :
    (placedInsertions u p).filter (·.position = q) = keysAt q (landedOf u q p.node) := by
  rw [placedInsertions]
  split_ifs with hmem
  · exact filter_landings u p.node q
  · rw [landedOf_unknown hmem, List.filter_eq_nil_iff.mpr]
    · rfl
    · intro i hi hpos
      rw [List.mem_singleton.mp hi, decide_eq_true_iff] at hpos
      exact absurd hpos hq.ne'

theorem filter_placed_end (u : UserFile) (p : Placed) :
    (placedInsertions u p).filter (·.position = u.entries.length) =
      (endPiecesOf u p).map fun c => ⟨u.entries.length, c.lines⟩ := by
  rw [placedInsertions, endPiecesOf]
  split_ifs with hmem
  · rw [filter_landings, keysAt, List.map_map]
    rfl
  · simp [EndPiece.lines]

/-- In front of the end of the file there are new keys alone. -/
theorem gap_before (t : Document) (hq : q < u.entries.length) :
    gap (userInsertions t u) q =
      (landedKeys t u q).reverse.flatMap fun b => b.core.map Entry.yaml := by
  have hfilter : (userInsertions t u).filter (·.position = q) = keysAt q (landedKeys t u q) := by
    rw [userInsertions, List.filter_flatMap]
    simp only [filter_placed_before hq]
    rw [flatMap_placed fun r => keysAt q (landedOf u q r), landedKeys, keysAt, List.map_flatMap]
    rfl
  rw [gap, hfilter, keysAt, ← List.map_reverse, List.flatMap_map]

theorem gap_end (t : Document) (u : UserFile) :
    gap (userInsertions t u) u.entries.length = (endPieces t u).flatMap (·.lines) := by
  have hfilter : (userInsertions t u).filter (·.position = u.entries.length) =
      (t.placed.flatMap (endPiecesOf u)).map fun c => ⟨u.entries.length, c.lines⟩ := by
    rw [userInsertions, List.filter_flatMap, List.map_flatMap]
    simp only [filter_placed_end]
  rw [gap, hfilter, ← List.map_reverse, List.flatMap_map]
  rfl

theorem userInsertions_position {i : Insertion YamlLine} (hi : i ∈ userInsertions t u) :
    (∃ p ∈ u.contentEnds, i.position = p.2) ∨ i.position = u.entries.length := by
  obtain ⟨p, -, hi⟩ := List.mem_flatMap.mp hi
  rw [placedInsertions] at hi
  split_ifs at hi
  · obtain ⟨⟨x, z⟩, hl, hi⟩ := List.mem_flatMap.mp hi
    split_ifs at hi
    · obtain ⟨b, -, rfl⟩ := List.mem_map.mp hi
      exact .inl ⟨z, landing_end hl, rfl⟩
    · cases hi
  · rw [List.mem_singleton.mp hi]
    exact .inr rfl

/-- In front of the last line there is nothing new but at the ends of contents. -/
theorem gapBefore_quiet (t : Document) (h : ∀ p ∈ u.contentEnds, p.2 ≠ q) :
    gapBefore (userInsertions t u) u.entries.length q = [] := by
  rw [gapBefore]
  split_ifs with hq
  · apply gap_eq_nil
    intro i hi heq
    rcases userInsertions_position hi with ⟨p, hp, hposition⟩ | hposition
    · exact h p hp (hposition.symm.trans heq)
    · omega
  · rfl

/-- The user's lines with new ones behind the contents and behind the last line. -/
theorem userPlanned_eq (t : Document) (u : UserFile) :
    userPlanned t u = (fillers u.preamble).map Entry.yaml ++
      (u.contentEnds.flatMap fun p =>
        p.1.linesWith (gapBefore (userInsertions t u) u.entries.length p.2)) ++
      (endPieces t u).flatMap (·.lines) := by
  have hbound : ∀ i ∈ userInsertions t u, i.position ≤ u.entries.length := by
    intro i hi
    rcases userInsertions_position hi with ⟨p, hp, hposition⟩ | hposition
    · rw [hposition]
      exact (contentEnds_le hp).2
    · exact hposition.le
  have habove : ∀ q ≤ u.preamble.length,
      gapBefore (userInsertions t u) u.entries.length q = [] := by
    intro q hq
    apply gapBefore_quiet
    intro p hp
    have := (contentEnds_bounds hp).1
    omega
  have hlength : ((fillers u.preamble).map Entry.yaml).length = u.preamble.length := by
    rw [List.length_map, List.length_map]
  have hpreamble : weave (gapBefore (userInsertions t u) u.entries.length) 0
      ((fillers u.preamble).map Entry.yaml) = (fillers u.preamble).map Entry.yaml := by
    apply weave_quiet
    intro q _ hq
    rw [Nat.zero_add, hlength] at hq
    exact habove q hq
  have hsections : weave (gapBefore (userInsertions t u) u.entries.length) u.preamble.length
      (sectionLines u.sections) = u.contentEnds.flatMap fun p =>
        p.1.linesWith (gapBefore (userInsertions t u) u.entries.length p.2) := by
    apply weave_sections
    intro q _ _ hne
    exact gapBefore_quiet t hne
  have hentries : weave (gapBefore (userInsertions t u) u.entries.length) 0 u.entries =
      weave (gapBefore (userInsertions t u) u.entries.length) 0
          ((fillers u.preamble).map Entry.yaml) ++
        weave (gapBefore (userInsertions t u) u.entries.length) u.preamble.length
          (sectionLines u.sections) := by
    rw [UserFile.entries, fileLines, weave_append, hlength, Nat.zero_add]
  rw [userPlanned, insertAll_last hbound, habove 0 (Nat.zero_le _), List.nil_append, hentries,
    hpreamble, hsections, gap_end]

end Gaps

section Lines

variable {t : Document} {u : UserFile} {p : Place}

/-- Keys in front, then nodes with the keys that follow them. -/
theorem lines_endPieces (cs : List EndPiece) :
    cs.flatMap (·.lines) = keyLines 2 (spread cs).1 ++
      (spread cs).2.flatMap fun e => e.1.lines.map Entry.yaml ++ keyLines 2 e.2 := by
  induction cs with
  | nil => rfl
  | cons c cs ih =>
      rw [List.flatMap_cons, ih]
      cases c with
      | key b =>
          rw [spread, keyLines_eq, keyLines_eq, List.flatMap_cons, List.append_assoc]
          rfl
      | node p =>
          rw [spread, List.flatMap_cons, List.append_assoc]
          rfl

/-- Where the content of a node ends with the file, it is the last node and nothing
stands behind its content. -/
theorem contentEnds_last {i : Nat} {xs : List Section} {p : Place} (hp : p ∈ contentEnds i xs)
    (hlast : p.2 = i + (sectionLines xs).length) :
    ∃ init, contentEnds i xs = init ++ [p] ∧ p.1.contentLength = p.1.body.length := by
  induction xs generalizing i with
  | nil => cases hp
  | cons x xs ih =>
      rw [length_sectionLines_cons] at hlast
      rcases List.mem_cons.mp hp with rfl | hp
      · have hcontent := x.contentLength_le_length
        simp only [] at hlast
        obtain rfl : xs = [] := by
          cases xs with
          | nil => rfl
          | cons z zs =>
              rw [length_sectionLines_cons] at hlast
              omega
        refine ⟨[], rfl, ?_⟩
        simp only [sectionLines, List.flatMap_nil, List.length_nil] at hlast ⊢
        omega
      · obtain ⟨init, hinit, hcontent⟩ := ih hp (by omega)
        exact ⟨_ :: init, by rw [contentEnds, hinit]; rfl, hcontent⟩

/-- Keys in front of every new node come from a node whose content ends with the file. -/
theorem exists_key_of_spread {cs : List EndPiece} (h : (spread cs).1 ≠ []) :
    ∃ b, .key b ∈ cs := by
  cases cs with
  | nil => exact absurd rfl h
  | cons c cs =>
      cases c with
      | key b => exact ⟨b, List.mem_cons_self⟩
      | node p => exact absurd rfl h

theorem exists_landing_of_key {b : KeyBlock} (h : .key b ∈ endPieces t u) :
    ∃ x p, (x, p) ∈ u.landings ∧ p.2 = u.entries.length := by
  obtain ⟨q, -, hq⟩ := List.mem_flatMap.mp (List.mem_reverse.mp h)
  rw [endPiecesOf] at hq
  split_ifs at hq
  · obtain ⟨b', hb', -⟩ := List.mem_map.mp hq
    obtain ⟨⟨x, p⟩, hl, hb'⟩ := List.mem_flatMap.mp hb'
    split_ifs at hb' with hland
    · exact ⟨x, p, hl, hland.2⟩
    · cases hb'
  · cases List.mem_singleton.mp hq

/-- Every node of the user has the new keys behind its content, and the new nodes
follow. -/
theorem userPlanned_sections (t : Document) (u : UserFile) :
    userPlanned t u = (fillers u.preamble).map Entry.yaml ++
      ((u.contentEnds.flatMap fun p => p.1.linesWith (keyLines 2 (keysFor t u p))) ++
        (nodesAdded t u).flatMap fun e => e.1.lines.map Entry.yaml ++ keyLines 2 e.2) := by
  have hgap : ∀ p : Place, gapBefore (userInsertions t u) u.entries.length p.2 =
      keyLines 2 (if p.2 < u.entries.length then (landedKeys t u p.2).reverse else []) := by
    intro p
    rw [gapBefore]
    split_ifs with hp
    · rw [gap_before t hp, keyLines_eq]
    · rfl
  rw [userPlanned_eq, lines_endPieces, List.append_assoc, ← nodesAdded]
  simp only [hgap]
  congr 1
  rw [← List.append_assoc]
  congr 1
  by_cases hkeys : (spread (endPieces t u)).1 = []
  · rw [hkeys]
    refine (List.append_nil _).trans (List.flatMap_congr ?_)
    intro p _
    rw [keysFor, hkeys]
  · obtain ⟨b, hb⟩ := exists_key_of_spread hkeys
    obtain ⟨x, p, hl, hend⟩ := exists_landing_of_key hb
    obtain ⟨init, hinit, hcontent⟩ :=
      contentEnds_last (landing_end hl) (hend.trans u.length_entries)
    have hbefore : ∀ q ∈ init, q.2 < u.entries.length := by
      intro q hq
      have hincreasing := contentEnds_increasing u.preamble.length u.sections
      rw [hinit] at hincreasing
      rw [← hend]
      exact (List.pairwise_append.mp hincreasing).2.2 q hq p (List.mem_singleton_self p)
    have hlast : ¬ p.2 < u.entries.length := hend.not_lt
    rw [UserFile.contentEnds, hinit, List.flatMap_append, List.flatMap_append,
      List.flatMap_singleton, List.flatMap_singleton, List.append_assoc]
    congr 1
    · apply List.flatMap_congr
      intro q hq
      rw [keysFor, if_pos (hbefore q hq), if_pos (hbefore q hq)]
    · rw [keysFor, if_neg hlast, if_neg hlast, Section.linesWith, Section.linesWith, hcontent,
        List.drop_length, List.append_nil, List.append_nil, List.cons_append, List.append_assoc]
      rfl

end Lines

end PolishingRobot.Params
