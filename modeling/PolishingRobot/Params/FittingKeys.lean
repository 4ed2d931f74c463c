import PolishingRobot.Params.AdditiveMerge
import PolishingRobot.Params.UserMerge

/-!
# Keys that fit where they land

New keys do no harm where the keys of the user's node have their indentation and
every value is whole without what stands behind the insertion line. The last key of
the file can also change by what is put behind it: a newline or an empty line.
-/

namespace PolishingRobot.Params

open PolishingRobot.Lists

/-- The keys that are read from the lines in front of the insertion line. -/
def Section.frontFields (x : Section) : List Field := (fieldsOf true x.front).2

/-- The template has a node that the user lacks. -/
def AddsNode (t : Document) (u : UserFile) : Prop := ∃ r ∈ t.nodes, r.name ∉ u.names

instance (t : Document) (u : UserFile) : Decidable (AddsNode t u) :=
  inferInstanceAs (Decidable (∃ r ∈ t.nodes, r.name ∉ u.names))

/-- What the script puts behind the last node of the user. -/
def endFillers (t : Document) (u : UserFile) : List Filler :=
  if AddsNode t u then [.blank 0] else []

/-- The user's node `s` lacks keys of the template's `r`, and they land at `p`. At the
end of the file no new node comes before them. -/
structure Lands (t : Document) (u : UserFile) (r : Node) (s : Section) (p : Place) : Prop where
  landing : (s, p) ∈ u.landings
  name : r.name = s.name
  lacks : lacking r s ≠ []
  place : ∃ pre post, t.nodes = pre ++ r :: post ∧
    (p.2 = u.entries.length → ∀ n ∈ post, n.name ∈ u.names)

section Condition

variable {V : Type} (y : BlockYaml V)

/-- No line of a value stands behind the insertion line, and in front of it every
value is one. -/
structure Whole (x : Section) : Prop where
  quiet : Quiet x.rear
  sound : y.Sound x.frontFields

/-- The new keys fit into the user's node `x`: its keys have the indentation of the
template's, every key has its value from the lines in front of the insertion line,
and where one of the new keys repeats it, they have the same value. -/
structure Fits (r : Node) (s x : Section) : Prop where
  indent : x.indent = 2
  same : ∀ f ∈ x.fields, (∀ b ∈ lacking r s, b.name ≠ f.name) → ∃ g ∈ x.frontFields,
    g.name = f.name ∧ y.Valid g.value ∧ y.value g.value = y.value f.value
  values : Whole y x → ∀ b ∈ lacking r s, ∀ f ∈ x.fields, f.name = b.name →
    y.value f.value = y.scalar b.rest

/-- Nothing lands in the last node, and a key of it has another value with what the
script puts behind the node. -/
def LosesEnd (t : Document) (u : UserFile) : Prop :=
  ∃ x, u.sections.getLast? = some x ∧ (∀ r s p, Lands t u r s p → p.1 ≠ x) ∧
    (AddsNode t u ∨ ∃ r s p, Lands t u r s p) ∧
    ∃ f ∈ x.fields, ∀ g ∈ (fieldsOf true (x.body ++ (fillers (endFillers t u)).map Entry.yaml)).2,
      g.name = f.name → y.value g.value ≠ y.value f.value

/-- Some new keys land where they do not fit, or the last node changes at its end. -/
def Disrupts (t : Document) (u : UserFile) : Prop :=
  (∃ r s p, Lands t u r s p ∧ ¬ Fits y r s p.1) ∨ LosesEnd y t u

/-- Some new keys land between the lines of a value. -/
def Cuts (t : Document) (u : UserFile) : Prop :=
  ∃ r s p, Lands t u r s p ∧ ¬ Whole y p.1

/-- The script leaves the file as it is, or one that is read with every key of the
user in its node with its value. -/
def KeepsKeys (t : File) (u : UserFile) : Prop :=
  ∀ out, main y.load t.text (some u.text) = some out →
    out.userText u.text = u.text ∨
      ∃ m, y.read (out.userText u.text) = some m ∧ ∀ x ∈ u.sections, ∀ f ∈ x.fields,
        Maps m (.str x.name.chars) (.str f.name.chars) (y.value f.value)

end Condition

section Sources

variable {t : Document} {u : UserFile} {p : Place} {b : KeyBlock}

theorem spread_keys (bs : List KeyBlock) (cs : List EndPiece) :
    spread (bs.map .key ++ cs) = (bs ++ (spread cs).1, (spread cs).2) := by
  induction bs with
  | nil => rfl
  | cons b bs ih =>
      rw [List.map_cons, List.cons_append, spread, ih]
      rfl

theorem endPiecesOf_known {q : Placed} (h : q.node.name ∈ u.names) :
    endPiecesOf u q = (landedOf u u.entries.length q.node).map .key := if_pos h

theorem endPiecesOf_unknown {q : Placed} (h : q.node.name ∉ u.names) :
    endPiecesOf u q = [.node q] := if_neg h

/-- Behind the last line, keys in front of every new node come from a node of the
template behind which there is no new one. -/
theorem mem_spread_placed {ps : List Placed}
    (hb : b ∈ (spread (ps.flatMap (endPiecesOf u)).reverse).1) :
    ∃ pre q post, ps = pre ++ q :: post ∧ b ∈ landedOf u u.entries.length q.node ∧
      ∀ q' ∈ post, q'.node.name ∈ u.names := by
  induction ps using List.reverseRecOn with
  | nil => cases hb
  | append_singleton ps q ih =>
      rw [List.flatMap_append, List.flatMap_singleton, List.reverse_append] at hb
      by_cases hq : q.node.name ∈ u.names
      · rw [endPiecesOf_known hq, ← List.map_reverse, spread_keys] at hb
        rcases List.mem_append.mp hb with hb | hb
        · exact ⟨ps, q, [], rfl, List.mem_reverse.mp hb, List.forall_mem_nil _⟩
        · obtain ⟨pre, q', post, rfl, hb, hpost⟩ := ih hb
          refine ⟨pre, q', post ++ [q], by simp, hb, ?_⟩
          intro d hd
          rcases List.mem_append.mp hd with hd | hd
          · exact hpost d hd
          · rw [List.mem_singleton.mp hd]
            exact hq
      · rw [endPiecesOf_unknown hq] at hb
        cases hb

theorem mem_landedOf {line : Nat} {r : Node} (h : b ∈ landedOf u line r) :
    ∃ s p, (s, p) ∈ u.landings ∧ r.name = s.name ∧ p.2 = line ∧ b ∈ lacking r s := by
  obtain ⟨⟨s, p⟩, hl, hb⟩ := List.mem_flatMap.mp h
  split_ifs at hb with hland
  · exact ⟨s, p, hl, hland.1, hland.2, hb⟩
  · cases hb

/-- New keys land in a node only if they are lacking in the one for which they land there. -/
theorem lands_of_mem_keysFor (hp : p ∈ u.contentEnds) (hb : b ∈ keysFor t u p) :
    ∃ r s, Lands t u r s p ∧ b ∈ lacking r s := by
  rw [keysFor] at hb
  split_ifs at hb with hline
  · obtain ⟨r, hr, hb⟩ := List.mem_flatMap.mp (List.mem_reverse.mp hb)
    obtain ⟨s, p', hl, hname, hpos, hnew⟩ := mem_landedOf hb
    obtain rfl : p' = p := place_unique (landing_end hl) hp hpos
    obtain ⟨pre, post, hnodes⟩ := List.append_of_mem hr
    exact ⟨r, s, ⟨hl, hname, List.ne_nil_of_mem hnew, pre, post, hnodes,
      fun hend => absurd hend hline.ne⟩, hnew⟩
  · have hend : p.2 = u.entries.length :=
      Nat.le_antisymm (contentEnds_le hp).2 (Nat.not_lt.mp hline)
    obtain ⟨pre, q, post, hplaced, hb, hpost⟩ := mem_spread_placed hb
    obtain ⟨s, p', hl, hname, hpos, hnew⟩ := mem_landedOf hb
    obtain rfl : p' = p := place_unique (landing_end hl) hp (hpos.trans hend.symm)
    have hnodes : t.nodes = pre.map (·.node) ++ q.node :: post.map (·.node) := by
      rw [← placed_nodes ⟨t.bottom, t.shallow⟩ t.nodes, ← Document.placed, hplaced,
        List.map_append, List.map_cons]
    refine ⟨q.node, s, ⟨hl, hname, List.ne_nil_of_mem hnew, _, _, hnodes, ?_⟩, hnew⟩
    intro _ n hn
    obtain ⟨q', hq', rfl⟩ := List.mem_map.mp hn
    exact hpost q' hq'

theorem landedOf_of_landing {s : Section} (h : (s, p) ∈ u.landings) (r : Node) :
    landedOf u p.2 r = if r.name = s.name then lacking r s else [] := by
  rw [landedOf]
  by_cases hname : r.name = s.name
  · have hown : ∀ l ∈ u.landings, (if r.name = l.1.name ∧ l.2.2 = p.2 then lacking r l.1 else []) =
        if l.1.name = s.name then lacking r l.1 else [] := by
      intro l hl
      by_cases hsame : l.1.name = s.name
      · obtain rfl : l = (s, p) := List.inj_on_of_nodup_map (landings_nodup u) hl h hsame
        rw [if_pos ⟨hname, rfl⟩, if_pos rfl]
      · rw [if_neg hsame, if_neg fun hboth => hsame (hboth.1.symm.trans hname)]
    rw [if_pos hname, List.flatMap_congr hown]
    exact flatMap_unique (landings_nodup u) h fun l => lacking r l.1
  · rw [if_neg hname, List.flatMap_eq_nil_iff]
    intro l hl
    apply if_neg
    rintro ⟨hsame, hpos⟩
    have hsection : l.1 = s := landing_unique hl h hpos
    rw [hsection] at hsame
    exact hname hsame

/-- Behind the last line the keys of one node are in front of every new node. -/
theorem spread_of_landing {s : Section} {ppre ppost : List Placed} {q : Placed}
    (hplaced : t.placed = ppre ++ q :: ppost) (h : (s, p) ∈ u.landings)
    (hname : q.node.name = s.name) (hend : p.2 = u.entries.length)
    (hpost : ∀ q' ∈ ppost, q'.node.name ∈ u.names) :
    (spread (endPieces t u)).1 = (lacking q.node s).reverse := by
  have hnames : (t.placed.map (·.node.name)).Nodup := placed_nodup t
  rw [hplaced, List.map_append, List.map_cons, List.nodup_append, List.nodup_cons] at hnames
  obtain ⟨-, ⟨hbehind, -⟩, hbefore⟩ := hnames
  have hlanded : ∀ r : Node, landedOf u u.entries.length r =
      if r.name = s.name then lacking r s else [] := by
    rw [← hend]
    exact landedOf_of_landing h
  have hknown : q.node.name ∈ u.names := by
    rw [hname]
    exact List.mem_map_of_mem (mem_sections_of_landing h).1
  have hown : endPiecesOf u q = (lacking q.node s).map .key := by
    rw [endPiecesOf_known hknown, hlanded, if_pos hname]
  have hbelow : ppost.flatMap (endPiecesOf u) = [] := by
    rw [List.flatMap_eq_nil_iff]
    intro q' hq'
    have hne : q'.node.name ≠ s.name := by
      rw [← hname]
      intro hsame
      rw [← hsame] at hbehind
      exact hbehind (List.mem_map_of_mem hq')
    rw [endPiecesOf_known (hpost q' hq'), hlanded, if_neg hne, List.map_nil]
  have habove : (spread (ppre.flatMap (endPiecesOf u)).reverse).1 = [] := by
    by_contra hkeys
    obtain ⟨b, hb⟩ := exists_key_of_spread hkeys
    obtain ⟨q', hq', hb⟩ := List.mem_flatMap.mp (List.mem_reverse.mp hb)
    have hne : q'.node.name ≠ s.name := by
      rw [← hname]
      exact hbefore _ (List.mem_map_of_mem hq') _ List.mem_cons_self
    by_cases hq' : q'.node.name ∈ u.names
    · rw [endPiecesOf_known hq', hlanded, if_neg hne] at hb
      cases hb
    · rw [endPiecesOf_unknown hq'] at hb
      cases List.mem_singleton.mp hb
  rw [endPieces, hplaced, List.flatMap_append, List.flatMap_cons, hown, hbelow, List.append_nil,
    List.reverse_append, ← List.map_reverse, spread_keys, habove, List.append_nil]

/-- The lacking keys of one node, and only these, land where its content ends. -/
theorem keysFor_of_lands {r : Node} {s : Section} (h : Lands t u r s p) :
    keysFor t u p = (lacking r s).reverse := by
  obtain ⟨hl, hname, -, pre, post, hnodes, hpost⟩ := h
  rw [keysFor]
  split_ifs with hline
  · have hr : r ∈ t.nodes := by
      rw [hnodes]
      simp
    have hone : t.nodes.flatMap (landedOf u p.2) = lacking r s := by
      rw [funext (landedOf_of_landing hl), ← hname]
      exact flatMap_unique t.nodup hr fun r => lacking r s
    rw [landedKeys, hone]
  · have hend : p.2 = u.entries.length :=
      Nat.le_antisymm (contentEnds_le (landing_end hl)).2 (Nat.not_lt.mp hline)
    obtain ⟨ppre, q, ppost, hplaced, rfl, rfl⟩ := placed_of_nodes hnodes
    apply spread_of_landing hplaced hl hname hend
    intro q' hq'
    exact hpost hend _ (List.mem_map_of_mem hq')

/-- The new nodes, the last of the template first. -/
theorem spread_nodes (ps : List Placed) :
    (spread (ps.flatMap (endPiecesOf u)).reverse).2.map (·.1) =
      (ps.filter (·.node.name ∉ u.names)).reverse := by
  induction ps using List.reverseRecOn with
  | nil => rfl
  | append_singleton ps q ih =>
      rw [List.flatMap_append, List.flatMap_singleton, List.reverse_append, List.filter_append,
        List.reverse_append]
      by_cases hq : q.node.name ∈ u.names
      · rw [endPiecesOf_known hq, ← List.map_reverse, spread_keys, ih,
          List.filter_cons_of_neg (by simpa only [decide_eq_true_iff, not_not] using hq)]
        rfl
      · rw [endPiecesOf_unknown hq, List.reverse_singleton, List.singleton_append, spread,
          List.map_cons, ih, List.filter_cons_of_pos (by simpa only [decide_eq_true_iff] using hq)]
        rfl

/-- Every key at the end is one of the template. -/
theorem node_of_key (h : .key b ∈ endPieces t u) : ∃ r ∈ t.nodes, b ∈ r.blocks := by
  obtain ⟨q, hq, hkey⟩ := List.mem_flatMap.mp (List.mem_reverse.mp h)
  rw [endPiecesOf] at hkey
  split_ifs at hkey
  · obtain ⟨b', hb', heq⟩ := List.mem_map.mp hkey
    obtain rfl := EndPiece.key.inj heq
    obtain ⟨s, p, -, -, -, hlack⟩ := mem_landedOf hb'
    exact ⟨q.node, node_of_placed hq, (List.mem_filter.mp hlack).1⟩
  · cases List.mem_singleton.mp hkey

/-- What follows a new node are keys at the end. -/
theorem key_of_spread {cs : List EndPiece} {e : Placed × List KeyBlock} (he : e ∈ (spread cs).2)
    (hb : b ∈ e.2) : .key b ∈ cs := by
  have hfirst : ∀ (cs : List EndPiece) (b : KeyBlock), b ∈ (spread cs).1 → .key b ∈ cs := by
    intro cs b hb
    induction cs with
    | nil => cases hb
    | cons c cs ih =>
        cases c with
        | node p => cases hb
        | key b' =>
            rcases List.mem_cons.mp hb with rfl | hb
            · exact List.mem_cons_self
            · exact List.mem_cons_of_mem _ (ih hb)
  induction cs with
  | nil => cases he
  | cons c cs ih =>
      cases c with
      | key b' => exact List.mem_cons_of_mem _ (ih he)
      | node p =>
          rcases List.mem_cons.mp he with rfl | he
          · exact List.mem_cons_of_mem _ (hfirst cs b hb)
          · exact List.mem_cons_of_mem _ (ih he)

theorem nodesAdded_ne_nil_iff (t : Document) (u : UserFile) :
    nodesAdded t u ≠ [] ↔ AddsNode t u := by
  have hnodes : (nodesAdded t u).map (·.1) = (t.placed.filter (·.node.name ∉ u.names)).reverse :=
    spread_nodes t.placed
  constructor
  · intro hne
    obtain ⟨e, he⟩ := List.exists_mem_of_ne_nil _ hne
    have hmem : e.1 ∈ (nodesAdded t u).map (·.1) := List.mem_map_of_mem he
    rw [hnodes, List.mem_reverse, List.mem_filter] at hmem
    exact ⟨e.1.node, node_of_placed hmem.1, of_decide_eq_true hmem.2⟩
  · rintro ⟨r, hr, hnew⟩ hnil
    obtain ⟨p, hp, rfl⟩ := exists_placed hr
    have hmem : p ∈ (t.placed.filter (·.node.name ∉ u.names)).reverse :=
      List.mem_reverse.mpr (List.mem_filter.mpr ⟨hp, decide_eq_true hnew⟩)
    rw [← hnodes, hnil] at hmem
    cases hmem

theorem userInsertions_ne_nil {r : Node} {s : Section} (h : Lands t u r s p) :
    userInsertions t u ≠ [] := by
  obtain ⟨hl, hname, hlacks, pre, post, hnodes, -⟩ := h
  obtain ⟨ppre, q, ppost, hplaced, rfl, -⟩ := placed_of_nodes hnodes
  rw [userInsertions, hplaced, List.flatMap_append, List.flatMap_cons,
    placedInsertions_known hl hname]
  simp [keysAt, hlacks]

/-- The script inserts something exactly if it adds a node or some new keys land. -/
theorem userInsertions_ne_nil_iff :
    userInsertions t u ≠ [] ↔ AddsNode t u ∨ ∃ r s p, Lands t u r s p := by
  constructor
  · intro hne
    by_contra hnone
    rw [not_or] at hnone
    obtain ⟨hadds, hlands⟩ := hnone
    apply hne
    rw [userInsertions, List.flatMap_eq_nil_iff]
    intro q hq
    have hknown : ∀ r ∈ t.nodes, r.name ∈ u.names := by
      intro r hr
      by_contra hnew
      exact hadds ⟨r, hr, hnew⟩
    rw [placedInsertions, if_pos (hknown _ (node_of_placed hq)), List.flatMap_eq_nil_iff]
    rintro ⟨s, p⟩ hl
    split_ifs with hname
    · have hlacks : lacking q.node s = [] := by
        by_contra hlacks
        obtain ⟨pre, post, hsplit⟩ := List.append_of_mem (node_of_placed hq)
        refine hlands ⟨q.node, s, p, hl, hname, hlacks, pre, post, hsplit, ?_⟩
        intro _ n hn
        exact hknown n (by rw [hsplit]; simp [hn])
      rw [hlacks]
      rfl
    · rfl
  · rintro (⟨r, hr, hnew⟩ | ⟨r, s, p, hlands⟩)
    · obtain ⟨q, hq, rfl⟩ := exists_placed hr
      intro hnil
      have hnone := List.flatMap_eq_nil_iff.mp hnil q hq
      rw [placedInsertions, if_neg hnew] at hnone
      cases hnone
    · exact userInsertions_ne_nil hlands

end Sources

end PolishingRobot.Params
