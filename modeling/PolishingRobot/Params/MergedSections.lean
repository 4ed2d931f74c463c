import PolishingRobot.Params.AdditiveMerge
import PolishingRobot.Params.FittingKeys

/-!
# The nodes of the merged file

If all new keys fit, the merged file has the user's nodes with the new keys in them,
and the new nodes behind them. It is read, and every key of the user has its value.
-/

namespace PolishingRobot.Params

open PolishingRobot.Lists

/-- The user's node with new keys at the end of its content. -/
def Section.grown (x : Section) (bs : List KeyBlock) : List YamlLine :=
  x.front ++ (keyLines x.indent bs ++ x.rear)

theorem Section.grown_nil (x : Section) : x.grown [] = x.body := x.front_append_rear

section Grown

variable {x : Section} {bs : List KeyBlock}

theorem inside_keyLines (k : Nat) (bs : List KeyBlock) : ∀ e ∈ keyLines k bs, e.Inside k := by
  intro e he
  obtain ⟨b, -, he⟩ := List.mem_flatMap.mp he
  rcases List.mem_cons.mp he with rfl | he
  · rfl
  · obtain ⟨d, hd, rfl⟩ := List.mem_map.mp he
    obtain ⟨f, -, rfl⟩ := List.mem_map.mp hd
    trivial

theorem Section.inside_grown (x : Section) (bs : List KeyBlock) :
    ∀ e ∈ x.grown bs, e.Inside x.indent := by
  intro e he
  rcases List.mem_append.mp he with he | he
  · exact x.inside e (List.mem_of_mem_take he)
  · rcases List.mem_append.mp he with he | he
    · exact inside_keyLines x.indent bs e he
    · exact x.inside e (List.mem_of_mem_drop he)

theorem Section.leads_grown (x : Section) (bs : List KeyBlock) : Leads x.indent (x.grown bs) := by
  cases bs with
  | nil =>
      rw [x.grown_nil]
      exact x.leads
  | cons b bs =>
      by_cases hfront : Quiet x.front
      · exact ⟨x.front, b.name, _, _, rfl, hfront⟩
      · have hleads := x.leads
        rw [← x.front_append_rear] at hleads
        exact (hleads.of_append hfront).append _

end Grown

def Section.grow (x : Section) (bs : List KeyBlock) : Section where
  name := x.name
  tail := x.tail
  indent := x.indent
  indent_pos := x.indent_pos
  body := x.grown bs
  inside := x.inside_grown bs
  leads := x.leads_grown bs
  ended := true

/-- A new node with the keys that follow it. -/
def Placed.grow (p : Placed) (bs : List KeyBlock) : Section where
  name := p.node.name
  tail := .blank p.node.width
  indent := 2
  indent_pos := Nat.zero_lt_two
  body := p.body ++ keyLines 2 bs
  inside _ he := (p.keysOnly_body.append (keysOnly_keyLines bs)).inside he
  leads := (p.keysOnly_body.leads p.node.blocks_ne).append _
  ended := true

/-- The node with an empty line behind it. -/
def Section.spaced (x : Section) : Section where
  name := x.name
  tail := x.tail
  indent := x.indent
  indent_pos := x.indent_pos
  body := x.body ++ [.filler (.blank 0)]
  inside e he := by
    rcases List.mem_append.mp he with he | he
    · exact x.inside e he
    · rw [List.mem_singleton.mp he]
      trivial
  leads := x.leads.append _
  ended := true

/-- The nodes with an empty line behind every one but the last. -/
def spaced : List Section → List Section
  | [] => []
  | x :: xs => (if xs = [] then x else x.spaced) :: spaced xs

/-- New nodes behind others, each below an empty line. -/
def joined (olds news : List Section) : List Section :=
  olds.dropLast ++ spaced (olds.getLast?.toList ++ news)

section Joined

variable {x z : Section} {xs olds news : List Section}

theorem sectionLines_spaced (x : Section) (xs : List Section) :
    sectionLines (spaced (x :: xs)) =
      x.lines ++ xs.flatMap fun z => .filler (.blank 0) :: z.lines := by
  induction xs generalizing x with
  | nil => rfl
  | cons z xs ih =>
      have hsplit : sectionLines (spaced (x :: z :: xs)) =
          x.lines ++ .filler (.blank 0) :: sectionLines (spaced (z :: xs)) := by
        simp [spaced, sectionLines, Section.lines, Section.spaced]
      rw [hsplit, ih]
      rfl

theorem joined_concat (init : List Section) (x : Section) (news : List Section) :
    joined (init ++ [x]) news = init ++ spaced (x :: news) := by
  rw [joined, List.dropLast_concat, List.getLast?_concat]
  rfl

theorem sectionLines_joined (holds : olds ≠ []) (news : List Section) :
    sectionLines (joined olds news) =
      sectionLines olds ++ news.flatMap fun z => .filler (.blank 0) :: z.lines := by
  obtain ⟨init, x, rfl⟩ := (List.eq_nil_or_concat' olds).resolve_left holds
  rw [joined_concat, sectionLines, List.flatMap_append, ← sectionLines, ← sectionLines,
    sectionLines_spaced, sectionLines, sectionLines, List.flatMap_append, List.flatMap_singleton,
    List.append_assoc]

theorem names_spaced (xs : List Section) : (spaced xs).map (·.name) = xs.map (·.name) := by
  induction xs with
  | nil => rfl
  | cons x xs ih =>
      rw [spaced, List.map_cons, ih, List.map_cons]
      split_ifs <;> rfl

theorem names_joined (olds news : List Section) :
    (joined olds news).map (·.name) = olds.map (·.name) ++ news.map (·.name) := by
  rcases List.eq_nil_or_concat' olds with rfl | ⟨init, x, rfl⟩
  · exact names_spaced news
  · rw [joined_concat, List.map_append, names_spaced, List.map_append, List.append_assoc]
    rfl

theorem mem_spaced (h : z ∈ spaced xs) : ∃ x ∈ xs, z = x ∨ z = x.spaced := by
  induction xs with
  | nil => cases h
  | cons x xs ih =>
      rcases List.mem_cons.mp h with rfl | h
      · refine ⟨x, List.mem_cons_self, ?_⟩
        split_ifs
        · exact .inl rfl
        · exact .inr rfl
      · obtain ⟨x', hx', hz⟩ := ih h
        exact ⟨x', List.mem_cons_of_mem _ hx', hz⟩

/-- Every node that is joined is one of the two, with an empty line or without. -/
theorem mem_joined (h : z ∈ joined olds news) :
    ∃ x ∈ olds ++ news, z = x ∨ z = x.spaced := by
  rcases List.eq_nil_or_concat' olds with rfl | ⟨init, x, rfl⟩
  · exact mem_spaced h
  · rw [joined_concat] at h
    rcases List.mem_append.mp h with h | h
    · exact ⟨z, by simp [h], .inl rfl⟩
    · obtain ⟨x', hx', hz⟩ := mem_spaced h
      exact ⟨x', by rw [List.append_assoc]; exact List.mem_append_right _ hx', hz⟩

theorem newlines_true : Newlines true xs ↔ ∀ x ∈ xs, x.ended = true := by
  induction xs with
  | nil => exact iff_of_true trivial (List.forall_mem_nil _)
  | cons x xs ih =>
      rw [Newlines, ih, List.forall_mem_cons, Bool.true_or]

/-- All nodes but the last end with a newline. -/
theorem ended_of_newlines {ended : Bool} (h : Newlines ended (xs ++ [x])) :
    ∀ z ∈ xs, z.ended = true := by
  induction xs with
  | nil => exact List.forall_mem_nil _
  | cons z xs ih =>
      obtain ⟨hended, hrest⟩ := h
      refine List.forall_mem_cons.mpr ⟨?_, ih hrest⟩
      rw [hended]
      simp

end Joined

/-- The user's nodes with the keys that land in them, and the new ones with the keys
that follow them. -/
def mergedSections (t : Document) (u : UserFile) : List Section :=
  joined (u.contentEnds.map fun p => p.1.grow (keysFor t u p))
    ((nodesAdded t u).map fun e => e.1.grow e.2)

/-- Without a node of the user the first new one follows the lines above. -/
def mergedPreamble (t : Document) (u : UserFile) : List Filler :=
  if u.sections = [] then u.preamble ++ endFillers t u else u.preamble

section Merged

variable {t : Document} {u : UserFile} {p : Place} {x : Section} {bs : List KeyBlock}

theorem Section.linesWith_keyLines (x : Section) (h : bs ≠ [] → x.indent = 2) :
    x.linesWith (keyLines 2 bs) = (x.grow bs).lines := by
  by_cases hbs : bs = []
  · rw [hbs]
    rfl
  · have hlines : (x.grow bs).lines =
        .header x.name x.tail :: (x.front ++ (keyLines x.indent bs ++ x.rear)) := rfl
    rw [hlines, h hbs]
    rfl

theorem Placed.lines_grow (p : Placed) (bs : List KeyBlock) :
    p.lines.map Entry.yaml ++ keyLines 2 bs = .filler (.blank 0) :: (p.grow bs).lines := by
  simp [Placed.lines, Section.lines, Placed.grow, Placed.body, Node.body, Entry.yaml]

theorem nodesAdded_of_not (h : ¬ AddsNode t u) : nodesAdded t u = [] := by
  rw [← nodesAdded_ne_nil_iff, not_not] at h
  exact h

/-- Where the keys of the nodes have the indentation of the new ones, the merged file
has the merged nodes. -/
theorem userPlanned_merged (h : ∀ p ∈ u.contentEnds, keysFor t u p ≠ [] → p.1.indent = 2) :
    userPlanned t u = fileLines (mergedPreamble t u) (mergedSections t u) := by
  have holds : (u.contentEnds.flatMap fun p => p.1.linesWith (keyLines 2 (keysFor t u p))) =
      sectionLines (u.contentEnds.map fun p => p.1.grow (keysFor t u p)) := by
    rw [sectionLines, List.flatMap_map]
    exact List.flatMap_congr fun p hp => p.1.linesWith_keyLines (h p hp)
  have hnews : ((nodesAdded t u).flatMap fun e => e.1.lines.map Entry.yaml ++ keyLines 2 e.2) =
      ((nodesAdded t u).map fun e => e.1.grow e.2).flatMap
        fun z => .filler (.blank 0) :: z.lines := by
    rw [List.flatMap_map]
    exact List.flatMap_congr fun e _ => e.1.lines_grow e.2
  have hends := u.contentEnds_sections
  rw [userPlanned_sections, holds, hnews, fileLines, mergedPreamble, mergedSections]
  by_cases hsections : u.sections = []
  · have hcontent : u.contentEnds = [] := by
      rw [hsections] at hends
      exact List.map_eq_nil_iff.mp hends
    rw [if_pos hsections, hcontent]
    by_cases hadds : AddsNode t u
    · obtain ⟨e, es, hnew⟩ := List.exists_cons_of_ne_nil ((nodesAdded_ne_nil_iff t u).mpr hadds)
      have hjoined : ∀ news : List Section, joined [] news = spaced news := fun _ => rfl
      rw [hnew, List.map_nil, List.map_cons, hjoined, sectionLines_spaced, endFillers, if_pos hadds,
        fillers, fillers, List.map_append, List.map_append, List.append_assoc]
      rfl
    · rw [nodesAdded_of_not hadds, endFillers, if_neg hadds, List.append_nil]
      rfl
  · have hne : (u.contentEnds.map fun p => p.1.grow (keysFor t u p)) ≠ [] := by
      intro hnil
      rw [List.map_eq_nil_iff.mp hnil] at hends
      exact hsections hends.symm
    rw [if_neg hsections, sectionLines_joined hne]

theorem mergedSections_nodup (t : Document) (u : UserFile) :
    ((mergedSections t u).map (·.name)).Nodup := by
  have hold : (u.contentEnds.map fun p => p.1.grow (keysFor t u p)).map (·.name) = u.names := by
    rw [UserFile.names, ← u.contentEnds_sections, List.map_map, List.map_map]
    rfl
  have hnew : ((nodesAdded t u).map fun e => e.1.grow e.2).map (·.name) =
      (t.placed.filter (·.node.name ∉ u.names)).reverse.map (·.node.name) := by
    rw [← spread_nodes, List.map_map, List.map_map]
    rfl
  rw [mergedSections, names_joined, hold, hnew, List.nodup_append]
  refine ⟨u.nodup, ?_, ?_⟩
  · rw [List.map_reverse, List.nodup_reverse]
    exact (placed_nodup t).sublist (List.filter_sublist.map _)
  · rintro n hn m hm rfl
    obtain ⟨q, hq, rfl⟩ := List.mem_map.mp hm
    have hfresh := (List.mem_filter.mp (List.mem_reverse.mp hq)).2
    exact of_decide_eq_true hfresh hn

theorem newlines_mergedSections (t : Document) (u : UserFile) :
    Newlines true (mergedSections t u) := by
  rw [newlines_true]
  intro z hz
  obtain ⟨x, hx, hz⟩ := mem_joined hz
  have hx : x.ended = true := by
    rcases List.mem_append.mp hx with hx | hx
    · obtain ⟨p, -, rfl⟩ := List.mem_map.mp hx
      rfl
    · obtain ⟨e, -, rfl⟩ := List.mem_map.mp hx
      rfl
  rcases hz with rfl | rfl
  · exact hx
  · rfl

end Merged

section Reading

variable {V : Type} {y : BlockYaml V} {t : Document} {u : UserFile} {p : Place} {x : Section}
  {bs : List KeyBlock} {qs : List YamlLine} {i : Nat}

theorem plain_userPlanned (hy : y.ReadsBlocks) (ht : y.PlainTemplate t) (hu : y.PlainFile u) :
    ∀ e ∈ userPlanned t u, y.Plain e := by
  intro e he
  rcases mem_insertAll.mp he with he | ⟨i, hi, he⟩
  · exact hu.plain e he
  · obtain ⟨p, hp, hi⟩ := List.mem_flatMap.mp hi
    rw [placedInsertions] at hi
    split_ifs at hi
    · obtain ⟨l, -, hi⟩ := List.mem_flatMap.mp hi
      split_ifs at hi
      · obtain ⟨b, hb, rfl⟩ := List.mem_map.mp hi
        obtain ⟨d, hd, rfl⟩ := List.mem_map.mp he
        apply ht.plain d (mem_entries_of_placed hp (List.mem_append_left _ _))
        refine List.mem_cons_of_mem _ (List.mem_append_right _ ?_)
        exact List.mem_flatMap.mpr ⟨b, (List.mem_filter.mp hb).1, List.mem_append_right _ hd⟩
      · cases hi
    · obtain rfl := List.mem_singleton.mp hi
      obtain ⟨d, hd, rfl⟩ := List.mem_map.mp he
      rcases List.mem_cons.mp hd with rfl | hd
      · exact hy.blank
      · exact ht.plain d (mem_entries_of_placed hp hd)

theorem frontFields_nodup (h : (x.fields.map (·.name)).Nodup) :
    (x.frontFields.map (·.name)).Nodup := by
  rw [Section.fields, fields_names, ← x.front_append_rear, List.filterMap_append] at h
  rw [Section.frontFields, fields_names]
  exact (List.nodup_append.mp h).1

/-- With nothing of a value behind the insertion line, the new keys follow those that
are read from the lines in front. -/
theorem fields_grown (hindent : x.indent = 2) (hrear : Quiet x.rear) (hbs : bs ≠ [])
    (hqs : Quiet qs) : ∃ gs, (fieldsOf true (x.grown bs ++ qs)).2 = x.frontFields ++ gs ∧
      List.Forall₂ Field.Reads gs bs := by
  obtain ⟨b, bs, rfl⟩ := List.exists_cons_of_ne_nil hbs
  have hlines : KeysOnly (keyLines 2 (b :: bs) ++ (x.rear ++ qs)) (b :: bs) := by
    have h := (keysOnly_keyLines (b :: bs)).append
      (keysOnly_quiet (quiet_append.mpr ⟨hrear, hqs⟩))
    rwa [List.append_nil] at h
  refine ⟨_, ?_, (hlines.fields true).2⟩
  rw [Section.grown, hindent, List.append_assoc, List.append_assoc, keyLines_cons, List.cons_append,
    fieldsOf_append_key]
  rfl

/-- What lands in a node, if anything does. -/
theorem exists_lands (hp : p ∈ u.contentEnds) (h : keysFor t u p ≠ []) :
    ∃ r s, Lands t u r s p ∧ keysFor t u p = (lacking r s).reverse := by
  obtain ⟨b, hb⟩ := List.exists_mem_of_ne_nil _ h
  obtain ⟨r, s, hlands, -⟩ := lands_of_mem_keysFor hp hb
  exact ⟨r, s, hlands, keysFor_of_lands hlands⟩

theorem oneLine_of_lacking (ht : y.PlainTemplate t) {r : Node} {s : Section}
    (h : Lands t u r s p) : ∀ b ∈ (lacking r s).reverse, y.OneLine b.rest := by
  intro b hb
  obtain ⟨pre, post, hnodes, -⟩ := h.place
  have hr : r ∈ t.nodes := by
    rw [hnodes]
    simp
  exact ht.oneLine r hr b (List.mem_filter.mp (List.mem_reverse.mp hb)).1

/-- New keys that fit leave every key of the node its value. -/
theorem mem_dict_grown (ht : y.PlainTemplate t) (hu : (x.fields.map (·.name)).Nodup) {r : Node}
    {s : Section} (hlands : Lands t u r s (x, i)) (hfits : Fits y r s x) (hwhole : Whole y x)
    (hqs : Quiet qs) {f : Field} (hf : f ∈ x.fields) : (f.name.chars, y.value f.value) ∈
      y.dict (fieldsOf true (x.grown (lacking r s).reverse ++ qs)).2 := by
  have hbs : (lacking r s).reverse ≠ [] := by simpa using hlands.lacks
  obtain ⟨gs, hgs, hreads⟩ := fields_grown hfits.indent hwhole.quiet hbs hqs
  rw [hgs]
  apply mem_dict_append
  · by_cases hrepeats : ∃ b ∈ lacking r s, b.name = f.name
    · right
      obtain ⟨b, hb, hname⟩ := hrepeats
      have hmem : b.name ∈ gs.map (·.name) := by
        rw [names_of_reads hreads]
        exact List.mem_map_of_mem (List.mem_reverse.mpr hb)
      obtain ⟨g, hg, hgname⟩ := List.mem_map.mp hmem
      exact ⟨g, hg, by rw [hgname, hname]⟩
    · left
      obtain ⟨g, hg, hname, -, hvalue⟩ :=
        hfits.same f hf fun b hb hname => hrepeats ⟨b, hb, hname⟩
      rw [← hname, ← hvalue]
      exact mem_dict_of_nodup (frontFields_nodup hu) hg
  · intro g hg hname
    obtain ⟨b, hb, hread⟩ := exists_of_reads hreads hg
    rw [(hread.value (oneLine_of_lacking ht hlands b hb)).2]
    refine (hfits.values hwhole b (List.mem_reverse.mp hb) f hf ?_).symm
    rw [← hread.1, Name.chars_injective hname]

/-- New keys add values on their lines. -/
theorem sound_keyLines {es : List YamlLine} (hes : y.Sound (fieldsOf true es).2)
    (hbs : ∀ b ∈ bs, y.OneLine b.rest) : y.Sound (fieldsOf true (es ++ keyLines 2 bs)).2 := by
  cases bs with
  | nil => rwa [keyLines, List.flatMap_nil, List.append_nil]
  | cons b bs =>
      rw [keyLines_cons, fieldsOf_append_key]
      intro f hf
      rcases List.mem_append.mp hf with hf | hf
      · exact hes f hf
      · exact sound_of_reads ((keysOnly_keyLines (b :: bs)).fields true).2 hbs f hf

/-- The values of a node in which new keys fit are all whole. -/
theorem sound_grown (ht : y.PlainTemplate t) {r : Node} {s : Section}
    (hlands : Lands t u r s (x, i)) (hfits : Fits y r s x) (hwhole : Whole y x) :
    y.Sound (fieldsOf true (x.grown (lacking r s).reverse)).2 := by
  have hbs : (lacking r s).reverse ≠ [] := by simpa using hlands.lacks
  obtain ⟨gs, hgs, hreads⟩ := fields_grown hfits.indent hwhole.quiet hbs quiet_nil
  rw [List.append_nil] at hgs
  rw [hgs]
  intro f hf
  rcases List.mem_append.mp hf with hf | hf
  · exact hwhole.sound f hf
  · exact sound_of_reads hreads (oneLine_of_lacking ht hlands) f hf

theorem fits_of_lands (h : ¬ Disrupts y t u) {r : Node} {s : Section} (hlands : Lands t u r s p) :
    Fits y r s p.1 := by
  by_contra hfits
  exact h (.inl ⟨r, s, p, hlands, hfits⟩)

theorem whole_of_lands (h : ¬ Cuts y t u) {r : Node} {s : Section} (hlands : Lands t u r s p) :
    Whole y p.1 := by
  by_contra hwhole
  exact h ⟨r, s, p, hlands, hwhole⟩

/-- All values of the merged nodes are whole. -/
theorem sound_mergedSections (hy : y.ReadsBlocks) (ht : y.PlainTemplate t) (hu : y.PlainFile u)
    (hfits : ¬ Disrupts y t u) (hcuts : ¬ Cuts y t u) :
    ∀ z ∈ mergedSections t u, y.Sound z.fields := by
  have hold : ∀ p ∈ u.contentEnds,
      y.Sound (fieldsOf true (p.1.grown (keysFor t u p))).2 := by
    intro p hp
    by_cases hkeys : keysFor t u p = []
    · rw [hkeys, p.1.grown_nil]
      have h := sound_append hy (hu.valid p.1 (mem_sections_of_end hp)) quiet_nil true
      rwa [List.append_nil] at h
    · obtain ⟨r, s, hlands, heq⟩ := exists_lands hp hkeys
      have hfit := fits_of_lands hfits hlands
      rw [heq]
      exact sound_grown ht hlands hfit (whole_of_lands hcuts hlands)
  have hnew : ∀ e ∈ nodesAdded t u, y.Sound (fieldsOf true (e.1.body ++ keyLines 2 e.2)).2 := by
    intro e he
    refine sound_of_reads ((e.1.keysOnly_body.append (keysOnly_keyLines e.2)).fields true).2 ?_
    intro b hb
    rcases List.mem_append.mp hb with hb | hb
    · have hmem : e.1 ∈ (nodesAdded t u).map (·.1) := List.mem_map_of_mem he
      rw [nodesAdded, endPieces, spread_nodes, List.mem_reverse, List.mem_filter] at hmem
      exact ht.oneLine e.1.node (node_of_placed hmem.1) b hb
    · obtain ⟨r, hr, hb⟩ := node_of_key (key_of_spread he hb)
      exact ht.oneLine r hr b hb
  intro z hz
  obtain ⟨x, hx, hz⟩ := mem_joined hz
  have hsound : y.Sound (fieldsOf true x.body).2 := by
    rcases List.mem_append.mp hx with hx | hx
    · obtain ⟨p, hp, rfl⟩ := List.mem_map.mp hx
      exact hold p hp
    · obtain ⟨e, he, rfl⟩ := List.mem_map.mp hx
      exact hnew e he
  rcases hz with rfl | rfl
  · have hended := newlines_true.mp (newlines_mergedSections t u) z (by assumption)
    rwa [Section.fields, hended]
  · exact sound_append hy hsound (List.forall_mem_singleton.mpr rfl) true

/-- Where nothing lands in the last node, its keys have their values with what is put
behind it. -/
theorem exists_last_field (h : ¬ Disrupts y t u) (hinserts : userInsertions t u ≠ [])
    (hlast : u.sections.getLast? = some x) (hnone : ∀ r s p, Lands t u r s p → p.1 ≠ x) {f : Field}
    (hf : f ∈ x.fields) :
    ∃ g ∈ (fieldsOf true (x.body ++ (fillers (endFillers t u)).map Entry.yaml)).2,
      g.name = f.name ∧ y.value g.value = y.value f.value := by
  by_contra hcontra
  refine h (.inr ⟨x, hlast, hnone, userInsertions_ne_nil_iff.mp hinserts, f, hf, ?_⟩)
  intro g hg hname hvalue
  exact hcontra ⟨g, hg, hname, hvalue⟩

/-- A node of the user in the merged file, with what is put behind it. -/
theorem exists_merged (t : Document) (hp : p ∈ u.contentEnds) : ∃ z ∈ mergedSections t u,
    z.name = p.1.name ∧ ∃ qs, Quiet qs ∧
      z.fields = (fieldsOf true (p.1.grown (keysFor t u p) ++ qs)).2 ∧
      (qs = [] ∧ p.1.ended = true ∨
        u.sections.getLast? = some p.1 ∧ qs = (fillers (endFillers t u)).map Entry.yaml) := by
  obtain ⟨init, q, hsplit⟩ := (List.eq_nil_or_concat' u.contentEnds).resolve_left
    (List.ne_nil_of_mem hp)
  have hsections : u.sections = init.map (·.1) ++ [q.1] := sections_split hsplit
  have hmerged : mergedSections t u = init.map (fun p => p.1.grow (keysFor t u p)) ++
      spaced (q.1.grow (keysFor t u q) :: (nodesAdded t u).map fun e => e.1.grow e.2) := by
    rw [mergedSections, hsplit, List.map_append, List.map_singleton, joined_concat]
  rw [hsplit] at hp
  rcases List.mem_append.mp hp with hp | hp
  · refine ⟨p.1.grow (keysFor t u p), ?_, rfl, [], quiet_nil, ?_, .inl ⟨rfl, ?_⟩⟩
    · rw [hmerged]
      exact List.mem_append_left _ (List.mem_map_of_mem hp)
    · rw [List.append_nil]
      rfl
    · have hnewlines := u.newlines
      rw [hsections] at hnewlines
      exact ended_of_newlines hnewlines _ (List.mem_map_of_mem hp)
  · obtain rfl := List.mem_singleton.mp hp
    have hlast : u.sections.getLast? = some p.1 := by
      rw [hsections, List.getLast?_concat]
    by_cases hadds : AddsNode t u
    · have hne := (nodesAdded_ne_nil_iff t u).mpr hadds
      refine ⟨(p.1.grow (keysFor t u p)).spaced, ?_, rfl, [.filler (.blank 0)],
        List.forall_mem_singleton.mpr rfl, rfl, .inr ⟨hlast, ?_⟩⟩
      · rw [hmerged, spaced, if_neg fun hnil => hne (List.map_eq_nil_iff.mp hnil)]
        simp
      · rw [endFillers, if_pos hadds]
        rfl
    · refine ⟨p.1.grow (keysFor t u p), ?_, rfl, [], quiet_nil, ?_, .inr ⟨hlast, ?_⟩⟩
      · rw [hmerged, spaced, nodesAdded_of_not hadds, if_pos List.map_nil]
        simp
      · rw [List.append_nil]
        rfl
      · rw [endFillers, if_neg hadds]
        rfl

/-- Where all new keys fit, the merged nodes map the user's keys to their values. -/
theorem maps_mergedSections (ht : y.PlainTemplate t) (hfits : ¬ Disrupts y t u)
    (hcuts : ¬ Cuts y t u) (hinserts : userInsertions t u ≠ []) (hx : x ∈ u.sections) {f : Field}
    (hf : f ∈ x.fields) : Maps (y.nodes (mergedSections t u)) (.str x.name.chars)
      (.str f.name.chars) (y.value f.value) := by
  have hnodup := u.fields_nodup x hx
  obtain ⟨p, hp, rfl⟩ := exists_end_of_section hx
  obtain ⟨z, hz, hname, qs, hqs, hfields, hend⟩ := exists_merged t hp
  rw [← hname]
  apply maps_of_mem_dict hz
  rw [hfields]
  by_cases hkeys : keysFor t u p = []
  · rw [hkeys, p.1.grown_nil]
    rcases hend with ⟨rfl, hended⟩ | ⟨hlast, rfl⟩
    · rw [List.append_nil, ← hended]
      exact mem_dict_of_nodup hnodup hf
    · have hnone : ∀ r s q, Lands t u r s q → q.1 ≠ p.1 := by
        intro r s q hlands hsame
        obtain rfl : q = p := end_unique (landing_end hlands.landing) hp hsame
        rw [keysFor_of_lands hlands, List.reverse_eq_nil_iff] at hkeys
        exact hlands.lacks hkeys
      obtain ⟨g, hg, hgname, hvalue⟩ := exists_last_field hfits hinserts hlast hnone hf
      rw [← hgname, ← hvalue]
      refine mem_dict_of_nodup ?_ hg
      have hquiet := keyless_of_quiet (quiet_fillers (endFillers t u))
      rw [fields_names, List.filterMap_append, List.filterMap_eq_nil_iff.mpr hquiet,
        List.append_nil, ← fields_names p.1.ended]
      exact hnodup
  · obtain ⟨r, s, hlands, heq⟩ := exists_lands hp hkeys
    rw [heq]
    exact mem_dict_grown ht hnodup hlands (fits_of_lands hfits hlands)
      (whole_of_lands hcuts hlands) hqs hf

/-- The script keeps all keys of the user where it stops and where all new keys fit. -/
theorem keepsKeys_of_fits (hy : y.ReadsBlocks) {t : File} {u : UserFile}
    (ht : y.PlainTemplate t.doc) (hu : y.PlainFile u)
    (h : HidesHeader t.doc u ∨ ¬ Disrupts y t.doc u ∧ ¬ Cuts y t.doc u) : KeepsKeys y t u := by
  intro out hout
  by_cases hhides : HidesHeader t.doc u
  · rw [main_hidden hy ht hu hhides] at hout
    cases hout
  · obtain ⟨hfits, hcuts⟩ := h.resolve_left hhides
    obtain ⟨out', hout', hnone, hsome⟩ := main_userPlanned hy ht hu hhides
    obtain rfl : out' = out := Option.some.inj (hout'.symm.trans hout)
    by_cases hinsertions : userInsertions t.doc u = []
    · left
      rw [hnone hinsertions]
      rfl
    · right
      have hplain := plain_userPlanned hy ht hu
      have hmerged : userPlanned t.doc u =
          fileLines (mergedPreamble t.doc u) (mergedSections t.doc u) := by
        apply userPlanned_merged
        intro p hp hkeys
        obtain ⟨r, s, hlands, -⟩ := exists_lands hp hkeys
        exact (fits_of_lands hfits hlands).indent
      refine ⟨y.nodes (mergedSections t.doc u), ?_, fun x hx f hf =>
        maps_mergedSections ht hfits hcuts hinsertions hx hf⟩
      rw [hsome hinsertions]
      rw [hmerged] at hplain ⊢
      exact hy.reads _ _ true (mergedSections_nodup t.doc u) (newlines_mergedSections t.doc u)
        hplain (sound_mergedSections hy ht hu hfits hcuts)

end Reading

end PolishingRobot.Params
