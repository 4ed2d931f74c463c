import PolishingRobot.Params.MergedSections

/-!
# Keys that do not fit

New keys with another indentation than the user's take the place of his keys or come
between the lines of a value, and a value that is cut off by new keys is what is left
of it. So if the merged file is read with the values of the user, the new keys fit.
-/

namespace PolishingRobot.Params

/-- The lines below the header with new keys behind the content. -/
def Section.planned (x : Section) (bs : List KeyBlock) : List YamlLine :=
  x.front ++ (keyLines 2 bs ++ x.rear)

/-- All keys of a node are read with their values. -/
def Kept {V : Type} (y : BlockYaml V) (m : Loaded (Loaded V)) (x : Section) : Prop :=
  ∀ f ∈ x.fields, Maps m (.str x.name.chars) (.str f.name.chars) (y.value f.value)

section Node

variable {V : Type} {y : BlockYaml V} {m : Loaded (Loaded V)} {x : Section}
  {bs bs₁ bs₂ : List KeyBlock} {b : KeyBlock} {f : Field} {qs : List YamlLine}

theorem key_mem_keyLines {k j : Nat} {n : Name} {v : Inline} (h : .key k n v ∈ keyLines j bs) :
    k = j ∧ ∃ b ∈ bs, n = b.name := by
  obtain ⟨b, hb, h⟩ := List.mem_flatMap.mp h
  rcases List.mem_cons.mp h with h | h
  · obtain ⟨hk, hn, -⟩ := YamlLine.key.inj h
    exact ⟨hk, b, hb, hn⟩
  · cases quiet_fillers _ _ h

theorem exists_field (x : Section) : ∃ f, f ∈ x.fields := by
  obtain ⟨pre, n, v, post, hbody, -⟩ := x.leads
  rw [Section.fields, hbody, fieldsOf_append_key]
  exact ⟨_, List.mem_append_right _ List.mem_cons_self⟩

/-- Among the lines of a node with new keys are no others of values than its own. -/
theorem valuesInside_planned (x : Section) (bs : List KeyBlock) (hqs : Quiet qs) {k : Nat}
    (hk : k ≤ x.indent) : ValuesInside k (x.planned bs ++ qs) := by
  intro j r hmem
  have hinside : (YamlLine.below j r).Inside x.indent := by
    simp only [Section.planned, List.mem_append] at hmem
    rcases hmem with (hmem | hmem | hmem) | hmem
    · exact x.inside _ (List.mem_of_mem_take hmem)
    · obtain ⟨b, -, hmem⟩ := List.mem_flatMap.mp hmem
      rcases List.mem_cons.mp hmem with hmem | hmem
      · cases hmem
      · cases quiet_fillers _ _ hmem
    · exact x.inside _ (List.mem_of_mem_drop hmem)
    · cases hqs _ hmem
  rcases hinside with hdeeper | ⟨hitem, hdash⟩
  · exact .inl (by omega)
  · exact .inr ⟨by omega, hdash⟩

/-- The first key stays the first where new keys come behind it. -/
theorem leads_planned (h : x.contentLength ≠ 0) (bs : List KeyBlock) (qs : List YamlLine) :
    Leads x.indent (x.planned bs ++ qs) :=
  ((x.leads_front h).append _).append _

/-- New keys in front of all keys of a node hide these. -/
theorem contentLength_of_accepts (h : y.Accepts m x.name (x.planned bs ++ qs)) (hkept : Kept y m x)
    (hone : ∀ b ∈ bs, y.OneLine b.rest) (hbs : bs ≠ []) (hqs : Quiet qs)
    (hnew : x.contentLength = 0 → ∀ b ∈ bs, b.name ∉ x.fields.map (·.name)) :
    x.contentLength ≠ 0 := by
  intro hzero
  have hfront : x.front = [] := by
    rw [Section.front, hzero, List.take_zero]
  have hleads : Leads 2 (x.planned bs ++ qs) := by
    rw [Section.planned, hfront]
    exact (((keysOnly_keyLines bs).leads hbs).append _).append _
  have hindent : 2 ≤ x.indent := by
    obtain ⟨pre, n, v, post, hbody, hpre⟩ := x.leads
    rw [← x.front_append_rear, hfront, List.nil_append] at hbody
    apply h.shallow 2 (keyLines 2 bs ++ pre) x.indent n v (post ++ qs) hleads
    · rw [Section.planned, hfront, hbody]
      simp
    · have hlines := ((keysOnly_keyLines bs).append (keysOnly_quiet hpre)).fields true
      rw [List.append_nil] at hlines
      exact sound_of_reads hlines.2 hone
  obtain ⟨f, hf⟩ := exists_field x
  obtain ⟨n, v, hname, hmem⟩ :=
    h.keys 2 hleads (valuesInside_planned x bs hqs hindent) _ _ (hkept f hf)
  obtain rfl := Name.eq_of_key hname
  rw [Section.planned, hfront, List.nil_append] at hmem
  rcases List.mem_append.mp hmem with hmem | hmem
  · rcases List.mem_append.mp hmem with hmem | hmem
    · obtain ⟨-, c, hc, hname⟩ := key_mem_keyLines hmem
      exact hnew hzero c hc (hname ▸ List.mem_map_of_mem hf)
    · exact x.key_not_mem_drop _ _ hmem
  · exact key_not_mem_keyless (keyless_of_quiet hqs) _ _ _ hmem

/-- New keys have the indentation of the keys in front of them: deeper ones would come
between the lines of a value. -/
theorem indent_of_accepts (h : y.Accepts m x.name (x.planned bs ++ qs)) (hkept : Kept y m x)
    (hvalid : y.Sound x.fields) (hnodup : (x.fields.map (·.name)).Nodup) (hbs : bs ≠ [])
    (hqs : Quiet qs) (hcontent : x.contentLength ≠ 0) : x.indent = 2 := by
  by_contra hindent
  have hdeeper : x.indent < 2 := by
    by_contra hle
    exact hcontent (x.contentLength_of_deeper (by omega))
  obtain ⟨pre, k, n, v, below, hfront, hbelow⟩ :=
    exists_last_key (x.leads_front hcontent).not_keyless
  have hindents : ∀ j n v, .key j n v ∈ x.rear → j = x.indent := by
    intro j n v hmem
    exact x.indent_of_key (List.mem_of_mem_drop hmem)
  obtain ⟨more, rest, hrear, hmore, hrest⟩ := exists_startsAt x.indent hindents
  have hbody : x.body = pre ++ .key k n v :: ((below ++ more) ++ rest) := by
    rw [← x.front_append_rear, hfront, hrear]
    simp
  obtain rfl : k = x.indent := x.indent_of_key (n := n) (v := v) (by rw [hbody]; simp)
  have hfields : x.fields = _ := (congrArg (fun es => (fieldsOf x.ended es).2) hbody).trans
    (fields_split (keyless_append.mpr ⟨hbelow, hmore⟩) hrest x.ended pre x.indent n v)
  obtain ⟨b, bs, rfl⟩ := List.exists_cons_of_ne_nil hbs
  have hat : y.KeyAt x.indent (x.planned (b :: bs) ++ qs) pre n v
      (below ++ .key 2 b.name (.scalar b.rest) :: (((fillers (b.more.map (·.filler))).map
        Entry.yaml ++ keyLines 2 bs) ++ (more ++ (rest ++ qs)))) := by
    refine ⟨leads_planned hcontent _ _, valuesInside_planned x (b :: bs) hqs (Nat.le_refl _),
      ?_, ?_, ?_⟩
    · rw [Section.planned, hfront, hrear, keyLines_cons]
      simp
    · intro f hf
      exact hvalid f (by rw [hfields]; exact List.mem_append_left _ hf)
    · intro v' hmem
      rw [hfields, List.map_append, List.map_cons, List.nodup_append, List.nodup_cons] at hnodup
      simp only [List.mem_append, List.mem_cons] at hmem
      rcases hmem with hmem | hmem | (hmem | hmem) | hmem | hmem | hmem
      · exact key_not_mem_keyless hbelow _ _ _ hmem
      · exact hindent (YamlLine.key.inj hmem).1
      · exact key_not_mem_keyless (keyless_of_quiet (quiet_fillers _)) _ _ _ hmem
      · exact hindent (key_mem_keyLines hmem).1
      · exact key_not_mem_keyless hmore _ _ _ hmem
      · exact hnodup.2.1.1 (name_of_key hmem _)
      · exact key_not_mem_keyless (keyless_of_quiet hqs) _ _ _ hmem
  have hf : (⟨n, x.indent, v, below ++ more, x.ended || !(fieldsOf x.ended rest).2.isEmpty⟩ : Field) ∈
      x.fields := by
    rw [hfields]
    simp
  exact h.changed _ _ _ _ _ _ _ _ _ _ _ _ _ hat hbelow hmore (.inl hdeeper) (hvalid _ hf)
    (hkept _ hf) rfl

/-- The last key of a node, and what is read from the lines in front. -/
theorem exists_last_front (hindent : x.indent = 2) (hcontent : x.contentLength ≠ 0) :
    ∃ pre n v below, x.front = pre ++ .key 2 n v :: below ∧ Keyless below ∧
      x.fields = (fieldsOf true pre).2 ++ [⟨n, 2, v, below ++ x.rear, x.ended⟩] ∧
      x.frontFields = (fieldsOf true pre).2 ++ [⟨n, 2, v, below, true⟩] := by
  obtain ⟨pre, k, n, v, below, hfront, hbelow⟩ :=
    exists_last_key (x.leads_front hcontent).not_keyless
  have hbody : x.body = pre ++ .key k n v :: (below ++ x.rear) := by
    rw [← x.front_append_rear, hfront, List.append_assoc]
    rfl
  obtain rfl : k = 2 :=
    (x.indent_of_key (n := n) (v := v) (by rw [hbody]; simp)).trans hindent
  refine ⟨pre, n, v, below, hfront, hbelow, ?_, ?_⟩
  · rw [Section.fields, hbody]
    exact fields_last (keyless_append.mpr ⟨hbelow, x.keyless_rear hindent⟩) _ _ _ _ _
  · rw [Section.frontFields, hfront]
    exact fields_last hbelow _ _ _ _ _

/-- A key that no new one repeats has its value from the lines in front. -/
theorem same_of_accepts (h : y.Accepts m x.name (x.planned bs ++ qs)) (hkept : Kept y m x)
    (hvalid : y.Sound x.fields) (hbs : bs ≠ []) (hqs : Quiet qs)
    (hcontent : x.contentLength ≠ 0) (hindent : x.indent = 2) (hf : f ∈ x.fields)
    (hnew : ∀ b ∈ bs, b.name ≠ f.name) : ∃ g ∈ x.frontFields, g.name = f.name ∧
      y.Valid g.value ∧ y.value g.value = y.value f.value := by
  obtain ⟨pre, n, v, below, hfront, hbelow, hfields, hfrontFields⟩ :=
    exists_last_front hindent hcontent
  have hrear := x.keyless_rear hindent
  have hpre : y.Sound (fieldsOf true pre).2 := by
    intro g hg
    exact hvalid g (by rw [hfields]; exact List.mem_append_left _ hg)
  have hvalidf := hvalid f hf
  have hmaps := hkept f hf
  rw [hfields] at hf
  rcases List.mem_append.mp hf with hf | hf
  · exact ⟨f, by rw [hfrontFields]; exact List.mem_append_left _ hf, rfl, hvalidf, rfl⟩
  · obtain rfl := List.mem_singleton.mp hf
    obtain ⟨b, bs, rfl⟩ := List.exists_cons_of_ne_nil hbs
    have hleads := leads_planned hcontent (b :: bs) qs
    rw [hindent] at hleads
    have hat : y.KeyAt 2 (x.planned (b :: bs) ++ qs) pre n v
        (below ++ (keyLines 2 (b :: bs) ++ (x.rear ++ qs))) := by
      refine ⟨hleads, valuesInside_planned x (b :: bs) hqs hindent.ge, ?_, hpre, ?_⟩
      · rw [Section.planned, hfront]
        simp
      · intro v' hmem
        simp only [List.mem_append] at hmem
        rcases hmem with hmem | hmem | hmem | hmem
        · exact key_not_mem_keyless hbelow _ _ _ hmem
        · obtain ⟨-, c, hc, hname⟩ := key_mem_keyLines hmem
          exact hnew c hc hname.symm
        · exact key_not_mem_keyless hrear _ _ _ hmem
        · exact key_not_mem_keyless (keyless_of_quiet hqs) _ _ _ hmem
    have hstarts : StartsAt 2 (keyLines 2 (b :: bs) ++ (x.rear ++ qs)) := by
      intro e he
      obtain rfl := Option.some.inj he
      exact ⟨b.name, _, rfl⟩
    refine ⟨⟨n, 2, v, below, true⟩, by rw [hfrontFields]; simp, rfl, ?_⟩
    by_cases hcut : y.Valid ⟨2, v, below, true⟩
    · exact ⟨hcut, (h.whole _ _ _ _ _ _ _ hat hbelow hstarts hcut hmaps).symm⟩
    · rw [keyLines_cons, List.cons_append] at hat
      exact absurd rfl (h.changed _ _ _ _ _ _ _ _ _ _ _ _ _ hat hbelow hrear
        (.inr ⟨rfl, hcut⟩) hvalidf hmaps)

/-- A new key that repeats a key gives it its value. -/
theorem value_of_accepts (h : y.Accepts m x.name (x.planned bs ++ qs)) (hkept : Kept y m x)
    (hone : ∀ b ∈ bs, y.OneLine b.rest) (hnodup : (bs.map (·.name)).Nodup) (hqs : Quiet qs)
    (hcontent : x.contentLength ≠ 0) (hindent : x.indent = 2) (hwhole : Whole y x)
    (hb : b ∈ bs) (hf : f ∈ x.fields) (hname : f.name = b.name) :
    y.value f.value = y.scalar b.rest := by
  obtain ⟨bs₁, bs₂, rfl⟩ := List.append_of_mem hb
  let extensions := (fillers (b.more.map (·.filler))).map Entry.yaml
  have hextensions : Quiet extensions := quiet_fillers _
  have hleads := leads_planned hcontent (bs₁ ++ b :: bs₂) qs
  rw [hindent] at hleads
  have hsound : y.Sound (fieldsOf true (x.front ++ keyLines 2 bs₁)).2 :=
    sound_keyLines hwhole.sound fun c hc => hone c (List.mem_append_left _ hc)
  have hat : y.KeyAt 2 (x.planned (bs₁ ++ b :: bs₂) ++ qs) (x.front ++ keyLines 2 bs₁) b.name
      (.scalar b.rest) (extensions ++ (keyLines 2 bs₂ ++ (x.rear ++ qs))) := by
    refine ⟨hleads, valuesInside_planned x _ hqs hindent.ge, ?_, hsound, ?_⟩
    · rw [Section.planned, keyLines_append, keyLines_cons]
      simp [extensions]
    · intro v' hmem
      rw [List.map_append, List.map_cons, List.nodup_append, List.nodup_cons] at hnodup
      simp only [List.mem_append] at hmem
      rcases hmem with hmem | hmem | hmem | hmem
      · exact key_not_mem_keyless (keyless_of_quiet hextensions) _ _ _ hmem
      · obtain ⟨-, c, hc, hname⟩ := key_mem_keyLines hmem
        exact hnodup.2.1.1 (hname ▸ List.mem_map_of_mem hc)
      · exact key_not_mem_keyless (x.keyless_rear hindent) _ _ _ hmem
      · exact key_not_mem_keyless (keyless_of_quiet hqs) _ _ _ hmem
  obtain ⟨below, rest, hpost, hbelow, hrest⟩ : ∃ below rest,
      extensions ++ (keyLines 2 bs₂ ++ (x.rear ++ qs)) = below ++ rest ∧ Quiet below ∧
        StartsAt 2 rest := by
    cases bs₂ with
    | nil =>
        refine ⟨extensions ++ (x.rear ++ qs), [], (List.append_nil _).symm, ?_, startsAt_nil 2⟩
        exact quiet_append.mpr ⟨hextensions, quiet_append.mpr ⟨hwhole.quiet, hqs⟩⟩
    | cons c bs₂ =>
        refine ⟨extensions, _, rfl, hextensions, ?_⟩
        intro e he
        obtain rfl := Option.some.inj he
        exact ⟨c.name, _, rfl⟩
  rw [hpost] at hat
  obtain ⟨hvalid, hvalue⟩ := hone b hb below true hbelow
  have hmaps := hkept f hf
  rw [hname] at hmaps
  exact (h.whole _ _ _ _ _ _ _ hat (keyless_of_quiet hbelow) hrest hvalid hmaps).trans hvalue

/-- Where nothing lands in a node, its keys have their values with what is put behind it. -/
theorem end_of_accepts (hy : y.ReadsBlocks) (h : y.Accepts m x.name (x.body ++ qs))
    (hkept : Kept y m x) (hvalid : y.Sound x.fields) (hqs : Quiet qs)
    (hf : f ∈ x.fields) : ∃ g ∈ (fieldsOf true (x.body ++ qs)).2, g.name = f.name ∧
      y.value g.value = y.value f.value := by
  obtain ⟨pre, k, n, v, below, hbody, hbelow⟩ := exists_last_key x.leads.not_keyless
  obtain rfl : k = x.indent := x.indent_of_key (n := n) (v := v) (by rw [hbody]; simp)
  have hfields : x.fields = (fieldsOf true pre).2 ++ [⟨n, x.indent, v, below, x.ended⟩] := by
    rw [Section.fields, hbody]
    exact fields_last hbelow _ _ _ _ _
  have hkeyless : Keyless (below ++ qs) := keyless_append.mpr ⟨hbelow, keyless_of_quiet hqs⟩
  have hlines : x.body ++ qs = pre ++ .key x.indent n v :: (below ++ qs) := by
    rw [hbody, List.append_assoc]
    rfl
  have hnew : (fieldsOf true (x.body ++ qs)).2 =
      (fieldsOf true pre).2 ++ [⟨n, x.indent, v, below ++ qs, true⟩] := by
    rw [hlines]
    exact fields_last hkeyless _ _ _ _ _
  have hvalidf := hvalid f hf
  have hmaps := hkept f hf
  rw [hnew]
  rw [hfields] at hf
  rcases List.mem_append.mp hf with hf | hf
  · exact ⟨f, List.mem_append_left _ hf, rfl, rfl⟩
  · obtain rfl := List.mem_singleton.mp hf
    have hat : y.KeyAt x.indent (x.body ++ qs) pre n v ((below ++ qs) ++ []) := by
      have hplanned : x.planned [] = x.body := x.front_append_rear
      have hinside := valuesInside_planned x [] hqs (Nat.le_refl _)
      rw [hplanned] at hinside
      refine ⟨x.leads.append qs, hinside, by rw [hlines, List.append_nil], ?_, ?_⟩
      · intro g hg
        exact hvalid g (by rw [hfields]; exact List.mem_append_left _ hg)
      · intro v'
        rw [List.append_nil]
        exact key_not_mem_keyless hkeyless _ _ _
    have hvalue := h.whole _ _ _ _ _ _ _ hat hkeyless (startsAt_nil _)
      (hy.valid_append _ _ _ _ _ _ hvalidf hqs) hmaps
    exact ⟨⟨n, x.indent, v, below ++ qs, true⟩, by simp, rfl, hvalue.symm⟩

end Node

/-- The lines of the new nodes. -/
def newNodeLines (t : Document) (u : UserFile) : List YamlLine :=
  (nodesAdded t u).flatMap fun e => .filler (.blank 0) :: (e.1.grow e.2).lines

section Merged

variable {V : Type} {y : BlockYaml V} {t : Document} {u : UserFile} {p : Place}
  {bs : List KeyBlock}

theorem isHeader_of_quiet {e : YamlLine} (he : e.significant = false) : e.isHeader = false := by
  cases e with
  | header n t => cases he
  | filler f => rfl
  | key k n v => rfl
  | below m r => rfl

theorem isHeader_planned {x : Section} {e : YamlLine} (he : e ∈ x.planned bs) :
    e.isHeader = false := by
  rcases List.mem_append.mp he with he | he
  · exact YamlLine.isHeader_of_inside (x.inside e (List.mem_of_mem_take he))
  · rcases List.mem_append.mp he with he | he
    · exact YamlLine.isHeader_of_inside (inside_keyLines 2 bs e he)
    · exact YamlLine.isHeader_of_inside (x.inside e (List.mem_of_mem_drop he))

theorem linesWith_eq_cons (x : Section) (bs : List KeyBlock) :
    x.linesWith (keyLines 2 bs) = .header x.name x.tail :: x.planned bs := rfl

theorem header_mem_linesWith {x : Section} {n : Name} {tail : Tail}
    (h : .header n tail ∈ x.linesWith (keyLines 2 bs)) : n = x.name := by
  rcases List.mem_cons.mp h with h | h
  · exact (YamlLine.header.inj h).1
  · cases isHeader_planned h

theorem header_mem_newNodeLines {n : Name} {tail : Tail} (h : .header n tail ∈ newNodeLines t u) :
    n ∉ u.names := by
  obtain ⟨⟨q, bs⟩, hq, h⟩ := List.mem_flatMap.mp h
  have hnew : q ∈ (nodesAdded t u).map (·.1) := List.mem_map_of_mem hq
  rw [nodesAdded, endPieces, spread_nodes, List.mem_reverse, List.mem_filter,
    decide_eq_true_iff] at hnew
  rcases List.mem_cons.mp h with h | h
  · cases h
  · rcases List.mem_cons.mp h with h | h
    · rw [(YamlLine.header.inj h).1]
      exact hnew.2
    · cases YamlLine.isHeader_of_inside ((q.grow bs).inside _ h)

theorem userPlanned_split {pre post : List Place} (h : u.contentEnds = pre ++ p :: post) :
    userPlanned t u = ((fillers u.preamble).map Entry.yaml ++
      pre.flatMap fun q => q.1.linesWith (keyLines 2 (keysFor t u q))) ++
        .header p.1.name p.1.tail :: (p.1.planned (keysFor t u p) ++
          ((post.flatMap fun q => q.1.linesWith (keyLines 2 (keysFor t u q))) ++
            newNodeLines t u)) := by
  have hnews : ((nodesAdded t u).flatMap fun e => e.1.lines.map Entry.yaml ++ keyLines 2 e.2) =
      newNodeLines t u := List.flatMap_congr fun e _ => e.1.lines_grow e.2
  rw [userPlanned_sections, hnews, h, List.flatMap_append, List.flatMap_cons, linesWith_eq_cons]
  simp

/-- What is put behind the last node, and the headers that follow. -/
theorem newNodeLines_split (t : Document) (u : UserFile) :
    ∃ after, newNodeLines t u = (fillers (endFillers t u)).map Entry.yaml ++ after ∧
      ∀ e, after.head? = some e → e.isHeader = true := by
  by_cases hadds : AddsNode t u
  · obtain ⟨e, es, hnew⟩ := List.exists_cons_of_ne_nil ((nodesAdded_ne_nil_iff t u).mpr hadds)
    rw [newNodeLines, hnew, endFillers, if_pos hadds, List.flatMap_cons]
    refine ⟨_, rfl, ?_⟩
    intro d hd
    obtain rfl := Option.some.inj hd
    rfl
  · rw [newNodeLines, nodesAdded_of_not hadds, endFillers, if_neg hadds]
    refine ⟨[], rfl, ?_⟩
    intro e he
    cases he

theorem names_split {pre post : List Place} (h : u.contentEnds = pre ++ p :: post) :
    (pre.map (·.1.name) ++ p.1.name :: post.map (·.1.name)).Nodup := by
  have hnames := u.nodup
  rw [sections_split h, List.map_append, List.map_cons, List.map_map, List.map_map] at hnames
  exact hnames

/-- Behind a node comes the header of the next one, or what is put behind the last node. -/
theorem behind_split (t : Document) {pre post : List Place}
    (h : u.contentEnds = pre ++ p :: post) : ∃ qs after, Quiet qs ∧
      (post.flatMap fun q => q.1.linesWith (keyLines 2 (keysFor t u q))) ++ newNodeLines t u =
        qs ++ after ∧ (∀ e, after.head? = some e → e.isHeader = true) ∧
      (u.sections.getLast? = some p.1 → qs = (fillers (endFillers t u)).map Entry.yaml) := by
  cases post with
  | nil =>
      obtain ⟨after, hnew, hheader⟩ := newNodeLines_split t u
      exact ⟨_, after, quiet_fillers _, hnew, hheader, fun _ => rfl⟩
  | cons q post =>
      refine ⟨[], _, quiet_nil, rfl, ?_, ?_⟩
      · intro e he
        obtain rfl := Option.some.inj he
        rfl
      · intro hlast
        rw [sections_split h, List.map_cons, List.getLast?_append_cons,
          List.getLast?_cons_cons] at hlast
        have hmem : p.1.name ∈ (q :: post).map (·.1.name) := by
          have hname := List.mem_map_of_mem (f := Section.name) (List.mem_of_getLast? hlast)
          rwa [← List.map_cons, List.map_map] at hname
        have hnames := names_split h
        rw [List.nodup_append, List.nodup_cons] at hnames
        exact absurd hmem hnames.2.1.1

/-- An accepted merged file says what it must about every node of the user. -/
theorem accepts_node (hy : y.ReadsBlocks) (ht : y.PlainTemplate t) (hu : y.PlainFile u)
    {m : Loaded (Loaded V)}
    (hread : y.read (linesText (yamlLines (userPlanned t u)) true) = some m)
    (hp : p ∈ u.contentEnds) : ∃ qs, Quiet qs ∧
      y.Accepts m p.1.name (p.1.planned (keysFor t u p) ++ qs) ∧
      (u.sections.getLast? = some p.1 → qs = (fillers (endFillers t u)).map Entry.yaml) := by
  obtain ⟨pre, post, hsplit⟩ := List.append_of_mem hp
  have hnames := names_split hsplit
  rw [List.nodup_append, List.nodup_cons] at hnames
  obtain ⟨qs, after, hqs, hafter, hheader, hlast⟩ := behind_split t hsplit
  refine ⟨qs, hqs, ?_, hlast⟩
  have hlines := userPlanned_split (t := t) hsplit
  rw [hafter, ← List.append_assoc] at hlines
  apply hy.accepts _ m (plain_userPlanned hy ht hu) hread _ _ _ _ _ hlines
  · intro e he
    rcases List.mem_append.mp he with he | he
    · exact isHeader_planned he
    · exact isHeader_of_quiet (hqs e he)
  · exact hheader
  · intro tail hmem
    rcases List.mem_append.mp hmem with hmem | hmem
    · rcases List.mem_append.mp hmem with hmem | hmem
      · cases quiet_fillers _ _ hmem
      · obtain ⟨q, hq, hmem⟩ := List.mem_flatMap.mp hmem
        have hname := header_mem_linesWith hmem
        exact hnames.2.2 _ (List.mem_map_of_mem hq) _ List.mem_cons_self hname.symm
    · have hall : .header p.1.name tail ∈ qs ++ after := List.mem_append_right _ hmem
      rw [← hafter] at hall
      rcases List.mem_append.mp hall with hall | hall
      · obtain ⟨q, hq, hall⟩ := List.mem_flatMap.mp hall
        have hname := header_mem_linesWith hall
        exact hnames.2.1.1 (hname ▸ List.mem_map_of_mem hq)
      · exact header_mem_newNodeLines hall (List.mem_map_of_mem (mem_sections_of_end hp))

/-- A merged file is read, if all keys of the user are kept. -/
theorem exists_read (hy : y.ReadsBlocks) {t : File} {u : UserFile} (ht : y.PlainTemplate t.doc)
    (hu : y.PlainFile u) (hhides : ¬ HidesHeader t.doc u) (hinserts : userInsertions t.doc u ≠ [])
    (h : KeepsKeys y t u) :
    ∃ m, y.read (linesText (yamlLines (userPlanned t.doc u)) true) = some m ∧
      ∀ x ∈ u.sections, Kept y m x := by
  obtain ⟨out, hout, -, hsome⟩ := main_userPlanned hy ht hu hhides
  rw [← hsome hinserts]
  rcases h out hout with hsame | hread
  · refine ⟨y.nodes u.sections, ?_, ?_⟩
    · rw [hsame]
      exact hy.reads u.preamble u.sections u.ended u.nodup u.newlines hu.plain hu.valid
    · intro x hx f hf
      exact maps_of_mem_dict hx (mem_dict_of_nodup (u.fields_nodup x hx) hf)
  · exact hread

/-- Where the keys of the user are kept, the new keys fit. -/
theorem fits_of_keepsKeys (hy : y.ReadsBlocks) {t : File} {u : UserFile}
    (ht : y.PlainTemplate t.doc) (hu : y.PlainFile u) (hhides : ¬ HidesHeader t.doc u)
    (h : KeepsKeys y t u) {r : Node} {s : Section} (hlands : Lands t.doc u r s p) :
    Fits y r s p.1 := by
  obtain ⟨m, hread, hkept⟩ := exists_read hy ht hu hhides (userInsertions_ne_nil hlands) h
  have hplace := landing_end hlands.landing
  have hx := mem_sections_of_end hplace
  obtain ⟨qs, hqs, haccepts, -⟩ := accepts_node hy ht hu hread hplace
  rw [keysFor_of_lands hlands] at haccepts
  have hnew : (lacking r s).reverse ≠ [] := by simpa using hlands.lacks
  have hone := oneLine_of_lacking ht hlands
  have hnames : ((lacking r s).reverse.map (·.name)).Nodup := by
    rw [List.map_reverse, List.nodup_reverse]
    exact r.nodup.sublist (List.filter_sublist.map _)
  have hcontent : p.1.contentLength ≠ 0 := by
    apply contentLength_of_accepts haccepts (hkept _ hx) hone hnew hqs
    intro hzero b hb
    rw [landing_own hlands.landing hzero]
    exact of_decide_eq_true (List.mem_filter.mp (List.mem_reverse.mp hb)).2
  have hindent := indent_of_accepts haccepts (hkept _ hx) (hu.valid _ hx) (u.fields_nodup _ hx)
    hnew hqs hcontent
  refine ⟨hindent, ?_, ?_⟩
  · intro f hf hdiffers
    exact same_of_accepts haccepts (hkept _ hx) (hu.valid _ hx) hnew hqs hcontent hindent hf
      fun b hb => hdiffers b (List.mem_reverse.mp hb)
  · intro hwhole b hb f hf hname
    exact value_of_accepts haccepts (hkept _ hx) hone hnames hqs hcontent hindent hwhole
      (List.mem_reverse.mpr hb) hf hname

/-- Where they are kept, nothing is disrupted. -/
theorem not_disrupts_of_keepsKeys (hy : y.ReadsBlocks) {t : File} {u : UserFile}
    (ht : y.PlainTemplate t.doc) (hu : y.PlainFile u) (hhides : ¬ HidesHeader t.doc u)
    (h : KeepsKeys y t u) : ¬ Disrupts y t.doc u := by
  rintro (⟨r, s, p, hlands, hfits⟩ | ⟨x, hlast, hnone, hinserts, f, hf, hloses⟩)
  · exact hfits (fits_of_keepsKeys hy ht hu hhides h hlands)
  · obtain ⟨m, hread, hkept⟩ := exists_read hy ht hu hhides
      (userInsertions_ne_nil_iff.mpr hinserts) h
    have hx : x ∈ u.sections := List.mem_of_getLast? hlast
    obtain ⟨p, hp, rfl⟩ := exists_end_of_section hx
    obtain ⟨qs, hqs, haccepts, hend⟩ := accepts_node hy ht hu hread hp
    have hkeys : keysFor t.doc u p = [] := by
      by_contra hkeys
      obtain ⟨r, s, hlands, -⟩ := exists_lands hp hkeys
      exact hnone r s p hlands rfl
    have hplanned : p.1.planned [] = p.1.body := p.1.front_append_rear
    rw [hkeys, hplanned] at haccepts
    obtain ⟨g, hg, hname, hvalue⟩ :=
      end_of_accepts hy haccepts (hkept _ hx) (hu.valid _ hx) hqs hf
    rw [hend hlast] at hg
    exact hloses g hg hname hvalue

end Merged

end PolishingRobot.Params
