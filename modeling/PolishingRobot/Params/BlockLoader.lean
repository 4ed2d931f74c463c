import PolishingRobot.Lists.PartialMaps
import PolishingRobot.Lists.Splits
import PolishingRobot.Params.KeptLines
import PolishingRobot.Params.LineLoader
import PolishingRobot.Params.TemplateSections

/-!
# A loader for block style

A loader that accepts mappings of mappings in block style and nothing else, so what is
assumed of the YAML loader can be met. Every line is read for itself; blank lines and
comments belong to no value, and the lines of a value are kept one by one.
-/

namespace PolishingRobot.Params

open PolishingRobot.Lists

def readRest (s : Line) : Option Rest := if h : Unbroken s then some ⟨s, h⟩ else none

def readName (s : Line) : Option Name := if h : IsName s then some ⟨s, h⟩ else none

/-- A comment stands behind a blank. -/
def readTail (s : Line) : Option Tail :=
  match s.dropWhile (· = ' ') with
  | [] => some (.blank s.length)
  | '#' :: text =>
      if s.head? = some ' ' then
        (readRest text).map (.comment ((s.takeWhile (· = ' ')).length - 1))
      else none
  | _ => none

/-- A value stands behind a blank. -/
def readInline (s : Line) : Option Inline :=
  match readTail s with
  | some tail => some (.tail tail)
  | none => if s.head? = some ' ' then (readRest s).map .scalar else none

/-- A name, its colon and what is behind it. -/
def readKey? (s : Line) : Option (Name × Line) :=
  match s.dropWhile (· ≠ ':') with
  | [] => none
  | _ :: behind => (readName (beforeColon s)).map (·, behind)

/-- Without a colon a line is more of a value. -/
def readLine (s : Line) : Option YamlLine :=
  let indent := (s.takeWhile (· = ' ')).length
  match s.dropWhile (· = ' ') with
  | [] => some (.filler (.blank indent))
  | '#' :: text => (readRest text).map fun r => .filler (.comment indent r)
  | core =>
      if core.head? = some '-' ∨ ':' ∉ core then (readRest core).map (.below indent)
      else
        (readKey? core).bind fun k =>
          if indent = 0 then (readTail k.2).map (.header k.1)
          else (readInline k.2).map (.key indent k.1)

/-- The lines in front of the first header, and those below every header. -/
def regions : List YamlLine → List YamlLine × List (Name × List YamlLine)
  | [] => ([], [])
  | .header n _ :: es => ([], (n, (regions es).1) :: (regions es).2)
  | e :: es => (e :: (regions es).1, (regions es).2)

/-- The lines that are neither blank nor comments. -/
def significant (es : List YamlLine) : List YamlLine := es.filter (·.significant)

/-- The first key of a node has the indentation of its keys. -/
def readRegion (es : List YamlLine) : Option (List Field) :=
  match es.head? with
  | some (.key k _ _) => if ∀ e ∈ es, e.Inside k then some (fieldsOf true es).2 else none
  | _ => none

/-- The text behind the colon, and the lines below it. -/
abbrev Texts := List Line

def FieldValue.texts (v : FieldValue) : Texts :=
  strip v.inline.chars :: (significant v.below).map fun e => strip e.line

/-- Lines mean what they are read as. -/
def blockValues : BlockYaml Texts where
  load _ := none
  Plain e := readLine e.line = some e
  Valid v := Keyless v.below ∧ ∀ e ∈ v.below, e.Inside v.indent
  value := FieldValue.texts

def readNode (r : Name × List YamlLine) : Option (Key × Loaded Texts) :=
  (readRegion r.2).map fun fs => (.str r.1.chars, blockValues.keys fs)

def loadLines (es : List YamlLine) : Option (Loaded (Loaded Texts)) :=
  if (regions es).1.isEmpty then ((regions es).2.mapM readNode).map .mapping else none

def blockLoad : SafeLoad Texts := fun text =>
  ((splitlines text).mapM readLine).bind fun es => loadLines (significant es)

def blockYaml : BlockYaml Texts := { blockValues with load := blockLoad }

section Significant

variable {es fs : List YamlLine}

@[simp] theorem significant_append (es fs : List YamlLine) :
    significant (es ++ fs) = significant es ++ significant fs := List.filter_append ..

theorem significant_cons {e : YamlLine} (h : e.significant = true) :
    significant (e :: es) = e :: significant es := List.filter_cons_of_pos h

theorem mem_significant {e : YamlLine} :
    e ∈ significant es ↔ e ∈ es ∧ e.significant = true := List.mem_filter

theorem isHeader_head_significant (h : ∀ e, es.head? = some e → e.isHeader = true) :
    ∀ e, (significant es).head? = some e → e.isHeader = true := by
  intro e he
  cases es with
  | nil => cases he
  | cons d es =>
      have hheader := h d rfl
      cases d with
      | header n t =>
          obtain rfl := Option.some.inj he
          rfl
      | filler f => cases hheader
      | key k n v => cases hheader
      | below m r => cases hheader

/-- A value without its blank lines and comments. -/
def Field.bare (f : Field) : Field :=
  ⟨f.name, f.value.indent, f.value.inline, significant f.value.below, f.value.ended⟩

theorem fieldsOf_significant (ended : Bool) (es : List YamlLine) :
    fieldsOf ended (significant es) =
      (significant (fieldsOf ended es).1, (fieldsOf ended es).2.map Field.bare) := by
  induction es with
  | nil => rfl
  | cons e es ih =>
      cases e with
      | filler f => exact ih
      | header n t =>
          have hhead : significant (.header n t :: es) = .header n t :: significant es := rfl
          rw [hhead, fieldsOf_cons rfl, fieldsOf_cons rfl, ih]
          rfl
      | key k n v =>
          have hhead : significant (.key k n v :: es) = .key k n v :: significant es := rfl
          rw [hhead, fieldsOf, fieldsOf, ih]
          simp [Field.bare, significant]
      | below m r =>
          have hhead : significant (.below m r :: es) = .below m r :: significant es := rfl
          rw [hhead, fieldsOf_cons rfl, fieldsOf_cons rfl, ih]
          rfl

theorem value_bare (f : Field) : blockYaml.value f.bare.value = blockYaml.value f.value := by
  change FieldValue.texts _ = FieldValue.texts _
  rw [FieldValue.texts, FieldValue.texts, Field.bare, significant, significant, List.filter_filter]
  simp

theorem dict_congr {V : Type} {y : BlockYaml V} {fs gs : List Field}
    (h : fs.map (fun f => (f.name, y.value f.value)) = gs.map fun f => (f.name, y.value f.value)) :
    y.dict fs = y.dict gs := by
  have hdict : ∀ fs, y.dict fs =
      (fs.map fun f => (f.name, y.value f.value)).foldl (fun d e => assign d e.1.chars e.2) [] := by
    intro fs
    rw [List.foldl_map]
    rfl
  rw [hdict, hdict, h]

/-- Blank lines and comments do not count, and neither does the last newline. -/
theorem dict_significant (ended ended' : Bool) (es : List YamlLine) :
    blockYaml.dict (fieldsOf ended (significant es)).2 = blockYaml.dict (fieldsOf ended' es).2 := by
  have hended : ∀ b, (fieldsOf b es).2.map (fun f => (f.name, blockYaml.value f.value)) =
      (fieldsOf true es).2.map fun f => (f.name, blockYaml.value f.value) := by
    intro b
    by_cases hes : Keyless es
    · have hnone : ∀ b, (fieldsOf b es).2 = [] := by
        intro b
        have h := fieldsOf_append hes b []
        rw [List.append_nil] at h
        rw [h]
        rfl
      rw [hnone, hnone]
    · obtain ⟨pre, k, n, v, below, rfl, hbelow⟩ := exists_last_key hes
      rw [fields_last hbelow, fields_last hbelow, List.map_append, List.map_append]
      rfl
  apply dict_congr
  rw [fieldsOf_significant, List.map_map, hended ended', ← hended ended]
  exact List.map_congr_left fun f _ => congrArg (f.name, ·) (value_bare f)

theorem leads_iff {k : Nat} :
    Leads k es ↔ ∃ n v, (significant es).head? = some (.key k n v) := by
  constructor
  · rintro ⟨pre, n, v, post, rfl, hpre⟩
    refine ⟨n, v, ?_⟩
    rw [significant_append, significant, filter_quiet hpre, List.nil_append, significant_cons rfl]
    rfl
  · rintro ⟨n, v, hhead⟩
    obtain ⟨rest, hrest⟩ := List.head?_eq_some_iff.mp hhead
    obtain ⟨pre, post, rfl, hpre, -, -⟩ := List.filter_eq_cons_iff.mp hrest
    exact ⟨pre, n, v, post, rfl, fun e he => Bool.eq_false_iff.mpr (hpre e he)⟩

theorem inside_significant {k : Nat} (h : ∀ e ∈ significant es, e.Inside k) :
    ∀ e ∈ es, e.Inside k := by
  intro e he
  cases hsignificant : e.significant with
  | true => exact h e (mem_significant.mpr ⟨he, hsignificant⟩)
  | false =>
      cases e with
      | filler f => trivial
      | header n t => cases hsignificant
      | key k n v => cases hsignificant
      | below m r => cases hsignificant

end Significant

section Accepts

variable {V : Type} {y : BlockYaml V} {fs fs₁ fs₂ : List Field} {k : Nat} {f : Field}
  {behind : List YamlLine}

theorem eq_of_mem_assign {d : List (Line × V)} {key : Line} {v w : V}
    (h : (key, v) ∈ assign d key w) : v = w := by
  rw [assign] at h
  split_ifs at h with hknown
  · obtain ⟨e, -, heq⟩ := List.mem_map.mp h
    split_ifs at heq with hkey
    · exact (Prod.mk.inj heq).2.symm
    · rw [heq] at hkey
      exact absurd rfl hkey
  · rcases List.mem_append.mp h with h | h
    · exact absurd (List.any_eq_true.mpr ⟨_, h, decide_eq_true rfl⟩) hknown
    · exact (Prod.mk.inj (List.mem_singleton.mp h)).2

/-- What is read for a key is the value of the last field with its name. -/
theorem exists_last_of_dict {name : Line} {v : V} (h : (name, v) ∈ y.dict fs) :
    ∃ fs₁ f fs₂, fs = fs₁ ++ f :: fs₂ ∧ f.name.chars = name ∧ y.value f.value = v ∧
      f.name ∉ fs₂.map (·.name) := by
  induction fs using List.reverseRecOn with
  | nil => cases h
  | append_singleton fs g ih =>
      have hdict : y.dict (fs ++ [g]) = assign (y.dict fs) g.name.chars (y.value g.value) := by
        rw [BlockYaml.dict, List.foldl_append]
        rfl
      rw [hdict] at h
      by_cases hname : g.name.chars = name
      · rw [← hname] at h
        exact ⟨fs, g, [], rfl, hname, (eq_of_mem_assign h).symm, List.not_mem_nil⟩
      · have hold : (name, v) ∈ y.dict fs := by
          rcases mem_assign h with h | h
          · exact h
          · exact absurd (Prod.mk.inj h).1.symm hname
        obtain ⟨fs₁, f, fs₂, rfl, rfl, hvalue, hlast⟩ := ih hold
        refine ⟨fs₁, f, fs₂ ++ [g], by simp, rfl, hvalue, ?_⟩
        intro hmem
        rw [List.map_append, List.mem_append] at hmem
        rcases hmem with hmem | hmem
        · exact hlast hmem
        · exact hname (congrArg Name.chars (List.mem_singleton.mp hmem).symm)

/-- What is read for a key is the value of its last field. -/
theorem value_of_dict {v : V} (h : (f.name.chars, v) ∈ y.dict (fs₁ ++ f :: fs₂))
    (hlast : f.name ∉ fs₂.map (·.name)) : v = y.value f.value := by
  obtain ⟨gs₁, g, gs₂, hsplit, hname, hvalue, hglast⟩ := exists_last_of_dict h
  have hsame : g.name = f.name := Name.chars_injective hname
  obtain ⟨-, rfl, -⟩ := split_last (p := fun g : Field => g.name = f.name) hsplit rfl hsame
    (fun c hc hcname => hlast (hcname ▸ List.mem_map_of_mem hc))
    (fun c hc hcname => hglast (by rw [hsame, ← hcname]; exact List.mem_map_of_mem hc))
  exact hvalue.symm

/-- A region that is read says what it must about its keys. -/
theorem accepts_of_readRegion {m : Loaded (Loaded Texts)} {node : Name}
    (hread : readRegion (significant behind) = some fs)
    (hmaps : ∀ key v, Maps m (.str node.chars) key v →
      ∃ name, key = .str name ∧ (name, v) ∈ blockYaml.dict fs) :
    blockYaml.Accepts m node behind := by
  rw [readRegion] at hread
  split at hread
  · next k n₀ v₀ hhead =>
      split_ifs at hread with hinside
      obtain rfl := Option.some.inj hread
      have hindent : ∀ k', Leads k' behind → k' = k := by
        intro k' hleads
        obtain ⟨n, v, hhead'⟩ := leads_iff.mp hleads
        rw [hhead] at hhead'
        exact (YamlLine.key.inj (Option.some.inj hhead')).1.symm
      have hall : ∀ e ∈ behind, e.Inside k := inside_significant hinside
      have hkeys : ∀ j n v, .key j n v ∈ behind → j = k := fun _ _ _ he => hall _ he
      rw [dict_significant true true] at hmaps
      refine ⟨?_, ?_, ?_, ?_⟩
      · intro k' hleads _ key v hmap
        obtain rfl := hindent k' hleads
        obtain ⟨name, rfl, hdict⟩ := hmaps key v hmap
        obtain ⟨fs₁, f, fs₂, hfields, rfl, -, -⟩ := exists_last_of_dict hdict
        have hname : f.name ∈ (fieldsOf true behind).2.map (·.name) := by
          rw [hfields]
          simp
        obtain ⟨j, i, he⟩ := key_of_name hname
        obtain rfl := hkeys j _ i he
        exact ⟨_, i, rfl, he⟩
      · intro k' pre other n i post hleads hsplit _
        rw [hindent k' hleads, hkeys other n i (by rw [hsplit]; simp)]
      · intro k' pre n i below rest v hat hbelow hrest _ hmap
        obtain ⟨name, hname, hdict⟩ := hmaps _ v hmap
        obtain rfl := Key.str.inj hname
        rw [hat.split, fields_split hbelow hrest true, Bool.true_or] at hdict
        refine value_of_dict (f := ⟨n, k', i, below, true⟩) hdict ?_
        intro hmem
        obtain ⟨j, i', he⟩ := key_of_name hmem
        have hj := hkeys j n i' (by rw [hat.split]; simp [he])
        obtain rfl : j = k' := hj.trans (hindent k' hat.leads).symm
        exact hat.last i' (List.mem_append_right _ he)
      · intro k' pre n i below other n' i' between more rest ended v hat _ _ hplace hvalid _ _
        have hother := hkeys other n' i' (by rw [hat.split]; simp)
        have hindent' := hindent k' hat.leads
        rcases hplace with hdeeper | ⟨-, hcut⟩
        · omega
        · exact hcut ⟨(keyless_append.mp hvalid.1).1, (List.forall_mem_append.mp hvalid.2).1⟩
  · cases hread

end Accepts

section Regions

variable {n : Name} {t : Tail} {es before behind after : List YamlLine}

theorem regions_cons {e : YamlLine} (he : e.isHeader = false) (es : List YamlLine) :
    regions (e :: es) = (e :: (regions es).1, (regions es).2) := by
  cases e with
  | header n t => cases he
  | filler f => rfl
  | key k n v => rfl
  | below m r => rfl

theorem regions_append_header (before : List YamlLine) (n : Name) (t : Tail) (es : List YamlLine) :
    regions (before ++ .header n t :: es) =
      ((regions before).1, (regions before).2 ++ (n, (regions es).1) :: (regions es).2) := by
  induction before with
  | nil => rfl
  | cons e before ih =>
      cases he : e.isHeader with
      | false => rw [List.cons_append, regions_cons he, regions_cons he, ih]
      | true =>
          cases e with
          | header n' t' => rw [List.cons_append, regions, regions, ih]; rfl
          | filler f => cases he
          | key k n v => cases he
          | below m r => cases he

/-- Lines up to the next header. -/
theorem regions_behind (hbehind : ∀ e ∈ behind, e.isHeader = false)
    (hafter : ∀ e, after.head? = some e → e.isHeader = true) :
    regions (behind ++ after) = (behind, (regions after).2) := by
  induction behind with
  | nil =>
      cases after with
      | nil => rfl
      | cons e after =>
          cases e with
          | header n t => rfl
          | filler f => cases hafter _ rfl
          | key k n v => cases hafter _ rfl
          | below m r => cases hafter _ rfl
  | cons e behind ih =>
      rw [List.cons_append, regions_cons (hbehind e List.mem_cons_self),
        ih fun e he => hbehind e (List.mem_cons_of_mem _ he)]

theorem header_of_mem_regions {r : Name × List YamlLine} (h : r ∈ (regions es).2) :
    ∃ t, .header r.1 t ∈ es := by
  induction es with
  | nil => cases h
  | cons e es ih =>
      cases he : e.isHeader with
      | false =>
          rw [regions_cons he] at h
          obtain ⟨t, ht⟩ := ih h
          exact ⟨t, List.mem_cons_of_mem _ ht⟩
      | true =>
          cases e with
          | header n t =>
              rcases List.mem_cons.mp h with rfl | h
              · exact ⟨t, List.mem_cons_self⟩
              · obtain ⟨t', ht'⟩ := ih h
                exact ⟨t', List.mem_cons_of_mem _ ht'⟩
          | filler f => cases he
          | key k n v => cases he
          | below m r => cases he

/-- A header that is not repeated has one region. -/
theorem region_unique (hother : ∀ t, .header n t ∉ before ++ after) {r : Name × List YamlLine}
    (hr : r ∈ (regions before).2 ++ (n, behind) :: (regions after).2) (hname : r.1 = n) :
    r = (n, behind) := by
  rcases List.mem_append.mp hr with hr | hr
  · obtain ⟨t, ht⟩ := header_of_mem_regions hr
    rw [hname] at ht
    exact absurd (List.mem_append_left _ ht) (hother t)
  · rcases List.mem_cons.mp hr with hr | hr
    · exact hr
    · obtain ⟨t, ht⟩ := header_of_mem_regions hr
      rw [hname] at ht
      exact absurd (List.mem_append_right _ ht) (hother t)

/-- The regions of a file are its nodes. -/
theorem regions_sections (xs : List Section) : regions (significant (sectionLines xs)) =
    ([], xs.map fun x => (x.name, significant x.body)) := by
  induction xs with
  | nil => rfl
  | cons x xs ih =>
      have hbody : ∀ e ∈ significant x.body, e.isHeader = false := by
        intro e he
        exact YamlLine.isHeader_of_inside (x.inside e (mem_significant.mp he).1)
      have hafter : ∀ e, (significant (sectionLines xs)).head? = some e → e.isHeader = true := by
        intro e he
        cases xs with
        | nil => cases he
        | cons z xs =>
            cases he
            rfl
      have hsplit : significant (sectionLines (x :: xs)) = .header x.name x.tail ::
          (significant x.body ++ significant (sectionLines xs)) := by
        rw [← significant_append]
        exact significant_cons rfl
      rw [hsplit, regions, regions_behind hbody hafter, ih, List.map_cons]

end Regions

section Reading

variable {es : List YamlLine} {m : Loaded (Loaded Texts)}

/-- Plain lines are read as they are, but for an empty last line without a newline. -/
theorem readLines_linesText (h : ∀ e ∈ es, blockYaml.Plain e) (ended : Bool) :
    ∃ es', (splitlines (linesText (yamlLines es) ended)).mapM readLine = some es' ∧
      significant es' = significant es := by
  have hread : ∀ es : List YamlLine, (∀ e ∈ es, blockYaml.Plain e) →
      (yamlLines es).mapM readLine = some es := by
    intro es h
    rw [mapM_eq_some_iff, List.map_map]
    exact List.map_congr_left h
  by_cases hcomplete : ended = true ∨ (yamlLines es).getLast? ≠ some []
  · refine ⟨es, ?_, rfl⟩
    rw [splitlines_linesText hcomplete, hread es h]
  · rw [not_or, not_not] at hcomplete
    obtain ⟨hended, hlast⟩ := hcomplete
    obtain ⟨init, e, rfl⟩ : ∃ init e, es = init ++ [e] := by
      apply (List.eq_nil_or_concat' es).resolve_left
      rintro rfl
      cases hlast
    have hempty : e.line = [] := by simpa using hlast
    obtain rfl : e = .filler (.blank 0) := by
      have hplain : readLine e.line = some e := h e (by simp)
      rw [hempty] at hplain
      exact (Option.some.inj hplain).symm
    have htext : linesText (yamlLines (init ++ [.filler (.blank 0)])) ended =
        linesText (yamlLines init) true := by
      have hlines : yamlLines (init ++ [.filler (.blank 0)]) = yamlLines init ++ [[]] :=
        List.map_append
      rw [linesText, if_neg hended, hlines, joinLines_append_nil]
      rfl
    refine ⟨init, ?_, ?_⟩
    · rw [htext, splitlines_linesText (.inl rfl),
        hread init fun e he => h e (List.mem_append_left _ he)]
    · rw [significant_append]
      exact (List.append_nil _).symm

theorem blockYaml_read (h : ∀ e ∈ es, blockYaml.Plain e) (ended : Bool) :
    blockYaml.read (linesText (yamlLines es) ended) =
      (loadLines (significant es)).map Loaded.orEmpty := by
  obtain ⟨es', hread, hsignificant⟩ := readLines_linesText h ended
  have hload : blockYaml.load (linesText (yamlLines es) ended) = loadLines (significant es) := by
    change blockLoad _ = _
    rw [blockLoad, hread, Option.bind_some, hsignificant]
  rw [BlockYaml.read, hload]

theorem readRegion_body (x : Section) :
    readRegion (significant x.body) = some (fieldsOf true (significant x.body)).2 := by
  obtain ⟨n, v, hhead⟩ := leads_iff.mp x.leads
  have hinside : ∀ e ∈ significant x.body, e.Inside x.indent :=
    fun e he => x.inside e (mem_significant.mp he).1
  rw [readRegion, hhead]
  exact if_pos hinside

theorem loadLines_sections (xs : List Section) :
    loadLines (significant (sectionLines xs)) = some (blockYaml.nodes xs) := by
  have hnode : ∀ x : Section, readNode (x.name, significant x.body) =
      some (.str x.name.chars, blockYaml.keys x.fields) := by
    intro x
    have hkeys : blockValues.keys (fieldsOf true (significant x.body)).2 =
        blockYaml.keys x.fields := by
      change blockYaml.keys _ = _
      simp only [BlockYaml.keys, dict_significant true x.ended]
      rfl
    rw [readNode, readRegion_body, Option.map_some, hkeys]
  have hnodes : (xs.map fun x => (x.name, significant x.body)).mapM readNode =
      some (xs.map fun x => (.str x.name.chars, blockYaml.keys x.fields)) := by
    rw [mapM_eq_some_iff, List.map_map, List.map_map]
    exact List.map_congr_left fun x _ => hnode x
  rw [loadLines, regions_sections, if_pos List.isEmpty_nil, hnodes]
  rfl

/-- What is read for a key is in the fields of a region with the name of its node. -/
theorem exists_region {rs : List (Name × List YamlLine)} {items : List (Key × Loaded Texts)}
    (h : rs.mapM readNode = some items) {node : Name} {key : Key} {v : Texts}
    (hmap : Maps (.mapping items) (.str node.chars) key v) :
    ∃ r ∈ rs, r.1 = node ∧ ∃ fs, readRegion r.2 = some fs ∧
      ∃ name, key = .str name ∧ (name, v) ∈ blockYaml.dict fs := by
  obtain ⟨nodes, keys, hmapping, hmem, hkey⟩ := hmap
  obtain rfl : items = nodes := Loaded.mapping.inj hmapping
  have hsome := List.mem_map_of_mem (f := some) hmem
  rw [mapM_eq_some_iff] at h
  rw [← h] at hsome
  obtain ⟨r, hr, hread⟩ := List.mem_map.mp hsome
  obtain ⟨fs, hregion, heq⟩ := Option.map_eq_some_iff.mp hread
  obtain ⟨hname, hkeys⟩ := Prod.mk.inj heq
  obtain rfl := Loaded.mapping.inj hkeys
  obtain ⟨e, he, heq⟩ := List.mem_map.mp hkey
  obtain ⟨rfl, rfl⟩ := Prod.mk.inj heq
  exact ⟨r, hr, Name.eq_of_key hname, fs, hregion, e.1, rfl, he⟩

/-- Of accepted lines, those below a header that is not repeated. -/
theorem loadLines_accepts {before behind after : List YamlLine} {node : Name} {tail : Tail}
    (h : loadLines (before ++ .header node tail :: (behind ++ after)) = some m)
    (hbehind : ∀ e ∈ behind, e.isHeader = false)
    (hafter : ∀ e, after.head? = some e → e.isHeader = true)
    (hother : ∀ t, .header node t ∉ before ++ after) : ∃ fs, readRegion behind = some fs ∧
      ∀ key v, Maps m (.str node.chars) key v →
        ∃ name, key = .str name ∧ (name, v) ∈ blockYaml.dict fs := by
  have hregions : (regions (before ++ .header node tail :: (behind ++ after))).2 =
      (regions before).2 ++ (node, behind) :: (regions after).2 := by
    rw [regions_append_header, regions_behind hbehind hafter]
  rw [loadLines, hregions] at h
  split_ifs at h
  obtain ⟨items, hitems, rfl⟩ := Option.map_eq_some_iff.mp h
  have hall : ∀ r ∈ (regions before).2 ++ (node, behind) :: (regions after).2,
      (readNode r).isSome := by
    apply mapM_isSome_iff.mp
    rw [hitems]
    rfl
  obtain ⟨e, hread⟩ := Option.isSome_iff_exists.mp (hall (node, behind) (by simp))
  obtain ⟨fs, hregion, rfl⟩ := Option.map_eq_some_iff.mp hread
  refine ⟨fs, hregion, ?_⟩
  intro key v hmap
  obtain ⟨r, hr, hname, fs', hregion', hkey⟩ := exists_region hitems hmap
  obtain rfl : r = (node, behind) := region_unique hother hr hname
  obtain rfl : fs = fs' := Option.some.inj (hregion.symm.trans hregion')
  exact hkey

/-- The loader reads mappings of mappings in block style, and no other texts that the
assumptions forbid. -/
theorem blockYaml_readsBlocks : blockYaml.ReadsBlocks where
  blank := rfl
  valid_append := by
    rintro k inline below ended more ended' ⟨hkeyless, hinside⟩ hmore
    refine ⟨keyless_append.mpr ⟨hkeyless, keyless_of_quiet hmore⟩, ?_⟩
    refine List.forall_mem_append.mpr ⟨hinside, inside_significant ?_⟩
    rw [significant, filter_quiet hmore]
    exact List.forall_mem_nil _
  reads := by
    intro preamble xs ended _ _ hplain _
    have hpreamble : significant ((fillers preamble).map Entry.yaml) = [] :=
      filter_quiet (quiet_fillers preamble)
    rw [blockYaml_read hplain, fileLines, significant_append, hpreamble, List.nil_append,
      loadLines_sections]
    rfl
  accepts := by
    intro es m hplain hread before node tail behind after hlines hbehind hafter hother
    rw [blockYaml_read hplain] at hread
    obtain ⟨m', hload, hm⟩ := Option.map_eq_some_iff.mp hread
    have hmapping : m'.orEmpty = m' := by
      rw [loadLines] at hload
      split_ifs at hload
      obtain ⟨items, -, rfl⟩ := Option.map_eq_some_iff.mp hload
      rfl
    obtain rfl : m' = m := hmapping.symm.trans hm
    rw [hlines, significant_append, significant_cons rfl, significant_append] at hload
    have hbehind' : ∀ e ∈ significant behind, e.isHeader = false :=
      fun e he => hbehind e (mem_significant.mp he).1
    have hother' : ∀ t, .header node t ∉ significant before ++ significant after := by
      intro t hmem
      rw [← significant_append] at hmem
      exact hother t (mem_significant.mp hmem).1
    obtain ⟨fs, hregion, hmaps⟩ :=
      loadLines_accepts hload hbehind' (isHeader_head_significant hafter) hother'
    exact accepts_of_readRegion hregion hmaps

end Reading

end PolishingRobot.Params
