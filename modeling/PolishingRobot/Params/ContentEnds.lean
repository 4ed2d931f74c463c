import PolishingRobot.Params.Blocks
import PolishingRobot.Params.YamlFiles

/-!
# Where the script ends the content of a node

Line by line, `parse_blocks` gives every recognised header the lines up to the next
one, and takes its content to end behind the last line among them that looks like a
key. So headers with a comment hide in the content of the node above.
-/

namespace PolishingRobot.Params

section Content

variable {total i : Nat} {name : Line} {nodes : List (Line × NodeBlock)} {n : NodeBlock}
  {ls rest : List Line}

/-- A key that ends behind all others moves the end of the content. -/
theorem contentEnd_assign {e : Nat} (h : ∀ k ∈ n.keys, k.2.2 ≤ e) (key : Line) (a stop : Nat) :
    ({ n with stop := stop, keys := assign n.keys key (a, e) } : NodeBlock).contentEnd = e ∧
      ∀ k ∈ assign n.keys key (a, e), k.2.2 ≤ e := by
  have hmem : (key, a, e) ∈ assign n.keys key (a, e) := by
    rw [assign]
    split_ifs with hknown
    · obtain ⟨k, hk, hname⟩ := List.any_eq_true.mp hknown
      exact List.mem_map.mpr ⟨k, hk, if_pos (by simpa using hname)⟩
    · simp
  have hall : ∀ k ∈ assign n.keys key (a, e), k.2.2 ≤ e := by
    intro k hk
    rw [assign] at hk
    split_ifs at hk
    · obtain ⟨k', hk', rfl⟩ := List.mem_map.mp hk
      split_ifs
      · exact Nat.le_refl e
      · exact h k' hk'
    · rcases List.mem_append.mp hk with hk | hk
      · exact h k hk
      · rw [List.mem_singleton.mp hk]
  refine ⟨?_, hall⟩
  have hmax : ((assign n.keys key (a, e)).map (·.2.2)).max? = some e := by
    rw [List.max?_eq_some_iff]
    constructor
    · exact List.mem_map.mpr ⟨_, hmem, rfl⟩
    · intro b hb
      obtain ⟨k, hk, rfl⟩ := List.mem_map.mp hb
      exact hall k hk
  rw [NodeBlock.contentEnd, hmax, Option.getD_some]

theorem contentLength_cons_of_ne {l : Line} (h : contentLength ls ≠ 0) :
    contentLength (l :: ls) = contentLength ls + 1 := by
  rw [contentLength, if_pos h]

/-- The lines of a node up to where no line continues a key. -/
theorem parseLines_content (total : Nat) (ls : List Line) (hfresh : name ∉ nodes.map (·.1))
    (hls : ∀ l ∈ ls, topKey l = none) (hrest : rest.takeWhile continues = [])
    (hends : ∀ k ∈ n.keys, k.2.2 ≤ i + (ls.takeWhile continues).length) :
    ∃ n', parseLines total i (ls ++ rest) (some name, nodes ++ [(name, n)]) =
        parseLines total (i + ls.length) rest (some name, nodes ++ [(name, n')]) ∧
      (∀ k ∈ n'.keys, k.2.2 ≤ i + ls.length) ∧
      n'.contentEnd = if contentLength ls = 0 then n.contentEnd else i + contentLength ls := by
  induction ls generalizing i n with
  | nil => exact ⟨n, rfl, hends, rfl⟩
  | cons l ls ih =>
      have htop : topKey l = none := hls l (by simp)
      have htake : ((ls ++ rest).takeWhile continues).length =
          (ls.takeWhile continues).length := by
        rw [List.takeWhile_append]
        split_ifs with hall
        · rw [hrest, List.append_nil, hall]
        · rfl
      have hlength : i + (l :: ls).length = i + 1 + ls.length := by
        rw [List.length_cons]
        omega
      have hends' : ∀ k ∈ n.keys, k.2.2 ≤ i + 1 + (ls.takeWhile continues).length := by
        intro k hk
        have hbound := hends k hk
        rw [List.takeWhile_cons] at hbound
        split_ifs at hbound
        · rw [List.length_cons] at hbound
          omega
        · rw [List.length_nil] at hbound
          omega
      cases hsub : subKey l with
      | none =>
          have hstep : parseLines total i (l :: ls ++ rest) (some name, nodes ++ [(name, n)]) =
              parseLines total (i + 1) (ls ++ rest)
                (some name, nodes ++ [(name, { n with stop := i + 1 })]) := by
            simp [parseLines, parseLine, htop, hsub, modify_last hfresh]
          obtain ⟨n', hparse, hbound, hend⟩ := ih (n := { n with stop := i + 1 })
            (fun m hm => hls m (by simp [hm])) hends'
          refine ⟨n', by rw [hstep, hparse, hlength], by rwa [hlength], ?_⟩
          by_cases hzero : contentLength ls = 0
          · have hnone : contentLength (l :: ls) = 0 := by
              rw [contentLength, if_neg (not_not.mpr hzero), hsub]
              rfl
            rw [hend, if_pos hzero, if_pos hnone]
            rfl
          · rw [hend, if_neg hzero, contentLength_cons_of_ne hzero, if_neg (Nat.succ_ne_zero _)]
            omega
      | some key =>
          let stop := i + 1 + (ls.takeWhile continues).length
          have hstep : parseLines total i (l :: ls ++ rest) (some name, nodes ++ [(name, n)]) =
              parseLines total (i + 1) (ls ++ rest) (some name, nodes ++ [(name, { n with
                stop := i + 1
                keys := assign n.keys key (i, stop) })]) := by
            simp [parseLines, parseLine, htop, hsub, modify_last hfresh, htake, stop]
          obtain ⟨hcontent, hkeys⟩ := contentEnd_assign hends' key i (i + 1)
          obtain ⟨n', hparse, hbound, hend⟩ := ih
            (n := { n with stop := i + 1, keys := assign n.keys key (i, stop) })
            (fun m hm => hls m (by simp [hm])) hkeys
          refine ⟨n', by rw [hstep, hparse, hlength], by rwa [hlength], ?_⟩
          by_cases hzero : contentLength ls = 0
          · have hlast : contentLength (l :: ls) = 1 + (ls.takeWhile continues).length := by
              rw [contentLength, if_neg (not_not.mpr hzero), hsub]
              rfl
            rw [hend, if_pos hzero, hcontent, hlast, if_neg (by omega)]
            omega
          · rw [hend, if_neg hzero, contentLength_cons_of_ne hzero, if_neg (Nat.succ_ne_zero _)]
            omega

/-- The lines above the first recognised header. -/
theorem parseLines_leading (hls : ∀ l ∈ ls, topKey l = none) (rest : List Line) :
    parseLines total i (ls ++ rest) (none, nodes) =
      parseLines total (i + ls.length) rest (none, nodes) := by
  induction ls generalizing i with
  | nil => rfl
  | cons l ls ih =>
      have htop : topKey l = none := hls l (by simp)
      have hlength : i + (l :: ls).length = i + 1 + ls.length := by
        rw [List.length_cons]
        omega
      rw [hlength, ← ih fun m hm => hls m (by simp [hm])]
      simp [parseLines, parseLine, htop]

end Content

/-- What is found of a node, and where its content ends. -/
def Matches (found : Line × NodeBlock) (landing : Section × Place) : Prop :=
  found.1 = landing.1.name.chars ∧ found.2.contentEnd = landing.2.2

section Sections

variable {total i : Nat} {name : Line} {nodes : List (Line × NodeBlock)} {n : NodeBlock}
  {x : Section} {xs : List Section}

theorem takeWhile_sectionLines (xs : List Section) :
    (yamlLines (sectionLines xs)).takeWhile continues = [] := by
  cases xs with
  | nil => rfl
  | cons x xs =>
      have hheader := YamlLine.continues_header x.name x.tail
      simp [sectionLines, Section.lines, hheader]

theorem yamlLines_cons (x : Section) (xs : List Section) :
    yamlLines (sectionLines (x :: xs)) =
      (YamlLine.header x.name x.tail).line :: (yamlLines x.body ++ yamlLines (sectionLines xs)) := by
  simp [sectionLines, Section.lines]

/-- A recognised header starts a node. -/
theorem parseLines_recognised (total : Nat) (nodes : List (Line × NodeBlock))
    (hrec : x.tail.recognised = true) (hfresh : x.name.chars ∉ nodes.map (·.1)) (xs : List Section) (cur : Option Line) :
    ∃ n', parseLines total i (yamlLines (sectionLines (x :: xs))) (cur, nodes) =
        parseLines total (i + 1 + x.body.length) (yamlLines (sectionLines xs))
          (some x.name.chars, nodes ++ [(x.name.chars, n')]) ∧
      (∀ k ∈ n'.keys, k.2.2 ≤ i + 1 + x.body.length) ∧
      n'.contentEnd = i + 1 + x.contentLength := by
  have htop : topKey (YamlLine.header x.name x.tail).line = some x.name.chars := by
    rw [YamlLine.topKey_header, if_pos hrec]
  obtain ⟨n', hparse, hbound, hend⟩ := parseLines_content total (yamlLines x.body)
    (i := i + 1) (n := ⟨i, total, []⟩) hfresh (fun _ hl => x.topKey_body hl) (takeWhile_sectionLines xs)
    (fun _ hk => absurd hk List.not_mem_nil)
  refine ⟨n', ?_, by rwa [List.length_map] at hbound, ?_⟩
  · simp only [yamlLines_cons, parseLines, parseLine, htop]
    rw [assign_fresh hfresh, hparse, List.length_map]
  · rw [hend, Section.contentLength]
    split_ifs with hzero
    · rw [hzero]
      rfl
    · rfl

/-- A header that is not recognised leaves its lines to the node above. -/
theorem parseLines_unrecognised (total : Nat) (hrec : x.tail.recognised = false)
    (hfresh : name ∉ nodes.map (·.1)) (hends : ∀ k ∈ n.keys, k.2.2 ≤ i) (xs : List Section) :
    ∃ n', parseLines total i (yamlLines (sectionLines (x :: xs)))
          (some name, nodes ++ [(name, n)]) =
        parseLines total (i + 1 + x.body.length) (yamlLines (sectionLines xs))
          (some name, nodes ++ [(name, n')]) ∧
      (∀ k ∈ n'.keys, k.2.2 ≤ i + 1 + x.body.length) ∧
      n'.contentEnd =
        if x.contentLength = 0 then n.contentEnd else i + 1 + x.contentLength := by
  let header := (YamlLine.header x.name x.tail).line
  have htop : topKey header = none := by
    rw [YamlLine.topKey_header, hrec]
    rfl
  have hsub : subKey header = none := YamlLine.subKey_header x.name x.tail
  have hlength : i + (header :: yamlLines x.body).length = i + 1 + x.body.length := by
    rw [List.length_cons, List.length_map]
    omega
  obtain ⟨n', hparse, hbound, hend⟩ := parseLines_content total
    (header :: yamlLines x.body) (i := i) (n := n) hfresh
    (List.forall_mem_cons.mpr ⟨htop, fun _ hl => x.topKey_body hl⟩) (takeWhile_sectionLines xs)
    (fun k hk => Nat.le_add_right_of_le (hends k hk))
  rw [hlength] at hparse hbound
  refine ⟨n', by rw [yamlLines_cons]; exact hparse, hbound, ?_⟩
  rw [hend]
  by_cases hzero : x.contentLength = 0
  · have hbody : contentLength (yamlLines x.body) = 0 := hzero
    have hnone : contentLength (header :: yamlLines x.body) = 0 := by
      rw [contentLength, if_neg (not_not.mpr hbody), hsub]
      rfl
    rw [if_pos hnone, if_pos hzero]
  · have hsome : contentLength (header :: yamlLines x.body) = x.contentLength + 1 :=
      contentLength_cons_of_ne hzero
    rw [hsome, if_neg (Nat.succ_ne_zero _), if_neg hzero]
    omega

/-- The nodes below a recognised header. -/
theorem parseLines_sections (total : Nat) (nodes : List (Line × NodeBlock))
    (hnames : (nodes.map (·.1) ++ name :: xs.map (·.name.chars)).Nodup)
    (hends : ∀ k ∈ n.keys, k.2.2 ≤ i) :
    ∃ n' found, parseLines total i (yamlLines (sectionLines xs))
          (some name, nodes ++ [(name, n)]) = nodes ++ (name, n') :: found ∧
      n'.contentEnd = ((landings i xs).1.map (·.2)).getD n.contentEnd ∧
      List.Forall₂ Matches found (landings i xs).2 := by
  have hfresh : name ∉ nodes.map (·.1) := not_mem_of_nodup hnames
  induction xs generalizing i name nodes n with
  | nil => exact ⟨n, [], rfl, rfl, .nil⟩
  | cons x xs ih =>
      rw [landings]
      cases hrec : x.tail.recognised with
      | true =>
          have hnames' : ((nodes ++ [(name, n)]).map (·.1) ++
              x.name.chars :: xs.map (·.name.chars)).Nodup := by simpa using hnames
          have hfresh' := not_mem_of_nodup hnames'
          obtain ⟨m, hparse, hbound, hend⟩ := parseLines_recognised total _ (i := i) hrec
            hfresh' xs (some name)
          obtain ⟨m', found, hfound, hend', hmatches⟩ := ih _ hnames' hbound hfresh'
          refine ⟨n, (x.name.chars, m') :: found, ?_, rfl, .cons ⟨rfl, ?_⟩ hmatches⟩
          · rw [hparse, hfound, List.append_assoc]
            rfl
          · rw [hend', hend]
            cases (landings (i + 1 + x.body.length) xs).1 <;> rfl
      | false =>
          have hnames' : (nodes.map (·.1) ++ name :: xs.map (·.name.chars)).Nodup :=
            hnames.sublist (((List.sublist_cons_self _ _).cons_cons name).append_left _)
          obtain ⟨m, hparse, hbound, hend⟩ := parseLines_unrecognised total hrec hfresh hends xs
          obtain ⟨m', found, hfound, hend', hmatches⟩ := ih _ hnames' hbound hfresh
          refine ⟨m', found, hparse.trans hfound, ?_, hmatches⟩
          rw [hend', hend]
          cases (landings (i + 1 + x.body.length) xs).1 with
          | none =>
              by_cases hzero : x.contentLength = 0
              · simp [hzero]
              · simp [hzero]
          | some p => rfl

/-- The nodes of a file, from its first recognised header on. -/
theorem parseLines_first (hnames : (xs.map (·.name.chars)).Nodup) :
    List.Forall₂ Matches (parseLines total i (yamlLines (sectionLines xs)) (none, []))
      (landings i xs).2 := by
  induction xs generalizing i with
  | nil => exact .nil
  | cons x xs ih =>
      obtain ⟨hnot, hnames'⟩ := List.nodup_cons.mp hnames
      rw [landings]
      cases hrec : x.tail.recognised with
      | true =>
          obtain ⟨m, hparse, hbound, hend⟩ := parseLines_recognised total [] (i := i) hrec
            List.not_mem_nil xs none
          obtain ⟨m', found, hfound, hend', hmatches⟩ := parseLines_sections total [] hnames
            hbound
          rw [hparse, hfound]
          refine .cons ⟨rfl, ?_⟩ hmatches
          rw [hend', hend]
          cases (landings (i + 1 + x.body.length) xs).1 <;> rfl
      | false =>
          have hheader : topKey (YamlLine.header x.name x.tail).line = none := by
            rw [YamlLine.topKey_header, hrec]
            rfl
          have htop : ∀ l ∈ (YamlLine.header x.name x.tail).line :: yamlLines x.body,
              topKey l = none :=
            List.forall_mem_cons.mpr ⟨hheader, fun _ hl => x.topKey_body hl⟩
          have hlength : i + ((YamlLine.header x.name x.tail).line :: yamlLines x.body).length =
              i + 1 + x.body.length := by
            rw [List.length_cons, List.length_map]
            omega
          rw [yamlLines_cons, ← List.cons_append, parseLines_leading htop, hlength]
          exact ih hnames'

end Sections

section Blocks

variable {u : UserFile} {x : Section} {p : Place}

theorem UserFile.nodup_chars (u : UserFile) : (u.sections.map (·.name.chars)).Nodup := by
  have h := u.nodup.map Name.chars_injective
  rwa [List.map_map] at h

theorem parseBlocks_landings (u : UserFile) :
    List.Forall₂ Matches (parseBlocks (yamlLines u.entries)) u.landings := by
  have hpreamble : ∀ l ∈ yamlLines ((fillers u.preamble).map Entry.yaml), topKey l = none := by
    intro l hl
    obtain ⟨e, he, rfl⟩ := List.mem_map.mp hl
    obtain ⟨d, hd, rfl⟩ := List.mem_map.mp he
    obtain ⟨f, -, rfl⟩ := List.mem_map.mp hd
    exact Entry.topKey_filler f
  rw [parseBlocks, UserFile.entries, fileLines, yamlLines, List.map_append, parseLines_leading hpreamble,
    UserFile.landings]
  simp only [List.length_map, Nat.zero_add]
  exact parseLines_first u.nodup_chars

/-- The nodes that are found are those with a recognised header. -/
theorem landings_nodes (i : Nat) (xs : List Section) :
    (landings i xs).2.map (·.1) = xs.filter (·.tail.recognised) := by
  induction xs generalizing i with
  | nil => rfl
  | cons x xs ih =>
      rw [landings]
      cases hrec : x.tail.recognised with
      | true => simp [hrec, ih]
      | false => simp [hrec, ih]

theorem exists_landing (hx : x ∈ u.sections) (hrec : x.tail.recognised = true) :
    ∃ p, (x, p) ∈ u.landings := by
  have hmem : x ∈ u.landings.map (·.1) := by
    rw [UserFile.landings, landings_nodes]
    exact List.mem_filter.mpr ⟨hx, hrec⟩
  obtain ⟨⟨y, p⟩, hp, rfl⟩ := List.mem_map.mp hmem
  exact ⟨p, hp⟩

theorem mem_sections_of_landing (h : (x, p) ∈ u.landings) :
    x ∈ u.sections ∧ x.tail.recognised = true := by
  have hmem : x ∈ u.landings.map (·.1) := List.mem_map_of_mem h
  rw [UserFile.landings, landings_nodes] at hmem
  exact List.mem_filter.mp hmem

theorem forall₂_names {found : List (Line × NodeBlock)} {ls : List (Section × Place)}
    (h : List.Forall₂ Matches found ls) :
    found.map (·.1) = ls.map (·.1.name.chars) := by
  induction h with
  | nil => rfl
  | cons hmatch _ ih => rw [List.map_cons, List.map_cons, ih, hmatch.1]

/-- The names that are found. -/
theorem parseBlocks_names (u : UserFile) :
    (parseBlocks (yamlLines u.entries)).map (·.1) =
      (u.sections.filter (·.tail.recognised)).map (·.name.chars) := by
  rw [forall₂_names (parseBlocks_landings u), ← landings_nodes u.preamble.length, List.map_map]
  rfl

theorem exists_of_forall₂ {found : List (Line × NodeBlock)} {ls : List (Section × Place)}
    (h : List.Forall₂ Matches found ls) {l : Section × Place} (hl : l ∈ ls) :
    ∃ e ∈ found, Matches e l := by
  induction h with
  | nil => cases hl
  | cons hmatch _ ih =>
      rcases List.mem_cons.mp hl with rfl | hl
      · exact ⟨_, List.mem_cons_self, hmatch⟩
      · obtain ⟨e, he, hmatch'⟩ := ih hl
        exact ⟨e, List.mem_cons_of_mem _ he, hmatch'⟩

/-- The content of a recognised node ends where it lands. -/
theorem lookup_landing (h : (x, p) ∈ u.landings) :
    ∃ n, lookup (parseBlocks (yamlLines u.entries)) (.str x.name.chars) = some n ∧
      n.contentEnd = p.2 := by
  obtain ⟨e, he, hname, hend⟩ := exists_of_forall₂ (parseBlocks_landings u) h
  refine ⟨e.2, ?_, hend⟩
  rw [← hname]
  apply lookup_of_nodup _ he
  rw [parseBlocks_names]
  exact u.nodup_chars.sublist (List.filter_sublist.map _)

/-- A node whose header is not recognised is not found. -/
theorem lookup_unrecognised (hx : x ∈ u.sections) (hrec : x.tail.recognised = false) :
    lookup (parseBlocks (yamlLines u.entries)) (.str x.name.chars) = none := by
  rw [lookup, Option.map_eq_none_iff, List.find?_eq_none]
  intro e he hname
  have hmem : e.1 ∈ (parseBlocks (yamlLines u.entries)).map (·.1) := List.mem_map_of_mem he
  rw [parseBlocks_names] at hmem
  obtain ⟨y, hy, heq⟩ := List.mem_map.mp hmem
  obtain ⟨hy, hyrec⟩ := List.mem_filter.mp hy
  have hchars : y.name.chars = x.name.chars := heq.trans (by simpa using hname)
  obtain rfl : y = x := List.inj_on_of_nodup_map u.nodup_chars hy hx hchars
  rw [hrec] at hyrec
  cases hyrec

end Blocks

end PolishingRobot.Params
