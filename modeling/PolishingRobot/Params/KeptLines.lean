import PolishingRobot.Lists.Origins
import PolishingRobot.Params.LineLoader

/-!
# The user's lines in the merged file

Whatever the loader reads in the two files, the script only inserts: the user's
lines stay as they are and in order, every block of the template stays in one
piece, and every position is computed inside the user's file.
-/

namespace PolishingRobot.Params

open PolishingRobot.Lists

theorem unbroken_of_mem_splitlines {cs : List Char} {l : Line} (hl : l ∈ splitlines cs) :
    Unbroken l := by
  induction cs using splitlines.induct generalizing l with
  | case1 => cases hl
  | case2 cs ih =>
      rw [splitlines] at hl
      rcases List.mem_cons.mp hl with rfl | hl
      · exact unbroken_nil
      · exact ih hl
  | case3 c cs hnot hbreak ih =>
      rw [splitlines, if_pos hbreak] at hl
      · rcases List.mem_cons.mp hl with rfl | hl
        · exact unbroken_nil
        · exact ih hl
      · exact hnot
  | case4 c cs hnot hbreak hnil ih =>
      rw [splitlines, if_neg hbreak, hnil] at hl
      · obtain rfl := List.mem_singleton.mp hl
        simpa using hbreak
      · exact hnot
  | case5 c cs hnot hbreak m ms hcons ih =>
      rw [splitlines, if_neg hbreak, hcons] at hl
      · rw [hcons] at ih
        rcases List.mem_cons.mp hl with rfl | hl
        · exact unbroken_cons.mpr ⟨by simpa using hbreak, ih (by simp)⟩
        · exact ih (by simp [hl])
      · exact hnot

/-- The lines of a block are among the first `total` ones, and no key is empty. -/
structure NodeBlock.Within (total : Nat) (n : NodeBlock) : Prop where
  start : n.start < total
  stop : n.stop ≤ total
  keys : ∀ k ∈ n.keys, k.2.1 < k.2.2 ∧ k.2.2 ≤ total

section Ranges

variable {α : Type} {total i : Nat} {line : Line} {rest lines : List Line} {cur : Option Line}
  {nodes : List (Line × NodeBlock)} {n : NodeBlock}

theorem mem_assign {d : List (Line × α)} {key : Line} {value : α} {e : Line × α}
    (he : e ∈ assign d key value) : e ∈ d ∨ e = (key, value) := by
  rw [assign] at he
  split_ifs at he
  · obtain ⟨e', he', rfl⟩ := List.mem_map.mp he
    split_ifs
    · exact .inr rfl
    · exact .inl he'
  · simpa using he

theorem mem_modify {d : List (Line × α)} {key : Line} {f : α → α} {e : Line × α}
    (he : e ∈ modify d key f) : e ∈ d ∨ ∃ e' ∈ d, e = (e'.1, f e'.2) := by
  obtain ⟨e', he', rfl⟩ := List.mem_map.mp he
  split_ifs
  · exact .inr ⟨e', he', rfl⟩
  · exact .inl he'

theorem exists_of_lookup {d : List (Line × α)} {key : Key} {value : α}
    (h : lookup d key = some value) : ∃ name, (name, value) ∈ d := by
  cases key with
  | other n => cases h
  | str key =>
      obtain ⟨e, he, rfl⟩ := Option.map_eq_some_iff.mp h
      exact ⟨e.1, List.mem_of_find?_eq_some he⟩

/-- A line keeps the ranges inside the file. -/
theorem parseLine_within (hi : i + 1 + rest.length ≤ total)
    (h : ∀ e ∈ nodes, e.2.Within total) :
    ∀ e ∈ (parseLine total i line rest (cur, nodes)).2, e.2.Within total := by
  have hstop : ∀ name : Line, ∀ e ∈ modify nodes name fun n => { n with stop := i + 1 },
      e.2.Within total := by
    intro name e he
    rcases mem_modify he with he | ⟨e', he', rfl⟩
    · exact h e he
    · exact ⟨(h e' he').start, by simp only; omega, (h e' he').keys⟩
  simp only [parseLine]
  cases topKey line with
  | some name =>
      intro e he
      rcases mem_assign he with he | rfl
      · exact h e he
      · exact ⟨by simp only; omega, Nat.le_refl total, List.forall_mem_nil _⟩
  | none =>
      cases cur with
      | none => exact h
      | some name =>
          cases subKey line with
          | none => exact hstop name
          | some key =>
              have hcontinued := (List.takeWhile_sublist (l := rest) continues).length_le
              dsimp only
              intro e he
              rcases mem_modify he with he | ⟨e', he', rfl⟩
              · exact hstop name e he
              · obtain ⟨hstart, hstop', hkeys⟩ := hstop name e' he'
                refine ⟨hstart, hstop', ?_⟩
                intro k hk
                rcases mem_assign hk with hk | rfl
                · exact hkeys k hk
                · exact ⟨by simp only; omega, by simp only; omega⟩

theorem parseLines_within (hi : i + lines.length ≤ total) (h : ∀ e ∈ nodes, e.2.Within total) :
    ∀ e ∈ parseLines total i lines (cur, nodes), e.2.Within total := by
  induction lines generalizing i cur nodes with
  | nil => exact h
  | cons line rest ih =>
      rw [List.length_cons] at hi
      rw [parseLines]
      exact ih (by omega) (parseLine_within (by omega) h)

/-- Every range that `parse_blocks` finds lies inside the file. -/
theorem within_of_lookup {key : Key} (h : lookup (parseBlocks lines) key = some n) :
    n.Within lines.length := by
  obtain ⟨name, hmem⟩ := exists_of_lookup h
  exact parseLines_within (Nat.zero_add _).le (fun _ he => absurd he List.not_mem_nil) _ hmem

theorem NodeBlock.Within.contentEnd_le (h : n.Within total) : n.contentEnd ≤ total := by
  rw [NodeBlock.contentEnd]
  cases hmax : (n.keys.map (·.2.2)).max? with
  | none =>
      have := h.start
      rw [Option.getD_none]
      omega
  | some m =>
      obtain ⟨k, hk, rfl⟩ := List.mem_map.mp (List.max?_mem hmax)
      exact (h.keys k hk).2

theorem slice_ne_nil {a b : Nat} (hab : a < b) (hb : b ≤ lines.length) : slice lines a b ≠ [] := by
  apply List.ne_nil_of_length_pos
  rw [slice, List.length_drop, List.length_take]
  omega

theorem mem_of_mem_slice {a b : Nat} {l : Line} (hl : l ∈ slice lines a b) : l ∈ lines :=
  List.mem_of_mem_take (List.mem_of_mem_drop hl)

end Ranges

/-- Lines of the template, or an empty line and lines of the template, at a
position in the user's file. -/
structure FromTemplate (tmplLines userLines : List Line) (i : Insertion Line) : Prop where
  position : i.position ≤ userLines.length
  block_ne : i.block ≠ []
  block : ∃ a b, i.block = slice tmplLines a b ∨ i.block = [] :: slice tmplLines a b

/-- What `main` inserts into a user's file; `none` is an exception before the write. -/
def additions {V : Type} (load : SafeLoad V) (tmplText : List Char) (userLines : List Line) :
    Option (List Addition) :=
  (load tmplText).bind fun tmplStruct => (load (joinLines userLines)).bind fun userStruct =>
    tmplStruct.orEmpty.items.bind fun items =>
      collect (nodeAdditions ⟨splitlines tmplText, userLines, userStruct.orEmpty⟩) items

section Additions

variable {V : Type} {load : SafeLoad V} {src : Sources V} {tmplText userText : List Char}
  {adds : List Addition}

theorem FromTemplate.mem_block {tmplLines userLines : List Line} {i : Insertion Line}
    (h : FromTemplate tmplLines userLines i) {l : Line} (hl : l ∈ i.block) :
    l ∈ tmplLines ∨ l = [] := by
  obtain ⟨a, b, heq | heq⟩ := h.block
  · rw [heq] at hl
    exact .inl (mem_of_mem_slice hl)
  · rw [heq] at hl
    rcases List.mem_cons.mp hl with rfl | hl
    · exact .inr rfl
    · exact .inl (mem_of_mem_slice hl)

theorem forall_mem_collect {α : Type} {f : α → Option (List Addition)} {P : Addition → Prop}
    (hf : ∀ a xs, f a = some xs → ∀ x ∈ xs, P x) {as : List α} (h : collect f as = some adds) :
    ∀ x ∈ adds, P x := by
  induction as generalizing adds with
  | nil =>
      obtain rfl := Option.some.inj h
      exact fun x hx => absurd hx List.not_mem_nil
  | cons a as ih =>
      obtain ⟨xs, hxs, h⟩ := Option.bind_eq_some_iff.mp h
      obtain ⟨ys, hys, rfl⟩ := Option.map_eq_some_iff.mp h
      intro x hx
      rcases List.mem_append.mp hx with hx | hx
      · exact hf a xs hxs x hx
      · exact ih hys x hx

/-- A key goes to the end of its node's keys. -/
theorem keyAdditions_fromTemplate {node key : Key} {ub : NodeBlock}
    (hub : lookup src.userBlocks node = some ub) (h : keyAdditions src node ub key = some adds) :
    ∀ x ∈ adds, FromTemplate src.tmplLines src.userLines x.insertion := by
  obtain ⟨keys, -, h⟩ := Option.bind_eq_some_iff.mp h
  obtain ⟨present, -, h⟩ := Option.bind_eq_some_iff.mp h
  split_ifs at h
  · obtain rfl := Option.some.inj h
    exact fun x hx => absurd hx List.not_mem_nil
  · obtain ⟨tb, htb, rfl⟩ := Option.map_eq_some_iff.mp h
    cases hkey : lookup tb.keys key with
    | none => exact fun x hx => absurd hx List.not_mem_nil
    | some range =>
        obtain ⟨a, b⟩ := range
        intro x hx
        obtain rfl := List.mem_singleton.mp hx
        obtain ⟨name, hmem⟩ := exists_of_lookup hkey
        obtain ⟨hab, hb⟩ := (within_of_lookup htb).keys _ hmem
        exact ⟨(within_of_lookup hub).contentEnd_le, slice_ne_nil hab hb, a, b, .inl rfl⟩

theorem nodeAdditions_fromTemplate {n : Key × Loaded V} (h : nodeAdditions src n = some adds) :
    ∀ x ∈ adds, FromTemplate src.tmplLines src.userLines x.insertion := by
  obtain ⟨node, keys⟩ := n
  obtain ⟨present, -, h⟩ := Option.bind_eq_some_iff.mp h
  split_ifs at h
  · cases keys with
    | other truthy test =>
        obtain rfl := Option.some.inj h
        exact fun x hx => absurd hx List.not_mem_nil
    | mapping keys =>
        obtain ⟨ub, hub, h⟩ := Option.bind_eq_some_iff.mp h
        exact forall_mem_collect (fun key xs hxs => keyAdditions_fromTemplate hub hxs) h
  · obtain ⟨tb, -, rfl⟩ := Option.map_eq_some_iff.mp h
    intro x hx
    obtain rfl := List.mem_singleton.mp hx
    exact ⟨Nat.le_refl _, List.cons_ne_nil _ _, tb.start, tb.stop, .inr rfl⟩

theorem additions_fromTemplate {userLines : List Line}
    (h : additions load tmplText userLines = some adds) :
    ∀ i ∈ adds.map (·.insertion), FromTemplate (splitlines tmplText) userLines i := by
  obtain ⟨tmplStruct, -, h⟩ := Option.bind_eq_some_iff.mp h
  obtain ⟨userStruct, -, h⟩ := Option.bind_eq_some_iff.mp h
  obtain ⟨items, -, h⟩ := Option.bind_eq_some_iff.mp h
  intro i hi
  obtain ⟨x, hx, rfl⟩ := List.mem_map.mp hi
  exact forall_mem_collect (fun n xs hxs => nodeAdditions_fromTemplate hxs) h x hx

/-- The script writes what is inserted, unless that is nothing. -/
theorem main_eq_additions (load : SafeLoad V) (tmplText userText : List Char) :
    main load tmplText (some userText) =
      (additions load tmplText (splitlines userText)).map fun adds =>
        if adds = [] then .upToDate
        else
          .merged (joinLines (insertAll (splitlines userText) (adds.map (·.insertion))) ++ ['\n'])
            (adds.map (·.report)) := by
  simp only [main, additions, Option.map_bind, Function.comp_def]

end Additions

/-- The lines with their origins are the user's, unchanged and in order, and the
inserted blocks. Each block comes from the template and stands in one piece
behind the user's lines in front of its position. -/
def KeepsLines (tmplLines userLines : List Line) (is : List (Insertion Line))
    (result : List Line) : Prop :=
  ∃ lines : List (Origin × Line), lines.map Prod.snd = result ∧
    lines.filter (·.1.isKept) = numbered .kept userLines ∧
    (∀ l ∈ lines, l.1.isKept = false → l.2 ∈ tmplLines ∨ l.2 = []) ∧
    lines.Perm (numbered .kept userLines ++ (numberedInsertions is).flatMap (·.block)) ∧
    ∀ k i, is[k]? = some i → FromTemplate tmplLines userLines i ∧
      ∃ before after, lines = before ++ (numbered (.inserted k) i.block ++ after) ∧
        before.filter (·.1.isKept) = (numbered .kept userLines).take i.position

section Kept

variable {tmplLines userLines : List Line} {is : List (Insertion Line)}

theorem keepsLines_insertAll (h : ∀ i ∈ is, FromTemplate tmplLines userLines i) :
    KeepsLines tmplLines userLines is (insertAll userLines is) := by
  refine ⟨traced userLines is, traced_snd _ _, traced_kept _ _, ?_, perm_traced _ _, ?_⟩
  · intro l hl hnew
    obtain ⟨k, i, m, hi, -, hblock⟩ := mem_traced hl hnew
    exact (h i (List.mem_of_getElem? hi)).mem_block (List.mem_of_getElem? hblock)
  · intro k i hi
    exact ⟨h i (List.mem_of_getElem? hi), traced_block (fun j hj => (h j hj).position) hi⟩

/-- What is inserted into lines without line breaks are lines again. -/
theorem splitlines_insertAll {tmplText userText : List Char} (hne : is ≠ [])
    (h : ∀ i ∈ is, FromTemplate (splitlines tmplText) (splitlines userText) i) :
    joinLines (insertAll (splitlines userText) is) ++ ['\n'] =
        unlines (insertAll (splitlines userText) is) ∧
      splitlines (unlines (insertAll (splitlines userText) is)) =
        insertAll (splitlines userText) is := by
  constructor
  · apply joinLines_append_newline
    obtain ⟨i, hi⟩ := List.exists_mem_of_ne_nil is hne
    obtain ⟨l, hl⟩ := List.exists_mem_of_ne_nil i.block (h i hi).block_ne
    exact List.ne_nil_of_mem (mem_insertAll.mpr (.inr ⟨i, hi, hl⟩))
  · apply splitlines_unlines
    intro l hl
    rcases mem_insertAll.mp hl with hl | ⟨i, hi, hl⟩
    · exact unbroken_of_mem_splitlines hl
    · rcases (h i hi).mem_block hl with hl | rfl
      · exact unbroken_of_mem_splitlines hl
      · exact unbroken_nil

/-- A written file has the user's lines, unchanged and in order, and template
blocks in one piece each, however many there are and wherever their positions
coincide. -/
theorem user_lines_kept {V : Type} (load : SafeLoad V) (tmplText userText text : List Char)
    (added : List Line)
    (h : main load tmplText (some userText) = some (.merged text added)) :
    ∃ adds, additions load tmplText (splitlines userText) = some adds ∧
      added = adds.map (·.report) ∧ text = unlines (splitlines text) ∧
      KeepsLines (splitlines tmplText) (splitlines userText) (adds.map (·.insertion))
        (splitlines text) := by
  rw [main_eq_additions] at h
  obtain ⟨adds, hadds, hmerged⟩ := Option.map_eq_some_iff.mp h
  split_ifs at hmerged with hnone
  obtain ⟨htext, hreport⟩ := Outcome.merged.inj hmerged
  have hblocks := additions_fromTemplate hadds
  have hne : adds.map (·.insertion) ≠ [] := by simpa using hnone
  obtain ⟨hjoin, hsplit⟩ := splitlines_insertAll hne hblocks
  refine ⟨adds, hadds, hreport.symm, ?_, ?_⟩
  · rw [← htext, hjoin, hsplit]
  · rw [← htext, hjoin, hsplit]
    exact keepsLines_insertAll hblocks

/-- Two keys and a node at one position. -/
theorem user_lines_kept_shared :
    ∃ adds, additions lineLoad "a:\n  k: 1\n  m: 2\n  n: 3\nb:\n  j: 4\n".toList
        (splitlines "a:\n  k: 5\n".toList) = some adds ∧
      ["a.m".toList, "a.n".toList, 'b' :: newNode] = adds.map (·.report) ∧
      "a:\n  k: 5\n\nb:\n  j: 4\n  n: 3\n  m: 2\n".toList = unlines (splitlines
        "a:\n  k: 5\n\nb:\n  j: 4\n  n: 3\n  m: 2\n".toList) ∧
      KeepsLines (splitlines "a:\n  k: 1\n  m: 2\n  n: 3\nb:\n  j: 4\n".toList)
        (splitlines "a:\n  k: 5\n".toList) (adds.map (·.insertion))
        (splitlines "a:\n  k: 5\n\nb:\n  j: 4\n  n: 3\n  m: 2\n".toList) :=
  user_lines_kept lineLoad _ _ _ _ (by decide +kernel)

end Kept

end PolishingRobot.Params
