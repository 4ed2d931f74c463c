import PolishingRobot.Params.Plan

/-!
# A loader for parameter files

Reading the headers and the keys line by line loads every parameter file as it is
meant, so the assumptions on the YAML loader can be met.
-/

namespace PolishingRobot.Params

/-- The text behind the first colon. -/
def scalar (l : Line) : Line := strip ((l.dropWhile (· ≠ ':')).drop 1)

/-- The keys in front of the first header, and those under every header. -/
def readLines : List Line → List (Line × Line) × List (Line × List (Line × Line))
  | [] => ([], [])
  | l :: ls =>
      match topKey l with
      | some n => ([], (n, (readLines ls).1) :: (readLines ls).2)
      | none =>
          match subKey l with
          | some k => ((k, scalar l) :: (readLines ls).1, (readLines ls).2)
          | none => readLines ls

def lineLoad : SafeLoad Line := fun text =>
  some (.mapping ((readLines (splitlines text)).2.map fun n =>
    (.str n.1, .mapping (n.2.map fun k => (.str k.1, k.2)))))

def lineYaml : Yaml Line where
  load := lineLoad
  Plain _ := True
  value r := strip r.chars

section Lines

variable {es : List Entry}

theorem scalar_key (n : Name) (r : Rest) : scalar (Entry.key n r).line = strip r.chars := by
  have hline : (Entry.key n r).line = (' ' :: ' ' :: n.chars) ++ ':' :: r.chars := by
    simp [Entry.line]
  have hname : ∀ c ∈ ' ' :: ' ' :: n.chars, decide (c ≠ ':') = true := by
    intro c hc
    rcases List.mem_cons.mp hc with rfl | hc
    · rfl
    · rcases List.mem_cons.mp hc with rfl | hc
      · rfl
      · simpa using n.ne_colon_of_mem hc
  rw [scalar, hline, List.dropWhile_append_of_pos hname, List.dropWhile_cons_of_neg (by simp)]
  rfl

abbrev readKey (k : Name × Rest) : Line × Line := (k.1.chars, lineYaml.value k.2)

theorem readLines_lines (es : List Entry) :
    readLines (lines es) =
      ((group es).1.map readKey, (group es).2.map fun n => (n.1.chars, n.2.map readKey)) := by
  induction es with
  | nil => rfl
  | cons e es ih =>
      rw [lines, List.map_cons, ← lines, readLines, ih]
      cases e with
      | filler f => simp [group]
      | header n w => simp [group]
      | key n r => simp [group, scalar_key, lineYaml]

/-- An empty last line reads as nothing. -/
theorem group_append_filler (es : List Entry) (f : Filler) :
    group (es ++ [.filler f]) = group es := by
  induction es with
  | nil => rfl
  | cons e es ih =>
      cases e with
      | filler g => exact ih
      | header n w => rw [List.cons_append, group, group, ih]
      | key n r => rw [List.cons_append, group, group, ih]

theorem joinLines_append_nil (ls : List Line) : joinLines (ls ++ [[]]) = unlines ls := by
  induction ls with
  | nil => rfl
  | cons l ls ih =>
      obtain ⟨m, ms, hms⟩ : ∃ m ms, ls ++ [[]] = m :: ms := List.exists_cons_of_ne_nil (by simp)
      rw [List.cons_append, hms, joinLines_cons_cons, ← hms, ih]
      simp [unlines]

theorem eq_blank_of_line {e : Entry} (h : e.line = []) : e = .filler (.blank 0) := by
  cases e with
  | header n w => simp [Entry.line] at h
  | key n r => simp [Entry.line] at h
  | filler f =>
      cases f with
      | blank width =>
          cases width with
          | zero => rfl
          | succ width => simp [Entry.line, blanks, List.replicate_succ] at h
      | comment indent text => simp [Entry.line] at h

/-- The text of the lines, complete or not, is read as the lines. -/
theorem readLines_fileText (es : List Entry) (ended : Bool) :
    readLines (splitlines (fileText es ended)) = readLines (lines es) := by
  by_cases hcomplete : ended = true ∨ (lines es).getLast? ≠ some []
  · rw [splitlines_fileText hcomplete]
  · rw [not_or, not_not] at hcomplete
    obtain ⟨hended, hlast⟩ := hcomplete
    obtain ⟨init, e, rfl⟩ : ∃ init e, es = init ++ [e] := by
      apply (List.eq_nil_or_concat' es).resolve_left
      rintro rfl
      cases hlast
    obtain rfl : e = .filler (.blank 0) := by
      apply eq_blank_of_line
      simpa using hlast
    have htext : fileText (init ++ [.filler (.blank 0)]) ended = unlines (lines init) := by
      have hline : lines (init ++ [.filler (.blank 0)]) = lines init ++ [[]] := by
        simp [Entry.line, blanks]
      rw [fileText, if_neg hended, hline, joinLines_append_nil]
    rw [htext, splitlines_unlines (unbroken_lines init), readLines_lines, readLines_lines,
      group_append_filler]

theorem lineYaml_read (es : List Entry) (ended : Bool) :
    lineYaml.read (fileText es ended) = some (lineYaml.nodes (group es).2) := by
  have hload : lineYaml.load (fileText es ended) = some (lineYaml.nodes (group es).2) := by
    change lineLoad (fileText es ended) = _
    rw [lineLoad, readLines_fileText, readLines_lines, Yaml.nodes, List.map_map]
    simp [Yaml.keys, Function.comp_def]
  rw [Yaml.read, hload]
  rfl

/-- The line loader reads parameter files. -/
theorem lineYaml_readsFiles : lineYaml.ReadsFiles where
  blank := trivial
  reads := fun d ended _ => lineYaml_read d.entries ended
  confines := by
    intro es ended m _ _ hread node key v hmaps
    rw [lineYaml_read] at hread
    obtain rfl := Option.some.inj hread
    obtain ⟨nodes, keys, hnodes, hnode, hkey⟩ := hmaps
    obtain rfl : _ = nodes := Loaded.mapping.inj hnodes
    obtain ⟨n, hn, heq⟩ := List.mem_map.mp hnode
    obtain ⟨rfl, hkeys⟩ := Prod.mk.inj heq
    obtain rfl : _ = keys := Loaded.mapping.inj hkeys
    obtain ⟨k, hk, heq⟩ := List.mem_map.mp hkey
    obtain ⟨rfl, -⟩ := Prod.mk.inj heq
    exact ⟨n, hn, k, hk, rfl, rfl⟩

end Lines

end PolishingRobot.Params
