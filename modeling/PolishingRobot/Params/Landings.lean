import PolishingRobot.Params.ContentEnds

/-!
# Where new keys land

New keys of a node go to one line of the user's file, and no two nodes share it.
The line is in the node itself or in one below it whose header is not recognised.
-/

namespace PolishingRobot.Params

open PolishingRobot.Lists

/-- Every node with the line behind its content, from line `i` on. -/
def contentEnds (i : Nat) : List Section → List Place
  | [] => []
  | x :: xs => (x, i + 1 + x.contentLength) :: contentEnds (i + 1 + x.body.length) xs

def UserFile.contentEnds (u : UserFile) : List Place :=
  Params.contentEnds u.preamble.length u.sections

/-- The lines of a node with new ones behind its content. -/
def Section.linesWith (x : Section) (new : List YamlLine) : List YamlLine :=
  .header x.name x.tail ::
    (x.body.take x.contentLength ++ (new ++ x.body.drop x.contentLength))

section ContentEnds

variable {i : Nat} {x : Section} {xs : List Section} {p q : Place}

theorem contentEnds_bounds (hp : p ∈ contentEnds i xs) :
    i < p.2 ∧ p.2 ≤ i + (sectionLines xs).length := by
  induction xs generalizing i with
  | nil => cases hp
  | cons x xs ih =>
      have hlength := length_sectionLines_cons x xs
      have hcontent := x.contentLength_le_length
      rcases List.mem_cons.mp hp with rfl | hp
      · constructor
        · simp only []
          omega
        · simp only []
          omega
      · obtain ⟨hlower, hupper⟩ := ih hp
        omega

/-- No two contents end at one line. -/
theorem contentEnds_increasing (i : Nat) (xs : List Section) :
    (contentEnds i xs).Pairwise fun p q => p.2 < q.2 := by
  induction xs generalizing i with
  | nil => exact .nil
  | cons x xs ih =>
      refine List.pairwise_cons.mpr ⟨?_, ih _⟩
      intro p hp
      have hlower := (contentEnds_bounds hp).1
      have hcontent := x.contentLength_le_length
      simp only []
      omega

theorem eq_of_pairwise_lt {α : Type*} {f : α → Nat} {as : List α}
    (h : as.Pairwise fun a b => f a < f b) {a b : α} (ha : a ∈ as) (hb : b ∈ as)
    (heq : f a = f b) : a = b := by
  have hnodup : (as.map f).Nodup := List.pairwise_map.mpr (h.imp Nat.ne_of_lt)
  exact List.inj_on_of_nodup_map hnodup ha hb heq

theorem contentEnds_nodes (i : Nat) (xs : List Section) : (contentEnds i xs).map (·.1) = xs := by
  induction xs generalizing i with
  | nil => rfl
  | cons x xs ih => rw [contentEnds, List.map_cons, ih]

/-- Gaps at the ends of contents alone. -/
theorem weave_sections {g : Nat → List YamlLine}
    (h : ∀ q, i < q → q ≤ i + (sectionLines xs).length →
      (∀ p ∈ contentEnds i xs, p.2 ≠ q) → g q = []) :
    weave g i (sectionLines xs) = (contentEnds i xs).flatMap fun p => p.1.linesWith (g p.2) := by
  induction xs generalizing i with
  | nil => rfl
  | cons x xs ih =>
      have hlength := length_sectionLines_cons x xs
      have hcontent := x.contentLength_le_length
      have hlines : x.lines = (.header x.name x.tail :: x.body.take x.contentLength) ++
          x.body.drop x.contentLength := by
        rw [Section.lines, List.cons_append, List.take_append_drop]
      have hquiet : ∀ q, i < q → q ≤ i + 1 + x.body.length → q ≠ i + 1 + x.contentLength →
          g q = [] := by
        intro q hq hq' hne
        apply h q hq (by omega)
        intro p hp
        rcases List.mem_cons.mp hp with rfl | hp
        · exact hne.symm
        · have := (contentEnds_bounds hp).1
          omega
      have hfront : (YamlLine.header x.name x.tail :: x.body.take x.contentLength).length =
          1 + x.contentLength := by
        rw [List.length_cons, List.length_take_of_le hcontent, Nat.add_comm]
      have hnode : weave g i x.lines = x.linesWith (g (i + 1 + x.contentLength)) := by
        rw [hlines, weave_append, weave_last (List.cons_ne_nil _ _), hfront, weave_quiet,
          Section.linesWith, ← Nat.add_assoc]
        · simp
        · intro q hq hq'
          rw [List.length_drop] at hq'
          exact hquiet q (by omega) (by omega) (by omega)
        · intro q hq hq'
          rw [hfront] at hq'
          exact hquiet q hq (by omega) (by omega)
      have hsplit : sectionLines (x :: xs) = x.lines ++ sectionLines xs := rfl
      rw [hsplit, weave_append, hnode, x.length_lines, ← Nat.add_assoc, ih, contentEnds,
        List.flatMap_cons]
      intro q hq hq' hne
      apply h q (by omega) (by omega)
      intro p hp
      rcases List.mem_cons.mp hp with rfl | hp
      · simp only []
        omega
      · exact hne p hp

end ContentEnds

section Landings

variable {s s' : Section} {p : Place} {u : UserFile}

/-- What is recognised lands at the end of a content, in order, and behind what
lands above all of it. -/
structure Landed (i : Nat) (xs : List Section) (found : Option Place × List (Section × Place)) :
    Prop where
  above : ∀ p, found.1 = some p →
    p ∈ contentEnds i xs ∧ p.1.contentLength ≠ 0 ∧ ∀ l ∈ found.2, p.2 < l.2.2
  ends : ∀ l ∈ found.2, l.2 ∈ contentEnds i xs
  own : ∀ l ∈ found.2, l.2.1 = l.1 ∨ l.2.1.contentLength ≠ 0
  increasing : found.2.Pairwise fun l m => l.2.2 < m.2.2

theorem landed (i : Nat) (xs : List Section) : Landed i xs (landings i xs) := by
  induction xs generalizing i with
  | nil =>
      refine ⟨?_, List.forall_mem_nil _, List.forall_mem_nil _, .nil⟩
      intro p hp
      cases hp
  | cons x xs ih =>
      obtain ⟨habove, hends, hown, hincreasing⟩ := ih (i + 1 + x.body.length)
      have hlast : ∀ l ∈ (landings (i + 1 + x.body.length) xs).2,
          i + 1 + x.contentLength < l.2.2 := by
        intro l hl
        have hlower := (contentEnds_bounds (hends l hl)).1
        have hcontent := x.contentLength_le_length
        omega
      have hends' : ∀ l ∈ (landings (i + 1 + x.body.length) xs).2,
          l.2 ∈ contentEnds i (x :: xs) := fun l hl => List.mem_cons_of_mem _ (hends l hl)
      cases hrec : x.tail.recognised with
      | true =>
          have hsplit : landings i (x :: xs) = (none,
              (x, (landings (i + 1 + x.body.length) xs).1.getD (x, i + 1 + x.contentLength)) ::
                (landings (i + 1 + x.body.length) xs).2) := by
            rw [landings, if_pos hrec]
          rw [hsplit]
          cases hfirst : (landings (i + 1 + x.body.length) xs).1 with
          | none =>
              refine ⟨fun p hp => absurd hp (by simp), ?_, ?_, ?_⟩
              · exact List.forall_mem_cons.mpr ⟨List.mem_cons_self, hends'⟩
              · exact List.forall_mem_cons.mpr ⟨.inl rfl, hown⟩
              · exact List.pairwise_cons.mpr ⟨hlast, hincreasing⟩
          | some p =>
              obtain ⟨hp, hcontent, hbelow⟩ := habove p hfirst
              refine ⟨fun p hp => absurd hp (by simp), ?_, ?_, ?_⟩
              · exact List.forall_mem_cons.mpr ⟨List.mem_cons_of_mem _ hp, hends'⟩
              · exact List.forall_mem_cons.mpr ⟨.inr hcontent, hown⟩
              · exact List.pairwise_cons.mpr ⟨hbelow, hincreasing⟩
      | false =>
          have hsplit : landings i (x :: xs) = ((landings (i + 1 + x.body.length) xs).1.or
              (if x.contentLength = 0 then none else some (x, i + 1 + x.contentLength)),
                (landings (i + 1 + x.body.length) xs).2) := by
            rw [landings, if_neg (by simp [hrec])]
          rw [hsplit]
          refine ⟨?_, hends', hown, hincreasing⟩
          intro p hp
          cases hfirst : (landings (i + 1 + x.body.length) xs).1 with
          | none =>
              rw [hfirst, Option.none_or] at hp
              split_ifs at hp with hzero
              obtain rfl := Option.some.inj hp
              exact ⟨List.mem_cons_self, hzero, hlast⟩
          | some p' =>
              rw [hfirst, Option.some_or] at hp
              obtain rfl := Option.some.inj hp
              obtain ⟨hp, hcontent, hbelow⟩ := habove p' hfirst
              exact ⟨List.mem_cons_of_mem _ hp, hcontent, hbelow⟩

theorem landing_end (h : (s, p) ∈ u.landings) : p ∈ u.contentEnds :=
  (landed u.preamble.length u.sections).ends _ h

/-- Behind a content without a line that is taken for a key only its own node lands. -/
theorem landing_own (h : (s, p) ∈ u.landings) (hzero : p.1.contentLength = 0) : p.1 = s :=
  ((landed u.preamble.length u.sections).own _ h).resolve_right (not_not.mpr hzero)

/-- No two nodes land at one line. -/
theorem landing_unique {p' : Place} (h : (s, p) ∈ u.landings) (h' : (s', p') ∈ u.landings)
    (heq : p.2 = p'.2) : s = s' := by
  have hincreasing := (landed u.preamble.length u.sections).increasing
  exact congrArg Prod.fst (eq_of_pairwise_lt (f := fun l : Section × Place => l.2.2)
    hincreasing h h' heq)

theorem place_unique {p' : Place} (h : p ∈ u.contentEnds) (h' : p' ∈ u.contentEnds)
    (heq : p.2 = p'.2) : p = p' :=
  eq_of_pairwise_lt (contentEnds_increasing _ _) h h' heq

theorem UserFile.contentEnds_sections (u : UserFile) : u.contentEnds.map (·.1) = u.sections :=
  contentEnds_nodes _ _

/-- Every node has one place. -/
theorem end_unique {p' : Place} (h : p ∈ u.contentEnds) (h' : p' ∈ u.contentEnds)
    (heq : p.1 = p'.1) : p = p' := by
  have hnodup : (u.contentEnds.map (·.1.name)).Nodup := by
    have hnames := u.nodup
    rwa [← u.contentEnds_sections, List.map_map] at hnames
  exact List.inj_on_of_nodup_map hnodup h h' (congrArg Section.name heq)

theorem mem_sections_of_end (hp : p ∈ u.contentEnds) : p.1 ∈ u.sections := by
  rw [← u.contentEnds_sections]
  exact List.mem_map_of_mem hp

theorem exists_end_of_section {x : Section} (hx : x ∈ u.sections) :
    ∃ p ∈ u.contentEnds, p.1 = x := by
  rw [← u.contentEnds_sections] at hx
  exact List.mem_map.mp hx

theorem sections_split {pre post : List Place} (h : u.contentEnds = pre ++ p :: post) :
    u.sections = pre.map (·.1) ++ p.1 :: post.map (·.1) := by
  rw [← u.contentEnds_sections, h, List.map_append, List.map_cons]

theorem contentEnds_le (h : p ∈ u.contentEnds) : 0 < p.2 ∧ p.2 ≤ u.entries.length := by
  obtain ⟨hlower, hupper⟩ := contentEnds_bounds h
  have hlength := u.length_entries
  omega

end Landings

end PolishingRobot.Params
