import PolishingRobot.Params.AdditiveMerge
import PolishingRobot.Runs.LabelledRuns

/-!
# A file over many templates

Every deployment runs the script with the template of its release. Over all of
them the file keeps the user's lines, and reads as the first that has a value:
the user's file, then the templates in the order of the deployments.
-/

namespace PolishingRobot.Params

open PolishingRobot.Lists Runs

/-- One run of the script on the user's file, if there is one. -/
def syncFile {V : Type} (load : SafeLoad V) (user : Option (List Char)) (tmplText : List Char) :
    Option (Option (List Char)) :=
  (main load tmplText user).map fun out => some (out.userText (user.getD []))

theorem shallow_one_blank : Shallow [.blank 0] := shallow_blank shallow_nil

/-- The copy of a template; an empty one becomes an empty line. -/
def created (t : Document) : Document :=
  if t.entries.isEmpty then { t with bottom := [.blank 0], shallow := shallow_one_blank }
  else t

/-- The parameter file after a run that misplaces nothing. -/
def synced (t : Document) : Option Document → Document
  | none => created t
  | some u => merged t u

/-- No deployment misplaces keys. -/
def NeverMisplaces : Option Document → List Document → Prop
  | _, [] => True
  | user, t :: ts => (∀ u ∈ user, ¬ Misplaces t u) ∧ NeverMisplaces (some (synced t user)) ts

section Layers

variable {V : Type} (y : Yaml V)

/-- The value of the first file that has one. -/
def FirstHas : List Document → Key → Key → V → Prop
  | [], _, _, _ => False
  | d :: ds, node, key, v =>
      d.Has y node key v ∨ (¬ ∃ w, d.Has y node key w) ∧ FirstHas ds node key v

/-- What the file on the robot is after the deployments. -/
structure Deployed (user : Option File) (ts : List File) (text : List Char) : Prop where
  /-- It reads as the first that has a value. -/
  reads : ∃ m, y.read text = some m ∧ TwoLevel m ∧ ∀ node key v, Maps m node key v ↔
    FirstHas y ((user.toList ++ ts).map (·.doc)) node key v
  /-- The user's lines are there, in their order. -/
  keeps : ∀ u ∈ user, (splitlines u.text).Sublist (splitlines text)
  /-- No template of the past adds anything. -/
  settled : ∀ t ∈ ts, main y.load t.text (some text) = some .upToDate

variable {y} {t u d : Document} {node key : Key} {v : V}

theorem firstHas_of_mem {ds : List Document} (hd : d ∈ ds) (h : d.Has y node key v) :
    ∃ w, FirstHas y ds node key w := by
  induction ds with
  | nil => cases hd
  | cons d' ds ih =>
      by_cases hfirst : ∃ w, d'.Has y node key w
      · obtain ⟨w, hw⟩ := hfirst
        exact ⟨w, .inl hw⟩
      · rcases List.mem_cons.mp hd with rfl | hd
        · exact absurd ⟨v, h⟩ hfirst
        · obtain ⟨w, hw⟩ := ih hd
          exact ⟨w, .inr ⟨hfirst, hw⟩⟩

/-- What two layers are together is one layer. -/
theorem firstHas_cons_cons (hd : ∀ v, d.Has y node key v ↔
      u.Has y node key v ∨ (¬ ∃ w, u.Has y node key w) ∧ t.Has y node key v)
    (ds : List Document) :
    FirstHas y (d :: ds) node key v ↔ FirstHas y (u :: t :: ds) node key v := by
  by_cases hu : ∃ w, u.Has y node key w
  · have hnone : ∃ w, d.Has y node key w := hu.imp fun w hw => (hd w).mpr (.inl hw)
    simp [FirstHas, hd, hu]
  · have hnot : ∀ w, ¬ u.Has y node key w := not_exists.mp hu
    have hsame : ∀ w, d.Has y node key w ↔ t.Has y node key w := by
      intro w
      simp [hd, hnot]
    simp [FirstHas, hsame, hnot]

theorem created_nodes (t : Document) : (created t).nodes = t.nodes := by
  unfold created
  split_ifs <;> rfl

theorem created_has : (created t).Has y node key v ↔ t.Has y node key v := by
  unfold Document.Has
  rw [created_nodes]

/-- A run adds a layer. -/
theorem firstHas_synced (t : Document) (user : Option Document) (ds : List Document) :
    FirstHas y (synced t user :: ds) node key v ↔
      FirstHas y (user.toList ++ t :: ds) node key v := by
  cases user with
  | none => simp only [synced, FirstHas, created_has, Option.toList_none, List.nil_append]
  | some u => exact firstHas_cons_cons (fun _ => merged_has) ds

/-- A template whose keys are all there adds nothing. -/
theorem insertions_of_has (h : ∀ node key v, t.Has y node key v → ∃ w, d.Has y node key w) :
    insertions t d = [] := by
  have hkey : ∀ r ∈ t.nodes, ∀ b ∈ r.blocks, ∃ s ∈ d.nodes, s.name = r.name ∧ b.name ∈ s.keys := by
    intro r hr b hb
    obtain ⟨w, s, hs, hname, c, hc, hkey, -⟩ := h (.str r.name.chars) (.str b.name.chars)
      (y.value b.rest) ⟨r, hr, rfl, b, hb, rfl, rfl⟩
    refine ⟨s, hs, (Name.eq_of_key hname).symm, ?_⟩
    rw [Name.eq_of_key hkey]
    exact List.mem_map_of_mem hc
  rw [insertions, List.flatMap_eq_nil_iff]
  intro p hp
  have hr : p.node ∈ t.nodes := by
    obtain ⟨pre, post, hsplit, -⟩ := placed_split hp
    rw [hsplit]
    simp
  have hold : p.node.name ∈ d.names := by
    obtain ⟨b, hb⟩ := List.exists_mem_of_ne_nil _ p.node.blocks_ne
    obtain ⟨s, hs, hname, -⟩ := hkey p.node hr b hb
    exact List.mem_map.mpr ⟨s, hs, hname⟩
  obtain ⟨e, he, hname⟩ := exists_end hold
  have hnone : missing p.node e.1 = [] := by
    rw [missing, List.filter_eq_nil_iff]
    intro b hb
    obtain ⟨s, hs, hsname, hmem⟩ := hkey p.node hr b hb
    have hnode : e.1 ∈ d.nodes := by
      have hmap : e.1 ∈ d.ends.map (·.1) := List.mem_map_of_mem he
      rwa [Document.ends, ends_nodes] at hmap
    obtain rfl : s = e.1 := node_unique hs hnode (hsname.trans hname)
    simpa using hmem
  rw [nodeInsertions_known he hname, hnone]
  rfl

theorem sublist_flatMap {α β : Type} {f g : α → List β} (h : ∀ a, (f a).Sublist (g a))
    (as : List α) : (as.flatMap f).Sublist (as.flatMap g) := by
  induction as with
  | nil => exact List.Sublist.refl _
  | cons a as ih => exact (h a).append ih

/-- The user's lines stay in order. -/
theorem entries_sublist_merged (t u : Document) : u.entries.Sublist (merged t u).entries := by
  rw [merged_entries, Document.entries, nodeEntries]
  apply (List.Sublist.refl _).append
  apply List.Sublist.append
  · exact sublist_flatMap (fun s => List.sublist_append_left _ _) u.nodes
  · exact List.sublist_append_left _ _

theorem getLast?_unlines {ls : List Line} (h : ls ≠ []) :
    (unlines ls).getLast? = some '\n' := by
  rw [← joinLines_append_newline h]
  simp

/-- A text whose last line is not empty does not end with a newline. -/
theorem getLast?_joinLines {ls : List Line} (hne : ls ≠ []) (hls : ∀ l ∈ ls, Unbroken l)
    (hlast : ls.getLast? ≠ some []) : ∃ c, (joinLines ls).getLast? = some c ∧ c ≠ '\n' := by
  induction ls with
  | nil => exact absurd rfl hne
  | cons l ls ih =>
      cases ls with
      | nil =>
          have hjoin : joinLines [l] = l := by simp [joinLines, List.intercalate]
          have hline : l ≠ [] := by
            rintro rfl
            exact hlast rfl
          refine ⟨l.getLast hline, ?_, ?_⟩
          · rw [hjoin, List.getLast?_eq_some_getLast hline]
          · intro hnewline
            have hunbroken := hls l (by simp) _ (List.getLast_mem hline)
            rw [hnewline] at hunbroken
            exact absurd hunbroken (by decide)
      | cons m ls =>
          obtain ⟨c, hc, hnewline⟩ := ih (by simp) (fun k hk => hls k (by simp [hk]))
            (by simpa using hlast)
          refine ⟨c, ?_, hnewline⟩
          rw [joinLines_cons_cons, List.getLast?_append, List.getLast?_cons, hc]
          rfl

/-- A missing file becomes a copy of the template. -/
theorem main_created (load : SafeLoad V) (t : File) :
    ∃ f : File, f.doc = created t.doc ∧ main load t.text none = some (.created f.text) := by
  by_cases hempty : t.doc.entries = []
  · have htext : t.text = [] := by
      rw [File.text, fileText, hempty]
      cases t.ended <;> rfl
    refine ⟨⟨created t.doc, true, .inl rfl⟩, rfl, ?_⟩
    have hlines : (created t.doc).entries = [.filler (.blank 0)] := by
      obtain ⟨hpreamble, hrest⟩ := List.append_eq_nil_iff.mp hempty
      obtain ⟨hnodes, -⟩ := List.append_eq_nil_iff.mp hrest
      rw [created, if_pos (List.isEmpty_iff.mpr hempty), Document.entries, hpreamble, hnodes]
      rfl
    have hcopy : File.text ⟨created t.doc, true, .inl rfl⟩ =
        unlines (lines (created t.doc).entries) := rfl
    rw [main, htext, hcopy, hlines]
    rfl
  · have hlines : lines t.doc.entries ≠ [] := by simpa using hempty
    have hcreated : created t.doc = t.doc := if_neg (mt List.isEmpty_iff.mp hempty)
    refine ⟨⟨created t.doc, true, .inl rfl⟩, rfl, ?_⟩
    have htext : (if t.text.getLast? = some '\n' then t.text else t.text ++ ['\n']) =
        unlines (lines t.doc.entries) := by
      cases hended : t.ended with
      | true =>
          have htext : t.text = unlines (lines t.doc.entries) := by
            rw [File.text, fileText, hended]
            rfl
          rw [htext, if_pos (getLast?_unlines hlines)]
      | false =>
          have htext : t.text = joinLines (lines t.doc.entries) := by
            rw [File.text, fileText, hended]
            rfl
          have hlast := t.complete.resolve_left (by simp [hended])
          obtain ⟨c, hc, hnewline⟩ := getLast?_joinLines hlines (unbroken_lines _) hlast
          have hnot : (joinLines (lines t.doc.entries)).getLast? ≠ some '\n' := by
            rw [hc]
            simpa using hnewline
          rw [htext, if_neg hnot, joinLines_append_newline hlines]
    rw [main, htext, File.text, hcreated]
    rfl

theorem plain_created (hy : y.ReadsFiles) (ht : ∀ e ∈ t.entries, y.Plain e) :
    ∀ e ∈ (created t).entries, y.Plain e := by
  unfold created
  split_ifs with hempty
  · intro e he
    obtain ⟨hpreamble, hrest⟩ := List.append_eq_nil_iff.mp (List.isEmpty_iff.mp hempty)
    obtain ⟨hnodes, -⟩ := List.append_eq_nil_iff.mp hrest
    rw [Document.entries, hpreamble, hnodes] at he
    obtain rfl := List.mem_singleton.mp he
    exact hy.blank
  · exact ht

/-- A run that misplaces nothing leaves the next parameter file. -/
theorem syncFile_synced (hy : y.ReadsFiles) {t : File} {user : Option File}
    (ht : ∀ e ∈ t.doc.entries, y.Plain e) (hu : ∀ u ∈ user, ∀ e ∈ u.doc.entries, y.Plain e)
    (hplace : ∀ u ∈ user, ¬ Misplaces t.doc u.doc) :
    ∃ f : File, syncFile y.load (user.map (·.text)) t.text = some (some f.text) ∧
      f.doc = synced t.doc (user.map (·.doc)) ∧ (∀ e ∈ f.doc.entries, y.Plain e) ∧
      ∀ u ∈ user, (lines u.doc.entries).Sublist (lines f.doc.entries) := by
  cases user with
  | none =>
      obtain ⟨f, hdoc, hmain⟩ := main_created y.load t
      refine ⟨f, ?_, hdoc, ?_, by simp⟩
      · rw [syncFile, Option.map_none, hmain]
        rfl
      · rw [hdoc]
        exact plain_created hy ht
  | some u =>
      have hu : ∀ e ∈ u.doc.entries, y.Plain e := hu u rfl
      obtain ⟨out, ended, hout, htext, hended, -⟩ := main_text hy ht hu
      have hplain := plain_planned hy ht hu
      rw [planned_merged (hplace u rfl)] at htext hended hplain
      refine ⟨⟨merged t.doc u.doc, ended, hended⟩, ?_, rfl, hplain, ?_⟩
      · rw [syncFile, Option.map_some, hout]
        exact congrArg (some ∘ some) htext
      · intro u' hu'
        obtain rfl := Option.some.inj hu'
        exact (entries_sublist_merged t.doc u.doc).map Entry.line

/-- What the runs keep of the parameter files. -/
theorem run_synced (hy : y.ReadsFiles) {ts : List File} {user : Option File}
    (hts : ∀ t ∈ ts, ∀ e ∈ t.doc.entries, y.Plain e)
    (hu : ∀ u ∈ user, ∀ e ∈ u.doc.entries, y.Plain e)
    (hplace : NeverMisplaces (user.map (·.doc)) (ts.map (·.doc))) :
    ∃ file : Option File, (file = none ↔ user = none ∧ ts = []) ∧
      run (syncFile y.load) (user.map (·.text)) (ts.map (·.text)) = some (file.map (·.text)) ∧
      ∀ f ∈ file, (∀ e ∈ f.doc.entries, y.Plain e) ∧
        (∀ u ∈ user, (lines u.doc.entries).Sublist (lines f.doc.entries)) ∧
        ∀ node key v, f.doc.Has y node key v ↔
          FirstHas y ((user.toList ++ ts).map (·.doc)) node key v := by
  induction ts generalizing user with
  | nil =>
      refine ⟨user, by simp, rfl, ?_⟩
      intro f hf
      obtain rfl : user = some f := hf
      refine ⟨hu f rfl, ?_, by simp [FirstHas]⟩
      intro u hu'
      obtain rfl := Option.some.inj hu'
      exact List.Sublist.refl _
  | cons t ts ih =>
      obtain ⟨hfirst, hrest⟩ := hplace
      have hplace : ∀ u ∈ user, ¬ Misplaces t.doc u.doc := by
        intro u hu'
        exact hfirst u.doc (Option.mem_map_of_mem _ hu')
      obtain ⟨f, hsync, hdoc, hplain, hkept⟩ := syncFile_synced hy (hts t (by simp)) hu hplace
      have hf : ∀ g ∈ some f, ∀ e ∈ g.doc.entries, y.Plain e := by
        intro g hg
        obtain rfl := Option.some.inj hg
        exact hplain
      have hrest' : NeverMisplaces ((some f).map (·.doc)) (ts.map (·.doc)) := by
        rw [Option.map_some, hdoc]
        exact hrest
      obtain ⟨file, hnone, hrun, hfile⟩ := ih (fun t ht => hts t (by simp [ht])) hf hrest'
      refine ⟨file, by simpa using hnone, ?_, ?_⟩
      · rw [List.map_cons, run_cons, hsync]
        exact hrun
      · intro g hg
        obtain ⟨hgplain, hgkept, hvalues⟩ := hfile g hg
        refine ⟨hgplain, fun u hu' => (hkept u hu').trans (hgkept f rfl), ?_⟩
        intro node key v
        have hlayers : (user.toList ++ t :: ts).map (·.doc) =
            (user.map (·.doc)).toList ++ t.doc :: ts.map (·.doc) := by
          cases user <;> rfl
        rw [hvalues, hlayers, ← firstHas_synced, ← hdoc]
        rfl

/-- Over every sequence of deployments of parameter files that misplaces no key,
from a missing file or one that the user has edited: no run fails, the file reads
as the first that has a value, with the user's lines in their order, and the
templates of the past add nothing more. -/
theorem deployments_layer {V : Type} (y : Yaml V) (hy : y.ReadsFiles) (user : Option File)
    (ts : List File) (hts : ∀ t ∈ ts, ∀ e ∈ t.doc.entries, y.Plain e)
    (hu : ∀ u ∈ user, ∀ e ∈ u.doc.entries, y.Plain e)
    (hplace : NeverMisplaces (user.map (·.doc)) (ts.map (·.doc))) :
    ∃ file, run (syncFile y.load) (user.map (·.text)) (ts.map (·.text)) = some file ∧
      (file = none ↔ user = none ∧ ts = []) ∧ ∀ text ∈ file, Deployed y user ts text := by
  obtain ⟨file, hnone, hrun, hfile⟩ := run_synced hy hts hu hplace
  refine ⟨file.map (·.text), hrun, by simpa using hnone, ?_⟩
  intro text htext
  obtain ⟨f, hf, rfl⟩ := Option.mem_map.mp htext
  obtain ⟨hplain, hkept, hvalues⟩ := hfile f hf
  refine ⟨⟨_, hy.reads f.doc f.ended hplain, ?_, ?_⟩, ?_, ?_⟩
  · rw [group_entries]
    exact twoLevel_nodes y f.doc
  · intro node key v
    rw [group_entries, maps_nodes]
    exact hvalues node key v
  · intro u hu'
    have hlines : splitlines f.text = lines f.doc.entries := splitlines_fileText f.complete
    have hlines' : splitlines u.text = lines u.doc.entries := splitlines_fileText u.complete
    rw [hlines, hlines']
    exact hkept u hu'
  · intro t ht
    have hhas : ∀ node key v, t.doc.Has y node key v → ∃ w, f.doc.Has y node key w := by
      intro node key v hv
      have hmem : t.doc ∈ (user.toList ++ ts).map (·.doc) :=
        List.mem_map_of_mem (List.mem_append_right _ ht)
      obtain ⟨w, hw⟩ := firstHas_of_mem hmem hv
      exact ⟨w, (hvalues node key w).mpr hw⟩
    obtain ⟨out, -, hout, -, -, hsettled⟩ := main_text hy (hts t ht) hplain
    rw [hout, hsettled (insertions_of_has hhas)]

/-- A first release, and one with a new key and a new node. -/
theorem deployments_layer_two :
    ∃ file, run (syncFile lineYaml.load) none [paddedFile.text, template.text] = some file ∧
      (file = none ↔ (none : Option File) = none ∧ [paddedFile, template] = []) ∧
      ∀ text ∈ file, Deployed lineYaml none [paddedFile, template] text := by
  have hcreated : created paddedFile.doc = paddedFile.doc := rfl
  have hplace : NeverMisplaces ((none : Option File).map (·.doc))
      ([paddedFile, template].map (·.doc)) := by
    refine ⟨fun u hu => (nomatch hu), ?_, trivial⟩
    intro u hu
    obtain rfl := Option.some.inj hu
    rintro ⟨s, hlast, hbottom, hrest⟩
    change (created paddedFile.doc).bottom = [] at hbottom
    rw [hcreated] at hbottom
    cases hbottom
  exact deployments_layer lineYaml lineYaml_readsFiles none [paddedFile, template]
    (fun _ _ _ _ => trivial) (fun _ hu => (nomatch hu)) hplace

end Layers

end PolishingRobot.Params
