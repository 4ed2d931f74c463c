import PolishingRobot.Params.BlockLoader
import PolishingRobot.Params.DisruptedKeys

/-!
# The keys of a user

The script keeps every key of a user's file with its value where it stops at a header
that it does not recognise, and where all new keys fit in the nodes in which they
land, between no lines of a value. A file whose keys are indented by four blanks is
not read any more, and a text with an empty line in it is cut there.
-/

namespace PolishingRobot.Params

section LiftFile

/-- The lines below a key, up to the next header. -/
structure ValueLines (indent : Nat) where
  value : Inline
  below : List YamlLine
  keyless : Keyless below
  inside : ∀ e ∈ below, e.Inside indent

variable {indent : Nat} {hindent : 0 < indent} {ls : ValueLines indent} {r : Node} {s : Section}
  {p : Place}

/-- The node `lift` with its port, the key indented as given. -/
def liftSection (indent : Nat) (hindent : 0 < indent) (ls : ValueLines indent) : Section where
  name := lift
  tail := .blank 0
  indent := indent
  indent_pos := hindent
  body := .key indent port ls.value :: ls.below
  inside := List.forall_mem_cons.mpr ⟨rfl, ls.inside⟩
  leads := ⟨[], port, ls.value, ls.below, rfl, quiet_nil⟩
  ended := true

theorem fields_liftSection (hindent : 0 < indent) (ls : ValueLines indent) :
    (liftSection indent hindent ls).fields = [⟨port, indent, ls.value, ls.below, true⟩] :=
  fields_last ls.keyless true [] indent port ls.value

def liftFile (indent : Nat) (hindent : 0 < indent) (ls : ValueLines indent) : UserFile where
  preamble := []
  sections := [liftSection indent hindent ls]
  nodup := List.nodup_singleton _
  fields_nodup := by
    intro x hx
    obtain rfl := List.mem_singleton.mp hx
    rw [fields_liftSection]
    exact List.nodup_singleton _
  ended := true
  newlines := ⟨rfl, trivial⟩
  complete := .inl rfl

/-- The same node with one more key. -/
def liftTemplate : File :=
  ⟨⟨[], [newLiftNode], List.nodup_singleton _, [], shallow_nil⟩, true, .inl rfl⟩

theorem landings_liftFile (h : (s, p) ∈ (liftFile indent hindent ls).landings) :
    s = liftSection indent hindent ls ∧ p.1 = liftSection indent hindent ls := by
  have hlandings : (liftFile indent hindent ls).landings =
      [(liftSection indent hindent ls, (liftSection indent hindent ls,
        0 + 1 + (liftSection indent hindent ls).contentLength))] := rfl
  rw [hlandings] at h
  obtain ⟨rfl, rfl⟩ := Prod.mk.inj (List.mem_singleton.mp h)
  exact ⟨rfl, rfl⟩

theorem lacking_liftSection (hindent : 0 < indent) (ls : ValueLines indent) :
    lacking newLiftNode (liftSection indent hindent ls) = [keyLine mode] := by
  rw [lacking, fields_liftSection]
  rfl

/-- The new key lands in the node. -/
theorem lands_liftFile (hindent : 0 < indent) (ls : ValueLines indent) :
    Lands liftTemplate.doc (liftFile indent hindent ls) newLiftNode (liftSection indent hindent ls)
      (liftSection indent hindent ls, 0 + 1 + (liftSection indent hindent ls).contentLength) := by
  refine ⟨List.mem_singleton.mpr rfl, rfl, ?_, [], [], rfl, fun _ => List.forall_mem_nil _⟩
  rw [lacking_liftSection]
  exact List.cons_ne_nil _ _

theorem not_hidesHeader (t : Document) : ¬ HidesHeader t (liftFile indent hindent ls) := by
  rintro ⟨r, -, x, hx, -, hrec⟩
  obtain rfl := List.mem_singleton.mp hx
  cases hrec

/-- Every text on the line of a key is read for itself. -/
theorem blockYaml_oneLine (r : Rest) : blockYaml.OneLine r := by
  intro below ended hbelow
  have hquiet : significant below = [] := filter_quiet hbelow
  refine ⟨⟨keyless_of_quiet hbelow, inside_significant (by rw [hquiet]; exact List.forall_mem_nil _)⟩, ?_⟩
  change FieldValue.texts _ = FieldValue.texts _
  rw [FieldValue.texts, FieldValue.texts, hquiet]
  rfl

theorem plain_liftTemplate : blockYaml.PlainTemplate liftTemplate.doc := by
  refine ⟨?_, fun _ _ b _ => blockYaml_oneLine b.rest⟩
  have hentries : liftTemplate.doc.entries =
      [.header lift 0, .key port auto, .key mode auto] := rfl
  rw [hentries]
  simp only [List.forall_mem_cons]
  exact ⟨rfl, rfl, rfl, List.forall_mem_nil _⟩

theorem plain_liftFile (hindent : 0 < indent) (ls : ValueLines indent)
    (hkey : blockYaml.Plain (.key indent port ls.value)) (hbelow : ∀ e ∈ ls.below, blockYaml.Plain e) :
    blockYaml.PlainFile (liftFile indent hindent ls) := by
  constructor
  · have hentries : (liftFile indent hindent ls).entries =
        .header lift (.blank 0) :: .key indent port ls.value :: (ls.below ++ []) := rfl
    rw [hentries, List.append_nil]
    simp only [List.forall_mem_cons]
    exact ⟨rfl, hkey, hbelow⟩
  · intro x hx f hf
    obtain rfl := List.mem_singleton.mp hx
    rw [fields_liftSection] at hf
    obtain rfl := List.mem_singleton.mp hf
    exact ⟨ls.keyless, ls.inside⟩

/-- A text of two lines. -/
def twoLines : ValueLines 2 where
  value := .scalar ⟨" |".toList, by decide⟩
  below := [.below 4 ⟨"line one".toList, by decide⟩, .below 4 ⟨"line two".toList, by decide⟩]
  keyless := by simp [Keyless, YamlLine.keyName]
  inside := by decide

def oneText : ValueLines indent where
  value := .scalar auto
  below := []
  keyless := List.forall_mem_nil _
  inside := List.forall_mem_nil _

/-- What is written for four blanks is not accepted. -/
example : (main blockYaml.load liftTemplate.text
      (some (liftFile 4 (Nat.succ_pos 3) oneText).text)).map (Outcome.userText []) =
        some (unlines [lift.chars ++ [':'], "  mode: auto".toList, "    port: auto".toList]) := by
  decide +kernel

example : blockYaml.read (unlines [lift.chars ++ [':'], "  mode: auto".toList,
    "    port: auto".toList]) = none := by
  rfl

/-- A text with an empty line in it. -/
def dividedText : ValueLines 2 where
  value := twoLines.value
  below := [.below 4 ⟨"line one".toList, by decide⟩, .filler (.blank 0),
    .below 4 ⟨"line two".toList, by decide⟩]
  keyless := by simp [Keyless, YamlLine.keyName]
  inside := by decide

/-- The new key comes between its lines. -/
example : (main blockYaml.load liftTemplate.text
      (some (liftFile 2 Nat.zero_lt_two dividedText).text)).map (Outcome.userText []) =
        some (unlines [lift.chars ++ [':'], "  port: |".toList, "    line one".toList,
          "  mode: auto".toList, [], "    line two".toList]) := by
  decide +kernel

example : ¬ KeepsKeys blockYaml liftTemplate (liftFile 2 Nat.zero_lt_two dividedText) := by
  intro hkeeps
  have hplain := plain_liftFile Nat.zero_lt_two dividedText rfl (List.forall_mem_cons.mpr
    ⟨rfl, List.forall_mem_cons.mpr ⟨rfl, List.forall_mem_singleton.mpr rfl⟩⟩)
  have hfits := fits_of_keepsKeys blockYaml_readsBlocks plain_liftTemplate hplain
    (not_hidesHeader liftTemplate.doc) hkeeps (lands_liftFile Nat.zero_lt_two dividedText)
  have hlength : (liftSection 2 Nat.zero_lt_two dividedText).contentLength = 2 := by decide
  have hfront : (liftSection 2 Nat.zero_lt_two dividedText).frontFields =
      [⟨port, 2, dividedText.value, twoLines.below.take 1, true⟩] := by
    rw [Section.frontFields, Section.front, hlength]
    rfl
  obtain ⟨g, hg, -, -, hvalue⟩ := hfits.same ⟨port, 2, dividedText.value, dividedText.below, true⟩
    (by rw [fields_liftSection]; simp) (by rw [lacking_liftSection]; decide)
  rw [hfront] at hg
  obtain rfl := List.mem_singleton.mp hg
  exact absurd hvalue (by decide)

end LiftFile

end PolishingRobot.Params
