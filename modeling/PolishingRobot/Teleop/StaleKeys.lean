import PolishingRobot.Teleop.Keyboard

/-!
# Keys that stay in the buffer

The loop waits at the descriptor and reads from the buffer. Characters that arrive
together go to the buffer together, and the first of them is the key. Each of the
others is the key of a later turn in which something else arrives, and what arrived
then is discarded. An arrow key that arrives in one piece is cut by the same gap.
-/

namespace PolishingRobot.Teleop

open Runs

theorem Stdin.ready_iff (s : Stdin) : s.ready = true ↔ s.descriptor ≠ [] := by
  simp [Stdin.ready]

/-- A turn in which nothing arrives reads no key. -/
theorem getKey_idle (s : Stdin) {w : Waits} (h : w.first = []) :
    (getKey s w).1 = [] ∧ (getKey s w).2.buffer = s.buffer := by
  have hidle : ¬ (((s.arrive w.before).setraw.arrive w.first).ready = true) := by
    rw [Stdin.ready_iff]
    simpa [Stdin.arrive, Stdin.setraw] using h
  simp only [getKey, if_neg hidle]
  exact ⟨trivial, rfl⟩

/-- Whatever arrives, the oldest character of the buffer is the key. -/
theorem getKey_buffered {s : Stdin} {w : Waits} {c : Char} {cs : List Char} (h : w.first ≠ [])
    (hbuffer : s.buffer = c :: cs) (hc : c ≠ esc) :
    (getKey s w).1 = [c] ∧ (getKey s w).2.buffer = cs := by
  have hready : ((s.arrive w.before).setraw.arrive w.first).ready = true := by
    rw [Stdin.ready_iff]
    simpa [Stdin.arrive, Stdin.setraw] using h
  have hread : ((s.arrive w.before).setraw.arrive w.first).read =
      ([c], ⟨w.first, cs⟩) := by
    simp [Stdin.read, Stdin.arrive, Stdin.setraw, hbuffer]
  have hplain : ¬ ([c] : Key) = [esc] := by
    simpa using hc
  simp only [getKey, if_pos hready, hread, if_neg hplain]
  exact ⟨trivial, rfl⟩

/-- A turn that reads no key publishes a stop. -/
theorem turn_of_no_key {s : Loop} {w : Waits} (h : s.key w = []) :
    (s.turn w).2 = some ⟨0, 0⟩ := by
  have hstop : ([] : Key) ≠ ctrlC := by decide
  have hdirection : direction [] = (0, 0) := by decide
  rw [(s.turn_eq w).1, h, if_neg hstop, hdirection]
  simp

/-- The turns in which something arrives. -/
def presses (ws : List Waits) : ℕ := ws.countP fun w => w.first ≠ []

/-- The turn stops, or its key is one character. -/
def Serves (w : Waits) (e : Entry) : Prop :=
  if w.first = [] then e.key = [] ∧ e.message = some ⟨0, 0⟩ else e.key.length = 1

/-- Whatever arrives: as long as characters are left in the buffer, they are the
keys, one for each turn in which something arrives; any other turn stops. Nothing
of what arrives is a key. -/
theorem stale_keys_first (ws : List Waits) (s s' : Loop) (log log' : Log)
    (hesc : esc ∉ s.stdin.buffer) (hpresses : presses ws ≤ s.stdin.buffer.length)
    (hrun : run logged (s, log) ws = some (s', log')) :
    ∃ new, log' = log ++ new ∧ List.Forall₂ Serves ws new ∧
      (new.map Entry.key).flatten ++ s'.stdin.buffer = s.stdin.buffer := by
  induction ws generalizing s log with
  | nil =>
      obtain ⟨rfl, rfl⟩ := Prod.mk.inj (Option.some.inj hrun)
      exact ⟨[], by simp, .nil, rfl⟩
  | cons w ws ih =>
      obtain ⟨⟨s₁, log₁⟩, hstep, hrest⟩ := Option.bind_eq_some_iff.mp hrun
      obtain ⟨hturn, rfl⟩ := observe_eq_some hstep
      unfold step at hturn
      split at hturn
      · cases hturn
      obtain rfl := Option.some.inj hturn
      have hstdin : (s.turn w).1.stdin = (getKey s.stdin w).2 := (s.turn_eq w).2.1
      by_cases harrives : w.first = []
      · obtain ⟨hkey, hbuffer⟩ := getKey_idle s.stdin harrives
        have hsame : (s.turn w).1.stdin.buffer = s.stdin.buffer := by rw [hstdin, hbuffer]
        have hcount : presses (w :: ws) = presses ws := by simp [presses, harrives]
        obtain ⟨new, rfl, hserves, hkeys⟩ :=
          ih _ _ (by rwa [hsame]) (by rwa [hsame, ← hcount]) hrest
        refine ⟨s.entry w :: new, by simp, .cons ?_ hserves, ?_⟩
        · unfold Serves
          rw [if_pos harrives]
          exact ⟨hkey, turn_of_no_key hkey⟩
        · have hentry : (s.entry w).key = [] := hkey
          rw [List.map_cons, List.flatten_cons, hentry, List.nil_append, hkeys, hsame]
      · have hcount : presses (w :: ws) = presses ws + 1 := by simp [presses, harrives]
        cases hcs : s.stdin.buffer with
        | nil =>
            rw [hcs, hcount] at hpresses
            simp at hpresses
        | cons c cs =>
            rw [hcs] at hesc hpresses
            obtain ⟨hkey, hbuffer⟩ :=
              getKey_buffered harrives hcs fun h => hesc (by simp [h])
            have hrestBuffer : (s.turn w).1.stdin.buffer = cs := by rw [hstdin, hbuffer]
            have hesc' : esc ∉ (s.turn w).1.stdin.buffer := by
              rw [hrestBuffer]
              exact fun h => hesc (List.mem_cons_of_mem _ h)
            have hpresses' : presses ws ≤ (s.turn w).1.stdin.buffer.length := by
              rw [hrestBuffer]
              rw [hcount, List.length_cons] at hpresses
              omega
            obtain ⟨new, rfl, hserves, hkeys⟩ := ih _ _ hesc' hpresses' hrest
            have hentry : (s.entry w).key = [c] := hkey
            refine ⟨s.entry w :: new, by simp, .cons ?_ hserves, ?_⟩
            · unfold Serves
              rw [if_neg harrives, hentry]
              rfl
            · rw [List.map_cons, List.flatten_cons, hentry, List.append_assoc, hkeys, hrestBuffer]
              rfl

/-- Four keys of the way ahead arrive together. After the release the base stands
still; then a space moves it, and so does a Ctrl-C. -/
theorem stale_keys_first_stop :
    let ahead : Option Twist := some ⟨3 / 10, 0⟩
    let ws : List Waits := [{}, { first := [' '] }, { first := ctrlC }, {}]
    let log : Log := [⟨[], [], some ⟨0, 0⟩⟩, ⟨[], ['i'], ahead⟩, ⟨[' '], ['i'], ahead⟩,
      ⟨ctrlC, [], some ⟨0, 0⟩⟩]
    ∃ new, log = [] ++ new ∧ List.Forall₂ Serves ws new ∧
      (new.map Entry.key).flatten ++ ['i'] = ['i', 'i', 'i'] :=
  stale_keys_first _ { stdin := { buffer := ['i', 'i', 'i'] } } { stdin := { buffer := ['i'] } }
    [] _ (by decide) (by decide) (by decide +kernel)

/-- Every escape has two more characters behind it in the same piece. -/
def whole : List Char → Bool
  | [] => true
  | c :: cs => (c ≠ esc || 2 ≤ cs.length) && whole cs

/-- The pieces that arrive during the waits are whole. -/
def Waits.whole (w : Waits) : Bool :=
  Teleop.whole w.first && Teleop.whole w.more.1 && Teleop.whole w.more.2

/-- What is buffered and what waits at the descriptor is whole. -/
structure Stdin.Whole (s : Stdin) : Prop where
  descriptor : whole s.descriptor = true
  buffer : whole s.buffer = true

theorem whole_append {cs ds : List Char} (hcs : whole cs = true) (hds : whole ds = true) :
    whole (cs ++ ds) = true := by
  induction cs with
  | nil => exact hds
  | cons c cs ih =>
      obtain ⟨hhead, htail⟩ := Bool.and_eq_true_iff.mp hcs
      have hhead' : (c ≠ esc || 2 ≤ (cs ++ ds).length) = true := by
        rw [Bool.or_eq_true] at hhead ⊢
        apply hhead.imp_right
        intro htwo
        have hlength : 2 ≤ cs.length := by simpa using htwo
        simp only [List.length_append, decide_eq_true_eq]
        omega
      exact Bool.and_eq_true_iff.mpr ⟨hhead', ih htail⟩

theorem Stdin.Whole.arrive {s : Stdin} (h : s.Whole) {cs : List Char} (hcs : whole cs = true) :
    (s.arrive cs).Whole :=
  ⟨whole_append h.descriptor hcs, h.buffer⟩

theorem Stdin.Whole.setraw {s : Stdin} (h : s.Whole) (cs : List Char) :
    (s.arrive cs).setraw.Whole :=
  ⟨rfl, h.buffer⟩

theorem Stdin.Whole.read {s : Stdin} (h : s.Whole) : s.read.2.Whole := by
  obtain ⟨descriptor, buffer⟩ := s
  cases buffer with
  | cons c cs => exact ⟨h.descriptor, (Bool.and_eq_true_iff.mp h.buffer).2⟩
  | nil =>
      cases descriptor with
      | nil => exact h
      | cons c cs => exact ⟨rfl, (Bool.and_eq_true_iff.mp h.descriptor).2⟩

theorem Stdin.Whole.foldl_arrive {s : Stdin} (h : s.Whole) {arrivals : List (List Char)}
    (harrivals : ∀ cs ∈ arrivals, whole cs = true) : (arrivals.foldl Stdin.arrive s).Whole := by
  induction arrivals generalizing s with
  | nil => exact h
  | cons cs rest ih =>
      apply ih (h.arrive (harrivals cs (by simp)))
      intro ds hds
      exact harrivals ds (by simp [hds])

theorem Stdin.Whole.readMore {s : Stdin} (h : s.Whole) {arrivals : List (List Char)}
    (harrivals : ∀ cs ∈ arrivals, whole cs = true) : (readMore s arrivals).2.Whole := by
  induction arrivals generalizing s with
  | nil => exact h
  | cons cs rest ih =>
      have hrest : ∀ cs ∈ rest, whole cs = true := fun cs hcs => harrivals cs (by simp [hcs])
      have harrived := h.arrive (harrivals cs (by simp))
      simp only [Teleop.readMore]
      split
      · exact ih harrived.read hrest
      · exact harrived.foldl_arrive hrest

theorem Waits.whole_iff (w : Waits) : w.whole = true ↔
    Teleop.whole w.first = true ∧ Teleop.whole w.more.1 = true ∧ Teleop.whole w.more.2 = true := by
  simp [Waits.whole, and_assoc]

theorem Stdin.Whole.getKey {s : Stdin} (h : s.Whole) {w : Waits} (hw : w.whole = true) :
    (getKey s w).2.Whole := by
  obtain ⟨hfirst, hsecond, hthird⟩ := w.whole_iff.mp hw
  have harrived := (h.setraw w.before).arrive hfirst
  simp only [Teleop.getKey]
  split
  · split
    · apply harrived.read.readMore
      simp [hsecond, hthird]
    · exact (harrived.read.arrive hsecond).arrive hthird
  · exact (harrived.arrive hsecond).arrive hthird

theorem Stdin.exists_read {s : Stdin} (h : s.descriptor ≠ []) : ∃ c, s.read.1 = [c] := by
  obtain ⟨descriptor, buffer⟩ := s
  cases buffer with
  | cons c cs => exact ⟨c, rfl⟩
  | nil =>
      cases descriptor with
      | nil => exact absurd rfl h
      | cons c cs => exact ⟨c, rfl⟩

/-- Two more characters from the buffer leave the descriptor as it is. -/
theorem readMore_of_buffer {s : Stdin} {cs ds : List Char} (hready : (s.arrive cs).ready = true)
    (hbuffer : 2 ≤ s.buffer.length) : (readMore s [cs, ds]).2.descriptor ≠ [] := by
  obtain ⟨descriptor, buffer⟩ := s
  have hwaiting : descriptor ++ cs ≠ [] := (Stdin.ready_iff _).mp hready
  have hbehind : descriptor ++ cs ++ ds ≠ [] := by
    intro hnone
    exact hwaiting (List.append_eq_nil_iff.mp hnone).1
  rcases buffer with _ | ⟨c, _ | ⟨d, rest⟩⟩
  · simp at hbuffer
  · simp at hbuffer
  · have hready' : Stdin.ready ⟨descriptor ++ cs ++ ds, d :: rest⟩ = true :=
      (Stdin.ready_iff _).mpr hbehind
    have hresult : (readMore ⟨descriptor, c :: d :: rest⟩ [cs, ds]).2 =
        ⟨descriptor ++ cs ++ ds, rest⟩ := by
      have hfirst : Stdin.ready ⟨descriptor ++ cs, c :: d :: rest⟩ = true := hready
      simp only [Teleop.readMore, Stdin.arrive, Stdin.read, hfirst, hready', if_true]
    rw [hresult]
    exact hbehind

/-- An arrow is recognised only in front of more characters. -/
theorem getKey_arrow {s : Stdin} (h : s.Whole) {w : Waits} (hw : w.whole = true)
    (hkey : (getKey s w).1 = keyUp ∨ (getKey s w).1 = keyDown) :
    (getKey s w).2.descriptor ≠ [] := by
  obtain ⟨hfirst, -, -⟩ := w.whole_iff.mp hw
  have harrived := (h.setraw w.before).arrive hfirst
  have hlong : (getKey s w).1.length = 3 := by
    rcases hkey with hkey | hkey <;> rw [hkey] <;> rfl
  simp only [Teleop.getKey] at hlong ⊢
  split at hlong
  · rename_i hready
    have hwaiting := (Stdin.ready_iff _).mp hready
    obtain ⟨c, hread⟩ := Stdin.exists_read hwaiting
    split at hlong
    · rename_i hescape
      rw [if_pos hready, if_pos hescape]
      have hmore : (readMore ((s.arrive w.before).setraw.arrive w.first).read.2
          [w.more.1, w.more.2]).1 ≠ [] := by
        intro hnone
        rw [hescape, hnone] at hlong
        simp at hlong
      have hready' : (((s.arrive w.before).setraw.arrive w.first).read.2.arrive
          w.more.1).ready = true := by
        by_contra hidle
        exact hmore (by simp only [Teleop.readMore, if_neg hidle])
      apply readMore_of_buffer hready'
      -- The escape has its two characters behind it in the buffer.
      generalize (s.arrive w.before).setraw.arrive w.first = t at hwaiting harrived hescape
      obtain ⟨descriptor, buffer⟩ := t
      cases buffer with
      | cons d ds =>
          obtain rfl := List.singleton_inj.mp hescape
          simpa [whole, Stdin.read] using (Bool.and_eq_true_iff.mp harrived.buffer).1
      | nil =>
          cases descriptor with
          | nil => exact absurd rfl hwaiting
          | cons d ds =>
              obtain rfl := List.singleton_inj.mp hescape
              simpa [whole, Stdin.read] using (Bool.and_eq_true_iff.mp harrived.descriptor).1
    · rw [hread] at hlong
      simp at hlong
  · simp at hlong

theorem stdin_of_step {s s' : Loop} {w : Waits} (h : step s w = some s') :
    s'.stdin = (getKey s.stdin w).2 := by
  unfold step at h
  split at h
  · cases h
  obtain rfl := Option.some.inj h
  exact (s.turn_eq w).2.1

/-- While every arrow key arrives in one piece, an arrow is recognised only if more
characters have arrived behind it by then; they are what the next turn discards. -/
theorem arrows_need_followers (linear angular : ℚ) (ws : List Waits)
    (hws : ∀ w ∈ ws, w.whole = true) :
    Along step (fun s w s' => s.key w = keyUp ∨ s.key w = keyDown →
        s'.stdin.descriptor ≠ [] ∧ ∀ w', s'.stdin.descriptor <+: s'.discarded w')
      { linearSpeed := linear, angularSpeed := angular } ws := by
  have hwhole : Stdin.Whole {} := ⟨rfl, rfl⟩
  have hlabels := along_of_forall_mem step hws { linearSpeed := linear, angularSpeed := angular }
  have keep : ∀ s w s', s.stdin.Whole → w.whole = true → step s w = some s' → s'.stdin.Whole := by
    intro s w s' hs hw hstep
    rw [stdin_of_step hstep]
    exact hs.getKey hw
  refine along_of_invariant keep ?_ hwhole hlabels
  intro s w s' hs hw hstep hkey
  refine ⟨?_, fun w' => List.prefix_append _ _⟩
  rw [stdin_of_step hstep]
  exact getKey_arrow hs hw hkey

/-- An arrow, and an arrow behind it. -/
theorem arrows_need_followers_twice :
    Along step (fun s w s' => s.key w = keyUp ∨ s.key w = keyDown →
        s'.stdin.descriptor ≠ [] ∧ ∀ w', s'.stdin.descriptor <+: s'.discarded w')
      { linearSpeed := 3 / 10, angularSpeed := 3 / 10 }
      [{ first := keyUp, more := (keyUp, []) }, {}, {}] :=
  arrows_need_followers (3 / 10) (3 / 10) _ (by decide)

end PolishingRobot.Teleop
