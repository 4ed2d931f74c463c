import Mathlib.Algebra.BigOperators.Group.List.Basic
import Mathlib.Data.List.Induction
import Mathlib.Tactic.Linarith
import PolishingRobot.Lists.Occurrences
import PolishingRobot.Teleop.Keyboard
import PolishingRobot.Wire.Utf8

/-!
# The teleoperation that holds its keys

The script for the robot brings a loop of its own. A pass reads all that arrives
while it listens, off the descriptor and without a text layer, and goes on with the
newest key until that has not come for a while. The floats are exact.
-/

namespace PolishingRobot.Teleop

open PolishingRobot.Lists Runs Wire

/-- A pass: the bytes that arrive while the loop sleeps, those that arrive during
each `select`, and the clock after the last one. A terminal that hangs up is left out. -/
structure Pass where
  asleep : List UInt8 := []
  selects : List (List UInt8)
  now : ℚ
  deriving DecidableEq, Repr

/-- `tty.setraw` flushes what waits at the descriptor. -/
def setraw (_waiting : List UInt8) : List UInt8 := []

/-- The loop of `drain`. It ends with the first `select` that finds nothing; so what
waits afterwards has come later. -/
def drainLoop (waiting : List UInt8) : List (List UInt8) → Option (List UInt8)
  | [] => none
  | bs :: rest =>
      let waiting := waiting ++ bs
      if waiting = [] then if rest = [] then some [] else none
      else (drainLoop (waiting.drop 1024) rest).map (waiting.take 1024 ++ ·)

/-- The bytes that `drain` collects; `none` if its loop makes other turns. -/
def Pass.drain (p : Pass) : Option (List UInt8) := drainLoop (setraw p.asleep) p.selects

/-- The speeds and the parameter `key_hold`; the held key with the time of its
newest arrival. -/
structure HoldLoop where
  linearSpeed : ℚ := 3 / 10
  angularSpeed : ℚ := 3 / 10
  keyHold : ℚ := 65 / 100
  held : Option (Char × ℚ) := none
  stopped : Bool := false
  deriving DecidableEq, Repr

def arrows : List (Key × ℚ) := [(keyUp, 11 / 10), (keyDown, 9 / 10)]

/-- The arrow keys scale the speeds and are taken out of the text. -/
def scaleLoop (s : HoldLoop) (buf : List Char) : List (Key × ℚ) → HoldLoop × List Char
  | [] => (s, buf)
  | (seq, factor) :: rest =>
      let n := occurrences seq buf
      if n = 0 then scaleLoop s buf rest
      else
        scaleLoop { s with
          linearSpeed := s.linearSpeed * factor ^ n
          angularSpeed := s.angularSpeed * factor ^ n } (outside seq buf) rest

/-- What a character does to the held key. -/
def press (now : ℚ) (held : Option (Char × ℚ)) (ch : Char) : Option (Char × ℚ) :=
  if (moveBindings [ch]).isSome then some (ch, now)
  else if ch = ' ' then none
  else held

/-- A pass of the loop on the text that `drain` returns. -/
def HoldLoop.handle (s : HoldLoop) (buf : List Char) (now : ℚ) : HoldLoop × Option Twist :=
  if Char.ofNat 0x03 ∈ buf then ({ s with stopped := true }, none)
  else
    let (s, buf) := scaleLoop s buf arrows
    let s := { s with held := buf.foldl (press now) s.held }
    let twist (x th : ℤ) : Twist := ⟨x * s.linearSpeed, th * s.angularSpeed⟩
    match s.held with
    | some (ch, heldAt) =>
        if now - heldAt < s.keyHold then
          let (x, th) := direction [ch]
          (s, some (twist x th))
        else ({ s with held := none }, some (twist 0 0))
    | none => (s, some (twist 0 0))

/-- The loop goes on until a Ctrl-C; a signal or an exception ends it after any
pass, and its last message is a stop. -/
def holdStep (s : HoldLoop) (p : Pass) : Option HoldLoop :=
  if s.stopped then none else p.drain.map fun bs => (s.handle (utf8Decode bs) p.now).1

/-- The passes with the messages published for them. -/
abbrev HoldLog := List (Pass × Option Twist)

/-- The loop with its log. -/
def holdLogged : HoldLoop × HoldLog → Pass → Option (HoldLoop × HoldLog) :=
  observe holdStep fun s p log =>
    log ++ [(p, (s.handle (utf8Decode (p.drain.getD [])) p.now).2)]

/-- What arrives while the pass listens. -/
def Pass.heard (p : Pass) : List UInt8 := p.selects.flatten

theorem drainLoop_eq {waiting bs : List UInt8} {selects : List (List UInt8)}
    (h : drainLoop waiting selects = some bs) : bs = waiting ++ selects.flatten := by
  induction selects generalizing waiting bs with
  | nil => cases h
  | cons arrived rest ih =>
      dsimp only [drainLoop] at h
      split at h
      · rename_i hempty
        obtain ⟨hrest, hbs⟩ := Option.ite_none_right_eq_some.mp h
        obtain rfl := Option.some.inj hbs
        rw [hrest, List.flatten_cons, List.flatten_nil, List.append_nil, hempty]
      · obtain ⟨bs', hrest, rfl⟩ := Option.map_eq_some_iff.mp h
        rw [ih hrest, ← List.append_assoc, List.take_append_drop, List.append_assoc,
          List.flatten_cons]

/-- A pass reads what it hears; what arrives while the loop sleeps is lost. -/
theorem Pass.drain_eq {p : Pass} {bs : List UInt8} (h : p.drain = some bs) : bs = p.heard :=
  drainLoop_eq h

/-- The keys that decide about the motion. -/
def isStroke (ch : Char) : Bool := (moveBindings [ch]).isSome || ch = ' '

/-- The strokes that the passes heard, each with the clock of its pass. -/
def strokes (ps : List Pass) : List (Char × ℚ) :=
  ps.flatMap fun p => ((p.heard.map Char.ofUInt8).filter isStroke).map (·, p.now)

/-- The direction of the newest stroke, unless that is too old. -/
def wanted (keyHold now : ℚ) (ps : List Pass) : ℤ × ℤ :=
  match (strokes ps).getLast? with
  | some (ch, time) => if now - time < keyHold then direction [ch] else (0, 0)
  | none => (0, 0)

/-- What the arrow keys of a text make of the speeds. -/
def textScale (text : List Char) : ℚ :=
  (11 / 10) ^ occurrences keyUp text * (9 / 10) ^ occurrences keyDown (outside keyUp text)

def speedScale (ps : List Pass) : ℚ := (ps.map fun p => textScale (utf8Decode p.heard)).prod

theorem occurrences_zero {seq text : List Char} (h : occurrences seq text = 0) (hseq : seq ≠ []) :
    outside seq text = text := by
  induction text with
  | nil => rfl
  | cons c cs ih =>
      by_cases hprefix : seq <+: c :: cs
      · obtain ⟨rest, hrest⟩ := hprefix
        rw [← hrest, (occurrences_word hseq).1] at h
        cases h
      · obtain ⟨hcount, hout⟩ := occurrences_cons hprefix
        rw [hout, ih (hcount ▸ h)]

/-- The arrows scale both speeds, and leave the rest of the text. -/
theorem scaleLoop_arrows (s : HoldLoop) (buf : List Char) :
    scaleLoop s buf arrows =
      ({ s with linearSpeed := s.linearSpeed * textScale buf
                angularSpeed := s.angularSpeed * textScale buf },
        outside keyDown (outside keyUp buf)) := by
  have hup : keyUp ≠ [] := by decide
  have hdown : keyDown ≠ [] := by decide
  have hstep (seq : Key) (factor : ℚ) (rest : List (Key × ℚ)) (s : HoldLoop) (buf : List Char)
      (hseq : seq ≠ []) : scaleLoop s buf ((seq, factor) :: rest) =
        scaleLoop { s with
          linearSpeed := s.linearSpeed * factor ^ occurrences seq buf
          angularSpeed := s.angularSpeed * factor ^ occurrences seq buf }
          (outside seq buf) rest := by
    rw [scaleLoop]
    split
    · rename_i hzero
      rw [hzero, occurrences_zero hzero hseq]
      simp
    · rfl
  rw [arrows, hstep keyUp _ _ s buf hup, hstep keyDown _ _ _ _ hdown, scaleLoop]
  simp only [textScale, mul_assoc]

theorem stroke_of_moveBindings {ch : Char} (h : (moveBindings [ch]).isSome = true) :
    isStroke ch = true := by
  simp [isStroke, h]

/-- The loop over the characters keeps the newest stroke. -/
theorem foldl_press (now : ℚ) (held : Option (Char × ℚ)) (cs : List Char) :
    cs.foldl (press now) held =
      match (cs.filter isStroke).getLast? with
      | some ch => if (moveBindings [ch]).isSome then some (ch, now) else none
      | none => held := by
  induction cs using List.reverseRecOn generalizing held with
  | nil => rfl
  | append_singleton cs ch ih =>
      rw [List.foldl_append, List.foldl_cons, List.foldl_nil, ih, List.filter_append, press]
      by_cases hmove : (moveBindings [ch]).isSome = true
      · rw [if_pos hmove, List.filter_cons_of_pos (stroke_of_moveBindings hmove),
          List.filter_nil, List.getLast?_append, List.getLast?_singleton]
        simp [hmove]
      · by_cases hspace : ch = ' '
        · have hstroke : isStroke ch = true := by simp [isStroke, hspace]
          rw [if_neg hmove, if_pos hspace, List.filter_cons_of_pos hstroke,
            List.filter_nil, List.getLast?_append, List.getLast?_singleton]
          simp [hmove]
        · have hstroke : ¬ isStroke ch = true := by simp [isStroke, hmove, hspace]
          rw [if_neg hmove, if_neg hspace, List.filter_cons_of_neg hstroke,
            List.filter_nil, List.append_nil]

/-- A character below `0x80` is in the text if its byte was heard. -/
theorem mem_utf8Decode_iff {n : UInt8} (hn : n < 0x80) (bs : List UInt8) :
    Char.ofUInt8 n ∈ utf8Decode bs ↔ n ∈ bs := by
  have hlow : ∀ c : Char, (c == Char.ofUInt8 n) = true → c.toNat < 0x80 := by
    intro c hc
    rw [beq_iff_eq.mp hc]
    exact UInt8.lt_iff_toNat_lt.mp hn
  have hfilter := filter_utf8Decode hlow bs
  constructor
  · intro hmem
    have hmem' : Char.ofUInt8 n ∈ (bs.map Char.ofUInt8).filter (· == Char.ofUInt8 n) := by
      rw [← hfilter]
      simpa using hmem
    obtain ⟨b, hb, heq⟩ := List.mem_map.mp (List.mem_of_mem_filter hmem')
    have hsame : b = n := UInt8.toNat.inj (congrArg Char.toNat heq)
    exact hsame ▸ hb
  · intro hmem
    have hmem' : Char.ofUInt8 n ∈ (utf8Decode bs).filter (· == Char.ofUInt8 n) := by
      rw [hfilter]
      simpa using ⟨n, hmem, rfl⟩
    exact List.mem_of_mem_filter hmem'

/-- A word without strokes can be taken out. -/
theorem strokes_outside {seq : List Char} (hne : seq ≠ [])
    (hseq : seq.all (fun c => !isStroke c) = true) (text : List Char) :
    (outside seq text).filter isStroke = text.filter isStroke := by
  apply filter_outside hne
  intro c hc
  simpa using List.all_eq_true.mp hseq c hc

/-- The strokes of a text are those of its bytes, arrows or not. -/
theorem filter_isStroke (bs : List UInt8) :
    (outside keyDown (outside keyUp (utf8Decode bs))).filter isStroke =
      (bs.map Char.ofUInt8).filter isStroke := by
  have hlow : ∀ c, isStroke c = true → c.toNat < 0x80 := by
    intro c hc
    have hcase : c = 'u' ∨ c = 'i' ∨ c = 'o' ∨ c = 'j' ∨ c = 'l' ∨ c = 'm' ∨ c = ',' ∨ c = '.' ∨
        c = 'k' ∨ c = ' ' := by
      by_contra hnone
      simp only [not_or] at hnone
      obtain ⟨h₁, h₂, h₃, h₄, h₅, h₆, h₇, h₈, h₉, h₁₀⟩ := hnone
      simp [isStroke, moveBindings, h₁, h₂, h₃, h₄, h₅, h₆, h₇, h₈, h₉, h₁₀] at hc
    rcases hcase with rfl | rfl | rfl | rfl | rfl | rfl | rfl | rfl | rfl | rfl <;> decide
  rw [strokes_outside (by decide) (by decide), strokes_outside (by decide) (by decide),
    filter_utf8Decode hlow]

variable {keyHold linear angular : ℚ} {ps : List Pass} {p : Pass} {s : HoldLoop}

/-- The loop holds the newest stroke, or that stands still or has become too old. -/
structure Holds (keyHold linear angular : ℚ) (ps : List Pass) (s : HoldLoop) : Prop where
  keyHold_eq : s.keyHold = keyHold
  linearSpeed : s.linearSpeed = linear * speedScale ps
  angularSpeed : s.angularSpeed = angular * speedScale ps
  holding : ∀ k, s.held = some k → (strokes ps).getLast? = some k
  idle : s.held = none → ∀ k, (strokes ps).getLast? = some k →
    direction [k.1] = (0, 0) ∨ ∃ q ∈ ps, keyHold ≤ q.now - k.2

/-- What a pass should publish. -/
def message (keyHold linear angular : ℚ) (ps : List Pass) (p : Pass) : Option Twist :=
  if 0x03 ∈ p.heard then none
  else
    let d := wanted keyHold p.now (ps ++ [p])
    some ⟨d.1 * (linear * speedScale (ps ++ [p])), d.2 * (angular * speedScale (ps ++ [p]))⟩

theorem speedScale_append_singleton (ps : List Pass) (p : Pass) :
    speedScale (ps ++ [p]) = speedScale ps * textScale (utf8Decode p.heard) := by
  simp [speedScale]

theorem strokes_append_singleton (ps : List Pass) (p : Pass) :
    strokes (ps ++ [p]) =
      strokes ps ++ ((p.heard.map Char.ofUInt8).filter isStroke).map (·, p.now) := by
  simp [strokes]

/-- What is held after the characters of a pass. -/
theorem Holds.pressed (h : Holds keyHold linear angular ps s) (p : Pass) :
    let held := (outside keyDown (outside keyUp (utf8Decode p.heard))).foldl (press p.now) s.held
    (∀ k, held = some k → (strokes (ps ++ [p])).getLast? = some k) ∧
      (held = none → ∀ k, (strokes (ps ++ [p])).getLast? = some k →
        direction [k.1] = (0, 0) ∨ ∃ q ∈ ps, keyHold ≤ q.now - k.2) := by
  dsimp only
  rw [foldl_press, filter_isStroke, strokes_append_singleton, List.getLast?_append,
    List.getLast?_map]
  cases hnew : ((p.heard.map Char.ofUInt8).filter isStroke).getLast? with
  | none => exact ⟨h.holding, h.idle⟩
  | some ch =>
      dsimp only
      by_cases hmove : (moveBindings [ch]).isSome = true
      · rw [if_pos hmove]
        refine ⟨fun k hk => hk, fun hnone => by cases hnone⟩
      · rw [if_neg hmove]
        constructor
        · intro k hk
          cases hk
        intro _ k hk
        obtain rfl := Option.some.inj hk
        left
        have hnone : moveBindings [ch] = none := Option.not_isSome_iff_eq_none.mp hmove
        simp [direction, hnone]

/-- A pass publishes what it should, and holds what it should. -/
theorem Holds.handle (h : Holds keyHold linear angular ps s) (p : Pass)
    (hclock : ∀ q ∈ ps, q.now ≤ p.now) :
    (s.handle (utf8Decode p.heard) p.now).2 = message keyHold linear angular ps p ∧
      ((s.handle (utf8Decode p.heard) p.now).1.stopped = false →
        Holds keyHold linear angular (ps ++ [p]) (s.handle (utf8Decode p.heard) p.now).1) := by
  have hstop : Char.ofNat 0x03 ∈ utf8Decode p.heard ↔ 0x03 ∈ p.heard := by
    have hchar : Char.ofNat 0x03 = Char.ofUInt8 0x03 := by decide
    rw [hchar]
    exact mem_utf8Decode_iff (by decide) p.heard
  unfold HoldLoop.handle message
  by_cases hctrl : 0x03 ∈ p.heard
  · rw [if_pos (hstop.mpr hctrl), if_pos hctrl]
    exact ⟨rfl, fun hno => by cases hno⟩
  rw [if_neg (mt hstop.mp hctrl), if_neg hctrl, scaleLoop_arrows]
  obtain ⟨hholding, hidle⟩ := h.pressed p
  have hlinear : s.linearSpeed * textScale (utf8Decode p.heard) =
      linear * speedScale (ps ++ [p]) := by
    rw [speedScale_append_singleton, h.linearSpeed, mul_assoc]
  have hangular : s.angularSpeed * textScale (utf8Decode p.heard) =
      angular * speedScale (ps ++ [p]) := by
    rw [speedScale_append_singleton, h.angularSpeed, mul_assoc]
  have hlast : p ∈ ps ++ [p] := by simp
  dsimp only at hholding hidle ⊢
  rw [hlinear, hangular]
  generalize (outside keyDown (outside keyUp (utf8Decode p.heard))).foldl (press p.now) s.held =
    held at hholding hidle ⊢
  cases held with
  | some k =>
      have hnewest := hholding k rfl
      dsimp only
      rw [h.keyHold_eq]
      split_ifs with hyoung
      · refine ⟨?_, fun _ => ⟨rfl, rfl, rfl, hholding, fun hno => by cases hno⟩⟩
        simp only [wanted, hnewest, if_pos hyoung]
      · refine ⟨?_, fun _ => ⟨rfl, rfl, rfl, fun k hk => (by cases hk), ?_⟩⟩
        · simp only [wanted, hnewest, if_neg hyoung]
        · intro _ k' hk'
          obtain rfl := Option.some.inj (hnewest.symm.trans hk')
          exact .inr ⟨p, hlast, not_lt.mp hyoung⟩
  | none =>
      refine ⟨?_, fun _ => ⟨h.keyHold_eq, rfl, rfl, hholding, ?_⟩⟩
      · have hstill : wanted keyHold p.now (ps ++ [p]) = (0, 0) := by
          unfold wanted
          cases hnewest : (strokes (ps ++ [p])).getLast? with
          | none => rfl
          | some k =>
              dsimp only
              rcases hidle rfl k hnewest with hstands | ⟨q, hq, hold⟩
              · rw [hstands]
                exact ite_self _
              · have hlater : ¬ p.now - k.2 < keyHold := by linarith [hclock q hq]
                exact if_neg hlater
        rw [hstill]
      · intro _ k hk
        exact (hidle rfl k hk).imp_right fun ⟨q, hq, hold⟩ => ⟨q, List.mem_append_left _ hq, hold⟩

/-- Every pass of the log published what it should. -/
def Follows (keyHold linear angular : ℚ) (log : HoldLog) : Prop :=
  ∀ before p m after, log = before ++ (p, m) :: after →
    m = message keyHold linear angular (before.map Prod.fst) p

theorem Follows.append_singleton {log : HoldLog} (h : Follows keyHold linear angular log)
    (p : Pass) : Follows keyHold linear angular
      (log ++ [(p, message keyHold linear angular (log.map Prod.fst) p)]) := by
  intro before q m after hsplit
  rcases List.eq_nil_or_concat after with rfl | ⟨after', last, rfl⟩
  · obtain ⟨rfl, hlast⟩ := List.append_inj' hsplit rfl
    obtain ⟨rfl, rfl⟩ := Prod.mk.inj (List.singleton_inj.mp hlast)
    rfl
  · rw [List.concat_eq_append, ← List.cons_append, ← List.append_assoc] at hsplit
    exact h before q m after' (List.append_inj' hsplit rfl).1

theorem holdLogged_eq_some {log log' : HoldLog} {s' : HoldLoop}
    (h : holdLogged (s, log) p = some (s', log')) :
    s.stopped = false ∧ s' = (s.handle (utf8Decode p.heard) p.now).1 ∧
      log' = log ++ [(p, (s.handle (utf8Decode p.heard) p.now).2)] := by
  obtain ⟨hstep, rfl⟩ := observe_eq_some h
  unfold holdStep at hstep
  split at hstep
  · cases hstep
  rename_i hgoes
  obtain ⟨bs, hdrain, rfl⟩ := Option.map_eq_some_iff.mp hstep
  obtain rfl := p.drain_eq hdrain
  rw [hdrain]
  exact ⟨by simpa using hgoes, rfl, rfl⟩

/-- From a state that holds what it should, all further passes do. -/
theorem run_follows {s' : HoldLoop} {log log' : HoldLog}
    (hclock : (log.map (fun e => e.1.now) ++ ps.map Pass.now).Pairwise (· ≤ ·))
    (hs : s.stopped = false → Holds keyHold linear angular (log.map Prod.fst) s)
    (hlog : Follows keyHold linear angular log)
    (hrun : run holdLogged (s, log) ps = some (s', log')) :
    log'.map Prod.fst = log.map Prod.fst ++ ps ∧ Follows keyHold linear angular log' ∧
      (s'.stopped = false → Holds keyHold linear angular (log'.map Prod.fst) s') := by
  induction ps generalizing s log with
  | nil =>
      obtain ⟨rfl, rfl⟩ := Prod.mk.inj (Option.some.inj hrun)
      exact ⟨by simp, hlog, hs⟩
  | cons p ps ih =>
      obtain ⟨⟨s₁, log₁⟩, hstep, hrest⟩ := Option.bind_eq_some_iff.mp hrun
      obtain ⟨hgoes, rfl, rfl⟩ := holdLogged_eq_some hstep
      have hbefore : ∀ q ∈ log.map Prod.fst, q.now ≤ p.now := by
        intro q hq
        obtain ⟨e, he, rfl⟩ := List.mem_map.mp hq
        have hpair := (List.pairwise_append.mp hclock).2.2
        exact hpair _ (List.mem_map_of_mem he) _ (by simp)
      obtain ⟨hmessage, hholds⟩ := (hs hgoes).handle p hbefore
      have hfst : (log ++ [(p, (s.handle (utf8Decode p.heard) p.now).2)]).map Prod.fst =
          log.map Prod.fst ++ [p] := by
        simp
      have hnext := ih (by simpa using hclock) (by rwa [hfst])
        (by rw [hmessage]; exact hlog.append_singleton p) hrest
      rw [hfst] at hnext
      simpa using hnext

theorem start_holds (keyHold linear angular : ℚ) : Holds keyHold linear angular []
    { keyHold := keyHold, linearSpeed := linear, angularSpeed := angular } where
  keyHold_eq := rfl
  linearSpeed := by simp [speedScale]
  angularSpeed := by simp [speedScale]
  holding := by
    intro k hk
    cases hk
  idle := by
    intro _ k hk
    cases hk

/-- In every run on a clock that does not go back, every pass publishes the
direction of the newest stroke that a pass has heard, as long as that is younger
than `key_hold`, and otherwise a stop. -/
theorem newest_key_held (keyHold linear angular : ℚ) (ps : List Pass) (s : HoldLoop)
    (log : HoldLog) (hclock : (ps.map Pass.now).Pairwise (· ≤ ·))
    (hrun : run holdLogged
      ({ keyHold := keyHold, linearSpeed := linear, angularSpeed := angular }, []) ps =
        some (s, log)) :
    log.map Prod.fst = ps ∧ Follows keyHold linear angular log := by
  have hnone : Follows keyHold linear angular [] := by
    intro before p m after hsplit
    cases before <;> cases hsplit
  have hclock' : (([] : HoldLog).map (fun e => e.1.now) ++ ps.map Pass.now).Pairwise (· ≤ ·) :=
    hclock
  obtain ⟨hpasses, hfollows, -⟩ :=
    run_follows hclock' (fun _ => start_holds keyHold linear angular) hnone hrun
  exact ⟨hpasses, hfollows⟩

/-- A key for the way ahead that repeats after half a second, a space that arrives
while the loop sleeps, and the release. -/
def repeated : List Pass :=
  [{ selects := [[0x69], []], now := 10 }, { selects := [[]], now := 104 / 10 },
    { selects := [[0x69], []], now := 105 / 10 },
    { asleep := [0x20], selects := [[]], now := 107 / 10 }, { selects := [[]], now := 112 / 10 }]

theorem newest_key_held_repeated :
    let ahead : Option Twist := some ⟨3 / 10, 0⟩
    let log : HoldLog := repeated.zip [ahead, ahead, ahead, ahead, some ⟨0, 0⟩]
    log.map Prod.fst = repeated ∧ Follows (65 / 100) (3 / 10) (3 / 10) log :=
  newest_key_held (65 / 100) (3 / 10) (3 / 10) repeated {} _ (by decide +kernel)
    (by decide +kernel)

/-- What a user types: an arrow key, or a character. -/
inductive Typed where
  | up
  | down
  | char (c : Char)
  deriving DecidableEq, Repr

def Typed.text : Typed → List Char
  | .up => keyUp
  | .down => keyDown
  | .char c => [c]

/-- The character is one byte, and neither an escape nor a Ctrl-C. -/
def Typed.Plain : Typed → Prop
  | .char c => c ≠ esc ∧ c ≠ Char.ofNat 0x03 ∧ c.toNat < 0x80
  | .up | .down => True

instance : (k : Typed) → Decidable k.Plain
  | .char _ => inferInstanceAs (Decidable (_ ∧ _ ∧ _))
  | .up | .down => inferInstanceAs (Decidable True)

/-- A pass hears whole keys. -/
def Hears (p : Pass) (keys : List Typed) : Prop :=
  p.heard.map Char.ofUInt8 = keys.flatMap Typed.text ∧ ∀ k ∈ keys, k.Plain

instance (p : Pass) (keys : List Typed) : Decidable (Hears p keys) :=
  inferInstanceAs (Decidable (_ ∧ _))

def typedScale (keys : List Typed) : ℚ := (11 / 10) ^ keys.count .up * (9 / 10) ^ keys.count .down

/-- Another arrow key is no occurrence: none of its characters begins one. -/
theorem occurrences_other {x y : Char} (hxy : x ≠ y) (hy : y ≠ esc) (text : List Char) :
    occurrences [esc, '[', x] ([esc, '[', y] ++ text) = occurrences [esc, '[', x] text ∧
      outside [esc, '[', x] ([esc, '[', y] ++ text) =
        [esc, '[', y] ++ outside [esc, '[', x] text := by
  have hfirst : ¬ [esc, '[', x] <+: esc :: ('[' :: y :: text) := by
    rintro ⟨rest, hrest⟩
    simp only [List.cons_append, List.cons.injEq] at hrest
    exact hxy hrest.2.2.1
  have hbracket : '[' ≠ esc := by decide
  obtain ⟨hcount₁, hout₁⟩ := occurrences_cons hfirst
  obtain ⟨hcount₂, hout₂⟩ := occurrences_cons_of_ne ['[', x] (y :: text) hbracket
  obtain ⟨hcount₃, hout₃⟩ := occurrences_cons_of_ne ['[', x] text hy
  constructor
  · exact hcount₁.trans (hcount₂.trans hcount₃)
  · calc outside [esc, '[', x] ([esc, '[', y] ++ text)
        = esc :: outside [esc, '[', x] ('[' :: y :: text) := hout₁
      _ = [esc, '[', y] ++ outside [esc, '[', x] text := by rw [hout₂, hout₃]; rfl

/-- In front of a text, an arrow key is one occurrence of itself, and no other key
has one. -/
theorem occurrences_key {t k : Typed} (ht : t = .up ∨ t = .down) (hk : k.Plain)
    (text : List Char) :
    occurrences t.text (k.text ++ text) = occurrences t.text text + (if k = t then 1 else 0) ∧
      outside t.text (k.text ++ text) =
        (if k = t then [] else k.text) ++ outside t.text text := by
  by_cases hsame : k = t
  · subst hsame
    have hne : k.text ≠ [] := by
      rcases ht with rfl | rfl <;> decide
    rw [if_pos rfl, if_pos rfl]
    exact occurrences_word hne
  · rw [if_neg hsame, if_neg hsame]
    cases k with
    | char c =>
        obtain ⟨hesc, -⟩ := hk
        rcases ht with rfl | rfl <;> exact occurrences_cons_of_ne _ _ hesc
    | up =>
        obtain rfl := ht.resolve_left fun h => hsame h.symm
        exact occurrences_other (by decide) (by decide) text
    | down =>
        obtain rfl := ht.resolve_right fun h => hsame h.symm
        exact occurrences_other (by decide) (by decide) text

/-- In a text of whole keys each arrow key is found once, and left out. -/
theorem occurrences_keys {t : Typed} (ht : t = .up ∨ t = .down) {keys : List Typed}
    (h : ∀ k ∈ keys, k.Plain) :
    occurrences t.text (keys.flatMap Typed.text) = keys.count t ∧
      outside t.text (keys.flatMap Typed.text) = (keys.filter (· ≠ t)).flatMap Typed.text := by
  induction keys with
  | nil => exact ⟨rfl, rfl⟩
  | cons k keys ih =>
      obtain ⟨hcount, hrest⟩ := ih fun k hk => h k (List.mem_cons_of_mem _ hk)
      obtain ⟨hcount', hrest'⟩ := occurrences_key ht (h k (by simp)) (keys.flatMap Typed.text)
      rw [List.flatMap_cons, hcount', hrest', hcount, hrest]
      by_cases hsame : k = t
      · simp [hsame]
      · simp [hsame]

theorem textScale_keys {keys : List Typed} (h : ∀ k ∈ keys, k.Plain) :
    textScale (keys.flatMap Typed.text) = typedScale keys := by
  obtain ⟨hup, hrest⟩ := occurrences_keys (.inl rfl) h
  have hothers : ∀ k ∈ keys.filter (· ≠ .up), k.Plain := fun k hk => h k (List.mem_of_mem_filter hk)
  obtain ⟨hdown, -⟩ := occurrences_keys (.inr rfl) hothers
  have hcount : (keys.filter (· ≠ .up)).count .down = keys.count .down :=
    List.count_filter (by decide)
  change (11 / 10) ^ occurrences Typed.up.text _ *
    (9 / 10) ^ occurrences Typed.down.text (outside Typed.up.text _) = _
  rw [hup, hrest, hdown, hcount, typedScale]

theorem typedScale_append (keys more : List Typed) :
    typedScale (keys ++ more) = typedScale keys * typedScale more := by
  unfold typedScale
  rw [List.count_append, List.count_append, pow_add, pow_add]
  ring

/-- A pass that hears whole keys scales the speeds once for each arrow key. -/
theorem handle_hears {keys : List Typed} (h : Hears p keys) (s : HoldLoop) :
    (s.handle (utf8Decode p.heard) p.now).1.linearSpeed = s.linearSpeed * typedScale keys ∧
      (s.handle (utf8Decode p.heard) p.now).1.angularSpeed =
        s.angularSpeed * typedScale keys := by
  obtain ⟨htext, hplain⟩ := h
  have hchars : ∀ c ∈ p.heard.map Char.ofUInt8, c ≠ Char.ofNat 0x03 ∧ c.toNat < 0x80 := by
    intro c hc
    rw [htext] at hc
    obtain ⟨k, hk, hck⟩ := List.mem_flatMap.mp hc
    cases k with
    | up =>
        have hall : keyUp.all (fun c => c ≠ Char.ofNat 0x03 ∧ c.toNat < 0x80) = true := by decide
        exact of_decide_eq_true (List.all_eq_true.mp hall c hck)
    | down =>
        have hall : keyDown.all (fun c => c ≠ Char.ofNat 0x03 ∧ c.toNat < 0x80) = true := by decide
        exact of_decide_eq_true (List.all_eq_true.mp hall c hck)
    | char d =>
        obtain rfl := List.mem_singleton.mp hck
        exact (hplain _ hk).2
  have hlow : ∀ b ∈ p.heard, b < 0x80 := by
    intro b hb
    exact UInt8.lt_iff_toNat_lt.mpr (hchars _ (List.mem_map_of_mem hb)).2
  have hdecode : utf8Decode p.heard = keys.flatMap Typed.text := by
    rw [utf8Decode_low hlow, htext]
  have hctrl : Char.ofNat 0x03 ∉ utf8Decode p.heard := by
    rw [utf8Decode_low hlow]
    exact fun hmem => (hchars _ hmem).1 rfl
  unfold HoldLoop.handle
  rw [if_neg hctrl, scaleLoop_arrows, hdecode, textScale_keys hplain]
  dsimp only
  split
  · split_ifs <;> exact ⟨rfl, rfl⟩
  · exact ⟨rfl, rfl⟩

/-- In every run whose passes hear whole keys, each arrow key scales both speeds
once, whatever else the pass hears. -/
theorem arrows_scale_once (s s' : HoldLoop) (log log' : HoldLog) (ps : List Pass)
    (keys : List (List Typed)) (hhears : List.Forall₂ Hears ps keys)
    (hrun : run holdLogged (s, log) ps = some (s', log')) :
    s'.linearSpeed = s.linearSpeed * typedScale keys.flatten ∧
      s'.angularSpeed = s.angularSpeed * typedScale keys.flatten := by
  induction hhears generalizing s log with
  | nil =>
      obtain ⟨rfl, rfl⟩ := Prod.mk.inj (Option.some.inj hrun)
      simp [typedScale]
  | @cons p k ps keys hhears _ ih =>
      obtain ⟨⟨s₁, log₁⟩, hstep, hrest⟩ := Option.bind_eq_some_iff.mp hrun
      obtain ⟨-, rfl, rfl⟩ := holdLogged_eq_some hstep
      obtain ⟨hlinear, hangular⟩ := handle_hears hhears s
      obtain ⟨hlinear', hangular'⟩ := ih _ _ hrest
      rw [hlinear', hangular', hlinear, hangular, List.flatten_cons, typedScale_append]
      constructor <;> ring

/-- Two arrows up with a key in between, read in two chunks, and one down. -/
def scaled : List Pass :=
  [{ selects := [[0x1b, 0x5b, 0x41, 0x69], [0x1b, 0x5b, 0x41], []], now := 10 },
    { selects := [[0x1b, 0x5b, 0x42], []], now := 101 / 10 }]

theorem arrows_scale_once_scaled :
    let keys : List (List Typed) := [[.up, .char 'i', .up], [.down]]
    (3267 / 10000 : ℚ) = 3 / 10 * typedScale keys.flatten ∧
      (3267 / 10000 : ℚ) = 3 / 10 * typedScale keys.flatten :=
  arrows_scale_once {}
    { linearSpeed := 3267 / 10000, angularSpeed := 3267 / 10000, held := some ('i', 10) } []
    (scaled.zip [some ⟨363 / 1000, 0⟩, some ⟨3267 / 10000, 0⟩]) scaled _
    (.cons (by decide) (.cons (by decide) .nil)) (by decide +kernel)

end PolishingRobot.Teleop
