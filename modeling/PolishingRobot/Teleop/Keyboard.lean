import Mathlib.Algebra.Order.Field.Rat
import Mathlib.Tactic.Ring
import PolishingRobot.Runs.LabelledRuns

/-!
# The keyboard teleoperation

A loop reads a key, publishes a twist for it and sleeps. The key comes from the
text layer of the standard input: `select` asks the descriptor, while `read`
serves a buffer first, and an empty buffer takes all that waits at the
descriptor. Each turn first enters the raw mode, which discards what waits at the
descriptor. The floats are exact.
-/

namespace PolishingRobot.Teleop

open Runs

/-- The characters at the descriptor and those already in the text buffer. A
terminal that hangs up is left out. -/
structure Stdin where
  descriptor : List Char := []
  buffer : List Char := []
  deriving DecidableEq, Repr

/-- `tty.setraw`, which waits for the output and flushes the input (`TCSAFLUSH`). -/
def Stdin.setraw (s : Stdin) : Stdin := { s with descriptor := [] }

/-- A wait that ends with these characters having arrived. -/
def Stdin.arrive (s : Stdin) (cs : List Char) : Stdin :=
  { s with descriptor := s.descriptor ++ cs }

/-- The answer of `select`. -/
def Stdin.ready (s : Stdin) : Bool := s.descriptor ≠ []

/-- `sys.stdin.read(1)` behind a `select` that found the descriptor ready. -/
def Stdin.read (s : Stdin) : List Char × Stdin :=
  match s.buffer with
  | c :: cs => ([c], { s with buffer := cs })
  | [] =>
      match s.descriptor with
      | c :: cs => ([c], { descriptor := [], buffer := cs })
      | [] => ([], s)

abbrev Key := List Char

def esc : Char := Char.ofNat 0x1b

def keyUp : Key := [esc, '[', 'A']

def keyDown : Key := [esc, '[', 'B']

def ctrlC : Key := [Char.ofNat 0x03]

/-- `MOVE_BINDINGS`: forward and counterclockwise are positive. -/
def moveBindings (key : Key) : Option (ℤ × ℤ) :=
  if key = ['u'] then some (1, 1)
  else if key = ['i'] then some (1, 0)
  else if key = ['o'] then some (1, -1)
  else if key = ['j'] then some (0, 1)
  else if key = ['l'] then some (0, -1)
  else if key = ['m'] then some (-1, 1)
  else if key = [','] then some (-1, 0)
  else if key = ['.'] then some (-1, -1)
  else if key = ['k'] then some (0, 0)
  else none

/-- The characters that arrive before a `get_key`, while the loop sleeps, and
during its waits: up to 0.1 s for the first character, and up to 0.01 s for each of
two more. -/
structure Waits where
  before : List Char := []
  first : List Char := []
  more : List Char × List Char := ([], [])
  deriving DecidableEq, Repr

def Waits.arrived (w : Waits) : List Char := w.before ++ (w.first ++ w.more.1 ++ w.more.2)

/-- The loop of `get_key` behind an escape; it breaks at the first `select` that
finds nothing. -/
def readMore (s : Stdin) : List (List Char) → Key × Stdin
  | [] => ([], s)
  | cs :: rest =>
      let s := s.arrive cs
      if s.ready then
        let (c, s) := s.read
        let (key, s) := readMore s rest
        (c ++ key, s)
      else ([], rest.foldl Stdin.arrive s)

/-- `get_key`. The waits that do not take place count for what arrives until the
next one. -/
def getKey (s : Stdin) (w : Waits) : Key × Stdin :=
  let s := (s.arrive w.before).setraw.arrive w.first
  if s.ready then
    let (key, s) := s.read
    if key = [esc] then
      let (rest, s) := readMore s [w.more.1, w.more.2]
      (key ++ rest, s)
    else (key, (s.arrive w.more.1).arrive w.more.2)
  else ([], (s.arrive w.more.1).arrive w.more.2)

/-- The fields of the message that are set. -/
@[ext] structure Twist where
  linearX : ℚ := 0
  angularZ : ℚ := 0
  deriving DecidableEq, Repr

structure Loop where
  stdin : Stdin := {}
  linearSpeed : ℚ := 3 / 10
  angularSpeed : ℚ := 3 / 10
  stopped : Bool := false
  deriving DecidableEq, Repr

/-- What a turn of the loop does with its key: the message it publishes, `none`
on the way out. -/
def handleKey (key : Key) (s : Loop) : Loop × Option Twist :=
  let twist (s : Loop) (x th : ℤ) : Twist := ⟨x * s.linearSpeed, th * s.angularSpeed⟩
  match moveBindings key with
  | some (x, th) => (s, some (twist s x th))
  | none =>
      if key = [' '] then (s, some (twist s 0 0))
      else if key = keyUp then
        let s := { s with
          linearSpeed := s.linearSpeed * (11 / 10), angularSpeed := s.angularSpeed * (11 / 10) }
        (s, some (twist s 0 0))
      else if key = keyDown then
        let s := { s with
          linearSpeed := s.linearSpeed * (9 / 10), angularSpeed := s.angularSpeed * (9 / 10) }
        (s, some (twist s 0 0))
      else if key = ctrlC then ({ s with stopped := true }, none)
      else (s, some (twist s 0 0))

/-- The key that a turn reads. -/
def Loop.key (s : Loop) (w : Waits) : Key := (getKey s.stdin w).1

/-- A turn of the loop. -/
def Loop.turn (s : Loop) (w : Waits) : Loop × Option Twist :=
  handleKey (s.key w) { s with stdin := (getKey s.stdin w).2 }

/-- The loop goes on until a Ctrl-C; a shutdown of ROS or an exception ends it
after any turn. -/
def step (s : Loop) (w : Waits) : Option Loop :=
  if s.stopped then none else some (s.turn w).1

/-- What a turn discards before it reads. -/
def Loop.discarded (s : Loop) (w : Waits) : List Char := (s.stdin.arrive w.before).descriptor

/-- A turn of the past. -/
structure Entry where
  discarded : List Char
  key : Key
  message : Option Twist
  deriving DecidableEq, Repr

def Loop.entry (s : Loop) (w : Waits) : Entry := ⟨s.discarded w, s.key w, (s.turn w).2⟩

abbrev Log := List Entry

/-- The loop with its log. -/
def logged : Loop × Log → Waits → Option (Loop × Log) :=
  observe step fun s w log => log ++ [s.entry w]

/-- `main` publishes nothing without a terminal; otherwise, however the loop
ends, the last message is a stop. -/
def publications (isatty : Bool) (log : Log) : List Twist :=
  if isatty then log.filterMap Entry.message ++ [⟨0, 0⟩] else []

example : getKey {} { before := ['i'], first := keyUp } = ([esc], { buffer := ['[', 'A'] }) := by
  decide

/-- From `s` on, while `arrived` came, `taken` went from the descriptor to the
buffer and a key was read from there. -/
structure Took (s : Stdin) (arrived taken : List Char) (result : Key × Stdin) : Prop where
  descriptor : s.descriptor ++ arrived = taken ++ result.2.descriptor
  buffer : s.buffer ++ taken = result.1 ++ result.2.buffer

theorem Took.append {s : Stdin} {a a' t t' : List Char} {r r' : Key × Stdin}
    (h : Took s a t r) (h' : Took r.2 a' t' r') :
    Took s (a ++ a') (t ++ t') (r.1 ++ r'.1, r'.2) := by
  constructor
  · calc s.descriptor ++ (a ++ a') = t ++ (r.2.descriptor ++ a') := by
          rw [← List.append_assoc, h.descriptor, List.append_assoc]
      _ = (t ++ t') ++ r'.2.descriptor := by
          rw [h'.descriptor, List.append_assoc]
  · calc s.buffer ++ (t ++ t') = r.1 ++ (r.2.buffer ++ t') := by
          rw [← List.append_assoc, h.buffer, List.append_assoc]
      _ = (r.1 ++ r'.1) ++ r'.2.buffer := by
          rw [h'.buffer, List.append_assoc]

theorem Stdin.arrive_took (s : Stdin) (cs : List Char) : Took s cs [] ([], s.arrive cs) :=
  ⟨rfl, by simp [Stdin.arrive]⟩

theorem Stdin.foldl_arrive_took (s : Stdin) (arrivals : List (List Char)) :
    Took s arrivals.flatten [] ([], arrivals.foldl Stdin.arrive s) := by
  induction arrivals generalizing s with
  | nil => exact ⟨by simp, by simp⟩
  | cons cs rest ih => exact (s.arrive_took cs).append (ih (s.arrive cs))

theorem Stdin.read_took (s : Stdin) : ∃ taken, Took s [] taken s.read := by
  unfold Stdin.read
  split
  · rename_i c cs hbuffer
    exact ⟨[], by simp, by simp [hbuffer]⟩
  · rename_i hbuffer
    split
    · rename_i c cs hdescriptor
      exact ⟨c :: cs, by simp [hdescriptor], by simp [hbuffer]⟩
    · exact ⟨[], by simp, by simp⟩

theorem readMore_took (s : Stdin) (arrivals : List (List Char)) :
    ∃ taken, Took s arrivals.flatten taken (readMore s arrivals) := by
  induction arrivals generalizing s with
  | nil => exact ⟨[], by simp [readMore], by simp [readMore]⟩
  | cons cs rest ih =>
      simp only [readMore]
      split
      · obtain ⟨taken, hread⟩ := (s.arrive cs).read_took
        obtain ⟨taken', hmore⟩ := ih (s.arrive cs).read.2
        refine ⟨taken ++ taken', ?_⟩
        simpa using ((s.arrive_took cs).append hread).append hmore
      · exact ⟨[], (s.arrive_took cs).append ((s.arrive cs).foldl_arrive_took rest)⟩

/-- What was buffered comes first, then what the turn took; the rest of what
arrived stays at the descriptor. -/
theorem getKey_took (s : Stdin) (w : Waits) :
    ∃ taken, Took s.setraw (w.first ++ w.more.1 ++ w.more.2) taken (getKey s w) := by
  have hflush : (s.arrive w.before).setraw = s.setraw := rfl
  have hlate (u : Stdin) : Took u (w.more.1 ++ w.more.2) []
      ([], (u.arrive w.more.1).arrive w.more.2) :=
    (u.arrive_took w.more.1).append ((u.arrive w.more.1).arrive_took w.more.2)
  have hfirst := s.setraw.arrive_took w.first
  simp only [getKey, hflush, List.append_assoc]
  split
  · obtain ⟨taken, hread⟩ := (s.setraw.arrive w.first).read_took
    split
    · obtain ⟨taken', hmore⟩ :=
        readMore_took (s.setraw.arrive w.first).read.2 [w.more.1, w.more.2]
      refine ⟨taken ++ taken', ?_⟩
      simpa using (hfirst.append hread).append hmore
    · refine ⟨taken, ?_⟩
      simpa using (hfirst.append hread).append (hlate (s.setraw.arrive w.first).read.2)
  · exact ⟨[], hfirst.append (hlate _)⟩

/-- The arrow keys scale both speeds. -/
def factor (keys : List Key) : ℚ :=
  (11 / 10) ^ keys.count keyUp * (9 / 10) ^ keys.count keyDown

/-- The direction of a key; keys without a binding stand still. -/
def direction (key : Key) : ℤ × ℤ := (moveBindings key).getD (0, 0)

theorem factor_append_singleton (keys : List Key) (key : Key) :
    factor (keys ++ [key]) = factor keys *
      (if key = keyUp then 11 / 10 else if key = keyDown then 9 / 10 else 1) := by
  unfold factor
  rw [List.count_append, List.count_append]
  by_cases hup : key = keyUp
  · subst hup
    have hdown : List.count keyDown [keyUp] = 0 := by decide
    rw [if_pos rfl, hdown, List.count_singleton_self]
    ring
  by_cases hdown : key = keyDown
  · subst hdown
    have hup' : List.count keyUp [keyDown] = 0 := by decide
    rw [if_neg (by decide), if_pos rfl, hup', List.count_singleton_self]
    ring
  · rw [if_neg hup, if_neg hdown, List.count_singleton, List.count_singleton,
      if_neg (by simpa using hup), if_neg (by simpa using hdown)]
    ring

theorem ne_of_moveBindings {key : Key} {d : ℤ × ℤ} (h : moveBindings key = some d) :
    key ≠ keyUp ∧ key ≠ keyDown ∧ key ≠ ctrlC := by
  have hup : moveBindings keyUp = none := by decide
  have hdown : moveBindings keyDown = none := by decide
  have hstop : moveBindings ctrlC = none := by decide
  refine ⟨?_, ?_, ?_⟩
  · rintro rfl
    rw [hup] at h
    cases h
  · rintro rfl
    rw [hdown] at h
    cases h
  · rintro rfl
    rw [hstop] at h
    cases h

/-- What a key does: a message in its direction with the speeds so far, unless
it is a Ctrl-C, and new speeds for an arrow. -/
theorem handleKey_eq (key : Key) (s : Loop) :
    (handleKey key s).2 = (if key = ctrlC then none else
        some ⟨(direction key).1 * s.linearSpeed, (direction key).2 * s.angularSpeed⟩) ∧
      (handleKey key s).1.stdin = s.stdin ∧
      (handleKey key s).1.linearSpeed = s.linearSpeed *
        (if key = keyUp then 11 / 10 else if key = keyDown then 9 / 10 else 1) ∧
      (handleKey key s).1.angularSpeed = s.angularSpeed *
        (if key = keyUp then 11 / 10 else if key = keyDown then 9 / 10 else 1) := by
  unfold handleKey direction
  cases hbinding : moveBindings key with
  | some d =>
      obtain ⟨hup, hdown, hstop⟩ := ne_of_moveBindings hbinding
      simp [hup, hdown, hstop]
  | none =>
      by_cases hspace : key = [' ']
      · subst hspace
        have hup : [' '] ≠ keyUp := by decide
        have hdown : [' '] ≠ keyDown := by decide
        have hstop : [' '] ≠ ctrlC := by decide
        simp [hup, hdown, hstop]
      by_cases hup : key = keyUp
      · subst hup
        have hspace : keyUp ≠ [' '] := by decide
        have hstop : keyUp ≠ ctrlC := by decide
        simp [hspace, hstop]
      by_cases hdown : key = keyDown
      · subst hdown
        have hspace : keyDown ≠ [' '] := by decide
        have hup : keyDown ≠ keyUp := by decide
        have hstop : keyDown ≠ ctrlC := by decide
        simp [hspace, hup, hstop]
      by_cases hstop : key = ctrlC
      · subst hstop
        have hspace : ctrlC ≠ [' '] := by decide
        have hup : ctrlC ≠ keyUp := by decide
        have hdown : ctrlC ≠ keyDown := by decide
        simp [hspace, hup, hdown]
      · simp [hspace, hup, hdown, hstop]

/-- The same of a turn. -/
theorem Loop.turn_eq (s : Loop) (w : Waits) :
    (s.turn w).2 = (if s.key w = ctrlC then none else
        some ⟨(direction (s.key w)).1 * s.linearSpeed,
          (direction (s.key w)).2 * s.angularSpeed⟩) ∧
      (s.turn w).1.stdin = (getKey s.stdin w).2 ∧
      (s.turn w).1.linearSpeed = s.linearSpeed *
        (if s.key w = keyUp then 11 / 10 else if s.key w = keyDown then 9 / 10 else 1) ∧
      (s.turn w).1.angularSpeed = s.angularSpeed *
        (if s.key w = keyUp then 11 / 10 else if s.key w = keyDown then 9 / 10 else 1) :=
  handleKey_eq (s.key w) { s with stdin := (getKey s.stdin w).2 }

/-- The log accounts for the run: turn by turn, what was typed was discarded or
taken; the keys and the buffer are what was taken; every key got its message at the
speeds that the keys before it set. -/
structure Accounts (linear angular : ℚ) (typed : List Char) (s : Loop) (log : Log) : Prop where
  inOrder : ∃ taken : List (List Char), taken.length = log.length ∧
    (List.zipWith (fun e cs => e.discarded ++ cs) log taken).flatten ++ s.stdin.descriptor =
      typed ∧
    (log.map Entry.key).flatten ++ s.stdin.buffer = taken.flatten
  linearSpeed : s.linearSpeed = linear * factor (log.map Entry.key)
  angularSpeed : s.angularSpeed = angular * factor (log.map Entry.key)
  messages : ∀ before e after, log = before ++ e :: after →
    e.message = if e.key = ctrlC then none else
      some ⟨(direction e.key).1 * (linear * factor (before.map Entry.key)),
        (direction e.key).2 * (angular * factor (before.map Entry.key))⟩

theorem Accounts.turn {linear angular : ℚ} {typed : List Char} {s : Loop} {log : Log}
    (h : Accounts linear angular typed s log) (w : Waits) :
    Accounts linear angular (typed ++ w.arrived) (s.turn w).1 (log ++ [s.entry w]) := by
  obtain ⟨hmessage, hstdin, hlinear, hangular⟩ := s.turn_eq w
  have hkeys : (log ++ [s.entry w]).map Entry.key = log.map Entry.key ++ [s.key w] := by
    simp [Loop.entry]
  refine ⟨?_, ?_, ?_, ?_⟩
  · obtain ⟨taken, hlength, htyped, htaken⟩ := h.inOrder
    obtain ⟨new, hdescriptor, hbuffer⟩ := getKey_took s.stdin w
    refine ⟨taken ++ [new], by simp [hlength], ?_, ?_⟩
    · have hnew : new ++ (getKey s.stdin w).2.descriptor = w.first ++ w.more.1 ++ w.more.2 :=
        hdescriptor.symm
      have hdiscarded : (s.entry w).discarded = s.stdin.descriptor ++ w.before := rfl
      rw [List.zipWith_append hlength.symm, List.flatten_append, hstdin, ← htyped, Waits.arrived,
        ← hnew]
      simp [hdiscarded]
    · have hkey : s.stdin.buffer ++ new = s.key w ++ (getKey s.stdin w).2.buffer := hbuffer
      rw [hkeys, hstdin]
      calc (log.map Entry.key ++ [s.key w]).flatten ++ (getKey s.stdin w).2.buffer
          = (log.map Entry.key).flatten ++ (s.key w ++ (getKey s.stdin w).2.buffer) := by
            simp
        _ = (taken ++ [new]).flatten := by
            rw [← hkey, ← List.append_assoc, htaken]
            simp
  · rw [hlinear, hkeys, factor_append_singleton, ← mul_assoc, ← h.linearSpeed]
  · rw [hangular, hkeys, factor_append_singleton, ← mul_assoc, ← h.angularSpeed]
  · intro before e after hsplit
    rcases List.eq_nil_or_concat after with rfl | ⟨after', last, rfl⟩
    · obtain ⟨rfl, hlast⟩ := List.append_inj' hsplit rfl
      obtain rfl := List.singleton_inj.mp hlast
      rw [h.linearSpeed, h.angularSpeed] at hmessage
      exact hmessage
    · rw [List.concat_eq_append, ← List.cons_append, ← List.append_assoc] at hsplit
      exact h.messages before e after' (List.append_inj' hsplit rfl).1

/-- Every run of the loop accounts for what was typed: what a turn finds at the
descriptor is lost, and no other key is lost, handled twice or out of turn. -/
theorem keys_in_order (linear angular : ℚ) (ws : List Waits) (s : Loop) (log : Log)
    (hrun : run logged ({ linearSpeed := linear, angularSpeed := angular }, []) ws =
      some (s, log)) :
    Accounts linear angular (ws.flatMap Waits.arrived) s log := by
  have hgeneral : ∀ (ws : List Waits) (typed : List Char) (s₀ : Loop) (log₀ : Log),
      Accounts linear angular typed s₀ log₀ → run logged (s₀, log₀) ws = some (s, log) →
        Accounts linear angular (typed ++ ws.flatMap Waits.arrived) s log := by
    intro ws
    induction ws with
    | nil =>
        intro typed s₀ log₀ h hrun
        obtain ⟨rfl, rfl⟩ := Prod.mk.inj (Option.some.inj hrun)
        simpa using h
    | cons w ws ih =>
        intro typed s₀ log₀ h hrun
        obtain ⟨⟨s₁, log₁⟩, hstep, hrest⟩ := Option.bind_eq_some_iff.mp hrun
        obtain ⟨hturn, rfl⟩ := observe_eq_some hstep
        unfold step at hturn
        split at hturn
        · cases hturn
        obtain rfl := Option.some.inj hturn
        have hnext := ih (typed ++ w.arrived) _ _ (h.turn w) hrest
        simpa using hnext
  have hstart : Accounts linear angular [] { linearSpeed := linear, angularSpeed := angular } [] :=
    ⟨⟨[], rfl, rfl, rfl⟩, by simp [factor], by simp [factor], by simp⟩
  simpa using hgeneral ws [] _ _ hstart hrun

/-- An arrow in two pieces and the key behind it; the way ahead is lost in the
sleep. -/
theorem keys_in_order_arrow :
    let ws : List Waits :=
      [{ first := [esc], more := (['[', 'A'], ['i']) }, { before := ['i'] }, { first := ['k'] },
        { first := ctrlC }]
    let s : Loop := { linearSpeed := 33 / 100, angularSpeed := 33 / 100, stopped := true }
    Accounts (3 / 10) (3 / 10) (ws.flatMap Waits.arrived) s
      [⟨[], keyUp, some ⟨0, 0⟩⟩, ⟨['i', 'i'], [], some ⟨0, 0⟩⟩, ⟨[], ['k'], some ⟨0, 0⟩⟩,
        ⟨[], ctrlC, none⟩] :=
  keys_in_order (3 / 10) (3 / 10) _ _ _ (by decide +kernel)

end PolishingRobot.Teleop
