import Mathlib.Logic.Function.Basic
import Mathlib.Data.Option.Basic
import Mathlib.Tactic.Cases
import Mathlib.Tactic.SplitIfs
import PolishingRobot.Lists.Splits
import PolishingRobot.Runs.LabelledRuns

/-!
# One local client for each controller

Before it connects, a node locks a file that is named after the endpoint with every
other character than letters and digits replaced. The address is an IPv4 address in
dotted decimals, which no two texts denote, and for such hosts no two endpoints share
a file. So in every interleaving of nodes that start, connect, end and crash at most
one is connected to a controller.
-/

namespace PolishingRobot.Safety

open PolishingRobot.Lists (split_last)
open Runs

abbrev Text := List Char

/-- What stands for a character in the name of the lock file. The source maps
bytes, of which an ASCII character is one. -/
def lockChar (c : Char) : Char := if c.isAlphanum then c else '_'

def deviceLockPath (host : Text) (port : ℕ) : Text :=
  "/tmp/safety_io_driver_".toList ++ (host ++ '_' :: Nat.toDigits 10 port).map lockChar ++
    ".lock".toList

/-- The octets that `inet_pton` has read, and the one that it is reading. -/
structure Octets where
  done : List ℕ := []
  current : Option ℕ := none

/-- One character of `inet_pton`: an octet has no leading zero, and there are four. -/
def Octets.read (o : Octets) (c : Char) : Option Octets :=
  if c.isDigit then
    match o.current with
    | none => if o.done.length < 4 then some { o with current := some (c.toNat - 48) } else none
    | some n =>
        if n = 0 ∨ 255 < 10 * n + (c.toNat - 48) then none
        else some { o with current := some (10 * n + (c.toNat - 48)) }
  else if c = '.' then
    match o.current with
    | none => none
    | some n => if o.done.length < 3 then some { done := o.done ++ [n] } else none
  else none

/-- The address of an IPv4 host in dotted decimals. -/
def inetPton (host : Text) : Option (List ℕ) :=
  (host.foldlM Octets.read {}).bind fun o => o.current.bind fun n =>
    if o.done.length = 3 then some (o.done ++ [n]) else none

/-- The text that has been read. -/
def Octets.text (o : Octets) : Text :=
  o.done.flatMap (fun n => Nat.toDigits 10 n ++ ['.']) ++ o.current.elim [] (Nat.toDigits 10)

variable {o o' : Octets} {c : Char} {host host' : Text} {port port' : ℕ} {address : List ℕ}

theorem digit_eq (h : c.isDigit = true) : c.toNat - 48 < 10 ∧ Nat.digitChar (c.toNat - 48) = c := by
  obtain ⟨hlow, hhigh⟩ := Char.isDigit_iff_toNat.mp h
  have hlow : 48 ≤ c.toNat := hlow
  have hhigh : c.toNat ≤ 57 := hhigh
  have hlt : c.toNat - 48 < 10 := by omega
  refine ⟨hlt, ?_⟩
  apply Char.toNat_inj.mp
  rw [Nat.toNat_digitChar_of_lt_ten hlt]
  omega

/-- What a character does: it begins an octet, extends it, or ends it. -/
theorem Octets.read_cases (h : o.read c = some o') :
    c.isDigit = true ∧ o.current = none ∧ o' = { o with current := some (c.toNat - 48) } ∨
      c.isDigit = true ∧ (∃ n, o.current = some n ∧ 0 < n ∧
        o' = { o with current := some (10 * n + (c.toNat - 48)) }) ∨
      c = '.' ∧ ∃ n, o.current = some n ∧ o' = { done := o.done ++ [n] } := by
  unfold read at h
  by_cases hdigit : c.isDigit = true
  · rw [if_pos hdigit] at h
    cases hcurrent : o.current with
    | none =>
        simp only [hcurrent] at h
        obtain ⟨-, h⟩ := Option.ite_none_right_eq_some.mp h
        exact .inl ⟨hdigit, rfl, (Option.some.inj h).symm⟩
    | some n =>
        simp only [hcurrent] at h
        obtain ⟨hvalid, h⟩ := Option.ite_none_left_eq_some.mp h
        have hpos : 0 < n := by omega
        exact .inr (.inl ⟨hdigit, n, rfl, hpos, (Option.some.inj h).symm⟩)
  · rw [if_neg hdigit] at h
    obtain ⟨hdot, h⟩ := Option.ite_none_right_eq_some.mp h
    cases hcurrent : o.current with
    | none =>
        rw [hcurrent] at h
        cases h
    | some n =>
        simp only [hcurrent] at h
        obtain ⟨-, h⟩ := Option.ite_none_right_eq_some.mp h
        exact .inr (.inr ⟨hdot, n, rfl, (Option.some.inj h).symm⟩)

/-- The octets give back the text. -/
theorem Octets.text_read (h : o.read c = some o') : o'.text = o.text ++ [c] := by
  rcases read_cases h with ⟨hdigit, hcurrent, rfl⟩ | ⟨hdigit, n, hcurrent, hpos, rfl⟩ |
    ⟨rfl, n, hcurrent, rfl⟩
  · obtain ⟨hlt, hchar⟩ := digit_eq hdigit
    have hone : Nat.toDigits 10 (c.toNat - 48) = [c] := by
      rw [Nat.toDigits_of_lt_base hlt, hchar]
    simp [text, hcurrent, hone]
  · obtain ⟨hlt, hchar⟩ := digit_eq hdigit
    have hone : Nat.toDigits 10 (c.toNat - 48) = [c] := by
      rw [Nat.toDigits_of_lt_base hlt, hchar]
    have hdigits := Nat.toDigits_append_toDigits (b := 10) (by decide) hpos hlt
    simp [text, hcurrent, ← hdigits, hone]
  · simp [text, hcurrent]

theorem Octets.text_foldlM (h : host.foldlM read o = some o') : o'.text = o.text ++ host := by
  induction host generalizing o with
  | nil =>
      obtain rfl : o = o' := Option.some.inj h
      rw [List.append_nil]
  | cons c host ih =>
      rw [List.foldlM_cons] at h
      obtain ⟨o₁, h₁, hrest⟩ := Option.bind_eq_some_iff.mp h
      rw [ih hrest, text_read h₁, List.append_assoc, List.singleton_append]

/-- An address is denoted by one text. -/
theorem host_of_inetPton (h : inetPton host = some address) :
    host = Octets.text ⟨address.dropLast, address.getLast?⟩ := by
  obtain ⟨o, hread, h⟩ := Option.bind_eq_some_iff.mp h
  obtain ⟨n, hn, h⟩ := Option.bind_eq_some_iff.mp h
  obtain ⟨-, h⟩ := Option.ite_none_right_eq_some.mp h
  obtain rfl := Option.some.inj h
  have htext := Octets.text_foldlM hread
  rw [List.dropLast_concat, List.getLast?_concat, ← hn, htext]
  rfl

theorem inetPton_injective (h : inetPton host = some address) (h' : inetPton host' = some address) :
    host = host' :=
  (host_of_inetPton h).trans (host_of_inetPton h').symm

theorem Octets.read_char (h : o.read c = some o') : c.isDigit = true ∨ c = '.' := by
  rcases read_cases h with ⟨hdigit, -⟩ | ⟨hdigit, -⟩ | ⟨hdot, -⟩
  · exact .inl hdigit
  · exact .inl hdigit
  · exact .inr hdot

/-- The text of an address has digits and dots alone. -/
theorem chars_of_inetPton (h : inetPton host = some address) :
    ∀ c ∈ host, c.isDigit = true ∨ c = '.' := by
  obtain ⟨o, hread, -⟩ := Option.bind_eq_some_iff.mp h
  clear h
  generalize ({} : Octets) = o₀ at hread
  induction host generalizing o₀ with
  | nil => simp
  | cons c host ih =>
      rw [List.foldlM_cons] at hread
      obtain ⟨o₁, h₁, hrest⟩ := Option.bind_eq_some_iff.mp hread
      intro d hd
      rcases List.mem_cons.mp hd with rfl | hd
      · exact Octets.read_char h₁
      · exact ih o₁ hrest d hd

/-- The character that a host had in its place. -/
def hostChar (c : Char) : Char := if c = '_' then '.' else c

theorem hostChar_lockChar (h : c.isDigit = true ∨ c = '.') : hostChar (lockChar c) = c := by
  rcases h with h | rfl
  · have halnum : c.isAlphanum = true := by simp [Char.isAlphanum, h]
    have hne : c ≠ '_' := by
      rintro rfl
      exact absurd h (by decide)
    rw [lockChar, if_pos halnum, hostChar, if_neg hne]
  · rfl

theorem lockChar_digit (h : c.isDigit = true) : lockChar c = c := by
  have halnum : c.isAlphanum = true := by simp [Char.isAlphanum, h]
  exact if_pos halnum

theorem map_lockChar_toDigits (port : ℕ) :
    (Nat.toDigits 10 port).map lockChar = Nat.toDigits 10 port := by
  apply (List.map_congr_left fun c hc => ?_).trans (List.map_id _)
  exact lockChar_digit (Nat.isDigit_of_mem_toDigits (by decide) (by decide) hc)

theorem toDigits_injective (h : Nat.toDigits 10 port = Nat.toDigits 10 port') : port = port' := by
  have hback : ∀ n, Nat.ofDigitChars 10 (Nat.toDigits 10 n) 0 = n :=
    fun n => Nat.ofDigitChars_toDigits (by decide) (by decide)
  rw [← hback port, h, hback port']

/-- Hosts with an address share a lock file with the same port alone. -/
theorem deviceLockPath_injective (hhost : (inetPton host).isSome)
    (hhost' : (inetPton host').isSome) (h : deviceLockPath host port = deviceLockPath host' port') :
    host = host' ∧ port = port' := by
  obtain ⟨address, haddress⟩ := Option.isSome_iff_exists.mp hhost
  obtain ⟨address', haddress'⟩ := Option.isSome_iff_exists.mp hhost'
  have hchars := List.append_cancel_left (List.append_cancel_right h)
  rw [List.map_append, List.map_append, List.map_cons, List.map_cons, map_lockChar_toDigits,
    map_lockChar_toDigits] at hchars
  -- The last underscore stands in front of the port.
  have hlast : ∀ n, ∀ c ∈ Nat.toDigits 10 n, ¬ c = '_' := by
    rintro n c hc rfl
    exact Nat.underscore_not_in_toDigits hc
  obtain ⟨hhosts, -, hports⟩ :=
    split_last (p := (· = '_')) hchars rfl rfl (hlast port) (hlast port')
  have hback : ∀ {host address}, inetPton host = some address →
      (host.map lockChar).map hostChar = host := by
    intro host address hvalid
    rw [List.map_map]
    apply (List.map_congr_left fun c hc => ?_).trans (List.map_id _)
    exact hostChar_lockChar (chars_of_inetPton hvalid c hc)
  refine ⟨?_, toDigits_injective hports⟩
  rw [← hback haddress, hhosts, hback haddress']

/-- Where a node stands: before it opens the lock file, before it locks it, polling with
its socket open or not, and in its destructor with the lock and then without. -/
inductive Stage where
  | opening
  | locking
  | polling (connected : Bool)
  | closed
  | unlocked
  deriving DecidableEq, Repr

/-- A node with the endpoint of its parameters. -/
structure LockingNode where
  host : Text
  port : ℕ
  stage : Stage
  deriving DecidableEq, Repr

namespace LockingNode

variable (n : LockingNode)

def path : Text := deviceLockPath n.host n.port

def Holds : Prop := n.stage = .closed ∨ ∃ connected, n.stage = .polling connected

def Connected : Prop := n.stage = .polling true

end LockingNode

/-- The nodes by their process, and which process has the lock of a file. -/
structure LockWorld where
  nodes : ℕ → Option LockingNode
  holder : Text → Option ℕ

inductive LockLabel where
  | start (host : Text) (port : ℕ)
  /-- `open` of the lock file; when it fails the constructor throws. -/
  | openFile (ok : Bool)
  /-- `flock` without waiting; when it fails the constructor throws. -/
  | lock
  /-- The client opens its socket, or tries to. -/
  | connect (ok : Bool)
  | disconnect
  /-- The destructor: the socket is closed, then the lock is given back, then its file
  is closed. -/
  | close
  | unlock
  | finish
  /-- The process ends at any point, and with it what it has open. -/
  | crash
  deriving DecidableEq, Repr

namespace LockWorld

variable (w : LockWorld)

def put (pid : ℕ) (n : Option LockingNode) : LockWorld :=
  { w with nodes := Function.update w.nodes pid n }

/-- The file of the node is locked by this process, or by none. -/
def relock (n : LockingNode) (pid : Option ℕ) : LockWorld :=
  { w with holder := Function.update w.holder n.path pid }

@[simp] theorem put_nodes (pid : ℕ) (n : Option LockingNode) :
    (w.put pid n).nodes = Function.update w.nodes pid n := rfl

@[simp] theorem put_holder (pid : ℕ) (n : Option LockingNode) : (w.put pid n).holder = w.holder :=
  rfl

@[simp] theorem relock_nodes (n : LockingNode) (pid : Option ℕ) :
    (w.relock n pid).nodes = w.nodes := rfl

@[simp] theorem relock_holder (n : LockingNode) (pid : Option ℕ) :
    (w.relock n pid).holder = Function.update w.holder n.path pid := rfl

end LockWorld

/-- What a node does at a label; `none` if it cannot. -/
def nodeStep (w : LockWorld) (pid : ℕ) (n : LockingNode) : LockLabel → Option LockWorld
  | .start _ _ => none
  | .openFile ok =>
      if n.stage = .opening then
        some (w.put pid (if ok then some { n with stage := .locking } else none))
      else none
  | .lock =>
      if n.stage = .locking then
        if w.holder n.path = none then
          some ((w.relock n (some pid)).put pid (some { n with stage := .polling false }))
        else some (w.put pid none)
      else none
  | .connect ok =>
      if n.stage = .polling false then
        some (w.put pid (some { n with stage := .polling (ok && (inetPton n.host).isSome) }))
      else none
  | .disconnect =>
      match n.stage with
      | .polling _ => some (w.put pid (some { n with stage := .polling false }))
      | _ => none
  | .close =>
      match n.stage with
      | .polling _ => some (w.put pid (some { n with stage := .closed }))
      | _ => none
  | .unlock =>
      if n.stage = .closed then
        some ((w.relock n none).put pid (some { n with stage := .unlocked }))
      else none
  | .finish => if n.stage = .unlocked then some (w.put pid none) else none
  | .crash =>
      match n.stage with
      | .polling _ | .closed => some ((w.relock n none).put pid none)
      | _ => some (w.put pid none)

/-- A step of one process. -/
def lockStep (w : LockWorld) : ℕ × LockLabel → Option LockWorld
  | (pid, l) =>
      match w.nodes pid, l with
      | none, .start host port =>
          if 1 ≤ port ∧ port ≤ 65535 then some (w.put pid (some ⟨host, port, .opening⟩)) else none
      | none, _ => none
      | some n, l => nodeStep w pid n l

def noNodes : LockWorld := ⟨fun _ => none, fun _ => none⟩

/-- A file is locked by the one node that holds it, and only hosts with an address are
connected. -/
structure LocksAgree (w : LockWorld) : Prop where
  holder : ∀ path pid, w.holder path = some pid ↔
    ∃ n, w.nodes pid = some n ∧ n.Holds ∧ n.path = path
  address : ∀ pid n, w.nodes pid = some n → n.Connected → (inetPton n.host).isSome

section Steps

variable {w w' : LockWorld} {pid : ℕ} {n : LockingNode} {n' : Option LockingNode}

/-- A process that has a lock in neither state changes no lock. -/
theorem LocksAgree.put (h : LocksAgree w)
    (hsame : ∀ path, (∃ m, n' = some m ∧ m.Holds ∧ m.path = path) ↔
      ∃ m, w.nodes pid = some m ∧ m.Holds ∧ m.path = path)
    (haddress : ∀ m, n' = some m → m.Connected → (inetPton m.host).isSome) :
    LocksAgree (w.put pid n') where
  holder := by
    intro path q
    rw [LockWorld.put_holder, LockWorld.put_nodes, h.holder]
    by_cases hq : q = pid
    · subst hq
      rw [Function.update_self, hsame]
    · rw [Function.update_of_ne hq]
  address := by
    intro q m hm
    by_cases hq : q = pid
    · subst hq
      rw [LockWorld.put_nodes, Function.update_self] at hm
      exact haddress m hm
    · rw [LockWorld.put_nodes, Function.update_of_ne hq] at hm
      exact h.address q m hm

/-- A process without a lock takes a free one. -/
theorem LocksAgree.acquire (h : LocksAgree w) (hn : w.nodes pid = some n) (hidle : ¬ n.Holds)
    (hfree : w.holder n.path = none) :
    LocksAgree ((w.relock n (some pid)).put pid (some { n with stage := .polling false })) where
  holder := by
    intro path q
    simp only [LockWorld.put_holder, LockWorld.relock_holder, LockWorld.put_nodes,
      LockWorld.relock_nodes]
    by_cases hq : q = pid
    · subst hq
      rw [Function.update_self]
      by_cases hpath : path = n.path
      · subst hpath
        rw [Function.update_self]
        exact iff_of_true rfl ⟨_, rfl, .inr ⟨false, rfl⟩, rfl⟩
      · rw [Function.update_of_ne hpath, h.holder]
        apply iff_of_false
        · rintro ⟨m, hm, hholds, -⟩
          obtain rfl : n = m := Option.some.inj (hn.symm.trans hm)
          exact hidle hholds
        · rintro ⟨m, hm, -, rfl⟩
          obtain rfl := Option.some.inj hm
          exact hpath rfl
    · rw [Function.update_of_ne hq, ← h.holder]
      by_cases hpath : path = n.path
      · subst hpath
        rw [Function.update_self, hfree]
        exact iff_of_false (fun h => hq (Option.some.inj h).symm) nofun
      · rw [Function.update_of_ne hpath]
  address := by
    intro q m hm hconnected
    rw [LockWorld.put_nodes, LockWorld.relock_nodes] at hm
    by_cases hq : q = pid
    · subst hq
      rw [Function.update_self] at hm
      obtain rfl := Option.some.inj hm
      cases hconnected
    · rw [Function.update_of_ne hq] at hm
      exact h.address q m hm hconnected

/-- A process gives its lock back. -/
theorem LocksAgree.release (h : LocksAgree w) (hn : w.nodes pid = some n) (hholds : n.Holds)
    (hafter : ∀ m, n' = some m → ¬ m.Holds ∧ ¬ m.Connected) :
    LocksAgree ((w.relock n none).put pid n') where
  holder := by
    intro path q
    simp only [LockWorld.put_holder, LockWorld.relock_holder, LockWorld.put_nodes,
      LockWorld.relock_nodes]
    by_cases hq : q = pid
    · subst hq
      rw [Function.update_self]
      apply iff_of_false
      · intro hlocked
        by_cases hpath : path = n.path
        · rw [hpath, Function.update_self] at hlocked
          cases hlocked
        · rw [Function.update_of_ne hpath, h.holder] at hlocked
          obtain ⟨m, hm, -, hsame⟩ := hlocked
          obtain rfl : n = m := Option.some.inj (hn.symm.trans hm)
          exact hpath hsame.symm
      · rintro ⟨m, hm, hholds', -⟩
        exact (hafter m hm).1 hholds'
    · rw [Function.update_of_ne hq, ← h.holder]
      by_cases hpath : path = n.path
      · subst hpath
        have hown : w.holder n.path = some pid := (h.holder _ _).mpr ⟨n, hn, hholds, rfl⟩
        rw [Function.update_self, hown]
        exact iff_of_false nofun fun h => hq (Option.some.inj h).symm
      · rw [Function.update_of_ne hpath]
  address := by
    intro q m hm hconnected
    rw [LockWorld.put_nodes, LockWorld.relock_nodes] at hm
    by_cases hq : q = pid
    · subst hq
      rw [Function.update_self] at hm
      exact absurd hconnected (hafter m hm).2
    · rw [Function.update_of_ne hq] at hm
      exact h.address q m hm hconnected

theorem not_holds_of_stage {n : LockingNode} (h : n.stage = .opening ∨ n.stage = .locking ∨
    n.stage = .unlocked) : ¬ n.Holds := by
  rintro (hclosed | ⟨b, hpolling⟩)
  · rcases h with h | h | h <;> rw [h] at hclosed <;> cases hclosed
  · rcases h with h | h | h <;> rw [h] at hpolling <;> cases hpolling

/-- A node that has no lock before and after a step. -/
theorem LocksAgree.put_idle (h : LocksAgree w) (hbefore : ∀ m, w.nodes pid = some m → ¬ m.Holds)
    (hafter : ∀ m, n' = some m → ¬ m.Holds) : LocksAgree (w.put pid n') := by
  apply h.put
  · intro path
    apply iff_of_false
    · rintro ⟨m, hm, hholds, -⟩
      exact hafter m hm hholds
    · rintro ⟨m, hm, hholds, -⟩
      exact hbefore m hm hholds
  · intro m hm hconnected
    exact absurd (.inr ⟨true, hconnected⟩) (hafter m hm)

/-- A node that keeps its lock. -/
theorem LocksAgree.put_holding (h : LocksAgree w) (hn : w.nodes pid = some n) (hholds : n.Holds)
    {stage : Stage} (hafter : ({ n with stage := stage } : LockingNode).Holds)
    (haddress : stage = .polling true → (inetPton n.host).isSome) :
    LocksAgree (w.put pid (some { n with stage := stage })) := by
  apply h.put
  · intro path
    constructor
    · rintro ⟨m, hm, -, rfl⟩
      obtain rfl := Option.some.inj hm
      exact ⟨n, hn, hholds, rfl⟩
    · rintro ⟨m, hm, -, rfl⟩
      obtain rfl : n = m := Option.some.inj (hn.symm.trans hm)
      exact ⟨_, rfl, hafter, rfl⟩
  · intro m hm hconnected
    obtain rfl := Option.some.inj hm
    exact haddress hconnected

theorem nodeStep_locksAgree (h : LocksAgree w) (hn : w.nodes pid = some n) {l : LockLabel}
    (hstep : nodeStep w pid n l = some w') : LocksAgree w' := by
  have hown : ∀ m, w.nodes pid = some m → m = n := fun m hm => Option.some.inj (hm.symm.trans hn)
  cases l with
  | start host port => cases hstep
  | openFile ok =>
      obtain ⟨hstage, hstep⟩ := Option.ite_none_right_eq_some.mp hstep
      obtain rfl := Option.some.inj hstep
      apply h.put_idle
      · intro m hm
        rw [hown m hm]
        exact not_holds_of_stage (.inl hstage)
      · intro m hm
        obtain ⟨-, hm⟩ := Option.ite_none_right_eq_some.mp hm
        obtain rfl := Option.some.inj hm
        exact not_holds_of_stage (.inr (.inl rfl))
  | lock =>
      obtain ⟨hstage, hstep⟩ := Option.ite_none_right_eq_some.mp hstep
      have hidle : ¬ n.Holds := not_holds_of_stage (.inr (.inl hstage))
      by_cases hfree : w.holder n.path = none
      · rw [if_pos hfree] at hstep
        obtain rfl := Option.some.inj hstep
        exact h.acquire hn hidle hfree
      · rw [if_neg hfree] at hstep
        obtain rfl := Option.some.inj hstep
        apply h.put_idle
        · intro m hm
          rwa [hown m hm]
        · exact nofun
  | connect ok =>
      obtain ⟨hstage, hstep⟩ := Option.ite_none_right_eq_some.mp hstep
      obtain rfl := Option.some.inj hstep
      apply h.put_holding hn (.inr ⟨false, hstage⟩) (.inr ⟨_, rfl⟩)
      intro hconnected
      exact (Bool.and_eq_true_iff.mp (Stage.polling.inj hconnected)).2
  | disconnect =>
      cases hstage : n.stage with
      | polling connected =>
          simp only [nodeStep, hstage, Option.some.injEq] at hstep
          subst hstep
          exact h.put_holding hn (.inr ⟨_, hstage⟩) (.inr ⟨_, rfl⟩) nofun
      | _ => simp [nodeStep, hstage] at hstep
  | close =>
      cases hstage : n.stage with
      | polling connected =>
          simp only [nodeStep, hstage, Option.some.injEq] at hstep
          subst hstep
          exact h.put_holding hn (.inr ⟨_, hstage⟩) (.inl rfl) nofun
      | _ => simp [nodeStep, hstage] at hstep
  | unlock =>
      obtain ⟨hstage, hstep⟩ := Option.ite_none_right_eq_some.mp hstep
      obtain rfl := Option.some.inj hstep
      apply h.release hn (.inl hstage)
      intro m hm
      obtain rfl := Option.some.inj hm
      exact ⟨not_holds_of_stage (.inr (.inr rfl)), nofun⟩
  | finish =>
      obtain ⟨hstage, hstep⟩ := Option.ite_none_right_eq_some.mp hstep
      obtain rfl := Option.some.inj hstep
      apply h.put_idle
      · intro m hm
        rw [hown m hm]
        exact not_holds_of_stage (.inr (.inr hstage))
      · exact nofun
  | crash =>
      cases hstage : n.stage with
      | polling connected =>
          simp only [nodeStep, hstage, Option.some.injEq] at hstep
          subst hstep
          exact h.release hn (.inr ⟨_, hstage⟩) nofun
      | closed =>
          simp only [nodeStep, hstage, Option.some.injEq] at hstep
          subst hstep
          exact h.release hn (.inl hstage) nofun
      | opening | locking | unlocked =>
          simp only [nodeStep, hstage, Option.some.injEq] at hstep
          subst hstep
          apply h.put_idle
          · intro m hm
            rw [hown m hm]
            exact not_holds_of_stage (by simp [hstage])
          · exact nofun

theorem lockStep_locksAgree (w : LockWorld) (l : ℕ × LockLabel) (w' : LockWorld)
    (h : LocksAgree w) (hstep : lockStep w l = some w') : LocksAgree w' := by
  obtain ⟨pid, l⟩ := l
  unfold lockStep at hstep
  cases hn : w.nodes pid with
  | some n =>
      simp only [hn] at hstep
      exact nodeStep_locksAgree h hn hstep
  | none =>
      cases l with
      | start host port =>
          simp only [hn] at hstep
          obtain ⟨-, hstep⟩ := Option.ite_none_right_eq_some.mp hstep
          obtain rfl := Option.some.inj hstep
          apply h.put_idle
          · intro m hm
            rw [hn] at hm
            cases hm
          · intro m hm
            obtain rfl := Option.some.inj hm
            exact not_holds_of_stage (.inl rfl)
      | _ => simp [hn] at hstep

theorem noNodes_locksAgree : LocksAgree noNodes where
  holder := fun _ _ => iff_of_false nofun fun ⟨_, h, _⟩ => nomatch h
  address := fun _ _ h => nomatch h

theorem locksAgree_of_reachable (h : Reachable lockStep noNodes w) : LocksAgree w :=
  invariant_of_reachable lockStep_locksAgree noNodes_locksAgree h

end Steps

/-- A node that polls its controller, and a second one for the same endpoint. -/
def twoNodes : List (ℕ × LockLabel) :=
  let host := "192.168.100.103".toList
  [(1, .start host 502), (1, .openFile true), (1, .lock), (1, .connect true), (2, .start host 502),
    (2, .openFile true)]

/-- The second node is refused. -/
example : ((run lockStep noNodes (twoNodes ++ [(2, .lock)])).map fun w =>
    (w.nodes 1, w.nodes 2)) =
      some (some ⟨"192.168.100.103".toList, 502, .polling true⟩, none) := by
  decide +kernel

end PolishingRobot.Safety
