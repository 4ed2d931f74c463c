import Mathlib.Tactic.Linarith
import PolishingRobot.Motor.SpeedRecord

/-!
# Recent targets

Every target stands for a message accepted at most `cmd_timeout_sec_ + T`
before. Within one instant a callback, a watchdog and a sending may be half
done; what holds then is said for each of their program counters.
-/

namespace PolishingRobot.Motor

open Runs

variable {c : Config} {T : Time} {σ : Shared} {s : State} {l : Label} {b : Body} {n : NodeId}

/-- The drive's target, if there is one, is commanded since `since`. -/
def Recent (c : Config) (r : Record) (σ : Shared) (n : NodeId) (since : Time) : Prop :=
  σ.drives.target n ≠ 0 → BackedSince c r n (σ.drives.target n) since

/-- The constructor has not yet started the spinner. -/
def Body.beforeSpin : Body → Bool
  | .main (.configure _) | .main (.configuring _ _ _) | .main .startSync => true
  | .main .subscribe | .main (.update _) | .main .spin => true
  | _ => false

/-- What a program counter says about the speeds. -/
def LocalFresh (c : Config) (T : Time) (σ : Shared) (r : Record) : Body → Prop
  | .cmd (.stamp data) => c.driveMotorIds.length ≤ data.length
  | .cmd (.load data) => c.driveMotorIds.length ≤ data.length ∧ σ.lastCmdTime ≤ σ.now
  | .cmd (.store rest) => σ.lastCmdTime ≤ σ.now ∧
      (∀ p ∈ rest, BackedSince c r p.1 (mounted p.1 p.2) σ.now) ∧
      ∀ n, n ∉ rest.map Prod.fst → Recent c r σ n σ.now
  | .control (.watchdogZero rest) =>
      ∀ n, n ∉ rest → Recent c r σ n (σ.now - c.cmdTimeoutSec)
  | .sync (.send n rpm _) =>
      rpm ≠ 0 → BackedSince c r n rpm (σ.now - (c.cmdTimeoutSec + T))
  | .main pc => (Body.main pc).beforeSpin = true → r.lastTick = none
  | _ => True

def mainToken (t : Thread) : Nat := if t.body.kind = .main then 1 else 0

structure Fresh (c : Config) (T : Time) (s : State) (r : Record) : Prop where
  mains : tokens mainToken s.threads ≤ 1
  tick_past : ∀ tick ∈ r.lastTick, tick ≤ s.shared.now
  idle : r.lastTick = none → s.shared.spinning = false ∧ anyOf s.threads .cmd = false ∧
    ∀ n, s.shared.drives.target n = 0
  bounded : ∀ n, Recent c r s.shared n (s.shared.now - (c.cmdTimeoutSec + T))
  /-- No message has been stamped since the one behind a target. -/
  latest : (∀ t ∈ s.threads, t.body.stamped = false) →
    ∀ n, Recent c r s.shared n s.shared.lastCmdTime
  /-- The last watchdog has left no older target. -/
  watched : (∀ t ∈ s.threads, t.body.stamped = false ∧ t.body.inWatchdog = false) →
    ∀ tick ∈ r.lastTick, ∀ n, Recent c r s.shared n (tick - c.cmdTimeoutSec)
  local_fresh : ∀ t ∈ s.threads, LocalFresh c T s.shared r t.body

theorem start_fresh (c : Config) (T now : Time) : Fresh c T (start c now) {} where
  mains := by simp [start, mainToken, Body.kind]
  tick_past := by rintro tick ⟨⟩
  idle _ := ⟨rfl, by simp [start, anyOf, Body.kind], fun _ => rfl⟩
  bounded _ h := absurd rfl h
  latest _ _ h := absurd rfl h
  watched _ := by rintro tick ⟨⟩
  local_fresh := by
    intro t ht
    obtain rfl := List.mem_singleton.mp ht
    exact fun _ => rfl

theorem Body.not_halfDone (h : b.halfDone = false) :
    b.stamped = false ∧ b.inWatchdog = false := by
  cases b with
  | cmd pc => cases h
  | control pc => exact ⟨rfl, by cases pc <;> first | rfl | cases h⟩
  | _ => exact ⟨rfl, rfl⟩

/-- Between half-done pieces of work, program counters say nothing about the time. -/
theorem LocalFresh.delay {r : Record} {σ' : Shared} (h : LocalFresh c T σ r b)
    (hb : b.halfDone = false) : LocalFresh c T σ' r b := by
  cases b with
  | main pc => exact h
  | sync pc =>
      cases pc with
      | send n rpm rest => cases hb
      | _ => trivial
  | cmd pc => cases hb
  | control pc =>
      cases pc with
      | watchdogZero rest => cases hb
      | _ => trivial
  | _ => trivial

/-- A change that keeps the clock and lets targets only become recent keeps
what a program counter says. -/
theorem LocalFresh.carry {r r' : Record} {σ' : Shared} (h : LocalFresh c T σ r b)
    (htimeout : 0 ≤ c.cmdTimeoutSec) (hnow : σ'.now = σ.now)
    (hcmd : σ.lastCmdTime ≤ σ.now → σ'.lastCmdTime ≤ σ.now)
    (hacc : ∀ e ∈ r.accepted, e ∈ r'.accepted)
    (hrecent : ∀ n since, since ≤ σ.now → Recent c r σ n since → Recent c r' σ' n since)
    (htick : b.beforeSpin = true → r.lastTick = none → r'.lastTick = none) :
    LocalFresh c T σ' r' b := by
  cases b with
  | main pc => exact fun hbefore => htick hbefore (h hbefore)
  | sync pc =>
      cases pc with
      | send n rpm rest =>
          intro hrpm
          rw [hnow]
          exact (h hrpm).mono hacc le_rfl
      | _ => trivial
  | cmd pc =>
      cases pc with
      | check data => trivial
      | stamp data => exact h
      | load data =>
          refine ⟨h.1, ?_⟩
          rw [hnow]
          exact hcmd h.2
      | store rest =>
          obtain ⟨hle, hrest, hdone⟩ := h
          refine ⟨?_, ?_, ?_⟩
          · rw [hnow]
            exact hcmd hle
          · intro p hp
            rw [hnow]
            exact (hrest p hp).mono hacc le_rfl
          · intro n hn
            rw [hnow]
            exact hrecent n _ le_rfl (hdone n hn)
  | control pc =>
      cases pc with
      | watchdogZero rest =>
          intro n hn
          rw [hnow]
          exact hrecent n _ (by linarith) (h n hn)
      | _ => trivial
  | _ => trivial

theorem delay_fresh {r : Record} {d : Time} (hs : Fresh c T s r) (hd : 0 ≤ d)
    (ht : Timely T (s, r) (.delay d)) :
    Fresh c T { s with shared := { s.shared with now := s.shared.now + d } } r := by
  obtain ⟨hlate, hhalf⟩ := ht
  have hquiet : ∀ t ∈ s.threads, t.body.stamped = false ∧ t.body.inWatchdog = false :=
    fun t ht => Body.not_halfDone (hhalf t ht)
  refine ⟨hs.mains, ?_, hs.idle, ?_, hs.latest, hs.watched, ?_⟩
  · intro tick htick
    have hpast := hs.tick_past tick htick
    dsimp only
    linarith
  · intro n hn
    cases htick : r.lastTick with
    | none => exact absurd ((hs.idle htick).2.2 n) hn
    | some tick =>
        have hbacked := hs.watched hquiet tick htick n hn
        have hbound : s.shared.now + d ≤ tick + T := hlate tick htick
        refine hbacked.mono (fun _ he => he) ?_
        dsimp only
        linarith
  · intro t ht
    exact (hs.local_fresh t ht).delay (hhalf t ht)

theorem receive_fresh {r : Record} (hs : Fresh c T s r) (htimeout : 0 ≤ c.cmdTimeoutSec)
    (f : CanFrame) :
    Fresh c T { s with shared := { s.shared with
      drives := canCallback c.driveMotorIds s.shared.now f s.shared.drives } } r := by
  have hrecent : ∀ n since, Recent c r s.shared n since →
      Recent c r { s.shared with
        drives := canCallback c.driveMotorIds s.shared.now f s.shared.drives } n since := by
    intro n since h hn
    rw [canCallback_target] at hn ⊢
    exact h hn
  refine ⟨hs.mains, hs.tick_past, ?_, fun n => hrecent n _ (hs.bounded n),
    fun h n => hrecent n _ (hs.latest h n),
    fun h tick htick n => hrecent n _ (hs.watched h tick htick n), ?_⟩
  · intro hnone
    obtain ⟨hspin, hcmd, hzero⟩ := hs.idle hnone
    refine ⟨hspin, hcmd, ?_⟩
    intro n
    rw [canCallback_target]
    exact hzero n
  · intro t ht
    exact (hs.local_fresh t ht).carry htimeout rfl id (fun _ he => he)
      (fun n since _ => hrecent n since) (fun _ h => h)

theorem Starts.localFresh {r : Record} (h : Starts l b) : LocalFresh c T σ r b := by
  cases h <;> trivial

theorem call_fresh {r : Record} (hs : Fresh c T s r) (htimeout : 0 ≤ c.cmdTimeoutSec)
    (hspin : s.shared.spinning = true) (hb : Starts l b) :
    Fresh c T (s.call b) (note s l r) := by
  have hticked : r.lastTick ≠ none := by
    intro hnone
    rw [(hs.idle hnone).1] at hspin
    cases hspin
  have hacc : ∀ e ∈ r.accepted, e ∈ (note s l r).accepted := note_accepted s l r
  have hrecent : ∀ n since, Recent c r s.shared n since →
      Recent c (note s l r) s.shared n since :=
    fun n since h hn => (h hn).mono hacc le_rfl
  have hold : ∀ t ∈ s.threads, t ∈ (s.call b).threads := fun t ht => List.mem_append_left _ ht
  have hnew : (⟨b, s.shared.now⟩ : Thread) ∈ (s.call b).threads :=
    List.mem_append_right _ (List.mem_singleton.mpr rfl)
  refine ⟨?_, ?_, ?_, fun n => hrecent n _ (hs.bounded n), ?_, ?_, ?_⟩
  · have hkind : mainToken ⟨b, s.shared.now⟩ = 0 := by cases hb <;> rfl
    simpa [State.call, hkind] using hs.mains
  · intro tick htick
    dsimp only [note] at htick
    split at htick
    · exact (Option.some.inj htick).ge
    · exact hs.tick_past tick htick
  · intro hnone
    dsimp only [note] at hnone
    split at hnone
    · cases hnone
    · exact absurd hnone hticked
  · intro h n
    exact hrecent n _ (hs.latest (fun t ht => h t (hold t ht)) n)
  · intro h tick htick n
    dsimp only [note] at htick
    split at htick
    · rename_i hl
      have hwatch := (h _ hnew).2
      cases hb with
      | tick => cases hwatch
      | _ => cases hl
    · exact hrecent n _ (hs.watched (fun t ht => h t (hold t ht)) tick htick n)
  · intro t ht
    rcases List.mem_append.mp ht with hmem | hmem
    · refine (hs.local_fresh t hmem).carry htimeout rfl id hacc
        (fun n since _ => hrecent n since) ?_
      exact fun _ hnone => absurd hnone hticked
    · obtain rfl := List.mem_singleton.mp hmem
      exact hb.localFresh

end PolishingRobot.Motor
