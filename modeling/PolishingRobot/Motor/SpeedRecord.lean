import PolishingRobot.Motor.SpeedFrames
import PolishingRobot.Motor.Targets

/-!
# Accepted messages and ticks

A record of the accepted messages and of the last tick says how old a speed is
that the resend loop sends, and when a run keeps its ticks.
-/

namespace PolishingRobot.Motor

open Runs

variable {c : Config} {T : Time} {s : State} {l : Label} {n : NodeId}

/-- The accepted messages with the time of their acceptance, and the time of
the last tick, counted from the start of the spinner. -/
structure Record where
  accepted : List (Time × List ℚ) := []
  lastTick : Option Time := none

/-- The message that a step accepts: its callback finds the motors enabled. -/
def State.accepts (s : State) (l : Label) : Option (List ℚ) :=
  match s.mover l with
  | some (.cmd (.load data)) => if s.shared.motorsEnabled then some data else none
  | _ => none

def Body.startsSpinner : Body → Bool
  | .main .spin => true
  | _ => false

def State.ticks (s : State) : Label → Bool
  | .tick => true
  | l => (s.mover l).any Body.startsSpinner

def note (s : State) (l : Label) (r : Record) : Record where
  accepted := ((s.accepts l).map fun data => (s.shared.now, data)).toList ++ r.accepted
  lastTick := if s.ticks l then some s.shared.now else r.lastTick

/-- Steps of the node with its record. -/
def recorded (c : Config) : State × Record → Label → Option (State × Record) :=
  observe (step c) note

/-- A message accepted at `since` or later commands the target. -/
def BackedSince (c : Config) (r : Record) (n : NodeId) (target : Rpm) (since : Time) : Prop :=
  ∃ e ∈ r.accepted, since ≤ e.1 ∧ ∃ p ∈ commands c e.2, p.1 = n ∧ mounted n p.2 = target

theorem BackedSince.mono {r r' : Record} {target : Rpm} {since since' : Time}
    (h : BackedSince c r n target since) (hr : ∀ e ∈ r.accepted, e ∈ r'.accepted)
    (hle : since' ≤ since) : BackedSince c r' n target since' := by
  obtain ⟨e, he, hsince, hp⟩ := h
  exact ⟨e, hr e he, hle.trans hsince, hp⟩

/-- Only drives are commanded. -/
theorem BackedSince.mem_ids {r : Record} {target : Rpm} {since : Time}
    (h : BackedSince c r n target since) : n ∈ c.driveMotorIds := by
  obtain ⟨e, -, -, ⟨node, rpm⟩, hp, rfl, -⟩ := h
  exact (List.of_mem_zip hp).1

theorem note_accepted (s : State) (l : Label) (r : Record) :
    ∀ e ∈ r.accepted, e ∈ (note s l r).accepted := by
  intro e he
  simp [note, he]

/-- A long enough message commands every drive. -/
theorem commands_fst {data : List ℚ} (h : c.driveMotorIds.length ≤ data.length) :
    (commands c data).map Prod.fst = c.driveMotorIds := by
  apply List.map_fst_zip
  rw [List.length_zipWith, c.dir_length]
  omega

/-- The callback has stamped `last_cmd_time_` and not yet returned. -/
def Body.stamped : Body → Bool
  | .cmd (.load _) | .cmd (.store _) => true
  | _ => false

/-- The tick has not yet passed its watchdog. -/
def Body.inWatchdog : Body → Bool
  | .control .watchdogLoad | .control .watchdogTime | .control (.watchdogZero _) => true
  | _ => false

/-- A callback of `/motor/cmd`, the watchdog of a tick, or a sending between its
read and its frame. -/
def Body.halfDone : Body → Bool
  | .cmd _ => true
  | .control .watchdogLoad | .control .watchdogTime | .control (.watchdogZero _) => true
  | .sync (.send _ _ _) => true
  | _ => false

/-- Once the spinner runs, a tick starts at least every `T` seconds. -/
def TicksEvery (T : Time) (w : State × Record) : Label → Prop
  | .delay d => ∀ tick ∈ w.2.lastTick, w.1.shared.now + d ≤ tick + T
  | _ => True

instance (w : State × Record) (l : Label) : Decidable (TicksEvery T w l) :=
  match l with
  | .delay d => inferInstanceAs (Decidable (∀ tick ∈ w.2.lastTick, w.1.shared.now + d ≤ tick + T))
  | .thread _ _ | .can _ | .motorCmd _ | .tick | .traction _ | .brake _ => isTrue trivial

/-- No time passes while a callback, a watchdog or a sending is half done. -/
def Unpreempted (s : State) : Label → Prop
  | .delay _ => ∀ t ∈ s.threads, t.body.halfDone = false
  | _ => True

instance (s : State) (l : Label) : Decidable (Unpreempted s l) :=
  match l with
  | .delay _ => inferInstanceAs (Decidable (∀ t ∈ s.threads, _))
  | .thread _ _ | .can _ | .motorCmd _ | .tick | .traction _ | .brake _ => isTrue trivial

/-- The run keeps its ticks and is not preempted in between. -/
def Timely (T : Time) (w : State × Record) (l : Label) : Prop :=
  TicksEvery T w l ∧ Unpreempted w.1 l

instance (w : State × Record) (l : Label) : Decidable (Timely T w l) :=
  inferInstanceAs (Decidable (_ ∧ _))

/-- The first load of a tick. -/
def Body.atWatchdog : Body → Bool
  | .control .watchdogLoad => true
  | _ => false

/-- The load that decides whether a message is accepted. -/
def Body.atAcceptance : Body → Bool
  | .cmd (.load _) => true
  | _ => false

/-- Disabled motors hide no speed: a tick that skips its watchdog because the
motors are disabled finds all targets at zero, unless a message is recent; and
a message is discarded only while all targets are zero. -/
def SpeedsWatched (c : Config) (s : State) (l : Label) : Prop :=
  ∀ b ∈ s.mover l, s.shared.motorsEnabled = false →
    (b.atWatchdog = true → s.shared.now - s.shared.lastCmdTime ≤ c.cmdTimeoutSec ∨
      ∀ n ∈ c.driveMotorIds, s.shared.drives.target n = 0) ∧
    (b.atAcceptance = true → ∀ n ∈ c.driveMotorIds, s.shared.drives.target n = 0)

instance (s : State) (l : Label) : Decidable (SpeedsWatched c s l) :=
  inferInstanceAs (Decidable (∀ b ∈ s.mover l, _ → _ ∧ _))

/-- A speed other than zero that a step sends comes from a message accepted at
most `cmd_timeout_sec_ + T` before. -/
def RecentSpeed (c : Config) (T : Time) (w : State × Record) (l : Label) : Prop :=
  ∀ a ∈ actionOf c w.1 l, ∀ p ∈ a.speed, p.2 ≠ some 0 →
    ∃ e ∈ w.2.accepted, w.1.shared.now - (c.cmdTimeoutSec + T) ≤ e.1 ∧
      ∃ q ∈ commands c e.2, q.1 = p.1 ∧ p.2 = truncToInt32 (mounted p.1 q.2 * countsPerRpm)

instance (w : State × Record) (l : Label) : Decidable (RecentSpeed c T w l) :=
  inferInstanceAs (Decidable (∀ a ∈ actionOf c w.1 l, ∀ p ∈ a.speed, _ →
    ∃ e ∈ w.2.accepted, _ ∧ ∃ q ∈ commands c e.2, _))

end PolishingRobot.Motor
