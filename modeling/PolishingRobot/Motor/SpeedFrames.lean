import PolishingRobot.Motor.Steps

/-!
# Speed frames

An RPDO2 with a speed other than zero is written by the resend loop alone:
`disable_motor` sends zeros, and the other procedures send no RPDO2.
-/

namespace PolishingRobot.Motor

open Runs

variable {c : Config} {σ : Shared} {s : State} {task : Nat} {turn : Turn} {b : Body}

/-- The drive and the counts of an RPDO2. -/
def Action.speed : Action → Option (NodeId × Option Int32)
  | .write (.rpdo2 node counts) => some (node, counts)
  | _ => none

theorem enableTask_speed (node : NodeId) (pc : EnableTask) :
    (enableTask σ node pc).act.speed = none := by
  cases pc with
  | guard => rw [enableTask]; split <;> rfl
  | readInitial => rw [enableTask]; split <;> rfl
  | shutdown again => cases again <;> rfl
  | switchOn again => cases again <;> rfl
  | enableOperation again => cases again <;> rfl
  | setMode => rfl
  | faultReset => rfl
  | awaitReady wait => rw [enableTask, Move.call_act, waitForState_act]; rfl
  | awaitSwitchedOn wait => rw [enableTask, Move.call_act, waitForState_act]; rfl
  | awaitEnabled wait => rw [enableTask, Move.call_act, waitForState_act]; rfl

theorem enableMotor_speed {tasks : List Task} {m : Move (List Task) Bool}
    (h : enableMotor σ task tasks = some m) : m.act.speed = none := by
  unfold enableMotor at h
  split at h
  · obtain rfl := Option.some.inj h
    rfl
  · obtain ⟨⟨a, ts⟩, hstep, rfl⟩ := Option.map_eq_some_iff.mp h
    obtain ⟨pre, ⟨node, wake, pc⟩, post, us, rfl, -, hmove, -⟩ := stepAt_split hstep
    cases pc with
    | inr ok => cases hmove
    | inl pc =>
        dsimp only [Task.step] at hmove
        split at hmove
        · obtain ⟨rfl, -⟩ := Prod.mk.inj (Option.some.inj hmove)
          exact enableTask_speed node pc
        · cases hmove

theorem configureNode_speed (node : NodeId) (pc : ConfigureNode) :
    (configureNode node pc).act.speed = none := by
  unfold configureNode
  split <;> rfl

theorem resetMotor_speed {nodes : List NodeId} {pc : ResetMotor} {m : Move ResetMotor Bool}
    (h : resetMotor nodes σ task pc = some m) : m.act.speed = none := by
  cases pc with
  | enabling tasks =>
      obtain ⟨m', hm', rfl⟩ := Option.map_eq_some_iff.mp h
      rw [Move.call_act]
      exact enableMotor_speed hm'
  | configure node rest pc =>
      cases h
      rw [Move.call_act]
      exact configureNode_speed node pc
  | reinit rest =>
      cases rest with
      | nil => cases h; rfl
      | cons node rest => rw [resetMotor] at h; split at h <;> cases h <;> rfl
  | guard rest =>
      cases rest with
      | nil => cases h; rfl
      | cons node rest => rw [resetMotor] at h; split at h <;> cases h <;> rfl
  | faultReset node rest again => cases again <;> cases h <;> rfl
  | verify rest ok wait =>
      cases rest with
      | nil => cases h; rfl
      | cons node rest =>
          cases h
          rw [Move.call_act, waitForState_act]
          rfl

/-- `disable_motor` sends the speed zero alone. -/
theorem disableMotor_speed {nodes : List NodeId} {pc : DisableMotor} {p : NodeId × Option Int32}
    (h : (disableMotor nodes pc).act.speed = some p) : p.2 = some 0 := by
  rcases pc with (_ | ⟨node, rest⟩) | (_ | ⟨node, rest⟩)
  · cases h
  · rw [disableMotor, sendVelocityCommand_zero] at h
    cases h
    rfl
  · cases h
  · cases h

/-- A speed other than zero is sent by the resend loop. -/
theorem Body.turn_speed {p : NodeId × Option Int32} (h : b.turn c s task = some turn)
    (hp : turn.act.speed = some p) (hne : p.2 ≠ some 0) :
    ∃ rpm rest, b = .sync (.send p.1 rpm rest) ∧ p.2 = truncToInt32 (rpm * countsPerRpm) := by
  obtain ⟨m, hm⟩ : ∃ m, turn.act = .write m := by
    cases ha : turn.act with
    | write m => exact ⟨m, rfl⟩
    | _ => rw [ha] at hp; cases hp
  have hwrites := Body.turn_writes h hm
  generalize turn.act = a at hp hwrites
  cases hwrites with
  | configures node rest pc =>
      rw [configureNode_speed] at hp
      cases hp
  | disables hb => exact absurd (disableMotor_speed hp) hne
  | sends pc =>
      rcases pc with _ | (_ | ⟨node, rest⟩) | ⟨node, rpm, rest⟩ | _
      · cases hp
      · cases hp
      · cases hp
      · cases hp
        exact ⟨rpm, rest, rfl, rfl⟩
      · cases hp
  | enables hm =>
      rw [enableMotor_speed hm] at hp
      cases hp
  | resets hm =>
      rw [resetMotor_speed hm] at hp
      cases hp

end PolishingRobot.Motor
