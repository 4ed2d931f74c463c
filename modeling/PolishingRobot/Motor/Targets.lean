import PolishingRobot.Motor.Steps

/-!
# Targets

Only `cmdCallback` stores a speed other than zero; every other access zeroes a
target or leaves it alone.
-/

namespace PolishingRobot.Motor

open Runs

variable {c : Config} {s : State} {task : Nat} {turn : Turn} {b : Body} {n : NodeId}

theorem Shared.apply_motorsEnabled (σ : Shared) (a : Action) :
    (σ.apply a).motorsEnabled = σ.motorsEnabled ∨ ∃ on, a = .storeMotorsEnabled on := by
  cases a with
  | storeMotorsEnabled on => exact .inr ⟨on, rfl⟩
  | _ => exact .inl rfl

/-- A target is stored, zeroed or left alone. -/
theorem Shared.apply_target (σ : Shared) (a : Action) (n : NodeId) :
    (∃ rpm, a = .storeTarget n rpm ∧ (σ.apply a).drives.target n = rpm) ∨
      (σ.apply a).drives.target n = 0 ∨
      (σ.apply a).drives.target n = σ.drives.target n := by
  cases a with
  | storeTarget m rpm =>
      have h := σ.drives.storeTarget_target m n rpm
      by_cases hn : n = m
      · subst hn
        rw [if_pos rfl] at h
        exact .inl ⟨rpm, rfl, h⟩
      · rw [if_neg hn] at h
        exact .inr (.inr h)
  | beginConfigure m =>
      have h := σ.drives.beginConfigure_target m n σ.now
      by_cases hn : n = m
      · rw [if_pos hn] at h
        exact .inr (.inl h)
      · rw [if_neg hn] at h
        exact .inr (.inr h)
  | stampFeedback m => exact .inr (.inr (σ.drives.stampFeedback_target m n σ.now))
  | requestReinit m => exact .inr (.inr (σ.drives.requestReinit_target m n σ.now))
  | rememberAlarm m => exact .inr (.inr (σ.drives.rememberAlarm_target m n))
  | startSync nodes => exact .inr (.inr (σ.drives.stampAll_target n σ.now nodes))
  | _ => exact .inr (.inr rfl)

/-- The command that a callback stores next, as it is stored. -/
def Body.nextCommand : Body → Option (NodeId × Rpm)
  | .cmd (.store ((node, rpm) :: _)) => some (node, mounted node rpm)
  | _ => none

theorem Body.nextCommand_eq_some {p : NodeId × Rpm} (h : b.nextCommand = some p) :
    ∃ rpm rest, b = .cmd (.store ((p.1, rpm) :: rest)) ∧ p.2 = mounted p.1 rpm := by
  cases b with
  | cmd pc =>
      rcases pc with data | data | data | (_ | ⟨⟨node, rpm⟩, rest⟩)
      · cases h
      · cases h
      · cases h
      · cases h
      · cases h
        exact ⟨rpm, rest, rfl, rfl⟩
  | _ => cases h

/-- A speed other than zero is stored by a callback. -/
theorem Acts.storeTarget {rpm : Rpm} (h : Acts b (.storeTarget n rpm)) :
    rpm = 0 ∨ b.nextCommand = some (n, rpm) := by
  generalize ha : Action.storeTarget n rpm = a at h
  cases h with
  | drive _ hd => subst ha; cases hd
  | evaluation _ _ he => subst ha; cases he
  | command node v rest =>
      obtain ⟨rfl, rfl⟩ := Action.storeTarget.inj ha
      exact .inr rfl
  | watchdog node rest =>
      obtain ⟨rfl, rfl⟩ := Action.storeTarget.inj ha
      exact .inl (by simp [mounted])
  | zeroing node rest =>
      obtain ⟨rfl, rfl⟩ := Action.storeTarget.inj ha
      exact .inl (by simp [mounted])
  | _ => cases ha

/-- A target of zero leaves zero only by a command. -/
theorem target_after_turn (h : b.turn c s task = some turn)
    (h₀ : s.shared.drives.target n = 0) :
    (s.shared.apply turn.act).drives.target n = 0 ∨
      ∃ rpm, b.nextCommand = some (n, rpm) ∧ rpm ≠ 0 := by
  have hacts := Body.turn_acts h
  rcases s.shared.apply_target turn.act n with ⟨rpm, ha, ht⟩ | hzero | hsame
  · rw [ha] at hacts
    rcases hacts.storeTarget with rfl | hcommand
    · exact .inl ht
    · by_cases hrpm : rpm = 0
      · exact .inl (ht.trans hrpm)
      · exact .inr ⟨rpm, hcommand, hrpm⟩
  · exact .inl hzero
  · exact .inl (hsame.trans h₀)

/-- The thread that a label moves. -/
def State.mover (s : State) : Label → Option Body
  | .thread index _ => s.threads[index]?.map Thread.body
  | _ => none

/-- The mover of a step, found in the list. -/
theorem mover_eq {pre post : List Thread} {t : Thread} (h : s.threads = pre ++ t :: post) :
    s.mover (.thread pre.length task) = some t.body := by
  simp [State.mover, h]

/-- A callback in flight after a move was in flight before it. -/
theorem cmd_of_moved {pre post : List Thread} {t : Thread} (hthreads : s.threads = pre ++ t :: post)
    (hturn : t.body.turn c s task = some turn)
    (h : anyOf (pre ++ turn.threads s.shared.now ++ post) .cmd = true) :
    anyOf s.threads .cmd = true := by
  obtain ⟨u, hu, hcmd⟩ := List.any_eq_true.mp h
  have hkind : u.body.kind = .cmd := of_decide_eq_true hcmd
  have found : ∀ v ∈ s.threads, v.body.kind = .cmd → anyOf s.threads .cmd = true :=
    fun v hv hk => List.any_eq_true.mpr ⟨v, hv, decide_eq_true hk⟩
  rcases Body.threads_after hturn hu with hself | hspawns | hother
  · exact found t (mover_mem hthreads)
      ((Body.turn_kind hturn hself).symm.trans hkind)
  · generalize u.body = ub at hspawns hkind
    cases hspawns <;> cases hkind
  · exact found u (other_mem hthreads hother) hkind

end PolishingRobot.Motor
