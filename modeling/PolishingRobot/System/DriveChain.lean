import PolishingRobot.Base.Controller
import PolishingRobot.Motor.CommandWatchdog
import PolishingRobot.Teleop.Keyboard

/-!
# From the keyboard to the drives

The keyboard loop, the base controller and the motor driver node, joined by the
two topics between them. A message is in flight from its publication until its
callback starts or until a full queue drops it; the keyboard is the only
publisher of `/cmd_vel`, the base controller the only one of `/motor/cmd`.
-/

namespace PolishingRobot.System

open Runs
open Motor (Time)
open Base (BaseController Trigonometry)
open Teleop (Twist Waits Key)

/-- A key that the loop has read, with the message published for it. -/
structure KeyPress where
  time : Time
  key : Key
  twist : Twist

/-- The three programs and the messages in flight, each with the time of its
publication. The presses and the record of the motor driver are history. -/
structure World where
  teleop : Teleop.Loop
  presses : List KeyPress := []
  cmdVel : List (Time × Twist) := []
  base : BaseController ℚ := BaseController.start
  motorCmd : List (Time × List ℚ) := []
  motor : Motor.State × Motor.Record

/-- One clock for all. -/
def World.now (w : World) : Time := w.motor.1.shared.now

inductive Label where
  /-- A turn of the keyboard loop. -/
  | key (ws : Waits)
  /-- The end of the keyboard loop by a shutdown or an exception. -/
  | quit
  | dropCmdVel (index : Nat)
  | cmdVel
  | controlTimer
  | velocity (data : List ℚ)
  | dropMotorCmd (index : Nat)
  | motorCmd
  /-- Any other step of the motor driver node; it also lets the time pass. -/
  | motor (l : Motor.Label)

/-- The step that the motor driver node takes. -/
def World.motorLabel (w : World) : Label → Option Motor.Label
  | .motorCmd => w.motorCmd.head?.map fun m => .motorCmd m.2
  | .motor (.motorCmd _) => none
  | .motor l => some l
  | _ => none

/-- The node takes its step. -/
def World.moveMotor (c : Motor.Config) (w : World) (l : Label) : Option World :=
  (w.motorLabel l).bind fun l =>
    (Motor.recorded c w.motor l).map fun motor => { w with motor := motor }

def step (p : Base.Parameters) (lib : Trigonometry ℚ) (c : Motor.Config) (w : World) :
    Label → Option World
  | .key ws =>
      if w.teleop.stopped then none
      else
        let (teleop, message) := w.teleop.turn ws
        -- The way out of the loop publishes a stop.
        let twist := message.getD ⟨0, 0⟩
        some { w with
          teleop := teleop
          presses := w.presses ++ [⟨w.now, w.teleop.key ws, twist⟩]
          cmdVel := w.cmdVel ++ [(w.now, twist)] }
  | .quit =>
      if w.teleop.stopped then none
      else some { w with
        teleop := { w.teleop with stopped := true }
        cmdVel := w.cmdVel ++ [(w.now, ⟨0, 0⟩)] }
  | .dropCmdVel index => some { w with cmdVel := w.cmdVel.eraseIdx index }
  | .cmdVel =>
      match w.cmdVel with
      | [] => none
      | m :: rest => some { w with
          cmdVel := rest
          base := Base.cmdVelCallback w.now w.base m.2.linearX m.2.angularZ }
  | .controlTimer =>
      some { w with motorCmd := w.motorCmd ++ [(w.now, Base.controlTimer p w.now w.base)] }
  | .velocity data => some { w with base := (Base.velocityCallback p w.now w.base lib data).1 }
  | .dropMotorCmd index => some { w with motorCmd := w.motorCmd.eraseIdx index }
  | .motorCmd =>
      (w.moveMotor c .motorCmd).map fun w' => { w' with motorCmd := w.motorCmd.tail }
  | .motor l => w.moveMotor c (.motor l)

/-- Before any of the programs has done anything. -/
def start (c : Motor.Config) (linear angular : ℚ) (now : Time) : World where
  teleop := { linearSpeed := linear, angularSpeed := angular }
  motor := (Motor.start c now, {})

/-- What `controlTimer` publishes for a target that is not too old. -/
def wheelCommand (p : Base.Parameters) (v w : ℚ) : List ℚ :=
  if p.wheelRadius ≤ 0 ∨ p.gearRatio = 0 then [0, 0]
  else
    let (left, right) :=
      Base.inverseKinematics p (Base.limited p.maxLinearVel v) (Base.limited p.maxAngularVel w)
    if p.swapLr then [right, left] else [left, right]

theorem controlTimer_eq_wheelCommand (p : Base.Parameters) (now : Time) (s : BaseController ℚ) :
    Base.controlTimer p now s =
      if p.cmdVelTimeout < now - s.lastCmdVelTime then wheelCommand p 0 0
      else wheelCommand p s.targetV s.targetW := by
  unfold Base.controlTimer Base.boundedTarget
  by_cases hold : p.cmdVelTimeout < now - s.lastCmdVelTime
  · rw [if_pos hold, if_pos hold]
    simp only [wheelCommand, Rat.cast_id]
  · rw [if_neg hold, if_neg hold]
    simp only [wheelCommand, Rat.cast_id]

theorem limited_zero (maxVel : ℚ) : Base.limited maxVel (0 : ℚ) = 0 := by
  unfold Base.limited
  split
  · rename_i hpos
    have hmin : Base.stdMin (0 : ℚ) maxVel = 0 := if_neg (not_lt.mpr hpos.le)
    have hmax : Base.stdMax (-maxVel) (0 : ℚ) = 0 := if_pos (by linarith)
    rw [Rat.cast_id, hmin, hmax]
  · rfl

/-- No twist, no speed. -/
theorem wheelCommand_zero (p : Base.Parameters) : ∀ x ∈ wheelCommand p 0 0, x = 0 := by
  unfold wheelCommand
  rw [limited_zero, limited_zero]
  split
  · simp
  · have hkinematics : Base.inverseKinematics p (0 : ℚ) 0 = (0, 0) := by
      simp [Base.inverseKinematics, Base.motorRpm]
    rw [hkinematics]
    dsimp only
    split <;> simp

/-- A key with a direction, read at `since` or later, published the twist. -/
def PressedSince (presses : List KeyPress) (since : Time) (twist : Twist) : Prop :=
  ∃ k ∈ presses, since ≤ k.time ∧ k.twist = twist ∧ Teleop.direction k.key ≠ (0, 0)

/-- The speeds stand still, or are those of such a key. -/
def WheelsSince (p : Base.Parameters) (presses : List KeyPress) (since : Time)
    (data : List ℚ) : Prop :=
  (∀ x ∈ data, x = 0) ∨
    ∃ twist, PressedSince presses since twist ∧ data = wheelCommand p twist.linearX twist.angularZ

theorem PressedSince.older {presses : List KeyPress} {since since' : Time} {twist : Twist}
    (h : PressedSince presses since twist) (hle : since' ≤ since) :
    PressedSince presses since' twist := by
  obtain ⟨k, hk, hsince, hrest⟩ := h
  exact ⟨k, hk, hle.trans hsince, hrest⟩

theorem PressedSince.append {presses : List KeyPress} {since : Time} {twist : Twist}
    (h : PressedSince presses since twist) (more : List KeyPress) :
    PressedSince (presses ++ more) since twist := by
  obtain ⟨k, hk, hrest⟩ := h
  exact ⟨k, List.mem_append_left _ hk, hrest⟩

theorem WheelsSince.older {p : Base.Parameters} {presses : List KeyPress}
    {since since' : Time} {data : List ℚ} (h : WheelsSince p presses since data)
    (hle : since' ≤ since) : WheelsSince p presses since' data := by
  rcases h with hzero | ⟨twist, hpressed, hdata⟩
  · exact .inl hzero
  · exact .inr ⟨twist, hpressed.older hle, hdata⟩

theorem WheelsSince.append {p : Base.Parameters} {presses : List KeyPress} {since : Time}
    {data : List ℚ} (h : WheelsSince p presses since data) (more : List KeyPress) :
    WheelsSince p (presses ++ more) since data := by
  rcases h with hzero | ⟨twist, hpressed, hdata⟩
  · exact .inl hzero
  · exact .inr ⟨twist, hpressed.append more, hdata⟩

/-- The message that a callback of `/motor/cmd` has not yet taken apart. -/
def message : Motor.Body → Option (List ℚ)
  | .cmd (.check data) | .cmd (.stamp data) | .cmd (.load data) => some data
  | _ => none

section Invariant

variable (p : Base.Parameters) (c : Motor.Config) (D₁ D₂ T : Time)

/-- How long a twist may be old when its speeds reach the motor driver. -/
def delayToMotor : Time := D₁ + p.cmdVelTimeout + D₂

/-- Every message of the chain comes from a key, and no part of the chain makes
it older than allowed. -/
structure Traced (w : World) : Prop where
  fresh : Motor.Fresh c T w.motor.1 w.motor.2
  cmdVel : ∀ m ∈ w.cmdVel, m.2 ≠ ⟨0, 0⟩ → PressedSince w.presses m.1 m.2
  base : (⟨w.base.targetV, w.base.targetW⟩ : Twist) ≠ ⟨0, 0⟩ →
    PressedSince w.presses (w.base.lastCmdVelTime - D₁) ⟨w.base.targetV, w.base.targetW⟩
  motorCmd : ∀ m ∈ w.motorCmd, WheelsSince p w.presses (m.1 - (D₁ + p.cmdVelTimeout)) m.2
  callbacks : ∀ t ∈ w.motor.1.threads, ∀ data ∈ message t.body,
    WheelsSince p w.presses (w.now - delayToMotor p D₁ D₂) data
  accepted : ∀ e ∈ w.motor.2.accepted,
    WheelsSince p w.presses (e.1 - delayToMotor p D₁ D₂) e.2

/-- The message that a callback starts on was published at most `D₁` or `D₂` ago. -/
def OnTime (w : World) : Label → Prop
  | .cmdVel => ∀ m ∈ w.cmdVel.head?, w.now - m.1 ≤ D₁
  | .motorCmd => ∀ m ∈ w.motorCmd.head?, w.now - m.1 ≤ D₂
  | _ => True

instance (w : World) (l : Label) : Decidable (OnTime D₁ D₂ w l) :=
  match l with
  | .cmdVel => inferInstanceAs (Decidable (∀ m ∈ w.cmdVel.head?, _))
  | .motorCmd => inferInstanceAs (Decidable (∀ m ∈ w.motorCmd.head?, _))
  | .key _ | .quit | .dropCmdVel _ | .controlTimer | .velocity _ | .dropMotorCmd _ | .motor _ =>
      isTrue trivial

/-- No message is in flight for too long; the motor driver keeps its ticks and
its disabled motors hide no speed. -/
def InTime (w : World) (l : Label) : Prop :=
  OnTime D₁ D₂ w l ∧
    ∀ l' ∈ w.motorLabel l, Motor.Timely T w.motor l' ∧ Motor.SpeedsWatched c w.motor.1 l'

instance (w : World) (l : Label) : Decidable (InTime c D₁ D₂ T w l) :=
  inferInstanceAs (Decidable (_ ∧ _))

/-- A speed other than zero that is sent to a drive is the speed of its wheel
for a key read at most so long ago. -/
def SpeedFromKey (w : World) (l : Label) : Prop :=
  ∀ l' ∈ w.motorLabel l, ∀ a ∈ Motor.actionOf c w.motor.1 l', ∀ q ∈ a.speed, q.2 ≠ some 0 →
    ∃ k ∈ w.presses, w.now - (delayToMotor p D₁ D₂ + (c.cmdTimeoutSec + T)) ≤ k.time ∧
      Teleop.direction k.key ≠ (0, 0) ∧
      ∃ r ∈ Motor.commands c (wheelCommand p k.twist.linearX k.twist.angularZ), r.1 = q.1 ∧
        q.2 = Motor.truncToInt32 (Motor.mounted q.1 r.2 * Motor.countsPerRpm)

end Invariant

variable {p : Base.Parameters} {lib : Trigonometry ℚ} {c : Motor.Config} {D₁ D₂ T : Time}
  {w w' : World}

theorem message_of_self {s : Motor.State} {task : Nat} {b u : Motor.Body} {turn : Motor.Turn}
    {data : List ℚ} (h : b.turn c s task = some turn) (hu : turn.self = some u)
    (hdata : data ∈ message u) : data ∈ message b := by
  have hkind := Motor.Body.turn_kind h hu
  cases u with
  | cmd pc' =>
      cases b with
      | cmd pc =>
          cases h
          rcases pc with d | d | d | (_ | ⟨⟨node, rpm⟩, rest⟩)
          · simp only [Motor.cmdCallback] at hu
            split at hu
            · cases hu
            · cases hu
              exact hdata
          · cases hu
            exact hdata
          · simp only [Motor.cmdCallback] at hu
            split at hu
            · cases hu
              cases hdata
            · cases hu
          · cases hu
          · cases hu
            cases hdata
      | _ => cases hkind
  | _ => cases hdata

theorem message_of_spawns {b : Motor.Body} {now : Time} (h : Motor.Spawns c now b) :
    message b = none := by
  cases h <;> rfl

/-- The message that a step accepts was the message of a callback. -/
theorem message_of_accepts {s : Motor.State} {l : Motor.Label} {data : List ℚ}
    (h : s.accepts l = some data) : ∃ t ∈ s.threads, data ∈ message t.body := by
  unfold Motor.State.accepts at h
  split at h
  · rename_i d hmover
    split at h
    · obtain rfl := Option.some.inj h
      cases l with
      | thread index task =>
          obtain ⟨t, ht, hbody⟩ := Option.map_eq_some_iff.mp hmover
          refine ⟨t, List.mem_of_getElem? ht, ?_⟩
          rw [hbody]
          rfl
      | _ => cases hmover
    · cases h
  · cases h

/-- What a step of the node keeps: callbacks hold messages that were there before
or have just come in, and accept no others. -/
theorem motor_callbacks {s s' : Motor.State} {r : Motor.Record} {l : Motor.Label}
    {P : Time → List ℚ → Prop} (hstep : Motor.step c s l = some s')
    (htimely : Motor.Timely T (s, r) l)
    (hcallbacks : ∀ t ∈ s.threads, ∀ data ∈ message t.body, P s.shared.now data)
    (hincoming : ∀ data, l = .motorCmd data → P s.shared.now data) :
    ∀ t ∈ s'.threads, ∀ data ∈ message t.body, P s'.shared.now data := by
  cases Motor.step_cases hstep with
  | @moved task pre post v turn hthreads hwake hturn hact =>
      intro t ht data hdata
      dsimp only
      rw [Motor.Shared.apply_now]
      rcases Motor.Body.threads_after hturn ht with hself | hspawned | hother
      · have hv : v ∈ s.threads := by
          rw [hthreads]
          simp
        exact hcallbacks v hv data (message_of_self hturn hself hdata)
      · rw [message_of_spawns hspawned] at hdata
        cases hdata
      · have hmem : t ∈ s.threads := by
          rw [hthreads]
          rcases List.mem_append.mp hother with h | h <;> simp [h]
        exact hcallbacks t hmem data hdata
  | delayed d hd =>
      intro t ht data hdata
      have hidle := htimely.2 t ht
      cases hbody : t.body with
      | cmd pc =>
          rw [hbody] at hidle
          cases hidle
      | _ =>
          rw [hbody] at hdata
          cases hdata
  | received f hopen => exact hcallbacks
  | @called l b hspin hb =>
      intro t ht data hdata
      rcases List.mem_append.mp ht with hold | hnew
      · exact hcallbacks t hold data hdata
      · obtain rfl := List.mem_singleton.mp hnew
        cases hb with
        | motorCmd d =>
            obtain rfl := Option.some.inj hdata
            exact hincoming d rfl
        | tick => cases hdata
        | traction on => cases hdata
        | brake engaged => cases hdata

theorem World.moveMotor_eq_some {l : Label} (h : w.moveMotor c l = some w') :
    ∃ l' s', w.motorLabel l = some l' ∧ Motor.step c w.motor.1 l' = some s' ∧
      w' = { w with motor := (s', Motor.note w.motor.1 l' w.motor.2) } := by
  obtain ⟨l', hl, hmove⟩ := Option.bind_eq_some_iff.mp h
  obtain ⟨⟨s', r'⟩, hrecorded, rfl⟩ := Option.map_eq_some_iff.mp hmove
  obtain ⟨hstep, rfl⟩ := observe_eq_some hrecorded
  exact ⟨l', s', hl, hstep, rfl⟩

theorem start_traced (linear angular : ℚ) (now : Time) :
    Traced p c D₁ D₂ T (start c linear angular now) where
  fresh := Motor.start_fresh c T now
  cmdVel := by simp [start]
  base := by
    intro hmoving
    exact absurd rfl hmoving
  motorCmd := by simp [start]
  callbacks := by
    intro t ht data hdata
    obtain rfl := List.mem_singleton.mp ht
    cases hdata
  accepted := by simp [start]

/-- A key that leaves the loop, or has no direction, publishes a stop. -/
theorem direction_of_twist {s : Teleop.Loop} {ws : Waits}
    (h : (s.turn ws).2.getD ⟨0, 0⟩ ≠ ⟨0, 0⟩) : Teleop.direction (s.key ws) ≠ (0, 0) := by
  intro hnone
  apply h
  rw [(s.turn_eq ws).1, hnone]
  split <;> simp

theorem Traced.key (h : Traced p c D₁ D₂ T w) {ws : Waits}
    (hstep : step p lib c w (.key ws) = some w') : Traced p c D₁ D₂ T w' := by
  dsimp only [step] at hstep
  split at hstep
  · cases hstep
  obtain rfl := Option.some.inj hstep
  refine ⟨h.fresh, ?_, ?_, ?_, ?_, ?_⟩
  · intro m hm hmoving
    rcases List.mem_append.mp hm with hold | hnew
    · exact (h.cmdVel m hold hmoving).append _
    · obtain rfl := List.mem_singleton.mp hnew
      exact ⟨_, List.mem_append_right _ (List.mem_singleton_self _), le_rfl, rfl,
        direction_of_twist hmoving⟩
  · intro hmoving
    exact (h.base hmoving).append _
  · intro m hm
    exact (h.motorCmd m hm).append _
  · intro t ht data hdata
    exact (h.callbacks t ht data hdata).append _
  · intro e he
    exact (h.accepted e he).append _

theorem Traced.quit (h : Traced p c D₁ D₂ T w)
    (hstep : step p lib c w .quit = some w') : Traced p c D₁ D₂ T w' := by
  dsimp only [step] at hstep
  split at hstep
  · cases hstep
  obtain rfl := Option.some.inj hstep
  refine ⟨h.fresh, ?_, h.base, h.motorCmd, h.callbacks, h.accepted⟩
  intro m hm hmoving
  rcases List.mem_append.mp hm with hold | hnew
  · exact h.cmdVel m hold hmoving
  · obtain rfl := List.mem_singleton.mp hnew
    exact absurd rfl hmoving

theorem Traced.cmdVelCallback (h : Traced p c D₁ D₂ T w)
    (htime : ∀ m ∈ w.cmdVel.head?, w.now - m.1 ≤ D₁)
    (hstep : step p lib c w .cmdVel = some w') : Traced p c D₁ D₂ T w' := by
  dsimp only [step] at hstep
  split at hstep
  · cases hstep
  rename_i m rest hqueue
  obtain rfl := Option.some.inj hstep
  refine ⟨h.fresh, ?_, ?_, h.motorCmd, h.callbacks, h.accepted⟩
  · intro m' hm' hmoving
    exact h.cmdVel m' (by rw [hqueue]; exact List.mem_cons_of_mem _ hm') hmoving
  · intro hmoving
    have hage : w.now - m.1 ≤ D₁ := htime m (by simp [hqueue])
    apply (h.cmdVel m (by simp [hqueue]) hmoving).older
    change w.now - D₁ ≤ m.1
    linarith

theorem Traced.controlTimer (h : Traced p c D₁ D₂ T w)
    (hstep : step p lib c w .controlTimer = some w') : Traced p c D₁ D₂ T w' := by
  obtain rfl := Option.some.inj hstep
  refine ⟨h.fresh, h.cmdVel, h.base, ?_, h.callbacks, h.accepted⟩
  intro m hm
  rcases List.mem_append.mp hm with hold | hnew
  · exact h.motorCmd m hold
  obtain rfl := List.mem_singleton.mp hnew
  dsimp only
  rw [controlTimer_eq_wheelCommand]
  split
  · exact .inl (wheelCommand_zero p)
  · rename_i hyoung
    by_cases hmoving : (⟨w.base.targetV, w.base.targetW⟩ : Twist) = ⟨0, 0⟩
    · obtain ⟨hv, hw⟩ := Twist.ext_iff.mp hmoving
      dsimp only at hv hw
      rw [hv, hw]
      exact .inl (wheelCommand_zero p)
    · have hage : w.now - (D₁ + p.cmdVelTimeout) ≤ w.base.lastCmdVelTime - D₁ := by
        linarith [not_lt.mp hyoung]
      exact .inr ⟨_, (h.base hmoving).older hage, rfl⟩

/-- The odometry leaves the target alone. -/
theorem velocityCallback_target (p : Base.Parameters) (lib : Trigonometry ℚ) (now : Time)
    (s : BaseController ℚ) (data : List ℚ) :
    (Base.velocityCallback p now s lib data).1.targetV = s.targetV ∧
      (Base.velocityCallback p now s lib data).1.targetW = s.targetW ∧
      (Base.velocityCallback p now s lib data).1.lastCmdVelTime = s.lastCmdVelTime := by
  unfold Base.velocityCallback
  split
  · exact ⟨rfl, rfl, rfl⟩
  · split
    · exact ⟨rfl, rfl, rfl⟩
    · dsimp only
      split <;> exact ⟨rfl, rfl, rfl⟩

theorem Traced.velocity (h : Traced p c D₁ D₂ T w) {data : List ℚ}
    (hstep : step p lib c w (.velocity data) = some w') : Traced p c D₁ D₂ T w' := by
  obtain rfl := Option.some.inj hstep
  refine ⟨h.fresh, h.cmdVel, ?_, h.motorCmd, h.callbacks, h.accepted⟩
  obtain ⟨hv, hw, htime⟩ := velocityCallback_target p lib w.now w.base data
  dsimp only
  rw [hv, hw, htime]
  exact h.base

/-- The motor driver accepts what its callbacks hold, and these hold what
`/motor/cmd` brought them. -/
theorem Traced.motor (h : Traced p c D₁ D₂ T w) (hT : 0 ≤ T) (htimeout : 0 ≤ c.cmdTimeoutSec)
    {l : Label} (hok : InTime c D₁ D₂ T w l) (hmove : w.moveMotor c l = some w') :
    Traced p c D₁ D₂ T w' := by
  obtain ⟨l', s', hlabel, hstep, rfl⟩ := World.moveMotor_eq_some hmove
  obtain ⟨hl', hwatched⟩ := hok.2 l' hlabel
  refine ⟨Motor.step_fresh h.fresh hT htimeout hl' hwatched hstep, h.cmdVel, h.base, h.motorCmd,
    ?_, ?_⟩
  · apply motor_callbacks
      (P := fun t data => WheelsSince p w.presses (t - delayToMotor p D₁ D₂) data)
      hstep hl' h.callbacks
    rintro data rfl
    cases l with
    | motorCmd =>
        obtain ⟨m, hm, hdata⟩ := Option.map_eq_some_iff.mp hlabel
        obtain rfl := Motor.Label.motorCmd.inj hdata
        have hage : w.now - m.1 ≤ D₂ := hok.1 m hm
        have hold := h.motorCmd m (List.mem_of_head? hm)
        apply hold.older
        change w.now - delayToMotor p D₁ D₂ ≤ m.1 - (D₁ + p.cmdVelTimeout)
        unfold delayToMotor
        linarith
    | motor l =>
        cases l <;> cases hlabel
    | _ => cases hlabel
  · intro e he
    dsimp only [Motor.note] at he
    rcases List.mem_append.mp he with hnew | hold
    · obtain ⟨data, haccepts, rfl⟩ := Option.map_eq_some_iff.mp (Option.mem_toList.mp hnew)
      obtain ⟨t, ht, hdata⟩ := message_of_accepts haccepts
      exact h.callbacks t ht data hdata
    · exact h.accepted e hold

theorem Traced.step (h : Traced p c D₁ D₂ T w) (hT : 0 ≤ T) (htimeout : 0 ≤ c.cmdTimeoutSec)
    {l : Label} (hok : InTime c D₁ D₂ T w l) (hstep : step p lib c w l = some w') :
    Traced p c D₁ D₂ T w' := by
  cases l with
  | key ws => exact h.key hstep
  | quit => exact h.quit hstep
  | dropCmdVel index =>
      obtain rfl := Option.some.inj hstep
      refine ⟨h.fresh, ?_, h.base, h.motorCmd, h.callbacks, h.accepted⟩
      exact fun m hm => h.cmdVel m (List.mem_of_mem_eraseIdx hm)
  | cmdVel => exact h.cmdVelCallback hok.1 hstep
  | controlTimer => exact h.controlTimer hstep
  | velocity data => exact h.velocity hstep
  | dropMotorCmd index =>
      obtain rfl := Option.some.inj hstep
      refine ⟨h.fresh, h.cmdVel, h.base, ?_, h.callbacks, h.accepted⟩
      exact fun m hm => h.motorCmd m (List.mem_of_mem_eraseIdx hm)
  | motorCmd =>
      obtain ⟨w₁, hmove, rfl⟩ := Option.map_eq_some_iff.mp hstep
      have hmoved := h.motor hT htimeout hok hmove
      obtain ⟨l', s', -, -, rfl⟩ := World.moveMotor_eq_some hmove
      refine ⟨hmoved.fresh, hmoved.cmdVel, hmoved.base, ?_, hmoved.callbacks, hmoved.accepted⟩
      exact fun m hm => h.motorCmd m (List.mem_of_mem_tail hm)
  | motor l => exact h.motor hT htimeout hok hstep

/-- A message of zeros commands no speed. -/
theorem commands_of_zero {data : List ℚ} (h : ∀ x ∈ data, x = 0) {r : Motor.NodeId × Motor.Rpm}
    (hr : r ∈ Motor.commands c data) : r.2 = 0 := by
  obtain ⟨i, hi⟩ := List.mem_iff_getElem?.mp (List.of_mem_zip hr).2
  obtain ⟨dir, x, -, hx, hproduct⟩ := List.getElem?_zipWith_eq_some.mp hi
  rw [← hproduct, h x (List.mem_of_getElem? hx), mul_zero]

theorem Traced.speedFromKey (h : Traced p c D₁ D₂ T w) {l : Label}
    (hstep : PolishingRobot.System.step p lib c w l = some w') :
    SpeedFromKey p c D₁ D₂ T w l := by
  intro l' hlabel a ha q hq hne
  have hmove : ∃ w₁, w.moveMotor c l = some w₁ := by
    cases l with
    | motorCmd =>
        obtain ⟨w₁, hmove, -⟩ := Option.map_eq_some_iff.mp hstep
        exact ⟨w₁, hmove⟩
    | motor l => exact ⟨w', hstep⟩
    | _ => cases hlabel
  obtain ⟨w₁, hmove⟩ := hmove
  obtain ⟨l₁, s', hlabel₁, hmotor, -⟩ := World.moveMotor_eq_some hmove
  obtain rfl : l' = l₁ := Option.some.inj (hlabel.symm.trans hlabel₁)
  obtain ⟨e, he, hsince, r, hr, hnode, hspeed⟩ :=
    Motor.step_recentSpeed h.fresh hmotor a ha q hq hne
  rcases h.accepted e he with hzero | ⟨twist, ⟨k, hk, hpressed, rfl, hdirection⟩, hdata⟩
  · apply absurd _ hne
    rw [hspeed, commands_of_zero hzero hr]
    simp [Motor.mounted, Motor.truncToInt32]
  · refine ⟨k, hk, ?_, hdirection, r, hdata ▸ hr, hnode, hspeed⟩
    change w.now - (c.cmdTimeoutSec + T) ≤ e.1 at hsince
    linarith

/-- In every run of the three programs that is in time, whichever messages are
dropped, every speed other than zero that is sent to a drive is that of a key
with a direction, read by the loop at most the two delays, the two timeouts and
the time between two ticks before. -/
theorem speeds_come_from_keys (p : Base.Parameters) (lib : Trigonometry ℚ) (c : Motor.Config)
    (D₁ D₂ T linear angular now : ℚ) (ls : List Label) (hT : 0 ≤ T)
    (htimeout : 0 ≤ c.cmdTimeoutSec)
    (hok : Along (step p lib c) (fun w l _ => InTime c D₁ D₂ T w l)
      (start c linear angular now) ls) :
    Along (step p lib c) (fun w l _ => SpeedFromKey p c D₁ D₂ T w l)
      (start c linear angular now) ls := by
  have keep : ∀ w l w', Traced p c D₁ D₂ T w → InTime c D₁ D₂ T w l →
      step p lib c w l = some w' → Traced p c D₁ D₂ T w' :=
    fun w l w' h hok hstep => h.step hT htimeout hok hstep
  have good : ∀ w l w', Traced p c D₁ D₂ T w → InTime c D₁ D₂ T w l →
      step p lib c w l = some w' → SpeedFromKey p c D₁ D₂ T w l :=
    fun w l w' h _ hstep => h.speedFromKey hstep
  exact along_of_invariant keep good (start_traced linear angular now) hok

/-- Start-up of one drive, a key for the way ahead, and the speed that the
resend loop sends for it, 0.3 s after the key. -/
def aheadOnce : List Label :=
  Motor.bringUp.map .motor ++
    [.key { first := ['i'] }, .motor (.delay (1 / 10)), .cmdVel, .motor (.delay (1 / 10)),
      .controlTimer, .motor (.delay (1 / 10)), .motorCmd] ++
    (Motor.moves 2 5 ++ Motor.moves 1 3).map .motor

theorem speeds_come_from_keys_aheadOnce :
    Along (step {} ⟨fun _ => 1, fun _ => 0, fun _ _ => 0⟩ Motor.oneDrive)
      (fun w l _ => SpeedFromKey {} Motor.oneDrive (1 / 10) (1 / 10) 1 w l)
      (start Motor.oneDrive (3 / 10) (3 / 10) 100) aheadOnce :=
  speeds_come_from_keys {} _ Motor.oneDrive (1 / 10) (1 / 10) 1 (3 / 10) (3 / 10) 100 aheadOnce
    (by decide) (by decide) (by decide +kernel)

end PolishingRobot.System
