import PolishingRobot.Motor.Targets

/-!
# What a tick reads

Beside the node a record keeps what the loops of the present tick have read
about each drive. Ticks never overlap, so the record is that of the one tick in
flight, and the findings of its loops say what the record says.
-/

namespace PolishingRobot.Motor

open Runs

/-- The drives as `get_alarm` found them, the ages of their feedback, and the
drives as `is_operation_enabled` found them, since the start of the tick. -/
structure Readings where
  alarms : List (NodeId × MotorState) := []
  ages : List (NodeId × Time) := []
  states : List (NodeId × MotorState) := []

namespace Readings

variable (c : Config) (r : Readings)

/-- Some drive's statusword decoded to `FAULT`. -/
def faulted : Bool := r.alarms.any fun p => getCia402State p.2.statusFlags = .fault

/-- Some drive reported an error code. -/
def coded : Bool := r.alarms.any fun p => p.2.errorCode ≠ 0

/-- Some feedback was older than `feedback_timeout_sec_`. -/
def late : Bool := r.ages.any fun p => c.feedbackTimeoutSec < p.2

/-- Some drive was not in operation. -/
def notEnabled : Bool :=
  r.states.any fun p => getCia402State p.2.statusFlags ≠ .operationEnabled

end Readings

/-- The record after an access of a thread. -/
def Body.reads (σ : Shared) (r : Readings) : Body → Readings
  | .control (.alarms (node :: _) _) => { r with alarms := r.alarms ++ [(node, σ.drives node)] }
  | .control (.feedback (node :: _) _) =>
      { r with ages := r.ages ++ [(node, σ.drives.feedbackAge node σ.now)] }
  | .control (.enabled (node :: _) _) => { r with states := r.states ++ [(node, σ.drives node)] }
  | _ => r

/-- A tick starts with an empty record. -/
def noteReadings (s : State) (l : Label) (r : Readings) : Readings :=
  match l with
  | .tick => {}
  | l => (s.mover l).elim r (Body.reads s.shared r)

/-- Steps of the node with the record of the present tick. -/
def reading (c : Config) : State × Readings → Label → Option (State × Readings) :=
  observe (step c) noteReadings

variable {c : Config} {σ : Shared} {s s' : State} {task : Nat} {turn : Turn} {l : Label}
  {b : Body} {r : Readings}

/-- The record covers the drives but for those that a loop has still to read,
and says what has been found. -/
structure Tallied (c : Config) (r : Readings) (found : Findings)
    (alarms ages states : List NodeId) : Prop where
  alarms : r.alarms.map Prod.fst ++ alarms = c.driveMotorIds
  ages : r.ages.map Prod.fst ++ ages = c.driveMotorIds
  states : r.states.map Prod.fst ++ states = c.driveMotorIds
  driveFault : found.driveFault = r.coded
  feedbackTimeout : found.feedbackTimeout = r.late c
  notEnabled : found.notEnabled = r.notEnabled

/-- What the record holds at a program counter, up to the last loop over the
drives. -/
def ControlLoop.Tallied (c : Config) (r : Readings) : ControlLoop → Prop
  | .watchdogLoad | .watchdogTime | .watchdogZero _ | .velocity _ _ | .status _ _ => r = {}
  | .alarms rest found => Motor.Tallied c r found rest c.driveMotorIds c.driveMotorIds
  | .publishAlarm _ rest =>
      Motor.Tallied c r { driveFault := true } rest c.driveMotorIds c.driveMotorIds
  | .feedback rest found | .feedbackAlarm _ _ rest found | .feedbackLost _ rest found =>
      Motor.Tallied c r found [] rest c.driveMotorIds
  | .storeError found | .publishError found => Motor.Tallied c r found [] [] c.driveMotorIds
  | .enabled rest found => Motor.Tallied c r found [] [] rest
  | _ => True

theorem tallied_empty (c : Config) :
    Tallied c {} {} c.driveMotorIds c.driveMotorIds c.driveMotorIds :=
  ⟨rfl, rfl, rfl, rfl, rfl, rfl⟩

variable {found : Findings} {node : NodeId} {alarms ages states : List NodeId}

theorem Tallied.read_alarm (h : Tallied c r found (node :: alarms) ages states)
    (d : MotorState) :
    Tallied c { r with alarms := r.alarms ++ [(node, d)] }
      { found with driveFault := found.driveFault || decide (d.errorCode ≠ 0) }
      alarms ages states := by
  refine ⟨?_, h.ages, h.states, ?_, h.feedbackTimeout, h.notEnabled⟩
  · simpa using h.alarms
  · simp [h.driveFault, Readings.coded]

theorem Tallied.read_age (h : Tallied c r found alarms (node :: ages) states) (age : Time) :
    Tallied c { r with ages := r.ages ++ [(node, age)] }
      { found with
        feedbackTimeout := found.feedbackTimeout || decide (c.feedbackTimeoutSec < age) }
      alarms ages states := by
  refine ⟨h.alarms, ?_, h.states, h.driveFault, ?_, h.notEnabled⟩
  · simpa using h.ages
  · simp [h.feedbackTimeout, Readings.late]

theorem Tallied.read_state (h : Tallied c r found alarms ages (node :: states))
    (d : MotorState) :
    Tallied c { r with states := r.states ++ [(node, d)] }
      { found with
        notEnabled := found.notEnabled ||
          decide (getCia402State d.statusFlags ≠ .operationEnabled) }
      alarms ages states := by
  refine ⟨h.alarms, h.ages, ?_, h.driveFault, h.feedbackTimeout, ?_⟩
  · simpa using h.states
  · simp [h.notEnabled, Readings.notEnabled]

/-- A loop that has read nothing has found nothing. -/
theorem Tallied.nothing_found (h : Tallied c r found alarms c.driveMotorIds c.driveMotorIds) :
    found = { driveFault := found.driveFault } := by
  have hages : r.ages = [] := by simpa using h.ages
  have hstates : r.states = [] := by simpa using h.states
  have htimeout : found.feedbackTimeout = false := by
    rw [h.feedbackTimeout, Readings.late, hages]
    rfl
  have henabled : found.notEnabled = false := by
    rw [h.notEnabled, Readings.notEnabled, hstates]
    rfl
  cases found
  simp_all

/-- One access of `get_alarm`. -/
theorem alarms_tallied {rest : List NodeId} {pc : ControlLoop}
    (h : Tallied c r found (node :: rest) c.driveMotorIds c.driveMotorIds)
    (hself : (controlLoop c σ (.alarms (node :: rest) found)).self = some (.control pc)) :
    pc.Tallied c { r with alarms := r.alarms ++ [(node, σ.drives node)] } := by
  have hread := h.read_alarm (σ.drives node)
  have hfound := h.nothing_found
  dsimp only [controlLoop, Drives.alarm] at hself
  by_cases hcode : (σ.drives node).errorCode = 0
  · rw [if_pos hcode] at hself
    cases hself
    simpa [ControlLoop.Tallied, hcode] using hread
  · rw [if_neg hcode] at hself
    cases hself
    rw [hfound] at hread
    simpa [ControlLoop.Tallied, hcode] using hread

/-- One reading of a feedback age. -/
theorem feedback_tallied {rest : List NodeId} {pc : ControlLoop}
    (h : Tallied c r found [] (node :: rest) c.driveMotorIds)
    (hself : (controlLoop c σ (.feedback (node :: rest) found)).self = some (.control pc)) :
    pc.Tallied c { r with ages := r.ages ++ [(node, σ.drives.feedbackAge node σ.now)] } := by
  have hread := h.read_age (σ.drives.feedbackAge node σ.now)
  dsimp only [controlLoop] at hself
  by_cases hlate : c.feedbackTimeoutSec < σ.drives.feedbackAge node σ.now
  · rw [if_pos hlate] at hself
    cases hself
    simpa [ControlLoop.Tallied, hlate] using hread
  · rw [if_neg hlate] at hself
    have hread' : Tallied c { r with ages := r.ages ++ [(node, σ.drives.feedbackAge node σ.now)] }
        found [] rest c.driveMotorIds := by
      simpa [hlate] using hread
    split at hself <;> cases hself <;> exact hread'

/-- One access of `is_operation_enabled`. -/
theorem enabled_tallied {rest : List NodeId} {pc : ControlLoop}
    (h : Tallied c r found [] [] (node :: rest))
    (hself : (controlLoop c σ (.enabled (node :: rest) found)).self = some (.control pc)) :
    pc.Tallied c { r with states := r.states ++ [(node, σ.drives node)] } := by
  have hread := h.read_state (σ.drives node)
  dsimp only [controlLoop] at hself
  cases hself
  by_cases hstate : getCia402State (σ.drives node).statusFlags = .operationEnabled
  · have henabled : σ.drives.isOperationEnabled node = true := decide_eq_true hstate
    rw [if_pos henabled]
    simpa [ControlLoop.Tallied, hstate] using hread
  · have hdisabled : ¬ σ.drives.isOperationEnabled node = true :=
      fun h => hstate (of_decide_eq_true h)
    rw [if_neg hdisabled]
    simpa [ControlLoop.Tallied, hstate] using hread

/-- Whatever a tick does next, its findings go on saying what the record says. -/
theorem controlLoop_tallied {pc pc' : ControlLoop} (h : pc.Tallied c r)
    (hself : (controlLoop c σ pc).self = some (.control pc')) :
    pc'.Tallied c ((Body.control pc).reads σ r) := by
  have hempty : r = {} → Motor.Tallied c r {} c.driveMotorIds c.driveMotorIds c.driveMotorIds := by
    rintro rfl
    exact tallied_empty c
  cases pc with
  | watchdogLoad => dsimp only [controlLoop] at hself; split at hself <;> cases hself <;> exact h
  | watchdogTime => dsimp only [controlLoop] at hself; split at hself <;> cases hself <;> exact h
  | watchdogZero rest => cases rest <;> cases hself <;> exact h
  | velocity rest data => cases rest <;> cases hself <;> exact h
  | status rest data =>
      cases rest <;> cases hself
      · exact hempty h
      · exact h
  | alarms rest found =>
      cases rest with
      | nil => cases hself; exact h
      | cons node rest => exact alarms_tallied h hself
  | publishAlarm text rest => cases hself; exact h
  | feedback rest found =>
      cases rest with
      | nil => cases hself; exact h
      | cons node rest => exact feedback_tallied h hself
  | feedbackAlarm node lost rest found => cases lost <;> cases hself <;> exact h
  | feedbackLost node rest found => cases hself; exact h
  | storeError found => cases hself; exact h
  | publishError found => cases hself; exact h
  | enabled rest found =>
      cases rest with
      | nil => dsimp only [controlLoop] at hself; split at hself <;> cases hself <;> trivial
      | cons node rest => exact enabled_tallied h hself
  | reinitPending rest =>
      cases rest with
      | nil => cases hself
      | cons node rest =>
          dsimp only [controlLoop] at hself
          split at hself <;> cases hself <;> trivial
  | wantTraction => cases hself; trivial
  | wantBrake traction =>
      dsimp only [controlLoop] at hself
      split at hself <;> cases hself
      trivial
  | loadTransition =>
      dsimp only [controlLoop] at hself
      split at hself <;> cases hself
      trivial
  | interval =>
      dsimp only [controlLoop] at hself
      split at hself <;> cases hself
      trivial
  | exchange =>
      dsimp only [controlLoop] at hself
      split at hself <;> cases hself
      trivial
  | startRecovery => cases hself

/-- At most one tick is in flight, and its findings are those of the record. -/
structure InTick (c : Config) (s : State) (r : Readings) : Prop where
  one : tokens (kindToken .control) s.threads ≤ 1
  tallied : ∀ t ∈ s.threads, ∀ pc, t.body = .control pc → pc.Tallied c r

theorem start_inTick (c : Config) (now : Time) : InTick c (start c now) {} where
  one := by simp [start, kindToken, Body.kind]
  tallied := by
    intro t ht pc hpc
    obtain rfl := List.mem_singleton.mp ht
    cases hpc

/-- Beside a tick no other thread is one. -/
theorem InTick.others {pre post : List Thread} {t u : Thread} (hs : InTick c s r)
    (hthreads : s.threads = pre ++ t :: post) (ht : t.body.kind = .control)
    (hu : u ∈ pre ++ post) : u.body.kind ≠ .control := by
  intro hkind
  have htwo := add_le_tokens (w := kindToken .control) (t := t) hu
  have hone := hs.one
  rw [← hthreads, kindToken, kindToken, if_pos ht, if_pos hkind] at htwo
  omega

theorem tick_idle (h : step c s .tick = some s') : anyOf s.threads .control = false := by
  rw [step] at h
  split at h
  · rename_i hidle
    simpa using (Bool.and_eq_true_iff.mp hidle).2
  · cases h

theorem Body.reads_of_kind (σ : Shared) (h : b.kind ≠ .control) : b.reads σ r = r := by
  cases b with
  | control pc => exact absurd rfl h
  | _ => rfl

theorem step_inTick (hs : InTick c s r) (h : step c s l = some s') :
    InTick c s' (noteReadings s l r) := by
  cases step_cases h with
  | delayed d hd => exact ⟨hs.one, hs.tallied⟩
  | received f hopen => exact ⟨hs.one, hs.tallied⟩
  | @called _ b hspin hb =>
      cases hb with
      | tick =>
          have hidle := tick_idle h
          constructor
          · simp [State.call, kindTokens_eq_zero hidle, kindToken, Body.kind]
          · intro t ht pc hpc
            rcases List.mem_append.mp ht with hold | hnew
            · have hany : anyOf s.threads .control = true :=
                List.any_eq_true.mpr ⟨t, hold, by simp [hpc, Body.kind]⟩
              rw [hidle] at hany
              cases hany
            · obtain rfl := List.mem_singleton.mp hnew
              cases hpc
              rfl
      | _ =>
          constructor
          · simpa [State.call, kindToken, Body.kind] using hs.one
          · intro t ht pc hpc
            rcases List.mem_append.mp ht with hold | hnew
            · exact hs.tallied t hold pc hpc
            · obtain rfl := List.mem_singleton.mp hnew
              cases hpc
  | @moved task pre post t turn hthreads hwake hturn hact =>
      have hnote : noteReadings s (.thread pre.length task) r = t.body.reads s.shared r := by
        change (s.mover (.thread pre.length task)).elim r (Body.reads s.shared r) = _
        rw [mover_eq hthreads]
        rfl
      rw [hnote]
      constructor
      · exact (kindTokens_moved (fun u now h => h.kind_ne_control) hthreads hturn).trans hs.one
      · intro u hu pc hpc
        rcases Body.threads_after hturn hu with hself | hspawns | hother
        · have ht : t ∈ s.threads := mover_mem hthreads
          have hkind := Body.turn_kind hturn hself
          rw [hpc] at hself hkind
          generalize hb : t.body = b at hturn hkind
          cases b with
          | control pc₀ =>
              cases hturn
              exact controlLoop_tallied (hs.tallied t ht pc₀ hb) hself
          | _ => cases hkind
        · rw [hpc] at hspawns
          exact absurd rfl hspawns.kind_ne_control
        · have hcontrol : u.body.kind = .control := by rw [hpc]; rfl
          have hread : t.body.reads s.shared r = r := by
            apply Body.reads_of_kind
            intro ht
            exact hs.others hthreads ht hother hcontrol
          rw [hread]
          exact hs.tallied u (other_mem hthreads hother) pc hpc

/-- The findings of the tick in flight stay those of the record. -/
theorem reading_inTick (w : State × Readings) (l : Label) (w' : State × Readings)
    (hw : InTick c w.1 w.2) (h : reading c w l = some w') : InTick c w'.1 w'.2 := by
  obtain ⟨hstep, hnote⟩ := observe_eq_some h
  rw [hnote]
  exact step_inTick hw hstep

end PolishingRobot.Motor
