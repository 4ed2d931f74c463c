import Mathlib.Algebra.Order.Field.Rat
import Mathlib.Data.Rat.Floor

/-!
# Parameters of the motor driver

`Parameters` holds what the parameter server may deliver, with the defaults of
the source. `Config` holds the members after construction: the drives are never
empty, every drive has a direction, and a direction is a sign.
-/

namespace PolishingRobot.Motor

/-- Seconds, exact. -/
abbrev Time := ℚ

/-- Revolutions per minute, exact. -/
abbrev Rpm := ℚ

/-- A CANopen node identifier. -/
abbrev NodeId := UInt8

/-- The parameters that the modelled functions read. -/
structure Parameters where
  cmdTimeoutSec : ℚ := 1
  feedbackTimeoutSec : ℚ := 1 / 2
  reinitFeedbackLossSec : ℚ := 3
  faultResetIntervalSec : ℚ := 2
  requireTractionEnable : Bool := false
  useBrakeInterlock : Bool := false
  driveMotorIds : Option (List Int32) := none
  motorDirections : Option (List Int32) := none

/-- The members after construction. `canOpen` says whether `open` found the
CAN device. -/
structure Config where
  canOpen : Bool
  cmdTimeoutSec : ℚ
  feedbackTimeoutSec : ℚ
  reinitFeedbackLossSec : ℚ
  faultResetIntervalSec : ℚ
  requireTractionEnable : Bool
  useBrakeInterlock : Bool
  driveMotorIds : List NodeId
  motorDir : List Int
  ids_ne_nil : driveMotorIds ≠ []
  dir_length : motorDir.length = driveMotorIds.length
  dir_sign : ∀ d ∈ motorDir, d = 1 ∨ d = -1

/-- The drives of the parameter list; an absent or empty list means 1 and 2.
Identifiers are narrowed to a byte. -/
def loadDriveMotorIds : Option (List Int32) → List NodeId
  | some (id :: ids) => (id :: ids).map fun i => i.toUInt32.toUInt8
  | _ => [1, 2]

/-- The signs of the parameter list; all `+1` when it is absent or of another
length than the drives. -/
def loadMotorDir (ids : List NodeId) : Option (List Int32) → List Int
  | some dirs =>
      if dirs.length = ids.length then dirs.map fun d => if d < 0 then -1 else 1
      else ids.map fun _ => 1
  | none => ids.map fun _ => 1

theorem loadDriveMotorIds_ne_nil (ids : Option (List Int32)) : loadDriveMotorIds ids ≠ [] := by
  rcases ids with _ | _ | ⟨id, ids⟩ <;> simp [loadDriveMotorIds]

theorem loadMotorDir_length (ids : List NodeId) (dirs : Option (List Int32)) :
    (loadMotorDir ids dirs).length = ids.length := by
  cases dirs with
  | none => simp [loadMotorDir]
  | some dirs =>
      rw [loadMotorDir]
      split
      · rename_i h
        simpa using h
      · simp

theorem loadMotorDir_sign (ids : List NodeId) (dirs : Option (List Int32)) :
    ∀ d ∈ loadMotorDir ids dirs, d = 1 ∨ d = -1 := by
  have hone : ∀ d ∈ ids.map fun _ => (1 : Int), d = 1 ∨ d = -1 := by
    intro d hd
    obtain ⟨-, -, rfl⟩ := List.mem_map.mp hd
    exact .inl rfl
  cases dirs with
  | none => exact hone
  | some dirs =>
      rw [loadMotorDir]
      split
      · intro d hd
        obtain ⟨e, -, rfl⟩ := List.mem_map.mp hd
        by_cases he : e < 0
        · exact .inr (if_pos he)
        · exact .inl (if_neg he)
      · exact hone

/-- What the constructor makes of the parameters. -/
def loadConfig (canOpen : Bool) (p : Parameters) : Config where
  canOpen := canOpen
  cmdTimeoutSec := p.cmdTimeoutSec
  feedbackTimeoutSec := p.feedbackTimeoutSec
  reinitFeedbackLossSec := p.reinitFeedbackLossSec
  faultResetIntervalSec := p.faultResetIntervalSec
  requireTractionEnable := p.requireTractionEnable
  useBrakeInterlock := p.useBrakeInterlock
  driveMotorIds := loadDriveMotorIds p.driveMotorIds
  motorDir := loadMotorDir (loadDriveMotorIds p.driveMotorIds) p.motorDirections
  ids_ne_nil := loadDriveMotorIds_ne_nil _
  dir_length := loadMotorDir_length _ _
  dir_sign := loadMotorDir_sign _ _

end PolishingRobot.Motor
