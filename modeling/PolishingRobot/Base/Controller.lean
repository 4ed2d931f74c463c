import Mathlib.Algebra.Order.Field.Rat
import Mathlib.Data.Rat.Cast.Defs

/-!
# The base controller

The differential drive between `/cmd_vel` and `/motor/cmd`, and between
`/motor/velocity` and the odometry. The doubles are any type with the operations
that the source applies to them; the functions of the C library are given.
-/

namespace PolishingRobot.Base

/-- Seconds, exact. -/
abbrev Time := ℚ

/-- The parameters that the callbacks read, with the defaults of the source. -/
structure Parameters where
  wheelRadius : ℚ := 1 / 10
  wheelSeparation : ℚ := 1 / 2
  gearRatio : ℚ := 1
  maxLinearVel : ℚ := 0
  maxAngularVel : ℚ := 0
  cmdVelTimeout : ℚ := 1 / 2
  odomFrame : String := "odom"
  baseFrame : String := "base_link"
  publishTf : Bool := true
  swapLr : Bool := false

/-- The double `M_PI`. -/
def mPi : ℚ := 884279719003555 / 281474976710656

def kRpmToRadPerSec : ℚ := 2 * mPi / 60

def kRadPerSecToRpm : ℚ := 60 / (2 * mPi)

/-- The members that the callbacks change. -/
structure BaseController (α : Type) where
  targetV : α
  targetW : α
  lastCmdVelTime : Time
  x : α
  y : α
  theta : α
  lastOdomTime : Time
  odomInitialized : Bool

/-- The functions of the C library that the odometry uses. -/
structure Trigonometry (α : Type) where
  cos : α → α
  sin : α → α
  atan2 : α → α → α

/-- An odometry message; the orientation is the turn by `yaw` about the z axis. -/
structure Odometry (α : Type) where
  stamp : Time
  frameId : String
  childFrameId : String
  x : α
  y : α
  yaw : α
  linear : α
  angular : α

/-- A transform with the pose of an odometry message. -/
structure TransformStamped (α : Type) where
  stamp : Time
  frameId : String
  childFrameId : String
  x : α
  y : α
  yaw : α

section Doubles

variable {α : Type} [Add α] [Sub α] [Mul α] [Div α] [Neg α] [RatCast α] [LT α] [DecidableLT α]

/-- `std::min`. -/
def stdMin (a b : α) : α := if b < a then b else a

/-- `std::max`. -/
def stdMax (a b : α) : α := if a < b then b else a

variable (p : Parameters) (now : Time) (s : BaseController α)

/-- The members after construction. -/
def BaseController.start : BaseController α where
  targetV := (0 : ℚ)
  targetW := (0 : ℚ)
  lastCmdVelTime := 0
  x := (0 : ℚ)
  y := (0 : ℚ)
  theta := (0 : ℚ)
  lastOdomTime := 0
  odomInitialized := false

def cmdVelCallback (linearX angularZ : α) : BaseController α :=
  { s with targetV := linearX, targetW := angularZ, lastCmdVelTime := now }

/-- The limit 0 stands for none. -/
def limited (maxVel : ℚ) (v : α) : α :=
  if 0 < maxVel then stdMax (-(maxVel : α)) (stdMin v maxVel) else v

/-- The target after the timeout and the limits. -/
def boundedTarget : α × α :=
  let target :=
    if p.cmdVelTimeout < now - s.lastCmdVelTime then (((0 : ℚ) : α), ((0 : ℚ) : α))
    else (s.targetV, s.targetW)
  (limited p.maxLinearVel target.1, limited p.maxAngularVel target.2)

/-- The motor speed of a wheel with the given speed over ground. -/
def motorRpm (v : α) : α := v / p.wheelRadius * kRadPerSecToRpm * p.gearRatio

/-- The speed over ground of a wheel with the given motor speed. -/
def wheelSpeed (rpm : α) : α := rpm / p.gearRatio * kRpmToRadPerSec * p.wheelRadius

/-- The motor speeds of the left and the right wheel. -/
def inverseKinematics (v w : α) : α × α :=
  (motorRpm p (v - w * p.wheelSeparation / (2 : ℚ)),
    motorRpm p (v + w * p.wheelSeparation / (2 : ℚ)))

/-- The linear and the angular speed for two motor speeds. -/
def forwardKinematics (left right : α) : α × α :=
  let vl := wheelSpeed p left
  let vr := wheelSpeed p right
  ((vl + vr) / (2 : ℚ), (vr - vl) / p.wheelSeparation)

/-- `controlTimer` returns the message for `/motor/cmd`. -/
def controlTimer : List α :=
  let (v, w) := boundedTarget p now s
  if p.wheelRadius ≤ 0 ∨ p.gearRatio = 0 then [(0 : ℚ), (0 : ℚ)]
  else
    let (left, right) := inverseKinematics p v w
    if p.swapLr then [right, left] else [left, right]

/-- The first part of `velocityCallback`: `(v, w)` from the measured speeds. -/
def measuredTwist : List α → Option (α × α)
  | first :: second :: _ =>
      if p.wheelRadius ≤ 0 ∨ p.gearRatio = 0 then none
      else if p.swapLr then some (forwardKinematics p second first)
      else some (forwardKinematics p first second)
  | _ => none

/-- The pose moves along the middle angle of the turn. -/
def integrate (lib : Trigonometry α) (dt v w : α) : BaseController α :=
  let dtheta := w * dt
  let thetaMid := s.theta + dtheta / (2 : ℚ)
  let theta := s.theta + dtheta
  { s with
    x := s.x + v * lib.cos thetaMid * dt
    y := s.y + v * lib.sin thetaMid * dt
    theta := lib.atan2 (lib.sin theta) (lib.cos theta) }

/-- `velocityCallback` returns the odometry message and the transform; the first
measured speeds only set the clock. -/
def velocityCallback (lib : Trigonometry α) (data : List α) :
    BaseController α × Option (Odometry α × Option (TransformStamped α)) :=
  match measuredTwist p data with
  | none => (s, none)
  | some (v, w) =>
      if !s.odomInitialized then
        ({ s with lastOdomTime := now, odomInitialized := true }, none)
      else
        let dt := now - s.lastOdomTime
        let s := { s with lastOdomTime := now }
        if dt ≤ 0 then (s, none)
        else
          let s := integrate s lib dt v w
          let odom : Odometry α :=
            ⟨now, p.odomFrame, p.baseFrame, s.x, s.y, s.theta, v, w⟩
          let tf : TransformStamped α :=
            ⟨now, p.odomFrame, p.baseFrame, s.x, s.y, s.theta⟩
          (s, some (odom, if p.publishTf then some tf else none))

end Doubles

end PolishingRobot.Base
