import PolishingRobot.Base.Controller
import PolishingRobot.Base.SpeedLimits
import PolishingRobot.Runs.LabelledRuns

/-!
# Rejected parameters

The constructor reports three parameters as invalid, the callbacks test two of
them. A separation that is not positive passes them, and the callbacks compute
with it.
-/

namespace PolishingRobot.Base

open Numbers Runs

/-- The condition of the constructor's error message. -/
def Parameters.ReportedInvalid (p : Parameters) : Prop :=
  p.wheelRadius ≤ 0 ∨ p.wheelSeparation ≤ 0 ∨ p.gearRatio = 0

instance (p : Parameters) : Decidable p.ReportedInvalid :=
  inferInstanceAs (Decidable (_ ∨ _ ∨ _))

/-- The parameters by which `velocityCallback` divides for a message, and the
halving between them. -/
def velocityDivisors {α : Type} (p : Parameters) : List α → List ℚ
  | _ :: _ :: _ =>
      if p.wheelRadius ≤ 0 ∨ p.gearRatio = 0 then []
      else [p.gearRatio, p.gearRatio, 2, p.wheelSeparation]
  | _ => []

/-- What the spinner may call next. -/
inductive Event (α : Type) where
  | cmdVel (now : Time) (linearX angularZ : α)
  | timer (now : Time)
  | velocity (now : Time) (data : List α)

section Doubles

variable {α : Type} [Add α] [Sub α] [Mul α] [Div α] [Neg α] [RatCast α] [LT α] [DecidableLT α]

/-- The members after a callback. -/
def step (p : Parameters) (lib : Trigonometry α) (s : BaseController α) :
    Event α → BaseController α
  | .cmdVel now linearX angularZ => cmdVelCallback now s linearX angularZ
  | .timer _ => s
  | .velocity now data => (velocityCallback p now s lib data).1

/-- A callback of a base that stands still: zero speeds, no division by zero,
the pose as it was and no odometry. -/
def StandsStill (p : Parameters) (lib : Trigonometry α) (s : BaseController α) :
    Event α → BaseController α → Prop
  | .cmdVel _ _ _, _ => True
  | .timer now, _ => controlTimer p now s = [((0 : ℚ) : α), ((0 : ℚ) : α)]
  | .velocity now data, s' =>
      0 ∉ velocityDivisors p data ∧ (s'.x, s'.y, s'.theta) = (s.x, s.y, s.theta) ∧
        (velocityCallback p now s lib data).2 = none

variable {p : Parameters}

/-- Behind the tests of the callbacks nothing moves. -/
theorem standsStill_of_tested (hp : p.wheelRadius ≤ 0 ∨ p.gearRatio = 0) (lib : Trigonometry α)
    (s : BaseController α) (e : Event α) : StandsStill p lib s e (step p lib s e) := by
  cases e with
  | cmdVel => trivial
  | timer now => exact if_pos hp
  | velocity now data =>
      have hnone : velocityCallback p now s lib data = (s, none) ∧ velocityDivisors p data = [] := by
        rcases data with _ | ⟨first, _ | ⟨second, rest⟩⟩
        · exact ⟨rfl, rfl⟩
        · exact ⟨rfl, rfl⟩
        · have htwist : measuredTwist p (first :: second :: rest) = none := if_pos hp
          exact ⟨by rw [velocityCallback, htwist], if_pos hp⟩
      obtain ⟨hcallback, hdivisors⟩ := hnone
      refine ⟨by simp [hdivisors], ?_, by rw [hcallback]⟩
      rw [step, hcallback]

omit [Neg α] [LT α] [DecidableLT α] in
/-- Parameters that pass the tests give a twist for any two speeds. -/
theorem measuredTwist_of_untested (hp : ¬ (p.wheelRadius ≤ 0 ∨ p.gearRatio = 0))
    (first second : α) : ∃ v w, measuredTwist p [first, second] = some (v, w) := by
  rw [measuredTwist, if_neg hp]
  split
  · exact ⟨_, _, rfl⟩
  · exact ⟨_, _, rfl⟩

/-- Two measurements, one second apart. -/
def twoMeasurements : List (Event α) :=
  [.velocity 1 [((0 : ℚ) : α), ((0 : ℚ) : α)], .velocity 2 [((0 : ℚ) : α), ((0 : ℚ) : α)]]

/-- Parameters that pass the tests of the callbacks integrate the pose at the
second measurement. -/
theorem not_standsStill_of_untested (hp : ¬ (p.wheelRadius ≤ 0 ∨ p.gearRatio = 0))
    (lib : Trigonometry α) :
    ¬ Along (total (step p lib)) (StandsStill p lib) BaseController.start twoMeasurements := by
  obtain ⟨v, w, htwist⟩ := measuredTwist_of_untested hp ((0 : ℚ) : α) ((0 : ℚ) : α)
  intro hstill
  have hsecond := ((along_total_cons _ _ _ _ _).mp ((along_total_cons _ _ _ _ _).mp hstill).2).1
  have hfirst : step p lib BaseController.start
      (.velocity 1 [((0 : ℚ) : α), ((0 : ℚ) : α)]) =
        { BaseController.start with lastOdomTime := 1, odomInitialized := true } := by
    rw [step, velocityCallback, htwist]
    rfl
  rw [hfirst] at hsecond
  have hnone := hsecond.2.2
  rw [velocityCallback, htwist] at hnone
  have hdt : ¬ ((2 : ℚ) - 1 ≤ 0) := by norm_num
  simp [hdt] at hnone

/-- If the constructor reports the parameters, the base stands still in every
run exactly if a separation that is not positive does not come alone. -/
theorem invalid_geometry_stops_iff (p : Parameters) (lib : Trigonometry α) :
    (p.ReportedInvalid → ∀ es : List (Event α),
        Along (total (step p lib)) (StandsStill p lib) BaseController.start es) ↔
      (p.wheelSeparation ≤ 0 → p.wheelRadius ≤ 0 ∨ p.gearRatio = 0) := by
  constructor
  · intro hstops hseparation
    by_contra htested
    exact not_standsStill_of_untested htested lib (hstops (.inr (.inl hseparation)) twoMeasurements)
  · intro hcovered hreported es
    have htested : p.wheelRadius ≤ 0 ∨ p.gearRatio = 0 := by
      rcases hreported with hradius | hseparation | hgear
      · exact .inl hradius
      · exact hcovered hseparation
      · exact .inr hgear
    apply along_of_forall
    intro s e s' hs'
    obtain rfl := Option.some.inj hs'
    exact standsStill_of_tested htested lib s e

end Doubles

/-- The functions of the library at zero; `nan` goes through. -/
def atZero : Trigonometry Double where
  cos x := if x = .num 0 then .num 1 else .nan
  sin x := if x = .num 0 then .num 0 else .nan
  atan2 y x := if y = .num 0 ∧ x = .num 1 then .num 0 else .nan

/-- The defaults without the separation of the wheels. -/
def noSeparation : Parameters := { wheelSeparation := 0 }

/-- At rest, the second measurement leaves a pose that is no number. -/
theorem no_separation_poisons :
    noSeparation.ReportedInvalid ∧
      (let s := twoMeasurements.foldl (step noSeparation atZero) BaseController.start
       (s.x, s.y, s.theta) = (.nan, .nan, .nan)) ∧
      ¬ (noSeparation.ReportedInvalid → ∀ es,
        Along (total (step noSeparation atZero)) (StandsStill noSeparation atZero)
          BaseController.start es) := by
  have hreported : noSeparation.ReportedInvalid := .inr (.inl le_rfl)
  refine ⟨hreported, by decide +kernel, ?_⟩
  intro hstops
  have huntested : ¬ (noSeparation.wheelRadius ≤ 0 ∨ noSeparation.gearRatio = 0) := by
    decide +kernel
  exact not_standsStill_of_untested huntested atZero (hstops hreported twoMeasurements)

end PolishingRobot.Base
