import PolishingRobot.Base.InvalidGeometry
import PolishingRobot.Plane.Unicycles

/-!
# The pose of the odometry

Over the reals, a measurement multiplies the pose by a rigid motion, and the
normalised heading is the same angle as the sum of all turns. So the pose of a
run is the path of its legs: from one measurement to the next with the twist of
the later one.
-/

namespace PolishingRobot.Base

open Plane

/-- The functions of the C library on the reals. -/
noncomputable def realLibrary : Trigonometry ℝ where
  cos := Real.cos
  sin := Real.sin
  atan2 y x := Complex.arg ⟨x, y⟩

/-- Two motor speeds and what they say about the base. -/
structure Measurement where
  time : Time
  v : ℝ
  w : ℝ

/-- What `velocityCallback` measures; other events and rejected messages
measure nothing. -/
noncomputable def measurement (p : Parameters) : Event ℝ → Option Measurement
  | .velocity now data => (measuredTwist p data).map fun twist => ⟨now, twist.1, twist.2⟩
  | .cmdVel _ _ _ | .timer _ => none

noncomputable def measurements (p : Parameters) (es : List (Event ℝ)) : List Measurement :=
  es.filterMap (measurement p)

/-- A stretch of time with one twist. -/
structure Leg where
  dt : Time
  v : ℝ
  w : ℝ

/-- The angle that the base turns by. -/
noncomputable def Leg.turn (l : Leg) : ℝ := l.w * l.dt

/-- The way that the base goes. -/
noncomputable def Leg.way (l : Leg) : ℝ := l.v * l.dt

noncomputable def Leg.motion (l : Leg) : RigidMotion := midpointStep l.v l.w l.dt

/-- The leg between two measurements; a clock that did not advance gives none. -/
def leg (m m' : Measurement) : List Leg :=
  if m'.time - m.time ≤ 0 then [] else [⟨m'.time - m.time, m'.v, m'.w⟩]

/-- The legs between consecutive measurements. -/
def legs : List Measurement → List Leg
  | m :: m' :: ms => leg m m' ++ legs (m' :: ms)
  | _ => []

/-- Every leg with the sum of the turns before it. -/
noncomputable def headings : ℝ → List Leg → List (ℝ × Leg)
  | _, [] => []
  | a, l :: ls => (a, l) :: headings (a + l.turn) ls

noncomputable def path (ls : List Leg) : RigidMotion := (ls.map Leg.motion).prod

theorem path_append (ls ls' : List Leg) : path (ls ++ ls') = path ls * path ls' := by
  simp [path]

noncomputable def BaseController.pose (s : BaseController ℝ) : RigidMotion :=
  ⟨⟨s.x, s.y⟩, (s.theta : Real.Angle)⟩

/-- The members after a run of callbacks. -/
noncomputable def driven (p : Parameters) (es : List (Event ℝ)) : BaseController ℝ :=
  es.foldl (step p realLibrary) BaseController.start

/-- The heading as `atan2` leaves it. -/
def Normalised (theta : ℝ) : Prop := theta ∈ Set.Ioc (-Real.pi) Real.pi

variable {p : Parameters} {s : BaseController ℝ}

theorem atan2_coe (a : ℝ) :
    (realLibrary.atan2 (realLibrary.sin a) (realLibrary.cos a) : Real.Angle) = a := by
  have hpoint : (⟨Real.cos a, Real.sin a⟩ : ℂ) =
      (Real.Angle.cos a : ℂ) + (Real.Angle.sin a : ℂ) * Complex.I := by
    rw [Real.Angle.cos_coe, Real.Angle.sin_coe, Complex.mk_eq_add_mul_I]
  calc (realLibrary.atan2 (realLibrary.sin a) (realLibrary.cos a) : Real.Angle)
      = (Complex.arg ⟨Real.cos a, Real.sin a⟩ : Real.Angle) := rfl
    _ = a := by rw [hpoint, Complex.arg_cos_add_sin_mul_I_coe_angle]

theorem exp_mul_I (a : ℝ) : Complex.exp (a * Complex.I) = ⟨Real.cos a, Real.sin a⟩ :=
  Complex.ext (Complex.exp_ofReal_mul_I_re a) (Complex.exp_ofReal_mul_I_im a)

/-- A measured leg is appended to the pose. -/
theorem integrate_pose (s : BaseController ℝ) (l : Leg) :
    (integrate s realLibrary (l.dt : ℝ) l.v l.w).pose = s.pose * l.motion := by
  have hdirection : Complex.exp (s.theta * Complex.I) * Complex.exp (l.w * l.dt / 2 * Complex.I) =
      Complex.exp (((s.theta + l.turn / 2 : ℝ) : ℂ) * Complex.I) := by
    rw [← Complex.exp_add]
    congr 1
    rw [Leg.turn]
    push_cast
    ring
  ext1
  · calc (integrate s realLibrary (l.dt : ℝ) l.v l.w).pose.shift
        = ⟨s.x, s.y⟩ + l.way * Complex.exp (((s.theta + l.turn / 2 : ℝ) : ℂ) * Complex.I) := by
          rw [exp_mul_I]
          apply Complex.ext
          · simp [BaseController.pose, integrate, realLibrary, Leg.way, Leg.turn]
            ring
          · simp [BaseController.pose, integrate, realLibrary, Leg.way, Leg.turn]
            ring
      _ = (s.pose * l.motion).shift := by
          rw [← hdirection, RigidMotion.mul_shift, RigidMotion.rotor]
          simp only [BaseController.pose, toCircle_coe, Leg.motion, midpointStep, Leg.way]
          push_cast
          ring
  · calc (integrate s realLibrary (l.dt : ℝ) l.v l.w).pose.turn
        = ((s.theta + l.turn : ℝ) : Real.Angle) := atan2_coe _
      _ = (s.pose * l.motion).turn := by
          rw [Real.Angle.coe_add]
          rfl

theorem integrate_normalised (s : BaseController ℝ) (dt v w : ℝ) :
    Normalised (integrate s realLibrary dt v w).theta := Complex.arg_mem_Ioc _

/-- An event that measures nothing leaves the pose and the clock of the odometry. -/
theorem step_of_measurement_none {e : Event ℝ} (h : measurement p e = none) :
    (step p realLibrary s e).pose = s.pose ∧
      (step p realLibrary s e).theta = s.theta ∧
      (step p realLibrary s e).odomInitialized = s.odomInitialized ∧
      (step p realLibrary s e).lastOdomTime = s.lastOdomTime := by
  cases e with
  | cmdVel now v w => exact ⟨rfl, rfl, rfl, rfl⟩
  | timer now => exact ⟨rfl, rfl, rfl, rfl⟩
  | velocity now data =>
      have hnone : measuredTwist p data = none := by simpa [measurement] using h
      have hstep : step p realLibrary s (.velocity now data) = s := by
        rw [step, velocityCallback, hnone]
      rw [hstep]
      exact ⟨rfl, rfl, rfl, rfl⟩

/-- The first measurement sets the clock of the odometry. -/
theorem step_of_first {e : Event ℝ} {m : Measurement} (h : measurement p e = some m)
    (hs : s.odomInitialized = false) :
    step p realLibrary s e = { s with lastOdomTime := m.time, odomInitialized := true } := by
  cases e with
  | cmdVel now v w => cases h
  | timer now => cases h
  | velocity now data =>
      obtain ⟨twist, htwist, rfl⟩ := Option.map_eq_some_iff.mp h
      obtain ⟨v, w⟩ := twist
      rw [step, velocityCallback, htwist]
      simp [hs]

/-- A later measurement appends its leg. -/
theorem step_of_later {e : Event ℝ} {m m' : Measurement} (h : measurement p e = some m')
    (hs : s.odomInitialized = true) (hclock : s.lastOdomTime = m.time)
    (htheta : Normalised s.theta) :
    (step p realLibrary s e).pose = s.pose * path (leg m m') ∧
      Normalised (step p realLibrary s e).theta ∧
      (step p realLibrary s e).odomInitialized = true ∧
      (step p realLibrary s e).lastOdomTime = m'.time := by
  cases e with
  | cmdVel now v w => cases h
  | timer now => cases h
  | velocity now data =>
      obtain ⟨twist, htwist, rfl⟩ := Option.map_eq_some_iff.mp h
      obtain ⟨v, w⟩ := twist
      rw [step, velocityCallback, htwist]
      simp only [hs, hclock, Bool.not_true, Bool.false_eq_true, if_false]
      by_cases hdt : now - m.time ≤ 0
      · rw [if_pos hdt, leg, if_pos hdt]
        refine ⟨?_, htheta, rfl, rfl⟩
        simp [path, BaseController.pose]
      · rw [if_neg hdt, leg, if_neg hdt]
        refine ⟨?_, integrate_normalised _ _ _ _, rfl, rfl⟩
        have hpose := integrate_pose
          { s with lastOdomTime := now, odomInitialized := true } ⟨now - m.time, v, w⟩
        simpa [path, BaseController.pose] using hpose

/-- A run from a state whose last measurement is known appends the legs. -/
theorem run_from (p : Parameters) (es : List (Event ℝ)) {m : Measurement}
    (hs : s.odomInitialized = true)
    (hclock : s.lastOdomTime = m.time) (htheta : Normalised s.theta) :
    (es.foldl (step p realLibrary) s).pose = s.pose * path (legs (m :: measurements p es)) ∧
      Normalised (es.foldl (step p realLibrary) s).theta := by
  induction es generalizing s m with
  | nil => exact ⟨by simp [measurements, legs, path], htheta⟩
  | cons e es ih =>
      cases he : measurement p e with
      | none =>
          obtain ⟨hpose, htheta', hs', hclock'⟩ := step_of_measurement_none (s := s) he
          have hrest := ih (s := step p realLibrary s e) (m := m) (hs'.trans hs)
            (hclock'.trans hclock) (htheta' ▸ htheta)
          have hms : measurements p (e :: es) = measurements p es := by
            rw [measurements, List.filterMap_cons_none he]
            rfl
          rw [hms, ← hpose]
          exact hrest
      | some m' =>
          obtain ⟨hpose, htheta', hs', hclock'⟩ := step_of_later he hs hclock htheta
          have hrest := ih (s := step p realLibrary s e) (m := m') hs' hclock' htheta'
          have hms : measurements p (e :: es) = m' :: measurements p es := by
            rw [measurements, List.filterMap_cons_some he]
            rfl
          rw [hms, legs, path_append, ← mul_assoc, ← hpose]
          exact hrest

theorem start_pose : (BaseController.start : BaseController ℝ).pose = 1 := by
  ext1
  · apply Complex.ext <;> simp [BaseController.pose, BaseController.start]
  · simp [BaseController.pose, BaseController.start]

theorem normalised_zero : Normalised 0 :=
  ⟨neg_lt_zero.mpr Real.pi_pos, Real.pi_pos.le⟩

/-- Before the first measurement nothing moves, afterwards the legs are
appended. -/
theorem run_before (p : Parameters) (es : List (Event ℝ)) (hs : s.odomInitialized = false)
    (htheta : Normalised s.theta) :
    (es.foldl (step p realLibrary) s).pose = s.pose * path (legs (measurements p es)) ∧
      Normalised (es.foldl (step p realLibrary) s).theta := by
  induction es generalizing s with
  | nil => exact ⟨by simp [measurements, legs, path], htheta⟩
  | cons e es ih =>
      cases he : measurement p e with
      | none =>
          obtain ⟨hpose, htheta', hs', -⟩ := step_of_measurement_none (s := s) he
          have hrest := ih (s := step p realLibrary s e) (hs'.trans hs) (htheta' ▸ htheta)
          have hms : measurements p (e :: es) = measurements p es := by
            rw [measurements, List.filterMap_cons_none he]
            rfl
          rw [hms, ← hpose]
          exact hrest
      | some m =>
          have hfirst := step_of_first he hs
          have hms : measurements p (e :: es) = m :: measurements p es := by
            rw [measurements, List.filterMap_cons_some he]
            rfl
          rw [hms, List.foldl_cons, hfirst]
          exact run_from p es rfl rfl htheta

/-- The pose after a run is its path. -/
theorem driven_pose (p : Parameters) (es : List (Event ℝ)) :
    (driven p es).pose = path (legs (measurements p es)) ∧ Normalised (driven p es).theta := by
  have htheta : Normalised (BaseController.start : BaseController ℝ).theta := by
    simpa [BaseController.start] using normalised_zero
  obtain ⟨hpose, hnormal⟩ := run_before p es rfl htheta
  exact ⟨by rw [driven, hpose, start_pose, one_mul], hnormal⟩

theorem headed_motion (a : ℝ) (ls : List Leg) :
    RigidMotion.headed a (ls.map Leg.motion) =
      (headings a ls).map fun q => ((q.1 : Real.Angle), q.2.motion) := by
  induction ls generalizing a with
  | nil => rfl
  | cons l ls ih =>
      have hturn : (a : Real.Angle) + l.motion.turn = ((a + l.turn : ℝ) : Real.Angle) := by
        rw [Real.Angle.coe_add]
        rfl
      rw [List.map_cons, RigidMotion.headed, headings, List.map_cons, hturn, ih]

/-- The shift of a path, leg by leg along its middle heading. -/
theorem path_shift (ls : List Leg) :
    (path ls).shift = ⟨((headings 0 ls).map fun q =>
        q.2.way * Real.cos (q.1 + q.2.turn / 2)).sum,
      ((headings 0 ls).map fun q => q.2.way * Real.sin (q.1 + q.2.turn / 2)).sum⟩ := by
  have hpiece : ∀ q : ℝ × Leg, ((q.1 : Real.Angle).toCircle : ℂ) * q.2.motion.shift =
      ⟨q.2.way * Real.cos (q.1 + q.2.turn / 2), q.2.way * Real.sin (q.1 + q.2.turn / 2)⟩ := by
    intro q
    have hdirection : Complex.exp (q.1 * Complex.I) *
        Complex.exp (q.2.w * q.2.dt / 2 * Complex.I) =
          ⟨Real.cos (q.1 + q.2.turn / 2), Real.sin (q.1 + q.2.turn / 2)⟩ := by
      rw [← exp_mul_I, ← Complex.exp_add]
      congr 1
      rw [Leg.turn]
      push_cast
      ring
    calc ((q.1 : Real.Angle).toCircle : ℂ) * q.2.motion.shift
        = (q.2.way : ℂ) * (Complex.exp (q.1 * Complex.I) *
            Complex.exp (q.2.w * q.2.dt / 2 * Complex.I)) := by
          rw [toCircle_coe, Leg.motion, midpointStep, Leg.way]
          push_cast
          ring
      _ = _ := by
          rw [hdirection]
          apply Complex.ext <;> simp
  have hsum : ∀ qs : List (ℝ × Leg),
      (qs.map fun q => ((q.1 : Real.Angle).toCircle : ℂ) * q.2.motion.shift).sum =
        ⟨(qs.map fun q => q.2.way * Real.cos (q.1 + q.2.turn / 2)).sum,
          (qs.map fun q => q.2.way * Real.sin (q.1 + q.2.turn / 2)).sum⟩ := by
    intro qs
    induction qs with
    | nil => rfl
    | cons q qs ih =>
        rw [List.map_cons, List.sum_cons, ih, hpiece]
        apply Complex.ext <;> simp
  rw [path, RigidMotion.prod_shift, ← Real.Angle.coe_zero, headed_motion, List.map_map]
  exact hsum (headings 0 ls)

theorem path_turn (ls : List Leg) :
    (path ls).turn = (((ls.map Leg.turn).sum : ℝ) : Real.Angle) := by
  rw [path, RigidMotion.prod_turn, List.map_map]
  induction ls with
  | nil => rfl
  | cons l ls ih =>
      rw [List.map_cons, List.sum_cons, ih, List.map_cons, List.sum_cons, Real.Angle.coe_add]
      rfl

/-- The pose is reckoned from the legs: every leg goes along its middle heading,
and the headings add up without a normalisation in between. -/
structure Reckoned (ls : List Leg) (x y theta : ℝ) : Prop where
  x_eq : x = ((headings 0 ls).map fun q => q.2.way * Real.cos (q.1 + q.2.turn / 2)).sum
  y_eq : y = ((headings 0 ls).map fun q => q.2.way * Real.sin (q.1 + q.2.turn / 2)).sum
  theta_eq : (theta : Real.Angle) = ((ls.map Leg.turn).sum : ℝ)
  normalised : Normalised theta
  near : √(x ^ 2 + y ^ 2) ≤ (ls.map fun l => |l.way|).sum

theorem reckoned_of_pose {ls : List Leg} (hpose : s.pose = path ls) (htheta : Normalised s.theta) :
    Reckoned ls s.x s.y s.theta where
  x_eq := by
    have hshift := congrArg (fun m => m.shift.re) hpose
    simpa [path_shift, BaseController.pose] using hshift
  y_eq := by
    have hshift := congrArg (fun m => m.shift.im) hpose
    simpa [path_shift, BaseController.pose] using hshift
  theta_eq := by
    have hturn := congrArg RigidMotion.turn hpose
    rwa [path_turn] at hturn
  normalised := htheta
  near := by
    have hnorm : √(s.x ^ 2 + s.y ^ 2) = ‖s.pose.shift‖ := by
      rw [Complex.norm_eq_sqrt_sq_add_sq]
      rfl
    have hlegs : (ls.map fun l => ‖l.motion.shift‖) = ls.map fun l => |l.way| := by
      apply List.map_congr_left
      intro l _
      exact norm_midpointStep_shift l.v l.w l.dt
    calc √(s.x ^ 2 + s.y ^ 2)
        = ‖(path ls).shift‖ := by rw [hnorm, hpose]
      _ ≤ ((ls.map Leg.motion).map fun m => ‖m.shift‖).sum := RigidMotion.norm_prod_shift_le _
      _ = (ls.map fun l => |l.way|).sum := by
          rw [List.map_map, ← hlegs]
          rfl

/-- What a callback publishes. -/
noncomputable def published (p : Parameters) (s : BaseController ℝ) :
    Event ℝ → Option (Odometry ℝ × Option (TransformStamped ℝ))
  | .velocity now data => (velocityCallback p now s realLibrary data).2
  | .cmdVel _ _ _ | .timer _ => none

/-- A message carries the pose after its callback. -/
theorem published_pose {e : Event ℝ} {odom : Odometry ℝ} {tf : Option (TransformStamped ℝ)}
    (h : published p s e = some (odom, tf)) :
    odom.x = (step p realLibrary s e).x ∧ odom.y = (step p realLibrary s e).y ∧
      odom.yaw = (step p realLibrary s e).theta ∧
      ∀ t ∈ tf, (t.x, t.y, t.yaw) = (odom.x, odom.y, odom.yaw) := by
  cases e with
  | cmdVel now v w => cases h
  | timer now => cases h
  | velocity now data =>
      simp only [published, step, velocityCallback] at h ⊢
      cases htwist : measuredTwist p data with
      | none => simp [htwist] at h
      | some twist =>
          rw [htwist] at h
          simp only at h ⊢
          split at h
          · cases h
          split at h
          · cases h
          rename_i hinit hdt
          rw [if_neg hinit, if_neg hdt]
          obtain ⟨rfl, rfl⟩ := Prod.mk.inj (Option.some.inj h)
          refine ⟨rfl, rfl, rfl, ?_⟩
          intro t ht
          split at ht
          · obtain rfl := Option.mem_some_iff.mp ht
            rfl
          · cases ht

/-- In every run the pose is reckoned from the legs, and so is every message. -/
theorem dead_reckoning (p : Parameters) (es : List (Event ℝ)) :
    Reckoned (legs (measurements p es)) (driven p es).x (driven p es).y (driven p es).theta ∧
      ∀ (e : Event ℝ) (odom : Odometry ℝ) (tf : Option (TransformStamped ℝ)),
        published p (driven p es) e = some (odom, tf) →
          Reckoned (legs (measurements p (es ++ [e]))) odom.x odom.y odom.yaw ∧
            ∀ t ∈ tf, (t.x, t.y, t.yaw) = (odom.x, odom.y, odom.yaw) := by
  have hreckoned : ∀ es : List (Event ℝ), Reckoned (legs (measurements p es)) (driven p es).x
      (driven p es).y (driven p es).theta := by
    intro es
    obtain ⟨hpose, htheta⟩ := driven_pose p es
    exact reckoned_of_pose hpose htheta
  refine ⟨hreckoned es, ?_⟩
  intro e odom tf hpublished
  obtain ⟨hx, hy, hyaw, htf⟩ := published_pose hpublished
  have hnext : driven p (es ++ [e]) = step p realLibrary (driven p es) e := by
    simp [driven]
  refine ⟨?_, htf⟩
  rw [hx, hy, hyaw, ← hnext]
  exact hreckoned (es ++ [e])

/-- Between two measurements the clock advances, and the base rolls with the
twist of the later one. -/
def RollsAsMeasured (position : ℝ → ℂ) (heading : ℝ → ℝ) (ms : List Measurement) : Prop :=
  ms.IsChain fun m m' => m.time < m'.time ∧
    RollsWith m'.v m'.w position heading (Set.Icc (m.time : ℝ) m'.time)

theorem path_error {position : ℝ → ℂ} {heading : ℝ → ℝ} {m : Measurement} {ms : List Measurement}
    (h : RollsAsMeasured position heading (m :: ms)) :
    (path (legs (m :: ms))).turn =
        (between position heading m.time (ms.getLastD m).time).turn ∧
      ‖(path (legs (m :: ms))).shift -
          (between position heading m.time (ms.getLastD m).time).shift‖ ≤
        ((legs (m :: ms)).map fun l => |l.way| * l.turn ^ 2 / 24).sum := by
  induction ms generalizing m with
  | nil => simp [legs, path, between]
  | cons m' ms ih =>
      obtain ⟨⟨htime, hrolls⟩, hrest⟩ := List.isChain_cons_cons.mp h
      obtain ⟨hturns, herror⟩ := ih hrest
      have hle : (m.time : ℝ) ≤ m'.time := by exact_mod_cast htime.le
      obtain ⟨hturn, hshift⟩ := hrolls.between_midpointStep hle
      have hlast : (m' :: ms).getLastD m = ms.getLastD m' := List.getLastD_cons ..
      have hleg : leg m m' = [⟨m'.time - m.time, m'.v, m'.w⟩] := if_neg (by linarith)
      have hmotion : Leg.motion ⟨m'.time - m.time, m'.v, m'.w⟩ =
          midpointStep m'.v m'.w (m'.time - m.time) := by
        rw [Leg.motion]
        push_cast
        rfl
      have hsplit : path (legs (m :: m' :: ms)) =
          midpointStep m'.v m'.w (m'.time - m.time) * path (legs (m' :: ms)) := by
        rw [legs, path_append, hleg, ← hmotion]
        simp [path]
      rw [hlast, hsplit, ← between_mul_between position heading m.time m'.time]
      constructor
      · rw [RigidMotion.mul_turn, RigidMotion.mul_turn, hturns, hturn]
      · calc _ ≤ _ := RigidMotion.norm_mul_shift_sub_le _ _ hturn.symm
          _ ≤ |m'.v| * (m'.time - m.time) * (m'.w * (m'.time - m.time)) ^ 2 / 24 +
              ((legs (m' :: ms)).map fun l => |l.way| * l.turn ^ 2 / 24).sum :=
            add_le_add hshift herror
          _ = ((legs (m :: m' :: ms)).map fun l => |l.way| * l.turn ^ 2 / 24).sum := by
            have habs : |(m'.time : ℝ) - m.time| = m'.time - m.time :=
              abs_of_nonneg (sub_nonneg.mpr hle)
            rw [legs, hleg]
            simp only [List.cons_append, List.nil_append, List.map_cons, List.sum_cons, Leg.way,
              Leg.turn, abs_mul]
            push_cast
            rw [habs]

/-- If the base rolls with the twists that it measures, the odometry knows its
heading exactly; its place is off by a term of third order for every leg. -/
theorem odometry_error (p : Parameters) (es : List (Event ℝ)) (first : Measurement)
    (rest : List Measurement) (position : ℝ → ℂ) (heading : ℝ → ℝ)
    (hms : measurements p es = first :: rest)
    (hrolls : RollsAsMeasured position heading (first :: rest)) :
    ((driven p es).theta : Real.Angle) =
        ((heading (rest.getLastD first).time - heading first.time : ℝ) : Real.Angle) ∧
      ‖(⟨(driven p es).x, (driven p es).y⟩ : ℂ) -
          Complex.exp (-(heading first.time * Complex.I)) *
            (position (rest.getLastD first).time - position first.time)‖ ≤
        ((legs (measurements p es)).map fun l => |l.way| * l.turn ^ 2 / 24).sum := by
  obtain ⟨hpose, -⟩ := driven_pose p es
  rw [hms] at hpose ⊢
  obtain ⟨hturn, hshift⟩ := path_error hrolls
  rw [← hpose] at hturn hshift
  exact ⟨hturn, hshift⟩

/-- Two measurements of a base whose right wheel is the faster one. -/
noncomputable def curveLeft : List (Event ℝ) := [.velocity 1 [60, 90], .velocity 2 [60, 90]]

/-- Along a curve the error is the one of a single leg. -/
theorem odometry_error_curve :
    let v := (forwardKinematics {} (60 : ℝ) 90).1
    let w := (forwardKinematics {} (60 : ℝ) 90).2
    ((driven {} curveLeft).theta : Real.Angle) =
        ((w * ((2 : ℚ) : ℝ) - w * ((1 : ℚ) : ℝ) : ℝ) : Real.Angle) ∧
      ‖(⟨(driven {} curveLeft).x, (driven {} curveLeft).y⟩ : ℂ) -
          Complex.exp (-((w * ((1 : ℚ) : ℝ) : ℝ) * Complex.I)) *
            (rolling v w ((2 : ℚ) : ℝ) - rolling v w ((1 : ℚ) : ℝ))‖ ≤
        ((legs (measurements {} curveLeft)).map fun l => |l.way| * l.turn ^ 2 / 24).sum := by
  intro v w
  have htwist : measuredTwist ({} : Parameters) [(60 : ℝ), 90] = some (v, w) := by
    have hvalid : ¬ (((1 : ℚ) / 10) ≤ 0 ∨ (1 : ℚ) = 0) := by norm_num
    rw [measuredTwist, if_neg hvalid]
    rfl
  have hms : measurements {} curveLeft = [⟨1, v, w⟩, ⟨2, v, w⟩] := by
    simp only [measurements, curveLeft, measurement, List.filterMap_cons, htwist, Option.map_some,
      List.filterMap_nil]
  have hrolls : RollsAsMeasured (rolling v w) (fun t => w * t) [⟨1, v, w⟩, ⟨2, v, w⟩] :=
    List.isChain_cons_cons.mpr ⟨⟨by norm_num, rollsWith_rolling v w _⟩, List.isChain_singleton _⟩
  exact odometry_error {} curveLeft _ _ _ _ hms hrolls

/-- The messages of `/motor/velocity` with their times. -/
def readings (es : List (Event ℝ)) : List (Time × List ℝ) :=
  es.filterMap fun
    | .velocity now data => some (now, data)
    | .cmdVel _ _ _ | .timer _ => none

/-- Messages at given intervals after a time. -/
def schedule : Time → List (Time × List ℝ) → List (Time × List ℝ)
  | _, [] => []
  | t, (dt, data) :: rest => (t + dt, data) :: schedule (t + dt) rest

/-- The opposite motor speeds at the same intervals, last interval first. -/
def undone (qs : List (Time × List ℝ)) : List (Time × List ℝ) :=
  qs.reverse.map fun q => (q.1, q.2.map (- ·))

theorem measurements_eq_readings (p : Parameters) (es : List (Event ℝ)) :
    measurements p es = (readings es).filterMap fun q =>
      (measuredTwist p q.2).map fun twist => ⟨q.1, twist.1, twist.2⟩ := by
  induction es with
  | nil => rfl
  | cons e es ih =>
      cases e with
      | cmdVel now v w => exact ih
      | timer now => exact ih
      | velocity now data =>
          have hms : measurements p (.velocity now data :: es) =
              ((measuredTwist p data).map fun twist => ⟨now, twist.1, twist.2⟩).toList ++
                measurements p es := by
            simp only [measurements, List.filterMap_cons, measurement]
            cases measuredTwist p data <;> rfl
          have hreadings : readings (.velocity now data :: es) = (now, data) :: readings es := rfl
          rw [hms, ih, hreadings, List.filterMap_cons]
          cases measuredTwist p data <;> rfl

/-- The twist of a message that is long enough. -/
noncomputable def twist (p : Parameters) (data : List ℝ) : ℝ × ℝ :=
  (measuredTwist p data).getD (0, 0)

theorem wheelSpeed_neg (p : Parameters) (rpm : ℝ) : wheelSpeed p (-rpm) = -wheelSpeed p rpm := by
  simp only [wheelSpeed]
  ring

/-- Opposite motor speeds measure the opposite twist. -/
theorem measuredTwist_neg (p : Parameters) (data : List ℝ) :
    measuredTwist p (data.map (- ·)) = (measuredTwist p data).map fun q => (-q.1, -q.2) := by
  rcases data with _ | ⟨first, _ | ⟨second, rest⟩⟩
  · rfl
  · rfl
  · have hforward : ∀ left right : ℝ, forwardKinematics p (-left) (-right) =
        (-(forwardKinematics p left right).1, -(forwardKinematics p left right).2) := by
      intro left right
      simp only [forwardKinematics, wheelSpeed_neg]
      ext
      · simp only
        ring
      · simp only
        ring
    simp only [List.map_cons, measuredTwist]
    split
    · rfl
    split
    · rw [hforward]
      rfl
    · rw [hforward]
      rfl

theorem twist_neg (p : Parameters) (data : List ℝ) :
    twist p (data.map (- ·)) = (-(twist p data).1, -(twist p data).2) := by
  rw [twist, measuredTwist_neg, twist]
  cases measuredTwist p data <;> simp

/-- The leg of a message after an interval. -/
noncomputable def legOf (p : Parameters) (q : Time × List ℝ) : Leg :=
  ⟨q.1, (twist p q.2).1, (twist p q.2).2⟩

/-- Messages at intervals that all measure something make one leg each. -/
theorem legs_schedule {qs : List (Time × List ℝ)} (hdt : ∀ q ∈ qs, 0 < q.1)
    (htwist : ∀ q ∈ qs, measuredTwist p q.2 = some (twist p q.2)) (m : Measurement) :
    legs (m :: (schedule m.time qs).filterMap fun q =>
      (measuredTwist p q.2).map fun twist => ⟨q.1, twist.1, twist.2⟩) = qs.map (legOf p) := by
  induction qs generalizing m with
  | nil => rfl
  | cons q qs ih =>
      obtain ⟨dt, data⟩ := q
      have hhead : measuredTwist p data = some (twist p data) := htwist (dt, data) (by simp)
      have hpos : 0 < dt := hdt (dt, data) (by simp)
      have hrest := ih (fun q hq => hdt q (by simp [hq])) (fun q hq => htwist q (by simp [hq]))
        ⟨m.time + dt, (twist p data).1, (twist p data).2⟩
      have hleg : leg m ⟨m.time + dt, (twist p data).1, (twist p data).2⟩ =
          [legOf p (dt, data)] := by
        have hnot : ¬ (m.time + dt - m.time ≤ 0) := by linarith
        rw [leg, if_neg hnot, legOf]
        simp
      rw [schedule, List.filterMap_cons, hhead, Option.map_some, legs, hleg, hrest]
      rfl

/-- There and back the motions cancel. -/
theorem path_undone (p : Parameters) (qs : List (Time × List ℝ)) :
    path ((qs ++ undone qs).map (legOf p)) = 1 := by
  have hback : ∀ q : Time × List ℝ, (legOf p (q.1, q.2.map (- ·))).motion =
      (legOf p q).motion⁻¹ := by
    intro q
    rw [Leg.motion, Leg.motion, midpointStep_inv, legOf, legOf, twist_neg]
  calc path ((qs ++ undone qs).map (legOf p))
      = (qs.map fun q => (legOf p q).motion).prod *
          (((qs.map fun q => (legOf p q).motion).reverse.map (·⁻¹))).prod := by
        rw [path, List.map_map, List.map_append, List.prod_append, undone, List.map_map,
          ← List.map_reverse, List.map_map]
        congr 2
        apply List.map_congr_left
        intro q _
        exact hback q
    _ = 1 := RigidMotion.prod_mul_prod_reverse_inv _

/-- Driving back the way it came, the base is where it was, whatever commands and
ticks come between. -/
theorem retraced (p : Parameters) (es es' : List (Event ℝ)) (outward : List (Time × List ℝ))
    (hinit : (driven p es).odomInitialized = true)
    (hpositive : ∀ q ∈ outward, 0 < q.1 ∧ 2 ≤ q.2.length)
    (hes' : readings es' = schedule (driven p es).lastOdomTime (outward ++ undone outward)) :
    (driven p (es ++ es')).x = (driven p es).x ∧ (driven p (es ++ es')).y = (driven p es).y ∧
      (driven p (es ++ es')).theta = (driven p es).theta := by
  obtain ⟨-, htheta⟩ := driven_pose p es
  obtain ⟨hpose, htheta'⟩ := run_from p es'
    (m := ⟨(driven p es).lastOdomTime, 0, 0⟩) hinit rfl htheta
  have hwhole : driven p (es ++ es') = es'.foldl (step p realLibrary) (driven p es) := by
    rw [driven, List.foldl_append, driven]
  have hback : path (legs (⟨(driven p es).lastOdomTime, 0, 0⟩ :: measurements p es')) = 1 := by
    rw [measurements_eq_readings, hes']
    by_cases hp : p.wheelRadius ≤ 0 ∨ p.gearRatio = 0
    · have hnone : ∀ data : List ℝ, measuredTwist p data = none := by
        intro data
        rcases data with _ | ⟨first, _ | ⟨second, rest⟩⟩
        · rfl
        · rfl
        · exact if_pos hp
      simp [hnone, legs, path]
    · have hall : ∀ q ∈ outward ++ undone outward, 0 < q.1 ∧ 2 ≤ q.2.length := by
        intro q hq
        rcases List.mem_append.mp hq with hout | hback
        · exact hpositive q hout
        · obtain ⟨r, hr, rfl⟩ := List.mem_map.mp hback
          simpa using hpositive r (List.mem_reverse.mp hr)
      have hsome : ∀ q ∈ outward ++ undone outward,
          measuredTwist p q.2 = some (twist p q.2) := by
        intro q hq
        obtain ⟨-, hlength⟩ := hall q hq
        obtain ⟨t, data⟩ := q
        rcases data with _ | ⟨first, _ | ⟨second, rest⟩⟩
        · simp at hlength
        · simp at hlength
        · rw [twist, measuredTwist, if_neg hp]
          split <;> rfl
      have hlegs := legs_schedule (fun q hq => (hall q hq).1) hsome
        ⟨(driven p es).lastOdomTime, 0, 0⟩
      rw [hlegs]
      exact path_undone p outward
  rw [hback, mul_one, ← hwhole] at hpose
  rw [← hwhole] at htheta'
  have hshift := congrArg RigidMotion.shift hpose
  have hturn := congrArg RigidMotion.turn hpose
  refine ⟨congrArg Complex.re hshift, congrArg Complex.im hshift, ?_⟩
  have hreal := congrArg Real.Angle.toReal hturn
  rwa [BaseController.pose, BaseController.pose,
    Real.Angle.toReal_coe_eq_self_iff_mem_Ioc.mpr htheta',
    Real.Angle.toReal_coe_eq_self_iff_mem_Ioc.mpr htheta] at hreal

/-- One second ahead on a curve, and back, with a command in between. -/
theorem retraced_curve :
    let es : List (Event ℝ) := [.velocity 1 [60, 90]]
    let es' : List (Event ℝ) := [.velocity 2 [60, 90], .cmdVel 2 0 0, .velocity 3 [-60, -90]]
    (driven {} (es ++ es')).x = (driven {} es).x ∧ (driven {} (es ++ es')).y = (driven {} es).y ∧
      (driven {} (es ++ es')).theta = (driven {} es).theta := by
  have hvalid : ¬ (((1 : ℚ) / 10) ≤ 0 ∨ (1 : ℚ) = 0) := by norm_num
  have hfirst : driven {} [.velocity 1 [60, 90]] =
      { BaseController.start with lastOdomTime := 1, odomInitialized := true } := by
    have hsome : measurement {} (.velocity 1 [60, 90]) =
        some ⟨1, (twist {} [60, 90]).1, (twist {} [60, 90]).2⟩ := by
      rw [measurement, twist, measuredTwist, if_neg hvalid]
      rfl
    exact step_of_first hsome rfl
  apply retraced {} _ _ [(1, [60, 90])]
  · rw [hfirst]
  · simp
  · have hreadings : readings [.velocity 2 [60, 90], .cmdVel 2 0 0, .velocity 3 [-60, -90]] =
        [(2, [60, 90]), (3, [-60, -90])] := rfl
    rw [hfirst, hreadings]
    norm_num [schedule, undone]

end PolishingRobot.Base
