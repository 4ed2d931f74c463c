import Mathlib
import PolishingRobot.Plane.RigidMotions

/-!
# Unicycles

A unicycle moves along its heading and turns. While its speed and its rate of
turn are constant it rolls along an arc; the midpoint rule puts the way of the
arc along the middle heading of the turn. The turn is then exact, and the chord
of the arc is missed in its length alone, by a term of third order.
-/

namespace PolishingRobot.Plane

open Complex Set

/-- At the times of `s` the point moves along its heading with speed `v`, and
turns at the rate `w`. -/
structure RollsWith (v w : ℝ) (position : ℝ → ℂ) (heading : ℝ → ℝ) (s : Set ℝ) : Prop where
  moves : ∀ t ∈ s, HasDerivWithinAt position (v * exp (heading t * I)) s t
  turns : ∀ t ∈ s, HasDerivWithinAt heading w s t

/-- Where speed `v` and rate of turn `w` lead from the origin, with heading
`w * t` at the time `t`. -/
noncomputable def rolling (v w t : ℝ) : ℂ := ∫ x in (0 : ℝ)..t, v * exp ((w * x : ℝ) * I)

theorem rollsWith_rolling (v w : ℝ) (s : Set ℝ) :
    RollsWith v w (rolling v w) (fun t => w * t) s := by
  constructor
  · intro t _
    have hcontinuous : Continuous fun x : ℝ => (v : ℂ) * exp ((w * x : ℝ) * I) := by fun_prop
    exact (hcontinuous.integral_hasStrictDerivAt 0 t).hasDerivAt.hasDerivWithinAt
  · intro t _
    simpa using ((hasDerivAt_id t).const_mul w).hasDerivWithinAt

/-- The motion from the pose at one time to the pose at another, as seen from
the first. -/
noncomputable def between (position : ℝ → ℂ) (heading : ℝ → ℝ) (a b : ℝ) : RigidMotion :=
  ⟨exp (-(heading a * I)) * (position b - position a), ((heading b - heading a : ℝ) : Real.Angle)⟩

/-- The way `v * h` along the middle heading of the turn `w * h`. -/
noncomputable def midpointStep (v w h : ℝ) : RigidMotion :=
  ⟨v * h * exp (w * h / 2 * I), ((w * h : ℝ) : Real.Angle)⟩

theorem toCircle_coe (a : ℝ) : ((a : Real.Angle).toCircle : ℂ) = exp (a * I) := by
  rw [Real.Angle.toCircle_coe, Circle.coe_exp]

theorem between_mul_between (position : ℝ → ℂ) (heading : ℝ → ℝ) (a b c : ℝ) :
    between position heading a b * between position heading b c =
      between position heading a c := by
  ext1
  · have hturn : exp ((heading b - heading a : ℝ) * I) * exp (-(heading b * I)) =
        exp (-(heading a * I)) := by
      rw [← Complex.exp_add]
      congr 1
      push_cast
      ring
    simp only [between, RigidMotion.mul_shift, RigidMotion.rotor, toCircle_coe]
    rw [← mul_assoc (exp _), hturn]
    ring
  · simp only [between, RigidMotion.mul_turn, ← Real.Angle.coe_add]
    congr 1
    ring

theorem norm_midpointStep_shift (v w h : ℝ) : ‖(midpointStep v w h).shift‖ = |v * h| := by
  have hunit : ‖exp (((w * h / 2 : ℝ) : ℂ) * I)‖ = 1 := norm_exp_ofReal_mul_I _
  have hcast : (w : ℂ) * h / 2 * I = ((w * h / 2 : ℝ) : ℂ) * I := by push_cast; ring
  rw [midpointStep, hcast, norm_mul, hunit, mul_one, ← ofReal_mul, Complex.norm_real,
    Real.norm_eq_abs]

/-- Undoing the midpoint rule is the midpoint rule with the opposite twist. -/
theorem midpointStep_inv (v w h : ℝ) : (midpointStep v w h)⁻¹ = midpointStep (-v) (-w) h := by
  ext1
  · have hback : exp (-(w * h : ℝ) * I) * exp (w * h / 2 * I) = exp (-w * h / 2 * I) := by
      rw [← Complex.exp_add]
      congr 1
      push_cast
      ring
    calc (midpointStep v w h)⁻¹.shift
        = -(exp (-(w * h : ℝ) * I) * (v * h * exp (w * h / 2 * I))) := by
          simp only [midpointStep, RigidMotion.inv_shift]
          rw [← Real.Angle.coe_neg, toCircle_coe]
          push_cast
          rfl
      _ = -(v * h * (exp (-(w * h : ℝ) * I) * exp (w * h / 2 * I))) := by ring
      _ = (midpointStep (-v) (-w) h).shift := by
          rw [hback, midpointStep]
          push_cast
          ring
  · simp only [midpointStep, RigidMotion.inv_turn, ← Real.Angle.coe_neg]
    congr 1
    ring

theorem abs_sin_sub_self_le (x : ℝ) : |Real.sin x - x| ≤ |x| ^ 3 / 6 := by
  have hnonneg : ∀ y : ℝ, 0 ≤ y → |Real.sin y - y| ≤ y ^ 3 / 6 := by
    intro y hy
    have hlower := Real.sin_ge_sub_cube hy
    have hupper := Real.sin_le hy
    rw [abs_sub_comm, abs_of_nonneg (by linarith)]
    linarith
  rcases le_total 0 x with hx | hx
  · rw [abs_of_nonneg hx]
    exact hnonneg x hx
  · have hopposite := hnonneg (-x) (by linarith)
    rw [Real.sin_neg] at hopposite
    rw [abs_of_nonpos hx]
    calc |Real.sin x - x| = |-Real.sin x - -x| := by rw [← abs_neg]; congr 1; ring
      _ ≤ (-x) ^ 3 / 6 := hopposite

/-- The chord of an arc with the turn `w * h` falls short of it. -/
theorem abs_chord_sub_le {w h : ℝ} (hw : w ≠ 0) (hh : 0 ≤ h) :
    |2 * Real.sin (w * h / 2) / w - h| ≤ h * (w * h) ^ 2 / 24 := by
  have hpos : 0 < |w| := abs_pos.mpr hw
  have hcube : |w * h / 2| ^ 3 = |w| ^ 3 * h ^ 3 / 8 := by
    rw [abs_div, abs_mul, abs_of_nonneg hh, abs_two]
    ring
  calc |2 * Real.sin (w * h / 2) / w - h|
      = |2 / w * (Real.sin (w * h / 2) - w * h / 2)| := by
        congr 1
        field_simp
    _ = 2 / |w| * |Real.sin (w * h / 2) - w * h / 2| := by rw [abs_mul, abs_div, abs_two]
    _ ≤ 2 / |w| * (|w * h / 2| ^ 3 / 6) := by gcongr; exact abs_sin_sub_self_le _
    _ = h * (|w| * h) ^ 2 / 24 := by
        rw [hcube]
        field_simp
        ring
    _ = h * (w * h) ^ 2 / 24 := by rw [mul_pow, mul_pow, sq_abs]

theorem exp_sub_one_eq (z : ℂ) : exp (z * I) - 1 = 2 * I * sin (z / 2) * exp (z / 2 * I) := by
  have hwhole : exp (z * I) = exp (z / 2 * I) * exp (z / 2 * I) := by
    rw [← Complex.exp_add]
    congr 1
    ring
  have hnone : exp (-(z / 2) * I) * exp (z / 2 * I) = 1 := by
    rw [← Complex.exp_add, neg_mul, neg_add_cancel, Complex.exp_zero]
  rw [Complex.sin, hwhole]
  linear_combination (exp (z / 2 * I) ^ 2 - exp (-(z / 2) * I) * exp (z / 2 * I)) * I_sq + hnone

section Arcs

variable {v w a b : ℝ} {position : ℝ → ℂ} {heading : ℝ → ℝ}

/-- A function whose derivative vanishes on an interval has the same value at
its ends. -/
theorem eq_of_hasDerivWithinAt_zero {E : Type*} [NormedAddCommGroup E] [NormedSpace ℝ E]
    {f : ℝ → E} (hab : a ≤ b) (hf : ∀ t ∈ Icc a b, HasDerivWithinAt f 0 (Icc a b) t) :
    f b = f a := by
  rcases hab.eq_or_lt with rfl | hlt
  · rfl
  · apply constant_of_derivWithin_zero (fun t ht => (hf t ht).differentiableWithinAt)
    · intro t ht
      exact (hf t (Ico_subset_Icc_self ht)).derivWithin
        (uniqueDiffOn_Icc hlt t (Ico_subset_Icc_self ht))
    · exact right_mem_Icc.mpr hab

theorem RollsWith.mono {s s' : Set ℝ} (h : RollsWith v w position heading s) (hs : s' ⊆ s) :
    RollsWith v w position heading s' where
  moves t ht := (h.moves t (hs ht)).mono hs
  turns t ht := (h.turns t (hs ht)).mono hs

theorem RollsWith.heading_eq (h : RollsWith v w position heading (Icc a b)) (hab : a ≤ b) :
    heading b = heading a + w * (b - a) := by
  have hconst := eq_of_hasDerivWithinAt_zero (f := fun t => heading t - w * t) hab
    (fun t ht => by
      have hlinear := (hasDerivWithinAt_id t (Icc a b)).const_mul w
      exact ((h.turns t ht).sub hlinear).congr_deriv (by simp))
  linarith

/-- The way along the chord of the arc, along its middle heading. -/
theorem RollsWith.between_shift (h : RollsWith v w position heading (Icc a b)) (hab : a ≤ b) :
    ∃ chord : ℝ, |chord - (b - a)| ≤ (b - a) * (w * (b - a)) ^ 2 / 24 ∧
      (between position heading a b).shift = v * chord * exp (w * (b - a) / 2 * I) := by
  by_cases hw : w = 0
  · subst hw
    have hheading : ∀ t ∈ Icc a b, heading t = heading a := by
      intro t ht
      have hpart := (h.mono (Icc_subset_Icc_right ht.2)).heading_eq ht.1
      simpa using hpart
    have hconst := eq_of_hasDerivWithinAt_zero
      (f := fun t => position t - (t : ℂ) * (v * exp (heading a * I))) hab
      (fun t ht => by
        have hlinear := ((hasDerivAt_id (t : ℂ)).comp_ofReal).hasDerivWithinAt.mul_const
          (v * exp (heading a * I)) (s := Icc a b)
        have hmoves := h.moves t ht
        rw [hheading t ht] at hmoves
        exact (hmoves.sub hlinear).congr_deriv (by simp))
    refine ⟨b - a, by simp, ?_⟩
    have hway : position b - position a = (b - a) * (v * exp (heading a * I)) := by
      linear_combination hconst
    calc (between position heading a b).shift
        = exp (-(heading a * I)) * ((b - a) * (v * exp (heading a * I))) := by
          rw [between, hway]
      _ = v * (b - a) * (exp (-(heading a * I)) * exp (heading a * I)) := by ring
      _ = v * (b - a : ℝ) * exp ((0 : ℝ) * (b - a) / 2 * I) := by
          rw [← Complex.exp_add]
          simp
  · have hw' : (w : ℂ) ≠ 0 := ofReal_ne_zero.mpr hw
    have hconst := eq_of_hasDerivWithinAt_zero
      (f := fun t => position t - v / (w * I) * exp (heading t * I)) hab
      (fun t ht => by
        have hturn := (((h.turns t ht).ofReal_comp.mul_const I).cexp).const_mul (v / (w * I))
        refine ((h.moves t ht).sub hturn).congr_deriv ?_
        field_simp
        ring)
    have hheading := h.heading_eq hab
    refine ⟨2 * Real.sin (w * (b - a) / 2) / w, abs_chord_sub_le hw (sub_nonneg.mpr hab), ?_⟩
    have hturned : exp (heading b * I) = exp (heading a * I) * exp (w * (b - a) * I) := by
      rw [← Complex.exp_add, hheading]
      congr 1
      push_cast
      ring
    have hway : position b - position a =
        v / (w * I) * exp (heading a * I) * (exp (w * (b - a) * I) - 1) := by
      linear_combination hconst + v / (w * I) * hturned
    have hnone : exp (-(heading a * I)) * exp (heading a * I) = 1 := by
      rw [← Complex.exp_add, neg_add_cancel, Complex.exp_zero]
    calc (between position heading a b).shift
        = exp (-(heading a * I)) * exp (heading a * I) *
            (v / (w * I) * (exp (w * (b - a) * I) - 1)) := by
          rw [between, hway]
          ring
      _ = v / (w * I) *
            (2 * I * sin (w * (b - a) / 2) * exp (w * (b - a) / 2 * I)) := by
          rw [hnone, one_mul, exp_sub_one_eq]
      _ = v * (2 * Real.sin (w * (b - a) / 2) / w : ℝ) * exp (w * (b - a) / 2 * I) := by
          push_cast
          field_simp

/-- Against the arc the midpoint rule turns exactly, and its end is off by a term
of third order. -/
theorem RollsWith.between_midpointStep (h : RollsWith v w position heading (Icc a b))
    (hab : a ≤ b) :
    (between position heading a b).turn = (midpointStep v w (b - a)).turn ∧
      ‖(midpointStep v w (b - a)).shift - (between position heading a b).shift‖ ≤
        |v| * (b - a) * (w * (b - a)) ^ 2 / 24 := by
  constructor
  · simp only [between, midpointStep]
    congr 1
    linarith [h.heading_eq hab]
  · obtain ⟨chord, hchord, hshift⟩ := h.between_shift hab
    have hcast : (w : ℂ) * (b - a) / 2 * I = ((w * (b - a) / 2 : ℝ) : ℂ) * I := by push_cast; ring
    have hunit : ‖exp ((w : ℂ) * (b - a) / 2 * I)‖ = 1 := by
      rw [hcast]
      exact norm_exp_ofReal_mul_I _
    calc ‖(midpointStep v w (b - a)).shift - (between position heading a b).shift‖
        = ‖((v * ((b - a) - chord) : ℝ) : ℂ) * exp (w * (b - a) / 2 * I)‖ := by
          rw [hshift, midpointStep]
          congr 1
          push_cast
          ring
      _ = |v| * |chord - (b - a)| := by
          rw [norm_mul, hunit, mul_one, Complex.norm_real, Real.norm_eq_abs, abs_mul,
            abs_sub_comm]
      _ ≤ |v| * ((b - a) * (w * (b - a)) ^ 2 / 24) :=
          mul_le_mul_of_nonneg_left hchord (abs_nonneg v)
      _ = |v| * (b - a) * (w * (b - a)) ^ 2 / 24 := by ring

end Arcs

end PolishingRobot.Plane
