import Mathlib.Analysis.SpecialFunctions.Complex.Circle

/-!
# Rigid motions of the oriented plane

A motion turns the plane about the origin and then shifts it. The motions form
a group. A pose is the motion that takes the origin to it, and a path is the
product of its pieces, each seen from where the one before it ended.
-/

namespace PolishingRobot.Plane

open Complex

/-- Turn about the origin, then shift. -/
@[ext] structure RigidMotion where
  shift : ℂ
  turn : Real.Angle

namespace RigidMotion

/-- The factor by which the turn multiplies. -/
noncomputable def rotor (m : RigidMotion) : ℂ := (m.turn.toCircle : ℂ)

theorem norm_rotor (m : RigidMotion) : ‖m.rotor‖ = 1 := Circle.norm_coe m.turn.toCircle

noncomputable instance : Mul RigidMotion where
  mul a b := ⟨a.shift + a.rotor * b.shift, a.turn + b.turn⟩

noncomputable instance : One RigidMotion := ⟨⟨0, 0⟩⟩

noncomputable instance : Inv RigidMotion where
  inv a := ⟨-((-a.turn).toCircle * a.shift), -a.turn⟩

variable (a b : RigidMotion)

@[simp] theorem mul_shift : (a * b).shift = a.shift + a.rotor * b.shift := rfl

@[simp] theorem mul_turn : (a * b).turn = a.turn + b.turn := rfl

@[simp] theorem one_shift : (1 : RigidMotion).shift = 0 := rfl

@[simp] theorem one_turn : (1 : RigidMotion).turn = 0 := rfl

@[simp] theorem inv_shift : a⁻¹.shift = -((-a.turn).toCircle * a.shift) := rfl

@[simp] theorem inv_turn : a⁻¹.turn = -a.turn := rfl

@[simp] theorem rotor_mul : (a * b).rotor = a.rotor * b.rotor := by
  simp [rotor, Real.Angle.toCircle_add]

@[simp] theorem rotor_one : (1 : RigidMotion).rotor = 1 := by
  simp [rotor]

noncomputable instance : Group RigidMotion where
  mul_assoc a b c := by
    ext1
    · simp only [mul_shift, rotor_mul]
      ring
    · exact add_assoc a.turn b.turn c.turn
  one_mul a := by
    ext1
    · simp
    · exact zero_add a.turn
  mul_one a := by
    ext1
    · simp
    · exact add_zero a.turn
  inv_mul_cancel a := by
    ext1
    · simp [rotor]
    · exact neg_add_cancel a.turn

variable (ms : List RigidMotion)

/-- Every piece of a path with the turns of the pieces before it. -/
noncomputable def headed (a : Real.Angle) : List RigidMotion → List (Real.Angle × RigidMotion)
  | [] => []
  | m :: ms => (a, m) :: headed (a + m.turn) ms

theorem prod_turn : ms.prod.turn = (ms.map turn).sum := by
  induction ms with
  | nil => rfl
  | cons m ms ih => simp [ih]

/-- The shift of a path is the sum of the shifts of its pieces, each turned by
the pieces before it. -/
theorem prod_shift :
    ms.prod.shift = ((headed 0 ms).map fun p => (p.1.toCircle : ℂ) * p.2.shift).sum := by
  have hfrom : ∀ a : Real.Angle, (a.toCircle : ℂ) * ms.prod.shift =
      ((headed a ms).map fun p => (p.1.toCircle : ℂ) * p.2.shift).sum := by
    induction ms with
    | nil => simp [headed]
    | cons m ms ih =>
        intro a
        calc (a.toCircle : ℂ) * (m :: ms).prod.shift
            = a.toCircle * m.shift + ((a + m.turn).toCircle : ℂ) * ms.prod.shift := by
              simp [rotor, Real.Angle.toCircle_add]
              ring
          _ = _ := by
              rw [ih (a + m.turn)]
              rfl
  simpa using hfrom 0

/-- A path ends no farther away than it is long. -/
theorem norm_prod_shift_le : ‖ms.prod.shift‖ ≤ (ms.map fun m => ‖m.shift‖).sum := by
  induction ms with
  | nil => simp
  | cons m ms ih =>
      calc ‖(m :: ms).prod.shift‖
          ≤ ‖m.shift‖ + ‖m.rotor * ms.prod.shift‖ := by
            rw [List.prod_cons]
            exact norm_add_le m.shift (m.rotor * ms.prod.shift)
        _ = ‖m.shift‖ + ‖ms.prod.shift‖ := by
            rw [norm_mul, norm_rotor, one_mul]
        _ ≤ ((m :: ms).map fun m => ‖m.shift‖).sum := by
            rw [List.map_cons, List.sum_cons]
            exact add_le_add_right ih _

/-- Two paths that turn alike at first end apart by no more than their parts
differ. -/
theorem norm_mul_shift_sub_le {a a' : RigidMotion} (b b' : RigidMotion) (hturn : a.turn = a'.turn) :
    ‖(a * b).shift - (a' * b').shift‖ ≤ ‖a.shift - a'.shift‖ + ‖b.shift - b'.shift‖ := by
  have hrotor : a.rotor = a'.rotor := by
    rw [rotor, rotor, hturn]
  have hsplit : (a * b).shift - (a' * b').shift =
      (a.shift - a'.shift) + a'.rotor * (b.shift - b'.shift) := by
    simp only [mul_shift, hrotor]
    ring
  calc ‖(a * b).shift - (a' * b').shift‖
      ≤ ‖a.shift - a'.shift‖ + ‖a'.rotor * (b.shift - b'.shift)‖ := by
        rw [hsplit]
        exact norm_add_le _ _
    _ = ‖a.shift - a'.shift‖ + ‖b.shift - b'.shift‖ := by
        rw [norm_mul, norm_rotor, one_mul]

/-- A path and its pieces undone in reverse order lead back. -/
theorem prod_mul_prod_reverse_inv : ms.prod * (ms.reverse.map (·⁻¹)).prod = 1 := by
  rw [List.map_reverse, ← List.prod_inv_reverse, mul_inv_cancel]

end RigidMotion

end PolishingRobot.Plane
