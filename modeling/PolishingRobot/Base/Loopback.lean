import PolishingRobot.Base.Controller
import PolishingRobot.Motor.Node
import PolishingRobot.Numbers.TowardZero

/-!
# From the twist to the wheels and back

The base controller turns a twist into motor speeds, the motor driver turns them
into counts for its drives, and what the drives report comes back the same way.
On the way out and on the way back each drive meets the same signs; only the
truncation to counts stays.
-/

namespace PolishingRobot.Base

open Motor Numbers Runs

section Kinematics

variable {p : Parameters}

theorem mPi_pos : 0 < mPi := by norm_num [mPi]

theorem kRpmToRadPerSec_pos : 0 < kRpmToRadPerSec :=
  div_pos (mul_pos two_pos mPi_pos) (by norm_num)

theorem kRadPerSecToRpm_eq : kRadPerSecToRpm = 1 / kRpmToRadPerSec := by
  rw [kRadPerSecToRpm, kRpmToRadPerSec, one_div_div]

/-- The speed of a wheel, in m/s, for one rpm of its motor. -/
def speedPerRpm (p : Parameters) : ℚ := kRpmToRadPerSec * p.wheelRadius / p.gearRatio

theorem wheelSpeed_eq (p : Parameters) (rpm : ℚ) : wheelSpeed p rpm = rpm * speedPerRpm p := by
  simp only [wheelSpeed, speedPerRpm, Rat.cast_id]
  ring

theorem wheelSpeed_motorRpm (hradius : 0 < p.wheelRadius) (hgear : p.gearRatio ≠ 0) (v : ℚ) :
    wheelSpeed p (motorRpm p v) = v := by
  have hk : kRpmToRadPerSec ≠ 0 := kRpmToRadPerSec_pos.ne'
  simp only [wheelSpeed, motorRpm, Rat.cast_id, kRadPerSecToRpm_eq]
  field_simp

/-- The two kinematics are inverse to each other. -/
theorem forward_inverse (hradius : 0 < p.wheelRadius) (hseparation : 0 < p.wheelSeparation)
    (hgear : p.gearRatio ≠ 0) (v w : ℚ) :
    forwardKinematics p (inverseKinematics p v w).1 (inverseKinematics p v w).2 = (v, w) := by
  simp only [forwardKinematics, inverseKinematics, wheelSpeed_motorRpm hradius hgear, Rat.cast_id,
    Prod.mk.injEq]
  constructor
  · ring
  · field_simp
    ring

/-- An error of the wheels shows in the twist, and no more than that. -/
theorem forwardKinematics_error (hseparation : 0 < p.wheelSeparation) {l r l' r' ε : ℚ}
    (hleft : |l' - l| ≤ ε) (hright : |r' - r| ≤ ε) :
    |(forwardKinematics p l' r').1 - (forwardKinematics p l r).1| ≤ ε * |speedPerRpm p| ∧
      |(forwardKinematics p l' r').2 - (forwardKinematics p l r).2| ≤
        2 * ε * |speedPerRpm p| / p.wheelSeparation := by
  have hnonneg := abs_nonneg (speedPerRpm p)
  simp only [forwardKinematics, wheelSpeed_eq, Rat.cast_id]
  constructor
  · have hsum : |(l' - l) + (r' - r)| ≤ 2 * ε := by linarith [abs_add_le (l' - l) (r' - r)]
    calc |(l' * speedPerRpm p + r' * speedPerRpm p) / 2
            - (l * speedPerRpm p + r * speedPerRpm p) / 2|
        = |((l' - l) + (r' - r)) / 2 * speedPerRpm p| := by congr 1; ring
      _ = |(l' - l) + (r' - r)| / 2 * |speedPerRpm p| := by rw [abs_mul, abs_div, abs_two]
      _ ≤ ε * |speedPerRpm p| := mul_le_mul_of_nonneg_right (by linarith) hnonneg
  · have hdiff : |(r' - r) - (l' - l)| ≤ 2 * ε := by linarith [abs_sub (r' - r) (l' - l)]
    calc |(r' * speedPerRpm p - l' * speedPerRpm p) / p.wheelSeparation
            - (r * speedPerRpm p - l * speedPerRpm p) / p.wheelSeparation|
        = |((r' - r) - (l' - l)) * speedPerRpm p / p.wheelSeparation| := by congr 1; ring
      _ = |(r' - r) - (l' - l)| * |speedPerRpm p| / p.wheelSeparation := by
          rw [abs_div, abs_mul, abs_of_pos hseparation]
      _ ≤ 2 * ε * |speedPerRpm p| / p.wheelSeparation := by gcongr

/-- The configured limits allow the twist; a limit of 0 allows all. -/
def WithinLimits (p : Parameters) (v w : ℚ) : Prop :=
  (0 < p.maxLinearVel → |v| ≤ p.maxLinearVel) ∧ (0 < p.maxAngularVel → |w| ≤ p.maxAngularVel)

theorem limited_eq_self {maxVel v : ℚ} (h : 0 < maxVel → |v| ≤ maxVel) : limited maxVel v = v := by
  unfold limited
  split
  · obtain ⟨hlower, hupper⟩ := abs_le.mp (h ‹_›)
    rw [Rat.cast_id, stdMin, if_neg (not_lt.mpr hupper), stdMax]
    split
    · rfl
    · exact le_antisymm (not_lt.mp ‹_›) hlower |>.symm
  · rfl

variable {now : Time} {s : BaseController ℚ}

theorem boundedTarget_eq (hfresh : now - s.lastCmdVelTime ≤ p.cmdVelTimeout)
    (hlimits : WithinLimits p s.targetV s.targetW) :
    boundedTarget p now s = (s.targetV, s.targetW) := by
  unfold boundedTarget
  rw [if_neg (not_lt.mpr hfresh)]
  exact Prod.ext (limited_eq_self hlimits.1) (limited_eq_self hlimits.2)

/-- The speeds of the left and the right wheel in the order of the motors. -/
def byMotor (p : Parameters) (left right : ℚ) : List ℚ :=
  if p.swapLr then [right, left] else [left, right]

theorem controlTimer_eq (hradius : 0 < p.wheelRadius) (hgear : p.gearRatio ≠ 0)
    (hfresh : now - s.lastCmdVelTime ≤ p.cmdVelTimeout)
    (hlimits : WithinLimits p s.targetV s.targetW) :
    controlTimer p now s = byMotor p (inverseKinematics p s.targetV s.targetW).1
      (inverseKinematics p s.targetV s.targetW).2 := by
  have hvalid : ¬(p.wheelRadius ≤ 0 ∨ p.gearRatio = 0) := not_or.mpr ⟨hradius.not_ge, hgear⟩
  rw [controlTimer, boundedTarget_eq hfresh hlimits]
  exact if_neg hvalid

theorem measuredTwist_byMotor (hradius : 0 < p.wheelRadius) (hgear : p.gearRatio ≠ 0) (l r : ℚ) :
    measuredTwist p (byMotor p l r) = some (forwardKinematics p l r) := by
  have hvalid : ¬(p.wheelRadius ≤ 0 ∨ p.gearRatio = 0) := not_or.mpr ⟨hradius.not_ge, hgear⟩
  cases hswap : p.swapLr with
  | true => rw [byMotor, hswap, if_pos rfl, measuredTwist, if_neg hvalid, hswap, if_pos rfl]
  | false =>
      rw [byMotor, hswap, if_neg Bool.false_ne_true, measuredTwist, if_neg hvalid, hswap,
        if_neg Bool.false_ne_true]

theorem forall₂_byMotor {R : ℚ → ℚ → Prop} {l r l' r' : ℚ} :
    List.Forall₂ R (byMotor p l r) (byMotor p l' r') ↔ R l l' ∧ R r r' := by
  cases hswap : p.swapLr <;> simp [byMotor, hswap, and_comm]

end Kinematics

section Drives

variable {c : Config} {σ σ' : Shared} {node : NodeId}

/-- The memory after a message is applied, drive by drive. -/
def stored (rest : List (NodeId × Rpm)) (σ : Shared) : Shared :=
  rest.foldl (fun σ q => σ.apply (setTargetVelocity q.1 q.2)) σ

/-- What `controlLoop` publishes on `/motor/velocity`. -/
def velocityMessage (c : Config) (σ : Shared) : List ℚ :=
  c.driveMotorIds.zipIdx.map fun q => signedFeedback c σ q.1 q.2

/-- The drive reports the speed that the resend loop sends it. -/
def Reported (σ σ' : Shared) (node : NodeId) : Prop :=
  ∃ counts, sendVelocityCommand node (σ.drives.target node) = .rpdo2 node (some counts) ∧
    (σ'.drives node).feedbackVelocity = counts

section Undisturbed

variable {wake : Motor.Time} {pre post : List Thread}

/-- A thread that is awake moves between the others and goes on. -/
theorem run_moves_succ {b b' : Body} {act : Action} (n : Nat) (hwake : wake ≤ σ.now)
    (h : b.turn c ⟨σ, pre ++ ⟨b, wake⟩ :: post⟩ 0 = some { act := act, self := some b' })
    (hact : σ.apply act = σ') :
    run (Motor.step c) ⟨σ, pre ++ ⟨b, wake⟩ :: post⟩ (moves pre.length (n + 1)) =
      run (Motor.step c) ⟨σ', pre ++ ⟨b', σ.now⟩ :: post⟩ (moves pre.length n) := by
  subst hact
  simp [moves, List.replicate_succ, Motor.step, threadStep, stepAt_length, Thread.step, hwake, h,
    Turn.threads]

theorem run_store (rest : List (NodeId × Rpm)) (hwake : wake ≤ σ.now) :
    run (Motor.step c) ⟨σ, pre ++ ⟨.cmd (.store rest), wake⟩ :: post⟩
      (moves pre.length (rest.length + 1)) = some ⟨stored rest σ, pre ++ post⟩ := by
  induction rest generalizing σ wake with
  | nil =>
      simp [moves, List.replicate_succ, Motor.step, threadStep, stepAt_length, Thread.step, hwake,
        Body.turn, cmdCallback, Turn.threads, stored, Shared.apply]
  | cons q rest ih =>
      rw [List.length_cons, run_moves_succ (rest.length + 1) hwake rfl rfl]
      exact ih le_rfl

/-- A callback for enabled drives that runs to its end undisturbed stores its message. -/
theorem run_cmdCallback {data : List ℚ} (hwake : wake ≤ σ.now) (henabled : σ.motorsEnabled = true)
    (hlength : c.driveMotorIds.length ≤ data.length) :
    run (Motor.step c) ⟨σ, pre ++ ⟨.cmd (.check data), wake⟩ :: post⟩
      (moves pre.length ((commands c data).length + 4)) =
      some ⟨stored (commands c data) (σ.apply .stampCmd), pre ++ post⟩ := by
  have hcheck : Body.turn c ⟨σ, pre ++ ⟨.cmd (.check data), wake⟩ :: post⟩ 0 (.cmd (.check data)) =
      some { self := some (.cmd (.stamp data)) } := by
    simp [Body.turn, cmdCallback, hlength]
  have hload : Body.turn c
      ⟨σ.apply .stampCmd, pre ++ ⟨.cmd (.load data), σ.now⟩ :: post⟩ 0 (.cmd (.load data)) =
      some { self := some (.cmd (.store (commands c data))) } := by
    simp [Body.turn, cmdCallback, Shared.apply, henabled]
  have hstamp : Body.turn c ⟨σ, pre ++ ⟨.cmd (.stamp data), σ.now⟩ :: post⟩ 0
      (.cmd (.stamp data)) = some { act := .stampCmd, self := some (.cmd (.load data)) } := rfl
  calc run (Motor.step c) ⟨σ, pre ++ ⟨.cmd (.check data), wake⟩ :: post⟩
        (moves pre.length ((commands c data).length + 4))
      = run (Motor.step c) ⟨σ, pre ++ ⟨.cmd (.stamp data), σ.now⟩ :: post⟩
          (moves pre.length ((commands c data).length + 3)) := run_moves_succ _ hwake hcheck rfl
    _ = run (Motor.step c) ⟨σ.apply .stampCmd, pre ++ ⟨.cmd (.load data), σ.now⟩ :: post⟩
          (moves pre.length ((commands c data).length + 2)) := run_moves_succ _ le_rfl hstamp rfl
    _ = run (Motor.step c)
          ⟨σ.apply .stampCmd, pre ++ ⟨.cmd (.store (commands c data)), σ.now⟩ :: post⟩
          (moves pre.length ((commands c data).length + 1)) := run_moves_succ _ le_rfl hload rfl
    _ = some ⟨stored (commands c data) (σ.apply .stampCmd), pre ++ post⟩ := run_store _ le_rfl

/-- The loop of `controlLoop` that reads the feedback, undisturbed, makes up the message. -/
theorem run_velocity (pre post : List Thread) (rest : List NodeId) (data : List ℚ)
    (hwake : wake ≤ σ.now) :
    ∃ wake' ≤ σ.now, run (Motor.step c) ⟨σ, pre ++ ⟨.control (.velocity rest data), wake⟩ :: post⟩
      (moves pre.length rest.length) =
      some ⟨σ, pre ++ ⟨.control (.velocity [] (data ++ (rest.zipIdx data.length).map fun q =>
        signedFeedback c σ q.1 q.2)), wake'⟩ :: post⟩ := by
  induction rest generalizing wake data with
  | nil => exact ⟨wake, hwake, by simp [moves]⟩
  | cons node rest ih =>
      obtain ⟨wake', hwake', hrun⟩ :=
        ih (data ++ [signedFeedback c σ node data.length]) (le_refl σ.now)
      refine ⟨wake', hwake', ?_⟩
      rw [List.length_cons, run_moves_succ rest.length hwake rfl rfl]
      simpa [Shared.apply] using hrun

/-- An undisturbed tick publishes the measured speeds of one memory. -/
theorem run_velocity_publish (hwake : wake ≤ σ.now) :
    ∃ s, run (Motor.step c) ⟨σ, pre ++ ⟨.control (.velocity c.driveMotorIds []), wake⟩ :: post⟩
        (moves pre.length c.driveMotorIds.length) = some s ∧ s.shared = σ ∧
      actionOf c s (.thread pre.length 0) = some (.publish (.velocity (velocityMessage c σ))) := by
  obtain ⟨wake', hwake', hrun⟩ := run_velocity (c := c) pre post c.driveMotorIds [] hwake
  refine ⟨_, hrun, rfl, ?_⟩
  simp [actionOf, threadStep, stepAt_length, Thread.step, hwake', Body.turn, controlLoop,
    velocityMessage]

end Undisturbed

/-- The drive's mounting and direction cancel: what comes back of a speed is its quantization. -/
theorem signedFeedback_of_reported {index : Nat} {rpm : ℚ} {dir : Int}
    (hdir : c.motorDir.getD index 1 = dir) (hsign : dir = 1 ∨ dir = -1)
    (htarget : σ.drives.target node = mounted node (dir * rpm)) (h : Reported σ σ' node) :
    signedFeedback c σ' node index = quantize countsPerRpm rpm := by
  obtain ⟨counts, hsent, hreport⟩ := h
  have hcounts : truncToInt32 (σ.drives.target node * countsPerRpm) = some counts := by
    simpa [sendVelocityCommand] using hsent
  have hq : (counts.toInt : ℚ) / countsPerRpm = quantize countsPerRpm (mounted node (dir * rpm)) := by
    rw [(truncToInt32_eq_some_iff.mp hcounts).2, htarget, quantize]
  have hdir' : (dir : ℚ) = 1 ∨ (dir : ℚ) = -1 := by
    rcases hsign with rfl | rfl <;> simp
  have hback : (σ'.drives.feedbackVelocity node) = quantize countsPerRpm (dir * rpm) := by
    unfold Drives.feedbackVelocity
    rw [hreport]
    by_cases hnode : node = 2
    · rw [if_pos hnode, div_neg, hq, mounted, if_pos hnode, quantize_neg, neg_neg]
    · rw [if_neg hnode, hq, mounted, if_neg hnode]
  rw [signedFeedback, hdir, hback, quantize_sign_mul hdir', ← mul_assoc]
  rcases hdir' with hd | hd <;> rw [hd] <;> ring

theorem setTargetVelocity_target (σ : Shared) (m n : NodeId) (rpm : Rpm) :
    (σ.apply (setTargetVelocity m rpm)).drives.target n =
      if n = m then mounted m rpm else σ.drives.target n :=
  σ.drives.storeTarget_target m n (mounted m rpm)

/-- The targets of the drives 1 and 2 after a message for both. -/
theorem stored_targets (hids : c.driveMotorIds = [1, 2]) (σ : Shared) (x y : ℚ) :
    ∃ a b : Int, c.motorDir = [a, b] ∧ (a = 1 ∨ a = -1) ∧ (b = 1 ∨ b = -1) ∧
      (stored (commands c [x, y]) σ).drives.target 1 = mounted 1 (a * x) ∧
      (stored (commands c [x, y]) σ).drives.target 2 = mounted 2 (b * y) := by
  have hlength : c.motorDir.length = 2 := by rw [c.dir_length, hids]; rfl
  obtain ⟨a, b, hdirs⟩ := List.length_eq_two.mp hlength
  have hcommands : commands c [x, y] = [(1, a * x), (2, b * y)] := by
    simp [commands, hids, hdirs]
  refine ⟨a, b, hdirs, c.dir_sign a (by simp [hdirs]), c.dir_sign b (by simp [hdirs]), ?_, ?_⟩
  · simp [hcommands, stored, setTargetVelocity_target]
  · simp [hcommands, stored, setTargetVelocity_target]

/-- With the two drives 1 and 2, every measured speed is the quantized command. -/
theorem velocityMessage_of_reported (hids : c.driveMotorIds = [1, 2]) {x y : ℚ}
    (h : ∀ node ∈ c.driveMotorIds, Reported (stored (commands c [x, y]) σ) σ' node) :
    velocityMessage c σ' = [quantize countsPerRpm x, quantize countsPerRpm y] := by
  obtain ⟨a, b, hdirs, ha, hb, hfirst, hsecond⟩ := stored_targets hids σ x y
  rw [hids] at h
  have hx : signedFeedback c σ' 1 0 = quantize countsPerRpm x :=
    signedFeedback_of_reported (by simp [hdirs]) ha hfirst (h 1 (by simp))
  have hy : signedFeedback c σ' 2 1 = quantize countsPerRpm y :=
    signedFeedback_of_reported (by simp [hdirs]) hb hsecond (h 2 (by simp))
  simp [velocityMessage, hids, hx, hy]

/-- No target changes when it is cut to counts. -/
def Untruncated (c : Config) (σ : Shared) : Prop :=
  ∀ node ∈ c.driveMotorIds, ∃ i : ℤ, σ.drives.target node * countsPerRpm = i

theorem quantize_of_mounted {dir : Int} {rpm : ℚ} (hsign : dir = 1 ∨ dir = -1)
    (h : ∃ i : ℤ, mounted node (dir * rpm) * countsPerRpm = i) :
    quantize countsPerRpm rpm = rpm := by
  obtain ⟨i, hi⟩ := h
  have hself : quantize countsPerRpm (mounted node (dir * rpm)) = mounted node (dir * rpm) :=
    quantize_eq_self countsPerRpm_pos hi
  have hdir : quantize countsPerRpm (dir * rpm) = dir * rpm := by
    unfold mounted at hself
    split at hself
    · rwa [quantize_neg, neg_inj] at hself
    · exact hself
  rcases hsign with rfl | rfl
  · simpa using hdir
  · simpa [quantize_neg] using hdir

theorem quantize_of_untruncated (hids : c.driveMotorIds = [1, 2]) {x y : ℚ}
    (h : Untruncated c (stored (commands c [x, y]) σ)) :
    quantize countsPerRpm x = x ∧ quantize countsPerRpm y = y := by
  obtain ⟨a, b, -, ha, hb, hfirst, hsecond⟩ := stored_targets hids σ x y
  constructor
  · exact quantize_of_mounted ha (hfirst ▸ h 1 (by simp [hids]))
  · exact quantize_of_mounted hb (hsecond ▸ h 2 (by simp [hids]))

end Drives

/-- What comes back of a motor speed: less than one count is lost, and the speed
neither grows nor turns. -/
structure Recovered (sent got : ℚ) : Prop where
  error : |got - sent| < 1 / countsPerRpm
  magnitude : |got| ≤ |sent|
  sign : 0 ≤ got * sent

theorem recovered_quantize (rpm : ℚ) : Recovered rpm (quantize countsPerRpm rpm) where
  error := abs_quantize_sub_lt countsPerRpm_pos rpm
  magnitude := abs_quantize_le countsPerRpm_pos rpm
  sign := quantize_mul_nonneg countsPerRpm_pos rpm

/-- The errors of the wheels, in rpm, are bounded. -/
def WheelErrors (sent got : List ℚ) (ε : ℚ) : Prop :=
  List.Forall₂ (fun s g => |g - s| ≤ ε) sent got

/-- The twist `(v, w)` that the base controller commands comes back as `(v', w')`:
each motor speed is recovered, and the error of the twist is that of the wheels. -/
theorem loopback (p : Parameters) (c : Config) (now : Time) (s : BaseController ℚ) (σ σ' : Shared)
    (hradius : 0 < p.wheelRadius) (hseparation : 0 < p.wheelSeparation) (hgear : p.gearRatio ≠ 0)
    (hids : c.driveMotorIds = [1, 2])
    (hfresh : now - s.lastCmdVelTime ≤ p.cmdVelTimeout)
    (hlimits : WithinLimits p s.targetV s.targetW)
    (hreported : ∀ node ∈ c.driveMotorIds,
      Reported (stored (commands c (controlTimer p now s)) σ) σ' node) :
    List.Forall₂ Recovered (controlTimer p now s) (velocityMessage c σ') ∧
    ∃ v' w', measuredTwist p (velocityMessage c σ') = some (v', w') ∧
      (∀ ε, WheelErrors (controlTimer p now s) (velocityMessage c σ') ε →
        |v' - s.targetV| ≤ ε * |speedPerRpm p| ∧
        |w' - s.targetW| ≤ 2 * ε * |speedPerRpm p| / p.wheelSeparation) ∧
      (Untruncated c (stored (commands c (controlTimer p now s)) σ) →
        (v', w') = (s.targetV, s.targetW)) := by
  rw [controlTimer_eq hradius hgear hfresh hlimits] at hreported ⊢
  have hexact := forward_inverse hradius hseparation hgear s.targetV s.targetW
  generalize (inverseKinematics p s.targetV s.targetW).1 = l at *
  generalize (inverseKinematics p s.targetV s.targetW).2 = r at *
  have hmessage : velocityMessage c σ' =
      byMotor p (quantize countsPerRpm l) (quantize countsPerRpm r) := by
    by_cases hswap : p.swapLr = true
    · rw [byMotor, if_pos hswap] at hreported ⊢
      exact velocityMessage_of_reported hids hreported
    · rw [byMotor, if_neg hswap] at hreported ⊢
      exact velocityMessage_of_reported hids hreported
  rw [hmessage]
  refine ⟨forall₂_byMotor.mpr ⟨recovered_quantize l, recovered_quantize r⟩, _, _,
    measuredTwist_byMotor hradius hgear _ _, ?_, ?_⟩
  · intro ε herrors
    obtain ⟨hleft, hright⟩ := forall₂_byMotor.mp herrors
    have herror := forwardKinematics_error hseparation hleft hright
    rwa [hexact] at herror
  · intro huntruncated
    have hquantized : quantize countsPerRpm l = l ∧ quantize countsPerRpm r = r := by
      unfold byMotor at huntruncated
      split at huntruncated
      · exact (quantize_of_untruncated hids huntruncated).symm
      · exact quantize_of_untruncated hids huntruncated
    rw [hquantized.1, hquantized.2]
    exact hexact

/-- The robot as configured, with the wheels swapped and the second drive reversed, on a bend. -/
def bend : Parameters :=
  { wheelRadius := 825 / 10000, wheelSeparation := 65 / 100, gearRatio := 9, maxLinearVel := 2
    maxAngularVel := 20, swapLr := true }

def twoDrives : Config := loadConfig true { motorDirections := some [1, -1] }

def onBend : BaseController ℚ := { BaseController.start with targetV := 1, targetW := 1 / 2 }

/-- Both drives report the counts sent to them. -/
def bendReported : Shared :=
  { now := 0
    drives := fun node => { feedbackVelocity := if node = 1 then 3306895 else 2382387 } }

theorem loopback_bend :
    List.Forall₂ Recovered (controlTimer bend 0 onBend) (velocityMessage twoDrives bendReported) ∧
    ∃ v' w', measuredTwist bend (velocityMessage twoDrives bendReported) = some (v', w') ∧
      (∀ ε, WheelErrors (controlTimer bend 0 onBend) (velocityMessage twoDrives bendReported) ε →
        |v' - 1| ≤ ε * |speedPerRpm bend| ∧
        |w' - 1 / 2| ≤ 2 * ε * |speedPerRpm bend| / bend.wheelSeparation) ∧
      (Untruncated twoDrives
          (stored (commands twoDrives (controlTimer bend 0 onBend)) { now := 0 }) →
        (v', w') = (1, 1 / 2)) := by
  have hreported : ∀ node ∈ twoDrives.driveMotorIds, Reported
      (stored (commands twoDrives (controlTimer bend 0 onBend)) { now := 0 }) bendReported node := by
    intro node hnode
    have hnodes : node = 1 ∨ node = 2 := by
      simpa [twoDrives, loadConfig, loadDriveMotorIds] using hnode
    rcases hnodes with rfl | rfl
    · exact ⟨3306895, by decide +kernel, rfl⟩
    · exact ⟨2382387, by decide +kernel, rfl⟩
  exact loopback bend twoDrives 0 onBend { now := 0 } bendReported (by norm_num [bend])
    (by norm_num [bend]) (by norm_num [bend]) rfl
    (by norm_num [onBend, BaseController.start, bend])
    ⟨fun _ => by norm_num [onBend, bend], fun _ => by norm_num [onBend, bend]⟩ hreported

end PolishingRobot.Base
