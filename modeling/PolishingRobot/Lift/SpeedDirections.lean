import PolishingRobot.Lift.PositionArithmetic

/-!
# Directions of the commanded speeds

The up speed is scaled, rounded and saturated to a word, the down speed is the
negated word, and the homing speed is a product cut to a word. The negation and
the cut do not saturate.
-/

namespace PolishingRobot.Lift

open Numbers

variable {c : Config} {now : Time} {s : State} {homed : Bool} {q : ℚ} {n : ℤ}

theorem lround_of_nonneg (h : 0 ≤ q) : lround q = ⌊q + 1 / 2⌋ := if_pos h

@[simp] theorem lround_neg (q : ℚ) : lround (-q) = -lround q := by
  rcases lt_trichotomy q 0 with h | rfl | h
  · rw [lround_of_nonneg (by linarith), lround, if_neg (by linarith), neg_neg]
  · norm_num [lround]
  · rw [lround_of_nonneg h.le, lround, if_neg (by linarith), neg_neg]

theorem le_lround_iff (hn : 0 < n) : n ≤ lround q ↔ (n : ℚ) - 1 / 2 ≤ q := by
  have hn' : (1 : ℚ) ≤ n := by exact_mod_cast hn
  by_cases h : 0 ≤ q
  · rw [lround_of_nonneg h, Int.le_floor]
    constructor <;> intro hle <;> linarith
  · have hnonneg : 0 ≤ lround (-q) := by
      rw [lround_of_nonneg (by linarith)]
      exact Int.floor_nonneg.mpr (by linarith)
    rw [lround_neg] at hnonneg
    constructor
    · intro hle
      omega
    · intro hle
      linarith

theorem lround_le_neg_iff (hn : 0 < n) : lround q ≤ -n ↔ q ≤ -((n : ℚ) - 1 / 2) := by
  have h := le_lround_iff (q := -q) hn
  rw [lround_neg] at h
  constructor
  · intro hle
    have := h.mp (by omega)
    linarith
  · intro hle
    have := h.mpr (by linarith)
    omega

/-- The up speed with the scale that applies once homed. -/
def scaledUp (c : Config) (homed : Bool) : ℚ :=
  c.upSpeedRpm.toInt * (if homed then c.postHomeSpeedScale else 1)

theorem sign_lround_scaledUp (c : Config) (homed : Bool) :
    (lround (scaledUp c homed)).sign = c.upSpeedRpm.toInt.sign := by
  have hscale : (1 : ℚ) ≤ if homed then c.postHomeSpeedScale else 1 := by
    cases homed
    · exact le_refl 1
    · exact c.one_le_scale
  unfold scaledUp
  generalize (if homed then c.postHomeSpeedScale else 1) = scale at hscale
  rcases lt_trichotomy c.upSpeedRpm.toInt 0 with hup | hup | hup
  · have hcast : (c.upSpeedRpm.toInt : ℚ) ≤ -1 := by exact_mod_cast (by omega)
    have hle : lround (c.upSpeedRpm.toInt * scale) ≤ -1 := by
      apply (lround_le_neg_iff one_pos).mpr
      push_cast
      nlinarith
    rw [Int.sign_eq_neg_one_of_neg hup, Int.sign_eq_neg_one_of_neg (by omega)]
  · norm_num [hup, lround]
  · have hcast : (1 : ℚ) ≤ c.upSpeedRpm.toInt := by exact_mod_cast hup
    have hle : 1 ≤ lround (c.upSpeedRpm.toInt * scale) := by
      apply (le_lround_iff one_pos).mpr
      push_cast
      nlinarith
    rw [Int.sign_eq_one_of_pos hup, Int.sign_eq_one_of_pos (by omega)]

/-- The up speed saturates. -/
theorem toInt_manualUpSpeed (c : Config) (homed : Bool) :
    (manualUpSpeed c homed).toInt = saturate (2 ^ 15) (lround (scaledUp c homed)) := by
  have hclamp : (if 32767 < lround (scaledUp c homed) then 32767
      else if lround (scaledUp c homed) < -32768 then -32768 else lround (scaledUp c homed)) =
      saturate (2 ^ 15) (lround (scaledUp c homed)) := by
    unfold saturate
    push_cast
    split_ifs <;> omega
  have hup : manualUpSpeed c homed =
      Int16.ofInt (saturate (2 ^ 15) (lround (scaledUp c homed))) := by
    rw [← hclamp]
    rfl
  rw [hup, Int16.toInt_ofInt]
  exact bmod_of_inWord (h := 2 ^ 15) (inWord_saturate (by norm_num) _)

/-- A text command sends the velocity, and the driver remembers it. -/
def Sends (c : Config) (now : Time) (cmd : String) (s : State) (v : Int16) : Prop :=
  (commandCallback c now cmd s).tx = s.tx ++ sent c (.velCmd v) ∧
    (commandCallback c now cmd s).lastVelCmd = v

theorem sends_up (c : Config) (now : Time) (s : State) :
    Sends c now "up" s (manualUpSpeed c s.homed) := by
  have hup : commandCallback c now "up" s =
      sendVelocity c now (manualUpSpeed c s.homed) (cancelResume { s with mode := .manual }) := rfl
  rw [Sends, hup, sendVelocity_tx, sendVelocity_eq]
  exact ⟨rfl, rfl⟩

theorem sends_down (c : Config) (now : Time) (s : State) :
    Sends c now "down" s (-(manualUpSpeed c s.homed)) := by
  have hdown : commandCallback c now "down" s =
      sendVelocity c now (-(manualUpSpeed c s.homed)) (cancelResume { s with mode := .manual }) :=
    rfl
  rw [Sends, hdown, sendVelocity_tx, sendVelocity_eq]
  exact ⟨rfl, rfl⟩

/-- 1 where positive velocities ascend, -1 where negative ones do. -/
def upDir (c : Config) : ℤ := if 0 ≤ c.upSpeedRpm.toInt then 1 else -1

/-- The magnitude of the homing speed as an integer. -/
def homingMagnitude (c : Config) : ℤ :=
  if 0 < c.homeSpeedRpm.toInt then c.homeSpeedRpm.toInt else |c.upSpeedRpm.toInt|

/-- The speeds that the driver commands keep their direction. -/
structure KeepsDirection (c : Config) (homed : Bool) : Prop where
  /-- The rounded speed fits a `long`, so that `std::lround` returns it. -/
  rounds : InWord (2 ^ 63) (lround (scaledUp c homed))
  manual : ∀ now s, s.homed = homed → ∃ up down, Sends c now "up" s up ∧ Sends c now "down" s down ∧
    up.toInt.sign = c.upSpeedRpm.toInt.sign ∧ down.toInt.sign = -c.upSpeedRpm.toInt.sign ∧
    down.toInt = saturate (2 ^ 15) (-up.toInt)
  homing : ∀ now s, s.homed = homed → s.alarmActive = false → homingSpeed c ≠ 0 →
    let v := (homeCallback c now true s).homeDirSpeed
    v ≠ 0 ∧ v.toInt.sign = -upDir c ∧ v.toInt = saturate (2 ^ 15) (-upDir c * homingMagnitude c)

/-- The magnitude of the homing speed fits a word, or is cut to the speed that
it would saturate to. -/
def HomingFits (c : Config) : Prop :=
  homingMagnitude c ≤ 32767 ∨
    (0 ≤ c.upSpeedRpm.toInt ∧ homingMagnitude c % 65536 = 32768) ∨
    (c.upSpeedRpm.toInt < 0 ∧ homingMagnitude c % 65536 = 32767)

/-- Only the least word has no negative. -/
theorem toInt_neg_eq_saturate_iff (v : Int16) :
    (-v).toInt = saturate (2 ^ 15) (-v.toInt) ↔ v.toInt ≠ -32768 := by
  have hlow := v.le_toInt
  have hhigh := v.toInt_lt
  rw [Int16.toInt_neg]
  refine (bmod_eq_saturate_iff (h := 2 ^ 15) (by norm_num)).trans ?_
  unfold InWord
  push_cast
  omega

/-- The scaled up speed saturates at the least word below these values. -/
theorem manualUpSpeed_ne_iff (c : Config) (homed : Bool) :
    (manualUpSpeed c homed).toInt ≠ -32768 ↔ -65535 / 2 < scaledUp c homed := by
  have hround := lround_le_neg_iff (q := scaledUp c homed) (n := 32768) (by norm_num)
  rw [toInt_manualUpSpeed, ← not_le, not_iff_not]
  trans lround (scaledUp c homed) ≤ -32768
  · unfold saturate
    push_cast
    omega
  · rw [hround]
    norm_num

theorem homingMagnitude_nonneg (c : Config) : 0 ≤ homingMagnitude c := by
  unfold homingMagnitude
  split
  · omega
  · exact abs_nonneg _

theorem toInt_homingSpeed (c : Config) :
    (homingSpeed c).toInt.bmod (2 ^ 16) = (homingMagnitude c).bmod (2 ^ 16) := by
  unfold homingSpeed homingMagnitude
  simp only [Int32.lt_iff_toInt_lt, Int32.toInt_zero]
  split
  · rfl
  · rw [toInt_abs]
    exact Int.bmod_bmod_of_dvd (by norm_num)

theorem abs_eq_zero_iff (x : Int32) : x.abs = 0 ↔ x = 0 := by
  constructor
  · intro h
    have habs : x.toBitVec.abs = 0 := congrArg Int32.toBitVec h
    apply Int32.toBitVec_inj.mp
    rw [BitVec.abs_eq] at habs
    split at habs
    · exact BitVec.neg_eq_zero_iff.mp habs
    · exact habs
  · rintro rfl
    decide

/-- Homing is refused for want of a speed only. -/
theorem homingSpeed_eq_zero_iff (c : Config) : homingSpeed c = 0 ↔ homingMagnitude c = 0 := by
  unfold homingSpeed homingMagnitude
  simp only [Int32.lt_iff_toInt_lt, Int32.toInt_zero]
  split
  · rw [← Int32.toInt_inj, Int32.toInt_zero]
  · rw [abs_eq_zero_iff, abs_eq_zero, ← Int32.toInt_inj, Int32.toInt_zero]

theorem homingMagnitude_pos (h : homingSpeed c ≠ 0) : 0 < homingMagnitude c :=
  lt_of_le_of_ne (homingMagnitude_nonneg c) fun hzero =>
    h ((homingSpeed_eq_zero_iff c).mpr hzero.symm)

/-- The homing speed of an accepted request is the product, cut to a word. -/
theorem toInt_homeDirSpeed (halarm : s.alarmActive = false) (hspeed : homingSpeed c ≠ 0) :
    (homeCallback c now true s).homeDirSpeed.toInt =
      (-upDir c * homingMagnitude c).bmod (2 * 2 ^ 15) := by
  have hdir : (-(if 0 ≤ c.upSpeedRpm then 1 else -1 : Int32)).toInt = -upDir c := by
    unfold upDir
    simp only [Int32.le_iff_toInt_le, Int32.toInt_zero]
    split <;> rfl
  rw [homeCallback_true, if_neg (by simp [halarm, hspeed])]
  have hv : (homingStarted c now s).homeDirSpeed =
      (-(if 0 ≤ c.upSpeedRpm then 1 else -1 : Int32) * homingSpeed c).toInt16 := rfl
  rw [hv, Int32.toInt_toInt16, Int32.toInt_mul, hdir]
  calc ((-upDir c * (homingSpeed c).toInt).bmod (2 ^ 32)).bmod (2 ^ 16)
      = (-upDir c * (homingSpeed c).toInt).bmod (2 ^ 16) :=
        Int.bmod_bmod_of_dvd (by norm_num)
    _ = (-upDir c * (homingSpeed c).toInt.bmod (2 ^ 16)).bmod (2 ^ 16) :=
        Int.mul_bmod_bmod.symm
    _ = (-upDir c * homingMagnitude c).bmod (2 ^ 16) := by
        rw [toInt_homingSpeed, Int.mul_bmod_bmod]

theorem bmod_homing_eq_saturate_iff (c : Config) :
    (-upDir c * homingMagnitude c).bmod (2 * 2 ^ 15) =
        saturate (2 ^ 15) (-upDir c * homingMagnitude c) ↔ HomingFits c := by
  have hnonneg := homingMagnitude_nonneg c
  refine (bmod_eq_saturate_iff (h := 2 ^ 15) (by norm_num)).trans ?_
  unfold InWord HomingFits upDir
  push_cast
  split <;> omega

/-- What is saturated keeps the descending direction. -/
theorem sign_saturate_homing (h : homingSpeed c ≠ 0) :
    (saturate (2 ^ 15) (-upDir c * homingMagnitude c)).sign = -upDir c := by
  have hpos := homingMagnitude_pos h
  rw [sign_saturate (by norm_num), Int.sign_mul, Int.sign_eq_one_of_pos hpos, mul_one]
  unfold upDir
  split <;> rfl

/-- For every up speed, homing speed, scale of at least 1 and homing state: the
driver's speeds keep their direction exactly if the scaled up speed neither
rounds to the least word nor leaves the range of `std::lround`, and the homing
speed fits a word or is cut to its saturated value. -/
theorem keeps_direction_iff (c : Config) (homed : Bool) :
    KeepsDirection c homed ↔
      (-65535 / 2 < scaledUp c homed ∧ scaledUp c homed < 2 ^ 63 - 1 / 2) ∧ HomingFits c := by
  have hlong : lround (scaledUp c homed) < 2 ^ 63 ↔ scaledUp c homed < 2 ^ 63 - 1 / 2 := by
    have h := le_lround_iff (q := scaledUp c homed) (n := 2 ^ 63) (by norm_num)
    rw [← not_le, ← not_le, not_iff_not, h]
    push_cast
    rfl
  constructor
  · intro h
    refine ⟨⟨?_, hlong.mp h.rounds.2⟩, ?_⟩
    · obtain ⟨up, down, ⟨-, hup⟩, ⟨-, hdown⟩, -, -, hsat⟩ := h.manual 0 { homed := homed } rfl
      rw [← hup, ← hdown, (sends_up c 0 _).2, (sends_down c 0 _).2] at hsat
      exact (manualUpSpeed_ne_iff c homed).mp ((toInt_neg_eq_saturate_iff _).mp hsat)
    · by_cases hspeed : homingSpeed c = 0
      · left
        rw [(homingSpeed_eq_zero_iff c).mp hspeed]
        norm_num
      · have hcut := (h.homing 0 { homed := homed } rfl rfl hspeed).2.2
        rw [toInt_homeDirSpeed rfl hspeed] at hcut
        exact (bmod_homing_eq_saturate_iff c).mp hcut
  · rintro ⟨⟨hlow, hhigh⟩, hfits⟩
    have hne := (manualUpSpeed_ne_iff c homed).mpr hlow
    refine ⟨⟨?_, hlong.mpr hhigh⟩, ?_, ?_⟩
    · have hleast : ¬ lround (scaledUp c homed) ≤ -32768 := by
        rw [lround_le_neg_iff (by norm_num)]
        push_cast
        linarith
      push_cast
      omega
    · rintro now s rfl
      refine ⟨_, _, sends_up c now s, sends_down c now s, ?_, ?_, ?_⟩
      · rw [toInt_manualUpSpeed, sign_saturate (by norm_num), sign_lround_scaledUp]
      · rw [(toInt_neg_eq_saturate_iff _).mpr hne, sign_saturate (by norm_num), Int.sign_neg,
          toInt_manualUpSpeed, sign_saturate (by norm_num), sign_lround_scaledUp]
      · exact (toInt_neg_eq_saturate_iff _).mpr hne
    · intro now s _ halarm hspeed v
      have hsat : v.toInt = saturate (2 ^ 15) (-upDir c * homingMagnitude c) :=
        (toInt_homeDirSpeed halarm hspeed).trans ((bmod_homing_eq_saturate_iff c).mpr hfits)
      have hsign : v.toInt.sign = -upDir c := by
        rw [hsat, sign_saturate_homing hspeed]
      refine ⟨?_, hsign, hsat⟩
      intro hzero
      rw [hzero] at hsign
      unfold upDir at hsign
      split at hsign <;> cases hsign

/-- The defaults with a fast lift whose up direction is negative. -/
def fastLift : Config := Config.ofParameters true { upSpeedRpm := -20000 }

instance (c : Config) (now : Time) (cmd : String) (s : State) (v : Int16) :
    Decidable (Sends c now cmd s v) :=
  inferInstanceAs (Decidable (_ ∧ _))

/-- Once the lift is homed, "down" sends the same velocity as "up". -/
theorem down_goes_up :
    let s := run fastLift [.home 1 true, .poll 2 2 [monitorReply 50 0]]
    s.homed = true ∧ Sends fastLift 3 "up" s (-32768) ∧ Sends fastLift 3 "down" s (-32768) ∧
      ¬ KeepsDirection fastLift s.homed := by
  intro s
  have hhomed : s.homed = true := by decide +kernel
  have hdown : Sends fastLift 3 "down" s (-32768) := by decide +kernel
  refine ⟨hhomed, by decide +kernel, hdown, ?_⟩
  intro h
  obtain ⟨up, down, -, ⟨-, hlast⟩, -, hsign, -⟩ := h.manual 3 s rfl
  rw [← hlast, hdown.2] at hsign
  exact absurd hsign (by decide +kernel)

/-- A homing speed beyond the word turns round. -/
example :
    (homeCallback (Config.ofParameters true { upSpeedRpm := 500, homeSpeedRpm := 40000 }) 1 true
      {}).homeDirSpeed = 25536 := by decide +kernel

end PolishingRobot.Lift
