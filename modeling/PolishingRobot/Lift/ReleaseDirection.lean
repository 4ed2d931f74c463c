import PolishingRobot.Lift.Freshness
import PolishingRobot.Lift.OriginReset

/-!
# Which commands the lower limit releases

The sign of `up_speed_rpm` says which velocities ascend. Homing and the commands
"up" and "down" honour it, while the release at the lower limit takes every
negative velocity for a descent.
-/

namespace PolishingRobot.Lift

variable {c : Config} {now rxNow : Time} {s : State} {v : Int16}

/-- The velocity and the up speed have opposite signs. -/
def Descends (c : Config) (v : Int16) : Prop := v.toInt * c.upSpeedRpm.toInt < 0

/-- The velocity and the up speed have one sign. -/
def Ascends (c : Config) (v : Int16) : Prop := 0 < v.toInt * c.upSpeedRpm.toInt

/-- The release stage of a poll. -/
def released (c : Config) (now : Time) (s : State) : State :=
  releaseIfBlocked c now s.rx.position (isFresh c now s.rx) s.rx.diByte s

/-- The release stage sends velocity 0. -/
def Releases (c : Config) (now : Time) (s : State) : Prop :=
  (released c now s).tx = s.tx ++ [.velCmd 0]

/-- The stop detection has seen the lift stand still for long enough. -/
def StopDetected (c : Config) (now : Time) (s : State) : Prop :=
  c.releaseGraceSec ≤ now - s.velCmdTime ∧ s.velRefValid = true ∧
    ¬ c.homeStallCounts < (s.rx.position - s.velRefPos).abs ∧
    c.releaseStopSec ≤ now - s.velRefTime

/-- In manual mode at the lower limit, a descent is released at once, and an
ascent only when the lift stands still. -/
def ReleasesDownwards (c : Config) (now : Time) (s : State) : Prop :=
  s.mode = .manual → atLowerLimit c s.rx.diByte (isFresh c now s.rx) = true →
    (Descends c s.lastVelCmd → Releases c now s) ∧
      (Ascends c s.lastVelCmd → Releases c now s → StopDetected c now s)

/-- With an open port, velocity 0 is sent for a manual command that reads as a
descent at the limit, or that the lift does not follow. -/
theorem releases_iff (hopen : c.serialOpen = true) :
    Releases c now s ↔
      c.autoReleaseOnStop = true ∧ s.mode = .manual ∧ s.lastVelCmd ≠ 0 ∧
        isFresh c now s.rx = true ∧
        ((s.lastVelCmd < 0 ∧ atLowerLimit c s.rx.diByte (isFresh c now s.rx) = true) ∨
          StopDetected c now s) := by
  have hsend : (sendVelocity c now 0 s).tx = s.tx ++ [.velCmd 0] := by
    rw [sendVelocity_tx, sent, if_pos hopen]
  have hsame : ¬ s.tx = s.tx ++ [.velCmd 0] := by
    simp
  unfold Releases released releaseIfBlocked StopDetected
  split
  · rename_i hskip
    refine ⟨fun h => absurd h hsame, ?_⟩
    rintro ⟨hauto, hmode, hvel, hfresh, -⟩
    rcases hskip with h | h | h | h
    · exact absurd hauto h
    · exact absurd hmode h
    · exact absurd h hvel
    · exact absurd hfresh h
  rename_i hskip
  simp only [not_or, not_not] at hskip
  obtain ⟨hauto, hmode, hvel, hfresh⟩ := hskip
  split
  · rename_i hlow
    exact ⟨fun _ => ⟨hauto, hmode, hvel, hfresh, .inl hlow⟩, fun _ => hsend⟩
  rename_i hlow
  split
  · rename_i hgrace
    refine ⟨fun h => absurd h hsame, ?_⟩
    rintro ⟨-, -, -, -, h | ⟨hpast, -⟩⟩
    · exact absurd h hlow
    · exact absurd hpast (not_le.mpr hgrace)
  rename_i hgrace
  split
  · rename_i hmoved
    refine ⟨fun h => absurd h hsame, ?_⟩
    rintro ⟨-, -, -, -, h | ⟨-, hvalid, hstill, -⟩⟩
    · exact absurd h hlow
    · exact absurd hmoved (not_or.mpr ⟨not_not.mpr hvalid, hstill⟩)
  rename_i hstill
  simp only [not_or, not_not] at hstill
  split
  · rename_i hstop
    refine ⟨fun _ => ⟨hauto, hmode, hvel, hfresh, .inr ?_⟩, fun _ => hsend⟩
    exact ⟨not_lt.mp hgrace, hstill.1, hstill.2, hstop⟩
  · rename_i hstop
    refine ⟨fun h => absurd h hsame, ?_⟩
    rintro ⟨-, -, -, -, h | ⟨-, -, -, hlong⟩⟩
    · exact absurd h hlow
    · exact absurd hlong hstop

/-- A poll that runs without an alarm and without a homing request brings a
manual command to the release stage as it is. -/
theorem beforeRelease_of_manual (hmode : s.mode = .manual) (halarm : s.alarmActive = false)
    (hpending : s.pendingHome = false) (hbit : alarmBit s.rx.statusByte = false) :
    beforeRelease c now s = s := by
  have hbefore : beforeMotion c now s = s := by
    simp [beforeMotion, updateAlarm, autoAlarmReset, autoHome, halarm, hpending, hbit]
  rw [beforeRelease, hbefore, updateMotion]
  simp only [hmode]

instance (c : Config) (v : Int16) : Decidable (Ascends c v) :=
  inferInstanceAs (Decidable (_ < _))

instance (c : Config) (now : Time) (s : State) : Decidable (Releases c now s) :=
  inferInstanceAs (Decidable (_ = _))

instance (c : Config) (now : Time) (s : State) : Decidable (StopDetected c now s) :=
  inferInstanceAs (Decidable (_ ∧ _ ∧ _ ∧ _))

theorem descends_iff (hup : 0 < c.upSpeedRpm) : Descends c v ↔ v < 0 := by
  have hpos : 0 < c.upSpeedRpm.toInt := Int32.lt_iff_toInt_lt.mp hup
  rw [Descends, Int16.lt_iff_toInt_lt, Int16.toInt_zero]
  constructor
  · intro h
    by_contra hv
    have := mul_nonneg (not_lt.mp hv) hpos.le
    omega
  · intro hv
    exact mul_neg_of_neg_of_pos hv hpos

theorem ascends_iff (hup : 0 < c.upSpeedRpm) : Ascends c v ↔ 0 < v := by
  have hpos : 0 < c.upSpeedRpm.toInt := Int32.lt_iff_toInt_lt.mp hup
  rw [Ascends, Int16.lt_iff_toInt_lt, Int16.toInt_zero]
  exact mul_pos_iff_of_pos_right hpos

theorem descends_opposite (hup : c.upSpeedRpm ≠ 0) :
    Descends c (if 0 < c.upSpeedRpm then -1 else 1) := by
  have hne : c.upSpeedRpm.toInt ≠ 0 := fun h => hup (Int32.toInt_inj.mp h)
  unfold Descends
  split
  · rename_i hpos
    have hpos : 0 < c.upSpeedRpm.toInt := Int32.lt_iff_toInt_lt.mp hpos
    simpa using hpos
  · rename_i hpos
    have hpos : ¬ 0 < c.upSpeedRpm.toInt := fun h => hpos (Int32.lt_iff_toInt_lt.mpr h)
    have hneg : c.upSpeedRpm.toInt < 0 := by omega
    simpa using hneg

/-- With a positive up speed and the release switched on, the release stage
follows the direction. -/
theorem releasesDownwards_of_pos (hup : 0 < c.upSpeedRpm) (hauto : c.autoReleaseOnStop = true)
    (hs : Consistent c s) : ReleasesDownwards c now s := by
  intro hmode hlow
  have hfresh : isFresh c now s.rx = true := (atLowerLimit_iff.mp hlow).1
  have hopen := hs.open_of_fresh hfresh
  rw [descends_iff hup, ascends_iff hup, releases_iff hopen]
  constructor
  · intro hdown
    exact ⟨hauto, hmode, Int16.ne_of_lt hdown, hfresh, .inl ⟨hdown, hlow⟩⟩
  · rintro hascend ⟨-, -, -, -, ⟨hdown, -⟩ | hstop⟩
    · exact absurd hdown (Int16.lt_asymm hascend)
    · exact hstop

/-- The state that the release stage of a poll finds. -/
def atRelease (c : Config) (rxNow now : Time) (frames : List RxFrame) (s : State) : State :=
  beforeRelease c now (pollReceive c rxNow frames { s with tx := [] })

/-- A slow command with the sign that the release stage should take for a
descent, given while no homing is pending. -/
def slowDescent (c : Config) : List Event :=
  [.home 0 false, .velocityCmd 0 (if 0 < c.upSpeedRpm then -1 else 1)]

/-- What the commands leave of the members that the stages of a poll read. -/
theorem run_slowDescent (c : Config) :
    let s := run c (slowDescent c)
    s.mode = .manual ∧ s.alarmActive = false ∧ s.pendingHome = false ∧ s.velRefValid = false ∧
      s.lastVelCmd = if 0 < c.upSpeedRpm then -1 else 1 := by
  have hstart : (start c).mode = .manual ∧ (start c).alarmActive = false ∧
      (start c).velRefValid = false ∧
      (c.enablePositionControl = false → (start c).pendingHome = false) := by
    unfold start
    dsimp only
    split <;> simp +contextual [sendPositionVel, sendFrame]
  obtain ⟨hmode, halarm, hvalid, hpending⟩ := hstart
  have hhome : (step c (start c) (.home 0 false)).alarmActive = false ∧
      (step c (start c) (.home 0 false)).pendingHome = false ∧
      (step c (start c) (.home 0 false)).velRefValid = false := by
    cases hpos : c.enablePositionControl with
    | true => simp [step, callback, homeCallback, cancelResume, hpos, hmode, halarm, hvalid]
    | false => simp [step, callback, hpos, halarm, hvalid, hpending hpos]
  obtain ⟨halarm, hpending, hvalid⟩ := hhome
  simp only [run, slowDescent, List.foldl_cons, List.foldl_nil]
  generalize step c (start c) (.home 0 false) = s at halarm hpending hvalid
  simp only [step, callback, velocityCmdCallback, sendVelocity_eq, cancelResume]
  simp [halarm, hpending, hvalid]

/-- The data of a fresh poll at the limit. -/
theorem pollReceive_limit (hopen : c.serialOpen = true) (s : State) :
    let r := pollReceive c 0 [monitorReply 0 0] s
    isFresh c (c.timeoutSec - 1) r.rx = true ∧ r.rx.statusByte = 0 ∧ r.rx.diByte = 0 := by
  have hmonitor : (monitorReply 0 0).IsMonitor := by decide
  rw [pollReceive_eq]
  simp only [hopen, if_true, List.foldl_cons, List.foldl_nil, handleFrame, if_pos hmonitor]
  refine ⟨?_, rfl, rfl⟩
  simp [isFresh]

/-- Nothing that a poll decides before its release stage breaks the mode
invariant. -/
theorem beforeRelease_consistent (hs : Consistent c s) (now : Time) :
    Consistent c (beforeRelease c now s) := by
  have halarm := (updateAlarm_step c now s.rx.statusByte (isFresh c now s.rx) s.rx.position
    s).consistent hs
  have hhome : Consistent c (beforeMotion c now s) :=
    (autoHome_step c now (isFresh c now s.rx) _).consistent halarm
  exact (updateMotion_step c now s.rx.position (isFresh c now s.rx) s.rx.diByte _).consistent hhome

theorem atRelease_consistent (hs : Consistent c s) (rxNow now : Time) (frames : List RxFrame) :
    Consistent c (atRelease c rxNow now frames s) := by
  have h₀ : Consistent c { s with tx := [] } := hs.congr rfl rfl rfl rfl rfl
  exact beforeRelease_consistent (pollReceive_consistent h₀ rxNow frames) now

/-- Unless the up speed is positive and the release is switched on, a slow
descent is not released when the limit is reached. -/
theorem slowDescent_kept (hup : c.upSpeedRpm ≠ 0) (hopen : c.serialOpen = true)
    (hbad : ¬ (0 < c.upSpeedRpm ∧ c.autoReleaseOnStop = true)) :
    ¬ ReleasesDownwards c (c.timeoutSec - 1)
      (atRelease c 0 (c.timeoutSec - 1) [monitorReply 0 0] (run c (slowDescent c))) := by
  obtain ⟨hmode, halarm, hpending, hvalid, hvel⟩ := run_slowDescent c
  rw [atRelease]
  generalize run c (slowDescent c) = s at hmode halarm hpending hvalid hvel
  obtain ⟨hfresh, hstatus, hdi⟩ := pollReceive_limit hopen { s with tx := [] }
  have hkeep := pollReceive_eq c 0 [monitorReply 0 0] { s with tx := [] }
  generalize pollReceive c 0 [monitorReply 0 0] { s with tx := [] } = r at *
  have hrmode : r.mode = .manual := by rw [hkeep]; exact hmode
  have hrvalid : r.velRefValid = false := by rw [hkeep]; exact hvalid
  have hrvel : r.lastVelCmd = if 0 < c.upSpeedRpm then -1 else 1 := by rw [hkeep]; exact hvel
  rw [beforeRelease_of_manual hrmode (by rw [hkeep]; exact halarm) (by rw [hkeep]; exact hpending)
    (by rw [hstatus]; decide)]
  intro hgood
  have hdescends : Descends c r.lastVelCmd := by
    rw [hrvel]
    exact descends_opposite hup
  have hlow : atLowerLimit c r.rx.diByte (isFresh c (c.timeoutSec - 1) r.rx) = true := by
    rw [hdi, hfresh]
    simp [atLowerLimit]
  obtain ⟨hauto, -, -, -, hwhy⟩ := (releases_iff hopen).mp ((hgood hrmode hlow).1 hdescends)
  rcases hwhy with ⟨hneg, -⟩ | ⟨-, htracked, -⟩
  · apply hbad
    refine ⟨?_, hauto⟩
    by_contra hpos
    rw [hrvel, if_neg hpos] at hneg
    exact absurd hneg (by decide)
  · rw [hrvalid] at htracked
    cases htracked

/-- For every nonzero up speed: in every poll of every run the release stage
releases descents at the lower limit, and only those, exactly if the up speed is
positive and the release is switched on, or the port is closed. -/
theorem release_follows_up_iff (c : Config) (hup : c.upSpeedRpm ≠ 0) :
    (∀ es rxNow now frames, ReleasesDownwards c now (atRelease c rxNow now frames (run c es))) ↔
      c.serialOpen = false ∨ (0 < c.upSpeedRpm ∧ c.autoReleaseOnStop = true) := by
  constructor
  · intro hall
    by_contra hbad
    obtain ⟨hopen, hbad⟩ := not_or.mp hbad
    exact slowDescent_kept hup (by simpa using hopen) hbad (hall _ _ _ _)
  · intro hgood es rxNow now frames
    have hs := atRelease_consistent (run_consistent c es) rxNow now frames
    rcases hgood with hclosed | ⟨hpos, hauto⟩
    · intro _ hlow
      have hopen := hs.open_of_fresh (atLowerLimit_iff.mp hlow).1
      rw [hclosed] at hopen
      cases hopen
    · exact releasesDownwards_of_pos hpos hauto hs

/-- The defaults on a lift whose up direction is negative. -/
def negativeUp : Config := Config.ofParameters true { upSpeedRpm := -500 }

theorem release_follows_up_iff_default :
    (∀ es rxNow now frames,
      ReleasesDownwards defaultConfig now (atRelease defaultConfig rxNow now frames
        (run defaultConfig es))) ↔
      defaultConfig.serialOpen = false ∨
        (0 < defaultConfig.upSpeedRpm ∧ defaultConfig.autoReleaseOnStop = true) :=
  release_follows_up_iff defaultConfig (by decide)

/-- Driven up off its lower limit, the lift is stopped at once. -/
theorem ascent_released :
    let s := atRelease negativeUp 2 2 [monitorReply 90 0] (run negativeUp [.command 1 "up"])
    Ascends negativeUp s.lastVelCmd ∧ Releases negativeUp 2 s ∧ ¬ StopDetected negativeUp 2 s ∧
      ¬ ∀ es rxNow now frames, ReleasesDownwards negativeUp now
        (atRelease negativeUp rxNow now frames (run negativeUp es)) := by
  intro s
  have hmode : s.mode = .manual := by decide +kernel
  have hlow : atLowerLimit negativeUp s.rx.diByte (isFresh negativeUp 2 s.rx) = true := by
    decide +kernel
  have hascends : Ascends negativeUp s.lastVelCmd := by decide +kernel
  have hreleases : Releases negativeUp 2 s := by decide +kernel
  have hmoving : ¬ StopDetected negativeUp 2 s := by decide +kernel
  refine ⟨hascends, hreleases, hmoving, ?_⟩
  intro hall
  exact hmoving (((hall _ _ _ _) hmode hlow).2 hascends hreleases)

end PolishingRobot.Lift
