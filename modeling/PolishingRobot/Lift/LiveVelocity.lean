import PolishingRobot.Lift.ReleaseDirection
import PolishingRobot.Runs.LabelledRuns

/-!
# Whether the tracked velocity is the live one

`lastVelCmd` is written by `sendVelocity` only, while position commands move
the drive too. The record beside the state says which motion command the drive
executes, and since when. Position moves leave the tracked velocity behind; the
theorem says exactly which steps then act on it.
-/

namespace PolishingRobot.Lift

open Runs

variable {c : Config} {now rxNow : Time} {pos : Int32} {fresh : Bool} {di st : UInt8}
  {s t : State} {rpm v : Int16} {f : TxFrame}

/-- The kinds of motion commands. -/
inductive Motion where
  | nothing
  | velocity (rpm : Int16)
  | position
  deriving DecidableEq, Repr

/-- What a frame makes the drive do, if it is a motion command. -/
def TxFrame.motion : TxFrame → Option Motion
  | .velCmd rpm => some (.velocity rpm)
  | .posiCmd _ => some .position
  | .incPosiCmd _ => some .position
  | _ => none

/-- The newest motion command, and since when it is the newest. A repeated
command changes nothing. -/
structure Live where
  motion : Motion := .nothing
  since : Time := 0
  deriving DecidableEq, Repr

def Live.note (now : Time) (l : Live) (f : TxFrame) : Live :=
  match f.motion with
  | none => l
  | some m => if m = l.motion then l else ⟨m, now⟩

/-- The record behind the frames that a callback has written so far. -/
def Live.behind (l : Live) (now : Time) (s : State) : Live := s.tx.foldl (Live.note now) l

/-- The driver and the record of what it makes the drive do. -/
def liveStep (c : Config) : State × Live → Event → Option (State × Live) :=
  observe (total (step c)) fun s e l => l.behind e.time (step c s e)

theorem liveStep_eq (sl : State × Live) (e : Event) :
    liveStep c sl e = some (step c sl.1 e, sl.2.behind e.time (step c sl.1 e)) := rfl

variable {l : Live}

theorem behind_of_tx (h : t.tx = s.tx) : l.behind now t = l.behind now s := by
  rw [Live.behind, Live.behind, h]

theorem behind_sent (h : t.tx = s.tx ++ sent c f) :
    l.behind now t =
      if c.serialOpen then (l.behind now s).note now f else l.behind now s := by
  rw [Live.behind, h, sent]
  split
  · rw [List.foldl_append]
    rfl
  · rw [List.append_nil]
    rfl

/-- Frames that are no motion commands leave the record alone. -/
theorem behind_silent (h : t.tx = s.tx ++ sent c f) (hf : f.motion = none) :
    l.behind now t = l.behind now s := by
  rw [behind_sent h]
  split
  · rw [Live.note, hf]
  · rfl

theorem note_motion {m : Motion} (h : f.motion = some m) (l : Live) :
    (l.note now f).motion = m := by
  rw [Live.note, h]
  dsimp only
  split
  · rename_i hsame
    exact hsame.symm
  · rfl

theorem behind_sendVelocity (c : Config) (l : Live) (now : Time) (rpm : Int16) (s : State) :
    l.behind now (sendVelocity c now rpm s) =
      if c.serialOpen then (l.behind now s).note now (.velCmd rpm) else l.behind now s :=
  behind_sent (sendVelocity_tx c now rpm s)

/-- A velocity that the drive executes is the tracked one, and began when the
tracking says or before. -/
structure Recorded (c : Config) (l : Live) (s : State) : Prop where
  velocity : ∀ v, l.motion = .velocity v → v = s.lastVelCmd
  since : ∀ v, l.motion = .velocity v → v ≠ 0 → l.since ≤ s.velCmdTime
  closed : c.serialOpen = false → l.motion = .nothing
  moving : c.serialOpen = true → s.lastVelCmd ≠ 0 → l.motion ≠ .nothing

/-- In manual mode the tracked velocity, unless zero, is what the drive
executes; in position mode that is a position command. -/
structure Tracked (c : Config) (l : Live) (s : State) : Prop extends Recorded c l s where
  manual : s.mode = .manual → s.lastVelCmd ≠ 0 → l.motion = .velocity s.lastVelCmd
  position : s.mode = .position → c.serialOpen = true → l.motion = .position
  tracking : s.mode = .homing → s.stallTracking = true → l.motion ≠ .position
  resume : s.resumeMode ≠ .manual → s.lastVelCmd = 0

theorem Recorded.congr (h : Recorded c l s) (hvel : t.lastVelCmd = s.lastVelCmd)
    (htime : t.velCmdTime = s.velCmdTime) : Recorded c l t where
  velocity := by
    rw [hvel]
    exact h.velocity
  since := by
    rw [htime]
    exact h.since
  closed := h.closed
  moving := by
    rw [hvel]
    exact h.moving

theorem Tracked.congr (h : Tracked c l s) (hvel : t.lastVelCmd = s.lastVelCmd)
    (htime : t.velCmdTime = s.velCmdTime) (hmode : t.mode = s.mode)
    (htrack : t.stallTracking = s.stallTracking)
    (hresume : t.resumeMode = s.resumeMode ∨ t.resumeMode = .manual) : Tracked c l t where
  toRecorded := h.toRecorded.congr hvel htime
  manual := by
    rw [hmode, hvel]
    exact h.manual
  position := by
    rw [hmode]
    exact h.position
  tracking := by
    rw [hmode, htrack]
    exact h.tracking
  resume := by
    intro hne
    rw [hvel]
    rcases hresume with hsame | hmanual
    · exact h.resume (hsame ▸ hne)
    · exact absurd hmanual hne

/-- Stopped in manual mode. -/
theorem Tracked.of_stopped (h : Recorded c l t) (hmode : t.mode = .manual)
    (hvel : t.lastVelCmd = 0) : Tracked c l t where
  toRecorded := h
  manual := fun _ hne => absurd hvel hne
  position := by simp [hmode]
  tracking := by simp [hmode]
  resume := fun _ => hvel

/-- A velocity that is sent again restarts no spin-up time, so it must not
have been replaced by a position command in between. -/
def SpinsUp (l : Live) (now : Time) (rpm : Int16) (s : State) : Prop :=
  l.motion = .position → rpm = s.lastVelCmd → rpm ≠ 0 → now ≤ s.velCmdTime

theorem Recorded.sendVelocity (h : Recorded c (l.behind now s) s)
    (hspin : SpinsUp (l.behind now s) now rpm s) :
    Recorded c (l.behind now (sendVelocity c now rpm s)) (sendVelocity c now rpm s) := by
  rw [behind_sendVelocity, sendVelocity_eq]
  generalize l.behind now s = m at h hspin
  cases hopen : c.serialOpen with
  | false =>
      have hnothing := h.closed hopen
      refine ⟨?_, ?_, fun _ => hnothing, by simp [hopen]⟩
      · intro v hv
        rw [if_neg Bool.false_ne_true, hnothing] at hv
        cases hv
      · intro v hv
        rw [if_neg Bool.false_ne_true, hnothing] at hv
        cases hv
  | true =>
      simp only [if_true]
      have hmotion : (m.note now (.velCmd rpm)).motion = .velocity rpm := note_motion rfl m
      refine ⟨?_, ?_, by simp [hopen], by simp [hmotion]⟩
      · intro v hv
        rw [hmotion] at hv
        exact (Motion.velocity.inj hv).symm
      · intro v hv hne
        rw [hmotion] at hv
        obtain rfl := Motion.velocity.inj hv
        simp only [Live.note, TxFrame.motion]
        by_cases hrpm : rpm = s.lastVelCmd
        · simp only [hrpm, ne_eq, not_true_eq_false, if_false]
          split
          · rename_i hsame
            exact h.since s.lastVelCmd hsame.symm (hrpm ▸ hne)
          · rename_i hother
            have hposition : m.motion = .position := by
              cases hm : m.motion with
              | nothing => exact absurd hm (h.moving hopen (hrpm ▸ hne))
              | velocity u => exact absurd (by rw [hm, h.velocity u hm]) hother
              | position => rfl
            exact hspin hposition hrpm hne
        · have hother : Motion.velocity rpm ≠ m.motion :=
            fun hsame => hrpm (h.velocity rpm hsame.symm)
          rw [if_neg hother, if_pos hrpm]

/-- A state that agrees with a sent velocity, in manual mode. -/
theorem Tracked.of_stop (h : Recorded c (l.behind now s) s) (hmode : t.mode = .manual)
    (hlive : l.behind now t = l.behind now (sendVelocity c now 0 s))
    (hvel : t.lastVelCmd = 0)
    (htime : t.velCmdTime = (sendVelocity c now 0 s).velCmdTime) :
    Tracked c (l.behind now t) t := by
  have hspin : SpinsUp (l.behind now s) now 0 s := fun _ _ hne => absurd rfl hne
  have hsent := h.sendVelocity hspin
  rw [hlive]
  refine .of_stopped (hsent.congr ?_ htime) hmode hvel
  rw [hvel, sendVelocity_eq]

/-- A position command goes out while nothing is resumed, or from standstill. -/
theorem Tracked.of_position (h : Recorded c (l.behind now s) s) (htx : t.tx = s.tx ++ sent c f)
    (hf : f.motion = some .position) (hmode : t.mode = .position)
    (hresume : t.resumeMode ≠ .manual → t.lastVelCmd = 0) :
    Tracked c (l.behind now t) t := by
  rw [behind_sent htx]
  generalize l.behind now s = m at h
  have hrecorded : Recorded c (if c.serialOpen then m.note now f else m) t := by
    cases hopen : c.serialOpen with
    | false =>
        have hnothing := h.closed hopen
        refine ⟨?_, ?_, fun _ => hnothing, by simp [hopen]⟩
        · simp [hnothing]
        · simp [hnothing]
    | true =>
        have hmotion : (m.note now f).motion = .position := note_motion hf m
        simp only [if_true]
        refine ⟨?_, ?_, by simp [hopen], by simp [hmotion]⟩
        · simp [hmotion]
        · simp [hmotion]
  refine ⟨hrecorded, by simp [hmode], ?_, by simp [hmode], hresume⟩
  intro _ hopen
  rw [if_pos hopen]
  exact note_motion hf m

theorem AlarmResetStep.tracked {manual : Bool} (h : AlarmResetStep c now manual s t)
    (hs : Tracked c (l.behind now s) s) (hmode : s.mode = .manual) :
    Tracked c (l.behind now t) t := by
  cases h with
  | exhausted => exact hs.congr rfl rfl rfl rfl (.inl rfl)
  | sent =>
      refine .of_stop hs.toRecorded ?_ ?_ ?_ ?_
      · simpa [sendAlarmReset, sendFrame, sendVelocity_eq] using hmode
      · exact behind_silent (sendFrame_tx c .alarmReset _) rfl
      · simp [sendAlarmReset, sendFrame, sendVelocity_eq]
      · simp [sendAlarmReset, sendFrame]

theorem AutoResetStep.tracked (h : AutoResetStep c now s t)
    (hs : Tracked c (l.behind now s) s) (hmode : s.mode = .manual) :
    Tracked c (l.behind now t) t := by
  cases h with
  | idle => exact hs
  | retry _ _ _ _ h => exact h.tracked hs hmode

theorem raiseAlarm_tracked (hs : Tracked c (l.behind now s) s) :
    Tracked c (l.behind now (raiseAlarm c now s)) (raiseAlarm c now s) := by
  rw [raiseAlarm_eq]
  exact .of_stop hs.toRecorded rfl (behind_of_tx rfl) (by simp [sendVelocity_eq]) rfl

theorem ResumeStep.tracked (h : ResumeStep c now pos s t)
    (hs : Tracked c (l.behind now s) s) (hhoming : s.resumeMode ≠ .homing) :
    Tracked c (l.behind now t) t := by
  cases h with
  | nothing => exact hs
  | givenUp => exact hs.congr rfl rfl rfl rfl (.inr rfl)
  | homing hr => exact absurd hr hhoming
  | absolute => exact .of_position hs.toRecorded rfl rfl rfl (fun hne => absurd rfl hne)
  | relative => exact .of_position hs.toRecorded rfl rfl rfl (fun hne => absurd rfl hne)

/-- The alarm stage stops the lift, or resumes a move that an alarm stopped. -/
theorem AlarmStep.tracked (h : AlarmStep c now st fresh pos s t) (hc : Consistent c s)
    (hs : Tracked c (l.behind now s) s) : Tracked c (l.behind now t) t := by
  cases h with
  | stale => exact hs
  | quiet => exact hs
  | cleared _ _ _ h =>
      have hclear : Tracked c (l.behind now (clearAlarm s)) (clearAlarm s) :=
        hs.congr rfl rfl rfl rfl (.inl rfl)
      exact h.tracked hclear hc.resume_ne_homing
  | raised _ _ _ h =>
      refine h.tracked (raiseAlarm_tracked hs) ?_
      rw [raiseAlarm_eq]
  | standing _ _ hactive h => exact h.tracked hs (hc.manual_of_alarm hactive)

theorem homingStarted_tracked (hs : Tracked c l s) (now : Time) :
    Tracked c l (homingStarted c now s) where
  toRecorded := hs.toRecorded.congr rfl rfl
  manual := by simp [homingStarted, cancelResume]
  position := by simp [homingStarted, cancelResume]
  tracking := by simp [homingStarted, cancelResume]
  resume := by simp [homingStarted, cancelResume]

theorem AutoHomeStep.tracked (h : AutoHomeStep c now fresh s t)
    (hs : Tracked c (l.behind now s) s) : Tracked c (l.behind now t) t := by
  cases h with
  | idle => exact hs
  | started => exact homingStarted_tracked hs now

theorem beforeMotion_tracked (hc : Consistent c s) (hs : Tracked c (l.behind now s) s) :
    Tracked c (l.behind now (beforeMotion c now s)) (beforeMotion c now s) :=
  (autoHome_step c now _ _).tracked ((updateAlarm_step c now _ _ _ s).tracked hc hs)

/-- The homing stage goes on moving towards the limit. -/
def HomingGoesOn (c : Config) (now : Time) (fresh : Bool) (di : UInt8) (s : State) : Prop :=
  s.mode = .homing ∧ ¬ c.homeTimeoutSec < now - s.homeStart ∧
    ¬ (c.useLimitSwitchForHome = true ∧ atLowerLimit c di fresh = true)

/-- The motion stage ends a position move. -/
def Reaches (c : Config) (pos : Int32) (fresh : Bool) (s : State) : Prop :=
  s.mode = .position ∧ fresh = true ∧ (s.targetPos - pos).abs ≤ c.inPositionTol

/-- A sent velocity is no position command. -/
theorem behind_sendVelocity_ne_position (h : Recorded c (l.behind now s) s) (rpm : Int16) :
    (l.behind now (sendVelocity c now rpm s)).motion ≠ .position := by
  rw [behind_sendVelocity]
  cases hopen : c.serialOpen with
  | false =>
      rw [if_neg Bool.false_ne_true, h.closed hopen]
      simp
  | true =>
      have hmotion : ((l.behind now s).note now (.velCmd rpm)).motion = .velocity rpm :=
        note_motion rfl _
      rw [if_pos rfl, hmotion]
      simp

/-- While homing goes on the velocity it sends is tracked. -/
theorem Tracked.of_homing (hc : Consistent c s) (hs : Tracked c (l.behind now s) s)
    (hmode : s.mode = .homing) (hspin : SpinsUp (l.behind now s) now rpm s)
    (htmode : t.mode = .homing) (htx : t.tx = (sendVelocity c now rpm s).tx)
    (hvel : t.lastVelCmd = (sendVelocity c now rpm s).lastVelCmd)
    (htime : t.velCmdTime = (sendVelocity c now rpm s).velCmdTime)
    (hresume : t.resumeMode = s.resumeMode) : Tracked c (l.behind now t) t := by
  rw [behind_of_tx htx]
  refine ⟨(hs.toRecorded.sendVelocity hspin).congr hvel htime, by simp [htmode],
    by simp [htmode], fun _ _ => behind_sendVelocity_ne_position hs.toRecorded rpm, ?_⟩
  intro hne
  exact absurd (hresume.trans (hc.resume_manual (hc.quiet_of_homing hmode))) hne

theorem finishHoming_tracked (hs : Recorded c (l.behind now s) s) :
    Tracked c (l.behind now (finishHoming c now s)) (finishHoming c now s) := by
  have hlive : l.behind now (finishHoming c now s) = l.behind now (sendVelocity c now 0 s) := by
    unfold finishHoming
    dsimp only
    have hreset : (sendPositionReset c (sendVelocity c now 0 s)).tx =
        (sendVelocity c now 0 s).tx ++ sent c .posiReset := sendFrame_tx c .posiReset _
    split
    · refine (behind_silent (sendFrame_tx c (.tarPosiVel (scaledPositionVel c)) _) rfl).trans ?_
      exact behind_silent hreset rfl
    · exact behind_silent hreset rfl
  refine .of_stop hs ?_ hlive ?_ ?_
  · rw [finishHoming_eq]
  · rw [finishHoming_eq, sendVelocity_eq]
  · rw [finishHoming_eq]

section Motion

variable (hc : Consistent c s) (hs : Tracked c (l.behind now s) s)
include hc hs

theorem updateHoming_tracked (hmode : s.mode = .homing)
    (hspin : HomingGoesOn c now fresh di s → SpinsUp (l.behind now s) now s.homeDirSpeed s) :
    Tracked c (l.behind now (updateHoming c now pos fresh di s))
      (updateHoming c now pos fresh di s) := by
  have hstop : ∀ t : State, t = { sendVelocity c now 0 s with mode := .manual, resumeCycles := 0 } →
      Tracked c (l.behind now t) t := by
    rintro t rfl
    refine .of_stop hs.toRecorded rfl (behind_of_tx rfl) ?_ rfl
    rw [sendVelocity_eq]
  by_cases htime : c.homeTimeoutSec < now - s.homeStart
  · exact hstop _ (by rw [updateHoming, if_pos htime])
  by_cases hlow : c.useLimitSwitchForHome = true ∧ atLowerLimit c di fresh = true
  · rw [updateHoming, if_neg htime, if_pos hlow]
    exact finishHoming_tracked hs.toRecorded
  have hgoes := hspin ⟨hmode, htime, hlow⟩
  have hsend : (sendVelocity c now s.homeDirSpeed s).mode = .homing := by
    rw [sendVelocity_eq]
    exact hmode
  have hresume : (sendVelocity c now s.homeDirSpeed s).resumeMode = s.resumeMode := by
    rw [sendVelocity_eq]
  have hstep := updateHoming_step c now pos fresh di s
  generalize updateHoming c now pos fresh di s = u at hstep ⊢
  cases hstep with
  | timeout => exact hstop _ rfl
  | limit => exact finishHoming_tracked hs.toRecorded
  | unheard => exact .of_homing hc hs hmode hgoes hsend rfl rfl rfl hresume
  | moving => exact .of_homing hc hs hmode hgoes hsend rfl rfl rfl hresume
  | waiting => exact .of_homing hc hs hmode hgoes hsend rfl rfl rfl hresume
  | stalled => exact finishHoming_tracked (hs.toRecorded.sendVelocity hgoes)

theorem updateMotion_tracked (hreach : Reaches c pos fresh s → s.lastVelCmd = 0)
    (hspin : HomingGoesOn c now fresh di s → SpinsUp (l.behind now s) now s.homeDirSpeed s) :
    Tracked c (l.behind now (updateMotion c now pos fresh di s))
      (updateMotion c now pos fresh di s) := by
  cases hmode : s.mode with
  | manual => simpa only [updateMotion, hmode] using hs
  | homing =>
      have hkept : Tracked c (l.behind now (updateHoming c now pos fresh di s))
          (updateHoming c now pos fresh di s) := updateHoming_tracked hc hs hmode hspin
      simpa only [updateMotion, hmode] using hkept
  | position =>
      simp only [updateMotion, hmode]
      split
      · rename_i hdone
        exact .of_stopped (hs.toRecorded.congr rfl rfl) rfl (hreach ⟨hmode, hdone⟩)
      · exact hs

end Motion

theorem ReleaseStep.tracked (h : ReleaseStep c now pos fresh di s t)
    (hs : Tracked c (l.behind now s) s) : Tracked c (l.behind now t) t := by
  cases h with
  | idle => exact hs
  | watch => exact hs.congr rfl rfl rfl rfl (.inl rfl)
  | release hmode =>
      refine .of_stop hs.toRecorded ?_ rfl ?_ rfl
      · rw [sendVelocity_eq]
        exact hmode
      · rw [sendVelocity_eq]

/-- Only a manual command is released. -/
theorem Releases.manual (h : Releases c now s) : s.mode = .manual ∧ s.lastVelCmd ≠ 0 := by
  unfold Releases released at h
  generalize hu : releaseIfBlocked c now s.rx.position (isFresh c now s.rx) s.rx.diByte s = u at h
  have hstep := releaseIfBlocked_step c now s.rx.position (isFresh c now s.rx) s.rx.diByte s
  rw [hu] at hstep
  cases hstep with
  | idle => simp at h
  | watch => simp at h
  | release hmode hvel => exact ⟨hmode, hvel⟩

/-- The velocity that a manual message commands. -/
def Event.velocity (c : Config) (s : State) : Event → Option Int16
  | .command _ cmd =>
      if cmd = "up" then some (manualUpSpeed c s.homed)
      else if cmd = "down" then some (-(manualUpSpeed c s.homed))
      else if cmd = "stop" then some 0 else none
  | .velocityCmd _ rpm => some rpm
  | _ => none

/-- A velocity message makes the mode manual and sends its velocity. -/
theorem step_of_velocity {e : Event} (h : e.velocity c s = some rpm) :
    step c s e =
      sendVelocity c e.time rpm (cancelResume { s with mode := .manual, tx := [] }) := by
  cases e with
  | command now cmd =>
      simp only [Event.velocity] at h
      simp only [step, callback, commandCallback, Event.time]
      by_cases hup : cmd = "up"
      · rw [if_pos hup] at h
        simp [hup, ← Option.some.inj h, cancelResume]
      by_cases hdown : cmd = "down"
      · rw [if_neg hup, if_pos hdown] at h
        simp [hdown, ← Option.some.inj h, cancelResume]
      by_cases hstop : cmd = "stop"
      · rw [if_neg hup, if_neg hdown, if_pos hstop] at h
        simp [hstop, ← Option.some.inj h, cancelResume]
      · rw [if_neg hup, if_neg hdown, if_neg hstop] at h
        cases h
  | velocityCmd now v =>
      obtain rfl : v = rpm := Option.some.inj h
      rfl
  | positionCmd now target => cases h
  | incPositionCmd now inc => cases h
  | home now start => cases h
  | reset now on => cases h
  | poll rxNow now frames => cases h

/-- The spin-up time of a sent velocity tells whether it was sent anew. -/
theorem spinsUp_of_since (h : Recorded c (l.behind now s) s)
    (hsince : ∀ v, (l.behind now (sendVelocity c now rpm s)).motion = .velocity v → v ≠ 0 →
      (l.behind now (sendVelocity c now rpm s)).since ≤ (sendVelocity c now rpm s).velCmdTime) :
    SpinsUp (l.behind now s) now rpm s := by
  intro hposition hrpm hne
  have hopen : c.serialOpen = true := by
    by_contra hclosed
    rw [h.closed (by simpa using hclosed)] at hposition
    cases hposition
  have hmotion : ((l.behind now s).note now (.velCmd rpm)).motion = .velocity rpm :=
    note_motion rfl _
  rw [behind_sendVelocity, if_pos hopen, sendVelocity_eq] at hsince
  have hlong := hsince rpm hmotion hne
  simpa [Live.note, TxFrame.motion, hposition, hrpm] using hlong

/-- After a callback: in manual mode the tracked velocity, unless zero, is what
the drive executes. The spin-up time of a velocity runs from when it went out,
or later. A poll releases what the drive executes. -/
structure VelocityIsLive (c : Config) (sl : State × Live) (e : Event) (sl' : State × Live) :
    Prop where
  manual : sl'.1.mode = .manual → sl'.1.lastVelCmd ≠ 0 →
    sl'.2.motion = .velocity sl'.1.lastVelCmd
  spinUp : ∀ v, sl'.2.motion = .velocity v → v ≠ 0 → sl'.2.since ≤ sl'.1.velCmdTime
  release : ∀ rxNow now frames, e = .poll rxNow now frames →
    Releases c now (atRelease c rxNow now frames sl.1) →
      (sl.2.behind now (atRelease c rxNow now frames sl.1)).motion =
        .velocity (atRelease c rxNow now frames sl.1).lastVelCmd

/-- A velocity is commanded through an open port, a position move ends from a
tracked standstill, and a velocity that was replaced by a position command is
not sent again as if it had never stopped. -/
structure StartsAnew (c : Config) (sl : State × Live) (e : Event) : Prop where
  command : ∀ rpm, e.velocity c sl.1 = some rpm → rpm ≠ 0 →
    c.serialOpen = true ∧ SpinsUp sl.2 e.time rpm sl.1
  reached : ∀ rxNow now frames, e = .poll rxNow now frames →
    let r := polled c rxNow frames sl.1
    Reaches c r.rx.position (isFresh c now r.rx) (beforeMotion c now r) →
      (beforeMotion c now r).lastVelCmd = 0
  homing : ∀ rxNow now frames, e = .poll rxNow now frames →
    let r := polled c rxNow frames sl.1
    let t := beforeMotion c now r
    HomingGoesOn c now (isFresh c now r.rx) r.rx.diByte t →
      SpinsUp (sl.2.behind now t) now t.homeDirSpeed t

theorem sendManual_tracked (hs : Recorded c (l.behind now s) s) (hmode : s.mode = .manual)
    (hresume : s.resumeMode = .manual)
    (hok : rpm ≠ 0 → c.serialOpen = true ∧ SpinsUp (l.behind now s) now rpm s) :
    Tracked c (l.behind now (sendVelocity c now rpm s)) (sendVelocity c now rpm s) := by
  have hspin : SpinsUp (l.behind now s) now rpm s :=
    fun hposition hrpm hne => (hok hne).2 hposition hrpm hne
  refine ⟨hs.sendVelocity hspin, ?_, ?_, ?_, ?_⟩
  · have hvel : (sendVelocity c now rpm s).lastVelCmd = rpm := by rw [sendVelocity_eq]
    rw [hvel, behind_sendVelocity]
    intro _ hne
    rw [if_pos (hok hne).1]
    exact note_motion rfl _
  · rw [sendVelocity_eq]
    simp [hmode]
  · rw [sendVelocity_eq]
    simp [hmode]
  · rw [sendVelocity_eq]
    simp [hresume]

theorem polled_tracked (hs : Tracked c l s) (rxNow now : Time) (frames : List RxFrame) :
    Tracked c (l.behind now (polled c rxNow frames s)) (polled c rxNow frames s) := by
  have htx : (polled c rxNow frames s).tx =
      ({ s with tx := [] } : State).tx ++ sent c (.reqPidData pidMonitor) := by
    rw [polled, pollReceive_eq]
  have hlive : l.behind now (polled c rxNow frames s) = l := behind_silent htx rfl
  rw [hlive, polled, pollReceive_eq]
  exact hs.congr rfl rfl rfl rfl (.inl rfl)

theorem polled_consistent (hc : Consistent c s) (rxNow : Time) (frames : List RxFrame) :
    Consistent c (polled c rxNow frames s) := by
  have h₀ : Consistent c { s with tx := [] } := hc.congr rfl rfl rfl rfl rfl
  exact pollReceive_consistent h₀ rxNow frames

variable {sl : State × Live} {e : Event}

/-- A poll that starts anew keeps track up to its release stage. -/
theorem atRelease_tracked (hc : Consistent c sl.1) (hs : Tracked c sl.2 sl.1)
    (hok : StartsAnew c sl e) {frames : List RxFrame} (he : e = .poll rxNow now frames) :
    Tracked c (sl.2.behind now (atRelease c rxNow now frames sl.1))
      (atRelease c rxNow now frames sl.1) := by
  have hr := polled_tracked hs rxNow now frames
  have hrc := polled_consistent hc rxNow frames
  have halarm := (updateAlarm_step c now (polled c rxNow frames sl.1).rx.statusByte
    (isFresh c now (polled c rxNow frames sl.1).rx) (polled c rxNow frames sl.1).rx.position
    (polled c rxNow frames sl.1)).consistent hrc
  have htc : Consistent c (beforeMotion c now (polled c rxNow frames sl.1)) :=
    (autoHome_step c now (isFresh c now (polled c rxNow frames sl.1).rx) _).consistent halarm
  exact updateMotion_tracked htc (beforeMotion_tracked hrc hr)
    (hok.reached rxNow now frames he) (hok.homing rxNow now frames he)

theorem positionCmdCallback_tracked (hs : Tracked c (l.behind now s) s) (target : Int32) :
    Tracked c (l.behind now (positionCmdCallback c target s)) (positionCmdCallback c target s) := by
  unfold positionCmdCallback
  split
  · exact hs
  split
  · exact hs
  · refine .of_position hs.toRecorded (sendFrame_tx c (.posiCmd target) _) rfl rfl ?_
    exact fun hne => absurd rfl hne

theorem incPositionCmdCallback_tracked (hs : Tracked c (l.behind now s) s) (inc : Int32) :
    Tracked c (l.behind now (incPositionCmdCallback c inc s)) (incPositionCmdCallback c inc s) := by
  unfold incPositionCmdCallback
  split
  · exact hs
  · refine .of_position hs.toRecorded (sendFrame_tx c (.incPosiCmd inc) _) rfl rfl ?_
    exact fun hne => absurd rfl hne

theorem homeCallback_tracked (hs : Tracked c (l.behind now s) s) (start : Bool) :
    Tracked c (l.behind now (homeCallback c now start s)) (homeCallback c now start s) := by
  cases start with
  | true =>
      rw [homeCallback_true]
      split
      · exact hs
      · exact homingStarted_tracked hs now
  | false =>
      have hcancel : Tracked c (l.behind now s) (cancelResume { s with pendingHome := false }) :=
        hs.congr rfl rfl rfl rfl (.inr rfl)
      simp only [homeCallback, Bool.false_eq_true, not_false_eq_true, if_true]
      split
      · refine .of_stop (s := { cancelResume { s with pendingHome := false } with mode := .manual })
          (hcancel.toRecorded.congr rfl rfl) ?_ rfl ?_ rfl
        · rw [sendVelocity_eq]
        · rw [sendVelocity_eq]
      · exact hcancel

theorem resetCallback_tracked (hc : Consistent c s) (hs : Tracked c (l.behind now s) s)
    (on : Bool) :
    Tracked c (l.behind now (resetCallback c now on s)) (resetCallback c now on s) := by
  unfold resetCallback
  split
  · exact hs
  have hclear : Tracked c (l.behind now s)
      { s with alarmResetAttempts := 0, alarmResetExhausted := false, resumeCycles := 0 } :=
    hs.congr rfl rfl rfl rfl (.inl rfl)
  dsimp only
  split
  · have hlive : l.behind now (sendFrame c .alarmReset s) = l.behind now s :=
      behind_silent (sendFrame_tx c .alarmReset s) rfl
    have hsent : Tracked c (l.behind now (sendFrame c .alarmReset s)) s := hlive ▸ hs
    exact hsent.congr rfl rfl rfl rfl (.inl rfl)
  · rename_i hactive
    have hmode := hc.manual_of_alarm (by simpa using hactive)
    exact (requestAlarmReset_step c now true _).tracked hclear hmode

/-- A callback that starts anew keeps track. -/
theorem step_tracked (hc : Consistent c sl.1) (hs : Tracked c sl.2 sl.1)
    (hok : StartsAnew c sl e) :
    Tracked c (sl.2.behind e.time (step c sl.1 e)) (step c sl.1 e) := by
  obtain ⟨s, l⟩ := sl
  have h₀ : Tracked c (l.behind e.time { s with tx := [] }) { s with tx := [] } :=
    hs.congr rfl rfl rfl rfl (.inl rfl)
  cases hv : e.velocity c s with
  | some rpm =>
      rw [step_of_velocity hv]
      exact sendManual_tracked (h₀.toRecorded.congr rfl rfl) rfl rfl (hok.command rpm hv)
  | none =>
      cases e with
      | command now cmd =>
          have hother : cmd ≠ "up" ∧ cmd ≠ "down" ∧ cmd ≠ "stop" := by
            simp only [Event.velocity] at hv
            split_ifs at hv with hup hdown hstop
            exact ⟨hup, hdown, hstop⟩
          simp only [step, callback, commandCallback]
          rw [if_pos hother]
          exact h₀
      | velocityCmd now rpm => cases hv
      | positionCmd now target =>
          dsimp only [step, callback]
          split
          · exact positionCmdCallback_tracked h₀ target
          · exact h₀
      | incPositionCmd now inc =>
          dsimp only [step, callback]
          split
          · exact incPositionCmdCallback_tracked h₀ inc
          · exact h₀
      | home now start =>
          dsimp only [step, callback]
          split
          · exact homeCallback_tracked h₀ start
          · exact h₀
      | reset now on =>
          have hc₀ : Consistent c { s with tx := [] } := hc.congr rfl rfl rfl rfl rfl
          exact resetCallback_tracked hc₀ h₀ on
      | poll rxNow now frames =>
          exact (releaseIfBlocked_step c now _ _ _ _).tracked (atRelease_tracked hc hs hok rfl)

theorem command_of_live {sl' : State × Live} (hs : Tracked c sl.2 sl.1)
    (hstep : liveStep c sl e = some sl') (hlive : VelocityIsLive c sl e sl')
    (hv : e.velocity c sl.1 = some rpm) (hne : rpm ≠ 0) :
    c.serialOpen = true ∧ SpinsUp sl.2 e.time rpm sl.1 := by
  obtain ⟨s, l⟩ := sl
  rw [liveStep_eq] at hstep
  obtain rfl := Option.some.inj hstep
  have hrecorded : Recorded c (l.behind e.time (cancelResume { s with mode := .manual, tx := [] }))
      (cancelResume { s with mode := .manual, tx := [] }) := hs.toRecorded.congr rfl rfl
  have hmanual := hlive.manual
  have hspin := hlive.spinUp
  simp only [step_of_velocity hv] at hmanual hspin
  refine ⟨?_, spinsUp_of_since hrecorded hspin⟩
  by_contra hclosed
  have hmotion : l.motion = .velocity rpm := by
    rw [behind_sendVelocity, if_neg hclosed, sendVelocity_eq] at hmanual
    exact hmanual rfl hne
  rw [hs.closed (by simpa using hclosed)] at hmotion
  cases hmotion

theorem beforeMotion_rx (c : Config) (now : Time) (s : State) : (beforeMotion c now s).rx = s.rx :=
  (autoHome_step c now _ _).rx_eq.trans (updateAlarm_step c now _ _ _ s).rx_eq

theorem atRelease_eq (c : Config) (rxNow now : Time) (frames : List RxFrame) (s : State) :
    atRelease c rxNow now frames s =
      updateMotion c now (polled c rxNow frames s).rx.position
        (isFresh c now (polled c rxNow frames s).rx) (polled c rxNow frames s).rx.diByte
        (beforeMotion c now (polled c rxNow frames s)) := rfl

/-- A poll ends with its release stage. -/
theorem step_poll_eq (c : Config) (rxNow now : Time) (frames : List RxFrame) (s : State) :
    step c s (.poll rxNow now frames) = released c now (atRelease c rxNow now frames s) := by
  have hrx : (atRelease c rxNow now frames s).rx = (polled c rxNow frames s).rx :=
    (updateMotion_step c now _ _ _ _).rx_eq.trans (beforeMotion_rx c now _)
  rw [released, hrx]
  rfl

/-- Whether a poll releases a tracked velocity or keeps it, the drive executes
that velocity. -/
theorem atRelease_live {frames : List RxFrame}
    (hlive : VelocityIsLive c sl (.poll rxNow now frames)
      (step c sl.1 (.poll rxNow now frames),
        sl.2.behind now (step c sl.1 (.poll rxNow now frames))))
    (hopen : c.serialOpen = true) (hmode : (atRelease c rxNow now frames sl.1).mode = .manual)
    (hne : (atRelease c rxNow now frames sl.1).lastVelCmd ≠ 0) :
    (sl.2.behind now (atRelease c rxNow now frames sl.1)).motion =
      .velocity (atRelease c rxNow now frames sl.1).lastVelCmd := by
  by_cases hrelease : Releases c now (atRelease c rxNow now frames sl.1)
  · exact hlive.release rxNow now frames rfl hrelease
  have hmanual := hlive.manual
  simp only [step_poll_eq] at hmanual
  unfold Releases at hrelease
  generalize atRelease c rxNow now frames sl.1 = w at *
  have hstep : ReleaseStep c now w.rx.position (isFresh c now w.rx) w.rx.diByte w
      (released c now w) := releaseIfBlocked_step ..
  generalize released c now w = u at *
  cases hstep with
  | idle => exact hmanual hmode hne
  | watch => exact hmanual hmode hne
  | release =>
      rw [sendVelocity_tx, sent, if_pos hopen] at hrelease
      exact absurd rfl hrelease

/-- A poll that ends a position move comes to its release stage in manual mode. -/
theorem atRelease_of_reaches {frames : List RxFrame}
    (h : Reaches c (polled c rxNow frames s).rx.position
      (isFresh c now (polled c rxNow frames s).rx)
      (beforeMotion c now (polled c rxNow frames s))) :
    (atRelease c rxNow now frames s).mode = .manual ∧
      (atRelease c rxNow now frames s).lastVelCmd =
        (beforeMotion c now (polled c rxNow frames s)).lastVelCmd ∧
      (atRelease c rxNow now frames s).tx = (beforeMotion c now (polled c rxNow frames s)).tx := by
  obtain ⟨hmode, hdone⟩ := h
  rw [atRelease_eq]
  simp only [updateMotion, hmode]
  rw [if_pos hdone]
  exact ⟨rfl, rfl, rfl⟩

/-- A homing run that goes on without a reference sends its velocity. -/
theorem updateMotion_of_goesOn (pos : Int32) (h : HomingGoesOn c now fresh di s)
    (htrack : s.stallTracking = false) :
    (updateMotion c now pos fresh di s).mode = .homing ∧
      (updateMotion c now pos fresh di s).tx = (sendVelocity c now s.homeDirSpeed s).tx ∧
      (updateMotion c now pos fresh di s).velCmdTime =
        (sendVelocity c now s.homeDirSpeed s).velCmdTime := by
  obtain ⟨hmode, htime, hlow⟩ := h
  have hsend : (sendVelocity c now s.homeDirSpeed s).mode = .homing := by
    rw [sendVelocity_eq]
    exact hmode
  have htracking : (sendVelocity c now s.homeDirSpeed s).stallTracking = false := by
    rw [sendVelocity_eq]
    exact htrack
  simp only [updateMotion, hmode]
  rw [updateHoming, if_neg htime, if_neg hlow]
  dsimp only
  split
  · exact ⟨hsend, rfl, rfl⟩
  · rw [if_pos (.inl (by rw [htracking]; exact Bool.false_ne_true))]
    exact ⟨hsend, rfl, rfl⟩

/-- A position move that ends while another velocity is tracked would leave a
velocity that the drive does not execute, or release it. -/
theorem reached_of_live {frames : List RxFrame} (hc : Consistent c sl.1)
    (hs : Tracked c sl.2 sl.1)
    (hlive : VelocityIsLive c sl (.poll rxNow now frames)
      (step c sl.1 (.poll rxNow now frames),
        sl.2.behind now (step c sl.1 (.poll rxNow now frames))))
    (hreach : Reaches c (polled c rxNow frames sl.1).rx.position
      (isFresh c now (polled c rxNow frames sl.1).rx)
      (beforeMotion c now (polled c rxNow frames sl.1))) :
    (beforeMotion c now (polled c rxNow frames sl.1)).lastVelCmd = 0 := by
  have hrc := polled_consistent hc rxNow frames
  have htracked := beforeMotion_tracked hrc (polled_tracked hs rxNow now frames)
  obtain ⟨hmode, hfresh, htol⟩ := hreach
  have hopen := hrc.open_of_fresh hfresh
  have hposition := htracked.position hmode hopen
  obtain ⟨hwmode, hwvel, hwtx⟩ := atRelease_of_reaches ⟨hmode, hfresh, htol⟩
  by_contra hne
  have hvelocity := atRelease_live hlive hopen hwmode (by rw [hwvel]; exact hne)
  rw [behind_of_tx hwtx, hposition] at hvelocity
  cases hvelocity

/-- A homing run that goes on sends its velocity as a new one, unless the drive
executes it already. -/
theorem homing_of_live {frames : List RxFrame} (hc : Consistent c sl.1)
    (hs : Tracked c sl.2 sl.1)
    (hlive : VelocityIsLive c sl (.poll rxNow now frames)
      (step c sl.1 (.poll rxNow now frames),
        sl.2.behind now (step c sl.1 (.poll rxNow now frames))))
    (hgoes : HomingGoesOn c now (isFresh c now (polled c rxNow frames sl.1).rx)
      (polled c rxNow frames sl.1).rx.diByte
      (beforeMotion c now (polled c rxNow frames sl.1))) :
    SpinsUp (sl.2.behind now (beforeMotion c now (polled c rxNow frames sl.1))) now
      (beforeMotion c now (polled c rxNow frames sl.1)).homeDirSpeed
      (beforeMotion c now (polled c rxNow frames sl.1)) := by
  have hrc := polled_consistent hc rxNow frames
  have htracked := beforeMotion_tracked hrc (polled_tracked hs rxNow now frames)
  have hspin := hlive.spinUp
  simp only [step_poll_eq] at hspin
  intro hposition
  have htrack : (beforeMotion c now (polled c rxNow frames sl.1)).stallTracking = false := by
    by_contra htrack
    exact htracked.tracking hgoes.1 (by simpa using htrack) hposition
  have hmotion := updateMotion_of_goesOn (polled c rxNow frames sl.1).rx.position hgoes htrack
  rw [← atRelease_eq] at hmotion
  obtain ⟨hmode, htx, htime⟩ := hmotion
  have hw : released c now (atRelease c rxNow now frames sl.1) =
      atRelease c rxNow now frames sl.1 := by
    unfold released releaseIfBlocked
    simp [hmode]
  rw [hw, behind_of_tx htx, htime] at hspin
  exact spinsUp_of_since htracked.toRecorded hspin hposition

/-- In one step from a state that keeps track. -/
theorem velocityIsLive_iff {sl' : State × Live} (hc : Consistent c sl.1)
    (hs : Tracked c sl.2 sl.1) (hstep : liveStep c sl e = some sl') :
    VelocityIsLive c sl e sl' ↔ StartsAnew c sl e := by
  have heq := hstep
  rw [liveStep_eq] at heq
  obtain rfl := Option.some.inj heq
  constructor
  · intro hlive
    refine ⟨fun rpm hv hne => command_of_live hs hstep hlive hv hne, ?_, ?_⟩
    · rintro rxNow now frames rfl
      exact reached_of_live hc hs hlive
    · rintro rxNow now frames rfl
      exact homing_of_live hc hs hlive
  · intro hok
    have hkept := step_tracked hc hs hok
    refine ⟨hkept.manual, hkept.since, ?_⟩
    rintro rxNow now frames rfl hrelease
    obtain ⟨hmode, hne⟩ := hrelease.manual
    exact (atRelease_tracked hc hs hok rfl).manual hmode hne

/-- The driver and the record at the start. -/
def liveStart (c : Config) : State × Live := (start c, ({} : Live).behind 0 (start c))

theorem start_tracked (c : Config) : Tracked c (liveStart c).2 (liveStart c).1 := by
  have hlive : ({} : Live).behind 0 (start c) = {} := by
    unfold start
    dsimp only
    split
    · exact behind_silent (s := { pendingHome := c.enablePositionControl && c.autoHomeOnStart })
        (sendFrame_tx c (.tarPosiVel (posiBaseVelRpm c).toInt16.toUInt16) _) rfl
    · rfl
  have hstart : (start c).lastVelCmd = 0 ∧ (start c).mode = .manual := by
    unfold start
    dsimp only
    split <;> exact ⟨rfl, rfl⟩
  have hrecorded : Recorded c {} (start c) := by
    refine ⟨by simp, by simp, fun _ => rfl, fun _ hne => absurd hstart.1 hne⟩
  simp only [liveStart, hlive]
  exact .of_stopped hrecorded hstart.2 hstart.1

/-- Along every run the tracked velocity is live exactly if every step starts
anew. -/
theorem velocity_is_live_iff (c : Config) (es : List Event) :
    Along (liveStep c) (VelocityIsLive c) (liveStart c) es ↔
      Along (liveStep c) (fun sl e _ => StartsAnew c sl e) (liveStart c) es := by
  let Inv : State × Live → Prop := fun sl => Consistent c sl.1 ∧ Tracked c sl.2 sl.1
  have keep : ∀ sl e sl', Inv sl → VelocityIsLive c sl e sl' → liveStep c sl e = some sl' →
      Inv sl' := by
    rintro sl e sl' ⟨hc, hs⟩ hlive hstep
    have hok := (velocityIsLive_iff hc hs hstep).mp hlive
    rw [liveStep_eq] at hstep
    obtain rfl := Option.some.inj hstep
    exact ⟨step_consistent hc e, step_tracked hc hs hok⟩
  have same : ∀ sl e sl', Inv sl → liveStep c sl e = some sl' →
      (VelocityIsLive c sl e sl' ↔ StartsAnew c sl e) :=
    fun sl e sl' hinv hstep => velocityIsLive_iff hinv.1 hinv.2 hstep
  exact along_iff_of_kept keep same ⟨start_consistent c, start_tracked c⟩

/-- A relative move during an ascent, and its end: the drive stands at the
target, and the tracked velocity is still the ascent's. -/
theorem finished_move_tracked :
    ¬ Along (liveStep defaultConfig) (VelocityIsLive defaultConfig) (liveStart defaultConfig)
      [.command 1 "up", .incPositionCmd 2 100, .poll 3 3 [monitorReply 100 4]] := by
  intro h
  obtain ⟨-, h⟩ := h _ rfl
  obtain ⟨-, h⟩ := h _ rfl
  obtain ⟨hlive, -⟩ := h _ rfl
  have hmotion := hlive.manual (by decide +kernel) (by decide +kernel)
  exact absurd hmotion (by decide +kernel)

end PolishingRobot.Lift
