import PolishingRobot.Motor.DriveComplaints
import PolishingRobot.Motor.OwnFrames

/-!
# Drives that come on late

`motors_enabled_` is the result of the last attempt, while the drives go on by
themselves. As long as some drive complains after a failed attempt, the ticks
start another one. When a frame ends the last complaint, or the attempt gives
up without one, the node discards every command and never tries again.
-/

namespace PolishingRobot.Motor

open Runs

variable {c : Config} {σ : Shared} {s s' t : State} {task : Nat} {turn : Turn} {l : Label}
  {b : Body} {d : Drives} {now : Time} {m n : NodeId} {f : CanFrame} {k : Complaint}

/-- The complaint of its drive that a frame ends: a TPDO1 in operation, a TPDO3
without an error code, or a TPDO2. -/
def CanFrame.answers (c : Config) (f : CanFrame) : Option Complaint :=
  if f.functionCode = 0x180 ∧ 3 ≤ f.dlc ∧ getCia402State (f.word16 0) = .operationEnabled then
    some .off
  else if f.functionCode = 0x380 ∧ 6 ≤ f.dlc ∧ f.word16 4 = 0 then some .error
  else if f.functionCode = 0x280 ∧ 8 ≤ f.dlc ∧ 0 ≤ c.feedbackTimeoutSec ∧
      0 ≤ c.reinitFeedbackLossSec then some .late
  else none

/-- The access gives the flag back while the servos are wanted on, or is a
message of the interlock that asks for them without a transition in progress. -/
def Body.settles (c : Config) (σ : Shared) : Body → Bool
  | .transition (.release _) | .recovery .release => computeWantEnabled c σ
  | .interlock (.storeTraction on) =>
      !σ.transitionInProgress && computeWantEnabled c (σ.apply (.storeTraction on))
  | .interlock (.storeBrake engaged) =>
      !σ.transitionInProgress && computeWantEnabled c (σ.apply (.storeBrake engaged))
  | _ => false

def Label.frame : Label → Option CanFrame
  | .can f => some f
  | _ => none

/-- Between two attempts a frame that ends a complaint leaves another one. -/
def FrameInTime (c : Config) (σ : Shared) (f : CanFrame) : Prop :=
  computeWantEnabled c σ = true → σ.transitionInProgress = false → f.node ∈ c.driveMotorIds →
    ∀ k ∈ f.answers c, σ.drives.complains c σ.now f.node k →
      ∃ m ∈ c.driveMotorIds, ∃ k', σ.drives.complains c σ.now m k' ∧ (m, k') ≠ (f.node, k)

/-- After the first goal and with `motors_enabled_` false, no frame ends the
last complaint between two attempts, and an attempt that gives up, or a message
that asks for the servos, finds a complaint. -/
def ServosInTime (c : Config) (s : State) (l : Label) : Prop :=
  s.shared.brakeFbInitialized = true → s.shared.motorsEnabled = false →
    (∀ f ∈ l.frame, FrameInTime c s.shared f) ∧
      ∀ b ∈ s.mover l, b.settles c s.shared = true →
        ∃ m ∈ c.driveMotorIds, ∃ k, s.shared.drives.complains c s.shared.now m k

instance (σ : Shared) (f : CanFrame) : Decidable (FrameInTime c σ f) :=
  inferInstanceAs (Decidable (_ → _ → _ → ∀ k ∈ f.answers c, _ →
    ∃ m ∈ c.driveMotorIds, ∃ _, _ ∧ _))

instance (s : State) (l : Label) : Decidable (ServosInTime c s l) :=
  inferInstanceAs (Decidable (_ → _ → (∀ f ∈ l.frame, FrameInTime c s.shared f) ∧
    ∀ b ∈ s.mover l, _ → ∃ m ∈ c.driveMotorIds, ∃ _, _))

theorem CanFrame.answers_off_iff : f.answers c = some .off ↔
    f.functionCode = 0x180 ∧ 3 ≤ f.dlc ∧ getCia402State (f.word16 0) = .operationEnabled := by
  unfold CanFrame.answers
  split_ifs <;> simp [*]

theorem CanFrame.answers_error_iff : f.answers c = some .error ↔
    f.functionCode = 0x380 ∧ 6 ≤ f.dlc ∧ f.word16 4 = 0 := by
  unfold CanFrame.answers
  split_ifs with hoff herror hlate
  · simp [hoff.1]
  · simp [herror]
  · simp [herror]
  · simp [herror]

theorem CanFrame.answers_late_iff : f.answers c = some .late ↔
    f.functionCode = 0x280 ∧ 8 ≤ f.dlc ∧ 0 ≤ c.feedbackTimeoutSec ∧
      0 ≤ c.reinitFeedbackLossSec := by
  unfold CanFrame.answers
  split_ifs with hoff herror hlate
  · simp [hoff.1]
  · simp [herror.1]
  · simp [hlate]
  · simp [hlate]

/-- The complaint that a message is about. -/
def Service.complaint : Service → Complaint
  | .tpdo1 => .off
  | .tpdo2 => .late
  | .tpdo3 => .error
  | .bootUp => .reinit

/-- A message leaves the other complaints as they are. -/
theorem Service.complains_receive {service : Service} (hk : k ≠ service.complaint) :
    (service.receive now f d).complains c now n k ↔ d.complains c now n k := by
  by_cases hn : n = f.node
  · subst hn
    cases service with
    | bootUp =>
        rw [Service.receive, Drives.requestReinit]
        split
        · rfl
        · cases k with
          | reinit => exact absurd rfl hk
          | error => simp [Drives.complains]
          | late => simp [Drives.complains, Drives.feedbackAge]
          | off => simp [Drives.complains, Drives.stateOf]
    | tpdo1 =>
        cases k with
        | off => exact absurd rfl hk
        | reinit => simp [Drives.complains, Service.receive]
        | error => simp [Drives.complains, Service.receive]
        | late => simp [Drives.complains, Drives.feedbackAge, Service.receive]
    | tpdo2 =>
        cases k with
        | late => exact absurd rfl hk
        | reinit => simp [Drives.complains, Service.receive]
        | error => simp [Drives.complains, Service.receive]
        | off => simp [Drives.complains, Drives.stateOf, Service.receive]
    | tpdo3 =>
        cases k with
        | error => exact absurd rfl hk
        | reinit => simp [Drives.complains, Service.receive]
        | late => simp [Drives.complains, Drives.feedbackAge, Service.receive]
        | off => simp [Drives.complains, Drives.stateOf, Service.receive]
  · apply Drives.complains_congr
    rw [Drives.shown, service.receive_other hn, Drives.shown]

/-- A message that leaves no complaint of its kind is an answer. -/
theorem Service.answers_of_quiet {service : Service} (hcode : f.functionCode.toNat = service.idBase)
    (hcomplete : service.Complete f) (hk : d.complains c now f.node service.complaint)
    (hgone : ¬ (service.receive now f d).complains c now f.node service.complaint) :
    f.answers c = some service.complaint := by
  have hcode' : f.functionCode = UInt16.ofNat service.idBase := by
    rw [← hcode, UInt16.ofNat_toNat]
  cases service with
  | bootUp =>
      refine absurd hk fun hpending => hgone ?_
      rw [Service.receive, Drives.requestReinit]
      split
      · exact hpending
      · simp [Service.complaint, Drives.complains]
  | tpdo1 =>
      refine CanFrame.answers_off_iff.mpr ⟨hcode', hcomplete, ?_⟩
      simpa [Service.complaint, Drives.complains, Drives.stateOf,
        Service.receive] using hgone
  | tpdo2 =>
      refine CanFrame.answers_late_iff.mpr ⟨hcode', hcomplete, ?_⟩
      simpa [Service.complaint, Drives.complains, Drives.feedbackAge, Service.receive] using hgone
  | tpdo3 =>
      refine CanFrame.answers_error_iff.mpr ⟨hcode', hcomplete, ?_⟩
      simpa [Service.complaint, Drives.complains, Service.receive] using hgone

/-- A complaint that is gone behind a frame is the one that it answers. -/
theorem answers_of_gone (hk : d.complains c now n k)
    (hgone : ¬ (canCallback c.driveMotorIds now f d).complains c now n k) :
    f.node ∈ c.driveMotorIds ∧ f.node = n ∧ f.answers c = some k := by
  rcases canCallback_cases c.driveMotorIds now f d with
    hsame | ⟨hnode, service, hcode, hcomplete, hreceive⟩
  · rw [hsame] at hgone
    exact absurd hk hgone
  · rw [hreceive] at hgone
    have hn : f.node = n := by
      by_contra hother
      refine hgone ((Drives.complains_congr ?_).mpr hk)
      rw [Drives.shown, service.receive_other (Ne.symm hother), Drives.shown]
    subst hn
    have hkind : k = service.complaint := by
      by_contra hother
      exact hgone ((Service.complains_receive hother).mpr hk)
    subst hkind
    exact ⟨hnode, rfl, Service.answers_of_quiet hcode hcomplete hk hgone⟩

/-- An answered complaint is gone behind the frame, and no other has come. -/
theorem complains_of_answered (hnode : f.node ∈ c.driveMotorIds) (hk : f.answers c = some k)
    {k' : Complaint}
    (h : (canCallback c.driveMotorIds now f d).complains c now n k') :
    d.complains c now n k' ∧ (n, k') ≠ (f.node, k) := by
  have receive : ∀ service : Service, f.functionCode.toNat = service.idBase →
      service.Complete f → service.complaint = k →
      ¬ (service.receive now f d).complains c now f.node k →
      d.complains c now n k' ∧ (n, k') ≠ (f.node, k) := by
    rintro service hcode hcomplete rfl hquiet
    rw [canCallback_receives hnode service hcode hcomplete] at h
    have hother : (n, k') ≠ (f.node, service.complaint) := by
      rintro heq
      obtain ⟨rfl, rfl⟩ := Prod.mk.inj heq
      exact hquiet h
    refine ⟨?_, hother⟩
    by_cases hkind : k' = service.complaint
    · refine (Drives.complains_congr ?_).mp h
      have hn : n ≠ f.node := by
        rintro rfl
        exact hother (by rw [hkind])
      rw [Drives.shown, service.receive_other hn, Drives.shown]
    · exact (Service.complains_receive hkind).mp h
  cases k with
  | reinit =>
      unfold CanFrame.answers at hk
      split_ifs at hk <;> cases hk
  | off =>
      obtain ⟨hcode, hdlc, hstate⟩ := CanFrame.answers_off_iff.mp hk
      refine receive .tpdo1 (by rw [hcode]; rfl) hdlc rfl ?_
      simpa [Drives.complains, Drives.stateOf, Service.receive]
        using hstate
  | error =>
      obtain ⟨hcode, hdlc, herror⟩ := CanFrame.answers_error_iff.mp hk
      refine receive .tpdo3 (by rw [hcode]; rfl) hdlc rfl ?_
      simpa [Drives.complains, Service.receive] using herror
  | late =>
      obtain ⟨hcode, hdlc, htimeouts⟩ := CanFrame.answers_late_iff.mp hk
      refine receive .tpdo2 (by rw [hcode]; rfl) hdlc rfl ?_
      simpa [Drives.complains, Drives.feedbackAge, Service.receive] using htimeouts

/-- A thread whose role holds the flag finds it set. -/
theorem flag_of_role {r : Role} (hreach : Reachable (step c) (start c now) s) {u : Thread}
    (hu : u ∈ s.threads) (hr : u.body.role = r) (hflag : 0 < r.flags) :
    s.shared.transitionInProgress = true := by
  have hheld := (one_holder hreach).1
  have hle : r.flags ≤ tokens Role.flags (s.threads.map fun t => t.body.role) :=
    le_tokens (hr ▸ List.mem_map_of_mem hu)
  cases hcase : s.shared.transitionInProgress with
  | true => rfl
  | false =>
      rw [hcase] at hheld
      have hnone : tokens Role.flags (s.threads.map fun t => t.body.role) = 0 := hheld
      omega

theorem isDrive_keeps_flag {a : Action} (h : a.isDrive) (σ : Shared) :
    (σ.apply a).transitionInProgress = σ.transitionInProgress := by
  cases a <;> first | rfl | cases h

/-- Frames leave the memory alone. -/
theorem disableMotor_apply (nodes : List NodeId) (pc : DisableMotor) :
    σ.apply (disableMotor nodes pc).act = σ := by
  unfold disableMotor
  split <;> rfl

theorem syncLoop_apply (pc : SyncLoop) : σ.apply (syncLoop c σ pc).act = σ := by
  unfold syncLoop
  split <;> rfl

/-- A thread that runs a procedure of the controller outside of a transition
either configures drives while the node starts, or leaves the memory alone. -/
theorem drives_outside (hreach : Reachable (step c) (start c now) s) {u : Thread}
    (hu : u ∈ s.threads) (hturn : u.body.turn c s task = some turn)
    (hdrives : u.body.drives = true) (hact : turn.act.isDrive)
    (hflag : (s.shared.apply turn.act).transitionInProgress = false)
    (hinit : (s.shared.apply turn.act).brakeFbInitialized = true) :
    s.shared.apply turn.act = s.shared := by
  rw [isDrive_keeps_flag hact] at hflag
  rw [(isDrive_keeps hact s.shared).1] at hinit
  generalize hb : u.body = b at hturn hdrives
  cases b with
  | main pc =>
      cases pc with
      | configuring node rest pc =>
          cases reachable_phase hreach with
          | starting hstart => rw [hstart] at hinit; cases hinit
          | started _ hlate => cases hlate u hu _ hb
      | destroyNode pc =>
          cases hturn
          rw [Move.turn_act]
          exact disableMotor_apply _ pc
      | destroyController pc =>
          cases hturn
          rw [Move.turn_act]
          exact disableMotor_apply _ pc
      | _ => cases hdrives
  | sync pc => cases hturn; exact syncLoop_apply pc
  | transition pc =>
      cases pc with
      | enabling tasks =>
          rw [flag_of_role (r := .applying true) hreach hu (by rw [hb]; rfl) Nat.one_pos] at hflag
          cases hflag
      | disabling pc =>
          rw [flag_of_role (r := .applying false) hreach hu (by rw [hb]; rfl) Nat.one_pos] at hflag
          cases hflag
      | _ => cases hdrives
  | recovery pc =>
      cases pc with
      | resetting pc =>
          rw [flag_of_role (r := .recovering) hreach hu (by rw [hb]; rfl) Nat.one_pos] at hflag
          cases hflag
      | _ => cases hdrives
  | _ => cases hdrives

/-- A dead node after an access was dead before it, or the access is one of
those that can bring the servos on late. -/
theorem dead_before (hreach : Reachable (step c) (start c now) s) {u : Thread}
    (hu : u ∈ s.threads) (hturn : u.body.turn c s task = some turn)
    (hdead : Dead c (s.shared.apply turn.act))
    (hinit : (s.shared.apply turn.act).brakeFbInitialized = true) :
    (Dead c s.shared ∧ s.shared.brakeFbInitialized = true) ∨
      (u.body.settles c s.shared = true ∧
        (∀ n ∈ c.driveMotorIds, s.shared.drives.On c s.shared.now n) ∧
        s.shared.motorsEnabled = false ∧ s.shared.brakeFbInitialized = true) := by
  have hacts := Body.turn_acts hturn
  have hkept : u.body.drives = true → turn.act.isDrive → s.shared.apply turn.act = s.shared :=
    fun hd ha => drives_outside hreach hu hturn hd ha hdead.2.1 hinit
  have hheld : ∀ r, u.body.role = r → 0 < r.flags → s.shared.transitionInProgress = true :=
    fun r hr hpos => flag_of_role hreach hu hr hpos
  have hlate : ∀ pc, u.body = .main pc → pc.early = true →
      s.shared.brakeFbInitialized = false := by
    intro pc hb hearly
    cases reachable_phase hreach with
    | starting hstart => exact hstart
    | started _ hthreads =>
        rw [hthreads u hu pc hb] at hearly
        cases hearly
  clear hturn
  generalize u.body = b at hacts hkept hheld hlate
  generalize turn.act = a at hacts hdead hinit hkept
  obtain ⟨⟨hwant, hon⟩, hflag, hoff⟩ := hdead
  have hdead : Dead c (s.shared.apply a) := ⟨⟨hwant, hon⟩, hflag, hoff⟩
  -- A holder of the flag cannot leave it down.
  have hset : ∀ r, b.role = r → 0 < r.flags →
      (s.shared.apply a).transitionInProgress = s.shared.transitionInProgress → False := by
    intro r hr hpos hsame
    rw [hsame, hheld r hr hpos] at hflag
    cases hflag
  have hstored : ∀ m rpm n, Drives.On c (s.shared.drives.storeTarget m rpm) s.shared.now n →
      s.shared.drives.On c s.shared.now n :=
    fun m rpm n h => (Drives.on_congr Drives.shown_storeTarget).mp h
  cases hacts with
  | skip b => exact .inl ⟨hdead, hinit⟩
  | drive hb ha =>
      have hsame := hkept hb ha
      rw [hsame] at hdead hinit
      exact .inl ⟨hdead, hinit⟩
  | evaluation b hpc he =>
      cases he with
      | skip pc => exact .inl ⟨hdead, hinit⟩
      | lock => exact .inl ⟨hdead, hinit⟩
      | settled want => exact .inl ⟨hdead, hinit⟩
      | dropped want => exact .inl ⟨hdead, hinit⟩
      | taken want => cases hflag
      | commit want =>
          have hrole : b.role = .evaluating (.commit want) := by
            unfold Body.update at hpc
            split at hpc <;> cases hpc <;> rfl
          exact (hset _ hrole Nat.one_pos rfl).elim
  | startSync nodes =>
      have hfirst : s.shared.brakeFbInitialized = false := hlate _ rfl rfl
      have hinit' : s.shared.brakeFbInitialized = true := hinit
      rw [hfirst] at hinit'
      cases hinit'
  | command node rpm rest =>
      exact .inl ⟨⟨⟨hwant, fun n hn => hstored node _ n (hon n hn)⟩, hflag, hoff⟩, hinit⟩
  | watchdog node rest =>
      exact .inl ⟨⟨⟨hwant, fun n hn => hstored node _ n (hon n hn)⟩, hflag, hoff⟩, hinit⟩
  | zeroing node rest =>
      exact .inl ⟨⟨⟨hwant, fun n hn => hstored node _ n (hon n hn)⟩, hflag, hoff⟩, hinit⟩
  | rememberAlarm pc node =>
      refine .inl ⟨⟨⟨hwant, fun n hn => ?_⟩, hflag, hoff⟩, hinit⟩
      exact (Drives.on_congr Drives.shown_rememberAlarm).mp (hon n hn)
  | feedbackLost node rest found =>
      exact .inl ⟨⟨⟨hwant, fun n hn => Drives.on_of_requestReinit (hon n hn)⟩, hflag, hoff⟩, hinit⟩
  | takeRecovery => cases hflag
  | storeTraction on =>
      have hfree : s.shared.transitionInProgress = false := hflag
      exact .inr ⟨by simp [Body.settles, hfree, hwant], hon, hoff, hinit⟩
  | storeBrake engaged =>
      have hfree : s.shared.transitionInProgress = false := hflag
      exact .inr ⟨by simp [Body.settles, hfree, hwant], hon, hoff, hinit⟩
  | release want => exact .inr ⟨hwant, hon, hoff, hinit⟩
  | releaseRecovery => exact .inr ⟨hwant, hon, hoff, hinit⟩
  | enabled ok => exact (hset (.applying true) rfl Nat.one_pos rfl).elim
  | disabled => exact (hset (.applying false) rfl Nat.one_pos rfl).elim
  | recovered ok => exact (hset .recovering rfl Nat.one_pos rfl).elim
  | subscribe => exact .inl ⟨hdead, hinit⟩
  | spin => exact .inl ⟨hdead, hinit⟩
  | stopSpinning => exact .inl ⟨hdead, hinit⟩
  | stopSync => exact .inl ⟨hdead, hinit⟩
  | stampCmd data => exact .inl ⟨hdead, hinit⟩
  | publish pc p => exact .inl ⟨hdead, hinit⟩
  | storeError found on => exact .inl ⟨hdead, hinit⟩
  | startRecovery => exact .inl ⟨hdead, hinit⟩
  | clearError => exact .inl ⟨hdead, hinit⟩

/-- One step keeps a node that has had its first goal from being dead. -/
theorem step_not_dead (hreach : Reachable (step c) (start c now) s)
    (hs : s.shared.brakeFbInitialized = true → ¬ Dead c s.shared) (hok : ServosInTime c s l)
    (h : step c s l = some s') : s'.shared.brakeFbInitialized = true → ¬ Dead c s'.shared := by
  intro hinit hdead
  cases step_cases h with
  | delayed d hd =>
      obtain ⟨⟨hwant, hon⟩, hflag, hoff⟩ := hdead
      exact hs hinit ⟨⟨hwant, fun n hn => Drives.on_of_later hd (hon n hn)⟩, hflag, hoff⟩
  | received f hopen =>
      obtain ⟨⟨hwant, hon⟩, hflag, hoff⟩ := hdead
      -- Whatever was complained of before is gone, so the frame has answered it.
      have hanswered : ∀ m ∈ c.driveMotorIds, ∀ k,
          s.shared.drives.complains c s.shared.now m k →
          f.node ∈ c.driveMotorIds ∧ f.node = m ∧ f.answers c = some k :=
        fun m hm k hk => answers_of_gone hk (Drives.on_iff.mp (hon m hm) k)
      refine hs hinit ⟨⟨hwant, fun n hn => Drives.on_iff.mpr fun k hk => ?_⟩, hflag, hoff⟩
      obtain ⟨hnode, rfl, hanswers⟩ := hanswered n hn k hk
      obtain ⟨m, hm, k', hk', hother⟩ := (hok hinit hoff).1 f rfl hwant hflag hnode k hanswers hk
      obtain ⟨-, rfl, hanswers'⟩ := hanswered m hm k' hk'
      rw [hanswers] at hanswers'
      exact hother (by rw [Option.some.inj hanswers'])
  | called hspin hb => exact hs hinit hdead
  | @moved task pre post t turn hthreads hwake hturn hact =>
      have ht : t ∈ s.threads := mover_mem hthreads
      rcases dead_before hreach ht hturn hdead hinit with
        ⟨hdead', hinit'⟩ | ⟨hsettles, hon, hoff, hinit'⟩
      · exact hs hinit' hdead'
      · obtain ⟨m, hm, k, hk⟩ := (hok hinit' hoff).2 t.body (mover_eq hthreads) hsettles
        exact Drives.on_iff.mp (hon m hm) k hk

/-- A step that fails the condition leaves the node dead. -/
theorem dead_of_late (hnot : ¬ ServosInTime c s l) (h : step c s l = some s') :
    Dead c s'.shared := by
  simp only [ServosInTime, FrameInTime, not_forall] at hnot
  obtain ⟨-, hoff, hlate⟩ := hnot
  rcases not_and_or.mp hlate with hframe | hmover
  · push Not at hframe
    obtain ⟨f, hf, hwant, hflag, hnode, k, hanswers, -, halone⟩ := hframe
    cases step_cases h with
    | received f' hopen =>
        obtain rfl := Option.some.inj hf
        refine ⟨⟨hwant, fun n hn => Drives.on_iff.mpr fun k' hk' => ?_⟩, hflag, hoff⟩
        obtain ⟨hbefore, hother⟩ := complains_of_answered hnode hanswers hk'
        exact hother (halone n hn k' hbefore)
    | delayed d hd => cases hf
    | called hspin hb => cases hb <;> cases hf
    | moved hthreads hwake hturn hact => cases hf
  · push Not at hmover
    obtain ⟨b, hb, hsettles, hquiet⟩ := hmover
    cases step_cases h with
    | received f hopen => cases hb
    | delayed d hd => cases hb
    | called hspin hstarts =>
        rw [hstarts.mover_eq_none] at hb
        cases hb
    | @moved task pre post t turn hthreads hwake hturn hact =>
        obtain rfl : t.body = b := Option.some.inj ((mover_eq hthreads).symm.trans hb)
        have hon : ∀ n ∈ c.driveMotorIds, s.shared.drives.On c s.shared.now n :=
          fun n hn => Drives.on_iff.mpr (hquiet n hn)
        generalize t.body = b at hturn hsettles
        unfold Body.settles at hsettles
        split at hsettles
        · cases hturn
          exact ⟨⟨hsettles, hon⟩, rfl, hoff⟩
        · cases hturn
          exact ⟨⟨hsettles, hon⟩, rfl, hoff⟩
        · cases hturn
          obtain ⟨hfree, hwant⟩ := Bool.and_eq_true_iff.mp hsettles
          have hflag : s.shared.transitionInProgress = false := by simpa using hfree
          exact ⟨⟨hwant, hon⟩, hflag, hoff⟩
        · cases hturn
          obtain ⟨hfree, hwant⟩ := Bool.and_eq_true_iff.mp hsettles
          have hflag : s.shared.transitionInProgress = false := by simpa using hfree
          exact ⟨⟨hwant, hon⟩, hflag, hoff⟩
        · cases hsettles

/-- In every run in which the last complaint does not end behind the last
attempt, all servos on means that commands are applied, and while the feedback
is current the next tick acts on whatever else a drive shows. -/
theorem servos_served (c : Config) (now : Time) (ls : List Label) (t : State)
    (hok : Along (step c) (fun s l _ => ServosInTime c s l) (start c now) ls)
    (hrun : run (step c) (start c now) ls = some t) : ServosServed c t ∧ CurrentServed c t := by
  have hstart : Reachable (step c) (start c now) (start c now) ∧
      ((start c now).shared.brakeFbInitialized = true → ¬ Dead c (start c now).shared) :=
    ⟨⟨[], rfl⟩, nofun⟩
  have keep : ∀ s l s', (Reachable (step c) (start c now) s ∧
      (s.shared.brakeFbInitialized = true → ¬ Dead c s.shared)) → ServosInTime c s l →
      step c s l = some s' → Reachable (step c) (start c now) s' ∧
        (s'.shared.brakeFbInitialized = true → ¬ Dead c s'.shared) :=
    fun s l s' hs hok hl => ⟨hs.1.step hl, step_not_dead hs.1 hs.2 hok hl⟩
  obtain ⟨hreach, hlive⟩ := invariant_of_run keep hstart hok hrun
  have hnot : t.shared.spinning = true → ¬ Dead c t.shared := by
    intro hspin
    cases reachable_phase hreach with
    | starting _ hquiet => rw [hquiet] at hspin; cases hspin
    | started hinit => exact hlive hinit
  exact ⟨servosServed_iff.mpr hnot, fun hspin => currentServed_of_not_dead (hnot hspin) hspin⟩

/-- Drive 1 does not answer, and `enable_motor` gives up waiting for
`READY_TO_SWITCH_ON`. -/
def giveUp : List Label :=
  construct ++ moves 1 2 ++ [Label.delay (1 / 20)] ++ moves 1 1 ++ [Label.delay (1 / 10)] ++
  moves 1 1 ++ [Label.delay (1 / 10)] ++ moves 1 4 ++ [Label.delay 2] ++ moves 1 6

/-- The motors are off behind the attempt and the drive still complains: the
next tick tries again. -/
theorem servos_served_giveUp :
    ∃ t, run (step oneDrive) (start oneDrive 100) (giveUp ++ [feedbackFrame]) = some t ∧
      t.shared.motorsEnabled = false ∧ ServosServed oneDrive t ∧ TickServes oneDrive t := by
  have hend : ((run (step oneDrive) (start oneDrive 100) (giveUp ++ [feedbackFrame])).map
      fun t => decide (t.shared.spinning = true ∧ anyOf t.threads .control = false ∧
        computeWantEnabled oneDrive t.shared = true ∧ t.shared.transitionInProgress = false ∧
        (∀ n ∈ oneDrive.driveMotorIds,
          ¬ t.shared.drives.complains oneDrive t.shared.now n .late) ∧
        t.shared.motorsEnabled = false)) = some true := by decide +kernel
  obtain ⟨t, hrun, ht⟩ := Option.map_eq_some_iff.mp hend
  obtain ⟨hspin, hidle, hwant, hfree, hcurrent, hoff⟩ := of_decide_eq_true ht
  obtain ⟨hserved, hcurrentServed⟩ :=
    servos_served oneDrive 100 (giveUp ++ [feedbackFrame]) t (by decide +kernel) hrun
  refine ⟨t, hrun, hoff, hserved, ?_⟩
  refine (hcurrentServed hspin hidle hwant hfree hcurrent).resolve_left ?_
  rw [hoff]
  exact Bool.false_ne_true

/-- Then the drive comes on by itself: the node discards every command, and no
tick ever does anything about it. -/
theorem dead_after_late_servo_on :
    ∃ t, run (step oneDrive) (start oneDrive 100) (giveUp ++ [statusFrame 0x27, feedbackFrame]) =
        some t ∧ t.shared.spinning = true ∧ Dead oneDrive t.shared ∧ ¬ ServosServed oneDrive t := by
  have hend : ((run (step oneDrive) (start oneDrive 100)
      (giveUp ++ [statusFrame 0x27, feedbackFrame])).map fun t =>
        decide (t.shared.spinning = true ∧ Dead oneDrive t.shared)) = some true := by
    decide +kernel
  obtain ⟨t, hrun, ht⟩ := Option.map_eq_some_iff.mp hend
  obtain ⟨hspin, hdead⟩ := of_decide_eq_true ht
  exact ⟨t, hrun, hspin, hdead, fun hserved => servosServed_iff.mp hserved hspin hdead⟩

end PolishingRobot.Motor
