import PolishingRobot.Motor.WireSpeeds

/-!
# Zero until servo-off

`disable_motor` sends a drive the speed zero once, and `SHUTDOWN` only after a
sleep. Meanwhile the resend loop goes on sending what is stored: the drive stays
at zero if its target was zeroed before and no speed is stored in between. The
disable transition zeroes the targets first, the destructor does not.
-/

namespace PolishingRobot.Motor

open Runs

variable {c : Config} {σ : Shared} {s s' : State} {task : Nat} {turn : Turn} {l : Label}
  {b : Body} {now : Time} {m n : NodeId} {rpm : Rpm} {nodes : List NodeId}

/-- The drives that a loop over `nodes` has handled when `rest` is left. -/
def handled (nodes rest : List NodeId) : List NodeId := nodes.take (nodes.length - rest.length)

theorem handled_append (done rest : List NodeId) : handled (done ++ rest) rest = done := by
  simp [handled]

theorem handled_next {rest : List NodeId} (h : m :: rest <:+ nodes) :
    rest <:+ nodes ∧ handled nodes rest = handled nodes (m :: rest) ++ [m] := by
  obtain ⟨done, rfl⟩ := h
  have hsplit : done ++ m :: rest = done ++ [m] ++ rest := by simp
  refine ⟨⟨done ++ [m], hsplit.symm⟩, ?_⟩
  rw [handled_append, hsplit, handled_append]

namespace DisableMotor

/-- The drives left to the present loop. -/
def remaining : DisableMotor → List NodeId
  | .zero rest => rest
  | .shutdown rest => rest

/-- The drive has been sent the speed zero and not yet `SHUTDOWN`. -/
def holds (nodes : List NodeId) (n : NodeId) : DisableMotor → Bool
  | .zero rest => n ∈ handled nodes rest
  | .shutdown rest => n ∈ nodes ∧ n ∉ handled nodes rest

/-- The drive that is sent the speed zero next. -/
def zeroes : DisableMotor → Option NodeId
  | .zero (n :: _) => some n
  | _ => none

end DisableMotor

/-- The run of `disable_motor` in a disable transition or in the destructor of
the node. -/
def Body.disables : Body → Option DisableMotor
  | .transition (.disabling pc) => some pc
  | .main (.destroyNode pc) => some pc
  | _ => none

def Body.holds (c : Config) (n : NodeId) (b : Body) : Bool :=
  b.disables.any (DisableMotor.holds c.driveMotorIds n)

/-- Some thread holds the drive at zero. -/
def State.Holds (c : Config) (s : State) (n : NodeId) : Prop :=
  ∃ t ∈ s.threads, t.body.holds c n = true

instance (s : State) (n : NodeId) : Decidable (s.Holds c n) :=
  inferInstanceAs (Decidable (∃ t ∈ s.threads, _))

/-- The frame of the speed carries zero. -/
def Still (rpm : Rpm) : Prop := truncToInt32 (rpm * countsPerRpm) = some 0

instance (rpm : Rpm) : Decidable (Still rpm) := inferInstanceAs (Decidable (_ = _))

theorem still_zero : Still 0 := by simp [Still, truncToInt32]

/-- A speed sent to a drive between its zero and its `SHUTDOWN` is zero. -/
def ZeroUntilShutdown (c : Config) (s : State) (l : Label) : Prop :=
  ∀ a ∈ actionOf c s l, ∀ p ∈ a.speed, s.Holds c p.1 → p.2 = some 0

/-- Where a drive is sent the zero, its target is zero and the resend loop holds
no other speed for it; and until its `SHUTDOWN` no speed is stored for it. -/
def ZeroedBefore (c : Config) (s : State) (l : Label) : Prop :=
  ∀ b ∈ s.mover l,
    (∀ n ∈ b.disables.bind DisableMotor.zeroes, Still (s.shared.drives.target n) ∧
      ∀ t ∈ s.threads, ∀ p ∈ t.body.sending, p.1 = n → Still p.2) ∧
    ∀ p ∈ b.nextCommand, ¬ Still p.2 → ¬ s.Holds c p.1

instance (s : State) (l : Label) : Decidable (ZeroedBefore c s l) :=
  inferInstanceAs (Decidable (∀ b ∈ s.mover l, (∀ n ∈ b.disables.bind DisableMotor.zeroes,
    Still (s.shared.drives.target n) ∧ ∀ t ∈ s.threads, ∀ p ∈ t.body.sending, _) ∧
      ∀ p ∈ b.nextCommand, _))

/-- A drive is held from its zero on. -/
theorem disableMotor_holds {pc pc' : DisableMotor} (hleft : pc.remaining <:+ nodes)
    (h : (disableMotor nodes pc).next = .inl pc') : pc'.remaining <:+ nodes ∧
      (pc'.holds nodes n = true → pc.holds nodes n = true ∨ pc.zeroes = some n) := by
  rcases pc with (_ | ⟨m, rest⟩) | (_ | ⟨m, rest⟩)
  · cases h
    refine ⟨List.suffix_rfl, fun hn => .inl ?_⟩
    have hmem : n ∈ nodes := (of_decide_eq_true hn).1
    simpa [DisableMotor.holds, handled] using hmem
  · cases h
    obtain ⟨hrest, hhandled⟩ := handled_next hleft
    refine ⟨hrest, fun hn => ?_⟩
    have hmem : n ∈ handled nodes (m :: rest) ++ [m] := hhandled ▸ of_decide_eq_true hn
    rcases List.mem_append.mp hmem with hdone | hm
    · exact .inl (decide_eq_true hdone)
    · rw [List.mem_singleton.mp hm]
      exact .inr rfl
  · cases h
  · cases h
    obtain ⟨hrest, hhandled⟩ := handled_next hleft
    refine ⟨hrest, fun hn => .inl ?_⟩
    obtain ⟨hmem, hnot⟩ := of_decide_eq_true hn
    rw [hhandled] at hnot
    exact decide_eq_true ⟨hmem, fun hdone => hnot (List.mem_append_left _ hdone)⟩

/-- Nothing is held before the first zero. -/
theorem not_holds_zero : (DisableMotor.zero nodes).holds nodes n = false := by
  simp [DisableMotor.holds, handled]

theorem transitionThread_disables {pc : Transition} {pc' : DisableMotor}
    (h : transitionThread c σ task pc = some turn)
    (hu : turn.self = some (.transition (.disabling pc'))) :
    (∃ pc₀, pc = .disabling pc₀ ∧ (disableMotor c.driveMotorIds pc₀).next = .inl pc') ∨
      pc' = .zero c.driveMotorIds := by
  cases pc with
  | enabling tasks =>
      obtain ⟨m, -, rfl⟩ := Option.map_eq_some_iff.mp h
      rcases Move.turn_self hu with ⟨_, -, hinside⟩ | ⟨_, -, hback⟩
      · cases hinside
      · cases hback
  | storeEnabled ok => cases h; cases hu
  | zeroing rest =>
      cases rest with
      | nil => cases h; cases hu; exact .inr rfl
      | cons m rest => cases h; cases hu
  | disabling pc =>
      cases h
      rcases Move.turn_self hu with ⟨pc', hnext, hinside⟩ | ⟨_, -, hback⟩
      · cases hinside
        exact .inl ⟨pc, rfl, hnext⟩
      · cases hback
  | storeDisabled => cases h; cases hu
  | release want => cases h; cases hu
  | recheckTraction want => cases h; cases hu
  | recheckBrake want traction =>
      rw [transitionThread] at h
      split at h <;> cases h <;> cases hu
  | update pc =>
      rcases updateTurn_self h hu with ⟨_, hinside⟩ | hnone
      · cases hinside
      · cases hnone

theorem mainThread_disables {threads : List Thread} {pc : Main} {pc' : DisableMotor}
    (h : mainThread c σ threads pc = some turn)
    (hu : turn.self = some (.main (.destroyNode pc'))) :
    (∃ pc₀, pc = .destroyNode pc₀ ∧ (disableMotor c.driveMotorIds pc₀).next = .inl pc') ∨
      pc' = .zero c.driveMotorIds := by
  cases pc with
  | configure rest => cases rest <;> cases h <;> cases hu
  | configuring node rest pc =>
      cases h
      rcases Move.turn_self hu with ⟨_, -, hinside⟩ | ⟨_, -, hback⟩
      · cases hinside
      · cases hback
  | startSync => cases h; cases hu
  | subscribe => cases h; cases hu
  | update pc =>
      rcases updateTurn_self h hu with ⟨_, hinside⟩ | hspin
      · cases hinside
      · cases hspin
  | spin => cases h; cases hu
  | running =>
      rw [mainThread] at h
      split at h <;> cases h
      cases hu
      exact .inr rfl
  | destroyNode pc =>
      cases h
      rcases Move.turn_self hu with ⟨pc', hnext, hinside⟩ | ⟨_, -, hback⟩
      · cases hinside
        exact .inl ⟨pc, rfl, hnext⟩
      · cases hback
  | stopSync => cases h; cases hu
  | joinSync =>
      rw [mainThread] at h
      split at h <;> cases h
      cases hu
  | destroyController pc =>
      cases h
      rcases Move.turn_self hu with ⟨_, -, hinside⟩ | ⟨_, -, hback⟩
      · cases hinside
      · cases hback

/-- A run of `disable_motor` in a thread goes on, or begins. -/
theorem Body.turn_disables {u : Body} {pc' : DisableMotor} (h : b.turn c s task = some turn)
    (hu : turn.self = some u) (hpc : u.disables = some pc') :
    (∃ pc, b.disables = some pc ∧ (disableMotor c.driveMotorIds pc).next = .inl pc') ∨
      pc' = .zero c.driveMotorIds := by
  have hkind := Body.turn_kind h hu
  unfold Body.disables at hpc
  split at hpc
  · cases hpc
    cases b with
    | transition pc =>
        rcases transitionThread_disables h hu with ⟨pc₀, rfl, hnext⟩ | rfl
        · exact .inl ⟨pc₀, rfl, hnext⟩
        · exact .inr rfl
    | _ => cases hkind
  · cases hpc
    cases b with
    | main pc =>
        rcases mainThread_disables h hu with ⟨pc₀, rfl, hnext⟩ | rfl
        · exact .inl ⟨pc₀, rfl, hnext⟩
        · exact .inr rfl
    | _ => cases hkind
  · cases hpc

theorem Spawns.not_disables (h : Spawns c now b) : b.disables = none := by
  cases h with
  | transition want => cases want <;> rfl
  | _ => rfl

theorem Starts.not_disables (h : Starts l b) : b.disables = none := by
  cases h <;> rfl

/-- The target of a drive that is held at zero is zero, and so is the speed that
the resend loop holds for it. -/
structure HeldStill (c : Config) (s : State) : Prop where
  left : ∀ t ∈ s.threads, ∀ pc, t.body.disables = some pc → pc.remaining <:+ c.driveMotorIds
  target : ∀ n, s.Holds c n → Still (s.shared.drives.target n)
  loaded : ∀ n, s.Holds c n → ∀ t ∈ s.threads, ∀ rpm, t.body.sending = some (n, rpm) → Still rpm

theorem Body.holds_eq_true : b.holds c n = true ↔
    ∃ pc, b.disables = some pc ∧ pc.holds c.driveMotorIds n = true := by
  simp [Body.holds, Option.any_eq_true]

theorem start_heldStill (c : Config) (now : Time) : HeldStill c (start c now) := by
  have hnone : ∀ t ∈ (start c now).threads, t.body.disables = none := by
    intro t ht
    obtain rfl := List.mem_singleton.mp ht
    change Body.disables (.main (if c.canOpen then _ else _)) = none
    split <;> rfl
  have hfree : ∀ n, ¬ (start c now).Holds c n := by
    rintro n ⟨t, ht, hn⟩
    obtain ⟨pc, hpc, -⟩ := Body.holds_eq_true.mp hn
    rw [hnone t ht] at hpc
    cases hpc
  refine ⟨?_, fun n hn => absurd hn (hfree n), fun n hn => absurd hn (hfree n)⟩
  intro t ht pc hpc
  rw [hnone t ht] at hpc
  cases hpc

/-- A target that is zero stays zero unless a speed is stored. -/
theorem still_after_turn (h : b.turn c s task = some turn)
    (hstill : Still (s.shared.drives.target n))
    (hcommand : ∀ rpm, b.nextCommand = some (n, rpm) → Still rpm) :
    Still ((s.shared.apply turn.act).drives.target n) := by
  have hacts := Body.turn_acts h
  rcases s.shared.apply_target turn.act n with ⟨rpm, ha, ht⟩ | hzero | hsame
  · rw [ht]
    rw [ha] at hacts
    rcases hacts.storeTarget with rfl | hnext
    · exact still_zero
    · exact hcommand rpm hnext
  · rw [hzero]
    exact still_zero
  · rwa [hsame]

/-- The resend loop takes up the stored target. -/
theorem Body.turn_sending {u : Body} (h : b.turn c s task = some turn) (hu : turn.self = some u)
    (hsending : u.sending = some (n, rpm)) : rpm = s.shared.drives.target n := by
  obtain ⟨rest, rfl⟩ := Body.sending_eq_some hsending
  have hkind := Body.turn_kind h hu
  cases b with
  | sync pc =>
      cases h
      rcases pc with _ | (_ | ⟨m, rest'⟩) | ⟨m, v, rest'⟩ | _
      · dsimp only [syncLoop] at hu
        split at hu <;> cases hu
      · cases hu
      · cases hu
        rfl
      · cases hu
      · cases hu
  | _ => cases hkind

/-- A drive held after a move was held before, or has just been sent its zero. -/
theorem holds_before {pre post : List Thread} {t : Thread}
    (hs : HeldStill c s) (hthreads : s.threads = pre ++ t :: post)
    (hturn : t.body.turn c s task = some turn)
    (hn : State.Holds c ⟨s.shared.apply turn.act, pre ++ turn.threads s.shared.now ++ post⟩ n) :
    s.Holds c n ∨ t.body.disables.bind DisableMotor.zeroes = some n := by
  have ht : t ∈ s.threads := mover_mem hthreads
  obtain ⟨u, hu, hheld⟩ := hn
  obtain ⟨pc', hpc', hholds⟩ := Body.holds_eq_true.mp hheld
  rcases Body.threads_after hturn hu with hself | hspawns | hother
  · rcases Body.turn_disables hturn hself hpc' with ⟨pc, hpc, hnext⟩ | rfl
    · rcases (disableMotor_holds (hs.left t ht pc hpc) hnext).2 hholds with hbefore | hzero
      · exact .inl ⟨t, ht, Body.holds_eq_true.mpr ⟨pc, hpc, hbefore⟩⟩
      · right
        rw [hpc]
        exact hzero
    · rw [not_holds_zero] at hholds
      cases hholds
  · rw [hspawns.not_disables] at hpc'
    cases hpc'
  · exact .inl ⟨u, other_mem hthreads hother, hheld⟩

theorem Body.nextCommand_of_disables (h : b.disables ≠ none) : b.nextCommand = none := by
  cases b with
  | cmd pc => exact absurd rfl h
  | _ => rfl

theorem moved_heldStill {pre post : List Thread} {t : Thread} (hs : HeldStill c s)
    (hok : ZeroedBefore c s (.thread pre.length task)) (hthreads : s.threads = pre ++ t :: post)
    (hturn : t.body.turn c s task = some turn) :
    HeldStill c ⟨s.shared.apply turn.act, pre ++ turn.threads s.shared.now ++ post⟩ := by
  obtain ⟨hzeroes, hcommand⟩ := hok t.body (mover_eq hthreads)
  have ht : t ∈ s.threads := mover_mem hthreads
  constructor
  · intro u hu pc' hpc'
    rcases Body.threads_after hturn hu with hself | hspawns | hother
    · rcases Body.turn_disables hturn hself hpc' with ⟨pc, hpc, hnext⟩ | rfl
      · exact (disableMotor_holds (n := 0) (hs.left t ht pc hpc) hnext).1
      · exact List.suffix_rfl
    · rw [hspawns.not_disables] at hpc'
      cases hpc'
    · exact hs.left u (other_mem hthreads hother) pc' hpc'
  · intro n hn
    rcases holds_before hs hthreads hturn hn with hheld | hzero
    · refine still_after_turn hturn (hs.target n hheld) ?_
      intro rpm hnext
      by_contra hspeed
      exact hcommand (n, rpm) hnext hspeed hheld
    · refine still_after_turn hturn (hzeroes n hzero).1 ?_
      intro rpm hnext
      have hdisables : t.body.disables ≠ none := by
        intro hnone
        rw [hnone] at hzero
        cases hzero
      rw [Body.nextCommand_of_disables hdisables] at hnext
      cases hnext
  · intro n hn u hu rpm hsending
    have hold : ∀ v ∈ s.threads, v.body.sending = some (n, rpm) → Still rpm := by
      intro v hv hsend
      rcases holds_before hs hthreads hturn hn with hheld | hzero
      · exact hs.loaded n hheld v hv rpm hsend
      · exact (hzeroes n hzero).2 v hv (n, rpm) hsend rfl
    rcases Body.threads_after hturn hu with hself | hspawns | hother
    · rw [Body.turn_sending hturn hself hsending]
      rcases holds_before hs hthreads hturn hn with hheld | hzero
      · exact hs.target n hheld
      · exact (hzeroes n hzero).1
    · obtain ⟨rest, hbody⟩ := Body.sending_eq_some hsending
      rw [hbody] at hspawns
      cases hspawns
    · exact hold u (other_mem hthreads hother) hsending

theorem step_heldStill (hs : HeldStill c s) (hok : ZeroedBefore c s l)
    (h : step c s l = some s') : HeldStill c s' := by
  cases step_cases h with
  | delayed d hd => exact ⟨hs.left, hs.target, hs.loaded⟩
  | received f hopen =>
      refine ⟨hs.left, ?_, hs.loaded⟩
      intro n hn
      rw [canCallback_target]
      exact hs.target n hn
  | @called _ b hspin hb =>
      have hheld : ∀ n, (s.call b).Holds c n → s.Holds c n := by
        rintro n ⟨t, ht, hn⟩
        rcases List.mem_append.mp ht with hold | hnew
        · exact ⟨t, hold, hn⟩
        · obtain rfl := List.mem_singleton.mp hnew
          obtain ⟨pc, hpc, -⟩ := Body.holds_eq_true.mp hn
          rw [hb.not_disables] at hpc
          cases hpc
      refine ⟨?_, fun n hn => hs.target n (hheld n hn), ?_⟩
      · intro t ht pc hpc
        rcases List.mem_append.mp ht with hold | hnew
        · exact hs.left t hold pc hpc
        · obtain rfl := List.mem_singleton.mp hnew
          rw [hb.not_disables] at hpc
          cases hpc
      · intro n hn t ht rpm hsending
        rcases List.mem_append.mp ht with hold | hnew
        · exact hs.loaded n (hheld n hn) t hold rpm hsending
        · obtain rfl := List.mem_singleton.mp hnew
          cases hb <;> cases hsending
  | moved hthreads hwake hturn hact => exact moved_heldStill hs hok hthreads hturn

theorem step_zeroUntilShutdown (hs : HeldStill c s) (h : step c s l = some s') :
    ZeroUntilShutdown c s l := by
  intro a ha p hp hheld
  cases step_cases h with
  | delayed d hd => cases ha
  | received f hopen => cases ha
  | called hspin hb =>
      rw [hb.actionOf_eq_none] at ha
      cases ha
  | @moved task pre post t turn hthreads hwake hturn hact =>
      obtain rfl := Option.some.inj (hact.symm.trans ha)
      by_contra hspeed
      obtain ⟨rpm, rest, hbody, hcounts⟩ := Body.turn_speed hturn hp hspeed
      have hstill : Still rpm :=
        hs.loaded p.1 hheld t (mover_mem hthreads) rpm
          (by rw [hbody]; rfl)
      exact hspeed (hcounts.trans hstill)

/-- In every run in which each drive's target is zero before its zero is sent,
and no speed is stored until its `SHUTDOWN`, every speed sent to it in between
is zero. -/
theorem zero_until_shutdown (c : Config) (now : Time) (ls : List Label)
    (hok : Along (step c) (fun s l _ => ZeroedBefore c s l) (start c now) ls) :
    Along (step c) (fun s l _ => ZeroUntilShutdown c s l) (start c now) ls := by
  have keep : ∀ s l s', HeldStill c s → ZeroedBefore c s l → step c s l = some s' →
      HeldStill c s' := fun s l s' hs hok h => step_heldStill hs hok h
  have good : ∀ s l s', HeldStill c s → ZeroedBefore c s l → step c s l = some s' →
      ZeroUntilShutdown c s l := fun s l s' hs _ h => step_zeroUntilShutdown hs h
  exact along_of_invariant keep good (start_heldStill c now) hok

/-- The brake engages at 100 rpm. The disable transition zeroes the target and
sends the zero, and the resend loop sends twice before the `SHUTDOWN`. -/
def resendWhileDisabling : List Label :=
  bringUp ++ command 100 ++ [Label.brake true] ++ moves 2 11 ++ moves 1 5 ++
  [Label.delay (1 / 50)] ++ moves 1 5 ++ [Label.delay (3 / 100)] ++ moves 2 1

theorem zero_until_shutdown_brake :
    (run (step brakeDrive) (start brakeDrive 100) resendWhileDisabling).isSome = true ∧
      Along (step brakeDrive) (fun s l _ => ZeroUntilShutdown brakeDrive s l)
        (start brakeDrive 100) resendWhileDisabling :=
  ⟨by decide +kernel,
    zero_until_shutdown brakeDrive 100 resendWhileDisabling (by decide +kernel)⟩

/-- A speed that stands while the drive is held, and that the resend loop comes
to, is sent. -/
theorem standing_speed_sent {pre post : List Thread} {rest : List NodeId} {wake : Time}
    (hthreads : s.threads = pre ++ ⟨.sync (.load (n :: rest)), wake⟩ :: post)
    (hwake : wake ≤ s.shared.now) (hheld : s.Holds c n)
    (hspeed : ¬ Still (s.shared.drives.target n)) :
    ¬ Along (step c) (fun s l _ => ZeroUntilShutdown c s l) s (moves pre.length 2) := by
  intro hzero
  let loaded : State := ⟨s.shared, pre ++
    ⟨.sync (.send n (s.shared.drives.target n) rest), s.shared.now + 0⟩ :: post⟩
  have hload : step c s (.thread pre.length 0) = some loaded := by
    rw [step, threadStep, hthreads, stepAt_length, Thread.step, if_pos hwake]
    simp [loaded, Body.turn, syncLoop, Turn.threads, Shared.apply]
  have hsend : actionOf c loaded (.thread pre.length 0) =
      some (.write (sendVelocityCommand n (s.shared.drives.target n))) := by
    rw [actionOf, threadStep, stepAt_length, Thread.step, if_pos (add_zero s.shared.now).le]
    rfl
  have hheld' : loaded.Holds c n := by
    obtain ⟨t, ht, hn⟩ := hheld
    rw [hthreads] at ht
    rcases mem_at.mp ht with rfl | hother
    · cases hn
    · exact ⟨t, mem_at.mpr (.inr hother), hn⟩
  obtain ⟨s', hstep⟩ : ∃ s', step c loaded (.thread pre.length 0) = some s' := by
    obtain ⟨p, hp, -⟩ := Option.map_eq_some_iff.mp hsend
    refine ⟨⟨loaded.shared.apply p.1, p.2⟩, ?_⟩
    rw [step, hp]
    rfl
  obtain ⟨hnow, -⟩ := (hzero loaded hload).2 s' hstep
  exact hspeed (hnow _ hsend _ rfl hheld')

/-- The node is shut down at 100 rpm: the destructor sends the zero, and the
resend loop comes to the drive before the `SHUTDOWN`. -/
def shutDownAtSpeed : List Label := bringUp ++ command 100 ++ moves 0 2 ++ moves 1 2

/-- It sends the 100 rpm again. -/
theorem speed_resent_while_disabling :
    (run (step oneDrive) (start oneDrive 100) (shutDownAtSpeed ++ [.thread 1 0])).isSome = true ∧
      ¬ Along (step oneDrive) (fun s l _ => ZeroUntilShutdown oneDrive s l) (start oneDrive 100)
        (shutDownAtSpeed ++ [.thread 1 0]) := by
  refine ⟨by decide +kernel, ?_⟩
  intro hzero
  have hend : ((run (step oneDrive) (start oneDrive 100) shutDownAtSpeed).map fun s =>
      decide ((step oneDrive s (.thread 1 0)).isSome = true ∧ s.Holds oneDrive 1 ∧
        actionOf oneDrive s (.thread 1 0) = some (.write (.rpdo2 1 (some 273066))))) =
      some true := by decide +kernel
  obtain ⟨s, hrun, hs⟩ := Option.map_eq_some_iff.mp hend
  obtain ⟨hsome, hheld, hact⟩ := of_decide_eq_true hs
  obtain ⟨s', hstep⟩ := Option.isSome_iff_exists.mp hsome
  have hspeed := hzero.after_prefix hrun hstep _ hact _ rfl hheld
  cases hspeed

end PolishingRobot.Motor
