import PolishingRobot.Motor.SpeedRecord

/-!
# Speeds on the wire

The resend loop scales a target to counts and casts it to 32 bits. Nothing on
the way from a message to the cast limits the speed.
-/

namespace PolishingRobot.Motor

open Numbers Runs

variable {c : Config} {s s' : State} {r r' : Record} {l : Label} {n : NodeId} {rpm rpm' : Rpm}
  {task : Nat} {turn : Turn} {b u : Body}

/-- The counts are the scaled speed, cut to an integer. -/
def ExactCounts (counts : Option Int32) (rpm : Rpm) : Prop :=
  ∃ k, counts = some k ∧ k.toInt = towardZero (rpm * countsPerRpm)

/-- The integer part of the scaled speed fits 32 bits. -/
def CountsFit (rpm : Rpm) : Prop :=
  -2 ^ 31 - 1 < rpm * countsPerRpm ∧ rpm * countsPerRpm < 2 ^ 31

instance (rpm : Rpm) : Decidable (CountsFit rpm) := inferInstanceAs (Decidable (_ ∧ _))

theorem exactCounts_iff : ExactCounts (truncToInt32 (rpm * countsPerRpm)) rpm ↔ CountsFit rpm := by
  constructor
  · rintro ⟨k, hk, -⟩
    exact (truncToInt32_eq_some_iff.mp hk).1
  · intro hfit
    obtain ⟨k, hk⟩ := truncToInt32_isSome hfit
    exact ⟨k, hk, (truncToInt32_eq_some_iff.mp hk).2⟩

theorem exactCounts_some {k : Int32} :
    ExactCounts (some k) rpm ↔ k.toInt = towardZero (rpm * countsPerRpm) := by
  simp [ExactCounts]

/-- Exact counts are ordered like the speeds. -/
theorem ExactCounts.mono {k k' : Int32} (h : ExactCounts (some k) rpm)
    (h' : ExactCounts (some k') rpm') (hle : rpm ≤ rpm') : k.toInt ≤ k'.toInt := by
  rw [exactCounts_some.mp h, exactCounts_some.mp h']
  exact towardZero_mono (mul_le_mul_of_nonneg_right hle countsPerRpm_pos.le)

/-- Exact counts do not turn the speed around. -/
theorem ExactCounts.sign {k : Int32} (h : ExactCounts (some k) rpm) :
    0 ≤ (k.toInt : ℚ) * rpm := by
  have hsign := towardZero_mul_nonneg (rpm * countsPerRpm)
  rw [← exactCounts_some.mp h, ← mul_assoc] at hsign
  exact nonneg_of_mul_nonneg_left hsign countsPerRpm_pos

/-- An accepted message commands the target. -/
def Backed (c : Config) (r : Record) (n : NodeId) (target : Rpm) : Prop :=
  ∃ e ∈ r.accepted, ∃ p ∈ commands c e.2, p.1 = n ∧ mounted n p.2 = target

theorem Backed.mono {target : Rpm} (h : Backed c r n target)
    (hr : ∀ e ∈ r.accepted, e ∈ r'.accepted) : Backed c r' n target := by
  obtain ⟨e, he, hp⟩ := h
  exact ⟨e, hr e he, hp⟩

/-- The speeds that a thread carries. -/
def LocalBacked (c : Config) (r : Record) : Body → Prop
  | .cmd (.store rest) => ∀ p ∈ rest, Backed c r p.1 (mounted p.1 p.2)
  | .sync (.send n rpm _) => rpm ≠ 0 → Backed c r n rpm
  | _ => True

/-- Every speed other than zero comes from an accepted message. -/
structure Sourced (c : Config) (s : State) (r : Record) : Prop where
  targets : ∀ n, s.shared.drives.target n ≠ 0 → Backed c r n (s.shared.drives.target n)
  locals : ∀ t ∈ s.threads, LocalBacked c r t.body

theorem start_sourced (c : Config) (now : Time) : Sourced c (start c now) {} where
  targets _ h := absurd rfl h
  locals := by
    intro t ht
    obtain rfl := List.mem_singleton.mp ht
    trivial

theorem LocalBacked.mono (h : LocalBacked c r b) (hr : ∀ e ∈ r.accepted, e ∈ r'.accepted) :
    LocalBacked c r' b := by
  cases b with
  | cmd pc =>
      cases pc with
      | store rest => exact fun p hp => (h p hp).mono hr
      | _ => trivial
  | sync pc =>
      cases pc with
      | send n rpm rest => exact fun hrpm => (h hrpm).mono hr
      | _ => trivial
  | _ => trivial

theorem Starts.localBacked (h : Starts l b) : LocalBacked c r b := by
  cases h <;> trivial

section Moves

variable {pre post : List Thread} {v : Thread}

theorem target_sourced (hs : Sourced c s r) (hv : v ∈ s.threads)
    (hturn : v.body.turn c s task = some turn)
    (hn : (s.shared.apply turn.act).drives.target n ≠ 0) :
    Backed c r n ((s.shared.apply turn.act).drives.target n) := by
  rcases s.shared.apply_target turn.act n with ⟨rpm, ha, ht⟩ | hzero | hsame
  · have hacts := Body.turn_acts hturn
    rw [ha] at hacts
    rcases hacts.storeTarget with rfl | hnext
    · exact absurd ht hn
    · obtain ⟨v', rest, hb, hrpm⟩ := Body.nextCommand_eq_some hnext
      have hlocal := hs.locals v hv
      rw [hb] at hlocal
      rw [ht, show rpm = mounted n v' from hrpm]
      exact hlocal (n, v') (by simp)
  · exact absurd hzero hn
  · rw [hsame] at hn ⊢
    exact hs.targets n hn

/-- A thread goes on with speeds that come from accepted messages. -/
theorem self_sourced (hs : Sourced c s r) (hthreads : s.threads = pre ++ v :: post)
    (hturn : v.body.turn c s task = some turn) (hself : turn.self = some u) :
    LocalBacked c (note s (.thread pre.length task) r) u := by
  have hv : v ∈ s.threads := mover_mem hthreads
  have hkind := Body.turn_kind hturn hself
  have hlocal := hs.locals v hv
  have hmover : s.mover (.thread pre.length task) = some v.body := mover_eq hthreads
  obtain ⟨body, wake⟩ := v
  cases body with
  | cmd pc =>
      cases hturn
      rcases pc with data | data | data | (_ | ⟨p, rest⟩)
      · dsimp only [cmdCallback] at hself
        split at hself <;> cases hself
        trivial
      · cases hself
        trivial
      · dsimp only [cmdCallback] at hself
        split at hself <;> cases hself
        rename_i hon
        intro p hp
        refine ⟨(s.shared.now, data), ?_, p, hp, rfl, rfl⟩
        simp [note, State.accepts, hmover, hon]
      · cases hself
      · cases hself
        exact fun q hq => (hlocal q (by simp [hq])).mono (note_accepted s _ r)
  | sync pc =>
      cases hturn
      rcases pc with _ | (_ | ⟨node, rest⟩) | ⟨node, rpm, rest⟩ | _
      · dsimp only [syncLoop] at hself
        split at hself <;> cases hself
        trivial
      · cases hself
        trivial
      · cases hself
        exact fun hrpm => (hs.targets node hrpm).mono (note_accepted s _ r)
      · cases hself
        trivial
      · cases hself
        trivial
  | main pc => cases u <;> trivial
  | control pc => cases u <;> trivial
  | interlock pc => cases u <;> trivial
  | transition pc => cases u <;> trivial
  | recovery pc => cases u <;> trivial

end Moves

/-- Every step keeps the speeds sourced. -/
theorem step_sourced (hs : Sourced c s r) (h : step c s l = some s') :
    Sourced c s' (note s l r) := by
  have hold : ∀ e ∈ r.accepted, e ∈ (note s l r).accepted := note_accepted s l r
  cases step_cases h with
  | delayed d hd =>
      exact ⟨fun n hn => (hs.targets n hn).mono hold, fun t ht => (hs.locals t ht).mono hold⟩
  | received f hopen =>
      refine ⟨?_, fun t ht => (hs.locals t ht).mono hold⟩
      intro n hn
      dsimp only at hn ⊢
      rw [canCallback_target] at hn ⊢
      exact (hs.targets n hn).mono hold
  | called hspin hb =>
      refine ⟨fun n hn => (hs.targets n hn).mono hold, ?_⟩
      intro t ht
      rcases List.mem_append.mp ht with hmem | hmem
      · exact (hs.locals t hmem).mono hold
      · obtain rfl := List.mem_singleton.mp hmem
        exact hb.localBacked
  | @moved task pre post v turn hthreads hwake hturn hact =>
      have hv : v ∈ s.threads := mover_mem hthreads
      refine ⟨fun n hn => (target_sourced hs hv hturn hn).mono hold, ?_⟩
      intro t ht
      rcases Body.threads_after hturn ht with hself | hspawns | hother
      · exact self_sourced hs hthreads hturn hself
      · generalize t.body = tb at hspawns ⊢
        cases hspawns <;> trivial
      · exact (hs.locals t (other_mem hthreads hother)).mono hold

/-- The drive and the target that the resend loop is about to send. -/
def Body.sending : Body → Option (NodeId × Rpm)
  | .sync (.send n rpm _) => some (n, rpm)
  | _ => none

theorem Body.sending_eq_some (h : b.sending = some (n, rpm)) :
    ∃ rest, b = .sync (.send n rpm rest) := by
  cases b with
  | sync pc =>
      cases pc with
      | send m v rest =>
          cases h
          exact ⟨rest, rfl⟩
      | _ => cases h
  | _ => cases h

/-- The sending that a label takes. -/
def State.sending (s : State) (l : Label) : Option (NodeId × Rpm) := (s.mover l).bind Body.sending

/-- A sending of the resend loop writes the exact counts of an accepted speed,
as the drive is mounted, or of a target that is zero. -/
def SendsExact (c : Config) (w : State × Record) (l : Label) : Prop :=
  ∀ n rpm, w.1.sending l = some (n, rpm) →
    (rpm = 0 ∨ Backed c w.2 n rpm) ∧
      ∃ counts, actionOf c w.1 l = some (.write (.rpdo2 n counts)) ∧ ExactCounts counts rpm

/-- The speed that the resend loop is about to send fits. -/
def SendFits (w : State × Record) (l : Label) : Prop :=
  ∀ n rpm, w.1.sending l = some (n, rpm) → CountsFit rpm

/-- What the resend loop writes. -/
theorem sending_moved (hsending : s.sending l = some (n, rpm)) (h : step c s l = some s') :
    (∃ v ∈ s.threads, ∃ rest, v.body = .sync (.send n rpm rest)) ∧
      actionOf c s l = some (.write (.rpdo2 n (truncToInt32 (rpm * countsPerRpm)))) := by
  cases step_cases h with
  | delayed d => cases hsending
  | received f => cases hsending
  | called hspin hb => cases hb <;> cases hsending
  | @moved task pre post v turn hthreads hwake hturn hact =>
      obtain ⟨rest, hbody⟩ : ∃ rest, v.body = .sync (.send n rpm rest) := by
        apply Body.sending_eq_some
        simpa [State.sending, mover_eq hthreads] using hsending
      refine ⟨⟨v, mover_mem hthreads, rest, hbody⟩, ?_⟩
      rw [hbody] at hturn
      cases hturn
      exact hact

/-- The speed of a sending is zero or comes from an accepted message. -/
theorem Sourced.of_sending (hs : Sourced c s r) (hsending : s.sending l = some (n, rpm))
    (h : step c s l = some s') : rpm = 0 ∨ Backed c r n rpm := by
  obtain ⟨⟨v, hv, rest, hbody⟩, -⟩ := sending_moved hsending h
  have hlocal := hs.locals v hv
  rw [hbody] at hlocal
  exact (eq_or_ne rpm 0).imp_right hlocal

/-- A sending is exact exactly if its speed fits. -/
theorem sendsExact_iff (hs : Sourced c s r) (h : step c s l = some s') :
    SendsExact c (s, r) l ↔ SendFits (s, r) l := by
  constructor
  · intro hexact n rpm hsending
    obtain ⟨-, counts, hact, hcounts⟩ := hexact n rpm hsending
    have hwritten : counts = truncToInt32 (rpm * countsPerRpm) := by
      have heq := hact.symm.trans (sending_moved hsending h).2
      simpa using heq
    rw [hwritten] at hcounts
    exact exactCounts_iff.mp hcounts
  · intro hfits n rpm hsending
    exact ⟨hs.of_sending hsending h, _, (sending_moved hsending h).2,
      exactCounts_iff.mpr (hfits n rpm hsending)⟩

/-- For all drives, directions and messages, and in every run: each sending of
the resend loop writes the exact counts of an accepted speed exactly if each speed
that it is about to send fits 32 bits. -/
theorem exact_sendings_iff (c : Config) (now : Time) (ls : List Label) :
    Along (recorded c) (fun w l _ => SendsExact c w l) (start c now, {}) ls ↔
      Along (recorded c) (fun w l _ => SendFits w l) (start c now, {}) ls := by
  have keep : ∀ (w : State × Record) l w', Sourced c w.1 w.2 → recorded c w l = some w' →
      Sourced c w'.1 w'.2 := by
    rintro ⟨s, r⟩ l ⟨s', r'⟩ hs h
    obtain ⟨hstep, rfl⟩ := observe_eq_some h
    exact step_sourced hs hstep
  have same : ∀ (w : State × Record) l w', Sourced c w.1 w.2 → recorded c w l = some w' →
      (SendsExact c w l ↔ SendFits w l) := by
    rintro ⟨s, r⟩ l ⟨s', r'⟩ hs h
    exact sendsExact_iff hs (observe_eq_some h).1
  exact along_iff_of_invariant keep same (start_sourced c now)

/-- The speeds of a message fit, as its drives are mounted. -/
def MessageFits (c : Config) (data : List ℚ) : Prop :=
  ∀ p ∈ commands c data, CountsFit (mounted p.1 p.2)

/-- The messages accepted so far fit. -/
def AcceptedFit (c : Config) (r : Record) : Prop := ∀ e ∈ r.accepted, MessageFits c e.2

theorem countsFit_zero : CountsFit 0 := by norm_num [CountsFit]

/-- In a run that accepts only messages that fit, every sending is exact. -/
theorem exact_sendings_of_accepted (now : Time) (ls : List Label)
    (hfit : Along (recorded c) (fun w l _ => ∀ data ∈ w.1.accepts l, MessageFits c data)
      (start c now, {}) ls) :
    Along (recorded c) (fun w l _ => SendsExact c w l) (start c now, {}) ls := by
  have keep : ∀ (w : State × Record) l w', Sourced c w.1 w.2 ∧ AcceptedFit c w.2 →
      (∀ data ∈ w.1.accepts l, MessageFits c data) → recorded c w l = some w' →
      Sourced c w'.1 w'.2 ∧ AcceptedFit c w'.2 := by
    rintro ⟨s, r⟩ l ⟨s', r'⟩ ⟨hs, hr⟩ hok h
    obtain ⟨hstep, rfl⟩ := observe_eq_some h
    refine ⟨step_sourced hs hstep, ?_⟩
    intro e he
    rcases List.mem_append.mp he with hnew | hold
    · obtain ⟨data, hdata, rfl⟩ := Option.map_eq_some_iff.mp (Option.mem_toList.mp hnew)
      exact hok data hdata
    · exact hr e hold
  have good : ∀ (w : State × Record) l w', Sourced c w.1 w.2 ∧ AcceptedFit c w.2 →
      (∀ data ∈ w.1.accepts l, MessageFits c data) → recorded c w l = some w' →
      SendsExact c w l := by
    rintro ⟨s, r⟩ l ⟨s', r'⟩ ⟨hs, hr⟩ - h
    have hstep := (observe_eq_some h).1
    apply (sendsExact_iff hs hstep).mpr
    intro n rpm hsending
    rcases hs.of_sending hsending hstep with rfl | ⟨e, he, p, hp, rfl, rfl⟩
    · exact countsFit_zero
    · exact hr e he p hp
  exact along_of_invariant keep good ⟨start_sourced c now, by simp [AcceptedFit]⟩ hfit

/-- A message of a million rpm, up to the sending of its speed. -/
def hugeCommand : List Label := bringUp ++ command 1000000 ++ moves 1 2

/-- Its counts do not fit 32 bits, and the cast that the resend loop makes of
them is undefined. -/
theorem huge_command_undefined :
    (run (recorded oneDrive) (start oneDrive 100, {}) (hugeCommand ++ [.thread 1 0])).isSome =
        true ∧
      ¬ Along (recorded oneDrive) (fun w l _ => SendsExact oneDrive w l) (start oneDrive 100, {})
        (hugeCommand ++ [.thread 1 0]) := by
  refine ⟨by decide +kernel, ?_⟩
  intro hexact
  have hundefined : ((run (recorded oneDrive) (start oneDrive 100, {}) hugeCommand).map fun w =>
      decide ((recorded oneDrive w (.thread 1 0)).isSome = true ∧
        w.1.sending (.thread 1 0) = some (1, 1000000) ∧
        actionOf oneDrive w.1 (.thread 1 0) = some (.write (.rpdo2 1 none)))) =
      some true := by decide +kernel
  obtain ⟨w, hrun, hw⟩ := Option.map_eq_some_iff.mp hundefined
  obtain ⟨hsome, hsending, hact⟩ := of_decide_eq_true hw
  obtain ⟨w', hsend⟩ := Option.isSome_iff_exists.mp hsome
  obtain ⟨-, counts, hact', k, rfl, -⟩ := hexact.after_prefix hrun hsend 1 1000000 hsending
  rw [hact] at hact'
  cases hact'

end PolishingRobot.Motor
