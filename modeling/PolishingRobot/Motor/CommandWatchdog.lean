import PolishingRobot.Motor.RecentTargets

/-!
# Age of the commanded speeds

The watchdog of `controlLoop` zeroes the targets when no message has come for
`cmd_timeout_sec_`, but only while `motors_enabled_` is set, and a message that
is discarded while it is not set still counts as one.
-/

namespace PolishingRobot.Motor

open Runs

variable {c : Config} {T : Time} {σ : Shared} {s s' : State} {task : Nat} {turn : Turn}
  {l : Label} {b : Body} {n : NodeId}

theorem Fresh.target_zero {r : Record} (hs : Fresh c T s r)
    (h : ∀ n ∈ c.driveMotorIds, s.shared.drives.target n = 0) (n : NodeId) :
    s.shared.drives.target n = 0 := by
  by_contra hn
  exact hn (h n (hs.bounded n hn).mem_ids)

/-- A target after a move was there before, or a callback has just stored it. -/
theorem backed_after_turn {r : Record} (hturn : b.turn c s task = some turn)
    (hb : LocalFresh c T s.shared r b)
    (hn : (s.shared.apply turn.act).drives.target n ≠ 0) :
    (s.shared.apply turn.act).drives.target n = s.shared.drives.target n ∨
      b.stamped = true ∧
        BackedSince c r n ((s.shared.apply turn.act).drives.target n) s.shared.now := by
  have hacts := Body.turn_acts hturn
  rcases s.shared.apply_target turn.act n with ⟨rpm, ha, ht⟩ | hzero | hsame
  · rw [ha] at hacts
    rcases hacts.storeTarget with rfl | hcommand
    · exact absurd ht hn
    · obtain ⟨v, rest, rfl, hv⟩ := Body.nextCommand_eq_some hcommand
      refine .inr ⟨rfl, ?_⟩
      rw [ht, show rpm = mounted n v from hv]
      exact hb.2.1 (n, v) (by simp)
  · exact absurd hzero hn
  · exact .inl hsame

/-- The main thread passes `spin` before it runs. -/
theorem mainThread_beforeSpin {threads : List Thread} {pc : Main} {u : Body}
    (h : mainThread c σ threads pc = some turn) (hu : turn.self = some u)
    (hbefore : u.beforeSpin = true) : (Body.main pc).beforeSpin = true ∧ pc ≠ .spin := by
  cases pc with
  | spin => cases h; cases hu; cases hbefore
  | running =>
      rw [mainThread] at h
      split at h <;> cases h
      cases hu
      cases hbefore
  | destroyNode pc =>
      cases h
      rcases Move.turn_self hu with ⟨pc', -, rfl⟩ | ⟨_, -, hback⟩
      · cases hbefore
      · cases hback; cases hbefore
  | stopSync => cases h; cases hu; cases hbefore
  | joinSync =>
      rw [mainThread] at h
      split at h <;> cases h
      cases hu
      cases hbefore
  | destroyController pc =>
      cases h
      rcases Move.turn_self hu with ⟨pc', -, rfl⟩ | ⟨_, -, hback⟩
      · cases hbefore
      · cases hback
  | configure rest => exact ⟨rfl, by simp⟩
  | configuring node rest pc => exact ⟨rfl, by simp⟩
  | startSync => exact ⟨rfl, by simp⟩
  | subscribe => exact ⟨rfl, by simp⟩
  | update pc => exact ⟨rfl, by simp⟩

section Moves

variable {r : Record} {pre post : List Thread} {v : Thread}

/-- The threads after a move. -/
abbrev afterMove (s : State) (pre post : List Thread) (turn : Turn) : List Thread :=
  pre ++ turn.threads s.shared.now ++ post

/-- What holds of all threads after a move and of the moved thread before it
held of all of them before. -/
theorem before_move {P : Body → Prop} (hthreads : s.threads = pre ++ v :: post)
    (hafter : ∀ t ∈ afterMove s pre post turn, P t.body) (hv : P v.body) :
    ∀ t ∈ s.threads, P t.body := by
  intro t ht
  rw [hthreads, mem_at] at ht
  rcases ht with rfl | hother
  · exact hv
  · exact hafter t (mem_replaced.mpr (.inr hother))

theorem ticks_of_moved (hthreads : s.threads = pre ++ v :: post)
    (h : s.ticks (.thread pre.length task) = true) : v.body = .main .spin := by
  have hspin : v.body.startsSpinner = true := by
    change (s.mover (.thread pre.length task)).any Body.startsSpinner = true at h
    rwa [mover_eq hthreads] at h
  generalize v.body = b at hspin ⊢
  cases b with
  | main pc => cases pc <;> first | rfl | cases hspin
  | _ => cases hspin

theorem moved_recent (hs : Fresh c T s r) (hv : v ∈ s.threads)
    (hturn : v.body.turn c s task = some turn) (l : Label) (n : NodeId) (since : Time)
    (hsince : since ≤ s.shared.now) (h : Recent c r s.shared n since) :
    Recent c (note s l r) (s.shared.apply turn.act) n since := by
  intro hn
  rcases backed_after_turn hturn (hs.local_fresh v hv) hn with hsame | ⟨-, hnow⟩
  · rw [hsame] at hn ⊢
    exact (h hn).mono (note_accepted s l r) le_rfl
  · exact hnow.mono (note_accepted s l r) hsince

/-- A thread that is no callback storing a command makes no target recent. -/
theorem moved_recent_of_not_stamped (hs : Fresh c T s r) (hv : v ∈ s.threads)
    (hturn : v.body.turn c s task = some turn) (hstamped : v.body.stamped = false) (l : Label)
    (n : NodeId) (since : Time) (h : Recent c r s.shared n since) :
    Recent c (note s l r) (s.shared.apply turn.act) n since := by
  intro hn
  rcases backed_after_turn hturn (hs.local_fresh v hv) hn with hsame | ⟨hcmd, -⟩
  · rw [hsame] at hn ⊢
    exact (h hn).mono (note_accepted s l r) le_rfl
  · rw [hstamped] at hcmd
    cases hcmd

/-- A callback that returns leaves recent targets, or no target. -/
theorem returned_recent (hs : Fresh c T s r) (hv : v ∈ s.threads)
    (hthreads : s.threads = pre ++ v :: post) (hturn : v.body.turn c s task = some turn)
    (hok : SpeedsWatched c s (.thread pre.length task)) (hstamped : v.body.stamped = true)
    (hreturns : ∀ t ∈ afterMove s pre post turn, t.body.stamped = false) (n : NodeId) :
    s.shared.apply turn.act = s.shared ∧ (s.shared.lastCmdTime ≤ s.shared.now) ∧
      Recent c r s.shared n s.shared.now := by
  have hlocal := hs.local_fresh v hv
  have hmover : s.mover (.thread pre.length task) = some v.body := mover_eq hthreads
  obtain ⟨body, wake⟩ := v
  have hself : ∀ u, turn.self = some u → u.stamped = false := by
    intro u hu
    exact hreturns ⟨u, s.shared.now + turn.sleep⟩ (by simp [afterMove, Turn.self_mem hu])
  cases body with
  | cmd pc =>
      rcases pc with data | data | data | (_ | ⟨p, rest⟩)
      · cases hstamped
      · cases hstamped
      · cases hturn
        refine ⟨rfl, hlocal.2, ?_⟩
        have hoff : s.shared.motorsEnabled = false := by
          by_contra hon
          have hstores := hself (.cmd (.store (commands c data)))
            (if_pos (Bool.eq_true_of_not_eq_false hon))
          cases hstores
        intro hn
        exact absurd (hs.target_zero ((hok _ hmover hoff).2 rfl) n) hn
      · cases hturn
        exact ⟨rfl, hlocal.1, hlocal.2.2 n (by simp)⟩
      · cases hturn
        have := hself _ rfl
        cases this
  | _ => cases hstamped

theorem latest_after (hs : Fresh c T s r) (hthreads : s.threads = pre ++ v :: post)
    (hturn : v.body.turn c s task = some turn)
    (hok : SpeedsWatched c s (.thread pre.length task)) (l : Label)
    (hquiet : ∀ t ∈ afterMove s pre post turn, t.body.stamped = false) (n : NodeId) :
    Recent c (note s l r) (s.shared.apply turn.act) n (s.shared.apply turn.act).lastCmdTime := by
  have hv : v ∈ s.threads := mover_mem hthreads
  cases hstamped : v.body.stamped with
  | true =>
      obtain ⟨hsame, hpast, hrecent⟩ :=
        returned_recent hs hv hthreads hturn hok hstamped hquiet n
      have hlast : (s.shared.apply turn.act).lastCmdTime ≤ s.shared.now := by rwa [hsame]
      intro hn
      have hnow := moved_recent hs hv hturn l n _ le_rfl hrecent hn
      exact hnow.mono (fun _ he => he) hlast
  | false =>
      rcases s.shared.apply_lastCmdTime turn.act with hlast | ⟨ha, -⟩
      · rw [hlast]
        apply moved_recent_of_not_stamped hs hv hturn hstamped
        exact hs.latest (before_move (P := (·.stamped = false)) hthreads hquiet hstamped) n
      · have hacts := Body.turn_acts hturn
        rw [ha] at hacts
        rcases hacts.stampCmd_cases with hmain | ⟨data, hcmd⟩
        · have hlocal := hs.local_fresh v hv
          rw [hmain] at hlocal
          have hzero := (hs.idle (hlocal rfl)).2.2 n
          rw [ha]
          exact fun hn => absurd hzero hn
        · rw [hcmd] at hturn
          cases hturn
          have hloads := hquiet ⟨.cmd (.load data), s.shared.now + 0⟩
            (by simp [afterMove, Turn.threads, cmdCallback])
          cases hloads

/-- A tick that is past its watchdog has left no target older than the timeout. -/
theorem watchdog_recent (hs : Fresh c T s r) (hthreads : s.threads = pre ++ v :: post)
    (hturn : v.body.turn c s task = some turn)
    (hok : SpeedsWatched c s (.thread pre.length task)) (hwatch : v.body.inWatchdog = true)
    (hquiet : ∀ t ∈ afterMove s pre post turn,
      t.body.stamped = false ∧ t.body.inWatchdog = false) (n : NodeId) :
    Recent c r s.shared n (s.shared.now - c.cmdTimeoutSec) := by
  have hv : v ∈ s.threads := mover_mem hthreads
  have hlocal := hs.local_fresh v hv
  have hmover : s.mover (.thread pre.length task) = some v.body := mover_eq hthreads
  have hself : ∀ u, turn.self = some u → u.inWatchdog = false := by
    intro u hu
    exact (hquiet ⟨u, s.shared.now + turn.sleep⟩ (by simp [afterMove, Turn.self_mem hu])).2
  have hlatest : v.body.stamped = false → Recent c r s.shared n s.shared.lastCmdTime := by
    intro hstamped
    exact hs.latest (before_move (P := (·.stamped = false)) hthreads
      (fun t ht => (hquiet t ht).1) hstamped) n
  have hyoung : v.body.stamped = false → s.shared.now - s.shared.lastCmdTime ≤ c.cmdTimeoutSec →
      Recent c r s.shared n (s.shared.now - c.cmdTimeoutSec) := by
    intro hstamped hle hn
    exact (hlatest hstamped hn).mono (fun _ he => he) (by linarith)
  obtain ⟨body, wake⟩ := v
  cases body with
  | control pc =>
      cases pc with
      | watchdogLoad =>
          cases hturn
          have hoff : s.shared.motorsEnabled = false := by
            by_contra hon
            have hnext := hself (.control .watchdogTime)
              (congrArg (fun pc => some (Body.control pc))
                (if_pos (Bool.eq_true_of_not_eq_false hon)))
            cases hnext
          rcases (hok _ hmover hoff).1 rfl with hle | hzero
          · exact hyoung rfl hle
          · exact fun hn => absurd (hs.target_zero hzero n) hn
      | watchdogTime =>
          cases hturn
          apply hyoung rfl
          by_contra hold
          have hnext := hself (.control (.watchdogZero c.driveMotorIds))
            (congrArg (fun pc => some (Body.control pc)) (if_pos (not_le.mp hold)))
          cases hnext
      | watchdogZero rest =>
          cases rest with
          | nil => exact hlocal n (by simp)
          | cons node rest =>
              cases hturn
              have hnext := hself _ rfl
              cases hnext
      | _ => cases hwatch
  | _ => cases hwatch

theorem mains_after (hthreads : s.threads = pre ++ v :: post)
    (hturn : v.body.turn c s task = some turn) :
    tokens mainToken (afterMove s pre post turn) ≤ tokens mainToken s.threads := by
  change tokens (kindToken .main) (pre ++ turn.threads s.shared.now ++ post) ≤
    tokens (kindToken .main) s.threads
  exact kindTokens_moved (fun u now h => h.kind_ne_main) hthreads hturn

/-- No other thread is in the constructor while the main thread starts the spinner. -/
theorem not_ticks_of_beforeSpin (hs : Fresh c T s r) (hthreads : s.threads = pre ++ v :: post)
    {u : Thread} (hu : u ∈ pre ++ post) (hbefore : u.body.beforeSpin = true) :
    s.ticks (.thread pre.length task) = false := by
  by_contra hticks
  have hv := ticks_of_moved hthreads (Bool.eq_true_of_not_eq_false hticks)
  have htwo : mainToken v + mainToken u ≤ tokens mainToken s.threads := by
    rw [hthreads]
    exact add_le_tokens hu
  have hmain : mainToken u = 1 := by
    unfold mainToken
    generalize u.body = b at hbefore ⊢
    cases b with
    | main pc => rfl
    | _ => cases hbefore
  have hmain' : mainToken v = 1 := by
    simp [mainToken, hv, Body.kind]
  have hone := hs.mains
  omega

/-- A node that is no drive has no target. -/
theorem recent_of_not_drive (hs : Fresh c T s r) (hv : v ∈ s.threads)
    (hturn : v.body.turn c s task = some turn) (l : Label) (hn : n ∉ c.driveMotorIds)
    (since : Time) : Recent c (note s l r) (s.shared.apply turn.act) n since := by
  intro htarget
  rcases backed_after_turn hturn (hs.local_fresh v hv) htarget with hsame | ⟨-, hnow⟩
  · rw [hsame] at htarget
    exact absurd (hs.bounded n htarget).mem_ids hn
  · exact absurd hnow.mem_ids hn

theorem main_after {pc : Main} {wake : Time} {u : Body} (hs : Fresh c T s r)
    (hthreads : s.threads = pre ++ ⟨.main pc, wake⟩ :: post)
    (hturn : mainThread c s.shared s.threads pc = some turn) (hself : turn.self = some u) :
    LocalFresh c T (s.shared.apply turn.act) (note s (.thread pre.length task) r) u := by
  have hlocal := hs.local_fresh _ (mover_mem hthreads)
  have hkind := mainThread_self hturn hself
  cases u with
  | main pc' =>
      intro hbefore
      obtain ⟨hbefore', hspin⟩ := mainThread_beforeSpin hturn hself hbefore
      have hnone : r.lastTick = none := hlocal hbefore'
      cases hticks : s.ticks (.thread pre.length task) with
      | true => exact absurd (Body.main.inj (ticks_of_moved hthreads hticks)) hspin
      | false => simp [note, hticks, hnone]
  | _ => cases hkind

/-- An accepted message commands the drives still to be stored; a stored one is
as recent. -/
theorem cmd_after {pc : CmdCallback} {wake : Time} {u : Body} (hs : Fresh c T s r)
    (hthreads : s.threads = pre ++ ⟨.cmd pc, wake⟩ :: post)
    (hself : (cmdCallback c s.shared pc).self = some u) :
    LocalFresh c T (s.shared.apply (cmdCallback c s.shared pc).act)
      (note s (.thread pre.length task) r) u := by
  have hv : (⟨.cmd pc, wake⟩ : Thread) ∈ s.threads := mover_mem hthreads
  have hlocal := hs.local_fresh _ hv
  have hturn : (Body.cmd pc).turn c s task = some (cmdCallback c s.shared pc) := rfl
  have hmover : s.mover (.thread pre.length task) = some (.cmd pc) := mover_eq hthreads
  rcases pc with data | data | data | (_ | ⟨⟨node, rpm⟩, rest⟩)
  · dsimp only [cmdCallback] at hself
    split at hself <;> cases hself
    exact not_lt.mp ‹_›
  · cases hself
    exact ⟨hlocal, le_rfl⟩
  · dsimp only [cmdCallback] at hself
    split at hself <;> cases hself
    rename_i hon
    obtain ⟨hlength, hpast⟩ := hlocal
    refine ⟨hpast, ?_, ?_⟩
    · intro p hp
      refine ⟨(s.shared.now, data), ?_, le_rfl, p, hp, rfl, rfl⟩
      simp [note, State.accepts, hmover, hon]
    · intro n hn
      rw [commands_fst hlength] at hn
      exact recent_of_not_drive hs hv hturn _ hn _
  · cases hself
  · cases hself
    obtain ⟨hpast, hrest, hdone⟩ := hlocal
    refine ⟨hpast, ?_, ?_⟩
    · intro p hp
      exact (hrest p (by simp [hp])).mono (note_accepted s _ r) le_rfl
    · intro n hn
      by_cases hnode : n = node
      · intro _
        have hstored : (s.shared.apply (setTargetVelocity node rpm)).drives.target n =
            mounted node rpm :=
          (s.shared.drives.storeTarget_target node n _).trans (if_pos hnode)
        dsimp only [cmdCallback]
        rw [hstored, hnode]
        exact (hrest (node, rpm) (by simp)).mono (note_accepted s _ r) le_rfl
      · exact moved_recent hs hv hturn _ n _ le_rfl (hdone n (by simp [hnode, hn]))

/-- The watchdog leaves no older target behind it. -/
theorem control_after {pc : ControlLoop} {wake : Time} {u : Body} (hs : Fresh c T s r)
    (htimeout : 0 ≤ c.cmdTimeoutSec) (hthreads : s.threads = pre ++ ⟨.control pc, wake⟩ :: post)
    (hself : (controlLoop c s.shared pc).self = some u) :
    LocalFresh c T (s.shared.apply (controlLoop c s.shared pc).act)
      (note s (.thread pre.length task) r) u := by
  have hv : (⟨.control pc, wake⟩ : Thread) ∈ s.threads := mover_mem hthreads
  have hlocal := hs.local_fresh _ hv
  have hturn : (Body.control pc).turn c s task = some (controlLoop c s.shared pc) := rfl
  obtain ⟨pc', rfl, hfollows⟩ := controlLoop_follows hself
  cases hfollows with
  | zeroing => exact fun n hn => recent_of_not_drive hs hv hturn _ hn _
  | zeroed node rest =>
      intro n hn
      by_cases hnode : n = node
      · have hzero : (s.shared.apply (setTargetVelocity node 0)).drives.target n = 0 := by
          refine (s.shared.drives.storeTarget_target node n _).trans ?_
          simp [hnode, mounted]
        exact fun htarget => absurd hzero htarget
      · rw [Shared.apply_now]
        exact moved_recent hs hv hturn _ n _ (by linarith) (hlocal n (by simp [hnode, hn]))
  | recovery => trivial
  | other pc hzero hstart =>
      cases pc' with
      | watchdogZero rest => exact absurd rfl (hzero rest)
      | _ => trivial

/-- The resend loop takes a target that is recent. -/
theorem sync_after {pc : SyncLoop} {u : Body} (hs : Fresh c T s r) (l : Label)
    (hself : (syncLoop c s.shared pc).self = some u) :
    LocalFresh c T (s.shared.apply (syncLoop c s.shared pc).act) (note s l r) u := by
  rcases pc with _ | (_ | ⟨node, rest⟩) | ⟨node, rpm, rest⟩ | _
  · dsimp only [syncLoop] at hself
    split at hself <;> cases hself
    trivial
  · cases hself
    trivial
  · cases hself
    intro htarget
    exact (hs.bounded node htarget).mono (note_accepted s _ r) le_rfl
  · cases hself
    trivial
  · cases hself
    trivial

theorem local_after (hs : Fresh c T s r) (htimeout : 0 ≤ c.cmdTimeoutSec)
    (hthreads : s.threads = pre ++ v :: post) (hturn : v.body.turn c s task = some turn)
    {u : Thread} (hu : u ∈ turn.threads s.shared.now) :
    LocalFresh c T (s.shared.apply turn.act) (note s (.thread pre.length task) r) u.body := by
  rcases turn.mem_threads hu with hself | hspawned
  · have hkind := Body.turn_kind hturn hself
    generalize u.body = ub at hself hkind ⊢
    obtain ⟨body, wake⟩ := v
    cases body with
    | main pc => exact main_after hs hthreads hturn hself
    | cmd pc => cases hturn; exact cmd_after hs hthreads hself
    | control pc => cases hturn; exact control_after hs htimeout hthreads hself
    | sync pc => cases hturn; exact sync_after hs _ hself
    | interlock pc => cases ub <;> trivial
    | transition pc => cases ub <;> trivial
    | recovery pc => cases ub <;> trivial
  · have hspawns := Body.turn_spawns hturn hspawned
    generalize u.body = ub at hspawns ⊢
    cases hspawns <;> trivial

/-- The spinner starts from targets that are all zero. -/
theorem zero_of_ticks (hs : Fresh c T s r) (hthreads : s.threads = pre ++ v :: post)
    (hturn : v.body.turn c s task = some turn)
    (hticks : s.ticks (.thread pre.length task) = true) (n : NodeId) :
    (s.shared.apply turn.act).drives.target n = 0 := by
  have hspin := ticks_of_moved hthreads hticks
  have hlocal := hs.local_fresh v (mover_mem hthreads)
  rw [hspin] at hlocal hturn
  cases hturn
  exact (hs.idle (hlocal rfl)).2.2 n

/-- A move that does not start the spinner leaves the node idle. -/
theorem idle_after (hs : Fresh c T s r) (hthreads : s.threads = pre ++ v :: post)
    (hturn : v.body.turn c s task = some turn)
    (hticks : s.ticks (.thread pre.length task) ≠ true) (hnone : r.lastTick = none) :
    (s.shared.apply turn.act).spinning = false ∧
      anyOf (afterMove s pre post turn) .cmd = false ∧
      ∀ n, (s.shared.apply turn.act).drives.target n = 0 := by
  obtain ⟨hspin, hcmd, hzero⟩ := hs.idle hnone
  refine ⟨?_, ?_, ?_⟩
  · by_contra hon
    rcases s.shared.apply_spinning turn.act (Bool.eq_true_of_not_eq_false hon) with h | ha
    · rw [hspin] at h
      cases h
    · have hacts := Body.turn_acts hturn
      rw [ha] at hacts
      apply hticks
      change (s.mover (.thread pre.length task)).any Body.startsSpinner = true
      rw [mover_eq hthreads, hacts.startSpinning_eq]
      rfl
  · by_contra hany
    have hany' := cmd_of_moved hthreads hturn (Bool.eq_true_of_not_eq_false hany)
    rw [hcmd] at hany'
    cases hany'
  · intro n
    rcases target_after_turn hturn (hzero n) with hz | ⟨rpm, hnext, -⟩
    · exact hz
    · obtain ⟨_, rest, hb, -⟩ := Body.nextCommand_eq_some hnext
      have hany : anyOf s.threads .cmd = true :=
        List.any_eq_true.mpr ⟨v, mover_mem hthreads, by simp [hb, Body.kind]⟩
      rw [hcmd] at hany
      cases hany

/-- The last watchdog has left no older target, whoever moves behind it. -/
theorem watched_after (hs : Fresh c T s r) (htimeout : 0 ≤ c.cmdTimeoutSec)
    (hthreads : s.threads = pre ++ v :: post) (hturn : v.body.turn c s task = some turn)
    (hok : SpeedsWatched c s (.thread pre.length task)) (l : Label)
    (hquiet : ∀ t ∈ afterMove s pre post turn,
      t.body.stamped = false ∧ t.body.inWatchdog = false)
    {tick : Time} (htick : tick ∈ r.lastTick) (n : NodeId) :
    Recent c (note s l r) (s.shared.apply turn.act) n (tick - c.cmdTimeoutSec) := by
  have hv : v ∈ s.threads := mover_mem hthreads
  have hpast : tick ≤ s.shared.now := hs.tick_past tick htick
  have weaken : ∀ since, tick - c.cmdTimeoutSec ≤ since → since ≤ s.shared.now →
      Recent c r s.shared n since →
      Recent c (note s l r) (s.shared.apply turn.act) n (tick - c.cmdTimeoutSec) :=
    fun since hle hnow h hn =>
      (moved_recent hs hv hturn l n since hnow h hn).mono (fun _ he => he) hle
  cases hstamped : v.body.stamped with
  | true =>
      obtain ⟨-, -, h⟩ := returned_recent hs hv hthreads hturn hok hstamped
        (fun t ht => (hquiet t ht).1) n
      exact weaken _ (by linarith) le_rfl h
  | false =>
      cases hwatch : v.body.inWatchdog with
      | true =>
          exact weaken _ (by linarith) (by linarith)
            (watchdog_recent hs hthreads hturn hok hwatch hquiet n)
      | false =>
          apply moved_recent_of_not_stamped hs hv hturn hstamped
          exact hs.watched (before_move
            (P := fun b => b.stamped = false ∧ b.inWatchdog = false) hthreads hquiet
            ⟨hstamped, hwatch⟩) tick htick n

/-- The move of a thread keeps the speeds recent. -/
theorem move_fresh (hs : Fresh c T s r) (hT : 0 ≤ T) (htimeout : 0 ≤ c.cmdTimeoutSec)
    (hthreads : s.threads = pre ++ v :: post) (hturn : v.body.turn c s task = some turn)
    (hok : SpeedsWatched c s (.thread pre.length task)) :
    Fresh c T ⟨s.shared.apply turn.act, afterMove s pre post turn⟩
      (note s (.thread pre.length task) r) := by
  have hrecent := moved_recent hs (mover_mem hthreads) hturn (.thread pre.length task)
  refine ⟨(mains_after hthreads hturn).trans hs.mains, ?_, ?_, ?_, ?_, ?_, ?_⟩
  · intro tick htick
    dsimp only [note] at htick ⊢
    rw [Shared.apply_now]
    split at htick
    · exact (Option.some.inj htick).ge
    · exact hs.tick_past tick htick
  · intro hnone
    dsimp only [note] at hnone
    split at hnone
    · cases hnone
    · exact idle_after hs hthreads hturn ‹_› hnone
  · intro n
    dsimp only
    rw [Shared.apply_now]
    exact hrecent n _ (by linarith) (hs.bounded n)
  · exact latest_after hs hthreads hturn hok _
  · intro hquiet tick htick n
    dsimp only [note] at htick
    split at htick
    · rename_i hticks
      exact fun hn => absurd (zero_of_ticks hs hthreads hturn hticks n) hn
    · exact watched_after hs htimeout hthreads hturn hok _ hquiet htick n
  · intro u hu
    rcases mem_replaced.mp hu with hus | hother
    · exact local_after hs htimeout hthreads hturn hus
    · have hmem : u ∈ s.threads := other_mem hthreads hother
      refine (hs.local_fresh u hmem).carry htimeout (Shared.apply_now _ _) ?_
        (note_accepted s _ r) hrecent ?_
      · intro hpast
        rcases s.shared.apply_lastCmdTime turn.act with h | ⟨-, h⟩
        · rwa [h]
        · exact h.le
      · intro hbefore hnone
        simp [note, not_ticks_of_beforeSpin hs hthreads hother hbefore, hnone]

end Moves

theorem step_fresh {r : Record} (hs : Fresh c T s r) (hT : 0 ≤ T)
    (htimeout : 0 ≤ c.cmdTimeoutSec) (htimely : Timely T (s, r) l) (hok : SpeedsWatched c s l)
    (h : step c s l = some s') : Fresh c T s' (note s l r) := by
  cases step_cases h with
  | delayed d hd => exact delay_fresh hs hd htimely
  | received f => exact receive_fresh hs htimeout f
  | called hspin hb => exact call_fresh hs htimeout hspin hb
  | moved hthreads hwake hturn => exact move_fresh hs hT htimeout hthreads hturn hok

/-- A speed that the resend loop sends is recent. -/
theorem step_recentSpeed {r : Record} (hs : Fresh c T s r) (h : step c s l = some s') :
    RecentSpeed c T (s, r) l := by
  intro a ha p hp hne
  cases step_cases h with
  | delayed d => cases ha
  | received f => cases ha
  | called hspin hb =>
      rw [hb.actionOf_eq_none] at ha
      cases ha
  | @moved task pre post v turn hthreads hwake hturn hact =>
      rw [hact] at ha
      obtain rfl := Option.some.inj ha
      obtain ⟨rpm, rest, hsend, hcounts⟩ := Body.turn_speed hturn hp hne
      have hrpm : rpm ≠ 0 := by
        rintro rfl
        apply hne
        rw [hcounts]
        simp [truncToInt32]
      have hlocal := hs.local_fresh v (mover_mem hthreads)
      rw [hsend] at hlocal
      obtain ⟨e, he, hsince, q, hq, hnode, htarget⟩ := hlocal hrpm
      refine ⟨e, he, hsince, q, hq, hnode, ?_⟩
      rw [hcounts, htarget]

/-- In every run that keeps its ticks, is not preempted within a callback, a
watchdog or a sending, and in which disabled motors hide no speed, every speed sent
comes from a message accepted at most `cmd_timeout_sec_ + T` before. -/
theorem recent_speeds (c : Config) (T now : Time) (ls : List Label) (hT : 0 ≤ T)
    (htimeout : 0 ≤ c.cmdTimeoutSec)
    (hticks : Along (recorded c) (fun w l _ => TicksEvery T w l) (start c now, {}) ls)
    (hwhole : Along (recorded c) (fun w l _ => Unpreempted w.1 l) (start c now, {}) ls)
    (hok : Along (recorded c) (fun w l _ => SpeedsWatched c w.1 l) (start c now, {}) ls) :
    Along (recorded c) (fun w l _ => RecentSpeed c T w l) (start c now, {}) ls := by
  have htimely : Along (recorded c) (fun w l _ => Timely T w l) (start c now, {}) ls :=
    hticks.and hwhole
  have keep : ∀ (w : State × Record) l w', Fresh c T w.1 w.2 →
      (Timely T w l ∧ SpeedsWatched c w.1 l) → recorded c w l = some w' →
      Fresh c T w'.1 w'.2 := by
    rintro ⟨s, r⟩ l ⟨s', r'⟩ hs ⟨ht, hw⟩ h
    obtain ⟨hstep, rfl⟩ := observe_eq_some h
    exact step_fresh hs hT htimeout ht hw hstep
  have good : ∀ (w : State × Record) l w', Fresh c T w.1 w.2 →
      (Timely T w l ∧ SpeedsWatched c w.1 l) → recorded c w l = some w' →
      RecentSpeed c T w l := by
    rintro ⟨s, r⟩ l ⟨s', r'⟩ hs - h
    exact step_recentSpeed hs (observe_eq_some h).1
  exact along_of_invariant keep good (start_fresh c T now) (htimely.and hok)

/-- A command, its resending, and a tick half a second later. -/
def commandAndTick : List Label :=
  bringUp ++ command 100 ++ moves 1 3 ++ [Label.delay (1 / 2), .tick] ++ moves 2 3

theorem recent_speeds_commandAndTick :
    Along (recorded oneDrive) (fun w l _ => RecentSpeed oneDrive 2 w l) (start oneDrive 100, {})
      commandAndTick :=
  recent_speeds oneDrive 2 100 commandAndTick (by decide) (by decide) (by decide +kernel)
    (by decide +kernel) (by decide +kernel)

/-- A recovery fails at 100 rpm; the ticks go on every second, the last message
came before the failure, and the resend loop comes back two seconds after it. -/
def staleSpeed : List Label :=
  failedRecovery ++ moves 2 1 ++ [Label.tick] ++ moves 2 17 ++ [Label.delay 1, .tick] ++
  moves 2 1 ++ [Label.delay 1] ++ moves 1 2

/-- The ticks see disabled motors and skip the watchdog, so a speed 2.45 s old
is sent although timeout and period add up to 2 s. -/
theorem stale_speed_sent :
    Along (recorded oneDrive) (fun w l _ => Timely 1 w l) (start oneDrive 100, {})
        (staleSpeed ++ [.thread 1 0]) ∧
      (run (recorded oneDrive) (start oneDrive 100, {}) (staleSpeed ++ [.thread 1 0])).isSome =
        true ∧
      ¬ Along (recorded oneDrive) (fun w l _ => RecentSpeed oneDrive 1 w l)
        (start oneDrive 100, {}) (staleSpeed ++ [.thread 1 0]) := by
  refine ⟨by decide +kernel, by decide +kernel, ?_⟩
  intro hrecent
  have hstale : ((run (recorded oneDrive) (start oneDrive 100, {}) staleSpeed).map fun w =>
      decide ((recorded oneDrive w (.thread 1 0)).isSome = true ∧
        actionOf oneDrive w.1 (.thread 1 0) = some (.write (sendVelocityCommand 1 100)) ∧
        ∀ e ∈ w.2.accepted, e.1 < w.1.shared.now - (oneDrive.cmdTimeoutSec + 1))) =
      some true := by decide +kernel
  obtain ⟨w, hrun, hw⟩ := Option.map_eq_some_iff.mp hstale
  obtain ⟨hsome, hact, hold⟩ := of_decide_eq_true hw
  obtain ⟨w', hsend⟩ := Option.isSome_iff_exists.mp hsome
  have hspeed := hrecent.after_prefix hrun hsend _ hact
  obtain ⟨e, he, hle, -⟩ := hspeed _ rfl (by decide +kernel)
  exact absurd hle (not_le_of_gt (hold e he))

end PolishingRobot.Motor
