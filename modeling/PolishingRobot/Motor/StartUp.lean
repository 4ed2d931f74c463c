import PolishingRobot.Motor.InterlockChanges

/-!
# From the constructor to the spinner

Until the main thread has committed its first goal, it runs beside the resend
loop alone, so nobody can have taken the flag before it. When callbacks are
called, the first goal has been committed.
-/

namespace PolishingRobot.Motor

open Runs

variable {c : Config} {σ : Shared} {s s' : State} {task : Nat} {turn : Turn} {l : Label}
  {b : Body}

/-- The main thread before the end of its first `updateEnableState`. -/
def Main.early : Main → Bool
  | .configure _ | .configuring _ _ _ | .startSync | .subscribe | .update _ => true
  | _ => false

/-- Main threads are counted. -/
def Body.mains : Body → Nat
  | .main _ => 1
  | _ => 0

/-- A thread of the starting node. -/
def Body.starting : Body → Bool
  | .main pc => pc.early
  | .sync _ => true
  | _ => false

/-- The node is starting, or the first goal has been committed and the main
thread is past it. -/
inductive Phase (s : State) : Prop
  | starting (hinit : s.shared.brakeFbInitialized = false) (hspin : s.shared.spinning = false)
      (hthreads : ∀ u ∈ s.threads, u.body.starting = true)
      (hmain : tokens (fun u : Thread => u.body.mains) s.threads ≤ 1)
  | started (hinit : s.shared.brakeFbInitialized = true)
      (hthreads : ∀ u ∈ s.threads, ∀ pc, u.body = .main pc → pc.early = false)

theorem start_phase (c : Config) (now : Time) : Phase (start c now) := by
  refine .starting rfl rfl ?_ le_rfl
  intro u hu
  obtain rfl := List.mem_singleton.mp hu
  change Main.early (if c.canOpen then _ else _) = true
  split <;> rfl

/-- What one access of a starting thread leaves: a starting thread and at most
the resend loop beside it, or the committed goal. -/
inductive EarlyTurn (b : Body) (turn : Turn) : Prop
  | goesOn (hself : ∀ u ∈ turn.self, u.starting = true ∧ u.mains ≤ b.mains)
      (hspawned : ∀ u ∈ turn.spawned, u.kind = .sync)
      (hact : ∀ σ : Shared, (σ.apply turn.act).brakeFbInitialized = σ.brakeFbInitialized ∧
        (σ.apply turn.act).spinning = σ.spinning)
  | commits (want : Bool) (hmain : b.mains = 1) (hact : turn.act = .commit want)
      (hself : turn.self = some (.main .spin)) (hspawned : ∀ u ∈ turn.spawned, u.kind = .transition)

theorem isDrive_keeps {a : Action} (h : a.isDrive) (σ : Shared) :
    (σ.apply a).brakeFbInitialized = σ.brakeFbInitialized ∧
      (σ.apply a).spinning = σ.spinning := by
  cases a <;> first | exact ⟨rfl, rfl⟩ | cases h

/-- A main thread that stays early and starts nothing but the resend loop. -/
theorem EarlyTurn.main {pc : Main} (pc' : Main) (hself : turn.self = some (.main pc'))
    (hearly : pc'.early = true) (hspawned : turn.spawned = none ∨ turn.spawned = some (.sync .head))
    (hact : ∀ σ : Shared, (σ.apply turn.act).brakeFbInitialized = σ.brakeFbInitialized ∧
      (σ.apply turn.act).spinning = σ.spinning) : EarlyTurn (.main pc) turn := by
  refine .goesOn ?_ ?_ hact
  · intro u hu
    obtain rfl := Option.some.inj (hself.symm.trans hu)
    exact ⟨hearly, le_rfl⟩
  · intro u hu
    rcases hspawned with h | h
    · rw [h] at hu
      cases hu
    · rw [h] at hu
      cases hu
      rfl

theorem mainThread_early {threads : List Thread} {pc : Main}
    (h : mainThread c σ threads pc = some turn) (hearly : pc.early = true)
    (hinit : σ.brakeFbInitialized = false)
    (hflag : ∀ want, pc = .update (.exchange want) → σ.transitionInProgress = false) :
    EarlyTurn (.main pc) turn := by
  cases pc with
  | configure rest =>
      cases rest with
      | nil => cases h; exact .main _ rfl rfl (.inl rfl) fun _ => ⟨rfl, rfl⟩
      | cons node rest => cases h; exact .main _ rfl rfl (.inl rfl) fun _ => ⟨rfl, rfl⟩
  | configuring node rest pc =>
      cases h
      have hkeeps := isDrive_keeps (configureNode_isDrive node pc)
      rw [← Move.turn_act] at hkeeps
      cases hnext : (configureNode node pc).next with
      | inl pc' =>
          refine .main (.configuring node rest pc') ?_ rfl (.inl ?_) hkeeps <;>
            simp [Move.turn, hnext]
      | inr r =>
          refine .main (.configure rest) ?_ rfl (.inl ?_) hkeeps <;>
            simp [Move.turn, hnext]
  | startSync => cases h; exact .main _ rfl rfl (.inr rfl) fun _ => ⟨rfl, rfl⟩
  | subscribe => cases h; exact .main _ rfl rfl (.inl rfl) fun _ => ⟨rfl, rfl⟩
  | update pc =>
      obtain ⟨m, hm, rfl⟩ := Option.map_eq_some_iff.mp h
      cases pc with
      | lock =>
          rw [updateEnableState] at hm
          split at hm <;> cases hm
          exact .main _ rfl rfl (.inl rfl) fun _ => ⟨rfl, rfl⟩
      | loadTraction => cases hm; exact .main _ rfl rfl (.inl rfl) fun _ => ⟨rfl, rfl⟩
      | loadBrake traction => cases hm; exact .main _ rfl rfl (.inl rfl) fun _ => ⟨rfl, rfl⟩
      | compare want =>
          rw [updateEnableState, hinit] at hm
          cases hm
          exact .main _ rfl rfl (.inl rfl) fun _ => ⟨rfl, rfl⟩
      | exchange want =>
          rw [updateEnableState, hflag want rfl] at hm
          cases hm
          exact .main _ rfl rfl (.inl rfl) fun _ => ⟨rfl, rfl⟩
      | commit want =>
          cases hm
          refine .commits want rfl rfl rfl ?_
          rintro b ⟨⟩
          rfl
  | _ => cases hearly

theorem syncLoop_early (pc : SyncLoop) : EarlyTurn (.sync pc) (syncLoop c σ pc) := by
  refine .goesOn ?_ ?_ ?_
  · intro u hu
    have hkind := syncLoop_self hu
    cases u with
    | sync pc' => exact ⟨rfl, le_rfl⟩
    | _ => cases hkind
  · unfold syncLoop
    split <;> exact nofun
  · intro σ'
    unfold syncLoop
    split <;> exact ⟨rfl, rfl⟩

/-- In the starting node nobody has taken the flag behind the main thread's back. -/
theorem flag_of_starting {pre post : List Thread} {t : Thread} {want : Bool}
    (hthreads : s.threads = pre ++ t :: post)
    (hstarting : ∀ u ∈ s.threads, u.body.starting = true)
    (hmain : tokens (fun u : Thread => u.body.mains) s.threads ≤ 1)
    (hflags : tokens Role.flags (s.threads.map fun t => t.body.role) =
      s.shared.transitionInProgress.toNat)
    (ht : t.body = .main (.update (.exchange want))) : s.shared.transitionInProgress = false := by
  by_contra hflag
  rw [Bool.not_eq_false] at hflag
  rw [hflag] at hflags
  have hheld : 0 < tokens Role.flags (s.threads.map fun t => t.body.role) := by
    rw [hflags]
    decide
  obtain ⟨r, hr, hpos⟩ := exists_of_tokens_pos hheld
  obtain ⟨u, hu, rfl⟩ := List.mem_map.mp hr
  have hstart := hstarting u hu
  rw [hthreads] at hu hmain
  rcases mem_at.mp hu with rfl | hother
  · rw [ht] at hpos
    cases hpos
  · have hone := add_le_tokens (w := fun u : Thread => u.body.mains) (t := t) hother
    generalize hb : u.body = b at hstart hpos
    cases b with
    | main pc =>
        rw [ht, hb] at hone
        have htwo : 1 + 1 ≤ _ := hone
        omega
    | sync pc => cases hpos
    | _ => cases hstart

theorem mains_eq : (fun u : Thread => u.body.mains) = kindToken .main := by
  funext ⟨body, wake⟩
  cases body <;> rfl

/-- Past its first goal the main thread never starts again. -/
theorem mainThread_late {threads : List Thread} {pc pc' : Main}
    (h : mainThread c σ threads pc = some turn) (hlate : pc.early = false)
    (hself : turn.self = some (.main pc')) : pc'.early = false := by
  cases pc with
  | spin => cases h; cases hself; rfl
  | running =>
      rw [mainThread] at h
      split at h <;> cases h
      cases hself; rfl
  | destroyNode pc =>
      cases h
      rcases Move.turn_self hself with ⟨pc', -, hinside⟩ | ⟨_, -, hback⟩
      · cases hinside; rfl
      · cases hback; rfl
  | stopSync => cases h; cases hself; rfl
  | joinSync =>
      rw [mainThread] at h
      split at h <;> cases h
      cases hself; rfl
  | destroyController pc =>
      cases h
      rcases Move.turn_self hself with ⟨pc', -, hinside⟩ | ⟨_, -, hback⟩
      · cases hinside; rfl
      · cases hback
  | _ => cases hlate

section Moved

variable {pre post : List Thread} {t : Thread}

/-- A move in the started node. -/
theorem moved_started (hthreads : s.threads = pre ++ t :: post)
    (hturn : t.body.turn c s task = some turn) (hinit : s.shared.brakeFbInitialized = true)
    (hlate : ∀ u ∈ s.threads, ∀ pc, u.body = .main pc → pc.early = false) :
    Phase ⟨s.shared.apply turn.act, pre ++ turn.threads s.shared.now ++ post⟩ := by
  refine .started ((Body.turn_plays hturn).initialized hinit) ?_
  intro u hu pc hpc
  rcases Body.threads_after hturn hu with hself | hspawns | hother
  · rw [hpc] at hself
    have hkind := Body.turn_kind hturn hself
    generalize hb : t.body = b at hturn hkind
    cases b with
    | main pc' => exact mainThread_late hturn (hlate t (mover_mem hthreads) pc' hb) hself
    | _ => cases hkind
  · rw [hpc] at hspawns
    exact absurd rfl hspawns.kind_ne_main
  · exact hlate u (other_mem hthreads hother) pc hpc

/-- A move in the starting node. -/
theorem moved_starting (hthreads : s.threads = pre ++ t :: post)
    (hturn : t.body.turn c s task = some turn) (hearly : EarlyTurn t.body turn)
    (hinit : s.shared.brakeFbInitialized = false) (hspin : s.shared.spinning = false)
    (hstarting : ∀ u ∈ s.threads, u.body.starting = true)
    (hmain : tokens (fun u : Thread => u.body.mains) s.threads ≤ 1) :
    Phase ⟨s.shared.apply turn.act, pre ++ turn.threads s.shared.now ++ post⟩ := by
  cases hearly with
  | goesOn hself hspawned hkeeps =>
      refine .starting ((hkeeps _).1.trans hinit) ((hkeeps _).2.trans hspin) ?_ ?_
      · intro u hu
        rcases mem_replaced.mp hu with hmine | hother
        · rcases turn.mem_threads hmine with hu' | hu'
          · exact (hself _ hu').1
          · have hsync := hspawned _ hu'
            generalize u.body = b at hsync
            cases b with
            | sync pc => rfl
            | _ => cases hsync
        · exact hstarting u (other_mem hthreads hother)
      · rw [mains_eq] at hmain ⊢
        exact (kindTokens_moved (fun _ _ h => h.kind_ne_main) hthreads hturn).trans hmain
  | commits want hone hcommit hself hspawned =>
      refine .started (by rw [hcommit]; rfl) ?_
      intro u hu pc hpc
      rcases Body.threads_after hturn hu with hu' | hspawns | hother
      · rw [hpc] at hu'
        cases hself.symm.trans hu'
        rfl
      · rw [hpc] at hspawns
        exact absurd rfl hspawns.kind_ne_main
      · -- Another main thread would be a second one.
        rw [hthreads] at hmain
        have htwo := add_le_tokens (w := fun u : Thread => u.body.mains) (t := t) hother
        rw [hpc, hone] at htwo
        have hsecond : (Body.main pc).mains = 1 := rfl
        omega

end Moved

theorem step_phase (hs : Phase s)
    (hflags : tokens Role.flags (s.threads.map fun t => t.body.role) =
      s.shared.transitionInProgress.toNat)
    (h : step c s l = some s') : Phase s' := by
  cases step_cases h with
  | delayed d hd =>
      cases hs with
      | starting hinit hspin hthreads hmain => exact .starting hinit hspin hthreads hmain
      | started hinit hthreads => exact .started hinit hthreads
  | received f hopen =>
      cases hs with
      | starting hinit hspin hthreads hmain => exact .starting hinit hspin hthreads hmain
      | started hinit hthreads => exact .started hinit hthreads
  | @called _ b hspin hb =>
      cases hs with
      | starting hinit hspin' => rw [hspin] at hspin'; cases hspin'
      | started hinit hthreads =>
          refine .started hinit ?_
          intro u hu pc hpc
          rcases List.mem_append.mp hu with hold | hnew
          · exact hthreads u hold pc hpc
          · obtain rfl := List.mem_singleton.mp hnew
            cases hpc
            cases hb
  | @moved task pre post t turn hthreads hwake hturn hact =>
      cases hs with
      | started hinit hlate => exact moved_started hthreads hturn hinit hlate
      | starting hinit hspin hstarting hmain =>
          refine moved_starting hthreads hturn ?_ hinit hspin hstarting hmain
          have hstart := hstarting t (mover_mem hthreads)
          generalize hb : t.body = b at hturn hstart ⊢
          cases b with
          | sync pc => cases hturn; exact syncLoop_early pc
          | main pc =>
              refine mainThread_early hturn hstart hinit fun want hpc => ?_
              subst hpc
              exact flag_of_starting hthreads hstarting hmain hflags hb
          | _ => cases hstart

/-- In every reachable state in which callbacks are called, the first goal has
been committed and the main thread is past it. -/
theorem reachable_phase {now : Time} (h : Reachable (step c) (start c now) s) : Phase s := by
  have hstart : Reachable (step c) (start c now) (start c now) ∧ Phase (start c now) :=
    ⟨⟨[], rfl⟩, start_phase c now⟩
  have keep : ∀ s l s', Reachable (step c) (start c now) s ∧ Phase s → step c s l = some s' →
      Reachable (step c) (start c now) s' ∧ Phase s' := fun s l s' hs hl =>
    ⟨hs.1.step hl, step_phase hs.2 (one_holder hs.1).1 hl⟩
  exact (invariant_of_reachable keep hstart h).2

end PolishingRobot.Motor
