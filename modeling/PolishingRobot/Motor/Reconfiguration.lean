import PolishingRobot.Motor.LateServoOn
import PolishingRobot.Motor.OwnFrames

/-!
# Reconfiguration

For five seconds after a configuration has begun, requests for another one are
refused, and only a configuration clears an accepted request. So `reset_motor`
never configures a drive inside the window that the drive's last configuration
has opened, and an accepted request stands until the next one begins.
-/

namespace PolishingRobot.Motor

open Runs

/-- The beginnings of `configure_node` with their times, and the nodes with an
accepted request since their last one. -/
structure Requests where
  begins : List (NodeId × Time) := []
  asked : List NodeId := []

/-- The node whose `configure_node` begins with a step. -/
def State.begins (c : Config) (s : State) (l : Label) : Option NodeId :=
  match actionOf c s l with
  | some (.beginConfigure node) => some node
  | _ => none

/-- The node that a step calls `request_reinit` for: at a boot-up message, or
when a tick finds its feedback lost. -/
def State.requests (c : Config) (s : State) : Label → Option NodeId
  | .can f =>
      if f.node ∈ c.driveMotorIds ∧ f.functionCode = 0x700 ∧ f.dlc = 1 ∧ f.byte 0 = 0 then
        some f.node
      else none
  | l =>
      match actionOf c s l with
      | some (.requestReinit node) => some node
      | _ => none

/-- The request comes not before `reinit_suppress_until`. -/
def State.accepted (c : Config) (s : State) (l : Label) : Option NodeId :=
  (s.requests c l).filter fun node => (s.shared.drives node).reinitSuppressUntil ≤ s.shared.now

def noteRequests (c : Config) (s : State) (l : Label) (q : Requests) : Requests where
  begins := ((s.begins c l).map fun node => (node, s.shared.now)).toList ++ q.begins
  asked := ((s.accepted c l).toList ++ q.asked).filter fun node => s.begins c l ≠ some node

/-- Steps of the node with the record of its requests. -/
def requesting (c : Config) : State × Requests → Label → Option (State × Requests) :=
  observe (step c) (noteRequests c)

/-- A configuration that a recovery begins comes five seconds after every
earlier beginning for the node, and a node with an accepted request shows it in
`needs_reinit`, also to the loop of `reinit_pending`. -/
structure ReconfiguresInTime (c : Config) (w : State × Requests) (l : Label)
    (w' : State × Requests) : Prop where
  apart : ∀ pc, w.1.mover l = some (.recovery pc) → ∀ n ∈ w.1.begins c l,
    ∀ e ∈ w.2.begins, e.1 = n → e.2 + 5 ≤ w.1.shared.now
  kept : ∀ n ∈ w'.2.asked, (w'.1.shared.drives n).needsReinit = true
  reported : ∀ n rest, w.1.mover l = some (.control (.reinitPending (n :: rest))) →
    n ∈ w.2.asked → (controlLoop c w.1.shared (.reinitPending (n :: rest))).self =
      some (.control .wantTraction)

variable {c : Config} {σ : Shared} {s s' : State} {task : Nat} {turn : Turn} {l : Label}
  {b : Body} {now : Time} {m n : NodeId} {q : Requests} {d : Drives}

/-- What decides about requests for a node. -/
def Drives.reinit (d : Drives) (n : NodeId) : Bool × Time :=
  ((d n).needsReinit, (d n).reinitSuppressUntil)

/-- Rewriting an entry without these two members keeps them. -/
theorem Drives.update_reinit (e : MotorState) (h : (e.needsReinit, e.reinitSuppressUntil) =
    d.reinit m) : Drives.reinit (Function.update d m e) n = d.reinit n := by
  by_cases hn : n = m
  · subst hn
    simpa [Drives.reinit] using h
  · simp [Drives.reinit, hn]

theorem Drives.stampAll_reinit (nodes : List NodeId) :
    (d.stampAll now nodes).reinit n = d.reinit n := by
  induction nodes generalizing d with
  | nil => rfl
  | cons m nodes ih =>
      calc (d.stampAll now (m :: nodes)).reinit n
          = ((d.stampFeedback m now).stampAll now nodes).reinit n := rfl
        _ = (d.stampFeedback m now).reinit n := ih
        _ = d.reinit n := Drives.update_reinit _ rfl

theorem Drives.beginConfigure_reinit : (d.beginConfigure m now).reinit n =
    if m = n then (false, now + 5) else d.reinit n := by
  by_cases h : m = n
  · subst h
    simp [Drives.reinit, Drives.beginConfigure]
  · simp [Drives.reinit, Drives.beginConfigure, h, Ne.symm h]

theorem Drives.requestReinit_reinit : (d.requestReinit m now).reinit n =
    if m = n ∧ (d m).reinitSuppressUntil ≤ now then (true, (d n).reinitSuppressUntil)
    else d.reinit n := by
  unfold Drives.requestReinit
  by_cases hearly : now < (d m).reinitSuppressUntil
  · rw [if_pos hearly, if_neg fun h => absurd h.2 (not_le.mpr hearly)]
  · rw [if_neg hearly]
    by_cases h : m = n
    · subst h
      simp [Drives.reinit, not_lt.mp hearly]
    · simp [Drives.reinit, h, Ne.symm h]

/-- Two accesses write them. -/
theorem Shared.apply_reinit (a : Action) : (σ.apply a).drives.reinit n =
    match a with
    | .beginConfigure m => if m = n then (false, σ.now + 5) else σ.drives.reinit n
    | .requestReinit m =>
        if m = n ∧ (σ.drives m).reinitSuppressUntil ≤ σ.now then
          (true, (σ.drives n).reinitSuppressUntil)
        else σ.drives.reinit n
    | _ => σ.drives.reinit n := by
  cases a with
  | beginConfigure m => exact Drives.beginConfigure_reinit
  | requestReinit m => exact Drives.requestReinit_reinit
  | storeTarget m rpm => exact Drives.update_reinit _ rfl
  | stampFeedback m => exact Drives.update_reinit _ rfl
  | rememberAlarm m => exact Drives.update_reinit _ rfl
  | startSync nodes => exact Drives.stampAll_reinit nodes
  | _ => rfl

/-- A frame that is no boot-up message of a configured node keeps them. -/
theorem canCallback_reinit {nodes : List NodeId} {f : CanFrame}
    (h : ¬ (f.node ∈ nodes ∧ f.functionCode = 0x700 ∧ f.dlc = 1 ∧ f.byte 0 = 0)) :
    (canCallback nodes now f d).reinit n = d.reinit n := by
  rcases canCallback_cases nodes now f d with hsame | ⟨hnode, service, hcode, hcomplete, hreceive⟩
  · rw [hsame]
  · rw [hreceive]
    cases service with
    | bootUp => exact absurd ⟨hnode, UInt16.toNat_inj.mp hcode, hcomplete⟩ h
    | tpdo1 => exact Drives.update_reinit _ rfl
    | tpdo2 => exact Drives.update_reinit _ rfl
    | tpdo3 => exact Drives.update_reinit _ rfl

theorem accepted_iff : s.accepted c l = some n ↔
    s.requests c l = some n ∧ (s.shared.drives n).reinitSuppressUntil ≤ s.shared.now := by
  simp [State.accepted, Option.filter_eq_some_iff]

theorem begins_iff : s.begins c l = some n ↔ actionOf c s l = some (.beginConfigure n) := by
  unfold State.begins
  split
  · rename_i node hact
    rw [hact]
    constructor
    · intro h
      rw [Option.some.inj h]
    · intro h
      rw [Action.beginConfigure.inj (Option.some.inj h)]
  · rename_i hnot
    constructor
    · intro h
      cases h
    · intro h
      exact absurd h (hnot n)

/-- A step clears the flag and opens the window where a configuration begins,
sets the flag where a request is accepted, and changes nothing elsewhere. -/
theorem step_reinit (h : step c s l = some s') (n : NodeId) :
    s'.shared.drives.reinit n =
      if s.begins c l = some n then (false, s.shared.now + 5)
      else if s.accepted c l = some n then (true, (s.shared.drives n).reinitSuppressUntil)
      else s.shared.drives.reinit n := by
  simp only [begins_iff, accepted_iff]
  cases step_cases h with
  | delayed delay hd => rfl
  | called hspin hb => cases hb <;> rfl
  | received f hopen =>
      dsimp only
      by_cases hboot : f.node ∈ c.driveMotorIds ∧ f.functionCode = 0x700 ∧ f.dlc = 1 ∧ f.byte 0 = 0
      · rw [canCallback_receives hboot.1 .bootUp (by rw [hboot.2.1]; rfl) hboot.2.2,
          Service.receive, Drives.requestReinit_reinit]
        by_cases hn : f.node = n
        · subst hn
          simp [actionOf, State.requests, hboot]
        · simp [actionOf, State.requests, hboot, hn]
      · rw [canCallback_reinit hboot]
        simp [actionOf, State.requests, hboot]
  | @moved task pre post t turn hthreads hwake hturn hact =>
      dsimp only
      rw [Shared.apply_reinit]
      simp only [State.requests, hact]
      generalize turn.act = a
      cases a with
      | beginConfigure m => simp
      | requestReinit m =>
          by_cases hm : m = n
          · subst hm
            simp
          · simp [hm]
      | _ => simp

/-- A set flag was set before, or its request has just been accepted. -/
theorem needsReinit_of_step (h : step c s l = some s')
    (hn : (s'.shared.drives n).needsReinit = true) : s.begins c l ≠ some n ∧
      (s.accepted c l = some n ∨ (s.shared.drives n).needsReinit = true) := by
  have hentry := congrArg Prod.fst (step_reinit h n)
  change (s'.shared.drives n).needsReinit = _ at hentry
  rw [hn] at hentry
  split at hentry
  · cases hentry
  · rename_i hbegins
    split at hentry
    · exact ⟨hbegins, .inl ‹_›⟩
    · exact ⟨hbegins, .inr hentry.symm⟩

theorem needsReinit_after (h : step c s l = some s') (hbegins : s.begins c l ≠ some n)
    (hn : s.accepted c l = some n ∨ (s.shared.drives n).needsReinit = true) :
    (s'.shared.drives n).needsReinit = true := by
  have hentry := congrArg Prod.fst (step_reinit h n)
  change (s'.shared.drives n).needsReinit = _ at hentry
  rw [if_neg hbegins] at hentry
  split at hentry
  · exact hentry
  · rename_i haccepted
    rw [hentry]
    exact hn.resolve_left haccepted

theorem suppressUntil_after (h : step c s l = some s') (n : NodeId) :
    (s'.shared.drives n).reinitSuppressUntil =
      if s.begins c l = some n then s.shared.now + 5
      else (s.shared.drives n).reinitSuppressUntil := by
  have hentry := congrArg Prod.snd (step_reinit h n)
  change (s'.shared.drives n).reinitSuppressUntil = _ at hentry
  rw [hentry]
  split
  · rfl
  · split <;> rfl

theorem step_now_le (h : step c s l = some s') : s.shared.now ≤ s'.shared.now := by
  cases step_cases h with
  | delayed delay hd => exact le_add_of_nonneg_right hd
  | received f hopen => exact le_rfl
  | called hspin hb => exact le_rfl
  | moved hthreads hwake hturn hact => exact (Shared.apply_now _ _).ge

/-- The node that a recovery is about to configure. -/
def Body.configures : Body → Option NodeId
  | .recovery (.resetting (.configure node _ .begin)) => some node
  | _ => none

theorem enableTask_begins (node : NodeId) (pc : EnableTask) :
    (enableTask σ node pc).act ≠ .beginConfigure m := by
  intro h
  unfold enableTask at h
  repeat' split at h
  all_goals first
    | cases h
    | (rw [Move.call_act, waitForState_act] at h; cases h)

theorem enableMotor_begins {tasks : List Task} {move : Move (List Task) Bool}
    (h : enableMotor σ task tasks = some move) : move.act ≠ .beginConfigure m := by
  unfold enableMotor at h
  split at h
  · cases h
    exact nofun
  · obtain ⟨⟨a, ts⟩, hstep, rfl⟩ := Option.map_eq_some_iff.mp h
    obtain ⟨pre, ⟨node, wake, pc⟩, post, us, -, -, hmove, -⟩ := stepAt_split hstep
    cases pc with
    | inr ok => cases hmove
    | inl pc =>
        dsimp only [Task.step] at hmove
        split at hmove
        · obtain ⟨rfl, -⟩ := Prod.mk.inj (Option.some.inj hmove)
          exact enableTask_begins node pc
        · cases hmove

theorem configureNode_begins {node : NodeId} {pc : ConfigureNode}
    (h : (configureNode node pc).act = .beginConfigure m) : pc = .begin ∧ node = m := by
  unfold configureNode at h
  split at h
  · exact ⟨rfl, Action.beginConfigure.inj h⟩
  all_goals cases h

theorem resetMotor_begins {pc : ResetMotor} {move : Move ResetMotor Bool}
    (h : resetMotor c.driveMotorIds σ task pc = some move) (ha : move.act = .beginConfigure m) :
    ∃ rest, pc = .configure m rest .begin := by
  cases pc with
  | configure node rest pc =>
      cases h
      rw [Move.call_act] at ha
      obtain ⟨rfl, rfl⟩ := configureNode_begins ha
      exact ⟨rest, rfl⟩
  | enabling tasks =>
      obtain ⟨m', hm', rfl⟩ := Option.map_eq_some_iff.mp h
      rw [Move.call_act] at ha
      exact absurd ha (enableMotor_begins hm')
  | reinit rest =>
      cases rest with
      | nil => cases h; cases ha
      | cons node rest => rw [resetMotor] at h; split at h <;> cases h <;> cases ha
  | guard rest =>
      cases rest with
      | nil => cases h; cases ha
      | cons node rest => rw [resetMotor] at h; split at h <;> cases h <;> cases ha
  | faultReset node rest again => cases again <;> cases h <;> cases ha
  | verify rest ok wait =>
      cases rest with
      | nil => cases h; cases ha
      | cons node rest =>
          cases h
          rw [Move.call_act, waitForState_act] at ha
          cases ha

/-- A configuration is begun by a recovery or by `init`. -/
theorem Body.turn_begins (h : b.turn c s task = some turn) (ha : turn.act = .beginConfigure m) :
    b.configures = some m ∨ ∃ rest, b = .main (.configuring m rest .begin) := by
  have hdrives : b.drives = true := by
    have hacts := Body.turn_acts h
    rw [ha] at hacts
    generalize hbegin : Action.beginConfigure m = a at hacts
    cases hacts with
    | drive hb _ => exact hb
    | evaluation _ _ he => subst hbegin; cases he
    | _ => cases hbegin
  have hwrites := Body.turn_procedure h hdrives
  generalize turn.act = a at hwrites ha
  cases hwrites with
  | configures node rest pc =>
      obtain ⟨rfl, rfl⟩ := configureNode_begins ha
      exact .inr ⟨rest, rfl⟩
  | @disables pc hb =>
      unfold disableMotor at ha
      split at ha <;> cases ha
  | sends pc =>
      unfold syncLoop at ha
      split at ha <;> cases ha
  | enables hm => exact absurd ha (enableMotor_begins hm)
  | resets hm =>
      obtain ⟨rest, rfl⟩ := resetMotor_begins hm ha
      exact .inl rfl

/-- Beside a holder of the flag no other thread holds it. -/
theorem flags_of_others {pre post : List Thread} {t u : Thread}
    (hreach : Reachable (step c) (start c now) s) (hthreads : s.threads = pre ++ t :: post)
    (ht : 0 < t.body.role.flags) (hu : u ∈ pre ++ post) : u.body.role.flags = 0 := by
  have hheld := (one_holder hreach).1
  have hbool : s.shared.transitionInProgress.toNat ≤ 1 := Bool.toNat_le _
  have hrole : u.body.role ∈ pre.map (fun t => t.body.role) ++ post.map fun t => t.body.role := by
    rw [← List.map_append]
    exact List.mem_map_of_mem hu
  have htwo := add_le_tokens (w := Role.flags) (t := t.body.role) hrole
  rw [hthreads, List.map_append, List.map_cons] at hheld
  omega

theorem Body.flags_of_configures (h : b.configures = some m) : 0 < b.role.flags := by
  unfold Body.configures at h
  split at h
  · exact Nat.one_pos
  · cases h

/-- While a configuration begins, no other thread is about to begin one. -/
theorem configures_alone {pre post : List Thread} {t u : Thread}
    (hreach : Reachable (step c) (start c now) s) (hthreads : s.threads = pre ++ t :: post)
    (hturn : t.body.turn c s task = some turn) (ha : turn.act = .beginConfigure m)
    (hu : u ∈ pre ++ post) : u.body.configures = none := by
  by_contra hother
  obtain ⟨k, hk⟩ := Option.ne_none_iff_exists'.mp hother
  have hheld := Body.flags_of_configures hk
  have hmem : u ∈ s.threads := other_mem hthreads hu
  rcases Body.turn_begins hturn ha with hrecovery | ⟨rest, hmain⟩
  · have hfree := flags_of_others hreach hthreads (Body.flags_of_configures hrecovery) hu
    omega
  · -- `init` configures before the first goal, when no recovery can run.
    cases reachable_phase hreach with
    | starting _ _ hstarting _ =>
        have hstart := hstarting u hmem
        generalize u.body = b at hk hstart
        cases b with
        | recovery pc => cases hstart
        | _ => cases hk
    | started _ hlate =>
        have hearly := hlate t (mover_mem hthreads) _ hmain
        cases hearly

/-- `reset_motor` comes to a configuration by the flag of the node. -/
theorem resetMotor_configures {pc : ResetMotor} {rest : List NodeId} {m : Move ResetMotor Bool}
    (h : resetMotor c.driveMotorIds σ task pc = some m)
    (hnext : m.next = .inl (.configure n rest .begin)) :
    (σ.drives n).needsReinit = true ∧ m.act = .skip := by
  cases pc with
  | reinit rest' =>
      cases rest' with
      | nil => cases h; cases hnext
      | cons k rest' =>
          rw [resetMotor] at h
          split at h <;> cases h <;> cases hnext
          exact ⟨‹_›, rfl⟩
  | configure k rest' pc =>
      cases h
      rcases Move.call_next hnext with ⟨pc', hpc', hinside⟩ | ⟨_, -, hback⟩
      · cases hinside
        unfold configureNode at hpc'
        split at hpc' <;> cases hpc'
      · cases hback
  | guard rest' =>
      cases rest' with
      | nil => cases h; cases hnext
      | cons k rest' => rw [resetMotor] at h; split at h <;> cases h <;> cases hnext
  | faultReset k rest' again => cases again <;> cases h <;> cases hnext
  | enabling tasks =>
      obtain ⟨m', hm', rfl⟩ := Option.map_eq_some_iff.mp h
      rcases Move.call_next hnext with ⟨_, -, hinside⟩ | ⟨_, -, hback⟩
      · cases hinside
      · cases hback
  | verify rest' ok wait =>
      cases rest' with
      | nil => cases h; cases hnext
      | cons k rest' =>
          cases h
          rcases Move.call_next hnext with ⟨_, -, hinside⟩ | ⟨_, -, hback⟩
          · cases hinside
          · cases hback

/-- A recovery comes to a configuration by the flag of the node. -/
theorem Body.turn_configures {u : Body} (h : b.turn c s task = some turn)
    (hu : turn.self = some u) (hn : u.configures = some n) :
    (s.shared.drives n).needsReinit = true ∧ turn.act = .skip := by
  have hkind := Body.turn_kind h hu
  unfold Body.configures at hn
  split at hn
  · rename_i node rest
    obtain rfl := Option.some.inj hn
    cases b with
    | recovery pc =>
        cases pc with
        | resetting pc =>
            obtain ⟨m, hm, rfl⟩ := Option.map_eq_some_iff.mp h
            rw [Move.turn_act]
            rcases Move.turn_self hu with ⟨pc', hnext, hinside⟩ | ⟨ok, -, hback⟩
            · cases hinside
              exact resetMotor_configures hm hnext
            · cases hback
        | storeEnabled ok => cases h; cases ok <;> cases hu
        | clearError => cases h; cases hu
        | release => cases h; cases hu
    | _ => cases hkind
  · cases hn

/-- Five seconds have passed since every beginning for the node. -/
def Requests.Due (q : Requests) (now : Time) (n : NodeId) : Prop :=
  ∀ e ∈ q.begins, e.1 = n → e.2 + 5 ≤ now

/-- The window of a node lasts five seconds from its last beginning; flags are
set, and configurations prepared, only after that. -/
structure InWindow (c : Config) (s : State) (q : Requests) : Prop where
  past : ∀ e ∈ q.begins, e.2 ≤ s.shared.now
  guarded : ∀ e ∈ q.begins, e.2 + 5 ≤ (s.shared.drives e.1).reinitSuppressUntil
  due : ∀ n, (s.shared.drives n).needsReinit = true → q.Due s.shared.now n
  prepared : ∀ t ∈ s.threads, ∀ n, t.body.configures = some n → q.Due s.shared.now n
  kept : ∀ n ∈ q.asked, (s.shared.drives n).needsReinit = true

theorem start_inWindow (c : Config) (now : Time) : InWindow c (start c now) {} where
  past := nofun
  guarded := nofun
  due _ _ := nofun
  prepared _ _ _ _ := nofun
  kept := nofun

theorem mem_begins_note {e : NodeId × Time} : e ∈ (noteRequests c s l q).begins ↔
    (s.begins c l = some e.1 ∧ e.2 = s.shared.now) ∨ e ∈ q.begins := by
  obtain ⟨node, time⟩ := e
  simp only [noteRequests, List.mem_append, Option.mem_toList,
    Option.map_eq_some_iff, Prod.mk.injEq]
  constructor
  · rintro (⟨k, hk, rfl, rfl⟩ | hold)
    · exact .inl ⟨hk, rfl⟩
    · exact .inr hold
  · rintro (⟨hk, rfl⟩ | hold)
    · exact .inl ⟨_, hk, rfl, rfl⟩
    · exact .inr hold

theorem mem_asked_note : n ∈ (noteRequests c s l q).asked ↔
    (s.accepted c l = some n ∨ n ∈ q.asked) ∧ s.begins c l ≠ some n := by
  simp [noteRequests, or_and_right]

/-- A node that is due stays due until its next beginning. -/
theorem Requests.Due.note (h : q.Due s.shared.now n) (hbegins : s.begins c l ≠ some n)
    (hnow : s.shared.now ≤ now) : (noteRequests c s l q).Due now n := by
  intro e he hn
  rcases mem_begins_note.mp he with ⟨hbegin, -⟩ | hold
  · rw [hn] at hbegin
    exact absurd hbegin hbegins
  · exact (h e hold hn).trans hnow

theorem step_inWindow (hreach : Reachable (step c) (start c now) s) (hs : InWindow c s q)
    (h : step c s l = some s') : InWindow c s' (noteRequests c s l q) := by
  have hnow := step_now_le h
  constructor
  · intro e he
    rcases mem_begins_note.mp he with ⟨-, htime⟩ | hold
    · rw [htime]
      exact hnow
    · exact (hs.past e hold).trans hnow
  · intro e he
    rw [suppressUntil_after h]
    rcases mem_begins_note.mp he with ⟨hbegin, htime⟩ | hold
    · rw [if_pos hbegin, htime]
    · split
      · have hpast := hs.past e hold
        linarith
      · exact hs.guarded e hold
  · intro n hn
    obtain ⟨hbegins, haccepted | hold⟩ := needsReinit_of_step h hn
    · have hopen : q.Due s.shared.now n := by
        intro e he hnode
        have hguard := hs.guarded e he
        rw [hnode] at hguard
        exact hguard.trans (accepted_iff.mp haccepted).2
      exact hopen.note hbegins hnow
    · exact (hs.due n hold).note hbegins hnow
  · intro t ht n hn
    have hkeep : ∀ u ∈ s.threads, u.body.configures = some n → s.begins c l ≠ some n →
        (noteRequests c s l q).Due s'.shared.now n :=
      fun u hu hconfigures hbegins => (hs.prepared u hu n hconfigures).note hbegins hnow
    cases step_cases h with
    | delayed delay hd => exact hkeep t ht hn nofun
    | received f hopen => exact hkeep t ht hn nofun
    | called hspin hb =>
        rcases List.mem_append.mp ht with hold | hnew
        · refine hkeep t hold hn ?_
          rw [Ne, begins_iff, hb.actionOf_eq_none]
          exact nofun
        · obtain rfl := List.mem_singleton.mp hnew
          cases hb <;> cases hn
    | @moved task pre post v turn hthreads hwake hturn hact =>
        rcases Body.threads_after hturn ht with hself | hspawns | hother
        · obtain ⟨hneeds, hskip⟩ := Body.turn_configures hturn hself hn
          refine (hs.due n hneeds).note ?_ hnow
          rw [Ne, begins_iff, hact, hskip]
          exact nofun
        · generalize t.body = b at hspawns hn
          cases hspawns <;> cases hn
        · refine hkeep t (other_mem hthreads hother) hn ?_
          intro hbegins
          have ha : turn.act = .beginConfigure n :=
            Option.some.inj (hact.symm.trans (begins_iff.mp hbegins))
          rw [configures_alone hreach hthreads hturn ha hother] at hn
          cases hn
  · intro n hn
    obtain ⟨hasked, hbegins⟩ := mem_asked_note.mp hn
    exact needsReinit_after h hbegins (hasked.imp_right (hs.kept n))

theorem step_reconfigures (hs : InWindow c s q) (hs' : InWindow c s' (noteRequests c s l q))
    (h : step c s l = some s') :
    ReconfiguresInTime c (s, q) l (s', noteRequests c s l q) := by
  refine ⟨?_, hs'.kept, ?_⟩
  · intro pc hmover n hbegins
    have hact : actionOf c s l = some (.beginConfigure n) := begins_iff.mp hbegins
    cases step_cases h with
    | delayed delay hd => cases hmover
    | received f hopen => cases hmover
    | called hspin hb => rw [hb.mover_eq_none] at hmover; cases hmover
    | @moved task pre post t turn hthreads hwake hturn haction =>
        rw [mover_eq hthreads] at hmover
        have hbody := Option.some.inj hmover
        have ha : turn.act = .beginConfigure n := Option.some.inj (haction.symm.trans hact)
        rcases Body.turn_begins hturn ha with hconfigures | ⟨rest, hmain⟩
        · exact hs.prepared t (mover_mem hthreads) n hconfigures
        · rw [hbody] at hmain
          cases hmain
  · intro n rest hmover hasked
    dsimp only [controlLoop]
    rw [if_pos (hs.kept n hasked)]

/-- In every run, whatever boot-up messages, lost feedback and recoveries come
in between, a recovery configures a drive only five seconds after the drive's
last configuration has begun, and no accepted request is lost before one. -/
theorem reconfigures_in_time (c : Config) (now : Time) (ls : List Label) :
    Along (requesting c) (fun w l w' => ReconfiguresInTime c w l w') (start c now, {}) ls := by
  let Inv (w : State × Requests) : Prop :=
    Reachable (step c) (start c now) w.1 ∧ InWindow c w.1 w.2
  have hstart : Inv (start c now, {}) := ⟨⟨[], rfl⟩, start_inWindow c now⟩
  have keep : ∀ w l w', Inv w → True → requesting c w l = some w' → Inv w' := by
    rintro ⟨s, q⟩ l ⟨s', q'⟩ ⟨hreach, hs⟩ - hl
    obtain ⟨hstep, rfl⟩ := observe_eq_some hl
    exact ⟨hreach.step hstep, step_inWindow hreach hs hstep⟩
  have good : ∀ w l w', Inv w → True → requesting c w l = some w' →
      ReconfiguresInTime c w l w' := by
    rintro ⟨s, q⟩ l ⟨s', q'⟩ ⟨hreach, hs⟩ - hl
    obtain ⟨hstep, rfl⟩ := observe_eq_some hl
    exact step_reconfigures hs (step_inWindow hreach hs hstep) hstep
  refine along_of_invariant keep good hstart ?_
  exact along_of_forall (fun _ _ _ _ => trivial) _ _

/-- The boot-up message of drive 1. -/
def bootUpFrame : Label := .can { extendedBootUp with canId := 0x701 }

/-- A boot-up message right after the constructor falls into the window. -/
example : ((run (step oneDrive) (start oneDrive 100) (construct ++ [bootUpFrame])).map fun s =>
    (s.shared.drives 1).needsReinit) = some false := by decide +kernel

end PolishingRobot.Motor
