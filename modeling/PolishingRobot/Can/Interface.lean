import Mathlib.Data.List.Infix
import Mathlib.Logic.Function.Basic
import PolishingRobot.Runs.LabelledRuns

/-!
# The CAN interface and its reader thread

The owner opens and closes the socket, a thread reads frames from it and hands
them to the callback. Every access to the members and every call into the kernel
is one step. A socket is numbered by the call that made it; a sleep is the time
until the next step.
-/

namespace PolishingRobot.Can

open Runs

variable {F : Type}

/-- A socket receives once it is bound. -/
inductive Socket (F : Type) where
  | closed
  | unbound
  | bound (queue : List F)

namespace Socket

def receive (f : F) : Socket F → Socket F
  | bound queue => bound (queue ++ [f])
  | s => s

def IsBound : Socket F → Prop
  | bound _ => True
  | _ => False

instance (s : Socket F) : Decidable s.IsBound :=
  match s with
  | bound _ => isTrue trivial
  | closed => isFalse id
  | unbound => isFalse id

end Socket

/-- Where `read_loop` is. `got` holds a frame for the callback, and the socket
that it is from. -/
inductive Reader (F : Type) where
  | loop
  | check
  | call
  | inRead (fd : Option ℕ)
  | got (fd : ℕ) (frame : F)
  | finished

/-- Where the owner is in `open` or `close`. Both end with the same two steps when
there is a socket to close. -/
inductive Owner where
  | idle
  | binding
  | starting
  | spawning
  | joining
  | closing
  | forgetting
  deriving DecidableEq

/-- The members, the sockets of the process, and what has happened on each: the
frames that it received and those that the callback was given. -/
structure System (F : Type) where
  canFd : Option ℕ := none
  isRunning : Bool := false
  readThread : Option (Reader F) := none
  owner : Owner := .idle
  opened : ℕ := 0
  sockets : ℕ → Socket F := fun _ => .closed
  arrived : ℕ → List F := fun _ => []
  delivered : ℕ → List F := fun _ => []

inductive Label (F : Type) where
  /-- The owner calls `open`, and `socket` succeeds or not. -/
  | opens (created : Bool)
  /-- The device is found and bound, or not. -/
  | setUp (ok : Bool)
  | closes
  | owner
  | reader
  /-- `read` returns an error or a part of a frame. -/
  | readFails
  | arrive (f : F)

variable (w : System F)

/-- The next step of `open` or `close`. -/
def ownerStep : Option (System F) :=
  match w.owner with
  | .idle | .binding => none
  | .starting => some { w with isRunning := true, owner := .spawning }
  | .spawning => some { w with readThread := some .loop, owner := .idle }
  | .joining =>
      match w.readThread with
      | none | some .finished => some { w with readThread := none, owner := .closing }
      | some _ => none
  | .closing =>
      match w.canFd with
      | none => some { w with owner := .idle }
      | some k =>
          some { w with sockets := Function.update w.sockets k .closed, owner := .forgetting }
  | .forgetting => some { w with canFd := none, owner := .idle }

/-- The next step of `read_loop`. -/
def readerStep : Reader F → Option (System F)
  | .loop => some { w with readThread := some (if w.isRunning then .check else .finished) }
  | .check => some { w with readThread := some (if w.canFd = none then .loop else .call) }
  | .call => some { w with readThread := some (.inRead w.canFd) }
  | .inRead none => none
  | .inRead (some k) =>
      match w.sockets k with
      | .bound (f :: queue) =>
          some { w with
            readThread := some (.got k f)
            sockets := Function.update w.sockets k (.bound queue) }
      | _ => none
  | .got k f =>
      some { w with
        readThread := some .loop
        delivered := Function.update w.delivered k (w.delivered k ++ [f]) }
  | .finished => none

/-- `open` would terminate the process while a thread is joinable. -/
def step : Label F → Option (System F)
  | .opens created =>
      if w.owner = .idle ∧ w.readThread.isNone then
        if created then
          some { w with
            canFd := some w.opened
            opened := w.opened + 1
            sockets := Function.update w.sockets w.opened .unbound
            owner := .binding }
        else some { w with canFd := none }
      else none
  | .setUp ok =>
      match w.owner, w.canFd with
      | .binding, some k =>
          if ok then
            some { w with sockets := Function.update w.sockets k (.bound []), owner := .starting }
          else some { w with owner := .closing }
      | _, _ => none
  | .closes =>
      if w.owner = .idle then some { w with isRunning := false, owner := .joining } else none
  | .owner => ownerStep w
  | .reader => w.readThread.bind (readerStep w)
  | .readFails =>
      match w.readThread with
      | some (.inRead _) => some { w with readThread := some .loop }
      | _ => none
  | .arrive f =>
      some { w with
        sockets := fun k => (w.sockets k).receive f
        arrived := fun k => if (w.sockets k).IsBound then w.arrived k ++ [f] else w.arrived k }

/-- The frame on its way to the callback. -/
def System.inHand (k : ℕ) : List F :=
  match w.readThread with
  | some (.got k' f) => if k' = k then [f] else []
  | _ => []

/-- The reader reads from an open socket alone and hands over its frames in order,
each once; when `close` has returned, there is no reader and no socket. -/
structure Serves : Prop where
  reads : ∀ fd, w.readThread = some (.inRead fd) → ∃ k, fd = some k ∧ (w.sockets k).IsBound
  complete : ∀ k queue, w.sockets k = .bound queue →
    w.delivered k ++ w.inHand k ++ queue = w.arrived k
  ordered : ∀ k, w.delivered k <+: w.arrived k
  stopped : w.owner = .idle → w.isRunning = false →
    w.readThread.isNone ∧ w.canFd = none ∧ ∀ k, w.sockets k = .closed

variable {w} {w' : System F} {l : Label F} {k : ℕ} {f : F}

/-- The reader is in a loop over this socket. -/
def Reader.On (k : ℕ) : Reader F → Prop
  | loop | check | call | finished => True
  | inRead fd => fd = some k
  | got k' _ => k' = k

/-- Where the owner is, and what it has made by then. -/
inductive Phase (w : System F) : Prop
  | shut (howner : w.owner = .idle ∨ w.owner = .joining ∨ w.owner = .closing)
      (hfd : w.canFd = none) (hthread : w.readThread = none) (hrunning : w.isRunning = false)
  | binding (k : ℕ) (howner : w.owner = .binding) (hfd : w.canFd = some k)
      (hunbound : w.sockets k = .unbound) (hthread : w.readThread = none)
      (hrunning : w.isRunning = false)
  | ready (k : ℕ) (howner : w.owner = .starting ∧ w.isRunning = false ∨
        w.owner = .spawning ∧ w.isRunning = true) (hfd : w.canFd = some k)
      (hbound : (w.sockets k).IsBound) (hthread : w.readThread = none)
  | running (k : ℕ) (r : Reader F) (howner : w.owner = .idle) (hfd : w.canFd = some k)
      (hbound : (w.sockets k).IsBound) (hthread : w.readThread = some r) (hon : r.On k)
      (hrunning : w.isRunning = true)
  | stopping (k : ℕ) (r : Reader F) (howner : w.owner = .joining) (hfd : w.canFd = some k)
      (hbound : (w.sockets k).IsBound) (hthread : w.readThread = some r) (hon : r.On k)
      (hrunning : w.isRunning = false)
  | closing (k : ℕ) (howner : w.owner = .closing) (hfd : w.canFd = some k)
      (hthread : w.readThread = none) (hrunning : w.isRunning = false)
  | forgetting (k : ℕ) (howner : w.owner = .forgetting) (hfd : w.canFd = some k)
      (hclosed : w.sockets k = .closed) (hthread : w.readThread = none)
      (hrunning : w.isRunning = false)

/-- At most one socket is open, and the history of each is complete. -/
structure Sound (w : System F) : Prop where
  phase : Phase w
  fresh : ∀ k, w.opened ≤ k → w.sockets k = .closed ∧ w.arrived k = [] ∧ w.delivered k = []
  known : ∀ k, w.canFd = some k → k < w.opened
  single : ∀ k, w.sockets k ≠ .closed → w.canFd = some k
  unheard : ∀ k, w.sockets k = .unbound → w.arrived k = [] ∧ w.delivered k = []
  complete : ∀ k queue, w.sockets k = .bound queue →
    w.delivered k ++ w.inHand k ++ queue = w.arrived k
  ordered : ∀ k, w.delivered k <+: w.arrived k

theorem start_sound : Sound ({} : System F) where
  phase := .shut (.inl rfl) rfl rfl rfl
  fresh := fun _ _ => ⟨rfl, rfl, rfl⟩
  known := by simp
  single := by simp
  unheard := by simp
  complete := by simp
  ordered := fun _ => List.prefix_rfl

theorem Sound.serves (h : Sound w) : Serves w where
  reads := by
    intro fd hread
    cases h.phase with
    | running k r howner hfd hbound hthread hon hrunning =>
        rw [hread] at hthread
        obtain rfl := Option.some.inj hthread
        exact ⟨k, hon, hbound⟩
    | stopping k r howner hfd hbound hthread hon hrunning =>
        rw [hread] at hthread
        obtain rfl := Option.some.inj hthread
        exact ⟨k, hon, hbound⟩
    | _ => simp_all
  complete := h.complete
  ordered := h.ordered
  stopped := by
    intro hidle hstopped
    have hshut : w.canFd = none ∧ w.readThread = none := by
      cases h.phase with
      | shut howner hfd hthread hrunning => exact ⟨hfd, hthread⟩
      | _ => simp_all
    refine ⟨by simp [hshut.2], hshut.1, ?_⟩
    intro k
    by_contra hopen
    have hfd := h.single k hopen
    rw [hshut.1] at hfd
    cases hfd

/-- A step of the threads that leaves the sockets and the histories alone. -/
theorem Sound.congr (h : Sound w) (hphase : Phase w') (hfd : w'.canFd = w.canFd)
    (hopened : w'.opened = w.opened) (hsockets : w'.sockets = w.sockets)
    (harrived : w'.arrived = w.arrived) (hdelivered : w'.delivered = w.delivered)
    (hhand : ∀ k, w'.inHand k = w.inHand k) : Sound w' where
  phase := hphase
  fresh := by
    rw [hopened, hsockets, harrived, hdelivered]
    exact h.fresh
  known := by
    rw [hfd, hopened]
    exact h.known
  single := by
    rw [hsockets, hfd]
    exact h.single
  unheard := by
    rw [hsockets, harrived, hdelivered]
    exact h.unheard
  complete := by
    intro k queue hqueue
    rw [hsockets] at hqueue
    rw [hdelivered, harrived, hhand]
    exact h.complete k queue hqueue
  ordered := by
    rw [hdelivered, harrived]
    exact h.ordered

theorem inHand_of_none (h : w.readThread = none) (k : ℕ) : w.inHand k = [] := by
  simp [System.inHand, h]

/-- A new socket. -/
theorem Sound.opens (h : Sound w) (hidle : w.owner = .idle) (hthread : w.readThread = none) :
    Sound { w with
      canFd := some w.opened
      opened := w.opened + 1
      sockets := Function.update w.sockets w.opened .unbound
      owner := .binding } := by
  have hshut : w.canFd = none ∧ w.isRunning = false := by
    cases h.phase with
    | shut howner hfd hthread hrunning => exact ⟨hfd, hrunning⟩
    | _ => simp_all
  have hclosed : ∀ k, w.sockets k = .closed := by
    intro k
    by_contra hopen
    have hfd := h.single k hopen
    rw [hshut.1] at hfd
    cases hfd
  obtain ⟨-, harrived, hdelivered⟩ := h.fresh w.opened le_rfl
  refine ⟨.binding w.opened rfl rfl (by simp) hthread hshut.2, ?_, ?_, ?_, ?_, ?_, h.ordered⟩
  · intro k hk
    have hne : k ≠ w.opened := by
      have hk : w.opened + 1 ≤ k := hk
      omega
    have hold := h.fresh k (Nat.le_of_succ_le hk)
    refine ⟨?_, hold.2⟩
    exact (Function.update_of_ne hne _ _).trans hold.1
  · intro k hk
    obtain rfl := Option.some.inj hk
    exact Nat.lt_succ_self _
  · intro k hopen
    by_cases hk : k = w.opened
    · rw [hk]
    · exact absurd ((Function.update_of_ne hk _ _).trans (hclosed k)) hopen
  · intro k hunbound
    by_cases hk : k = w.opened
    · rw [hk]
      exact ⟨harrived, hdelivered⟩
    · have hold : w.sockets k = .unbound := (Function.update_of_ne hk _ _).symm.trans hunbound
      exact h.unheard k hold
  · intro k queue hqueue
    by_cases hk : k = w.opened
    · rw [hk] at hqueue
      simp at hqueue
    · have hold : w.sockets k = .bound queue := (Function.update_of_ne hk _ _).symm.trans hqueue
      exact h.complete k queue hold

/-- A socket is bound, before anything has arrived. -/
theorem Sound.binds (h : Sound w) (howner : w.owner = .binding) (hfd : w.canFd = some k) :
    Sound { w with
      sockets := Function.update w.sockets k (.bound []), owner := .starting } := by
  obtain ⟨hunbound, hthread, hrunning⟩ :
      w.sockets k = .unbound ∧ w.readThread = none ∧ w.isRunning = false := by
    cases h.phase with
    | binding k' _ hfd' hunbound hthread hrunning =>
        obtain rfl := Option.some.inj (hfd.symm.trans hfd')
        exact ⟨hunbound, hthread, hrunning⟩
    | _ => simp_all
  obtain ⟨harrived, hdelivered⟩ := h.unheard k hunbound
  refine ⟨.ready k (.inl ⟨rfl, hrunning⟩) hfd ?_ hthread, ?_, h.known, ?_, ?_, ?_, h.ordered⟩
  · change (Function.update w.sockets k (.bound []) k).IsBound
    rw [Function.update_self]
    trivial
  · intro j hj
    have hne : j ≠ k := by
      have hk := h.known k hfd
      have hj : w.opened ≤ j := hj
      omega
    have hold := h.fresh j hj
    exact ⟨(Function.update_of_ne hne _ _).trans hold.1, hold.2⟩
  · intro j hopen
    by_cases hj : j = k
    · rw [hj]
      exact hfd
    · apply h.single j
      intro hclosed
      exact hopen ((Function.update_of_ne hj _ _).trans hclosed)
  · intro j hj
    by_cases hk : j = k
    · rw [hk] at hj
      simp at hj
    · exact h.unheard j ((Function.update_of_ne hk _ _).symm.trans hj)
  · intro j queue hj
    by_cases hk : j = k
    · have hqueue : Socket.bound [] = Socket.bound queue := by
        rw [hk] at hj
        exact (Function.update_self k _ _).symm.trans hj
      obtain rfl := Socket.bound.inj hqueue
      change w.delivered j ++ w.inHand j ++ [] = w.arrived j
      rw [hk, hdelivered, harrived, inHand_of_none hthread]
      rfl
    · exact h.complete j queue ((Function.update_of_ne hk _ _).symm.trans hj)

/-- The socket is closed; frames that were not read are lost. -/
theorem Sound.closes (h : Sound w) (howner : w.owner = .closing) (hfd : w.canFd = some k) :
    Sound { w with
      sockets := Function.update w.sockets k .closed, owner := .forgetting } := by
  obtain ⟨hthread, hrunning⟩ : w.readThread = none ∧ w.isRunning = false := by
    cases h.phase with
    | closing k' howner hfd hthread hrunning => exact ⟨hthread, hrunning⟩
    | _ => simp_all
  have hstill : ∀ j s, s ≠ Socket.closed → Function.update w.sockets k .closed j = s →
      w.sockets j = s := by
    intro j s hs hj
    by_cases hk : j = k
    · rw [hk, Function.update_self] at hj
      exact absurd hj.symm hs
    · exact (Function.update_of_ne hk _ _).symm.trans hj
  refine ⟨.forgetting k rfl hfd (by simp) hthread hrunning, ?_, h.known, ?_, ?_, ?_, h.ordered⟩
  · intro j hj
    have hold := h.fresh j hj
    refine ⟨?_, hold.2⟩
    by_contra hopen
    exact hopen ((hstill j _ hopen rfl).symm.trans hold.1)
  · intro j hopen
    apply h.single j
    intro hclosed
    exact hopen ((hstill j _ hopen rfl).symm.trans hclosed)
  · intro j hj
    exact h.unheard j (hstill j _ (by simp) hj)
  · intro j queue hj
    exact h.complete j queue (hstill j _ (by simp) hj)

/-- The owner forgets a closed socket. -/
theorem Sound.forgets (h : Sound w) (howner : w.owner = .forgetting) :
    Sound { w with canFd := none, owner := .idle } := by
  obtain ⟨k, hfd, hclosed, hthread, hrunning⟩ :
      ∃ k, w.canFd = some k ∧ w.sockets k = .closed ∧ w.readThread = none ∧
        w.isRunning = false := by
    cases h.phase with
    | forgetting k _ hfd hclosed hthread hrunning => exact ⟨k, hfd, hclosed, hthread, hrunning⟩
    | _ => simp_all
  refine ⟨.shut (.inl rfl) rfl hthread hrunning, h.fresh, ?_, ?_, h.unheard, h.complete, h.ordered⟩
  · intro j hj
    cases hj
  · intro j hopen
    obtain rfl := Option.some.inj (hfd.symm.trans (h.single j hopen))
    exact absurd hclosed hopen

/-- While there is a reader, it may be anywhere in its loop. -/
theorem Sound.reading {r : Reader F} (h : Sound w) (hread : w.readThread = some r) :
    ∃ k, w.canFd = some k ∧ (w.sockets k).IsBound ∧ r.On k ∧
      ∀ (w' : System F) (r' : Reader F), w'.readThread = some r' → r'.On k →
        w'.owner = w.owner → w'.canFd = w.canFd → w'.isRunning = w.isRunning →
        (w'.sockets k).IsBound → Phase w' := by
  cases h.phase with
  | running k r₀ howner hfd hbound hthread hon hrunning =>
      obtain rfl := Option.some.inj (hread.symm.trans hthread)
      refine ⟨k, hfd, hbound, hon, ?_⟩
      intro w' r' hthread' hon' howner' hfd' hrunning' hbound'
      exact .running k r' (howner'.trans howner) (hfd'.trans hfd) hbound' hthread' hon'
        (hrunning'.trans hrunning)
  | stopping k r₀ howner hfd hbound hthread hon hrunning =>
      obtain rfl := Option.some.inj (hread.symm.trans hthread)
      refine ⟨k, hfd, hbound, hon, ?_⟩
      intro w' r' hthread' hon' howner' hfd' hrunning' hbound'
      exact .stopping k r' (howner'.trans howner) (hfd'.trans hfd) hbound' hthread' hon'
        (hrunning'.trans hrunning)
  | _ => simp_all

/-- The reader holds no frame. -/
def Reader.Empty : Reader F → Prop
  | .got _ _ => False
  | _ => True

theorem inHand_of_empty {r : Reader F} (h : w.readThread = some r) (hempty : r.Empty) (k : ℕ) :
    w.inHand k = [] := by
  cases r with
  | got => cases hempty
  | _ => simp [System.inHand, h]

/-- A step of the reader to another place of its loop. -/
theorem Sound.moves {r r' : Reader F} (h : Sound w) (hread : w.readThread = some r)
    (hempty : r.Empty) (hempty' : r'.Empty) (hon : ∀ k, w.canFd = some k → r'.On k) :
    Sound { w with readThread := some r' } := by
  obtain ⟨k, hfd, hbound, -, hphase⟩ := h.reading hread
  have hnext := hphase { w with readThread := some r' } r' rfl (hon k hfd) rfl rfl rfl hbound
  apply h.congr hnext rfl rfl rfl rfl rfl
  intro j
  rw [inHand_of_empty hread hempty, inHand_of_empty (r := r') rfl hempty']

/-- The reader takes the next frame of its socket. -/
theorem Sound.takes {queue : List F} (h : Sound w) (hread : w.readThread = some (.inRead (some k)))
    (hqueue : w.sockets k = .bound (f :: queue)) :
    Sound { w with
      readThread := some (.got k f)
      sockets := Function.update w.sockets k (.bound queue) } := by
  obtain ⟨k', hfd, -, hon, hphase⟩ := h.reading hread
  obtain rfl : k = k' := Option.some.inj hon
  have hstill : ∀ j s, j ≠ k → Function.update w.sockets k (.bound queue) j = s →
      w.sockets j = s := by
    intro j s hk hj
    exact (Function.update_of_ne hk _ _).symm.trans hj
  have hself : Function.update w.sockets k (.bound queue) k = .bound queue :=
    Function.update_self _ _ _
  refine ⟨hphase _ _ rfl rfl rfl rfl rfl ?_, ?_, h.known, ?_, ?_, ?_, h.ordered⟩
  · change (Function.update w.sockets k (.bound queue) k).IsBound
    rw [hself]
    trivial
  · intro j hj
    have hne : j ≠ k := by
      have hk := h.known k hfd
      have hj : w.opened ≤ j := hj
      omega
    have hold := h.fresh j hj
    exact ⟨(Function.update_of_ne hne _ _).trans hold.1, hold.2⟩
  · intro j hopen
    by_cases hj : j = k
    · rw [hj]
      exact hfd
    · apply h.single j
      intro hclosed
      exact hopen ((Function.update_of_ne hj _ _).trans hclosed)
  · intro j hj
    by_cases hk : j = k
    · rw [hk] at hj
      cases hself.symm.trans hj
    · exact h.unheard j (hstill j _ hk hj)
  · intro j rest hj
    by_cases hk : j = k
    · subst hk
      obtain rfl := Socket.bound.inj (hself.symm.trans hj)
      have hall := h.complete j _ hqueue
      rw [inHand_of_empty hread trivial] at hall
      calc w.delivered j ++ (if j = j then [f] else []) ++ queue
          = w.delivered j ++ [] ++ f :: queue := by simp
        _ = w.arrived j := hall
    · have hhand : (if k = j then [f] else []) = [] := if_neg (Ne.symm hk)
      have hall := h.complete j rest (hstill j _ hk hj)
      rw [inHand_of_empty hread trivial] at hall
      calc w.delivered j ++ (if k = j then [f] else []) ++ rest
          = w.delivered j ++ [] ++ rest := by rw [hhand]
        _ = w.arrived j := hall

/-- The reader hands its frame to the callback. -/
theorem Sound.hands (h : Sound w) (hread : w.readThread = some (.got k f)) :
    Sound { w with
      readThread := some .loop
      delivered := Function.update w.delivered k (w.delivered k ++ [f]) } := by
  obtain ⟨k', hfd, hbound, hon, hphase⟩ := h.reading hread
  obtain rfl : k = k' := hon
  obtain ⟨queue, hqueue⟩ : ∃ queue, w.sockets k = .bound queue := by
    cases hs : w.sockets k with
    | bound queue => exact ⟨queue, rfl⟩
    | _ => simp [hs, Socket.IsBound] at hbound
  have hhand : ∀ j, w.inHand j = if k = j then [f] else [] := by
    intro j
    simp [System.inHand, hread]
  have hall : w.delivered k ++ [f] ++ queue = w.arrived k := by
    have hall := h.complete k queue hqueue
    rw [hhand k, if_pos rfl] at hall
    exact hall
  have hself : Function.update w.delivered k (w.delivered k ++ [f]) k = w.delivered k ++ [f] :=
    Function.update_self _ _ _
  have hne : ∀ j, j ≠ k → Function.update w.delivered k (w.delivered k ++ [f]) j = w.delivered j :=
    fun j hj => Function.update_of_ne hj _ _
  refine ⟨hphase _ _ rfl trivial rfl rfl rfl hbound, ?_, h.known, h.single, ?_, ?_, ?_⟩
  · intro j hj
    have hold := h.fresh j hj
    have hk : j ≠ k := by
      have hk := h.known k hfd
      have hj : w.opened ≤ j := hj
      omega
    exact ⟨hold.1, hold.2.1, (hne j hk).trans hold.2.2⟩
  · intro j hj
    have hk : j ≠ k := by
      rintro rfl
      cases hqueue.symm.trans hj
    have hold := h.unheard j hj
    exact ⟨hold.1, (hne j hk).trans hold.2⟩
  · intro j rest hj
    change Function.update w.delivered k (w.delivered k ++ [f]) j ++ [] ++ rest = w.arrived j
    by_cases hk : j = k
    · subst hk
      obtain rfl := Socket.bound.inj (hqueue.symm.trans hj)
      rw [hself, List.append_nil]
      exact hall
    · have hold := h.complete j rest hj
      rw [hhand j, if_neg (Ne.symm hk)] at hold
      rw [hne j hk]
      exact hold
  · intro j
    change Function.update w.delivered k (w.delivered k ++ [f]) j <+: w.arrived j
    by_cases hk : j = k
    · subst hk
      rw [hself]
      exact ⟨queue, hall⟩
    · rw [hne j hk]
      exact h.ordered j

/-- A frame arrives at the bound socket, if there is one. -/
theorem Sound.arrives (h : Sound w) (f : F) :
    Sound { w with
      sockets := fun k => (w.sockets k).receive f
      arrived := fun k => if (w.sockets k).IsBound then w.arrived k ++ [f] else w.arrived k } where
  phase := by
    have hbound : ∀ k, (w.sockets k).IsBound → ((w.sockets k).receive f).IsBound := by
      intro k hk
      cases hs : w.sockets k with
      | bound queue => trivial
      | _ => simp [hs, Socket.IsBound] at hk
    cases h.phase with
    | shut howner hfd hthread hrunning => exact .shut howner hfd hthread hrunning
    | binding k howner hfd hunbound hthread hrunning =>
        exact .binding k howner hfd (by simp [hunbound, Socket.receive]) hthread hrunning
    | ready k howner hfd hk hthread => exact .ready k howner hfd (hbound k hk) hthread
    | running k r howner hfd hk hthread hon hrunning =>
        exact .running k r howner hfd (hbound k hk) hthread hon hrunning
    | stopping k r howner hfd hk hthread hon hrunning =>
        exact .stopping k r howner hfd (hbound k hk) hthread hon hrunning
    | closing k howner hfd hthread hrunning => exact .closing k howner hfd hthread hrunning
    | forgetting k howner hfd hclosed hthread hrunning =>
        exact .forgetting k howner hfd (by simp [hclosed, Socket.receive]) hthread hrunning
  fresh := by
    intro k hk
    obtain ⟨hclosed, harrived, hdelivered⟩ := h.fresh k hk
    simp [hclosed, harrived, hdelivered, Socket.receive, Socket.IsBound]
  known := h.known
  single := by
    intro k hk
    apply h.single k
    intro hclosed
    simp [hclosed, Socket.receive] at hk
  unheard := by
    intro k hk
    cases hs : w.sockets k with
    | unbound =>
        obtain ⟨harrived, hdelivered⟩ := h.unheard k hs
        simp [hs, harrived, hdelivered, Socket.IsBound]
    | _ => simp [hs, Socket.receive] at hk
  complete := by
    intro k queue hk
    cases hs : w.sockets k with
    | bound old =>
        obtain rfl : old ++ [f] = queue := by simpa [hs, Socket.receive] using hk
        have hall := h.complete k old hs
        calc w.delivered k ++ w.inHand k ++ (old ++ [f])
            = w.delivered k ++ w.inHand k ++ old ++ [f] := by simp
          _ = w.arrived k ++ [f] := by rw [hall]
          _ = if (w.sockets k).IsBound then w.arrived k ++ [f] else w.arrived k := by
              rw [if_pos (by simp [hs, Socket.IsBound])]
    | _ => simp [hs, Socket.receive] at hk
  ordered := by
    intro k
    change _ <+: if (w.sockets k).IsBound then w.arrived k ++ [f] else w.arrived k
    split
    · exact (h.ordered k).trans (List.prefix_append _ _)
    · exact h.ordered k

theorem Sound.owns (h : Sound w) (hstep : ownerStep w = some w') : Sound w' := by
  simp only [ownerStep] at hstep
  cases howner : w.owner with
  | idle | binding => simp [howner] at hstep
  | starting =>
      obtain ⟨k, hfd, hbound, hthread⟩ :
          ∃ k, w.canFd = some k ∧ (w.sockets k).IsBound ∧ w.readThread = none := by
        cases h.phase with
        | ready k _ hfd hbound hthread => exact ⟨k, hfd, hbound, hthread⟩
        | _ => simp_all
      simp only [howner, Option.some.injEq] at hstep
      subst hstep
      exact h.congr (.ready k (.inr ⟨rfl, rfl⟩) hfd hbound hthread) rfl rfl rfl rfl rfl
        fun _ => rfl
  | spawning =>
      obtain ⟨k, hfd, hbound, hthread, hrunning⟩ :
          ∃ k, w.canFd = some k ∧ (w.sockets k).IsBound ∧ w.readThread = none ∧
            w.isRunning = true := by
        cases h.phase with
        | ready k howner' hfd hbound hthread =>
            rcases howner' with ⟨howner', -⟩ | ⟨-, hrunning⟩
            · rw [howner] at howner'
              cases howner'
            · exact ⟨k, hfd, hbound, hthread, hrunning⟩
        | _ => simp_all
      simp only [howner, Option.some.injEq] at hstep
      subst hstep
      have hphase : Phase { w with readThread := some .loop, owner := .idle } :=
        .running k .loop rfl hfd hbound rfl trivial hrunning
      apply h.congr hphase rfl rfl rfl rfl rfl
      intro j
      rw [inHand_of_none hthread, inHand_of_empty (r := .loop) rfl trivial]
  | joining =>
      have hempty : ∀ k, w.inHand k = [] := by
        intro k
        cases hthread : w.readThread with
        | none => exact inHand_of_none hthread k
        | some r =>
            cases r with
            | finished => exact inHand_of_empty hthread trivial k
            | _ => simp [howner, hthread] at hstep
      have hstep : some { w with readThread := none, owner := .closing } = some w' := by
        cases hthread : w.readThread with
        | none => simpa [howner, hthread] using hstep
        | some r =>
            cases r with
            | finished => simpa [howner, hthread] using hstep
            | _ => simp [howner, hthread] at hstep
      obtain rfl := Option.some.inj hstep
      have hphase : Phase { w with readThread := none, owner := .closing } := by
        cases h.phase with
        | shut _ hfd _ hrunning => exact .shut (.inr (.inr rfl)) hfd rfl hrunning
        | stopping k _ _ hfd _ _ _ hrunning => exact .closing k rfl hfd rfl hrunning
        | _ => simp_all
      apply h.congr hphase rfl rfl rfl rfl rfl
      intro j
      rw [hempty, inHand_of_none rfl]
  | closing =>
      cases hfd : w.canFd with
      | none =>
          have hphase : Phase { w with owner := .idle } := by
            cases h.phase with
            | shut _ hfd hthread hrunning => exact .shut (.inl rfl) hfd hthread hrunning
            | _ => simp_all
          simp only [howner, hfd, Option.some.injEq] at hstep
          subst hstep
          rw [← hfd]
          exact h.congr hphase rfl rfl rfl rfl rfl fun _ => rfl
      | some k =>
          simp only [howner, hfd, Option.some.injEq] at hstep
          subst hstep
          rw [← hfd]
          exact h.closes howner hfd
  | forgetting =>
      simp only [howner, Option.some.injEq] at hstep
      subst hstep
      exact h.forgets howner

theorem Sound.reader {r : Reader F} (h : Sound w) (hread : w.readThread = some r)
    (hstep : readerStep w r = some w') : Sound w' := by
  cases r with
  | loop =>
      simp only [readerStep, Option.some.injEq] at hstep
      subst hstep
      apply h.moves hread trivial
      · split <;> trivial
      · intro k _
        split <;> trivial
  | check =>
      simp only [readerStep, Option.some.injEq] at hstep
      subst hstep
      apply h.moves hread trivial
      · split <;> trivial
      · intro k _
        split <;> trivial
  | call =>
      simp only [readerStep, Option.some.injEq] at hstep
      subst hstep
      exact h.moves hread trivial trivial fun k hfd => hfd
  | inRead fd =>
      cases fd with
      | none => simp [readerStep] at hstep
      | some k =>
          cases hs : w.sockets k with
          | bound queue =>
              cases queue with
              | nil => simp [readerStep, hs] at hstep
              | cons f queue =>
                  simp only [readerStep, hs, Option.some.injEq] at hstep
                  subst hstep
                  exact h.takes hread hs
          | _ => simp [readerStep, hs] at hstep
  | got k f =>
      simp only [readerStep, Option.some.injEq] at hstep
      subst hstep
      exact h.hands hread
  | finished => simp [readerStep] at hstep

theorem Sound.step (h : Sound w) (hstep : step w l = some w') : Sound w' := by
  cases l with
  | opens created =>
      obtain ⟨⟨hidle, hthread⟩, hstep⟩ := Option.ite_none_right_eq_some.mp hstep
      have hthread : w.readThread = none := by simpa using hthread
      cases created with
      | true =>
          obtain rfl := Option.some.inj hstep
          exact h.opens hidle hthread
      | false =>
          obtain rfl := Option.some.inj hstep
          obtain ⟨hfd, hrunning⟩ : w.canFd = none ∧ w.isRunning = false := by
            cases h.phase with
            | shut _ hfd _ hrunning => exact ⟨hfd, hrunning⟩
            | _ => simp_all
          exact h.congr (.shut (.inl hidle) rfl hthread hrunning) hfd.symm rfl rfl rfl rfl
            fun _ => rfl
  | setUp ok =>
      cases howner : w.owner with
      | binding =>
          cases hfd : w.canFd with
          | none => simp [Can.step, howner, hfd] at hstep
          | some k =>
              cases ok with
              | true =>
                  simp only [Can.step, howner, hfd, if_true, Option.some.injEq] at hstep
                  subst hstep
                  rw [← hfd]
                  exact h.binds howner hfd
              | false =>
                  have hphase : Phase { w with owner := .closing } := by
                    cases h.phase with
                    | binding k _ hfd _ hthread hrunning =>
                        exact .closing k rfl hfd hthread hrunning
                    | _ => simp_all
                  simp only [Can.step, howner, hfd, Bool.false_eq_true, if_false,
                    Option.some.injEq] at hstep
                  subst hstep
                  rw [← hfd]
                  exact h.congr hphase rfl rfl rfl rfl rfl fun _ => rfl
      | _ => simp [Can.step, howner] at hstep
  | closes =>
      obtain ⟨hidle, hstep⟩ := Option.ite_none_right_eq_some.mp hstep
      obtain rfl := Option.some.inj hstep
      have hphase : Phase { w with isRunning := false, owner := .joining } := by
        cases h.phase with
        | shut _ hfd hthread _ => exact .shut (.inr (.inl rfl)) hfd hthread rfl
        | running k r _ hfd hbound hthread hon _ =>
            exact .stopping k r rfl hfd hbound hthread hon rfl
        | _ => simp_all
      exact h.congr hphase rfl rfl rfl rfl rfl fun _ => rfl
  | owner => exact h.owns hstep
  | reader =>
      obtain ⟨r, hread, hstep⟩ := Option.bind_eq_some_iff.mp hstep
      exact h.reader hread hstep
  | readFails =>
      cases hread : w.readThread with
      | none => simp [Can.step, hread] at hstep
      | some r =>
          cases r with
          | inRead fd =>
              simp only [Can.step, hread, Option.some.injEq] at hstep
              subst hstep
              exact h.moves hread trivial trivial fun _ _ => trivial
          | _ => simp [Can.step, hread] at hstep
  | arrive f =>
      obtain rfl := Option.some.inj hstep
      exact h.arrives f

/-- Whatever the order of the steps of `open`, `close` and the reader, of the
arrivals and of the errors, the reader reads from an open, bound socket alone. The
callback gets the frames of a socket in the order of their arrival, each once, and
the others are on their way to it or in the queue of the socket until it is closed.
When `close` has returned there is no reader and no socket. -/
theorem frames_in_order (ls : List (Label F)) :
    Along step (fun _ _ w' => Serves w') ({} : System F) ls := by
  have hkeep : ∀ (w : System F) (l : Label F) (w' : System F),
      Sound w → True → step w l = some w' → Sound w' := fun _ _ _ h _ hstep => h.step hstep
  have hserves : ∀ (w : System F) (l : Label F) (w' : System F),
      Sound w → True → step w l = some w' → Serves w' :=
    fun _ _ _ h _ hstep => (h.step hstep).serves
  have hall : Along step (fun _ _ _ => True) ({} : System F) ls :=
    along_of_forall (fun _ _ _ _ => trivial) _ _
  exact along_of_invariant hkeep hserves start_sound hall

/-- The reader has passed the test of the loop and has no frame yet. -/
def Reader.BeforeFrame : Reader F → Prop
  | check | call | inRead _ => True
  | _ => False

/-- The reader is on its way into a `read` that has nothing to return. -/
def Waits (w : System F) : Prop :=
  ∃ r k, w.readThread = some r ∧ r.BeforeFrame ∧ w.canFd = some k ∧ w.sockets k = .bound []

/-- The steps of the reader before its thread ends, and the end of it. -/
def Reader.left : Reader F → ℕ
  | check => 6
  | call => 5
  | inRead _ => 4
  | got _ _ => 3
  | loop => 2
  | finished => 1

/-- The steps before `close` returns. -/
def System.left (w : System F) : ℕ :=
  match w.owner with
  | .joining => 3 + w.readThread.elim 0 Reader.left
  | .closing => 2
  | .forgetting => 1
  | _ => 0

/-- `close` has been called. -/
structure Closing (w : System F) : Prop where
  sound : Sound w
  stopped : w.isRunning = false
  within : w.owner = .joining ∨ w.owner = .closing ∨ w.owner = .forgetting ∨ w.owner = .idle

theorem Closing.of_joining (h : Sound w) (howner : w.owner = .joining) : Closing w := by
  refine ⟨h, ?_, .inl howner⟩
  cases h.phase with
  | shut _ _ _ hrunning => exact hrunning
  | stopping _ _ _ _ _ _ _ hrunning => exact hrunning
  | _ => simp_all

theorem not_waits_of_none (h : w.readThread = none) : ¬ Waits w := by
  rintro ⟨r, k, hread, -⟩
  rw [h] at hread
  cases hread

theorem Closing.joined (h : Closing w) (howner : w.owner ≠ .joining) : w.readThread = none := by
  have hstopped := h.stopped
  have hwithin := h.within
  cases h.sound.phase with
  | shut _ _ hthread _ => exact hthread
  | closing _ _ _ hthread _ => exact hthread
  | forgetting _ _ _ _ hthread _ => exact hthread
  | _ => simp_all

/-- A step of the owner, or of the reader, takes `close` forward and does not
change whether it waits for a frame. -/
theorem Closing.owns (h : Closing w) (hstep : ownerStep w = some w') :
    Closing w' ∧ w'.left < w.left ∧ (Waits w' ↔ Waits w) := by
  have hsound := h.sound.owns hstep
  simp only [ownerStep] at hstep
  cases howner : w.owner with
  | idle | binding => simp [howner] at hstep
  | starting | spawning => simpa [howner] using h.within
  | joining =>
      have hnot : ¬ Waits w := by
        rintro ⟨r, k, hread, hbefore, -⟩
        cases r with
        | check | call | inRead => simp [howner, hread] at hstep
        | _ => cases hbefore
      have hw' : w' = { w with readThread := none, owner := .closing } := by
        cases hthread : w.readThread with
        | none => simpa [howner, hthread] using hstep.symm
        | some r =>
            cases r with
            | finished => simpa [howner, hthread] using hstep.symm
            | _ => simp [howner, hthread] at hstep
      subst hw'
      refine ⟨⟨hsound, h.stopped, .inr (.inl rfl)⟩, ?_, ?_⟩
      · simp only [System.left, howner]
        omega
      · exact iff_of_false (not_waits_of_none rfl) hnot
  | closing =>
      have hthread := h.joined (by simp [howner])
      have hnot := not_waits_of_none hthread
      cases hfd : w.canFd with
      | none =>
          simp only [howner, hfd, Option.some.injEq] at hstep
          subst hstep
          refine ⟨⟨hsound, h.stopped, by simp⟩, ?_, ?_⟩
          · simp [System.left, howner]
          · exact iff_of_false (not_waits_of_none hthread) hnot
      | some k =>
          simp only [howner, hfd, Option.some.injEq] at hstep
          subst hstep
          refine ⟨⟨hsound, h.stopped, by simp⟩, ?_, ?_⟩
          · simp [System.left, howner]
          · exact iff_of_false (not_waits_of_none hthread) hnot
  | forgetting =>
      have hthread := h.joined (by simp [howner])
      simp only [howner, Option.some.injEq] at hstep
      subst hstep
      refine ⟨⟨hsound, h.stopped, by simp⟩, ?_, ?_⟩
      · simp [System.left, howner]
      · exact iff_of_false (not_waits_of_none hthread) (not_waits_of_none hthread)

theorem Closing.reader {r : Reader F} (h : Closing w) (hread : w.readThread = some r)
    (hstep : readerStep w r = some w') :
    Closing w' ∧ w'.left < w.left ∧ (Waits w' ↔ Waits w) := by
  have hsound := h.sound.reader hread hstep
  have howner : w.owner = .joining := by
    by_contra howner
    rw [h.joined howner] at hread
    cases hread
  obtain ⟨k, hfd, -, hon, -⟩ := h.sound.reading hread
  have hwaits : ∀ {v : System F} {r : Reader F}, v.readThread = some r → v.canFd = some k →
      (Waits v ↔ r.BeforeFrame ∧ v.sockets k = .bound []) := by
    intro v r hread hfd
    constructor
    · rintro ⟨r', k', hread', hbefore, hfd', hempty⟩
      obtain rfl := Option.some.inj (hread.symm.trans hread')
      obtain rfl := Option.some.inj (hfd.symm.trans hfd')
      exact ⟨hbefore, hempty⟩
    · rintro ⟨hbefore, hempty⟩
      exact ⟨r, k, hread, hbefore, hfd, hempty⟩
  rw [hwaits hread hfd]
  cases r with
  | loop =>
      simp only [readerStep, h.stopped, Bool.false_eq_true, if_false, Option.some.injEq] at hstep
      subst hstep
      refine ⟨⟨hsound, rfl, .inl howner⟩, ?_, ?_⟩
      · simp [System.left, howner, hread, Reader.left]
      · refine Iff.trans (hwaits rfl hfd) ?_
        exact iff_of_false (fun hw => hw.1) fun hw => hw.1
  | check =>
      simp only [readerStep, hfd, reduceCtorEq, if_false, Option.some.injEq] at hstep
      subst hstep
      refine ⟨⟨hsound, h.stopped, .inl howner⟩, ?_, ?_⟩
      · simp [System.left, howner, hread, Reader.left]
      · exact Iff.trans (hwaits rfl rfl) Iff.rfl
  | call =>
      simp only [readerStep, Option.some.injEq] at hstep
      subst hstep
      refine ⟨⟨hsound, h.stopped, .inl howner⟩, ?_, ?_⟩
      · simp [System.left, howner, hread, Reader.left]
      · exact Iff.trans (hwaits rfl hfd) Iff.rfl
  | inRead fd =>
      obtain rfl : fd = some k := hon
      cases hs : w.sockets k with
      | bound queue =>
          cases queue with
          | nil => simp [readerStep, hs] at hstep
          | cons f queue =>
              simp only [readerStep, hs, Option.some.injEq] at hstep
              subst hstep
              refine ⟨⟨hsound, h.stopped, .inl howner⟩, ?_, ?_⟩
              · simp [System.left, howner, hread, Reader.left]
              · refine Iff.trans (hwaits rfl hfd) ?_
                exact iff_of_false (fun hw => hw.1) fun hw => by cases hw.2
      | _ => simp [readerStep, hs] at hstep
  | got k' f =>
      simp only [readerStep, Option.some.injEq] at hstep
      subst hstep
      refine ⟨⟨hsound, h.stopped, .inl howner⟩, ?_, ?_⟩
      · simp [System.left, howner, hread, Reader.left]
      · refine Iff.trans (hwaits rfl hfd) ?_
        exact iff_of_false (fun hw => hw.1) fun hw => hw.1
  | finished => simp [readerStep] at hstep

/-- A `close` that cannot go on has returned, or waits for a frame. -/
theorem Closing.stuck (h : Closing w) (howner : step w .owner = none)
    (hreader : step w .reader = none) : w.owner = .idle ↔ ¬ Waits w := by
  constructor
  · intro hidle
    exact not_waits_of_none (h.joined (by simp [hidle]))
  · intro hwaits
    rcases h.within with hjoin | hclosing | hforgetting | hidle
    · exfalso
      cases hread : w.readThread with
      | none => simp [Can.step, ownerStep, hjoin, hread] at howner
      | some r =>
          obtain ⟨k, hfd, hbound, hon, -⟩ := h.sound.reading hread
          cases r with
          | finished => simp [Can.step, ownerStep, hjoin, hread] at howner
          | inRead fd =>
              obtain rfl : fd = some k := hon
              cases hs : w.sockets k with
              | bound queue =>
                  cases queue with
                  | nil => exact hwaits ⟨_, k, hread, trivial, hfd, hs⟩
                  | cons f queue => simp [Can.step, readerStep, hread, hs] at hreader
              | _ => simp [hs, Socket.IsBound] at hbound
          | _ => simp [Can.step, readerStep, hread] at hreader
    · cases hfd : w.canFd <;> simp [Can.step, ownerStep, hclosing, hfd] at howner
    · simp [Can.step, ownerStep, hforgetting] at howner
    · exact hidle

/-- A step of the owner or the reader. -/
def Label.OfThread : Label F → Prop
  | owner | reader => True
  | _ => False

theorem Closing.run {ls : List (Label F)} (h : Closing w) (hls : ∀ l ∈ ls, l.OfThread)
    (hrun : Runs.run step w ls = some w') :
    Closing w' ∧ ls.length + w'.left ≤ w.left ∧ (Waits w' ↔ Waits w) := by
  induction ls generalizing w with
  | nil =>
      obtain rfl := Option.some.inj hrun
      exact ⟨h, by simp, Iff.rfl⟩
  | cons l ls ih =>
      obtain ⟨v, hstep, hrest⟩ := Option.bind_eq_some_iff.mp hrun
      have hnext : Closing v ∧ v.left < w.left ∧ (Waits v ↔ Waits w) := by
        cases l with
        | owner => exact h.owns hstep
        | reader =>
            obtain ⟨r, hread, hstep⟩ := Option.bind_eq_some_iff.mp hstep
            exact h.reader hread hstep
        | _ => cases hls _ List.mem_cons_self
      obtain ⟨hv, hless, hsame⟩ := hnext
      obtain ⟨hw', hlength, hwaits⟩ := ih hv (fun m hm => hls m (List.mem_cons_of_mem l hm)) hrest
      refine ⟨hw', ?_, hwaits.trans hsame⟩
      rw [List.length_cons]
      omega

/-- From the call of `close` on, the owner and the reader take nine steps at most,
in whatever order. When neither can go on, `close` has returned, unless the reader
was on its way into a `read` with nothing to return: then it waits for a frame. -/
theorem close_waits_for_a_frame (hreach : Reachable step {} w) (howner : w.owner = .joining)
    {ls : List (Label F)} (hls : ∀ l ∈ ls, l.OfThread) (hrun : Runs.run step w ls = some w') :
    ls.length ≤ 9 ∧
      (step w' .owner = none → step w' .reader = none → (w'.owner = .idle ↔ ¬ Waits w)) := by
  have hsound : Sound w := invariant_of_reachable (fun _ _ _ h hstep => h.step hstep) start_sound
    hreach
  obtain ⟨hw', hlength, hwaits⟩ := (Closing.of_joining hsound howner).run hls hrun
  constructor
  · have hleft : w.left ≤ 9 := by
      simp only [System.left, howner]
      cases w.readThread with
      | none => simp
      | some r => cases r <;> simp [Reader.left]
    omega
  · intro ho hr
    rw [hw'.stuck ho hr, hwaits]

/-- On a silent bus the reader has gone into its next `read` and `close` waits. -/
theorem close_waits_for_a_frame_silent :
    ∃ w w' : System ℕ,
      Runs.run step {} [.opens true, .setUp true, .owner, .owner, .reader, .reader, .closes]
        = some w ∧
      Runs.run step w [.reader] = some w' ∧ w'.owner = .joining ∧ Waits w := by
  refine ⟨_, _, rfl, rfl, rfl, ?_⟩
  let w : System ℕ := {
    canFd := some 0
    readThread := some .call
    owner := .joining
    opened := 1
    sockets := Function.update (Function.update (fun _ => .closed) 0 .unbound) 0 (.bound []) }
  let w' : System ℕ := { w with readThread := some (.inRead (some 0)) }
  have hreach : Reachable step ({} : System ℕ) w :=
    ⟨[.opens true, .setUp true, .owner, .owner, .reader, .reader, .closes], rfl⟩
  have hls : ∀ l ∈ [(Label.reader : Label ℕ)], l.OfThread := by simp [Label.OfThread]
  have hrun : Runs.run step w [.reader] = some w' := rfl
  obtain ⟨-, hend⟩ := close_waits_for_a_frame hreach rfl hls hrun
  by_contra hwaits
  cases (hend rfl rfl).mpr hwaits

end PolishingRobot.Can
