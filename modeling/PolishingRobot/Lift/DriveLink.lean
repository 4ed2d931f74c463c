import PolishingRobot.Lift.ModeInvariant
import PolishingRobot.Runs.LabelledRuns

/-!
# The driver and the drive on one line

The drive keeps a counter. It adds every increment it executes, goes to every
absolute target, and restarts at 0 on an origin reset. Commands and replies
take time: the commands written wait in `toDrive`, the replies in `inFlight`.
-/

namespace PolishingRobot.Lift

open Runs

/-- The drive's counter and how often it was reset. -/
structure Drive where
  counter : Int32
  resets : Nat := 0
  deriving DecidableEq, Repr

/-- Execute one command. -/
def Drive.execute (d : Drive) : TxFrame → Drive
  | .incPosiCmd counts => { d with counter := d.counter + counts }
  | .posiCmd counts => { d with counter := counts }
  | .posiReset => { counter := 0, resets := d.resets + 1 }
  | _ => d

/-- A reply under way, with the state the drive had when it sent it. -/
structure Reply where
  frame : RxFrame
  sender : Drive
  deriving DecidableEq, Repr

/-- The driver, the drive, and what is between them. `heard` is the sender's
state behind the newest position the driver received, `told` the position
that the newest position command leads to. -/
structure Link where
  driver : State
  drive : Drive
  toDrive : List TxFrame
  inFlight : List Reply := []
  heard : Option Drive := none
  told : Int32 := 0
  deriving DecidableEq, Repr

/-- What may happen next on the link. -/
inductive LinkEvent where
  /-- An operator message. -/
  | message (e : Event)
  /-- A poll whose read delivers the `k` oldest replies. -/
  | poll (rxNow now : Time) (k : Nat)
  /-- The drive executes its oldest command. -/
  | execute
  /-- The drive sends a reply. -/
  | reply (f : RxFrame)
  /-- A reply is lost. -/
  | lose (i : Nat)
  /-- The axis moves under a speed command or an outside force. -/
  | drift (counts : Int32)
  deriving DecidableEq, Repr

/-- The drive once it has executed everything under way. -/
def Link.settled (l : Link) : Drive := l.toDrive.foldl Drive.execute l.drive

/-- Follow one written command: the drive it leads to, and the position told. -/
def follow (acc : Drive × Int32) (f : TxFrame) : Drive × Int32 :=
  let d := acc.1.execute f
  match f with
  | .incPosiCmd _ | .posiCmd _ => (d, d.counter)
  | _ => (d, acc.2)

/-- The driver takes a callback; its frames go onto the line. -/
def Link.call (c : Config) (l : Link) (e : Event) : Link :=
  let s := step c l.driver e
  { l with
    driver := s
    toDrive := l.toDrive ++ s.tx
    told := (s.tx.foldl follow (l.settled, l.told)).2 }

/-- The driver takes one reply. -/
def hear (heard : Option Drive) (r : Reply) : Option Drive :=
  if r.frame.HasPosition then some r.sender else heard

/-- One event of the link. Replies carry the counter of the drive. -/
def linkStep (c : Config) (l : Link) : LinkEvent → Option Link
  | .message e =>
      match e with
      | .poll _ _ _ => none
      | _ => some (l.call c e)
  | .poll rxNow now k =>
      let delivered := l.inFlight.take k
      some { l.call c (.poll rxNow now (delivered.map Reply.frame)) with
        inFlight := l.inFlight.drop k
        heard := if c.serialOpen then delivered.foldl hear l.heard else l.heard }
  | .execute =>
      match l.toDrive with
      | [] => none
      | f :: fs => some { l with drive := l.drive.execute f, toDrive := fs }
  | .reply f =>
      if f.HasPosition → f.position = l.drive.counter then
        some { l with inFlight := l.inFlight ++ [⟨f, l.drive⟩] }
      else none
  | .lose i => some { l with inFlight := l.inFlight.eraseIdx i }
  | .drift counts => some { l with drive := { l.drive with counter := l.drive.counter + counts } }

/-- The link at power-up: the counter may hold anything. -/
def Link.start (c : Config) (counter : Int32) : Link :=
  { driver := Lift.start c, drive := { counter := counter }, toDrive := (Lift.start c).tx }

@[simp] theorem follow_fst (acc : Drive × Int32) (f : TxFrame) :
    (follow acc f).1 = acc.1.execute f := by
  cases f <;> rfl

/-- A frame that tells the drive no new position: no increment, and an
absolute target only if it is the one told already. -/
def Steady (told : Int32) (f : TxFrame) : Prop :=
  (∀ x, f = .posiCmd x → x = told) ∧ ∀ x, f ≠ .incPosiCmd x

theorem follow_steady {told : Int32} {f : TxFrame} (h : Steady told f) (d : Drive) :
    (follow (d, told) f).2 = told := by
  cases f with
  | posiCmd x => exact h.1 x rfl
  | incPosiCmd x => exact absurd rfl (h.2 x)
  | velCmd => rfl
  | tarPosiVel => rfl
  | posiReset => rfl
  | alarmReset => rfl
  | reqPidData => rfl

theorem foldl_follow_steady {told : Int32} {fs : List TxFrame} (h : ∀ f ∈ fs, Steady told f)
    (d : Drive) : (fs.foldl follow (d, told)).2 = told := by
  induction fs generalizing d with
  | nil => rfl
  | cons f fs ih =>
      have hf := follow_steady (h f (by simp)) d
      have hpair : follow (d, told) f = (d.execute f, told) := Prod.ext (by simp) hf
      rw [List.foldl_cons, hpair]
      apply ih
      intro g hg
      exact h g (by simp [hg])

/-- The position the driver holds is the counter its sender had, and so is
the position of every reply under way. -/
structure Truthful (c : Config) (l : Link) : Prop where
  held : ∀ d, l.heard = some d → l.driver.rx.position = d.counter ∧ c.serialOpen = true
  sent : ∀ r ∈ l.inFlight, r.frame.HasPosition → r.frame.position = r.sender.counter

/-- Taking one reply keeps the held position truthful. -/
theorem handleFrame_truthful {d : RxData} {heard : Option Drive} {r : Reply} (rxNow : Time)
    (h : ∀ x, heard = some x → d.position = x.counter)
    (hr : r.frame.HasPosition → r.frame.position = r.sender.counter) :
    ∀ x, hear heard r = some x → (handleFrame rxNow d r.frame).position = x.counter := by
  intro x hx
  unfold hear at hx
  unfold handleFrame
  by_cases hmonitor : r.frame.IsMonitor
  · have hhas : r.frame.HasPosition := .inl hmonitor
    rw [if_pos hhas] at hx
    obtain rfl := Option.some.inj hx
    have hpos := hr hhas
    unfold RxFrame.position at hpos
    rw [if_pos hmonitor] at hpos ⊢
    exact hpos
  · by_cases hposi : r.frame.IsPosiData
    · have hhas : r.frame.HasPosition := .inr hposi
      rw [if_pos hhas] at hx
      obtain rfl := Option.some.inj hx
      have hpos := hr hhas
      unfold RxFrame.position at hpos
      rw [if_neg hmonitor] at hpos
      rw [if_neg hmonitor, if_pos hposi]
      exact hpos
    · have hnone : ¬ r.frame.HasPosition := by
        rintro (h' | h')
        · exact hmonitor h'
        · exact hposi h'
      rw [if_neg hnone] at hx
      rw [if_neg hmonitor, if_neg hposi]
      exact h x hx

theorem foldl_handleFrame_truthful {d : RxData} {heard : Option Drive} {rs : List Reply}
    (rxNow : Time) (h : ∀ x, heard = some x → d.position = x.counter)
    (hrs : ∀ r ∈ rs, r.frame.HasPosition → r.frame.position = r.sender.counter) :
    ∀ x, rs.foldl hear heard = some x →
      ((rs.map Reply.frame).foldl (handleFrame rxNow) d).position = x.counter := by
  induction rs generalizing d heard with
  | nil => exact h
  | cons r rs ih =>
      apply ih
      · exact handleFrame_truthful rxNow h (hrs r (by simp))
      · intro r' hr'
        exact hrs r' (by simp [hr'])

theorem call_truthful {c : Config} {l : Link} (h : Truthful c l) (e : Event)
    (he : ∀ rxNow now frames, e ≠ .poll rxNow now frames) : Truthful c (l.call c e) := by
  refine ⟨?_, h.sent⟩
  have hrx : (step c l.driver e).rx = l.driver.rx := callback_rx c _ e he
  intro d hd
  have hheld := h.held d hd
  rw [← hrx] at hheld
  exact hheld

/-- A message is a callback other than a poll. -/
theorem linkStep_message {c : Config} {l l' : Link} {e : Event}
    (h : linkStep c l (.message e) = some l') :
    l' = l.call c e ∧ ∀ rxNow now frames, e ≠ .poll rxNow now frames := by
  cases e with
  | poll => cases h
  | _ => exact ⟨(Option.some.inj h).symm, by simp⟩

/-- Every event of the link keeps the held position truthful. -/
theorem linkStep_truthful {c : Config} {l l' : Link} {ev : LinkEvent} (h : Truthful c l)
    (hstep : linkStep c l ev = some l') : Truthful c l' := by
  cases ev with
  | message e =>
      obtain ⟨rfl, hpoll⟩ := linkStep_message hstep
      exact call_truthful h e hpoll
  | poll rxNow now k =>
      obtain rfl := Option.some.inj hstep
      have htake : ∀ r ∈ l.inFlight.take k, r.frame.HasPosition →
          r.frame.position = r.sender.counter := fun r hr => h.sent r (List.mem_of_mem_take hr)
      refine ⟨?_, fun r hr => h.sent r (List.mem_of_mem_drop hr)⟩
      have hrx : (step c l.driver
            (.poll rxNow now ((l.inFlight.take k).map Reply.frame))).rx =
          (if c.serialOpen then (l.inFlight.take k).map Reply.frame else []).foldl
            (handleFrame rxNow) l.driver.rx := by
        dsimp only [step, callback, pollTimer]
        rw [pollDecide_rx, pollReceive_eq]
      intro d hd
      dsimp only [Link.call] at hd ⊢
      rw [hrx]
      by_cases hopen : c.serialOpen = true
      · rw [if_pos hopen] at hd ⊢
        exact ⟨foldl_handleFrame_truthful rxNow (fun x hx => (h.held x hx).1) htake d hd, hopen⟩
      · rw [if_neg hopen] at hd ⊢
        exact h.held d hd
  | execute =>
      dsimp only [linkStep] at hstep
      split at hstep
      · cases hstep
      · obtain rfl := Option.some.inj hstep
        exact ⟨h.held, h.sent⟩
  | reply f =>
      dsimp only [linkStep] at hstep
      split at hstep
      · rename_i hf
        obtain rfl := Option.some.inj hstep
        refine ⟨h.held, ?_⟩
        intro r hr
        rcases List.mem_append.mp hr with hold | hnew
        · exact h.sent r hold
        · obtain rfl := List.mem_singleton.mp hnew
          exact hf
      · cases hstep
  | lose i =>
      obtain rfl := Option.some.inj hstep
      exact ⟨h.held, fun r hr => h.sent r (List.mem_of_mem_eraseIdx hr)⟩
  | drift counts =>
      obtain rfl := Option.some.inj hstep
      exact ⟨h.held, h.sent⟩

theorem start_truthful (c : Config) (counter : Int32) : Truthful c (Link.start c counter) :=
  ⟨by simp [Link.start], by simp [Link.start]⟩

end PolishingRobot.Lift
