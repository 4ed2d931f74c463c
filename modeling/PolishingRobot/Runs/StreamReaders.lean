import Mathlib.Data.List.Basic

/-!
# Readers of a byte stream that arrives in pieces

A reader looks at the head of the bytes it holds and either waits for more or
takes some of them, handing over at most one item. Its decisions never change
when more bytes are behind the head, so what it hands over depends on the
stream alone and not on how the stream was cut into pieces.
-/

namespace PolishingRobot.Runs

variable {β α : Type*}

/-- A decision at the head of the held bytes: `none` waits for more, otherwise
the item to hand over, if any, and the bytes still held. -/
structure StreamReader (β α : Type*) where
  next : List β → Option (Option α × List β)
  shrinks : ∀ {bs item rest}, next bs = some (item, rest) → rest.length < bs.length
  stable : ∀ {bs item rest} (more : List β), next bs = some (item, rest) →
    next (bs ++ more) = some (item, rest ++ more)

namespace StreamReader

variable (r : StreamReader β α)

/-- Take from the head until the reader waits. -/
def drain (bs : List β) : List α × List β :=
  match h : r.next bs with
  | none => ([], bs)
  | some (item, rest) =>
      have := r.shrinks h
      (item.toList ++ (drain rest).1, (drain rest).2)
termination_by bs.length

variable {r}

theorem drain_of_wait {bs : List β} (h : r.next bs = none) : r.drain bs = ([], bs) := by
  rw [drain]
  split
  · rfl
  · next heq => rw [h] at heq; cases heq

theorem drain_of_take {bs rest : List β} {item : Option α} (h : r.next bs = some (item, rest)) :
    r.drain bs = (item.toList ++ (r.drain rest).1, (r.drain rest).2) := by
  rw [drain]
  split
  · next heq => rw [h] at heq; cases heq
  · next item' rest' heq =>
      obtain ⟨rfl, rfl⟩ := Prod.mk.inj (Option.some.inj (h.symm.trans heq))
      rfl

/-- Induction over the decisions of a drained list. -/
theorem drain_induction {P : List β → Prop} (wait : ∀ bs, r.next bs = none → P bs)
    (take : ∀ bs item rest, r.next bs = some (item, rest) → P rest → P bs) (bs : List β) :
    P bs := by
  induction hn : bs.length using Nat.strongRecOn generalizing bs with
  | _ n ih =>
      cases h : r.next bs with
      | none => exact wait bs h
      | some p => exact take bs p.1 p.2 h (ih _ (hn ▸ r.shrinks h) p.2 rfl)

variable (r) in
/-- A drained list ends where the reader waits. -/
theorem next_rest (bs : List β) : r.next (r.drain bs).2 = none := by
  induction bs using drain_induction (r := r) with
  | wait bs h => rw [drain_of_wait h]; exact h
  | take bs item rest h ih => rw [drain_of_take h]; exact ih

/-- Draining a list is draining a prefix of it and then what the prefix left
together with the other bytes. -/
theorem drain_append (bs more : List β) :
    r.drain (bs ++ more) =
      ((r.drain bs).1 ++ (r.drain ((r.drain bs).2 ++ more)).1,
        (r.drain ((r.drain bs).2 ++ more)).2) := by
  induction bs using drain_induction (r := r) with
  | wait bs h => simp [drain_of_wait h]
  | take bs item rest h ih =>
      rw [drain_of_take h, drain_of_take (r.stable more h), ih]
      simp

variable (r)

/-- One piece arrives behind the held bytes. -/
def feed (s : List α × List β) (piece : List β) : List α × List β :=
  (s.1 ++ (r.drain (s.2 ++ piece)).1, (r.drain (s.2 ++ piece)).2)

variable {r}

/-- A stream fed in pieces is the stream fed at once. -/
theorem feed_pieces (s : List α × List β) (hs : r.next s.2 = none) (pieces : List (List β)) :
    pieces.foldl r.feed s = r.feed s pieces.flatten := by
  induction pieces generalizing s with
  | nil => simp [feed, drain_of_wait hs]
  | cons piece pieces ih =>
      have hwait : r.next (r.feed s piece).2 = none := r.next_rest _
      rw [List.foldl_cons, ih _ hwait, List.flatten_cons]
      simp only [feed]
      rw [← List.append_assoc, drain_append (s.2 ++ piece), List.append_assoc]

end StreamReader

end PolishingRobot.Runs
