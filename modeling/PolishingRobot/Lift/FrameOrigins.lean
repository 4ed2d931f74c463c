import PolishingRobot.Lift.Driver
import PolishingRobot.Lift.RoundTrip

/-!
# Where the received data comes from

A byte stream splits in one way into frames and skipped bytes, and the scan
loop finds exactly the frames. Each change of the received data is traced to the
bytes of its frame. Machine identifiers, length and checksum of the frame are
tested, its controller identifier is not.
-/

namespace PolishingRobot.Lift

open PolishingRobot.Runs

variable (hostMid motorRmid : UInt8)

/-- At the head nothing is decided yet: there are fewer than six bytes, or a
header announces more bytes than there are. -/
def Undecided (bs : List UInt8) : Prop :=
  bs.length < 6 ∨
    (bs.getD 0 0 = hostMid ∧ bs.getD 1 0 = motorRmid ∧ bs.length < claimedLength bs)

/-- A frame of the stream, or a byte that begins none. -/
inductive Piece where
  | frame (f : DriveFrame)
  | skipped (b : UInt8)

def Piece.bytes : Piece → List UInt8
  | frame f => f.bytes hostMid motorRmid
  | skipped b => [b]

/-- The stream consists of the pieces and an undecided rest. A byte is skipped
only if it is decided that no frame begins there. -/
inductive Splits : List UInt8 → List Piece → List UInt8 → Prop
  | stop {bs} (h : Undecided hostMid motorRmid bs) : Splits bs [] bs
  | frame (f : DriveFrame) {more ps rest} (h : Splits more ps rest) :
      Splits (f.bytes hostMid motorRmid ++ more) (.frame f :: ps) rest
  | skip (b : UInt8) {more ps rest} (hdecided : ¬ Undecided hostMid motorRmid (b :: more))
      (hnone : ∀ (f : DriveFrame) more', b :: more ≠ f.bytes hostMid motorRmid ++ more')
      (h : Splits more ps rest) : Splits (b :: more) (.skipped b :: ps) rest

section Turns

variable {hostMid motorRmid} {bs rest : List UInt8}

theorem scanTurn_eq_none_iff :
    scanTurn hostMid motorRmid bs = none ↔ Undecided hostMid motorRmid bs := by
  simp only [scanTurn, Undecided]
  constructor
  · intro h
    split_ifs at h with hsix hhead hlen
    · exact .inl hsix
    · obtain ⟨hhost, hmotor⟩ := not_or.mp hhead
      exact .inr ⟨not_not.mp hhost, not_not.mp hmotor, hlen⟩
  · rintro (hsix | ⟨hhost, hmotor, hlen⟩)
    · rw [if_pos hsix]
    · split_ifs with hsix hhead
      · rfl
      · rcases hhead with h | h
        · exact absurd hhost h
        · exact absurd hmotor h
      · rfl

/-- Six bytes and more begin with the five of a header. -/
theorem exists_header (h : 6 ≤ bs.length) :
    ∃ a b id pid num more, bs = a :: b :: id :: pid :: num :: more := by
  match bs, h with
  | a :: b :: id :: pid :: num :: more, _ => exact ⟨a, b, id, pid, num, more, rfl⟩

/-- The bytes determine the frame. -/
theorem DriveFrame.bytes_injective : Function.Injective (DriveFrame.bytes hostMid motorRmid) := by
  intro f f' h
  have hturn := scanTurn_frame hostMid motorRmid f []
  rw [h, scanTurn_frame] at hturn
  obtain ⟨hitem, -⟩ := Prod.mk.inj (Option.some.inj hturn)
  obtain ⟨hpid, hdata⟩ := RxFrame.mk.inj (Option.some.inj hitem)
  have hid : f.id = f'.id := by
    have hthird := congrArg (fun bs : List UInt8 => bs.getD 2 0) h
    simpa [DriveFrame.bytes, frameBytes] using hthird
  obtain ⟨id, pid, data, hfits⟩ := f
  obtain ⟨id', pid', data', hfits'⟩ := f'
  simp only at hpid hdata hid
  subst hpid hdata hid
  rfl

/-- A sum of zero makes the last byte the checksum. -/
theorem checksum_eq {body : List UInt8} {chk : UInt8} (h : byteSum (body ++ [chk]) = 0) :
    chk = 0 - byteSum body := by
  rw [byteSum_append_singleton] at h
  calc chk = (byteSum body + chk) - byteSum body := by rw [UInt8.add_comm, UInt8.add_sub_cancel]
    _ = 0 - byteSum body := by rw [h]

/-- What the scanner takes for a frame is the bytes of one. -/
theorem scanTurn_takes {item : RxFrame}
    (h : scanTurn hostMid motorRmid bs = some (some item, rest)) :
    ∃ f : DriveFrame, bs = f.bytes hostMid motorRmid ++ rest ∧ f.received = item := by
  simp only [scanTurn] at h
  split at h
  · cases h
  rename_i hsix
  split at h
  · cases h
  rename_i hhead
  split at h
  · cases h
  rename_i hlen
  split at h
  case isFalse => cases h
  rename_i hsum
  obtain ⟨hitem, hrest⟩ := Prod.mk.inj (Option.some.inj h)
  obtain ⟨hhost, hmotor⟩ := not_or.mp hhead
  obtain ⟨a, b, id, pid, num, more, rfl⟩ := exists_header (Nat.not_lt.mp hsix)
  obtain rfl : a = hostMid := not_not.mp hhost
  obtain rfl : b = motorRmid := not_not.mp hmotor
  have hclaimed : claimedLength (a :: b :: id :: pid :: num :: more) = 5 + (num.toNat + 1) := rfl
  have hnum : num.toNat < more.length := by
    simp only [hclaimed, List.length_cons] at hlen
    omega
  have hnumlt := num.toNat_lt
  have hlength : (more.take num.toNat).length = num.toNat := List.length_take_of_le (by omega)
  have htake : more.take (num.toNat + 1) = more.take num.toNat ++ [more[num.toNat]] :=
    (List.take_append_getElem hnum).symm
  have hbody : ((a :: b :: id :: pid :: num :: more).take (5 + (num.toNat + 1))) =
      ([a, b, id, pid, num] ++ more.take num.toNat) ++ [more[num.toNat]] := by
    rw [Nat.add_comm 5]
    change a :: b :: id :: pid :: num :: more.take (num.toNat + 1) = _
    rw [htake]
    rfl
  have hdrop : (a :: b :: id :: pid :: num :: more).drop (5 + (num.toNat + 1)) =
      more.drop (num.toNat + 1) := by
    rw [Nat.add_comm 5]
    rfl
  rw [hclaimed, hbody] at hsum
  refine ⟨⟨id, pid, more.take num.toNat, by omega⟩, ?_, ?_⟩
  · have hofNat : UInt8.ofNat (more.take num.toNat).length = num := by
      rw [hlength, UInt8.ofNat_toNat]
    rw [bytes_append, hofNat, ← checksum_eq hsum, ← hrest, hclaimed, hdrop]
    have hsplit : more = more.take num.toNat ++ more[num.toNat] :: more.drop (num.toNat + 1) := by
      rw [← List.drop_eq_getElem_cons hnum, List.take_append_drop]
    rw [← hsplit]
  · rw [← Option.some.inj hitem]
    rfl

theorem scanTurn_skips (h : scanTurn hostMid motorRmid bs = some (none, rest)) :
    ∃ b, bs = b :: rest := by
  have hcons : ∀ h6 : ¬ bs.length < 6, ∃ b, bs = b :: bs.drop 1 := by
    intro h6
    obtain ⟨a, b, id, pid, num, more, rfl⟩ := exists_header (Nat.not_lt.mp h6)
    exact ⟨a, rfl⟩
  simp only [scanTurn] at h
  split at h
  · cases h
  rename_i hsix
  split at h
  · obtain ⟨-, rfl⟩ := Prod.mk.inj (Option.some.inj h)
    exact hcons hsix
  split at h
  · cases h
  split at h
  · cases h
  · obtain ⟨-, rfl⟩ := Prod.mk.inj (Option.some.inj h)
    exact hcons hsix

/-- The scanner skips a byte exactly if it is decided that no frame begins there. -/
theorem scanTurn_skip_iff {b : UInt8} :
    scanTurn hostMid motorRmid (b :: rest) = some (none, rest) ↔
      ¬ Undecided hostMid motorRmid (b :: rest) ∧
        ∀ (f : DriveFrame) more', b :: rest ≠ f.bytes hostMid motorRmid ++ more' := by
  constructor
  · intro h
    constructor
    · intro hwait
      rw [scanTurn_eq_none_iff.mpr hwait] at h
      cases h
    · intro f more' heq
      rw [heq, scanTurn_frame] at h
      cases h
  · rintro ⟨hdecided, hnone⟩
    cases hturn : scanTurn hostMid motorRmid (b :: rest) with
    | none => exact absurd (scanTurn_eq_none_iff.mp hturn) hdecided
    | some p =>
        obtain ⟨item, rest'⟩ := p
        cases item with
        | some item =>
            obtain ⟨f, heq, -⟩ := scanTurn_takes hturn
            exact absurd heq (hnone f rest')
        | none =>
            obtain ⟨b', heq⟩ := scanTurn_skips hturn
            rw [(List.cons.inj heq).2]

end Turns

namespace Splits

variable {hostMid motorRmid} {bs more rest rest' : List UInt8} {ps qs : List Piece}

/-- Every stream splits. -/
theorem exists_pieces (bs : List UInt8) :
    ∃ ps, Splits hostMid motorRmid bs ps ((scanner hostMid motorRmid).drain bs).2 := by
  induction bs using StreamReader.drain_induction (r := scanner hostMid motorRmid) with
  | wait bs h =>
      rw [StreamReader.drain_of_wait h]
      exact ⟨[], .stop (scanTurn_eq_none_iff.mp h)⟩
  | take bs item rest h ih =>
      obtain ⟨ps, hps⟩ := ih
      rw [StreamReader.drain_of_take h]
      cases item with
      | some item =>
          obtain ⟨f, rfl, -⟩ := scanTurn_takes h
          exact ⟨_, .frame f hps⟩
      | none =>
          obtain ⟨b, rfl⟩ := scanTurn_skips h
          obtain ⟨hdecided, hnone⟩ := scanTurn_skip_iff.mp h
          exact ⟨_, .skip b hdecided hnone hps⟩

/-- In one way only. -/
theorem unique (h : Splits hostMid motorRmid bs ps rest)
    (h' : Splits hostMid motorRmid bs qs rest') : ps = qs ∧ rest = rest' := by
  induction h generalizing qs rest' with
  | stop hwait =>
      have hturn := scanTurn_eq_none_iff.mpr hwait
      cases h' with
      | stop => exact ⟨rfl, rfl⟩
      | frame f => rw [scanTurn_frame] at hturn; cases hturn
      | skip b hdecided => exact absurd hwait hdecided
  | @frame f more ps rest htail ih =>
      have hturn := scanTurn_frame hostMid motorRmid f more
      generalize hbs : f.bytes hostMid motorRmid ++ more = bs at h' hturn
      cases h' with
      | stop hwait => rw [scanTurn_eq_none_iff.mpr hwait] at hturn; cases hturn
      | frame f' htail' =>
          rw [scanTurn_frame] at hturn
          obtain ⟨hitem, rfl⟩ := Prod.mk.inj (Option.some.inj hturn)
          obtain rfl : f = f' := DriveFrame.bytes_injective (List.append_cancel_right hbs)
          obtain ⟨rfl, rfl⟩ := ih htail'
          exact ⟨rfl, rfl⟩
      | skip b hdecided hnone => exact absurd hbs.symm (hnone f more)
  | @skip b more ps rest hdecided hnone htail ih =>
      generalize hbs : b :: more = bs at h'
      cases h' with
      | stop hwait => rw [← hbs] at hwait; exact absurd hwait hdecided
      | frame f' => exact absurd hbs (hnone f' _)
      | skip b' _ _ htail' =>
          obtain ⟨rfl, rfl⟩ := List.cons.inj hbs
          obtain ⟨rfl, rfl⟩ := ih htail'
          exact ⟨rfl, rfl⟩

/-- Bytes that follow split together with the rest. -/
theorem append (h : Splits hostMid motorRmid bs ps rest)
    (h' : Splits hostMid motorRmid (rest ++ more) qs rest') :
    Splits hostMid motorRmid (bs ++ more) (ps ++ qs) rest' := by
  induction h with
  | stop => exact h'
  | frame f htail ih =>
      rw [List.append_assoc]
      exact .frame f (ih h')
  | skip b hdecided hnone htail ih =>
      have hturn := scanTurn_append hostMid motorRmid more (scanTurn_skip_iff.mpr ⟨hdecided, hnone⟩)
      obtain ⟨hdecided', hnone'⟩ := scanTurn_skip_iff.mp hturn
      exact .skip b hdecided' hnone' (ih h')

/-- The pieces and the rest, one behind the other, are the stream. -/
theorem eq_append (h : Splits hostMid motorRmid bs ps rest) :
    bs = ps.flatMap (Piece.bytes hostMid motorRmid) ++ rest := by
  induction h with
  | stop => rfl
  | frame f _ ih => rw [List.flatMap_cons, List.append_assoc, ← ih]; rfl
  | skip b _ _ _ ih => rw [List.flatMap_cons, List.append_assoc, ← ih]; rfl

end Splits

/-- The frames among the pieces, with the indices of their first bytes when the
pieces begin at index `i`. -/
def located : Nat → List Piece → List (Nat × DriveFrame)
  | _, [] => []
  | i, .frame f :: ps => (i, f) :: located (i + (5 + f.data.length + 1)) ps
  | i, .skipped _ :: ps => located (i + 1) ps

/-- How many bytes the pieces have. -/
def width : List Piece → Nat
  | [] => 0
  | .frame f :: ps => 5 + f.data.length + 1 + width ps
  | .skipped _ :: ps => 1 + width ps

section Located

variable {hostMid motorRmid} {bs rest : List UInt8} {ps qs : List Piece} {i k : Nat}
  {f : DriveFrame}

theorem located_append (i : Nat) (ps qs : List Piece) :
    located i (ps ++ qs) = located i ps ++ located (i + width ps) qs := by
  induction ps generalizing i with
  | nil => rfl
  | cons p ps ih =>
      cases p with
      | frame f =>
          simp only [List.cons_append, located, width, ih]
          rw [Nat.add_assoc i]
      | skipped b =>
          simp only [List.cons_append, located, width, ih]
          rw [Nat.add_assoc i]

theorem located_shift (k i : Nat) (ps : List Piece) :
    located (k + i) ps = (located i ps).map fun p => (k + p.1, p.2) := by
  induction ps generalizing i with
  | nil => rfl
  | cons p ps ih =>
      cases p with
      | frame f => simp only [located, List.map_cons, Nat.add_assoc k, ih]
      | skipped b => simp only [located, Nat.add_assoc k, ih]

theorem exists_of_mem_located (h : (k, f) ∈ located i ps) :
    ∃ k', k = i + k' ∧ (k', f) ∈ located 0 ps := by
  rw [← Nat.add_zero i, located_shift] at h
  obtain ⟨⟨k', f'⟩, hk', heq⟩ := List.mem_map.mp h
  obtain ⟨hk, rfl⟩ := Prod.mk.inj heq
  exact ⟨k', hk.symm, hk'⟩

theorem le_of_mem_located (h : (k, f) ∈ located i ps) : i ≤ k := by
  obtain ⟨k', rfl, -⟩ := exists_of_mem_located h
  omega

/-- No two frames share a byte. -/
theorem located_separate (i : Nat) (ps : List Piece) :
    (located i ps).Pairwise fun p q => p.1 + (5 + p.2.data.length + 1) ≤ q.1 := by
  induction ps generalizing i with
  | nil => exact .nil
  | cons p ps ih =>
      cases p with
      | frame f => exact List.pairwise_cons.mpr ⟨fun q hq => le_of_mem_located hq, ih _⟩
      | skipped b => exact ih _

theorem exists_located (h : .frame f ∈ ps) (i : Nat) : ∃ k, (k, f) ∈ located i ps := by
  induction ps generalizing i with
  | nil => cases h
  | cons p ps ih =>
      rcases List.mem_cons.mp h with rfl | hmem
      · exact ⟨i, List.mem_cons_self⟩
      · cases p with
        | frame f' =>
            obtain ⟨k, hk⟩ := ih hmem (i + (5 + f'.data.length + 1))
            exact ⟨k, List.mem_cons_of_mem _ hk⟩
        | skipped b => exact ih hmem (i + 1)

theorem mem_of_located (h : (k, f) ∈ located i ps) : .frame f ∈ ps := by
  induction ps generalizing i with
  | nil => cases h
  | cons p ps ih =>
      cases p with
      | frame f' =>
          rcases List.mem_cons.mp h with heq | hmem
          · obtain ⟨-, rfl⟩ := Prod.mk.inj heq
            exact List.mem_cons_self
          · exact List.mem_cons_of_mem _ (ih hmem)
      | skipped b => exact List.mem_cons_of_mem _ (ih h)

namespace Splits

theorem length_eq (h : Splits hostMid motorRmid bs ps rest) :
    bs.length = width ps + rest.length := by
  induction h with
  | stop => simp [width]
  | frame f _ ih =>
      rw [List.length_append, length_bytes, width, ih]
      omega
  | skip b _ _ _ ih =>
      rw [List.length_cons, width, ih]
      omega

/-- The bytes of a frame stand where it is located. -/
theorem bytes_at (h : Splits hostMid motorRmid bs ps rest) (hmem : (k, f) ∈ located 0 ps) :
    f.bytes hostMid motorRmid <+: bs.drop k := by
  induction h generalizing k with
  | stop => cases hmem
  | @frame f' more ps rest _ ih =>
      rcases List.mem_cons.mp hmem with heq | htail
      · obtain ⟨rfl, rfl⟩ := Prod.mk.inj heq
        exact List.prefix_append _ _
      · obtain ⟨k', rfl, hk'⟩ := exists_of_mem_located htail
        rw [Nat.zero_add, ← length_bytes hostMid motorRmid f', List.drop_length_add_append]
        exact ih hk'
  | @skip b more ps rest _ _ _ ih =>
      have htail : (k, f) ∈ located 1 ps := hmem
      obtain ⟨k', rfl, hk'⟩ := exists_of_mem_located htail
      rw [Nat.add_comm 1, List.drop_succ_cons]
      exact ih hk'

end Splits

end Located

/-- `scanLoop` with the index of its first byte beside each frame. -/
def scanLoopAt (buf : List UInt8) :
    Nat → Nat → List (Nat × RxFrame) → List (Nat × RxFrame) × Nat
  | 0, i, found => (found, i)
  | turns + 1, i, found =>
      if buf.length < i + 6 then (found, i)
      else if buf.getD i 0 ≠ hostMid ∨ buf.getD (i + 1) 0 ≠ motorRmid then
        scanLoopAt buf turns (i + 1) found
      else
        let num := (buf.getD (i + 4) 0).toNat
        let flen := 5 + num + 1
        if buf.length < i + flen then (found, i)
        else if byteSum ((buf.drop i).take flen) = 0 then
          scanLoopAt buf turns (i + flen)
            (found ++ [(i, ⟨buf.getD (i + 3) 0, (buf.drop (i + 5)).take num⟩)])
        else scanLoopAt buf turns (i + 1) found

/-- Without the indices it is the scan loop. -/
theorem scanLoopAt_forget (buf : List UInt8) (turns i : Nat) (found : List (Nat × RxFrame)) :
    ((scanLoopAt hostMid motorRmid buf turns i found).1.map Prod.snd,
        (scanLoopAt hostMid motorRmid buf turns i found).2) =
      scanLoop hostMid motorRmid buf turns i (found.map Prod.snd) := by
  induction turns generalizing i found with
  | zero => rfl
  | succ turns ih =>
      simp only [scanLoopAt, scanLoop]
      split
      · rfl
      split
      · exact ih _ _
      split
      · rfl
      split
      · rw [ih, List.map_append]
        rfl
      · exact ih _ _

/-- One turn decides as the scanner does at the head of the unscanned bytes. -/
theorem scanLoopAt_succ (buf : List UInt8) (turns i : Nat) (found : List (Nat × RxFrame)) :
    scanLoopAt hostMid motorRmid buf (turns + 1) i found =
      match scanTurn hostMid motorRmid (buf.drop i) with
      | none => (found, i)
      | some (none, _) => scanLoopAt hostMid motorRmid buf turns (i + 1) found
      | some (some f, _) =>
          scanLoopAt hostMid motorRmid buf turns (i + (5 + f.data.length + 1))
            (found ++ [(i, f)]) := by
  generalize hturn : scanTurn hostMid motorRmid (buf.drop i) = turn
  simp only [scanTurn, claimedLength, headFrame, getD_drop, List.length_drop,
    List.drop_drop, Nat.add_zero] at hturn
  rw [scanLoopAt]
  by_cases hsix : buf.length < i + 6
  · rw [if_pos (by omega)] at hturn
    rw [if_pos hsix, ← hturn]
  rw [if_neg (by omega)] at hturn
  rw [if_neg hsix]
  by_cases hhead : buf.getD i 0 ≠ hostMid ∨ buf.getD (i + 1) 0 ≠ motorRmid
  · rw [if_pos hhead] at hturn
    rw [if_pos hhead, ← hturn]
  rw [if_neg hhead] at hturn
  rw [if_neg hhead]
  by_cases hlen : buf.length < i + (5 + (buf.getD (i + 4) 0).toNat + 1)
  · rw [if_pos (by omega)] at hturn
    simp only [if_pos hlen]
    rw [← hturn]
  rw [if_neg (by omega)] at hturn
  simp only [if_neg hlen]
  by_cases hsum : byteSum ((buf.drop i).take (5 + (buf.getD (i + 4) 0).toNat + 1)) = 0
  · have hdata : ((buf.drop (i + 5)).take (buf.getD (i + 4) 0).toNat).length =
        (buf.getD (i + 4) 0).toNat := by
      rw [List.length_take, List.length_drop]
      omega
    rw [if_pos hsum] at hturn
    rw [if_pos hsum, ← hturn]
    simp only [hdata]
  · rw [if_neg hsum] at hturn
    rw [if_neg hsum, ← hturn]

/-- With enough turns left the loop finds the frames of the pieces where they
are located. -/
theorem scanLoopAt_splits (buf : List UInt8) (turns i : Nat) (found : List (Nat × RxFrame))
    (h : buf.length < i + turns) :
    ∃ ps, Splits hostMid motorRmid (buf.drop i) ps
        (buf.drop (scanLoopAt hostMid motorRmid buf turns i found).2) ∧
      (scanLoopAt hostMid motorRmid buf turns i found).1 =
        found ++ (located i ps).map fun p => (p.1, p.2.received) := by
  induction turns generalizing i found with
  | zero =>
      have hshort : (buf.drop i).length < 6 := by
        rw [List.length_drop]
        omega
      exact ⟨[], .stop (.inl hshort), by simp [scanLoopAt, located]⟩
  | succ turns ih =>
      rw [scanLoopAt_succ]
      rcases hturn : scanTurn hostMid motorRmid (buf.drop i) with _ | ⟨_ | item, rest⟩
      · exact ⟨[], .stop (scanTurn_eq_none_iff.mp hturn), by simp [located]⟩
      · obtain ⟨b, hb⟩ := scanTurn_skips hturn
        have hrest : rest = buf.drop (i + 1) := by
          rw [← List.drop_drop, hb]
          rfl
        rw [hb] at hturn ⊢
        obtain ⟨hdecided, hnone⟩ := scanTurn_skip_iff.mp hturn
        obtain ⟨ps, hps, hfound⟩ := ih (i + 1) found (by omega)
        rw [← hrest] at hps
        exact ⟨_, .skip b hdecided hnone hps, hfound⟩
      · obtain ⟨f, hf, rfl⟩ := scanTurn_takes hturn
        have hlen : (f.bytes hostMid motorRmid).length = 5 + f.received.data.length + 1 :=
          length_bytes hostMid motorRmid f
        have hrest : rest = buf.drop (i + (5 + f.received.data.length + 1)) := by
          rw [← List.drop_drop, hf, ← hlen, List.drop_left]
        obtain ⟨ps, hps, hfound⟩ := ih (i + (5 + f.received.data.length + 1))
          (found ++ [(i, f.received)]) (by omega)
        rw [← hrest] at hps
        rw [hf]
        refine ⟨_, .frame f hps, hfound.trans ?_⟩
        rw [List.append_assoc]
        rfl

/-- One call of `handleFrame`: where its frame begins in the stream, the clock,
the frame and the members it finds. -/
structure Handled where
  offset : Nat
  now : Time
  frame : RxFrame
  before : RxData

def Handled.after (x : Handled) : RxData := handleFrame x.now x.before x.frame

/-- The members that `readAndParse` writes, with the number of bytes it has
erased and the calls it has made. -/
structure Receiver where
  rx : RxData := {}
  rxBuf : List UInt8 := []
  erased : Nat := 0
  handled : List Handled := []

/-- The calls for the frames that a scan found behind the erased bytes. -/
def handleAll (now : Time) (erased : Nat) : RxData → List (Nat × RxFrame) → List Handled
  | _, [] => []
  | d, (i, f) :: found =>
      ⟨erased + i, now, f, d⟩ :: handleAll now erased (handleFrame now d f) found

variable (c : Config)

/-- `readAndParse` when the clock reads `read.1` and the port delivers `read.2`. -/
def Receiver.read (r : Receiver) (read : Time × List UInt8) : Receiver :=
  let buf := r.rxBuf ++ read.2
  let parsed := readAndParse c.hostMid c.motorRmid r.rxBuf read.2
  let found := (scanLoopAt c.hostMid c.motorRmid buf (buf.length + 1) 0 []).1
  { rx := parsed.1.foldl (handleFrame read.1) r.rx
    rxBuf := parsed.2
    erased := r.erased + (buf.length - parsed.2.length)
    handled := r.handled ++ handleAll read.1 r.erased r.rx found }

def receive (reads : List (Time × List UInt8)) : Receiver := reads.foldl (Receiver.read c) {}

/-- The bytes of successive reads. -/
def stream (reads : List (Time × List UInt8)) : List UInt8 := reads.flatMap Prod.snd

/-- The calls lead from the first members to the last. -/
def Leads : RxData → List Handled → RxData → Prop
  | d, [], e => d = e
  | d, x :: xs, e => x.before = d ∧ Leads x.after xs e

/-- The call stores the fields of a frame of the configured controller, whose
bytes stand at its place in the stream. -/
def StoresOwnFrame (bs : List UInt8) (x : Handled) : Prop :=
  ∃ f : DriveFrame, f.id = c.ctrlId ∧ f.bytes c.hostMid c.motorRmid <+: bs.drop x.offset ∧
    (f.pid = pidMonitor ∧ 12 ≤ f.data.length ∧
        x.after =
          { rpm := le16 f.data
            statusByte := f.data.getD 6 0
            position := le32 (f.data.drop 7)
            diByte := f.data.getD 11 0
            gotData := true
            lastRx := x.now } ∨
      f.pid = pidPosiData ∧ 4 ≤ f.data.length ∧
        x.after = { x.before with position := le32 f.data, gotData := true, lastRx := x.now })

/-- The members change only by frames of the configured controller, and no two
frames share a byte. -/
structure ChangedByController (reads : List (Time × List UInt8)) : Prop where
  onlyByCalls : Leads {} (receive c reads).handled (receive c reads).rx
  stored : ∀ x ∈ (receive c reads).handled, x.frame.HasPosition →
    StoresOwnFrame c (stream reads) x
  untouched : ∀ x ∈ (receive c reads).handled, ¬ x.frame.HasPosition → x.after = x.before
  separate : (receive c reads).handled.Pairwise fun x y =>
    x.offset + (5 + x.frame.data.length + 1) ≤ y.offset

theorem Leads.append {d e e' : RxData} {xs ys : List Handled} (h : Leads d xs e)
    (h' : Leads e ys e') : Leads d (xs ++ ys) e' := by
  induction xs generalizing d with
  | nil =>
      obtain rfl : d = e := h
      exact h'
  | cons x xs ih => exact ⟨h.1, ih h.2⟩

theorem leads_handleAll (now : Time) (erased : Nat) (d : RxData) (found : List (Nat × RxFrame)) :
    Leads d (handleAll now erased d found)
      ((found.map Prod.snd).foldl (handleFrame now) d) := by
  induction found generalizing d with
  | nil => rfl
  | cons p found ih => exact ⟨rfl, ih _⟩

/-- The place and the frame of a call. -/
def Handled.mark (x : Handled) : Nat × RxFrame := (x.offset, x.frame)

theorem handleAll_marks (now : Time) (erased : Nat) (d : RxData)
    (found : List (Nat × RxFrame)) :
    (handleAll now erased d found).map Handled.mark =
      found.map fun p => (erased + p.1, p.2) := by
  induction found generalizing d with
  | nil => rfl
  | cons p found ih => simp only [handleAll, List.map_cons, ih, Handled.mark]

/-- The calls so far are those for the frames among the pieces of the stream. -/
structure Traced (bs : List UInt8) (r : Receiver) : Prop where
  leads : Leads {} r.handled r.rx
  pieces : ∃ ps, Splits c.hostMid c.motorRmid bs ps r.rxBuf ∧ width ps = r.erased ∧
    r.handled.map Handled.mark = (located 0 ps).map fun p => (p.1, p.2.received)

variable {c} {bs : List UInt8} {r : Receiver}

/-- One read keeps the trace: the buffer goes on splitting where it was left. -/
theorem Traced.read (h : Traced c bs r) (read : Time × List UInt8) :
    Traced c (bs ++ read.2) (r.read c read) := by
  obtain ⟨ps, hps, hwidth, hmarks⟩ := h.pieces
  let buf := r.rxBuf ++ read.2
  have hrest : (readAndParse c.hostMid c.motorRmid r.rxBuf read.2).2 =
      unscanned c.hostMid c.motorRmid r.rxBuf read.2 := by
    rw [readAndParse_eq, unscanned_eq]
  have hforget := scanLoopAt_forget c.hostMid c.motorRmid buf (buf.length + 1) 0 []
  have hframes : (scanLoopAt c.hostMid c.motorRmid buf (buf.length + 1) 0 []).1.map Prod.snd =
      (readAndParse c.hostMid c.motorRmid r.rxBuf read.2).1 := congrArg Prod.fst hforget
  have hstop : (scanLoopAt c.hostMid c.motorRmid buf (buf.length + 1) 0 []).2 =
      (scanLoop c.hostMid c.motorRmid buf (buf.length + 1) 0 []).2 := congrArg Prod.snd hforget
  obtain ⟨qs, hqs, hfound⟩ :=
    scanLoopAt_splits c.hostMid c.motorRmid buf (buf.length + 1) 0 [] (by omega)
  rw [hstop, List.drop_zero] at hqs
  have hqs' : Splits c.hostMid c.motorRmid (r.rxBuf ++ read.2) qs (r.read c read).rxBuf := by
    change Splits _ _ _ qs (readAndParse c.hostMid c.motorRmid r.rxBuf read.2).2
    rw [hrest]
    exact hqs
  constructor
  · refine h.leads.append ?_
    change Leads r.rx _ ((readAndParse c.hostMid c.motorRmid r.rxBuf read.2).1.foldl
      (handleFrame read.1) r.rx)
    rw [← hframes]
    exact leads_handleAll ..
  · refine ⟨ps ++ qs, hps.append hqs', ?_, ?_⟩
    · have hlen := hps.append hqs' |>.length_eq
      have hlen' := hqs'.length_eq
      have hlen'' := hps.length_eq
      change width (ps ++ qs) = r.erased + (buf.length - (r.read c read).rxBuf.length)
      simp only [List.length_append, buf] at hlen hlen' ⊢
      omega
    · change (r.handled ++ handleAll read.1 r.erased r.rx _).map Handled.mark = _
      rw [List.map_append, hmarks, handleAll_marks, hfound, located_append, Nat.zero_add,
        hwidth, ← Nat.add_zero r.erased, located_shift]
      simp only [List.nil_append, List.map_append, List.map_map]
      rfl

theorem receive_traced (c : Config) (reads : List (Time × List UInt8)) :
    Traced c (stream reads) (receive c reads) := by
  have hall : ∀ (bs : List UInt8) (r : Receiver), Traced c bs r →
      Traced c (bs ++ stream reads) (reads.foldl (Receiver.read c) r) := by
    induction reads with
    | nil =>
        intro bs r h
        simpa [stream] using h
    | cons read reads ih =>
        intro bs r h
        have := ih _ _ (h.read read)
        simpa [stream] using this
  have hempty : Traced c [] {} := by
    refine ⟨rfl, [], .stop (.inl ?_), rfl, rfl⟩
    exact Nat.zero_lt_succ 5
  exact hall [] {} hempty

theorem Handled.after_of_not (x : Handled) (h : ¬ x.frame.HasPosition) : x.after = x.before := by
  obtain ⟨hmonitor, hposi⟩ := not_or.mp h
  rw [Handled.after, handleFrame, if_neg hmonitor, if_neg hposi]

/-- The third byte of a frame is its controller identifier. -/
theorem id_eq_third {hostMid motorRmid : UInt8} {f : DriveFrame}
    (h : f.bytes hostMid motorRmid <+: bs) : f.id = bs.getD 2 0 := by
  obtain ⟨more, rfl⟩ := h
  rw [bytes_append]
  rfl

/-- The calls store frames of the configured controller exactly if every reply
with a position among the frames of the stream carries its identifier. -/
theorem changed_by_controller_iff (c : Config) (reads : List (Time × List UInt8)) :
    ChangedByController c reads ↔
      ∀ ps rest, Splits c.hostMid c.motorRmid (stream reads) ps rest →
        ∀ f, .frame f ∈ ps → f.received.HasPosition → f.id = c.ctrlId := by
  obtain ⟨hleads, ps, hps, -, hmarks⟩ := receive_traced c reads
  constructor
  · intro h qs rest hqs f hf hposition
    obtain ⟨rfl, -⟩ := hps.unique hqs
    obtain ⟨k, hk⟩ := exists_located hf 0
    have hmark : (k, f.received) ∈ (receive c reads).handled.map Handled.mark := by
      rw [hmarks]
      exact List.mem_map.mpr ⟨_, hk, rfl⟩
    obtain ⟨x, hx, hxmark⟩ := List.mem_map.mp hmark
    obtain ⟨rfl, hframe⟩ := Prod.mk.inj hxmark
    rw [← hframe] at hposition
    obtain ⟨f', hid, hbytes, -⟩ := h.stored x hx hposition
    rw [id_eq_third (hps.bytes_at hk), ← id_eq_third hbytes, hid]
  · intro h
    have hplace : ∀ x ∈ (receive c reads).handled,
        ∃ f, (x.offset, f) ∈ located 0 ps ∧ f.received = x.frame := by
      intro x hx
      have hmark := List.mem_map_of_mem (f := Handled.mark) hx
      rw [hmarks] at hmark
      obtain ⟨⟨k, f⟩, hk, heq⟩ := List.mem_map.mp hmark
      obtain ⟨rfl, hframe⟩ := Prod.mk.inj heq
      exact ⟨f, hk, hframe⟩
    refine ⟨hleads, ?_, fun x _ => x.after_of_not, ?_⟩
    · intro x hx hposition
      obtain ⟨f, hk, hframe⟩ := hplace x hx
      rw [← hframe] at hposition
      refine ⟨f, h ps _ hps f (mem_of_located hk) hposition, hps.bytes_at hk, ?_⟩
      rw [Handled.after, handleFrame, ← hframe]
      rcases hposition with hmonitor | hposi
      · left
        rw [if_pos hmonitor]
        exact ⟨hmonitor.1, hmonitor.2, rfl⟩
      · right
        have hnot : ¬ f.received.IsMonitor := by
          intro hmonitor
          have hpid := hmonitor.1.symm.trans hposi.1
          exact absurd hpid (by decide)
        rw [if_neg hnot, if_pos hposi]
        exact ⟨hposi.1, hposi.2, rfl⟩
    · have hsep := located_separate 0 ps
      have hmapped : ((receive c reads).handled.map Handled.mark).Pairwise
          fun p q => p.1 + (5 + p.2.data.length + 1) ≤ q.1 := by
        rw [hmarks, List.pairwise_map]
        exact hsep
      exact List.pairwise_map.mp hmapped

/-- A position reply of controller 2 moves the position that the driver of
controller 1 holds. -/
theorem foreign_reply_stored :
    ¬ ChangedByController defaultConfig
      [(1, DriveFrame.bytes 172 183 ⟨2, pidPosiData, [100, 0, 0, 0], by decide⟩)] := by
  intro h
  have hcall : (receive defaultConfig
      [(1, DriveFrame.bytes 172 183 ⟨2, pidPosiData, [100, 0, 0, 0], by decide⟩)]).handled =
        [⟨0, 1, ⟨pidPosiData, [100, 0, 0, 0]⟩, {}⟩] := by rfl
  obtain ⟨f, hid, hbytes, -⟩ := h.stored ⟨0, 1, ⟨pidPosiData, [100, 0, 0, 0]⟩, {}⟩
    (by rw [hcall]; exact List.mem_singleton_self _) (.inr ⟨rfl, Nat.le_refl 4⟩)
  have hthird := id_eq_third hbytes
  rw [hid] at hthird
  exact absurd hthird (by decide)

end PolishingRobot.Lift
