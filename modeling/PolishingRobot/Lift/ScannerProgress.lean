import PolishingRobot.Lift.FrameOrigins

/-!
# How far the scanner gets

The scan loop stops after at most one turn a byte and reads only bytes that are
there. What it leaves is shorter than the longest frame, so a header of a frame
that never comes holds the scanner up for 260 bytes and no longer.
-/

namespace PolishingRobot.Lift

open PolishingRobot.Runs

variable (hostMid motorRmid : UInt8)

/-- The bytes at `start`, .., `start + n - 1`, if they all exist. -/
def readRun (buf : List UInt8) (start : Nat) : Nat → Option (List UInt8)
  | 0 => some []
  | n + 1 => do
      let bytes ← readRun buf start n
      let b ← buf[start + n]?
      some (bytes ++ [b])

/-- `scanLoop` in which each byte is looked up where the source reads it. The
result is `none` if an index is outside the buffer or the turns run out before
the loop ends. -/
def scanLoopChecked (buf : List UInt8) :
    Nat → Nat → List RxFrame → Option (List RxFrame × Nat)
  | 0, _, _ => none
  | turns + 1, i, frames =>
      if buf.length < i + 6 then some (frames, i)
      else do
        let host ← buf[i]?
        -- the second byte is read only behind a fitting first one
        if host ≠ hostMid then scanLoopChecked buf turns (i + 1) frames
        else do
          let motor ← buf[i + 1]?
          if motor ≠ motorRmid then scanLoopChecked buf turns (i + 1) frames
          else do
            let num ← buf[i + 4]?
            let flen := 5 + num.toNat + 1
            if buf.length < i + flen then some (frames, i)
            else do
              let summed ← readRun buf i flen
              if byteSum summed = 0 then do
                let pid ← buf[i + 3]?
                -- `&rx_buf_[i + 5]` is formed for a frame without data too
                let _ ← buf[i + 5]?
                let data ← readRun buf (i + 5) num.toNat
                scanLoopChecked buf turns (i + flen) (frames ++ [⟨pid, data⟩])
              else scanLoopChecked buf turns (i + 1) frames

theorem getElem?_eq_some_getD {buf : List UInt8} {i : Nat} (h : i < buf.length) :
    buf[i]? = some (buf.getD i 0) := by
  rw [List.getD_eq_getElem?_getD, List.getElem?_eq_getElem h, Option.getD_some]

theorem readRun_eq {buf : List UInt8} {start n : Nat} (h : start + n ≤ buf.length) :
    readRun buf start n = some ((buf.drop start).take n) := by
  induction n with
  | zero => rw [readRun, List.take_zero]
  | succ n ih =>
      have hlast : n < (buf.drop start).length := by
        rw [List.length_drop]
        omega
      have hget : buf[start + n]? = some (buf.drop start)[n] := by
        rw [← List.getElem?_drop, List.getElem?_eq_getElem hlast]
      rw [readRun, ih (by omega), hget, ← List.take_append_getElem hlast]
      rfl

/-- With a turn for each byte and one more, every read succeeds and the loop ends. -/
theorem scanLoopChecked_eq (buf : List UInt8) (turns i : Nat) (frames : List RxFrame)
    (hi : i ≤ buf.length) (h : buf.length < i + turns) :
    scanLoopChecked hostMid motorRmid buf turns i frames =
      some (scanLoop hostMid motorRmid buf turns i frames) := by
  induction turns generalizing i frames with
  | zero => omega
  | succ turns ih =>
      rw [scanLoopChecked, scanLoop]
      by_cases hsix : buf.length < i + 6
      · rw [if_pos hsix, if_pos hsix]
      rw [if_neg hsix, if_neg hsix, getElem?_eq_some_getD (i := i) (by omega),
        getElem?_eq_some_getD (i := i + 1) (by omega),
        getElem?_eq_some_getD (i := i + 4) (by omega),
        getElem?_eq_some_getD (i := i + 3) (by omega),
        getElem?_eq_some_getD (i := i + 5) (by omega)]
      simp only [Option.bind_eq_bind, Option.bind_some]
      by_cases hhost : buf.getD i 0 ≠ hostMid
      · rw [if_pos hhost, if_pos (.inl hhost)]
        exact ih _ _ (by omega) (by omega)
      by_cases hmotor : buf.getD (i + 1) 0 ≠ motorRmid
      · rw [if_neg hhost, if_pos hmotor, if_pos (.inr hmotor)]
        exact ih _ _ (by omega) (by omega)
      rw [if_neg hhost, if_neg hmotor, if_neg (not_or.mpr ⟨hhost, hmotor⟩)]
      by_cases hlen : buf.length < i + (5 + (buf.getD (i + 4) 0).toNat + 1)
      · rw [if_pos hlen, if_pos hlen]
      rw [if_neg hlen, if_neg hlen, readRun_eq (by omega), readRun_eq (by omega)]
      simp only [Option.bind_some]
      split
      · exact ih _ _ (by omega) (by omega)
      · exact ih _ _ (by omega) (by omega)

/-- The frames delivered and the buffer left by successive reads onto a given buffer. -/
def readOnto (rxBuf : List UInt8) (reads : List (List UInt8)) : List RxFrame × List UInt8 :=
  reads.foldl (readStep hostMid motorRmid) ([], rxBuf)

/-- No frame begins in `junk` when `more` is behind it, whatever headers it has. -/
def Frameless (junk more : List UInt8) : Prop :=
  ∀ k < junk.length, ∀ (f : DriveFrame) rest,
    (junk ++ more).drop k ≠ f.bytes hostMid motorRmid ++ rest

/-- After the first read, the given buffer is as good as received. -/
theorem readOnto_eq_drain (rxBuf bytes : List UInt8) (reads : List (List UInt8)) :
    readOnto hostMid motorRmid rxBuf (bytes :: reads) =
      (scanner hostMid motorRmid).drain (rxBuf ++ (bytes :: reads).flatten) := by
  have hstep : readStep hostMid motorRmid = (scanner hostMid motorRmid).feed := by
    funext s piece
    exact readStep_eq_feed hostMid motorRmid s piece
  have hwait : (scanner hostMid motorRmid).next
      ((scanner hostMid motorRmid).feed ([], rxBuf) bytes).2 = none :=
    (scanner hostMid motorRmid).next_rest (rxBuf ++ bytes)
  rw [readOnto, hstep, List.foldl_cons, StreamReader.feed_pieces _ hwait, List.flatten_cons,
    ← List.append_assoc, StreamReader.drain_append]
  simp [StreamReader.feed]

variable {hostMid motorRmid}

/-- With 260 bytes behind a byte, it is decided. -/
theorem scanTurn_skips_frameless {b : UInt8} {bs : List UInt8} (hlen : 260 ≤ bs.length)
    (hnone : ∀ (f : DriveFrame) rest, b :: bs ≠ f.bytes hostMid motorRmid ++ rest) :
    scanTurn hostMid motorRmid (b :: bs) = some (none, bs) := by
  apply scanTurn_skip_iff.mpr
  refine ⟨?_, hnone⟩
  intro hwait
  have := length_of_wait hostMid motorRmid (scanTurn_eq_none_iff.mpr hwait)
  rw [List.length_cons] at this
  omega

theorem drain_frameless {junk more : List UInt8} (hlen : 260 ≤ more.length)
    (hjunk : Frameless hostMid motorRmid junk more) :
    (scanner hostMid motorRmid).drain (junk ++ more) =
      (scanner hostMid motorRmid).drain more := by
  induction junk with
  | nil => rfl
  | cons b junk ih =>
      have hhead : scanTurn hostMid motorRmid (b :: (junk ++ more)) = some (none, junk ++ more) := by
        apply scanTurn_skips_frameless
        · rw [List.length_append]
          omega
        · exact hjunk 0 (Nat.zero_lt_succ _)
      have htail : Frameless hostMid motorRmid junk more := by
        intro k hk
        exact hjunk (k + 1) (Nat.succ_lt_succ hk)
      have hnext : (scanner hostMid motorRmid).next (b :: (junk ++ more)) =
        some (none, junk ++ more) := hhead
      rw [List.cons_append, StreamReader.drain_of_take hnext, ih htail]
      rfl

theorem drain_frame (f : DriveFrame) (more : List UInt8) :
    (scanner hostMid motorRmid).drain (f.bytes hostMid motorRmid ++ more) =
      (f.received :: ((scanner hostMid motorRmid).drain more).1,
        ((scanner hostMid motorRmid).drain more).2) :=
  StreamReader.drain_of_take (r := scanner hostMid motorRmid)
    (scanTurn_frame hostMid motorRmid f more)

/-- What is drained stands in front of the rest. -/
theorem drain_suffix (hostMid motorRmid : UInt8) (bs : List UInt8) :
    ((scanner hostMid motorRmid).drain bs).2 <:+ bs := by
  obtain ⟨ps, hps⟩ : ∃ ps, Splits hostMid motorRmid bs ps
      ((scanner hostMid motorRmid).drain bs).2 := Splits.exists_pieces bs
  exact ⟨_, hps.eq_append.symm⟩

/-- Every scan ends, reads only bytes that are there and leaves at most 260, so
that none is lost to the clear. However the bytes arrive, the scanner is past
each byte once 260 more have been received, and it then delivers the frame
behind bytes in which none begins, whatever lengths their headers claim. -/
theorem scanner_progress (hostMid motorRmid : UInt8) :
    (∀ rxBuf bytes,
      scanLoopChecked hostMid motorRmid (rxBuf ++ bytes) ((rxBuf ++ bytes).length + 1) 0 [] =
          some (scanLoop hostMid motorRmid (rxBuf ++ bytes) ((rxBuf ++ bytes).length + 1) 0 []) ∧
        (unscanned hostMid motorRmid rxBuf bytes).length ≤ 260 ∧
        (readAndParse hostMid motorRmid rxBuf bytes).2 =
          unscanned hostMid motorRmid rxBuf bytes) ∧
      (∀ rxBuf bytes reads p,
        p + 261 ≤ (rxBuf ++ (bytes :: reads).flatten).length →
          ∃ scanned, p < scanned.length ∧ rxBuf ++ (bytes :: reads).flatten =
            scanned ++ (readOnto hostMid motorRmid rxBuf (bytes :: reads)).2) ∧
      ∀ rxBuf bytes reads junk (f : DriveFrame) more,
        rxBuf ++ (bytes :: reads).flatten = junk ++ (f.bytes hostMid motorRmid ++ more) →
          Frameless hostMid motorRmid junk (f.bytes hostMid motorRmid ++ more) →
          260 ≤ (f.bytes hostMid motorRmid ++ more).length →
          ∃ later, (readOnto hostMid motorRmid rxBuf (bytes :: reads)).1 =
            f.received :: later := by
  refine ⟨?_, ?_, ?_⟩
  · intro rxBuf bytes
    refine ⟨scanLoopChecked_eq hostMid motorRmid _ _ 0 [] (Nat.zero_le _) (by omega),
      length_unscanned_le hostMid motorRmid rxBuf bytes, ?_⟩
    rw [readAndParse_eq, unscanned_eq]
  · intro rxBuf bytes reads p hp
    rw [readOnto_eq_drain]
    generalize rxBuf ++ (bytes :: reads).flatten = received at hp ⊢
    have hrest : ((scanner hostMid motorRmid).drain received).2.length ≤ 260 :=
      length_of_wait hostMid motorRmid ((scanner hostMid motorRmid).next_rest received)
    obtain ⟨scanned, hscanned⟩ := drain_suffix hostMid motorRmid received
    refine ⟨scanned, ?_, hscanned.symm⟩
    have hlen := congrArg List.length hscanned
    rw [List.length_append] at hlen
    omega
  · intro rxBuf bytes reads junk f more hreceived hjunk hlen
    rw [readOnto_eq_drain, hreceived, drain_frameless hlen hjunk, drain_frame]
    exact ⟨_, rfl⟩

/-- A header that claims the longest frame holds up the position reply behind it
no longer than for 260 bytes. -/
theorem reply_behind_false_header :
    ∃ later, (readOnto 172 183 [172, 183, 1, 0, 255]
        [DriveFrame.bytes 172 183 ⟨1, pidPosiData, [100, 0, 0, 0], by decide⟩,
          List.replicate 250 0]).1 = ⟨pidPosiData, [100, 0, 0, 0]⟩ :: later := by
  apply (scanner_progress 172 183).2.2 _ _ _ [172, 183, 1, 0, 255]
    ⟨1, pidPosiData, [100, 0, 0, 0], by decide⟩ (List.replicate 250 0)
  · simp only [List.flatten_cons, List.flatten_nil, List.append_nil]
  · intro k hk f rest heq
    have hskip : ∀ k < 5, (scanTurn 172 183 (([172, 183, 1, 0, 255] ++
        (DriveFrame.bytes 172 183 ⟨1, pidPosiData, [100, 0, 0, 0], by decide⟩ ++
          List.replicate 250 0)).drop k)).map Prod.fst = some none := by decide +kernel
    have hturn := hskip k hk
    rw [heq, scanTurn_frame] at hturn
    cases hturn
  · rw [List.length_append, List.length_replicate, length_bytes]
    decide

end PolishingRobot.Lift
