import Mathlib.Data.List.GetD
import PolishingRobot.Lift.Frames
import PolishingRobot.Runs.StreamReaders

/-!
# The scanner of the lift's RS485 line

`readAndParse` is a stream reader: at the head of its buffer it waits, skips
one byte or hands over one frame, and no later byte changes that decision. So
the frames it delivers depend on the received bytes alone, and a line that
carries whole frames behind header-free noise delivers exactly those frames.
-/

namespace PolishingRobot.Lift

open PolishingRobot.Runs

variable (hostMid motorRmid : UInt8)

/-- The bytes of the frame that the header at the head announces. -/
def claimedLength (buf : List UInt8) : Nat := 5 + (buf.getD 4 0).toNat + 1

/-- The frame at the head of the buffer. -/
def headFrame (buf : List UInt8) : RxFrame :=
  ⟨buf.getD 3 0, (buf.drop 5).take (buf.getD 4 0).toNat⟩

/-- One turn of the scan loop at the head of the unscanned bytes. -/
def scanTurn (buf : List UInt8) : Option (Option RxFrame × List UInt8) :=
  if buf.length < 6 then none
  else if buf.getD 0 0 ≠ hostMid ∨ buf.getD 1 0 ≠ motorRmid then some (none, buf.drop 1)
  else if buf.length < claimedLength buf then none
  else if byteSum (buf.take (claimedLength buf)) = 0 then
    some (some (headFrame buf), buf.drop (claimedLength buf))
  else some (none, buf.drop 1)

theorem claimedLength_append {buf : List UInt8} (more : List UInt8) (h : 6 ≤ buf.length) :
    claimedLength (buf ++ more) = claimedLength buf := by
  simp only [claimedLength]
  rw [List.getD_append _ _ _ 4 (by omega)]

theorem claimedLength_le (buf : List UInt8) : claimedLength buf ≤ 261 := by
  have := (buf.getD 4 0).toNat_lt
  simp only [claimedLength]
  omega

theorem headFrame_append {buf : List UInt8} (more : List UInt8)
    (h : claimedLength buf ≤ buf.length) : headFrame (buf ++ more) = headFrame buf := by
  simp only [claimedLength] at h
  simp only [headFrame, RxFrame.mk.injEq]
  rw [List.getD_append _ _ _ 3 (by omega), List.getD_append _ _ _ 4 (by omega),
    List.drop_append_of_le_length (by omega),
    List.take_append_of_le_length (by simp only [List.length_drop]; omega)]
  exact ⟨rfl, rfl⟩

theorem scanTurn_shrinks {buf rest : List UInt8} {item : Option RxFrame}
    (h : scanTurn hostMid motorRmid buf = some (item, rest)) : rest.length < buf.length := by
  have hpos : 0 < claimedLength buf := by simp only [claimedLength]; omega
  simp only [scanTurn] at h
  split at h
  · cases h
  · split at h
    · cases h; simp only [List.length_drop]; omega
    · split at h
      · cases h
      · split at h
        · cases h; simp only [List.length_drop]; omega
        · cases h; simp only [List.length_drop]; omega

/-- Bytes behind the head never change a decision. -/
theorem scanTurn_append {buf rest : List UInt8} {item : Option RxFrame} (more : List UInt8)
    (h : scanTurn hostMid motorRmid buf = some (item, rest)) :
    scanTurn hostMid motorRmid (buf ++ more) = some (item, rest ++ more) := by
  simp only [scanTurn] at h ⊢
  split at h
  · cases h
  next hsix =>
    have hsix' : ¬ (buf ++ more).length < 6 := by simp only [List.length_append]; omega
    rw [if_neg hsix', List.getD_append _ _ _ 0 (by omega), List.getD_append _ _ _ 1 (by omega),
      claimedLength_append more (by omega)]
    have hskip : (buf ++ more).drop 1 = buf.drop 1 ++ more :=
      List.drop_append_of_le_length (by omega)
    split at h
    next hhead => cases h; rw [if_pos hhead, hskip]
    next hhead =>
      rw [if_neg hhead]
      split at h
      · cases h
      next hlen =>
        have hlen' : ¬ (buf ++ more).length < claimedLength buf := by
          simp only [List.length_append]; omega
        rw [if_neg hlen', List.take_append_of_le_length (by omega),
          List.drop_append_of_le_length (by omega), headFrame_append more (by omega), hskip]
        split at h
        next hsum => cases h; rw [if_pos hsum]
        next hsum => cases h; rw [if_neg hsum]

/-- The scan loop as a reader of the serial stream. -/
def scanner : StreamReader UInt8 RxFrame where
  next := scanTurn hostMid motorRmid
  shrinks := scanTurn_shrinks hostMid motorRmid
  stable := scanTurn_append hostMid motorRmid

theorem getD_drop (buf : List UInt8) (i k : Nat) :
    (buf.drop i).getD k 0 = buf.getD (i + k) 0 := by
  simp [List.getD_eq_getElem?_getD]

/-- With enough turns left, the loop from index `i` hands over what draining
the rest of the buffer does, and stops where draining stops. -/
theorem scanLoop_eq_drain (buf : List UInt8) (turns i : Nat) (frames : List RxFrame)
    (h : buf.length < i + turns) :
    (scanLoop hostMid motorRmid buf turns i frames).1 =
        frames ++ ((scanner hostMid motorRmid).drain (buf.drop i)).1 ∧
      buf.drop (scanLoop hostMid motorRmid buf turns i frames).2 =
        ((scanner hostMid motorRmid).drain (buf.drop i)).2 := by
  induction turns generalizing i frames with
  | zero =>
      have hwait : (scanner hostMid motorRmid).next (buf.drop i) = none := by
        simp only [scanner, scanTurn]
        rw [if_pos (by simp only [List.length_drop]; omega)]
      simp [scanLoop, StreamReader.drain_of_wait hwait]
  | succ turns ih =>
      have hnext : (scanner hostMid motorRmid).next (buf.drop i) =
          scanTurn hostMid motorRmid (buf.drop i) := rfl
      have hskip : (buf.drop i).drop 1 = buf.drop (i + 1) := List.drop_drop
      simp only [scanTurn, claimedLength, headFrame, getD_drop, List.length_drop,
        List.drop_drop, Nat.add_zero] at hnext
      rw [scanLoop]
      by_cases hsix : buf.length < i + 6
      · rw [if_pos (by omega)] at hnext
        rw [if_pos hsix, StreamReader.drain_of_wait hnext]
        simp
      rw [if_neg (by omega)] at hnext
      rw [if_neg hsix]
      by_cases hhead : buf.getD i 0 ≠ hostMid ∨ buf.getD (i + 1) 0 ≠ motorRmid
      · rw [if_pos hhead] at hnext
        rw [if_pos hhead, StreamReader.drain_of_take hnext]
        simpa using ih (i + 1) frames (by omega)
      rw [if_neg hhead] at hnext
      rw [if_neg hhead]
      by_cases hlen : buf.length < i + (5 + (buf.getD (i + 4) 0).toNat + 1)
      · rw [if_pos (by omega)] at hnext
        simp only [if_pos hlen]
        rw [StreamReader.drain_of_wait hnext]
        simp
      rw [if_neg (by omega)] at hnext
      simp only [if_neg hlen]
      by_cases hsum : byteSum ((buf.drop i).take (5 + (buf.getD (i + 4) 0).toNat + 1)) = 0
      · rw [if_pos hsum] at hnext
        rw [if_pos hsum, StreamReader.drain_of_take hnext]
        have := ih (i + (5 + (buf.getD (i + 4) 0).toNat + 1))
          (frames ++ [⟨buf.getD (i + 3) 0,
            (buf.drop (i + 5)).take (buf.getD (i + 4) 0).toNat⟩]) (by omega)
        simpa using this
      · rw [if_neg hsum] at hnext
        rw [if_neg hsum, StreamReader.drain_of_take hnext]
        simpa using ih (i + 1) frames (by omega)

/-- The bytes that `readAndParse` keeps after erasing what it scanned and
before the clear of an overlong buffer. -/
def unscanned (rxBuf bytes : List UInt8) : List UInt8 :=
  (rxBuf ++ bytes).drop
    (scanLoop hostMid motorRmid (rxBuf ++ bytes) ((rxBuf ++ bytes).length + 1) 0 []).2

theorem unscanned_eq (rxBuf bytes : List UInt8) :
    unscanned hostMid motorRmid rxBuf bytes =
      ((scanner hostMid motorRmid).drain (rxBuf ++ bytes)).2 := by
  exact (scanLoop_eq_drain hostMid motorRmid (rxBuf ++ bytes)
    ((rxBuf ++ bytes).length + 1) 0 [] (by omega)).2

/-- A waiting scanner holds less than the longest frame. -/
theorem length_of_wait {buf : List UInt8} (h : scanTurn hostMid motorRmid buf = none) :
    buf.length ≤ 260 := by
  have hmax := claimedLength_le buf
  simp only [scanTurn] at h
  split at h
  · omega
  · split at h
    · cases h
    · split at h
      · omega
      · split at h <;> cases h

theorem length_unscanned_le (rxBuf bytes : List UInt8) :
    (unscanned hostMid motorRmid rxBuf bytes).length ≤ 260 := by
  rw [unscanned_eq]
  exact length_of_wait hostMid motorRmid
    ((scanner hostMid motorRmid).next_rest (rxBuf ++ bytes))

/-- The clear is never taken: one read is one piece fed to the scanner. -/
theorem readAndParse_eq (rxBuf bytes : List UInt8) :
    readAndParse hostMid motorRmid rxBuf bytes =
      (scanner hostMid motorRmid).drain (rxBuf ++ bytes) := by
  have hloop := scanLoop_eq_drain hostMid motorRmid (rxBuf ++ bytes)
    ((rxBuf ++ bytes).length + 1) 0 [] (by omega)
  have hshort : ¬ (unscanned hostMid motorRmid rxBuf bytes).length > 512 := by
    have := length_unscanned_le hostMid motorRmid rxBuf bytes
    omega
  simp only [unscanned] at hshort
  simp only [readAndParse, if_neg hshort]
  exact Prod.ext (by simpa using hloop.1) (by simpa using hloop.2)

/-- One read: the delivered frames are appended, the buffer is kept. -/
def readStep (s : List RxFrame × List UInt8) (bytes : List UInt8) :
    List RxFrame × List UInt8 :=
  (s.1 ++ (readAndParse hostMid motorRmid s.2 bytes).1,
    (readAndParse hostMid motorRmid s.2 bytes).2)

/-- The frames delivered and the buffer left by successive reads. -/
def readAll (reads : List (List UInt8)) : List RxFrame × List UInt8 :=
  reads.foldl (readStep hostMid motorRmid) ([], [])

theorem readStep_eq_feed (s : List RxFrame × List UInt8) (bytes : List UInt8) :
    readStep hostMid motorRmid s bytes = (scanner hostMid motorRmid).feed s bytes := by
  simp [readStep, readAndParse_eq, StreamReader.feed]

/-- Successive reads do what one scan of the whole stream does. -/
theorem readAll_eq_drain (reads : List (List UInt8)) :
    readAll hostMid motorRmid reads = (scanner hostMid motorRmid).drain reads.flatten := by
  have hempty : (scanner hostMid motorRmid).next [] = none := by simp [scanner, scanTurn]
  have hstep : readStep hostMid motorRmid = (scanner hostMid motorRmid).feed := by
    funext s bytes
    exact readStep_eq_feed hostMid motorRmid s bytes
  rw [readAll, hstep, StreamReader.feed_pieces _ hempty]
  simp [StreamReader.feed]

/-- However a byte stream is cut into reads, the delivered frames and the
buffer are those of feeding it byte by byte, and every read keeps all that its
scan left: the clear never finds more than 512 bytes. -/
theorem reads_independent_of_cuts (reads : List (List UInt8)) :
    readAll hostMid motorRmid reads =
        readAll hostMid motorRmid (reads.flatten.map fun b => [b]) ∧
      ∀ before bytes,
        (unscanned hostMid motorRmid (readAll hostMid motorRmid before).2 bytes).length ≤ 512 ∧
          (readAll hostMid motorRmid (before ++ [bytes])).2 =
            unscanned hostMid motorRmid (readAll hostMid motorRmid before).2 bytes := by
  constructor
  · have hbytes : (reads.flatten.map fun b => [b]).flatten = reads.flatten := by
      induction reads.flatten with
      | nil => rfl
      | cons b bs ih => simp [ih]
    rw [readAll_eq_drain, readAll_eq_drain, hbytes]
  · intro before bytes
    have hshort := length_unscanned_le hostMid motorRmid (readAll hostMid motorRmid before).2 bytes
    refine ⟨by omega, ?_⟩
    rw [unscanned_eq, ← readAndParse_eq]
    simp [readAll, readStep]

end PolishingRobot.Lift
