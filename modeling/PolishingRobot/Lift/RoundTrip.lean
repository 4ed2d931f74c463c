import Mathlib.Data.List.Chain
import PolishingRobot.Lift.Scanner

/-!
# What the drive sends is what the driver receives

The drive lays its frames out as `sendFrame` does, with the two machine
identifiers swapped. Behind noise that never shows the header, the scanner
delivers exactly the frames on the line, whatever their data contains.
-/

namespace PolishingRobot.Lift

open PolishingRobot.Runs

variable (hostMid motorRmid : UInt8)

/-- A frame of the drive: its length byte can count its data. -/
structure DriveFrame where
  id : UInt8
  pid : UInt8
  data : List UInt8
  fits : data.length ≤ 255

/-- The bytes of the frame on the line to the host. -/
def DriveFrame.bytes (f : DriveFrame) : List UInt8 :=
  frameBytes hostMid motorRmid f.id f.pid f.data

/-- What the driver's callback gets of the frame. -/
def DriveFrame.received (f : DriveFrame) : RxFrame := ⟨f.pid, f.data⟩

/-- The bytes of successive frames. -/
def lineBytes (frames : List DriveFrame) : List UInt8 :=
  frames.flatMap (DriveFrame.bytes hostMid motorRmid)

/-- No byte pair of the noise is the header of a frame. -/
def NoHeader (noise : List UInt8) : Prop :=
  noise.IsChain fun a b => ¬ (a = hostMid ∧ b = motorRmid)

instance (noise : List UInt8) : Decidable (NoHeader hostMid motorRmid noise) :=
  inferInstanceAs (Decidable (List.IsChain _ _))

theorem byteSum_append_singleton (body : List UInt8) (b : UInt8) :
    byteSum (body ++ [b]) = byteSum body + b := by
  simp [byteSum]

/-- The checksum byte brings the sum of the frame to zero. -/
theorem byteSum_frameBytes (rmid tmid id pid : UInt8) (data : List UInt8) :
    byteSum (frameBytes rmid tmid id pid data) = 0 := by
  simp only [frameBytes, byteSum_append_singleton, UInt8.zero_sub]
  exact UInt8.add_right_neg _

theorem length_bytes (f : DriveFrame) :
    (f.bytes hostMid motorRmid).length = 5 + f.data.length + 1 := by
  simp only [DriveFrame.bytes, frameBytes, List.length_append, List.length_cons, List.length_nil]

theorem bytes_append (f : DriveFrame) (more : List UInt8) :
    f.bytes hostMid motorRmid ++ more =
      hostMid :: motorRmid :: f.id :: f.pid :: UInt8.ofNat f.data.length ::
        (f.data ++ (0 - byteSum ([hostMid, motorRmid, f.id, f.pid,
          UInt8.ofNat f.data.length] ++ f.data)) :: more) := by
  simp [DriveFrame.bytes, frameBytes]

/-- At the head of a frame the scanner takes exactly that frame. -/
theorem scanTurn_frame (f : DriveFrame) (more : List UInt8) :
    scanTurn hostMid motorRmid (f.bytes hostMid motorRmid ++ more) =
      some (some f.received, more) := by
  have hlen := length_bytes hostMid motorRmid f
  have hnum : (UInt8.ofNat f.data.length).toNat = f.data.length := by
    have := f.fits
    simp only [UInt8.toNat_ofNat']
    omega
  have hclaimed : claimedLength (f.bytes hostMid motorRmid ++ more) =
      (f.bytes hostMid motorRmid).length := by
    rw [hlen, bytes_append]
    simp [claimedLength, hnum]
  have hhead : headFrame (f.bytes hostMid motorRmid ++ more) = f.received := by
    rw [bytes_append]
    simp [headFrame, DriveFrame.received, hnum]
  have htake : (f.bytes hostMid motorRmid ++ more).take (f.bytes hostMid motorRmid).length =
      f.bytes hostMid motorRmid := List.take_left
  have hdrop : (f.bytes hostMid motorRmid ++ more).drop (f.bytes hostMid motorRmid).length =
      more := List.drop_left
  have hmids : ¬ ((f.bytes hostMid motorRmid ++ more).getD 0 0 ≠ hostMid ∨
      (f.bytes hostMid motorRmid ++ more).getD 1 0 ≠ motorRmid) := by
    rw [bytes_append]
    simp
  have hsix : ¬ (f.bytes hostMid motorRmid ++ more).length < 6 := by
    simp only [List.length_append]
    omega
  have hwhole : ¬ (f.bytes hostMid motorRmid ++ more).length <
      (f.bytes hostMid motorRmid).length := by
    simp only [List.length_append]
    omega
  have hsum : byteSum (f.bytes hostMid motorRmid) = 0 := byteSum_frameBytes ..
  simp only [scanTurn]
  rw [if_neg hsix, if_neg hmids, hclaimed, if_neg hwhole, htake, if_pos hsum, hhead, hdrop]

/-- The scanner skips a byte that does not start a header. -/
theorem scanTurn_skip {b : UInt8} {rest : List UInt8} (hlen : 5 ≤ rest.length)
    (h : ¬ (b = hostMid ∧ rest.getD 0 0 = motorRmid)) :
    scanTurn hostMid motorRmid (b :: rest) = some (none, rest) := by
  have hsix : ¬ (b :: rest).length < 6 := by
    simp only [List.length_cons]
    omega
  have hhead : (b :: rest).getD 0 0 ≠ hostMid ∨ (b :: rest).getD 1 0 ≠ motorRmid := by
    by_cases hb : b = hostMid
    · exact .inr fun hr => h ⟨hb, hr⟩
    · exact .inl hb
  simp only [scanTurn]
  rw [if_neg hsix, if_pos hhead]
  rfl

theorem drain_lineBytes (frames : List DriveFrame) :
    (scanner hostMid motorRmid).drain (lineBytes hostMid motorRmid frames) =
      (frames.map DriveFrame.received, []) := by
  induction frames with
  | nil =>
      refine StreamReader.drain_of_wait ?_
      simp [scanner, scanTurn, lineBytes]
  | cons f frames ih =>
      have htake : (scanner hostMid motorRmid).next
          (lineBytes hostMid motorRmid (f :: frames)) =
            some (some f.received, lineBytes hostMid motorRmid frames) :=
        scanTurn_frame hostMid motorRmid f _
      rw [StreamReader.drain_of_take htake, ih]
      rfl

/-- Noise in front of a frame is skipped: its last byte and the frame's first
make no header either, since that byte is not the motor's identifier. -/
theorem drain_noise (hmids : hostMid ≠ motorRmid) (noise : List UInt8)
    (hnoise : NoHeader hostMid motorRmid noise) (f : DriveFrame) (more : List UInt8) :
    (scanner hostMid motorRmid).drain (noise ++ (f.bytes hostMid motorRmid ++ more)) =
      (scanner hostMid motorRmid).drain (f.bytes hostMid motorRmid ++ more) := by
  induction noise with
  | nil => rfl
  | cons b noise ih =>
      have hrest : NoHeader hostMid motorRmid noise := hnoise.tail
      have hlen : 5 ≤ (noise ++ (f.bytes hostMid motorRmid ++ more)).length := by
        have := length_bytes hostMid motorRmid f
        simp only [List.length_append]
        omega
      have hpair : ¬ (b = hostMid ∧
          (noise ++ (f.bytes hostMid motorRmid ++ more)).getD 0 0 = motorRmid) := by
        cases noise with
        | nil =>
            rw [List.nil_append, bytes_append]
            exact fun h => hmids h.2
        | cons b' noise => exact (List.isChain_cons_cons.mp hnoise).1
      have hskip : (scanner hostMid motorRmid).next
          (b :: noise ++ (f.bytes hostMid motorRmid ++ more)) =
            some (none, noise ++ (f.bytes hostMid motorRmid ++ more)) :=
        scanTurn_skip hostMid motorRmid hlen hpair
      rw [StreamReader.drain_of_take hskip, ih hrest]
      rfl

/-- Noise alone delivers nothing. -/
theorem drain_noise_alone (noise : List UInt8) (hnoise : NoHeader hostMid motorRmid noise) :
    ((scanner hostMid motorRmid).drain noise).1 = [] := by
  induction noise with
  | nil => simp [StreamReader.drain_of_wait, scanner, scanTurn]
  | cons b noise ih =>
      by_cases hlen : 5 ≤ noise.length
      · have hpair : ¬ (b = hostMid ∧ noise.getD 0 0 = motorRmid) := by
          cases noise with
          | nil => cases hlen
          | cons b' noise => exact (List.isChain_cons_cons.mp hnoise).1
        have hskip : (scanner hostMid motorRmid).next (b :: noise) = some (none, noise) :=
          scanTurn_skip hostMid motorRmid hlen hpair
        rw [StreamReader.drain_of_take hskip, ih hnoise.tail]
        rfl
      · have hwait : (scanner hostMid motorRmid).next (b :: noise) = none := by
          simp only [scanner, scanTurn]
          rw [if_pos (by simp only [List.length_cons]; omega)]
        rw [StreamReader.drain_of_wait hwait]

/-- The frames on the line are the frames delivered, none lost, none
duplicated and none invented, however the line is cut into reads. -/
theorem frames_delivered (hmids : hostMid ≠ motorRmid) (noise : List UInt8)
    (hnoise : NoHeader hostMid motorRmid noise) (frames : List DriveFrame) :
    (readAndParse hostMid motorRmid [] (noise ++ lineBytes hostMid motorRmid frames)).1 =
        frames.map DriveFrame.received ∧
      ∀ reads : List (List UInt8),
        reads.flatten = noise ++ lineBytes hostMid motorRmid frames →
          (readAll hostMid motorRmid reads).1 = frames.map DriveFrame.received := by
  have hdrain : ((scanner hostMid motorRmid).drain
      (noise ++ lineBytes hostMid motorRmid frames)).1 = frames.map DriveFrame.received := by
    cases frames with
    | nil => simpa [lineBytes] using drain_noise_alone hostMid motorRmid noise hnoise
    | cons f frames =>
        have hline : lineBytes hostMid motorRmid (f :: frames) =
            f.bytes hostMid motorRmid ++ lineBytes hostMid motorRmid frames := rfl
        rw [hline, drain_noise hostMid motorRmid hmids noise hnoise, ← hline, drain_lineBytes]
  constructor
  · rw [readAndParse_eq, List.nil_append, hdrain]
  · intro reads hreads
    rw [readAll_eq_drain, hreads, hdrain]

/-- A frame whose data holds a header, behind noise that ends in a header's first byte. -/
theorem frames_delivered_header_in_data :
    (readAndParse 172 183 [] ([183, 172] ++
      lineBytes 172 183 [⟨1, pidPosiData, [172, 183, 1, 0], by decide⟩])).1 =
        [⟨pidPosiData, [172, 183, 1, 0]⟩] ∧
      (readAll 172 183 [[183, 172, 172, 183, 1], [197, 4, 172, 183, 1, 0, 111]]).1 =
        [⟨pidPosiData, [172, 183, 1, 0]⟩] := by
  have h := frames_delivered 172 183 (by decide) [183, 172] (by decide)
    [⟨1, pidPosiData, [172, 183, 1, 0], by decide⟩]
  exact ⟨h.1, h.2 _ (by decide)⟩

end PolishingRobot.Lift
