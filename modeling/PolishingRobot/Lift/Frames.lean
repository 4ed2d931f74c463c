import Mathlib.Data.List.Basic

/-!
# Frames on the lift's RS485 line

The driver sends `[motor_rmid, host_mid, id, pid, num, data.., chk]` and scans
the received bytes for `[host_mid, motor_rmid, id, pid, num, data.., chk]`
whose byte sum is 0 modulo 256.
-/

namespace PolishingRobot.Lift

def pidReqPidData : UInt8 := 4
def pidAlarmReset : UInt8 := 12
def pidPosiReset : UInt8 := 13
def pidVelCmd : UInt8 := 130
def pidTarPosiVel : UInt8 := 176
def pidMonitor : UInt8 := 196
def pidPosiData : UInt8 := 197
def pidPosiCmd : UInt8 := 243
def pidIncPosiCmd : UInt8 := 244

/-- The commands the driver puts on the line, one constructor per `send*`
function of the source. -/
inductive TxFrame where
  | velCmd (rpm : Int16)
  | posiCmd (counts : Int32)
  | incPosiCmd (counts : Int32)
  | tarPosiVel (rpm : UInt16)
  | posiReset
  | alarmReset
  | reqPidData (pid : UInt8)
  deriving DecidableEq, Repr

/-- The two bytes of a word, low byte first. -/
def word16 (v : UInt16) : List UInt8 := [v.toUInt8, (v >>> 8).toUInt8]

/-- The four bytes of a word, low byte first. -/
def word32 (v : UInt32) : List UInt8 :=
  [v.toUInt8, (v >>> 8).toUInt8, (v >>> 16).toUInt8, (v >>> 24).toUInt8]

def TxFrame.pid : TxFrame → UInt8
  | .velCmd _ => pidVelCmd
  | .posiCmd _ => pidPosiCmd
  | .incPosiCmd _ => pidIncPosiCmd
  | .tarPosiVel _ => pidTarPosiVel
  | .posiReset => pidPosiReset
  | .alarmReset => pidAlarmReset
  | .reqPidData _ => pidReqPidData

def TxFrame.data : TxFrame → List UInt8
  | .velCmd rpm => word16 rpm.toUInt16
  | .posiCmd counts => word32 counts.toUInt32
  | .incPosiCmd counts => word32 counts.toUInt32
  | .tarPosiVel rpm => word16 rpm
  | .posiReset => [0]
  | .alarmReset => [0]
  | .reqPidData pid => [pid]

/-- The sum of a byte list modulo 256. -/
def byteSum (bytes : List UInt8) : UInt8 := bytes.foldl (· + ·) 0

/-- Receiver and sender identifiers, controller id, parameter, length, data and
the two's-complement checksum. -/
def frameBytes (rmid tmid id pid : UInt8) (data : List UInt8) : List UInt8 :=
  let body := [rmid, tmid, id, pid, UInt8.ofNat data.length] ++ data
  body ++ [0 - byteSum body]

/-- What the scanner hands to `handleFrame`. -/
structure RxFrame where
  pid : UInt8
  data : List UInt8
  deriving DecidableEq, Repr

/-- Two bytes, low byte first, as a signed word. -/
def le16 (b : List UInt8) : Int16 :=
  ((b.getD 0 0).toUInt16 ||| (b.getD 1 0).toUInt16 <<< 8).toInt16

/-- Four bytes, low byte first, as a signed word. -/
def le32 (b : List UInt8) : Int32 :=
  ((b.getD 0 0).toUInt32 ||| (b.getD 1 0).toUInt32 <<< 8 |||
    (b.getD 2 0).toUInt32 <<< 16 ||| (b.getD 3 0).toUInt32 <<< 24).toInt32

/-- A monitor reply long enough for `handleFrame` to take all its fields. -/
def RxFrame.IsMonitor (f : RxFrame) : Prop := f.pid = pidMonitor ∧ 12 ≤ f.data.length

/-- A position reply long enough for `handleFrame` to take its position. -/
def RxFrame.IsPosiData (f : RxFrame) : Prop := f.pid = pidPosiData ∧ 4 ≤ f.data.length

instance (f : RxFrame) : Decidable f.IsMonitor := inferInstanceAs (Decidable (_ ∧ _))
instance (f : RxFrame) : Decidable f.IsPosiData := inferInstanceAs (Decidable (_ ∧ _))

/-- A reply that carries a position. -/
def RxFrame.HasPosition (f : RxFrame) : Prop := f.IsMonitor ∨ f.IsPosiData

instance (f : RxFrame) : Decidable f.HasPosition := inferInstanceAs (Decidable (_ ∨ _))

/-- The position field of an accepted frame. -/
def RxFrame.position (f : RxFrame) : Int32 :=
  if f.IsMonitor then le32 (f.data.drop 7) else le32 f.data

/-- A monitor reply without an alarm at a position below 256. -/
def monitorReply (position di : UInt8) : RxFrame :=
  ⟨pidMonitor, [0, 0, 0, 0, 0, 0, 0, position, 0, 0, 0, di]⟩

/-- The scan loop of `readAndParse` from index `i`: the frames it hands over,
in order, and the index it stops at. Each turn advances `i`, so the buffer
length bounds the number of turns. -/
def scanLoop (hostMid motorRmid : UInt8) (buf : List UInt8) :
    Nat → Nat → List RxFrame → List RxFrame × Nat
  | 0, i, frames => (frames, i)
  | turns + 1, i, frames =>
      if buf.length < i + 6 then (frames, i)
      else if buf.getD i 0 ≠ hostMid ∨ buf.getD (i + 1) 0 ≠ motorRmid then
        scanLoop hostMid motorRmid buf turns (i + 1) frames
      else
        let num := (buf.getD (i + 4) 0).toNat
        let flen := 5 + num + 1
        if buf.length < i + flen then (frames, i)
        else if byteSum ((buf.drop i).take flen) = 0 then
          scanLoop hostMid motorRmid buf turns (i + flen)
            (frames ++ [⟨buf.getD (i + 3) 0, (buf.drop (i + 5)).take num⟩])
        else scanLoop hostMid motorRmid buf turns (i + 1) frames

/-- `readAndParse`: append the bytes of this read, scan, erase what was
scanned, and clear an overlong remainder. -/
def readAndParse (hostMid motorRmid : UInt8) (rxBuf bytes : List UInt8) :
    List RxFrame × List UInt8 :=
  let buf := rxBuf ++ bytes
  let scanned := scanLoop hostMid motorRmid buf (buf.length + 1) 0 []
  let rest := buf.drop scanned.2
  (scanned.1, if rest.length > 512 then [] else rest)

/-- A position reply behind a stray header byte is found; the byte after it stays. -/
example :
    readAndParse 172 183 [0xAC] (frameBytes 172 183 1 pidPosiData [1, 2, 0, 0] ++ [9]) =
      ([⟨pidPosiData, [1, 2, 0, 0]⟩], [9]) := by decide

end PolishingRobot.Lift
