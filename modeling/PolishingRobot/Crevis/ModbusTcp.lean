import PolishingRobot.Crevis.Node
import PolishingRobot.Safety.AnswerFraming

/-!
# The Modbus/TCP client of the Crevis node

The client behind the node's transactions, down to the bytes. It has the frames
of the safety node's client and keeps less of its order: a header is not
compared with the request, and an answer that fails the checks of its caller
leaves the connection open.
-/

namespace PolishingRobot.Crevis

open Safety (Exchange)
open Safety.ModbusTcpClient (be16 highByte receiveAll receiveAll_eq_some requestBytes bodyLength
  IsException)

structure ModbusTcp where
  unit : UInt8
  /-- The unread bytes of the open connection. -/
  socket : Option (List UInt8) := none
  tid : UInt16 := 0
  /-- The requests sent so far. -/
  requests : List (List UInt8) := []
  deriving DecidableEq, Repr

/-- What a read returns, and what its reference parameter `out` then holds:
`none` after an access outside the answer. -/
structure Returned (α : Type) where
  ok : Bool
  out : Option (List α)
  deriving DecidableEq, Repr

namespace ModbusTcp

def closeSock (cl : ModbusTcp) : ModbusTcp := { cl with socket := none }

/-- `openSock`: what was open is closed first. -/
def openSock (opens : Bool) (cl : ModbusTcp) : ModbusTcp :=
  { cl with socket := if opens then some [] else none }

/-- The only check that `transact` makes on a received header. -/
def acceptsLength (header : List UInt8) : Bool :=
  let rlen := be16 (header.getD 4 0) (header.getD 5 0)
  2 ≤ rlen && rlen ≤ 253

/-- `transact`: the answer's PDU, or `none`. An exception answer leaves the
connection open. -/
def transact (x : Exchange) (pdu : List UInt8) (cl : ModbusTcp) :
    Option (List UInt8) × ModbusTcp :=
  match (if cl.socket = none ∧ x.opens then some [] else cl.socket) with
  | none => (none, cl)
  | some unread =>
      let tid := cl.tid + 1
      let cl := { cl with tid := tid, requests := cl.requests ++ [requestBytes tid cl.unit pdu] }
      if ¬ x.sends then (none, cl.closeSock)
      else
        match receiveAll 7 (unread ++ x.arrives) with
        | none => (none, cl.closeSock)
        | some (header, rest) =>
            if ¬ acceptsLength header then (none, cl.closeSock)
            else
              match receiveAll (bodyLength header) rest with
              | none => (none, cl.closeSock)
              | some (body, unread) =>
                  let cl := { cl with socket := some unread }
                  if body.getD 0 0 &&& 0x80 ≠ 0 then (none, cl) else (some body, cl)

/-- The PDU of both reads. -/
def readPdu (fc : UInt8) (addr qty : UInt16) : List UInt8 :=
  [fc, highByte addr, addr.toUInt8, highByte qty, qty.toUInt8]

/-- The checks that both reads make on an answer: its function code, and room
for as many bytes as it announces. -/
def acceptsRead (fc : UInt8) (r : List UInt8) : Bool :=
  2 ≤ r.length && r.getD 0 0 == fc && 2 + (r.getD 1 0).toNat ≤ r.length

/-- The part that both reads share; `decode` reads the values out of the answer. -/
def readValues {α : Type} (fc : UInt8) (decode : List UInt8 → Option (List α)) (x : Exchange)
    (addr qty : UInt16) (out : List α) (cl : ModbusTcp) : Returned α × ModbusTcp :=
  match cl.transact x (readPdu fc addr qty) with
  | (none, cl) => (⟨false, some out⟩, cl)
  | (some r, cl) =>
      if acceptsRead fc r then (⟨true, decode r⟩, cl) else (⟨false, some out⟩, cl)

def coilAt (r : List UInt8) (i : Nat) : Option UInt8 :=
  (r[2 + i / 8]?).map fun b => (b >>> UInt8.ofNat (i % 8)) &&& 0x01

/-- As many coils as were asked for, whatever the answer announces. -/
def coils (qty : UInt16) (r : List UInt8) : Option (List UInt8) :=
  (List.range qty.toNat).mapM (coilAt r)

def registerAt (r : List UInt8) (i : Nat) : Option UInt16 :=
  (r[2 + i * 2]?).bind fun hi => (r[2 + i * 2 + 1]?).map fun lo => be16 hi lo

/-- As many registers as the answer announces, whatever was asked for. -/
def registers (r : List UInt8) : Option (List UInt16) :=
  (List.range ((r.getD 1 0).toNat / 2)).mapM (registerAt r)

def readCoils (x : Exchange) (addr qty : UInt16) (out : List UInt8) (cl : ModbusTcp) :
    Returned UInt8 × ModbusTcp :=
  cl.readValues 0x01 (coils qty) x addr qty out

def readInputRegisters (x : Exchange) (addr qty : UInt16) (out : List UInt16) (cl : ModbusTcp) :
    Returned UInt16 × ModbusTcp :=
  cl.readValues 0x04 registers x addr qty out

def coilPdu (addr : UInt16) (on : Bool) : List UInt8 :=
  [0x05, highByte addr, addr.toUInt8, if on then 0xFF else 0x00, 0x00]

def registerPdu (addr val : UInt16) : List UInt8 :=
  [0x06, highByte addr, addr.toUInt8, highByte val, val.toUInt8]

/-- The check that both writes make on an answer. -/
def acceptsWrite (fc : UInt8) (r : List UInt8) : Bool := 1 ≤ r.length && r.getD 0 0 == fc

/-- The part that both writes share. -/
def write (fc : UInt8) (pdu : List UInt8) (x : Exchange) (cl : ModbusTcp) : Bool × ModbusTcp :=
  match cl.transact x pdu with
  | (none, cl) => (false, cl)
  | (some r, cl) => (acceptsWrite fc r, cl)

def writeSingleCoil (x : Exchange) (addr : UInt16) (on : Bool) (cl : ModbusTcp) :
    Bool × ModbusTcp :=
  cl.write 0x05 (coilPdu addr on) x

def writeSingleRegister (x : Exchange) (addr val : UInt16) (cl : ModbusTcp) : Bool × ModbusTcp :=
  cl.write 0x06 (registerPdu addr val) x

end ModbusTcp

namespace Request

open ModbusTcp

/-- The function code. -/
def fc : Request → UInt8
  | .readCoils _ _ => 0x01
  | .readInputRegisters _ _ => 0x04
  | .writeSingleCoil _ _ => 0x05
  | .writeSingleRegister _ _ => 0x06

def pdu : Request → List UInt8
  | .readCoils addr qty => readPdu 0x01 addr qty
  | .readInputRegisters addr qty => readPdu 0x04 addr qty
  | .writeSingleCoil addr on => coilPdu addr on
  | .writeSingleRegister addr value => registerPdu addr (.ofBitVec value)

/-- The checks that the call makes on its answer. -/
def accepts : Request → List UInt8 → Bool
  | .readCoils _ _ => acceptsRead 0x01
  | .readInputRegisters _ _ => acceptsRead 0x04
  | .writeSingleCoil _ _ => acceptsWrite 0x05
  | .writeSingleRegister _ _ => acceptsWrite 0x06

end Request

namespace ModbusTcp

/-- What a call returns, and the client after it; the values read are left out. -/
def call (x : Exchange) (cl : ModbusTcp) : Request → Bool × ModbusTcp
  | .readCoils addr qty => (cl.readCoils x addr qty []).map Returned.ok id
  | .readInputRegisters addr qty => (cl.readInputRegisters x addr qty []).map Returned.ok id
  | .writeSingleCoil addr on => cl.writeSingleCoil x addr on
  | .writeSingleRegister addr value => cl.writeSingleRegister x addr (.ofBitVec value)

theorem readValues_ok {α : Type} (fc : UInt8) (decode : List UInt8 → Option (List α))
    (x : Exchange) (addr qty : UInt16) (out : List α) (cl : ModbusTcp) :
    (cl.readValues fc decode x addr qty out).map Returned.ok id =
      (cl.transact x (readPdu fc addr qty)).map (fun r => r.any (acceptsRead fc)) id := by
  rw [readValues]
  generalize cl.transact x (readPdu fc addr qty) = t
  obtain ⟨r, cl⟩ := t
  cases r with
  | none => rfl
  | some r =>
      dsimp only
      split_ifs with h
      · simp [h]
      · simp [h]

theorem write_ok (fc : UInt8) (pdu : List UInt8) (x : Exchange) (cl : ModbusTcp) :
    cl.write fc pdu x = (cl.transact x pdu).map (fun r => r.any (acceptsWrite fc)) id := by
  rw [write]
  generalize cl.transact x pdu = t
  obtain ⟨r, cl⟩ := t
  cases r with
  | none => rfl
  | some r => rfl

/-- A call is its transaction and its checks. -/
theorem call_eq (x : Exchange) (cl : ModbusTcp) (q : Request) :
    cl.call x q = (cl.transact x q.pdu).map (fun r => r.any q.accepts) id := by
  cases q with
  | readCoils addr qty => exact readValues_ok 0x01 (coils qty) x addr qty [] cl
  | readInputRegisters addr qty => exact readValues_ok 0x04 registers x addr qty [] cl
  | writeSingleCoil addr on => exact write_ok 0x05 _ x cl
  | writeSingleRegister addr value => exact write_ok 0x06 _ x cl

end ModbusTcp

end PolishingRobot.Crevis
