import Mathlib.Data.List.Basic
import Mathlib.Tactic.Cases
import Mathlib.Tactic.SplitIfs

/-!
# The Modbus/TCP client of the safety node

One connection at a time. An open socket is its received and unread bytes; the
network decides for every transaction whether the connection opens, whether
the request leaves, and which bytes arrive before `recv` gives up.
-/

namespace PolishingRobot.Safety

/-- What the network does during one transaction. -/
structure Exchange where
  opens : Bool
  sends : Bool
  arrives : List UInt8
  deriving DecidableEq, Repr

structure ModbusTcpClient where
  unitId : UInt8
  /-- The unread bytes of the open connection. -/
  socket : Option (List UInt8) := none
  transactionId : UInt16 := 0
  /-- The requests sent so far. -/
  requests : List (List UInt8) := []
  deriving DecidableEq, Repr

namespace ModbusTcpClient

def closeSocket (cl : ModbusTcpClient) : ModbusTcpClient := { cl with socket := none }

/-- Two bytes, high byte first. -/
def be16 (hi lo : UInt8) : UInt16 := hi.toUInt16 <<< 8 ||| lo.toUInt16

def highByte (v : UInt16) : UInt8 := (v >>> 8).toUInt8

/-- `receiveAll`: exactly `n` bytes, or failure. -/
def receiveAll (n : Nat) (pending : List UInt8) : Option (List UInt8 × List UInt8) :=
  if n ≤ pending.length then some (pending.take n, pending.drop n) else none

/-- The MBAP header of a request and its PDU. -/
def requestBytes (transactionId : UInt16) (unitId : UInt8) (pdu : List UInt8) : List UInt8 :=
  let mbapLength := UInt16.ofNat pdu.length + 1
  [highByte transactionId, transactionId.toUInt8, 0, 0, highByte mbapLength,
    mbapLength.toUInt8, unitId] ++ pdu

/-- The checks that `transact` makes on a received header. -/
def acceptsHeader (transactionId : UInt16) (unitId : UInt8) (header : List UInt8) : Bool :=
  let length := be16 (header.getD 4 0) (header.getD 5 0)
  be16 (header.getD 0 0) (header.getD 1 0) == transactionId &&
    be16 (header.getD 2 0) (header.getD 3 0) == 0 &&
    header.getD 6 0 == unitId && 2 ≤ length && length ≤ 253

/-- The number of PDU bytes that a header announces. -/
def bodyLength (header : List UInt8) : Nat := (be16 (header.getD 4 0) (header.getD 5 0)).toNat - 1

/-- `transact`: the answer's PDU, or `none`. Every failure but an exception
answer closes the socket. -/
def transact (x : Exchange) (pdu : List UInt8) (cl : ModbusTcpClient) :
    Option (List UInt8) × ModbusTcpClient :=
  match (if cl.socket = none ∧ x.opens then some [] else cl.socket) with
  | none => (none, cl)
  | some unread =>
      let id := cl.transactionId + 1
      let cl := { cl with
        transactionId := id, requests := cl.requests ++ [requestBytes id cl.unitId pdu] }
      if ¬ x.sends then (none, cl.closeSocket)
      else
        match receiveAll 7 (unread ++ x.arrives) with
        | none => (none, cl.closeSocket)
        | some (header, rest) =>
            if ¬ acceptsHeader id cl.unitId header then (none, cl.closeSocket)
            else
              match receiveAll (bodyLength header) rest with
              | none => (none, cl.closeSocket)
              | some (body, unread) =>
                  let cl := { cl with socket := some unread }
                  if body.getD 0 0 &&& 0x80 ≠ 0 then (none, cl) else (some body, cl)

/-- The checks on an FC02 answer: function code, byte count and size. -/
def acceptsFc02 (quantity : UInt16) (response : List UInt8) : Bool :=
  let expectedBytes := (quantity.toNat + 7) / 8
  2 ≤ response.length && response.getD 0 0 == 0x02 &&
    (response.getD 1 0).toNat == expectedBytes && response.length == expectedBytes + 2

/-- The bits of an FC02 answer, lowest bit first. -/
def unpackBits (quantity : UInt16) (response : List UInt8) : List UInt8 :=
  (List.range quantity.toNat).map fun bit =>
    (response.getD (2 + bit / 8) 0 >>> UInt8.ofNat (bit % 8)) &&& 0x01

/-- `readDiscreteInputs`: one 0/1 value for each input, or `none`. -/
def readDiscreteInputs (x : Exchange) (address quantity : UInt16) (cl : ModbusTcpClient) :
    Option (List UInt8) × ModbusTcpClient :=
  if quantity = 0 ∨ 2000 < quantity then (none, cl)
  else
    match cl.transact x [0x02, highByte address, address.toUInt8, highByte quantity,
        quantity.toUInt8] with
    | (none, cl) => (none, cl)
    | (some response, cl) =>
        if acceptsFc02 quantity response then (some (unpackBits quantity response), cl)
        else (none, cl.closeSocket)

theorem unpackBits_length (quantity : UInt16) (response : List UInt8) :
    (unpackBits quantity response).length = quantity.toNat := by
  simp [unpackBits]

/-- A read that returns values has decoded an accepted answer. -/
theorem readDiscreteInputs_some {x : Exchange} {address quantity : UInt16}
    {cl cl' : ModbusTcpClient} {values : List UInt8}
    (h : cl.readDiscreteInputs x address quantity = (some values, cl')) :
    ∃ response, acceptsFc02 quantity response = true ∧ values = unpackBits quantity response := by
  unfold readDiscreteInputs at h
  split at h
  · cases h
  · split at h
    · cases h
    · rename_i response _ _
      split at h
      · rename_i haccept
        obtain ⟨hvalues, -⟩ := Prod.mk.inj h
        exact ⟨response, haccept, (Option.some.inj hvalues).symm⟩
      · cases h

/-- A read returns as many values as were asked for. -/
theorem readDiscreteInputs_length {x : Exchange} {address quantity : UInt16}
    {cl cl' : ModbusTcpClient} {values : List UInt8}
    (h : cl.readDiscreteInputs x address quantity = (some values, cl')) :
    values.length = quantity.toNat := by
  obtain ⟨response, -, rfl⟩ := readDiscreteInputs_some h
  exact unpackBits_length quantity response

theorem and_one_cases (v : UInt8) : v &&& 1 = 0 ∨ v &&& 1 = 1 := by
  have hmod : (v &&& 1).toNat = v.toNat % 2 := by
    rw [UInt8.toNat_and]
    exact Nat.and_one_is_mod v.toNat
  rcases Nat.mod_two_eq_zero_or_one v.toNat with h | h
  · left
    apply UInt8.toNat_inj.mp
    rw [hmod, h]
    rfl
  · right
    apply UInt8.toNat_inj.mp
    rw [hmod, h]
    rfl

/-- Every value read is 0 or 1. -/
theorem readDiscreteInputs_bit {x : Exchange} {address quantity : UInt16}
    {cl cl' : ModbusTcpClient} {values : List UInt8}
    (h : cl.readDiscreteInputs x address quantity = (some values, cl')) {v : UInt8}
    (hv : v ∈ values) : v = 0 ∨ v = 1 := by
  obtain ⟨response, -, rfl⟩ := readDiscreteInputs_some h
  obtain ⟨bit, -, rfl⟩ := List.mem_map.mp hv
  exact and_one_cases _

/-- A well-formed answer to the first request delivers its bits. -/
example :
    (readDiscreteInputs ⟨true, true, [0, 1, 0, 0, 0, 4, 7, 2, 1, 5]⟩ 16384 3 ⟨7, none, 0, []⟩).1 =
      some [1, 0, 1] := by decide

end ModbusTcpClient

end PolishingRobot.Safety
