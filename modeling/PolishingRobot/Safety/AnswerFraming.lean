import PolishingRobot.Runs.LabelledRuns
import PolishingRobot.Safety.ModbusTcpClient
import PolishingRobot.Wire.Bits
import PolishingRobot.Wire.Packing

/-!
# Answers of the safety I/O

`readDiscreteInputs` takes one whole frame off the connection for each request,
or closes the connection. So the bytes of an open connection are one frame for
each request sent on it, and whatever came after them.
-/

namespace PolishingRobot.Safety.ModbusTcpClient

open Runs Wire

/-- The MBAP header with a length field. -/
def mbapHeader (id : UInt16) (unit : UInt8) (length : Nat) : List UInt8 :=
  [highByte id, id.toUInt8, 0, 0, highByte (UInt16.ofNat length), (UInt16.ofNat length).toUInt8,
    unit]

/-- A header with the PDU that it announces. -/
def frame (id : UInt16) (unit : UInt8) (body : List UInt8) : List UInt8 :=
  mbapHeader id unit (body.length + 1) ++ body

/-- The length field of a frame is one that `transact` accepts. -/
def Framed (body : List UInt8) : Prop := 1 ≤ body.length ∧ body.length ≤ 252

/-- The part of `transact` that receives. -/
def receiveFrame (id : UInt16) (unit : UInt8) (pending : List UInt8) :
    Option (List UInt8 × List UInt8) :=
  (receiveAll 7 pending).bind fun p =>
    if acceptsHeader id unit p.1 then receiveAll (bodyLength p.1) p.2 else none

section Frames

variable {id : UInt16} {unit : UInt8} {pending body rest : List UInt8}

theorem toNat_be16 (hi lo : UInt8) : (be16 hi lo).toNat = 256 * hi.toNat + lo.toNat := by
  rw [be16, UInt16.or_comm, toNat_join16]
  simp only [leNat]
  omega

theorem toNat_highByte (v : UInt16) : (highByte v).toNat = v.toNat / 256 := by
  have hv := v.toNat_lt
  simp only [highByte, UInt16.toNat_toUInt8, UInt16.toNat_shiftRight, UInt16.reduceToNat,
    Nat.reduceMod, Nat.shiftRight_eq_div_pow]
  omega

theorem be16_eq_iff {hi lo : UInt8} {v : UInt16} :
    be16 hi lo = v ↔ hi = highByte v ∧ lo = v.toUInt8 := by
  have hhi := hi.toNat_lt
  have hlo := lo.toNat_lt
  rw [← UInt16.toNat_inj, ← UInt8.toNat_inj, ← UInt8.toNat_inj, toNat_be16, toNat_highByte,
    UInt16.toNat_toUInt8]
  omega

theorem receiveAll_eq_some {n : Nat} {taken : List UInt8} :
    receiveAll n pending = some (taken, rest) ↔ taken.length = n ∧ pending = taken ++ rest := by
  constructor
  · intro h
    obtain ⟨hn, heq⟩ := Option.ite_none_right_eq_some.mp h
    obtain ⟨rfl, rfl⟩ := Prod.mk.inj (Option.some.inj heq)
    exact ⟨List.length_take_of_le hn, (List.take_append_drop n pending).symm⟩
  · rintro ⟨rfl, rfl⟩
    have hle : taken.length ≤ (taken ++ rest).length := by simp
    rw [receiveAll, if_pos hle, List.take_left, List.drop_left]

@[simp] theorem mbapHeader_length (id : UInt16) (unit : UInt8) (n : Nat) :
    (mbapHeader id unit n).length = 7 := rfl

theorem bodyLength_mbapHeader {n : Nat} (h : n ≤ 253) :
    bodyLength (mbapHeader id unit n) = n - 1 := by
  have hfield : be16 (highByte (UInt16.ofNat n)) (UInt16.ofNat n).toUInt8 = UInt16.ofNat n :=
    be16_eq_iff.mpr ⟨rfl, rfl⟩
  have hn : n < 2 ^ 16 := by omega
  simp only [bodyLength, mbapHeader, List.getD_cons_succ, List.getD_cons_zero, hfield]
  rw [UInt16.toNat_ofNat', Nat.mod_eq_of_lt hn]

/-- A header is accepted exactly if it is one. -/
theorem acceptsHeader_iff {header : List UInt8} (hlength : header.length = 7) :
    acceptsHeader id unit header = true ↔
      ∃ n, 2 ≤ n ∧ n ≤ 253 ∧ header = mbapHeader id unit n := by
  obtain ⟨b0, b1, b2, b3, b4, b5, b6, rfl⟩ : ∃ b0 b1 b2 b3 b4 b5 b6,
      header = [b0, b1, b2, b3, b4, b5, b6] := by
    match header, hlength with
    | [b0, b1, b2, b3, b4, b5, b6], _ => exact ⟨b0, b1, b2, b3, b4, b5, b6, rfl⟩
  simp only [acceptsHeader, List.getD_cons_succ, List.getD_cons_zero, Bool.and_eq_true, beq_iff_eq,
    decide_eq_true_eq, be16_eq_iff, mbapHeader, List.cons.injEq, and_true]
  constructor
  · rintro ⟨⟨⟨⟨⟨h0, h1⟩, h2, h3⟩, h6⟩, hmin⟩, hmax⟩
    refine ⟨(be16 b4 b5).toNat, hmin, hmax, h0, h1, h2, h3, ?_, ?_, h6⟩
    · rw [UInt16.ofNat_toNat]
      exact (be16_eq_iff.mp rfl).1
    · rw [UInt16.ofNat_toNat]
      exact (be16_eq_iff.mp rfl).2
  · rintro ⟨n, hmin, hmax, h0, h1, h2, h3, h4, h5, h6⟩
    have hfield : be16 b4 b5 = UInt16.ofNat n := be16_eq_iff.mpr ⟨h4, h5⟩
    have hn : (UInt16.ofNat n).toNat = n := by
      rw [UInt16.toNat_ofNat', Nat.mod_eq_of_lt (by omega)]
    rw [hfield]
    refine ⟨⟨⟨⟨⟨h0, h1⟩, h2, h3⟩, h6⟩, ?_⟩, ?_⟩
    · rw [UInt16.le_iff_toNat_le, hn]
      exact hmin
    · rw [UInt16.le_iff_toNat_le, hn]
      exact hmax

/-- What is received is a frame at the head of the pending bytes. -/
theorem receiveFrame_eq_some :
    receiveFrame id unit pending = some (body, rest) ↔
      Framed body ∧ pending = frame id unit body ++ rest := by
  constructor
  · intro h
    obtain ⟨⟨header, after⟩, hheader, hbody⟩ := Option.bind_eq_some_iff.mp h
    obtain ⟨haccept, hbody⟩ := Option.ite_none_right_eq_some.mp hbody
    obtain ⟨hlength, rfl⟩ := receiveAll_eq_some.mp hheader
    obtain ⟨n, hmin, hmax, rfl⟩ := (acceptsHeader_iff hlength).mp haccept
    obtain ⟨hbodyLength, rfl⟩ := receiveAll_eq_some.mp hbody
    rw [bodyLength_mbapHeader hmax] at hbodyLength
    have hn : body.length + 1 = n := by omega
    refine ⟨⟨by omega, by omega⟩, ?_⟩
    rw [frame, hn, List.append_assoc]
  · rintro ⟨⟨hmin, hmax⟩, rfl⟩
    have hheader : receiveAll 7 (frame id unit body ++ rest) =
        some (mbapHeader id unit (body.length + 1), body ++ rest) :=
      receiveAll_eq_some.mpr ⟨rfl, by rw [frame, List.append_assoc]⟩
    have haccept : acceptsHeader id unit (mbapHeader id unit (body.length + 1)) = true :=
      (acceptsHeader_iff rfl).mpr ⟨_, by omega, by omega, rfl⟩
    rw [receiveFrame, hheader, Option.bind_some, if_pos haccept,
      bodyLength_mbapHeader (by omega), receiveAll_eq_some]
    exact ⟨by omega, rfl⟩

end Frames

/-- The bytes that the client can receive for its next request, if there is a connection. -/
def pending (x : Exchange) (cl : ModbusTcpClient) : Option (List UInt8) :=
  (if cl.socket = none ∧ x.opens then some [] else cl.socket).map (· ++ x.arrives)

/-- The client after it has sent a request. -/
def requested (pdu : List UInt8) (cl : ModbusTcpClient) : ModbusTcpClient :=
  { cl with
    transactionId := cl.transactionId + 1
    requests := cl.requests ++ [requestBytes (cl.transactionId + 1) cl.unitId pdu] }

/-- The answer is a Modbus exception. -/
def IsException (body : List UInt8) : Prop := body.getD 0 0 &&& 0x80 ≠ 0

instance (body : List UInt8) : Decidable (IsException body) := inferInstanceAs (Decidable (_ ≠ _))

/-- The PDU of a read of discrete inputs. -/
def readPdu (address quantity : UInt16) : List UInt8 :=
  [0x02, highByte address, address.toUInt8, highByte quantity, quantity.toUInt8]

/-- The bytes of the inputs. -/
def expectedBytes (quantity : UInt16) : Nat := (quantity.toNat + 7) / 8

section Request

variable {x : Exchange} {cl : ModbusTcpClient} {pdu bytes body rest : List UInt8}
  {address quantity : UInt16}

theorem transact_unconnected (h : cl.pending x = none) : cl.transact x pdu = (none, cl) := by
  have hsocket : (if cl.socket = none ∧ x.opens then some [] else cl.socket) = none :=
    Option.map_eq_none_iff.mp h
  rw [transact, hsocket]

/-- With a connection, a frame is taken off it, or it is closed. -/
theorem transact_connected (h : cl.pending x = some bytes) :
    cl.transact x pdu =
      match (if x.sends then receiveFrame (cl.transactionId + 1) cl.unitId bytes else none) with
      | none => (none, (cl.requested pdu).closeSocket)
      | some (body, rest) =>
          (if IsException body then none else some body,
            { cl.requested pdu with socket := some rest }) := by
  obtain ⟨unread, hsocket, rfl⟩ := Option.map_eq_some_iff.mp h
  rw [transact, hsocket]
  by_cases hsends : x.sends = true
  · simp only [hsends, not_true, if_false, if_true]
    rw [receiveFrame]
    cases hheader : receiveAll 7 (unread ++ x.arrives) with
    | none => rfl
    | some p =>
        by_cases haccept : acceptsHeader (cl.transactionId + 1) cl.unitId p.1 = true
        · cases hbody : receiveAll (bodyLength p.1) p.2 with
          | none => simp [haccept, hbody, requested]
          | some q =>
              simp only [haccept, hbody, requested, Option.bind_some, not_true_eq_false, if_false,
                if_true]
              by_cases hexception : IsException q.1
              · rw [if_pos hexception]
                exact if_pos hexception
              · rw [if_neg hexception]
                exact if_neg hexception
        · simp [haccept, requested]
  · simp [hsends, requested]

/-- The PDU of a complete answer. -/
def answerBody (data : List UInt8) : List UInt8 := 2 :: UInt8.ofNat data.length :: data

theorem acceptsFc02_iff (hquantity : quantity.toNat ≤ 2000) :
    acceptsFc02 quantity body = true ↔
      ∃ data, data.length = expectedBytes quantity ∧ body = answerBody data := by
  have hbytes : expectedBytes quantity < 256 := by
    unfold expectedBytes
    omega
  constructor
  · intro h
    match body with
    | [] => simp [acceptsFc02] at h
    | [_] => simp [acceptsFc02] at h
    | code :: count :: data =>
        simp only [acceptsFc02, List.getD_cons_zero, List.getD_cons_succ, List.length_cons,
          Bool.and_eq_true, beq_iff_eq, decide_eq_true_eq] at h
        obtain ⟨⟨⟨-, hcode⟩, hcount⟩, hlength⟩ := h
        have hdata : data.length = expectedBytes quantity := by
          unfold expectedBytes
          omega
        refine ⟨data, hdata, ?_⟩
        rw [answerBody, hcode, hdata, expectedBytes, ← hcount, UInt8.ofNat_toNat]
  · rintro ⟨data, hdata, rfl⟩
    have hcount : (UInt8.ofNat data.length).toNat = (quantity.toNat + 7) / 8 := by
      rw [hdata, UInt8.toNat_ofNat', Nat.mod_eq_of_lt hbytes]
      rfl
    have hlength : (answerBody data).length = (quantity.toNat + 7) / 8 + 2 := by
      rw [answerBody, List.length_cons, List.length_cons, hdata]
      rfl
    simp only [acceptsFc02, Bool.and_eq_true, beq_iff_eq, decide_eq_true_eq]
    refine ⟨⟨⟨?_, rfl⟩, hcount⟩, hlength⟩
    omega

theorem not_isException_answerBody (data : List UInt8) : ¬ IsException (answerBody data) := by
  have hcode : ¬ ((2 : UInt8) &&& 0x80 ≠ 0) := by decide
  exact hcode

theorem shiftRight_and_one (v : UInt8) {k : Nat} (hk : k < 8) :
    (v >>> UInt8.ofNat k) &&& 0x01 = if v.toNat.testBit k then 1 else 0 := by
  have hshift : (UInt8.ofNat k).toNat % 8 = k := by
    rw [UInt8.toNat_ofNat']
    omega
  have hone : (0x01 : UInt8).toNat = 1 := rfl
  apply UInt8.toNat_inj.mp
  rw [UInt8.toNat_and, UInt8.toNat_shiftRight, hshift, hone, Nat.and_one_is_mod,
    Nat.testBit_eq_decide_div_mod_eq, Nat.shiftRight_eq_div_pow]
  rcases Nat.mod_two_eq_zero_or_one (v.toNat / 2 ^ k) with h | h
  · simp [h]
  · simp [h]

/-- The unpacked values are the bits of the data. -/
theorem unpackBits_answerBody (quantity : UInt16) (data : List UInt8) :
    unpackBits quantity (answerBody data) =
      (List.range quantity.toNat).map fun i => if packedBit data i then 1 else 0 := by
  rw [unpackBits]
  apply List.map_congr_left
  intro i _
  have hindex : (answerBody data).getD (2 + i / 8) 0 = data.getD (i / 8) 0 := by
    rw [answerBody, Nat.add_comm, List.getD_cons_succ, List.getD_cons_succ]
  rw [hindex, shiftRight_and_one _ (Nat.mod_lt i (by decide)), packedBit]

/-- A frame for the next request comes first. -/
def Receives (x : Exchange) (cl : ModbusTcpClient) (body rest : List UInt8) : Prop :=
  x.sends = true ∧ Framed body ∧
    cl.pending x = some (frame (cl.transactionId + 1) cl.unitId body ++ rest)

/-- The frame is the answer with these data. -/
def Answered (x : Exchange) (quantity : UInt16) (cl : ModbusTcpClient)
    (data rest : List UInt8) : Prop :=
  data.length = expectedBytes quantity ∧ Receives x cl (answerBody data) rest

/-- How a read ends. -/
inductive ReadEnd (x : Exchange) (address quantity : UInt16) (cl : ModbusTcpClient) :
    Option (List UInt8) × ModbusTcpClient → Prop
  | unconnected (hpending : cl.pending x = none) : ReadEnd x address quantity cl (none, cl)
  | broken (hno : ∀ body rest, ¬ Receives x cl body rest) :
      ReadEnd x address quantity cl
        (none, (cl.requested (readPdu address quantity)).closeSocket)
  | exception {body rest : List UInt8} (hreceives : Receives x cl body rest)
      (hexception : IsException body) :
      ReadEnd x address quantity cl
        (none, { cl.requested (readPdu address quantity) with socket := some rest })
  | malformed {body rest : List UInt8} (hreceives : Receives x cl body rest)
      (hexception : ¬ IsException body) :
      ReadEnd x address quantity cl
        (none, (cl.requested (readPdu address quantity)).closeSocket)
  | answered {data rest : List UInt8} (hanswered : Answered x quantity cl data rest) :
      ReadEnd x address quantity cl
        (some (unpackBits quantity (answerBody data)),
          { cl.requested (readPdu address quantity) with socket := some rest })

theorem readDiscreteInputs_eq (hq : 1 ≤ quantity.toNat ∧ quantity.toNat ≤ 2000) :
    cl.readDiscreteInputs x address quantity =
      match cl.transact x (readPdu address quantity) with
      | (none, cl) => (none, cl)
      | (some body, cl) =>
          if acceptsFc02 quantity body then (some (unpackBits quantity body), cl)
          else (none, cl.closeSocket) := by
  have hvalid : ¬ (quantity = 0 ∨ 2000 < quantity) := by
    rw [← UInt16.toNat_inj, UInt16.lt_iff_toNat_lt]
    simp only [UInt16.reduceToNat]
    omega
  exact if_neg hvalid

theorem readDiscreteInputs_of_receives (hq : 1 ≤ quantity.toNat ∧ quantity.toNat ≤ 2000)
    (h : Receives x cl body rest) :
    cl.readDiscreteInputs x address quantity =
      if IsException body then
        (none, { cl.requested (readPdu address quantity) with socket := some rest })
      else if acceptsFc02 quantity body then
        (some (unpackBits quantity body),
          { cl.requested (readPdu address quantity) with socket := some rest })
      else (none, (cl.requested (readPdu address quantity)).closeSocket) := by
  obtain ⟨hsends, hframed, hpending⟩ := h
  have hframe : receiveFrame (cl.transactionId + 1) cl.unitId
      (frame (cl.transactionId + 1) cl.unitId body ++ rest) = some (body, rest) :=
    receiveFrame_eq_some.mpr ⟨hframed, rfl⟩
  rw [readDiscreteInputs_eq hq, transact_connected hpending, if_pos hsends, hframe]
  by_cases hexception : IsException body
  · simp only [if_pos hexception]
  · simp only [if_neg hexception]
    rfl

theorem framed_answerBody {data : List UInt8} (hq : quantity.toNat ≤ 2000)
    (hdata : data.length = expectedBytes quantity) : Framed (answerBody data) := by
  unfold expectedBytes at hdata
  simp only [Framed, answerBody, List.length_cons]
  omega

theorem readDiscreteInputs_of_answered (hq : 1 ≤ quantity.toNat ∧ quantity.toNat ≤ 2000)
    {data : List UInt8} (h : Answered x quantity cl data rest) :
    cl.readDiscreteInputs x address quantity =
      (some (unpackBits quantity (answerBody data)),
        { cl.requested (readPdu address quantity) with socket := some rest }) := by
  rw [readDiscreteInputs_of_receives hq h.2, if_neg (not_isException_answerBody data),
    if_pos ((acceptsFc02_iff hq.2).mpr ⟨data, h.1, rfl⟩)]

theorem readDiscreteInputs_end (hq : 1 ≤ quantity.toNat ∧ quantity.toNat ≤ 2000)
    (x : Exchange) (address : UInt16) (cl : ModbusTcpClient) :
    ReadEnd x address quantity cl (cl.readDiscreteInputs x address quantity) := by
  by_cases hreceives : ∃ body rest, Receives x cl body rest
  · obtain ⟨body, rest, hreceives⟩ := hreceives
    rw [readDiscreteInputs_of_receives hq hreceives]
    by_cases hexception : IsException body
    · rw [if_pos hexception]
      exact .exception hreceives hexception
    · rw [if_neg hexception]
      by_cases haccept : acceptsFc02 quantity body = true
      · obtain ⟨data, hdata, rfl⟩ := (acceptsFc02_iff hq.2).mp haccept
        rw [if_pos haccept]
        exact .answered ⟨hdata, hreceives⟩
      · rw [if_neg haccept]
        exact .malformed hreceives hexception
  · cases hpending : cl.pending x with
    | none =>
        rw [readDiscreteInputs_eq hq, transact_unconnected hpending]
        exact .unconnected hpending
    | some bytes =>
        have hnone : (if x.sends then receiveFrame (cl.transactionId + 1) cl.unitId bytes
            else none) = none := by
          rw [Option.eq_none_iff_forall_ne_some]
          rintro ⟨body, rest⟩ hframe
          obtain ⟨hsends, hframe⟩ := Option.ite_none_right_eq_some.mp hframe
          obtain ⟨hframed, rfl⟩ := receiveFrame_eq_some.mp hframe
          exact hreceives ⟨body, rest, hsends, hframed, hpending⟩
        rw [readDiscreteInputs_eq hq, transact_connected hpending, hnone]
        exact .broken fun body rest h => hreceives ⟨body, rest, h⟩

end Request

/-- The arguments of a valid read and what the network does meanwhile. -/
structure Read where
  x : Exchange
  address : UInt16
  quantity : UInt16
  valid : 1 ≤ quantity.toNat ∧ quantity.toNat ≤ 2000

/-- `readDiscreteInputs` with its reference parameter `values`. -/
def readInto (r : Read) (values : List UInt8) (cl : ModbusTcpClient) :
    Bool × List UInt8 × ModbusTcpClient :=
  match cl.readDiscreteInputs r.x r.address r.quantity with
  | (none, cl) => (false, values, cl)
  | (some read, cl) => (true, read, cl)

/-- The answer with these data: header, function code, byte count, data. -/
def answer (id : UInt16) (unit : UInt8) (quantity : UInt16) (data : List UInt8) : List UInt8 :=
  mbapHeader id unit (3 + expectedBytes quantity) ++
    [0x02, UInt8.ofNat (expectedBytes quantity)] ++ data

/-- The bytes received for the request are the answer with these data, and more
bytes may follow. -/
def ReceivesAnswer (r : Read) (cl : ModbusTcpClient) (data rest : List UInt8) : Prop :=
  data.length = expectedBytes r.quantity ∧ r.x.sends = true ∧
    cl.pending r.x = some (answer (cl.transactionId + 1) cl.unitId r.quantity data ++ rest)

def bitValue (b : Bool) : UInt8 := if b then 1 else 0

/-- A read accepts well-formed answers, decodes them, and closes the connection
where it cannot tell the end of an answer. -/
structure ReadsExactly (cl : ModbusTcpClient) (r : Read) (values : List UInt8) : Prop where
  accepts : (cl.readInto r values).1 = true ↔ ∃ data rest, ReceivesAnswer r cl data rest
  decodes : ∀ data rest, ReceivesAnswer r cl data rest →
    (cl.readInto r values).2.1 =
      (List.range r.quantity.toNat).map fun i => bitValue (packedBit data i)
  undoes : ∀ bits rest, bits.length = r.quantity.toNat → ReceivesAnswer r cl (packBits bits) rest →
    (cl.readInto r values).2.1 = bits.map bitValue
  untouched : (cl.readInto r values).1 = false → (cl.readInto r values).2.1 = values
  closes : (cl.readInto r values).1 = false → ∀ rest,
    (cl.readInto r values).2.2.socket = some rest ↔
      ∃ body, Receives r.x cl body rest ∧ IsException body

section Caller

variable {r : Read} {cl : ModbusTcpClient} {body data rest : List UInt8}

theorem frame_answerBody {quantity : UInt16} (id : UInt16) (unit : UInt8)
    (hdata : data.length = expectedBytes quantity) :
    frame id unit (answerBody data) = answer id unit quantity data := by
  have hlength : (answerBody data).length + 1 = 3 + expectedBytes quantity := by
    rw [answerBody, List.length_cons, List.length_cons, hdata]
    omega
  rw [frame, hlength, answer, answerBody, hdata, List.append_assoc]
  rfl

theorem receivesAnswer_iff : ReceivesAnswer r cl data rest ↔ Answered r.x r.quantity cl data rest := by
  constructor
  · rintro ⟨hdata, hsends, hpending⟩
    rw [← frame_answerBody _ _ hdata] at hpending
    exact ⟨hdata, hsends, framed_answerBody r.valid.2 hdata, hpending⟩
  · rintro ⟨hdata, hsends, -, hpending⟩
    rw [frame_answerBody _ _ hdata] at hpending
    exact ⟨hdata, hsends, hpending⟩

theorem receiveFrame_of_receives {x : Exchange} {bytes : List UInt8}
    (h : Receives x cl body rest) (hpending : cl.pending x = some bytes) :
    receiveFrame (cl.transactionId + 1) cl.unitId bytes = some (body, rest) := by
  obtain ⟨-, hframed, hframe⟩ := h
  rw [receiveFrame_eq_some]
  exact ⟨hframed, Option.some.inj (hpending.symm.trans hframe)⟩

theorem receives_unique {x : Exchange} {body' rest' : List UInt8} (h : Receives x cl body rest)
    (h' : Receives x cl body' rest') : body' = body ∧ rest' = rest := by
  have hframe := receiveFrame_of_receives h h.2.2
  have hframe' := receiveFrame_of_receives h' h.2.2
  exact Prod.mk.inj (Option.some.inj (hframe'.symm.trans hframe))

theorem socket_of_unconnected {x : Exchange} (h : cl.pending x = none) : cl.socket = none := by
  have hsocket := Option.map_eq_none_iff.mp h
  split_ifs at hsocket
  exact hsocket

theorem readInto_of_answered (values : List UInt8) (h : Answered r.x r.quantity cl data rest) :
    cl.readInto r values =
      (true, (List.range r.quantity.toNat).map fun i => bitValue (packedBit data i),
        { cl.requested (readPdu r.address r.quantity) with socket := some rest }) := by
  rw [readInto, readDiscreteInputs_of_answered r.valid h, unpackBits_answerBody]
  rfl

/-- Unpacking the bytes of a bit vector yields its bits. -/
theorem map_packedBit_packBits {n : Nat} {bits : List Bool} (h : bits.length = n) :
    ((List.range n).map fun i => bitValue (packedBit (packBits bits) i)) = bits.map bitValue := by
  apply List.ext_getElem
  · simp [h]
  · intro i hi hi'
    have hbound : i < bits.length := by simpa using hi'
    simp only [List.getElem_map, List.getElem_range]
    rw [packedBit_packBits hbound, List.getD_eq_getElem _ _ hbound]

/-- A read that fails leaves `values` alone. -/
theorem readInto_of_none {values : List UInt8} {cl' : ModbusTcpClient}
    (h : cl.readDiscreteInputs r.x r.address r.quantity = (none, cl')) :
    cl.readInto r values = (false, values, cl') := by
  rw [readInto, h]

theorem readInto_accepts (cl : ModbusTcpClient) (r : Read) (values : List UInt8) :
    (cl.readInto r values).1 = true ↔ ∃ data rest, ReceivesAnswer r cl data rest := by
  constructor
  · intro h
    have hend := readDiscreteInputs_end r.valid r.x r.address cl
    generalize hread : cl.readDiscreteInputs r.x r.address r.quantity = result at hend
    cases hend with
    | unconnected hpending => simp [readInto_of_none hread] at h
    | broken hno => simp [readInto_of_none hread] at h
    | exception hreceives hexception => simp [readInto_of_none hread] at h
    | malformed hreceives hexception => simp [readInto_of_none hread] at h
    | answered hanswered => exact ⟨_, _, receivesAnswer_iff.mpr hanswered⟩
  · rintro ⟨data, rest, h⟩
    rw [readInto_of_answered values (receivesAnswer_iff.mp h)]

theorem readInto_closes {values : List UInt8} (h : (cl.readInto r values).1 = false)
    (rest : List UInt8) :
    (cl.readInto r values).2.2.socket = some rest ↔
      ∃ body, Receives r.x cl body rest ∧ IsException body := by
  have hend := readDiscreteInputs_end r.valid r.x r.address cl
  generalize hread : cl.readDiscreteInputs r.x r.address r.quantity = result at hend
  cases hend with
  | unconnected hpending =>
      rw [readInto_of_none hread, socket_of_unconnected hpending]
      simp [Receives, hpending]
  | broken hno =>
      rw [readInto_of_none hread]
      simp [closeSocket, hno]
  | exception hreceives hexception =>
      rw [readInto_of_none hread]
      constructor
      · intro hsocket
        obtain rfl := Option.some.inj hsocket
        exact ⟨_, hreceives, hexception⟩
      · rintro ⟨body', hreceives', -⟩
        obtain ⟨-, rfl⟩ := receives_unique hreceives hreceives'
        rfl
  | malformed hreceives hexception =>
      rw [readInto_of_none hread]
      constructor
      · exact nofun
      · rintro ⟨body', hreceives', hexception'⟩
        obtain ⟨rfl, -⟩ := receives_unique hreceives hreceives'
        exact absurd hexception' hexception
  | answered hanswered =>
      rw [readInto_of_answered values hanswered] at h
      cases h

theorem readsExactly (cl : ModbusTcpClient) (r : Read) (values : List UInt8) :
    ReadsExactly cl r values where
  accepts := readInto_accepts cl r values
  decodes := by
    intro data rest h
    rw [readInto_of_answered values (receivesAnswer_iff.mp h)]
  undoes := by
    intro bits rest hlength h
    rw [readInto_of_answered values (receivesAnswer_iff.mp h)]
    exact map_packedBit_packBits hlength
  untouched := by
    intro h
    cases hread : cl.readDiscreteInputs r.x r.address r.quantity with
    | mk result cl' =>
        cases result with
        | none => rw [readInto_of_none hread]
        | some read => simp [readInto, hread] at h
  closes := readInto_closes

end Caller

/-- What was sent and received on the last connection. -/
structure ConnectionLog where
  ids : List UInt16 := []
  received : List UInt8 := []

def read (cl : ModbusTcpClient) (r : Read) : ModbusTcpClient :=
  (cl.readDiscreteInputs r.x r.address r.quantity).2

/-- A read without a connection starts a new log. -/
def noteExchange (cl : ModbusTcpClient) (r : Read) (log : ConnectionLog) : ConnectionLog :=
  if cl.socket = none then ⟨[cl.transactionId + 1], r.x.arrives⟩
  else ⟨log.ids ++ [cl.transactionId + 1], log.received ++ r.x.arrives⟩

/-- The client with its log. -/
def observedRead : ModbusTcpClient × ConnectionLog → Read →
    Option (ModbusTcpClient × ConnectionLog) :=
  observe (total read) noteExchange

/-- The bytes received on an open connection are one whole frame for each request
sent on it, followed by the unread bytes. -/
def InPhase (w : ModbusTcpClient × ConnectionLog) : Prop :=
  ∀ unread, w.1.socket = some unread → ∃ answers : List (UInt16 × List UInt8),
    answers.map Prod.fst = w.2.ids ∧ (∀ a ∈ answers, Framed a.2) ∧
      w.2.received = answers.flatMap (fun a => frame a.1 w.1.unitId a.2) ++ unread

/-- The bytes of the log are one whole frame for each request, followed by the
unread bytes. -/
def Phased (unit : UInt8) (log : ConnectionLog) (unread : List UInt8) : Prop :=
  ∃ answers : List (UInt16 × List UInt8),
    answers.map Prod.fst = log.ids ∧ (∀ a ∈ answers, Framed a.2) ∧
      log.received = answers.flatMap (fun a => frame a.1 unit a.2) ++ unread

/-- A request that takes a frame off its connection, an open or a new one, keeps
the log in phase. -/
theorem phased_extend {socket : Option (List UInt8)} {opens : Bool} {unit : UInt8} {id : UInt16}
    {before arrives body unread : List UInt8} {log : ConnectionLog}
    (hphase : ∀ bytes, socket = some bytes → Phased unit log bytes)
    (hbefore : (if socket = none ∧ opens then some [] else socket) = some before)
    (hbytes : before ++ arrives = frame id unit body ++ unread) (hframed : Framed body) :
    Phased unit (if socket = none then ⟨[id], arrives⟩
      else ⟨log.ids ++ [id], log.received ++ arrives⟩) unread := by
  cases hsocket : socket with
  | none =>
      -- The connection is new: this frame is its first.
      obtain rfl : [] = before := by
        rw [hsocket] at hbefore
        split_ifs at hbefore
        exact Option.some.inj hbefore
      refine ⟨[(id, body)], rfl, ?_, ?_⟩
      · simpa using hframed
      · simpa using hbytes
  | some bytes =>
      obtain ⟨answers, hids, hframes, hreceived⟩ := hphase bytes hsocket
      obtain rfl : bytes = before := by
        simpa [hsocket] using hbefore
      refine ⟨answers ++ [(id, body)], ?_, ?_, ?_⟩
      · simp [hids]
      · intro a ha
        rcases List.mem_append.mp ha with ha | ha
        · exact hframes a ha
        · rw [List.mem_singleton.mp ha]
          exact hframed
      · calc log.received ++ arrives
            = answers.flatMap (fun a => frame a.1 unit a.2) ++ (bytes ++ arrives) := by
              rw [hreceived, List.append_assoc]
          _ = (answers ++ [(id, body)]).flatMap (fun a => frame a.1 unit a.2) ++ unread := by
              rw [hbytes, List.flatMap_append, List.append_assoc]
              simp

section Runs

variable {r : Read} {cl cl' : ModbusTcpClient} {log log' : ConnectionLog}

/-- A connection is left open by a read that took a frame off it. -/
theorem read_open {unread : List UInt8} (h : (cl.read r).socket = some unread) :
    (cl.read r).unitId = cl.unitId ∧ ∃ body, Receives r.x cl body unread := by
  have hend := readDiscreteInputs_end r.valid r.x r.address cl
  rw [read] at h ⊢
  generalize cl.readDiscreteInputs r.x r.address r.quantity = result at hend h ⊢
  cases hend with
  | unconnected hpending => cases (socket_of_unconnected hpending).symm.trans h
  | broken hno => cases h
  | exception hreceives hexception =>
      obtain rfl := Option.some.inj h
      exact ⟨rfl, _, hreceives⟩
  | malformed hreceives hexception => cases h
  | answered hanswered =>
      obtain rfl := Option.some.inj h
      exact ⟨rfl, _, hanswered.2⟩

theorem read_inPhase (hphase : InPhase (cl, log)) : InPhase (cl.read r, noteExchange cl r log) := by
  intro unread hopen
  obtain ⟨hunit, body, -, hframed, hpending⟩ := read_open hopen
  obtain ⟨before, hbefore, hbytes⟩ := Option.map_eq_some_iff.mp hpending
  rw [hunit]
  exact phased_extend hphase hbefore hbytes hframed

end Runs

/-- Every read accepts exactly its well-formed answers, and over every run of
reads the bytes of an open connection are whole frames for the requests sent. -/
theorem reads_exactly_in_phase :
    (∀ cl r values, ReadsExactly cl r values) ∧
      ∀ (cl : ModbusTcpClient) (log : ConnectionLog), cl.socket = none →
        ∀ w, Reachable observedRead (cl, log) w → InPhase w := by
  refine ⟨readsExactly, ?_⟩
  intro cl log hclosed w hreach
  have hstart : InPhase (cl, log) := by
    intro unread hopen
    rw [hclosed] at hopen
    cases hopen
  refine invariant_of_reachable ?_ hstart hreach
  rintro ⟨cl, log⟩ r ⟨cl', log'⟩ hphase hstep
  obtain ⟨hread, rfl⟩ := observe_eq_some hstep
  obtain rfl := Option.some.inj hread
  exact read_inPhase hphase

/-- Before its identifier wraps. -/
def beforeWrap : ModbusTcpClient := ⟨7, none, 65535, []⟩

/-- Three inputs are answered with one byte too many on the connection. -/
def surplusByte : Read :=
  ⟨⟨true, true, [0, 0, 0, 0, 0, 4, 7, 2, 1, 5, 0xFF]⟩, 16384, 3, by decide⟩

theorem reads_exactly_in_phase_wrap :
    (beforeWrap.readInto surplusByte []).1 = true ∧
      InPhase (beforeWrap.read surplusByte, noteExchange beforeWrap surplusByte {}) :=
  ⟨(reads_exactly_in_phase.1 beforeWrap surplusByte []).accepts.mpr ⟨[5], [0xFF], rfl, rfl, rfl⟩,
    reads_exactly_in_phase.2 beforeWrap {} rfl _ ⟨[surplusByte], rfl⟩⟩

end PolishingRobot.Safety.ModbusTcpClient
