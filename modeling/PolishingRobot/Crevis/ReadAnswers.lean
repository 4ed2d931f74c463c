import PolishingRobot.Crevis.ModbusTcp
import PolishingRobot.Lists.PartialMaps

/-!
# The answers to reads

An answer brings two numbers of its own, its size and its byte count, and the
caller a third, the quantity. The reads compare the size with the byte count
only, so they do what was asked exactly where the byte count fits the quantity.
-/

namespace PolishingRobot.Crevis

open Safety (Exchange)
open Safety.ModbusTcpClient (be16 toNat_be16 bitValue shiftRight_and_one)
open PolishingRobot.Lists (mapM_isSome_iff mapM_range_eq_some_iff)
open Wire (packedBit)

/-- A value of the answer, and the access that reads it. -/
def CoilIn (r : List UInt8) (i : Nat) (v : UInt8) : Prop :=
  2 + i / 8 < r.length ∧ v = bitValue (packedBit (r.drop 2) i)

def RegisterIn (r : List UInt8) (i : Nat) (v : UInt16) : Prop :=
  3 + i * 2 < r.length ∧
    v.toNat = 256 * (r.getD (2 + i * 2) 0).toNat + (r.getD (3 + i * 2) 0).toNat

/-- The bytes of the coils. -/
def coilBytes (qty : UInt16) : Nat := (qty.toNat + 7) / 8

/-- The bytes of the registers. -/
def registerBytes (qty : UInt16) : Nat := 2 * qty.toNat

/-- The byte count that an answer announces. -/
def byteCount (r : List UInt8) : Nat := (r.getD 1 0).toNat

/-- A read fails and leaves `out` alone, or its answer has the byte count of the
quantity and it returns the quantity's values, each from within the answer. -/
structure AsAsked {α : Type} (qty : UInt16) (bytes : Nat) (In : List UInt8 → Nat → α → Prop)
    (answer : Option (List UInt8)) (out : List α) (returned : Returned α) : Prop where
  untouched : returned.ok = false → returned.out = some out
  exact : returned.ok = true → ∃ r values, answer = some r ∧ byteCount r = bytes ∧
    returned.out = some values ∧ values.length = qty.toNat ∧
      ∀ i (h : i < values.length), In r i values[i]

/-- An answer that passes the checks has this byte count. -/
def Fits (fc : UInt8) (bytes : Nat) (r : List UInt8) : Prop :=
  ModbusTcp.acceptsRead fc r = true → byteCount r = bytes

namespace ModbusTcp

/-- The PDU that a read takes off the connection. -/
def answerTo (fc : UInt8) (x : Exchange) (addr qty : UInt16) (cl : ModbusTcp) :
    Option (List UInt8) :=
  (cl.transact x (readPdu fc addr qty)).1

section Decoding

variable {r : List UInt8} {qty : UInt16}

theorem size_of_acceptsRead {fc : UInt8} (h : acceptsRead fc r = true) :
    2 + byteCount r ≤ r.length := by
  rw [acceptsRead, Bool.and_eq_true] at h
  exact of_decide_eq_true h.2

theorem coilAt_eq_some_iff {i : Nat} {v : UInt8} : coilAt r i = some v ↔ CoilIn r i v := by
  have hmod : i % 8 < 8 := Nat.mod_lt i (by decide)
  rw [coilAt, Option.map_eq_some_iff, CoilIn]
  constructor
  · rintro ⟨b, hb, rfl⟩
    obtain ⟨hi, rfl⟩ := List.getElem?_eq_some_iff.mp hb
    refine ⟨hi, ?_⟩
    rw [shiftRight_and_one _ hmod, packedBit, List.getD_eq_getElem?_getD, List.getElem?_drop, hb]
    rfl
  · rintro ⟨hi, rfl⟩
    refine ⟨r[2 + i / 8], List.getElem?_eq_getElem hi, ?_⟩
    rw [shiftRight_and_one _ hmod, packedBit, List.getD_eq_getElem?_getD, List.getElem?_drop,
      List.getElem?_eq_getElem hi]
    rfl

theorem coilAt_isSome_iff {i : Nat} : (coilAt r i).isSome ↔ 2 + i / 8 < r.length := by
  simp [coilAt]

/-- All accesses of a read of coils lie within the answer exactly if it has the
bytes of the quantity, whatever it announces. -/
theorem coils_isSome_iff : (coils qty r).isSome ↔ qty = 0 ∨ 2 + coilBytes qty ≤ r.length := by
  simp only [coils, mapM_isSome_iff, List.mem_range, coilAt_isSome_iff, coilBytes,
    ← UInt16.toNat_inj, UInt16.toNat_zero]
  constructor
  · intro h
    by_cases hzero : qty.toNat = 0
    · exact .inl hzero
    · have hlast := h (qty.toNat - 1) (by omega)
      right
      omega
  · intro h i hi
    omega

theorem registerAt_eq_some_iff {i : Nat} {v : UInt16} :
    registerAt r i = some v ↔ RegisterIn r i v := by
  rw [registerAt, Option.bind_eq_some_iff, RegisterIn]
  have hlow : 2 + i * 2 + 1 = 3 + i * 2 := by omega
  rw [hlow]
  constructor
  · rintro ⟨hi, hhi, hv⟩
    obtain ⟨lo, hlo, rfl⟩ := Option.map_eq_some_iff.mp hv
    obtain ⟨hlength, -⟩ := List.getElem?_eq_some_iff.mp hlo
    refine ⟨hlength, ?_⟩
    rw [toNat_be16, List.getD_eq_getElem?_getD, List.getD_eq_getElem?_getD, hhi, hlo]
    rfl
  · rintro ⟨hlength, hv⟩
    have hlength' : 2 + i * 2 < r.length := by omega
    refine ⟨r[2 + i * 2], List.getElem?_eq_getElem hlength', ?_⟩
    rw [List.getElem?_eq_getElem hlength, Option.map_some, Option.some.injEq, ← UInt16.toNat_inj,
      toNat_be16, hv, List.getD_eq_getElem _ _ hlength, List.getD_eq_getElem _ _ hlength']

/-- All accesses of a read of registers lie within an answer that it accepts. -/
theorem registers_isSome {fc : UInt8} (h : acceptsRead fc r = true) : (registers r).isSome := by
  have hsize := size_of_acceptsRead h
  rw [byteCount] at hsize
  rw [registers, mapM_isSome_iff]
  intro i hi
  rw [List.mem_range] at hi
  have hlength : 3 + i * 2 < r.length := by omega
  rw [Option.isSome_iff_exists]
  refine ⟨be16 (r.getD (2 + i * 2) 0) (r.getD (3 + i * 2) 0), registerAt_eq_some_iff.mpr ?_⟩
  exact ⟨hlength, toNat_be16 _ _⟩

theorem coils_exact (h : acceptsRead 0x01 r = true) (hbytes : byteCount r = coilBytes qty) :
    ∃ values, coils qty r = some values ∧ values.length = qty.toNat ∧
      ∀ i (h : i < values.length), CoilIn r i values[i] := by
  have hsize := size_of_acceptsRead h
  obtain ⟨values, hvalues⟩ :=
    Option.isSome_iff_exists.mp (coils_isSome_iff.mpr (.inr (hbytes ▸ hsize)))
  obtain ⟨hlength, hcoils⟩ := mapM_range_eq_some_iff.mp hvalues
  exact ⟨values, hvalues, hlength, fun i hi => coilAt_eq_some_iff.mp (hcoils i hi)⟩

theorem registers_exact (h : acceptsRead 0x04 r = true) (hbytes : byteCount r = registerBytes qty) :
    ∃ values, registers r = some values ∧ values.length = qty.toNat ∧
      ∀ i (h : i < values.length), RegisterIn r i values[i] := by
  obtain ⟨values, hvalues⟩ := Option.isSome_iff_exists.mp (registers_isSome h)
  obtain ⟨hlength, hregisters⟩ := mapM_range_eq_some_iff.mp hvalues
  refine ⟨values, hvalues, ?_, fun i hi => registerAt_eq_some_iff.mp (hregisters i hi)⟩
  rw [byteCount, registerBytes] at hbytes
  omega

end Decoding

section Reads

variable {α : Type} {fc : UInt8} {decode : List UInt8 → Option (List α)}
  {In : List UInt8 → Nat → α → Prop} {qty : UInt16} {bytes : Nat}

theorem asAsked_of_failed {answer : Option (List UInt8)} {out : List α} :
    AsAsked qty bytes In answer out ⟨false, some out⟩ := by
  constructor
  · intro _
    rfl
  · intro hok
    cases hok

/-- A read that decodes the answers of its byte count does what was asked where
its answer fits. -/
theorem asAsked_iff
    (hdecode : ∀ r, acceptsRead fc r = true → byteCount r = bytes →
      ∃ values, decode r = some values ∧ values.length = qty.toNat ∧
        ∀ i (h : i < values.length), In r i values[i])
    (x : Exchange) (addr : UInt16) (out : List α) (cl : ModbusTcp) :
    AsAsked qty bytes In (cl.answerTo fc x addr qty) out
        (cl.readValues fc decode x addr qty out).1 ↔
      ∀ r, cl.answerTo fc x addr qty = some r → Fits fc bytes r := by
  rw [answerTo, readValues]
  generalize cl.transact x (readPdu fc addr qty) = t
  obtain ⟨answer, cl'⟩ := t
  cases answer with
  | none =>
      constructor
      · intro _ r hr
        cases hr
      · intro _
        exact asAsked_of_failed
  | some r =>
      dsimp only
      by_cases haccept : acceptsRead fc r = true
      · rw [if_pos haccept]
        constructor
        · intro h r' hr' _
          obtain ⟨r'', -, hr'', hbytes, -⟩ := h.exact rfl
          obtain rfl := Option.some.inj (hr'.symm.trans hr'')
          exact hbytes
        · intro h
          obtain ⟨values, hvalues, hlength, hin⟩ := hdecode r haccept (h r rfl haccept)
          constructor
          · intro hfailed
            cases hfailed
          · intro _
            exact ⟨r, values, rfl, h r rfl haccept, hvalues, hlength, hin⟩
      · rw [if_neg haccept]
        constructor
        · intro _ r' hr' haccept'
          obtain rfl := Option.some.inj hr'
          exact absurd haccept' haccept
        · intro _
          exact asAsked_of_failed

end Reads

/-- A read of coils or registers does what was asked exactly if its answer, where
it passes the checks, has the byte count of the quantity. -/
theorem reads_as_asked_iff (x : Exchange) (addr qty : UInt16) (cl : ModbusTcp) :
    (∀ out, AsAsked qty (coilBytes qty) CoilIn (cl.answerTo 0x01 x addr qty) out
        (cl.readCoils x addr qty out).1 ↔
      ∀ r, cl.answerTo 0x01 x addr qty = some r → Fits 0x01 (coilBytes qty) r) ∧
    ∀ out, AsAsked qty (registerBytes qty) RegisterIn (cl.answerTo 0x04 x addr qty) out
        (cl.readInputRegisters x addr qty out).1 ↔
      ∀ r, cl.answerTo 0x04 x addr qty = some r → Fits 0x04 (registerBytes qty) r :=
  ⟨fun out => asAsked_iff (fun _ => coils_exact) x addr out cl,
    fun out => asAsked_iff (fun _ => registers_exact) x addr out cl⟩

/-- The answer to a read of sixteen coils with the byte count of eight. -/
def oneByteShort : Exchange := ⟨true, true, [0, 1, 0, 0, 0, 4, 1, 1, 1, 0xFF]⟩

/-- The ninth coil is read behind the answer. -/
theorem short_answer_overrun :
    ¬ ∀ (x : Exchange) (addr qty : UInt16) (cl : ModbusTcp) (out : List UInt8),
      AsAsked qty (coilBytes qty) CoilIn (cl.answerTo 0x01 x addr qty) out
        (cl.readCoils x addr qty out).1 := by
  intro h
  have hread := h oneByteShort 0x1000 16 ⟨1, none, 0, []⟩ []
  obtain ⟨r, values, -, -, hout, -⟩ := hread.exact (by decide)
  have hnone : ((⟨1, none, 0, []⟩ : ModbusTcp).readCoils oneByteShort 0x1000 16 []).1.out = none :=
    by decide
  rw [hnone] at hout
  cases hout

end ModbusTcp

end PolishingRobot.Crevis
