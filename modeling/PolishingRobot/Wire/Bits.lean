import Mathlib.Data.List.GetD
import Mathlib.Data.Nat.Bitwise

/-!
# Bits in bytes

A vector of bits is sent eight bits a byte, low bit first; the last byte is
filled with zeros. Reading bit by bit undoes it.
-/

namespace PolishingRobot.Wire

/-- The number of the bits, low bit first. -/
def bitsNat : List Bool → Nat
  | [] => 0
  | b :: bits => Nat.bit b (bitsNat bits)

theorem testBit_bitsNat (bits : List Bool) (i : Nat) :
    (bitsNat bits).testBit i = bits.getD i false := by
  induction bits generalizing i with
  | nil => simp [bitsNat]
  | cons b bits ih =>
      cases i with
      | zero => rw [bitsNat, Nat.testBit_bit_zero, List.getD_cons_zero]
      | succ i => rw [bitsNat, Nat.testBit_bit_succ, ih, List.getD_cons_succ]

theorem bitsNat_lt (bits : List Bool) : bitsNat bits < 2 ^ bits.length := by
  induction bits with
  | nil => simp [bitsNat]
  | cons b bits ih =>
      rw [bitsNat, List.length_cons, Nat.bit_val, pow_succ]
      have hb := Bool.toNat_lt b
      omega

/-- The bits in bytes. -/
def packBits (bits : List Bool) : List UInt8 :=
  (List.range ((bits.length + 7) / 8)).map fun j =>
    UInt8.ofNat (bitsNat ((bits.drop (8 * j)).take 8))

/-- A bit of the bytes. -/
def packedBit (bytes : List UInt8) (i : Nat) : Bool := (bytes.getD (i / 8) 0).toNat.testBit (i % 8)

@[simp] theorem packBits_length (bits : List Bool) :
    (packBits bits).length = (bits.length + 7) / 8 := by
  simp [packBits]

/-- What was packed is read back. -/
theorem packedBit_packBits {bits : List Bool} {i : Nat} (h : i < bits.length) :
    packedBit (packBits bits) i = bits.getD i false := by
  have hbyte : i / 8 < (packBits bits).length := by
    rw [packBits_length]
    omega
  have hlt : bitsNat ((bits.drop (8 * (i / 8))).take 8) < 2 ^ 8 :=
    (bitsNat_lt _).trans_le (Nat.pow_le_pow_right (by decide) (List.length_take_le 8 _))
  have hmod : i % 8 < 8 := Nat.mod_lt i (by decide)
  have hsum : 8 * (i / 8) + i % 8 = i := Nat.div_add_mod i 8
  calc packedBit (packBits bits) i
      = (bitsNat ((bits.drop (8 * (i / 8))).take 8)).testBit (i % 8) := by
        rw [packedBit, List.getD_eq_getElem _ _ hbyte]
        simp only [packBits, List.getElem_map, List.getElem_range]
        rw [UInt8.toNat_ofNat', Nat.mod_eq_of_lt hlt]
    _ = ((bits.drop (8 * (i / 8))).take 8).getD (i % 8) false := testBit_bitsNat _ _
    _ = bits.getD i false := by
        rw [List.getD_eq_getElem?_getD, List.getD_eq_getElem?_getD, List.getElem?_take,
          if_pos hmod, List.getElem?_drop, hsum]

end PolishingRobot.Wire
