import Mathlib.Algebra.BigOperators.Group.List.Basic
import Mathlib.Data.List.GetD
import Mathlib.Tactic.Ring

/-!
# Packed fields

A message is a number written low byte first. Fields of given widths are packed
from the low bits on, and reading the same widths gives them back; a reader that
knows only the first widths gets the first fields, whatever follows.
-/

namespace PolishingRobot.Wire

/-- The number of the bytes, low byte first. -/
def leNat : List UInt8 → Nat
  | [] => 0
  | b :: bs => b.toNat + 256 * leNat bs

/-- The low bytes of a number, low byte first. -/
def leBytes : Nat → Nat → List UInt8
  | 0, _ => []
  | k + 1, n => UInt8.ofNat n :: leBytes k (n / 256)

@[simp] theorem leBytes_length (k n : Nat) : (leBytes k n).length = k := by
  induction k generalizing n with
  | zero => rfl
  | succ k ih => rw [leBytes, List.length_cons, ih]

theorem leNat_leBytes (k n : Nat) : leNat (leBytes k n) = n % 256 ^ k := by
  induction k generalizing n with
  | zero => rw [leBytes, leNat, pow_zero, Nat.mod_one]
  | succ k ih => rw [leBytes, leNat, ih, UInt8.toNat_ofNat', pow_succ' 256,
        Nat.mod_mul]

theorem leNat_append (l m : List UInt8) : leNat (l ++ m) = leNat l + 256 ^ l.length * leNat m := by
  induction l with
  | nil => simp [leNat]
  | cons b l ih =>
      rw [List.cons_append, leNat, leNat, ih, List.length_cons, pow_succ]
      ring

theorem leNat_lt (l : List UInt8) : leNat l < 256 ^ l.length := by
  induction l with
  | nil => simp [leNat]
  | cons b l ih =>
      have hb := b.toNat_lt
      rw [leNat, List.length_cons, pow_succ]
      omega

theorem leNat_drop (l : List UInt8) (i : Nat) : leNat (l.drop i) = leNat l / 256 ^ i := by
  induction i generalizing l with
  | zero => simp
  | succ i ih =>
      cases l with
      | nil => simp [leNat]
      | cons b l =>
          have hb := b.toNat_lt
          have htail : (b.toNat + 256 * leNat l) / 256 = leNat l := by omega
          rw [List.drop_succ_cons, ih, leNat, pow_succ', ← Nat.div_div_eq_div_mul, htail]

theorem leNat_take (l : List UInt8) (k : Nat) : leNat (l.take k) = leNat l % 256 ^ k := by
  by_cases hk : k ≤ l.length
  · have hsplit := leNat_append (l.take k) (l.drop k)
    have hlt := leNat_lt (l.take k)
    rw [List.take_append_drop, List.length_take, min_eq_left hk] at hsplit
    rw [List.length_take, min_eq_left hk] at hlt
    rw [hsplit, Nat.add_mul_mod_self_left, Nat.mod_eq_of_lt hlt]
  · have hlength : l.length ≤ k := Nat.le_of_lt (Nat.lt_of_not_le hk)
    rw [List.take_of_length_le hlength, Nat.mod_eq_of_lt]
    exact (leNat_lt l).trans_le (Nat.pow_le_pow_right (by norm_num) hlength)

/-- Bits above a number are added to it. -/
theorem or_shiftLeft_eq_add {a k : Nat} (h : a < 2 ^ k) (b : Nat) :
    a ||| b <<< k = a + 2 ^ k * b := by
  rw [Nat.or_comm, ← Nat.shiftLeft_add_eq_or_of_lt h, Nat.shiftLeft_eq]
  ring

/-- Two bytes joined by shift and or. -/
theorem toNat_join16 (lo hi : UInt8) :
    (lo.toUInt16 ||| hi.toUInt16 <<< 8).toNat = leNat [lo, hi] := by
  have hlo := lo.toNat_lt
  have hhi := hi.toNat_lt
  have hshift : (hi.toUInt16 <<< 8).toNat = hi.toNat <<< 8 := by
    rw [UInt16.toNat_shiftLeft, UInt8.toNat_toUInt16]
    exact Nat.mod_eq_of_lt (by rw [Nat.shiftLeft_eq]; change hi.toNat * 2 ^ 8 < 2 ^ 16; omega)
  rw [UInt16.toNat_or, UInt8.toNat_toUInt16, hshift, or_shiftLeft_eq_add hlo]
  rfl

/-- Four bytes joined by shift and or. -/
theorem toNat_join32 (a b c d : UInt8) :
    (a.toUInt32 ||| b.toUInt32 <<< 8 ||| c.toUInt32 <<< 16 ||| d.toUInt32 <<< 24).toNat =
      leNat [a, b, c, d] := by
  have ha := a.toNat_lt
  have hb := b.toNat_lt
  have hc := c.toNat_lt
  have hd := d.toNat_lt
  have hshift : ∀ (x : UInt8) (k : Nat), k ≤ 24 →
      (x.toUInt32 <<< UInt32.ofNat k).toNat = x.toNat <<< k := by
    intro x k hk
    have hx := x.toNat_lt
    have hk' : k % 2 ^ 32 % 32 = k := by omega
    rw [UInt32.toNat_shiftLeft, UInt8.toNat_toUInt32, UInt32.toNat_ofNat', hk']
    apply Nat.mod_eq_of_lt
    rw [Nat.shiftLeft_eq]
    calc x.toNat * 2 ^ k ≤ x.toNat * 2 ^ 24 :=
          Nat.mul_le_mul_left _ (Nat.pow_le_pow_right (by norm_num) hk)
      _ < 2 ^ 32 := by omega
  have hb' : (b.toUInt32 <<< 8).toNat = b.toNat <<< 8 := hshift b 8 (by decide)
  have hc' : (c.toUInt32 <<< 16).toNat = c.toNat <<< 16 := hshift c 16 (by decide)
  have hd' : (d.toUInt32 <<< 24).toNat = d.toNat <<< 24 := hshift d 24 (by decide)
  rw [UInt32.toNat_or, UInt32.toNat_or, UInt32.toNat_or, UInt8.toNat_toUInt32, hb', hc', hd',
    or_shiftLeft_eq_add ha, or_shiftLeft_eq_add (by omega : _ < 2 ^ 16),
    or_shiftLeft_eq_add (by omega : _ < 2 ^ 24)]
  simp only [leNat]
  ring

/-- Some bytes in the middle, one by one. -/
theorem window_eq {l : List UInt8} {i k : Nat} (h : i + k ≤ l.length) :
    (List.range k).map (fun j => l.getD (i + j) 0) = (l.drop i).take k := by
  apply List.ext_getElem
  · simp only [List.length_map, List.length_range, List.length_take, List.length_drop]
    omega
  · intro j hj _
    have hj' : i + j < l.length := by
      simp only [List.length_map, List.length_range] at hj
      omega
    rw [List.getElem_map, List.getElem_range, List.getD_eq_getElem l 0 hj', List.getElem_take,
      List.getElem_drop]

/-- The number of some bytes in the middle. -/
theorem leNat_window {l : List UInt8} {i k : Nat} (h : i + k ≤ l.length) :
    leNat ((List.range k).map fun j => l.getD (i + j) 0) = leNat l / 256 ^ i % 256 ^ k := by
  rw [window_eq h, leNat_take, leNat_drop]

/-- The fields, each a width with a value, packed from the low bits on. -/
def pack : List (Nat × Nat) → Nat
  | [] => 0
  | (w, v) :: fields => v + 2 ^ w * pack fields

/-- The values of the widths. -/
def unpack : List Nat → Nat → List Nat
  | [], _ => []
  | w :: ws, n => n % 2 ^ w :: unpack ws (n / 2 ^ w)

/-- Every value has room in its field. -/
def Fits (fields : List (Nat × Nat)) : Prop := ∀ f ∈ fields, f.2 < 2 ^ f.1

variable {fields : List (Nat × Nat)}

@[simp] theorem unpack_length (ws : List Nat) (n : Nat) : (unpack ws n).length = ws.length := by
  induction ws generalizing n with
  | nil => rfl
  | cons w ws ih => rw [unpack, List.length_cons, ih, List.length_cons]

theorem pack_lt (h : Fits fields) : pack fields < 2 ^ (fields.map Prod.fst).sum := by
  induction fields with
  | nil => simp [pack]
  | cons f fields ih =>
      obtain ⟨w, v⟩ := f
      have hv : v < 2 ^ w := h (w, v) (by simp)
      have hrest := ih fun g hg => h g (by simp [hg])
      rw [pack, List.map_cons, List.sum_cons, pow_add]
      calc v + 2 ^ w * pack fields < 2 ^ w * (pack fields + 1) := by rw [mul_add, mul_one]; omega
        _ ≤ 2 ^ w * 2 ^ (fields.map Prod.fst).sum := Nat.mul_le_mul_left _ hrest

theorem pack_append (fields gs : List (Nat × Nat)) :
    pack (fields ++ gs) = pack fields + 2 ^ (fields.map Prod.fst).sum * pack gs := by
  induction fields with
  | nil => simp [pack]
  | cons f fields ih =>
      obtain ⟨w, v⟩ := f
      rw [List.cons_append, pack, pack, ih, List.map_cons, List.sum_cons, pow_add]
      ring

/-- The fields come back, whatever stands above them. -/
theorem unpack_pack_add (h : Fits fields) (n : Nat) :
    unpack (fields.map Prod.fst) (pack fields + 2 ^ (fields.map Prod.fst).sum * n) =
      fields.map Prod.snd := by
  induction fields with
  | nil => rfl
  | cons f fields ih =>
      obtain ⟨w, v⟩ := f
      have hv : v < 2 ^ w := h (w, v) (by simp)
      have hrest := ih fun g hg => h g (by simp [hg])
      have hsum : pack ((w, v) :: fields) + 2 ^ (((w, v) :: fields).map Prod.fst).sum * n =
          v + 2 ^ w * (pack fields + 2 ^ (fields.map Prod.fst).sum * n) := by
        rw [pack, List.map_cons, List.sum_cons, pow_add]
        ring
      rw [hsum, List.map_cons, unpack, Nat.add_mul_mod_self_left, Nat.mod_eq_of_lt hv,
        Nat.add_mul_div_left _ _ (Nat.two_pow_pos w), Nat.div_eq_of_lt hv, zero_add, hrest,
        List.map_cons]

/-- A reader that knows the first widths gets the first values. -/
theorem unpack_prefix (h : Fits fields) {ws : List Nat} (hws : ws <+: fields.map Prod.fst)
    (n : Nat) :
    unpack ws (pack fields + 2 ^ (fields.map Prod.fst).sum * n) =
      (fields.map Prod.snd).take ws.length := by
  obtain ⟨vs, hvs⟩ := hws
  obtain ⟨front, back, rfl, rfl, rfl⟩ := List.map_eq_append_iff.mp hvs.symm
  have hfront : Fits front := fun f hf => h f (by simp [hf])
  have hsum : pack (front ++ back) + 2 ^ ((front ++ back).map Prod.fst).sum * n =
      pack front + 2 ^ (front.map Prod.fst).sum *
        (pack back + 2 ^ (back.map Prod.fst).sum * n) := by
    rw [pack_append, List.map_append, List.sum_append, pow_add]
    ring
  rw [hsum, unpack_pack_add hfront]
  simp

end PolishingRobot.Wire
