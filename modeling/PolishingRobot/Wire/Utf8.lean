import Mathlib.Data.List.Basic
import Mathlib.Tactic.Common

/-!
# Decoding UTF-8 with the errors ignored

A byte that begins no sequence is dropped, and so is a sequence that is not
completed; the byte that it fails at is decoded anew. A decoded text has the
characters below `0x80` that its bytes have.
-/

namespace PolishingRobot.Wire

/-- A sequence that has begun: the range of its next byte, how many follow that
one, and the value so far. -/
structure Utf8Begun where
  low : UInt8 := 0x80
  high : UInt8 := 0xBF
  further : ℕ
  value : ℕ
  deriving DecidableEq, Repr

/-- The character of a value; surrogates are none. -/
def scalar (n : ℕ) : Option Char := if n.isValidChar then some (Char.ofNat n) else none

/-- A byte that begins a sequence, or is one. -/
def utf8Begin (b : UInt8) : Option Char × Option Utf8Begun :=
  if b < 0x80 then (some (Char.ofUInt8 b), none)
  else if b < 0xC2 then (none, none)
  else if b < 0xE0 then (none, some { further := 0, value := b.toNat - 0xC0 })
  else if b = 0xE0 then (none, some { low := 0xA0, further := 1, value := 0 })
  else if b = 0xED then (none, some { high := 0x9F, further := 1, value := 0xD })
  else if b < 0xF0 then (none, some { further := 1, value := b.toNat - 0xE0 })
  else if b = 0xF0 then (none, some { low := 0x90, further := 2, value := 0 })
  else if b < 0xF4 then (none, some { further := 2, value := b.toNat - 0xF0 })
  else if b = 0xF4 then (none, some { high := 0x8F, further := 2, value := 4 })
  else (none, none)

def utf8Step : Option Utf8Begun → UInt8 → Option Char × Option Utf8Begun
  | none, b => utf8Begin b
  | some s, b =>
      if s.low ≤ b ∧ b ≤ s.high then
        let value := s.value * 64 + (b.toNat - 0x80)
        match s.further with
        | 0 => (scalar value, none)
        | n + 1 => (none, some { further := n, value := value })
      else utf8Begin b

def utf8DecodeFrom (s : Option Utf8Begun) : List UInt8 → List Char
  | [] => []
  | b :: bs => (utf8Step s b).1.toList ++ utf8DecodeFrom (utf8Step s b).2 bs

def utf8Decode (bs : List UInt8) : List Char := utf8DecodeFrom none bs

/-- The sequence needs bytes from `0x80` on, and encodes no character below that. -/
def Utf8Begun.Wide (s : Utf8Begun) : Prop :=
  0x80 ≤ s.low.toNat ∧ (2 ≤ s.value ∨ 0 < s.further ∧ (1 ≤ s.value ∨ 0x90 ≤ s.low.toNat))

def Utf8Wide (s : Option Utf8Begun) : Prop := ∀ t ∈ s, t.Wide

theorem utf8Wide_none : Utf8Wide none := by
  intro s hs
  cases hs

theorem utf8Begin_wide (b : UInt8) : Utf8Wide (utf8Begin b).2 := by
  have hlt : ∀ n : UInt8, ¬ b < n → n.toNat ≤ b.toNat := fun n h => by
    simpa [UInt8.lt_iff_toNat_lt] using h
  have hne : ∀ n : UInt8, ¬ b = n → b.toNat ≠ n.toNat := fun n h h' => h (UInt8.toNat.inj h')
  intro s hs
  unfold utf8Begin at hs
  split_ifs at hs with h₀ h₁ h₂ h₃ h₄ h₅ h₆ h₇ h₈
  all_goals cases hs
  · have hle := hlt _ h₁
    refine ⟨Nat.le_refl 128, .inl ?_⟩
    simp only [UInt8.reduceToNat] at hle ⊢
    omega
  · exact ⟨by decide, .inr ⟨by decide, .inr (by decide)⟩⟩
  · exact ⟨by decide, .inl (by decide)⟩
  · have hle := hlt _ h₂
    have hother := hne _ h₃
    refine ⟨Nat.le_refl 128, .inr ⟨Nat.one_pos, .inl ?_⟩⟩
    simp only [UInt8.reduceToNat] at hle hother ⊢
    omega
  · exact ⟨by decide, .inr ⟨by decide, .inr (by decide)⟩⟩
  · have hle := hlt _ h₅
    have hother := hne _ h₆
    refine ⟨Nat.le_refl 128, .inr ⟨Nat.two_pos, .inl ?_⟩⟩
    simp only [UInt8.reduceToNat] at hle hother ⊢
    omega
  · exact ⟨by decide, .inl (by decide)⟩

theorem utf8Begin_char (b : UInt8) :
    (utf8Begin b).1 = if b < 0x80 then some (Char.ofUInt8 b) else none := by
  unfold utf8Begin
  split_ifs <;> rfl

/-- A value from `0x80` on is no character below. -/
theorem le_of_scalar {n : ℕ} {c : Char} (hn : 0x80 ≤ n) (h : scalar n = some c) :
    0x80 ≤ c.toNat := by
  obtain ⟨hvalid, hc⟩ := Option.ite_none_right_eq_some.mp h
  obtain rfl := Option.some.inj hc
  have hsame : Char.ofNat n = Char.ofNatAux n hvalid := dif_pos hvalid
  rw [hsame]
  exact hn

/-- A byte below `0x80` is a character, whatever had begun. -/
theorem utf8Step_low {s : Option Utf8Begun} (h : Utf8Wide s) {b : UInt8} (hb : b < 0x80) :
    utf8Step s b = (some (Char.ofUInt8 b), none) := by
  have hbegin : utf8Begin b = (some (Char.ofUInt8 b), none) := if_pos hb
  cases s with
  | none => exact hbegin
  | some t =>
      obtain ⟨hlow, -⟩ := h t rfl
      have hrange : ¬ (t.low ≤ b ∧ b ≤ t.high) := by
        rintro ⟨hle, -⟩
        have hle' := UInt8.le_iff_toNat_le.mp hle
        have hb' : b.toNat < 128 := UInt8.lt_iff_toNat_lt.mp hb
        omega
      rw [utf8Step, if_neg hrange, hbegin]

/-- Any other byte completes no character below. -/
theorem utf8Step_high {s : Option Utf8Begun} (h : Utf8Wide s) {b : UInt8} (hb : ¬ b < 0x80) :
    Utf8Wide (utf8Step s b).2 ∧ ∀ c ∈ (utf8Step s b).1, 0x80 ≤ c.toNat := by
  have hbegin : ∀ c ∈ (utf8Begin b).1, 0x80 ≤ c.toNat := by
    rw [utf8Begin_char, if_neg hb]
    intro c hc
    cases hc
  cases s with
  | none => exact ⟨utf8Begin_wide b, hbegin⟩
  | some t =>
      obtain ⟨hlow, hvalue⟩ := h t rfl
      rw [utf8Step]
      split_ifs with hrange
      · have hle := UInt8.le_iff_toNat_le.mp hrange.1
        cases hfurther : t.further with
        | zero =>
            refine ⟨utf8Wide_none, ?_⟩
            intro c hc
            dsimp only at hc
            have hvalue' : 0x80 ≤ t.value * 64 + (b.toNat - 0x80) := by omega
            exact le_of_scalar hvalue' hc
        | succ n =>
            refine ⟨?_, fun c hc => by cases hc⟩
            intro u hu
            obtain rfl := Option.some.inj hu
            refine ⟨Nat.le_refl 128, .inl ?_⟩
            simp only
            omega
      · exact ⟨utf8Begin_wide b, hbegin⟩

/-- What is asked of characters below `0x80` alone is asked of the bytes. -/
theorem filter_utf8DecodeFrom {p : Char → Bool} (hp : ∀ c, p c = true → c.toNat < 0x80)
    {s : Option Utf8Begun} (h : Utf8Wide s) (bs : List UInt8) :
    (utf8DecodeFrom s bs).filter p = (bs.map Char.ofUInt8).filter p := by
  induction bs generalizing s with
  | nil => rfl
  | cons b bs ih =>
      rw [utf8DecodeFrom, List.filter_append, List.map_cons]
      by_cases hb : b < 0x80
      · rw [utf8Step_low h hb, ih utf8Wide_none, Option.toList_some, ← List.filter_append,
          List.singleton_append]
      · obtain ⟨hwide, hchar⟩ := utf8Step_high h hb
        have hbyte : ¬ p (Char.ofUInt8 b) = true := by
          intro hpb
          exact hb (UInt8.lt_iff_toNat_lt.mpr (hp _ hpb))
        have hnone : ((utf8Step s b).1.toList).filter p = [] := by
          rw [List.filter_eq_nil_iff]
          intro c hc hpc
          have hlt := hp c hpc
          have hge := hchar c (Option.mem_toList.mp hc)
          omega
        rw [ih hwide, hnone, List.nil_append, List.filter_cons_of_neg hbyte]

theorem filter_utf8Decode {p : Char → Bool} (hp : ∀ c, p c = true → c.toNat < 0x80)
    (bs : List UInt8) : (utf8Decode bs).filter p = (bs.map Char.ofUInt8).filter p :=
  filter_utf8DecodeFrom hp utf8Wide_none bs

/-- Bytes below `0x80` are their characters. -/
theorem utf8Decode_low {bs : List UInt8} (h : ∀ b ∈ bs, b < 0x80) :
    utf8Decode bs = bs.map Char.ofUInt8 := by
  induction bs with
  | nil => rfl
  | cons b bs ih =>
      have hrest : utf8DecodeFrom none bs = bs.map Char.ofUInt8 :=
        ih fun b hb => h b (List.mem_cons_of_mem _ hb)
      rw [utf8Decode, utf8DecodeFrom, utf8Step_low utf8Wide_none (h b (by simp)), hrest]
      rfl

/-- A letter of two bytes, a sequence that is not completed, and a lone tail. -/
example : utf8Decode [0xC3, 0xA9, 0xE3, 0x81, 0x69, 0x80] = ['é', 'i'] := by decide

end PolishingRobot.Wire
