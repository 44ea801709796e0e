import Mathlib.Data.List.Basic

/-!
# Hex digits

Bytes are printed as two lowercase hex digits each, and read back.
-/

set_option autoImplicit false

namespace Elykseer.Foundation.Hex

/-- The character of a digit below 16. -/
def digit (d : ℕ) : UInt8 := if d < 10 then 48 + d.toUInt8 else 87 + d.toUInt8

/-- The value of a digit character. -/
def value (c : UInt8) : ℕ := if c < 97 then c.toNat - 48 else c.toNat - 87

/-- Two digits a byte. -/
def encode : List UInt8 → List UInt8
  | [] => []
  | b :: bs => digit (b.toNat / 16) :: digit (b.toNat % 16) :: encode bs

/-- A byte for two digits; a digit that is left at the end is dropped. -/
def decode : List UInt8 → List UInt8
  | h :: l :: rest => (16 * value h + value l).toUInt8 :: decode rest
  | _ => []

/-- A digit has its value. -/
theorem value_digit : ∀ d < 16, value (digit d) = d := by decide

/-- A byte has two digits. -/
theorem length_encode (bs : List UInt8) : (encode bs).length = 2 * bs.length := by
  induction bs with
  | nil => rfl
  | cons b bs ih =>
    rw [encode, List.length_cons, List.length_cons, List.length_cons, ih]
    omega

/-- Every printed character is a digit. -/
theorem mem_encode {bs : List UInt8} {c : UInt8} (h : c ∈ encode bs) :
    ∃ d < 16, c = digit d := by
  induction bs with
  | nil => cases h
  | cons b bs ih =>
    have hb := b.toNat_lt
    rw [encode, List.mem_cons, List.mem_cons] at h
    rcases h with rfl | rfl | h
    · exact ⟨_, by omega, rfl⟩
    · exact ⟨_, by omega, rfl⟩
    · exact ih h

/-- Encoded bytes are decoded. -/
theorem decode_encode (bs : List UInt8) : decode (encode bs) = bs := by
  induction bs with
  | nil => rfl
  | cons b bs ih =>
    have hb := b.toNat_lt
    rw [encode, decode, ih, value_digit _ (by omega), value_digit _ (by omega), Nat.div_add_mod]
    simp [Nat.toUInt8]

/-- Different bytes have different digits. -/
theorem encode_injective : Function.Injective encode :=
  Function.LeftInverse.injective decode_encode

end Elykseer.Foundation.Hex
