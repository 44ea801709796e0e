import Mathlib.Data.List.Basic

/-!
# Base64

Three bytes are written as four digits of six bits each.  The digits that are missing at
the end are written as `=`.

The decoder takes any four characters together, with the values given to them; each `=`
in the third or fourth place leaves out one byte.  Up to three characters at the end are
left over.
-/

set_option autoImplicit false

namespace Elykseer.Foundation.Base64

/-- The character `=`. -/
def pad : UInt8 := 61

/-- The character of a digit below 64. -/
def digit (d : ℕ) : UInt8 :=
  if d < 26 then 65 + d.toUInt8
  else if d < 52 then 71 + d.toUInt8
  else if d < 62 then d.toUInt8 - 4
  else if d = 62 then 43
  else 47

/-- Three bytes are four digits; what is left at the end is padded. -/
def encode : List UInt8 → List UInt8
  | [] => []
  | [a] => [digit (a.toNat / 4), digit (a.toNat % 4 * 16), pad, pad]
  | [a, b] =>
    [digit (a.toNat / 4), digit (a.toNat % 4 * 16 + b.toNat / 16), digit (b.toNat % 16 * 4), pad]
  | a :: b :: c :: rest =>
    digit (a.toNat / 4) :: digit (a.toNat % 4 * 16 + b.toNat / 16) ::
      digit (b.toNat % 16 * 4 + c.toNat / 64) :: digit (c.toNat % 64) :: encode rest

/-- The number that four characters make up. -/
def word (value : UInt8 → ℕ) (a b c d : UInt8) : ℕ :=
  ((value a * 64 + value b) * 64 + value c) * 64 + value d

/-- The three bytes of a number. -/
def wordBytes (n : ℕ) : List UInt8 := [(n / 65536).toUInt8, (n / 256).toUInt8, n.toUInt8]

/-- The bytes that are kept, from the third and the fourth character. -/
def kept (c d : UInt8) : ℕ := 3 - (if c = pad then 1 else 0) - (if d = pad then 1 else 0)

/-- Four digits are up to three bytes; what is left at the end is dropped. -/
def decode (value : UInt8 → ℕ) : List UInt8 → List UInt8
  | a :: b :: c :: d :: rest =>
    (wordBytes (word value a b c d)).take (kept c d) ++ decode value rest
  | _ => []

/-- No digit is the padding character. -/
theorem digit_ne_pad : ∀ d < 64, digit d ≠ pad := by decide

/-- Every character that is written is a digit or `=`. -/
theorem mem_encode {bs : List UInt8} {x : UInt8} (h : x ∈ encode bs) :
    x = pad ∨ ∃ d < 64, x = digit d := by
  induction bs using encode.induct with
  | case1 => cases h
  | case2 a =>
    have ha := a.toNat_lt
    simp only [encode, List.mem_cons, List.not_mem_nil, or_false] at h
    rcases h with rfl | rfl | rfl | rfl
    · exact .inr ⟨_, by omega, rfl⟩
    · exact .inr ⟨_, by omega, rfl⟩
    · exact .inl rfl
    · exact .inl rfl
  | case3 a b =>
    have ha := a.toNat_lt
    have hb := b.toNat_lt
    simp only [encode, List.mem_cons, List.not_mem_nil, or_false] at h
    rcases h with rfl | rfl | rfl | rfl
    · exact .inr ⟨_, by omega, rfl⟩
    · exact .inr ⟨_, by omega, rfl⟩
    · exact .inr ⟨_, by omega, rfl⟩
    · exact .inl rfl
  | case4 a b c rest ih =>
    have ha := a.toNat_lt
    have hb := b.toNat_lt
    have hc := c.toNat_lt
    simp only [encode, List.mem_cons] at h
    rcases h with rfl | rfl | rfl | rfl | h
    · exact .inr ⟨_, by omega, rfl⟩
    · exact .inr ⟨_, by omega, rfl⟩
    · exact .inr ⟨_, by omega, rfl⟩
    · exact .inr ⟨_, by omega, rfl⟩
    · exact ih h

/-- Of four characters at most three bytes are kept. -/
theorem kept_le (c d : UInt8) : kept c d ≤ 3 := by
  unfold kept
  omega

/-- A number that is a byte modulo 256 is converted to this byte. -/
theorem toUInt8_eq {n : ℕ} {a : UInt8} (h : n % 256 = a.toNat) : n.toUInt8 = a :=
  UInt8.toNat_inj.mp (UInt8.toNat_ofNat'.trans h)

/-- The three bytes are those that the number was made of. -/
theorem wordBytes_eq {n : ℕ} {a b c : UInt8}
    (h : n = a.toNat * 65536 + b.toNat * 256 + c.toNat) : wordBytes n = [a, b, c] := by
  have ha := a.toNat_lt
  have hb := b.toNat_lt
  have hc := c.toNat_lt
  rw [wordBytes, toUInt8_eq (a := a) (by omega), toUInt8_eq (a := b) (by omega),
    toUInt8_eq (a := c) (by omega)]

/-- **What is encoded is decoded again.** -/
theorem decode_encode {value : UInt8 → ℕ} (hvalue : ∀ d < 64, value (digit d) = d)
    (hpad : value pad = 0) (bs : List UInt8) : decode value (encode bs) = bs := by
  induction bs using encode.induct with
  | case1 => rfl
  | case2 a =>
    have ha := a.toNat_lt
    have hword : wordBytes (word value (digit (a.toNat / 4)) (digit (a.toNat % 4 * 16)) pad pad) =
        [a, 0, 0] := by
      apply wordBytes_eq
      rw [word, hvalue _ (by omega), hvalue _ (by omega), hpad, UInt8.toNat_zero]
      omega
    rw [encode, decode, hword]
    rfl
  | case3 a b =>
    have ha := a.toNat_lt
    have hb := b.toNat_lt
    have hword : wordBytes (word value (digit (a.toNat / 4))
        (digit (a.toNat % 4 * 16 + b.toNat / 16)) (digit (b.toNat % 16 * 4)) pad) = [a, b, 0] := by
      apply wordBytes_eq
      rw [word, hvalue _ (by omega), hvalue _ (by omega), hvalue _ (by omega), hpad,
        UInt8.toNat_zero]
      omega
    have hkept : kept (digit (b.toNat % 16 * 4)) pad = 2 := by
      rw [kept, if_neg (digit_ne_pad _ (by omega)), if_pos rfl]
    rw [encode, decode, hword, hkept]
    rfl
  | case4 a b c rest ih =>
    have ha := a.toNat_lt
    have hb := b.toNat_lt
    have hc := c.toNat_lt
    have hword : wordBytes (word value (digit (a.toNat / 4))
        (digit (a.toNat % 4 * 16 + b.toNat / 16)) (digit (b.toNat % 16 * 4 + c.toNat / 64))
        (digit (c.toNat % 64))) = [a, b, c] := by
      apply wordBytes_eq
      rw [word, hvalue _ (by omega), hvalue _ (by omega), hvalue _ (by omega),
        hvalue _ (by omega)]
      omega
    have hkept : kept (digit (b.toNat % 16 * 4 + c.toNat / 64)) (digit (c.toNat % 64)) = 3 := by
      rw [kept, if_neg (digit_ne_pad _ (by omega)), if_neg (digit_ne_pad _ (by omega))]
    rw [encode, decode, hword, hkept, ih]
    rfl

end Elykseer.Foundation.Base64
