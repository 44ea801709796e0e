import Mathlib.Data.List.Basic
import Mathlib.Data.Set.Function

/-!
# The interface of `elykseer-crypto`

The hash, the hex printing of keys and the AES-256-GCM objects come from a library that
is not part of the repository.  `Crypto` is what the code calls: functions that may
fail, with the cipher objects as opaque states.  What the library documents is stated
apart: `HexLawful` for the hex digits of keys, `GcmLawful` for the cipher (successive
pieces continue one keystream and one authentication state, `finish` checks the tag),
and `NoCollision` for the hash on a set of inputs.
-/

set_option autoImplicit false

namespace Elykseer.Model

/-- A byte string; also `std::string`, whose characters are bytes. -/
abbrev Bytes := List UInt8

/-- The bytes of an ASCII literal. -/
def ascii (s : String) : Bytes := s.toList.map fun c => c.val.toUInt8

/-- `Key256` -/
abbrev Key256 := Vector UInt8 32

/-- `Key128` -/
abbrev Key128 := Vector UInt8 16

/-- `Key96` -/
abbrev Key96 := Vector UInt8 12

/-- `CoqBuffer::tag_len` -/
def tagLen : ℕ := 16

/-- An authentication tag. -/
abbrev Tag := Vector UInt8 tagLen

/-- What `process(blen, buf)` does: its return value, the bytes it leaves in the buffer, and
the state of the object afterwards. -/
structure Processed (σ : Type) where
  count : ℤ
  out : Bytes
  next : σ

/-- What the code calls of `elykseer-crypto`.  A function that reports a failure returns
`none`. -/
structure Crypto where
  /-- `Sha3_256::hash` -/
  sha3 : Bytes → Key256
  /-- `Key256::toHex` -/
  toHex256 : Key256 → Bytes
  /-- `Key256::fromHex` -/
  fromHex256 : Bytes → Key256
  /-- `Key128::toHex` -/
  toHex128 : Key128 → Bytes
  /-- `Key128::fromHex` -/
  fromHex128 : Bytes → Key128
  /-- what `Key256{true}` holds, a key that is not drawn -/
  blank256 : Key256
  /-- `AesGcm::datasz` -/
  datasz : ℕ
  datasz_pos : 0 < datasz
  /-- `AesGcmEncrypt` -/
  EncState : Type
  encInit : Key256 → Key96 → EncState
  encAad : EncState → Bytes → Option EncState
  encProcess : EncState → Bytes → Processed EncState
  /-- the data is processed in place -/
  encProcess_length : ∀ s m, (encProcess s m).out.length = m.length
  encFinish : EncState → Option EncState
  encTag : EncState → Option Tag
  /-- `AesGcmDecrypt` -/
  DecState : Type
  decInit : Key256 → Key96 → DecState
  decAad : DecState → Bytes → Option DecState
  decTag : DecState → Tag → Option DecState
  decProcess : DecState → Bytes → Processed DecState
  /-- the data is processed in place -/
  decProcess_length : ∀ s m, (decProcess s m).out.length = m.length
  decFinish : DecState → Bool

/-- The hash has no collision among the inputs of `S`. -/
def Crypto.NoCollision (C : Crypto) (S : Set Bytes) : Prop := Set.InjOn C.sha3 S

/-! ## Hex digits -/

/-- `0`..`9`, `a`..`f` -/
def isHexDigit (b : UInt8) : Bool := (48 ≤ b && b ≤ 57) || (97 ≤ b && b ≤ 102)

/-- `toHex` prints two lowercase hex digits per byte, and `fromHex` reads them back. -/
structure Crypto.HexLawful (C : Crypto) : Prop where
  length256 : ∀ k, (C.toHex256 k).length = 64
  digits256 : ∀ k, ∀ b ∈ C.toHex256 k, isHexDigit b = true
  fromHex_toHex256 : ∀ k, C.fromHex256 (C.toHex256 k) = k
  length128 : ∀ k, (C.toHex128 k).length = 32
  digits128 : ∀ k, ∀ b ∈ C.toHex128 k, isHexDigit b = true
  fromHex_toHex128 : ∀ k, C.fromHex128 (C.toHex128 k) = k

/-- Keys with the same hex digits are equal. -/
theorem Crypto.HexLawful.toHex256_injective {C : Crypto} (h : C.HexLawful) :
    Function.Injective C.toHex256 :=
  Function.LeftInverse.injective h.fromHex_toHex256

/-! ## Enciphering with a keystream

A stream cipher adds the bytes of a keystream, from a given offset on, to the bytes of
a message.  Doing it twice gives the message back, and a message may be enciphered piece
by piece, each piece at its own offset. -/

namespace Keystream

/-- Add the keystream `ks`, from offset `off` on, to the message. -/
def applyAt (ks : ℕ → UInt8) (off : ℕ) : List UInt8 → List UInt8
  | [] => []
  | b :: rest => (b ^^^ ks off) :: applyAt ks (off + 1) rest

/-- The empty message stays empty. -/
@[simp] theorem applyAt_nil (ks : ℕ → UInt8) (off : ℕ) : applyAt ks off [] = [] := rfl

/-- Enciphering keeps the length of the message. -/
@[simp] theorem length_applyAt (ks : ℕ → UInt8) (off : ℕ) (m : List UInt8) :
    (applyAt ks off m).length = m.length := by
  induction m generalizing off with
  | nil => rfl
  | cons b rest ih => simp [applyAt, ih]

/-- Deciphering is enciphering once more. -/
@[simp] theorem applyAt_applyAt (ks : ℕ → UInt8) (off : ℕ) (m : List UInt8) :
    applyAt ks off (applyAt ks off m) = m := by
  induction m generalizing off with
  | nil => rfl
  | cons b rest ih =>
    rw [applyAt, applyAt, ih, UInt8.xor_assoc, UInt8.xor_self, UInt8.xor_zero]

/-- A message may be enciphered in two pieces. -/
theorem applyAt_append (ks : ℕ → UInt8) (off : ℕ) (m m' : List UInt8) :
    applyAt ks off (m ++ m') = applyAt ks off m ++ applyAt ks (off + m.length) m' := by
  induction m generalizing off with
  | nil => rfl
  | cons b rest ih =>
    simp only [List.cons_append, applyAt, ih, List.length_cons]
    rw [Nat.add_assoc, Nat.add_comm 1]

end Keystream

/-! ## AES-256-GCM -/

/-- The mathematics of the cipher: the keystream and the tag of a ciphertext. -/
structure Gcm where
  keystream : Key256 → Key96 → ℕ → UInt8
  auth : Key256 → Key96 → Bytes → Bytes → Tag

/-- What a cipher object has been given so far. -/
structure GcmProgress where
  key : Key256
  nonce : Key96
  aad : Bytes
  ciphertext : Bytes

/-- The objects of the library compute the cipher `G`: `encAt` and `decAt` say which
progress the state of an object stands for. -/
structure Crypto.Follows (C : Crypto) (G : Gcm) (encAt : C.EncState → GcmProgress → Prop)
    (decAt : C.DecState → GcmProgress → Option Tag → Prop) : Prop where
  encInit : ∀ k n, encAt (C.encInit k n) ⟨k, n, [], []⟩
  encAad : ∀ s k n a, encAt s ⟨k, n, [], []⟩ →
    ∃ s', C.encAad s a = some s' ∧ encAt s' ⟨k, n, a, []⟩
  encProcess : ∀ s p m, encAt s p → m.length ≤ C.datasz →
    (C.encProcess s m).count = m.length ∧
    (C.encProcess s m).out =
      Keystream.applyAt (G.keystream p.key p.nonce) p.ciphertext.length m ∧
    encAt (C.encProcess s m).next
      { p with ciphertext := p.ciphertext ++ (C.encProcess s m).out }
  encFinish : ∀ s p, encAt s p → ∃ s', C.encFinish s = some s' ∧ encAt s' p
  encTag : ∀ s p, encAt s p → C.encTag s = some (G.auth p.key p.nonce p.aad p.ciphertext)
  decInit : ∀ k n, decAt (C.decInit k n) ⟨k, n, [], []⟩ none
  decAad : ∀ s k n a, decAt s ⟨k, n, [], []⟩ none →
    ∃ s', C.decAad s a = some s' ∧ decAt s' ⟨k, n, a, []⟩ none
  decTag : ∀ s k n a t, decAt s ⟨k, n, a, []⟩ none →
    ∃ s', C.decTag s t = some s' ∧ decAt s' ⟨k, n, a, []⟩ (some t)
  decProcess : ∀ s p t m, decAt s p t → m.length ≤ C.datasz →
    (C.decProcess s m).count = m.length ∧
    (C.decProcess s m).out =
      Keystream.applyAt (G.keystream p.key p.nonce) p.ciphertext.length m ∧
    decAt (C.decProcess s m).next { p with ciphertext := p.ciphertext ++ m } t
  decFinish : ∀ s p t, decAt s p (some t) →
    (C.decFinish s = true ↔ t = G.auth p.key p.nonce p.aad p.ciphertext)

/-- The library's objects compute some keystream cipher with authentication. -/
def Crypto.GcmLawful (C : Crypto) : Prop :=
  ∃ (G : Gcm) (encAt : C.EncState → GcmProgress → Prop)
    (decAt : C.DecState → GcmProgress → Option Tag → Prop), C.Follows G encAt decAt

/-! ## Ideal authenticated encryption -/

/-- A message to be encrypted. -/
structure GcmMessage where
  key : Key256
  nonce : Key96
  aad : Bytes
  plaintext : Bytes
  deriving DecidableEq

/-- The message enciphered at once, and its tag. -/
def Gcm.seal (G : Gcm) (q : GcmMessage) : GcmProgress × Tag :=
  let c := Keystream.applyAt (G.keystream q.key q.nonce) 0 q.plaintext
  (⟨q.key, q.nonce, q.aad, c⟩, G.auth q.key q.nonce q.aad c)

/-- The objects of the library compute the cipher `G`, and a decryption is `accepted` or not. -/
structure Crypto.Computes (C : Crypto) (G : Gcm) (accepted : GcmProgress → Tag → Prop)
    (encAt : C.EncState → GcmProgress → Prop)
    (decAt : C.DecState → GcmProgress → Option Tag → Prop) : Prop where
  encInit : ∀ k n, encAt (C.encInit k n) ⟨k, n, [], []⟩
  encAad : ∀ s k n a, encAt s ⟨k, n, [], []⟩ →
    ∃ s', C.encAad s a = some s' ∧ encAt s' ⟨k, n, a, []⟩
  encProcess : ∀ s p m, encAt s p → m.length ≤ C.datasz →
    (C.encProcess s m).count = m.length ∧
    (C.encProcess s m).out =
      Keystream.applyAt (G.keystream p.key p.nonce) p.ciphertext.length m ∧
    encAt (C.encProcess s m).next
      { p with ciphertext := p.ciphertext ++ (C.encProcess s m).out }
  encFinish : ∀ s p, encAt s p → ∃ s', C.encFinish s = some s' ∧ encAt s' p
  encTag : ∀ s p, encAt s p → C.encTag s = some (G.auth p.key p.nonce p.aad p.ciphertext)
  decInit : ∀ k n, decAt (C.decInit k n) ⟨k, n, [], []⟩ none
  decAad : ∀ s k n a, decAt s ⟨k, n, [], []⟩ none →
    ∃ s', C.decAad s a = some s' ∧ decAt s' ⟨k, n, a, []⟩ none
  decTag : ∀ s k n a t, decAt s ⟨k, n, a, []⟩ none →
    ∃ s', C.decTag s t = some s' ∧ decAt s' ⟨k, n, a, []⟩ (some t)
  decProcess : ∀ s p t m, decAt s p t → m.length ≤ C.datasz →
    (C.decProcess s m).count = m.length ∧
    (C.decProcess s m).out =
      Keystream.applyAt (G.keystream p.key p.nonce) p.ciphertext.length m ∧
    decAt (C.decProcess s m).next { p with ciphertext := p.ciphertext ++ m } t
  decFinish : ∀ s p t, decAt s p (some t) → (C.decFinish s = true ↔ accepted p t)

/-- A library that accepts the tag it would compute. -/
theorem Crypto.Follows.computes {C : Crypto} {G : Gcm} {encAt : C.EncState → GcmProgress → Prop}
    {decAt : C.DecState → GcmProgress → Option Tag → Prop} (h : C.Follows G encAt decAt) :
    C.Computes G (fun p t => t = G.auth p.key p.nonce p.aad p.ciphertext) encAt decAt where
  encInit := h.encInit
  encAad := h.encAad
  encProcess := h.encProcess
  encFinish := h.encFinish
  encTag := h.encTag
  decInit := h.decInit
  decAad := h.decAad
  decTag := h.decTag
  decProcess := h.decProcess
  decFinish := h.decFinish

/-- **Ideal authenticated encryption**, when the messages of `Q` have been encrypted: only what has
been encrypted is accepted, no nonce is used twice with a key, and no two encryptions have the same
result. -/
structure Crypto.Ideal (C : Crypto) (G : Gcm) (Q : Set GcmMessage) : Prop where
  computes : ∃ (encAt : C.EncState → GcmProgress → Prop)
    (decAt : C.DecState → GcmProgress → Option Tag → Prop),
    C.Computes G (fun p t => ∃ q ∈ Q, G.seal q = (p, t)) encAt decAt
  nonces : ∀ q ∈ Q, ∀ q' ∈ Q, q'.key = q.key → q'.nonce = q.nonce → q' = q
  results : ∀ q ∈ Q, ∀ q' ∈ Q, (G.seal q').1.ciphertext = (G.seal q).1.ciphertext →
    (G.seal q').2 = (G.seal q).2 → q' = q

/-! ## The library -/

/-- The documented behaviour of the library. -/
structure Crypto.Lawful (C : Crypto) : Prop where
  hex : C.HexLawful
  gcm : C.GcmLawful

end Elykseer.Model
