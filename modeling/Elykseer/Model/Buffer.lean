import Elykseer.Foundation.Overlay
import Elykseer.Model.Crypto

/-!
# `CoqBuffer`

A buffer is its bytes; the null buffer of the code is the empty one.  Lengths are
`int`s when a buffer is made, hence below `2^31`.  The accessors follow
`CoqBuffer::pimpl`, with the `int` arguments and the comparisons of an `int` sum with
the unsigned length as they are in the code; an access outside of the buffer that is
neither refused nor an exception is the fault `outOfBounds`.

`encryptBuffer` and `decryptBuffer` are the loops over pieces of at most
`AesGcm::datasz` bytes, in place, with the tag in the last bytes of the buffer.
-/

set_option autoImplicit false

namespace Elykseer.Model

open Elykseer.Foundation

/-- What can go wrong other than by a returned value. -/
inductive Fault
  /-- `std::out_of_range`, thrown by `at` -/
  | outOfRange
  /-- memory outside of a buffer is accessed -/
  | outOfBounds
  /-- a null pointer is dereferenced -/
  | nullDereference
  deriving DecidableEq, Repr

/-- An `int` converted to `uint32_t`. -/
def u32 (x : ℤ) : ℕ := (x % 4294967296).toNat

/-- A `uint32_t` converted to `int`. -/
def i32 (n : ℕ) : ℤ := if n < 2147483648 then n else (n : ℤ) - 4294967296

/-- A small number is unchanged by the conversion to `int`. -/
theorem i32_of_lt {n : ℕ} (h : n < 2147483648) : i32 n = n := by
  simp [i32, h]

/-- A small number is unchanged by the conversion to `uint32_t`. -/
theorem u32_natCast {n : ℕ} (h : n < 4294967296) : u32 n = n := by
  unfold u32
  omega

/-- `EncryptionState` -/
inductive EncryptionState
  | plain
  | encrypted
  deriving DecidableEq, Repr

/-- `CoqBuffer`, either `CoqBufferPlain` or `CoqBufferEncrypted`. -/
structure CoqBuffer (s : EncryptionState) where
  bytes : Bytes
  len_lt : bytes.length < 2147483648

namespace CoqBuffer

variable {s : EncryptionState}

/-- Buffers are equal when their bytes are. -/
@[ext] theorem ext {b b' : CoqBuffer s} (h : b.bytes = b'.bytes) : b = b' := by
  cases b
  cases b'
  cases h
  rfl

instance : DecidableEq (CoqBuffer s) := fun b b' =>
  decidable_of_iff (b.bytes = b'.bytes) ⟨ext, fun h => h ▸ rfl⟩

/-- The buffer without memory. -/
def null : CoqBuffer s := ⟨[], by decide⟩

/-- `len()` -/
def len (b : CoqBuffer s) : ℕ := b.bytes.length

/-- `CoqBuffer(int n)` with a `uint32_t` argument: zeros, or the null buffer if the `int`
is not positive. -/
def create (n : ℕ) : CoqBuffer s :=
  if h : n < 2147483648 then ⟨List.replicate n 0, by rwa [List.length_replicate]⟩ else null

/-- `CoqBuffer(int n, const char *m)` -/
def ofBytes (m : Bytes) : CoqBuffer s :=
  if h : m.length < 2147483648 then ⟨m, h⟩ else null

/-- `at(idx)` -/
def at' (b : CoqBuffer s) (idx : ℕ) : Except Fault UInt8 :=
  match b.bytes[idx]? with
  | some v => .ok v
  | none => .error .outOfRange

/-- `at(idx, v)` -/
def setAt (b : CoqBuffer s) (idx : ℕ) (v : UInt8) : Except Fault (CoqBuffer s) :=
  if idx < b.len then .ok ⟨b.bytes.set idx v, by rw [List.length_set]; exact b.len_lt⟩
  else .error .outOfRange

/-- The bytes at `[pos, pos + sz)`, if they all lie in the buffer. -/
def range? (b : CoqBuffer s) (pos sz : ℤ) : Option Bytes :=
  if 0 ≤ pos ∧ 0 ≤ sz ∧ pos + sz ≤ b.len then
    some (Overlay.slice b.bytes pos.toNat sz.toNat)
  else none

/-- `calc_checksum(offset, dlen)` -/
def calcChecksumRange (C : Crypto) (b : CoqBuffer s) (offset dlen : ℤ) :
    Except Fault (Option Key256) :=
  if b.bytes ≠ [] ∧ u32 (dlen + offset) ≤ b.len then
    match b.range? offset dlen with
    | some d => .ok (some (C.sha3 d))
    | none => .error .outOfBounds
  else .ok none

/-- `calc_checksum()` -/
def calcChecksum (C : Crypto) (b : CoqBuffer s) : Except Fault (Option Key256) :=
  b.calcChecksumRange C 0 (i32 b.len)

/-- `fileout_sz_pos(pos, sz, fstr)`: the value returned and the bytes handed to `fwrite`,
whose own return value is not looked at. -/
def fileoutSzPos (b : CoqBuffer s) (pos sz : ℤ) : ℤ × Bytes :=
  if sz < 1 ∨ pos < 0 then (0, [])
  else if b.len < u32 (sz + pos) then (-1, [])
  else (sz, Overlay.slice b.bytes pos.toNat sz.toNat)

/-- `filein_sz_pos(pos, sz, fstr)` on an open file with the given content: the number of bytes
read, and the buffer with them. -/
def fileinSzPos (b : CoqBuffer s) (pos sz : ℤ) (content : Bytes) : ℤ × CoqBuffer s :=
  if sz < 1 ∨ pos < 0 then (0, b)
  else if b.len < u32 (sz + pos) then (-1, b)
  else
    let d := content.take sz.toNat
    (d.length, if h : pos.toNat + d.length ≤ b.bytes.length then
      ⟨Overlay.overwrite b.bytes pos.toNat d, by
        rw [Overlay.length_overwrite h]; exact b.len_lt⟩ else b)

/-! ## Encryption -/

/-- `nonce_from_ivec` -/
def nonceFromIvec (iv : Key128) : Key96 := Vector.ofFn fun i => iv[i]

/-- The loop of `encrypt_buffer` and of `decrypt_buffer` over pieces of at most `datasz` bytes:
`done` is behind it, `rest` is still to be processed. -/
def processPieces {σ : Type} (datasz : ℕ) (hpos : 0 < datasz) (process : σ → Bytes → Processed σ)
    (st : σ) (done rest : Bytes) : Option (σ × Bytes) :=
  if _h : rest = [] then some (st, done)
  else
    let piece := rest.take datasz
    let r := process st piece
    if r.count ≠ piece.length then none
    else processPieces datasz hpos process r.next (done ++ r.out) (rest.drop datasz)
termination_by rest.length
decreasing_by
  have := List.length_pos_of_ne_nil ‹_›
  rw [List.length_drop]
  omega

/-- `encrypt_buffer`; the buffer is lost when it fails. -/
def encryptBuffer (C : Crypto) (iv : Key128) (pk : Key256) (aad : Bytes) (b : Bytes) :
    Option Bytes :=
  if b = [] ∨ b.length < tagLen then none
  else
    (C.encAad (C.encInit pk (nonceFromIvec iv)) aad).bind fun st =>
    (processPieces C.datasz C.datasz_pos C.encProcess st []
      (b.take (b.length - tagLen))).bind fun r =>
    (C.encFinish r.1).bind fun st' =>
    (C.encTag st').map fun tag => r.2 ++ tag.toList

/-- The tag stored behind the data, for a buffer of at least `tagLen` bytes. -/
def storedTag (b : Bytes) : Tag :=
  Vector.ofFn fun i => b.getD (b.length - tagLen + i) 0

/-- `decrypt_buffer`: whether it succeeded, and the bytes of the buffer afterwards. -/
def decryptBuffer (C : Crypto) (iv : Key128) (pk : Key256) (aad : Bytes) (b : Bytes) :
    Bool × Bytes :=
  if b = [] ∨ b.length < tagLen then (false, b)
  else
    let dlen := b.length - tagLen
    match (C.decAad (C.decInit pk (nonceFromIvec iv)) aad).bind
      fun st => C.decTag st (storedTag b) with
    | none => (false, b)
    | some st =>
      match processPieces C.datasz C.datasz_pos C.decProcess st [] (b.take dlen) with
      -- the plaintext is not authenticated: the whole buffer is cleared
      | none => (false, List.replicate b.length 0)
      | some r =>
        if C.decFinish r.1 then (true, r.2 ++ b.drop dlen)
        else (false, List.replicate b.length 0)

/-- The loop of `decrypt_buffer` on the buffer itself, of which `n` bytes are decrypted: whether it
reached the tag, the state of the object, and the buffer. -/
def decryptLoop (C : Crypto) (dlen : ℕ) (st : C.DecState) (buffer : Bytes) (n : ℕ) :
    Bool × C.DecState × Bytes :=
  if _h : n < dlen then
    let blen := min (dlen - n) C.datasz
    let r := C.decProcess st (Overlay.slice buffer n blen)
    -- a piece is processed in a copy, which is only written back if all of it was processed
    if r.count ≠ blen then (false, r.next, buffer)
    else decryptLoop C dlen r.next (Overlay.overwrite buffer n r.out) (n + blen)
  else (true, st, buffer)
termination_by dlen - n
decreasing_by
  have := C.datasz_pos
  omega

/-- `decrypt_buffer` with the buffer as it is overwritten piece by piece. -/
def decryptBufferInPlace (C : Crypto) (iv : Key128) (pk : Key256) (aad : Bytes) (b : Bytes) :
    Bool × Bytes :=
  if b = [] ∨ b.length < tagLen then (false, b)
  else
    let dlen := b.length - tagLen
    match C.decAad (C.decInit pk (nonceFromIvec iv)) aad with
    | none => (false, b)
    | some st =>
      match C.decTag st (storedTag b) with
      | none => (false, b)
      | some st =>
        let r := decryptLoop C dlen st b 0
        if r.1 && C.decFinish r.2.1 then (true, r.2.2)
        else (false, List.replicate r.2.2.length 0)

/-! ## Lengths -/

/-- A buffer has the size it was made with, below `2^31`. -/
theorem len_create {n : ℕ} (h : n < 2147483648) : (create n : CoqBuffer s).len = n := by
  simp [create, h, len]

/-- A buffer made of bytes has these bytes, below `2^31`. -/
theorem bytes_ofBytes {m : Bytes} (h : m.length < 2147483648) :
    (ofBytes m : CoqBuffer s).bytes = m := by
  simp [ofBytes, h]

/-- Setting a byte keeps the length. -/
theorem len_setAt {b b' : CoqBuffer s} {idx : ℕ} {v : UInt8} (h : b.setAt idx v = .ok b') :
    b'.len = b.len := by
  unfold setAt at h
  split at h
  · cases h
    exact List.length_set
  · cases h

/-- Reading from a file keeps the length. -/
theorem len_fileinSzPos (b : CoqBuffer s) (pos sz : ℤ) (content : Bytes) :
    (b.fileinSzPos pos sz content).2.len = b.len := by
  unfold fileinSzPos
  split
  · rfl
  · split
    · rfl
    · dsimp only
      split
      · next h => exact Overlay.length_overwrite h
      · rfl

/-- Every piece is written back with its own length. -/
theorem length_processPieces {σ : Type} {datasz : ℕ} {hpos : 0 < datasz}
    {process : σ → Bytes → Processed σ} (hprocess : ∀ st m, (process st m).out.length = m.length)
    {st st' : σ} {done rest out : Bytes}
    (h : processPieces datasz hpos process st done rest = some (st', out)) :
    out.length = done.length + rest.length := by
  induction st, done, rest using processPieces.induct datasz hpos process with
  | case1 st done =>
    rw [processPieces] at h
    simp only [dite_true, Option.some.injEq, Prod.mk.injEq] at h
    rw [← h.2]
    rfl
  | case2 st done rest hrest piece r hcount =>
    rw [processPieces, dif_neg hrest, if_pos hcount] at h
    cases h
  | case3 st done rest hrest piece r hcount ih =>
    rw [processPieces, dif_neg hrest, if_neg hcount] at h
    have hpiece : r.out.length = piece.length := hprocess st piece
    have hlen : piece.length + (rest.drop datasz).length = rest.length := by
      rw [← List.length_append, List.take_append_drop]
    rw [ih h, List.length_append]
    omega

/-- Encryption keeps the length of the buffer. -/
theorem length_encryptBuffer {C : Crypto} {iv : Key128} {pk : Key256} {aad b c : Bytes}
    (h : encryptBuffer C iv pk aad b = some c) : c.length = b.length := by
  unfold encryptBuffer at h
  split at h
  · cases h
  · next hb =>
    simp only [Option.bind_eq_some_iff, Option.map_eq_some_iff] at h
    obtain ⟨st, -, ⟨st', out⟩, hp, st'', -, tag, -, rfl⟩ := h
    have := length_processPieces C.encProcess_length hp
    simp only [List.length_nil, List.length_take, List.length_append, Vector.length_toList]
      at this ⊢
    omega

/-- Decryption keeps the length of the buffer, also when it fails. -/
theorem length_decryptBuffer (C : Crypto) (iv : Key128) (pk : Key256) (aad b : Bytes) :
    (decryptBuffer C iv pk aad b).2.length = b.length := by
  unfold decryptBuffer
  split
  · rfl
  · dsimp only
    split
    · rfl
    · split
      · exact List.length_replicate
      · next r hr =>
        split
        · have := length_processPieces C.decProcess_length hr
          simp only [List.length_nil, List.length_take, List.length_append, List.length_drop]
            at this ⊢
          omega
        · exact List.length_replicate

/-! ## Buffers -/

/-- `CoqBufferPlain::encrypt(iv, key, aad)` -/
def encrypt (C : Crypto) (b : CoqBuffer .plain) (iv : Key128) (key : Key256) (aad : Bytes) :
    Option (CoqBuffer .encrypted) :=
  match h : encryptBuffer C iv key aad b.bytes with
  | none => none
  | some c => some ⟨c, (length_encryptBuffer h).trans_lt b.len_lt⟩

/-- `CoqBufferEncrypted::decrypt(iv, key, aad)` -/
def decrypt (C : Crypto) (b : CoqBuffer .encrypted) (iv : Key128) (key : Key256) (aad : Bytes) :
    Option (CoqBuffer .plain) :=
  let r := decryptBuffer C iv key aad b.bytes
  if r.1 then some ⟨r.2, (length_decryptBuffer C iv key aad b.bytes).trans_lt b.len_lt⟩ else none

end CoqBuffer

end Elykseer.Model
