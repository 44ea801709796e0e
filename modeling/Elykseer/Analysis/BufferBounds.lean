import Elykseer.Analysis.ReferenceCrypto
import Elykseer.Model.BufferAccess

/-!
# Which bytes the operations of a buffer access

A bounds check adds two `int`s and compares the sum with the unsigned length.  Behind the
checks for negative arguments the sum is exact (`u32_add`), so that `copy_sz_pos`,
`fileout_sz_pos`, `filein_sz_pos` and `to_buffer` stay inside of their buffers; `calc_checksum`
has no such checks, and `at` follows a pointer that may be null: `bufferCall_inBounds_iff`.
-/

set_option autoImplicit false

namespace Elykseer.Analysis

open Elykseer.Model Elykseer.Foundation

variable {C : Crypto} {s t : EncryptionState}

/-! ## Checked accesses -/

/-- The sum of two `int`s that are not negative, compared as unsigned, is exact. -/
theorem u32_add {x y : ℤ} (hx : 0 ≤ x) (hy : 0 ≤ y) (hx' : x < 2147483648) (hy' : y < 2147483648) :
    (u32 (x + y) : ℤ) = x + y := by
  unfold u32
  omega

/-- A range inside of the buffer is read. -/
theorem readAt_eq {b : CoqBuffer s} {pos sz : ℤ} (hpos : 0 ≤ pos) (hsz : 0 ≤ sz)
    (h : pos + sz ≤ b.len) :
    b.readAt pos sz = .ok (Overlay.slice b.bytes pos.toNat sz.toNat) := by
  unfold CoqBuffer.readAt CoqBuffer.range?
  rw [if_pos ⟨hpos, hsz, h⟩]

/-- A range inside of the buffer is written. -/
theorem writeAt_eq {b : CoqBuffer s} {pos : ℤ} {d : Bytes} (hpos : 0 ≤ pos)
    (h : pos + d.length ≤ b.len) :
    ∃ b', b.writeAt pos d = .ok b' ∧ b'.bytes = Overlay.overwrite b.bytes pos.toNat d := by
  have hlen : b.len = b.bytes.length := rfl
  unfold CoqBuffer.writeAt
  rw [dif_pos ⟨hpos, by omega⟩]
  exact ⟨_, rfl, rfl⟩

section Ranges

variable {pos sz : ℤ} (hpos : pos < 2147483648) (hsz : sz < 2147483648)
include hpos hsz

/-- **`fileout_sz_pos` reads inside of the buffer.** -/
theorem fileoutSzPos'_eq (b : CoqBuffer s) :
    b.fileoutSzPos' pos sz = .ok (b.fileoutSzPos pos sz) := by
  unfold CoqBuffer.fileoutSzPos' CoqBuffer.fileoutSzPos
  by_cases hneg : sz < 1 ∨ pos < 0
  · rw [if_pos hneg, if_pos hneg]
  · have hsum := u32_add (x := sz) (y := pos) (by omega) (by omega) hsz hpos
    rw [if_neg hneg, if_neg hneg]
    by_cases hlen : b.len < u32 (sz + pos)
    · rw [if_pos hlen, if_pos hlen]
    · rw [if_neg hlen, if_neg hlen, readAt_eq (by omega) (by omega) (by omega)]
      rfl

/-- **`filein_sz_pos` writes inside of the buffer.** -/
theorem fileinSzPos'_eq (b : CoqBuffer s) (content : Bytes) :
    b.fileinSzPos' pos sz content = .ok (b.fileinSzPos pos sz content) := by
  unfold CoqBuffer.fileinSzPos' CoqBuffer.fileinSzPos
  by_cases hneg : sz < 1 ∨ pos < 0
  · rw [if_pos hneg, if_pos hneg]
  · have hsum := u32_add (x := sz) (y := pos) (by omega) (by omega) hsz hpos
    rw [if_neg hneg, if_neg hneg]
    by_cases hlen : b.len < u32 (sz + pos)
    · rw [if_pos hlen, if_pos hlen]
    · have htake : (content.take sz.toNat).length ≤ sz.toNat := List.length_take_le _ _
      have hbytes : b.len = b.bytes.length := rfl
      rw [if_neg hlen, if_neg hlen, readAt_eq (by omega) (by omega) (by omega)]
      dsimp only [Except.bind]
      rw [CoqBuffer.writeAt, dif_pos ⟨by omega, by omega⟩, dif_pos (by omega)]
      rfl

end Ranges

/-- Nothing is changed unless something was read. -/
theorem fileinSzPos_of_le (b : CoqBuffer s) {pos sz : ℤ} {content : Bytes}
    (h : (b.fileinSzPos pos sz content).1 ≤ 0) : (b.fileinSzPos pos sz content).2 = b := by
  unfold CoqBuffer.fileinSzPos at h ⊢
  split at h
  · next hneg => rw [if_pos hneg]
  · next hneg =>
    rw [if_neg hneg]
    split at h
    · next hlen => rw [if_pos hlen]
    · next hlen =>
      rw [if_neg hlen]
      dsimp only at h ⊢
      have hnil : content.take sz.toNat = [] := List.eq_nil_of_length_eq_zero (by omega)
      split
      · apply CoqBuffer.ext
        simp [Overlay.overwrite, hnil]
      · rfl

/-- **`copy_sz_pos` stays inside of both buffers**, and changes nothing unless it copies. -/
theorem copySzPos_cases (b : CoqBuffer s) (target : Option (CoqBuffer t)) {pos0 sz pos1 : ℤ}
    (hpos0 : pos0 < 2147483648) (hsz : sz < 2147483648) (hpos1 : pos1 < 2147483648) :
    ∃ v target', b.copySzPos pos0 sz target pos1 = .ok (v, target') ∧
      (v ≤ 0 → target' = target) := by
  unfold CoqBuffer.copySzPos
  by_cases hneg : sz < 1 ∨ pos0 < 0 ∨ pos1 < 0
  · rw [if_pos hneg]
    exact ⟨_, _, rfl, fun _ => rfl⟩
  · have hsum0 := u32_add (x := sz) (y := pos0) (by omega) (by omega) hsz hpos0
    have hsum1 := u32_add (x := sz) (y := pos1) (by omega) (by omega) hsz hpos1
    rw [if_neg hneg]
    by_cases hlen0 : b.len < u32 (sz + pos0)
    · rw [if_pos hlen0]
      exact ⟨_, _, rfl, fun _ => rfl⟩
    · rw [if_neg hlen0]
      by_cases hlen1 : CoqBuffer.lenOf target < u32 (sz + pos1)
      · rw [if_pos hlen1]
        exact ⟨_, _, rfl, fun _ => rfl⟩
      · rw [if_neg hlen1]
        cases target with
        | none => exact ⟨_, _, rfl, fun _ => rfl⟩
        | some c =>
          dsimp only
          by_cases hnull : c.bytes = []
          · rw [if_pos hnull]
            exact ⟨_, _, rfl, fun _ => rfl⟩
          · have hlenc : CoqBuffer.lenOf (some c) = c.len := rfl
            have hslice : (Overlay.slice b.bytes pos0.toNat sz.toNat).length = sz.toNat := by
              apply Overlay.length_slice
              have hbytes : b.len = b.bytes.length := rfl
              omega
            obtain ⟨c', hwrite, -⟩ := writeAt_eq (b := c) (show 0 ≤ pos1 by omega)
              (d := Overlay.slice b.bytes pos0.toNat sz.toNat) (by omega)
            rw [if_neg hnull, readAt_eq (by omega) (by omega) (by omega)]
            dsimp only [Except.bind]
            rw [hwrite]
            refine ⟨_, _, rfl, fun hv => ?_⟩
            omega

/-- **`to_buffer` reads inside of the buffer.** -/
theorem toBuffer_cases (b : CoqBuffer s) {n : ℤ} (hn : -2147483648 ≤ n) (hn' : n < 2147483648) :
    ∃ v d, b.toBuffer n = .ok (v, d) := by
  have hlen : b.len < 2147483648 := b.len_lt
  unfold CoqBuffer.toBuffer
  by_cases hbig : b.len < u32 n
  · rw [if_pos hbig]
    exact ⟨_, _, rfl⟩
  · have hu : (u32 n : ℤ) = n ∨ (u32 n : ℤ) = n + 4294967296 := by
      unfold u32
      omega
    rw [if_neg hbig, readAt_eq (by omega) (by omega) (by omega)]
    exact ⟨_, _, rfl⟩

/-- `calc_checksum` leaves the buffer exactly if one of its arguments is negative and their sum
passes the check. -/
theorem calcChecksumRange_outside_iff (b : CoqBuffer s) {offset dlen : ℤ}
    (hoffset : offset < 2147483648) (hdlen : dlen < 2147483648) :
    b.calcChecksumRange C offset dlen = .error .outOfBounds ↔
      b.bytes ≠ [] ∧ u32 (dlen + offset) ≤ b.len ∧ (offset < 0 ∨ dlen < 0) := by
  unfold CoqBuffer.calcChecksumRange
  by_cases hcheck : b.bytes ≠ [] ∧ u32 (dlen + offset) ≤ b.len
  · rw [if_pos hcheck]
    unfold CoqBuffer.range?
    by_cases hneg : offset < 0 ∨ dlen < 0
    · rw [if_neg (by omega)]
      exact iff_of_true rfl ⟨hcheck.1, hcheck.2, hneg⟩
    · have hsum := u32_add (x := dlen) (y := offset) (by omega) (by omega) hdlen hoffset
      rw [if_pos (by omega)]
      exact iff_of_false (fun h => by cases h) fun h => hneg h.2.2
  · rw [if_neg hcheck]
    exact iff_of_false (fun h => by cases h) fun h => hcheck ⟨h.1, h.2.1⟩

/-- `calc_checksum` has no other fault. -/
theorem calcChecksumRange_cases (C : Crypto) (b : CoqBuffer s) (offset dlen : ℤ) :
    b.calcChecksumRange C offset dlen = .error .outOfBounds ∨
      ∃ k, b.calcChecksumRange C offset dlen = .ok k := by
  unfold CoqBuffer.calcChecksumRange
  split
  · split
    · exact .inr ⟨_, rfl⟩
    · exact .inl rfl
  · exact .inr ⟨_, rfl⟩

/-! ## Calls -/

/-- A call refuses, by an exception or its result, and changes no buffer, or it accesses only bytes
of its buffers. -/
structure InBounds (C : Crypto) (call : BufferCall) (p : Option (CoqBuffer s))
    (target : Option (CoqBuffer t)) : Prop where
  not_outside : (call.run C p target).2 ≠ .error .outOfBounds
  not_null : (call.run C p target).2 ≠ .error .nullDereference
  thrown : ∀ f, (call.run C p target).2 = .error f → (call.run C p target).1 = (p, target)
  refused : ∀ r, (call.run C p target).2 = .ok r → r.Refused →
    (call.run C p target).1 = (p, target)

/-- The buffer has memory where the call does not ask, and no argument of `calc_checksum` is
negative where the sum passes its check. -/
def CallGuarded (p : Option (CoqBuffer s)) : BufferCall → Prop
  | .at' _ | .setAt _ _ => p.isSome = true
  | .calcChecksum offset dlen => ¬ ∃ b ∈ p, b.bytes ≠ [] ∧
      u32 (dlen.toInt + offset.toInt) ≤ b.len ∧ (offset.toInt < 0 ∨ dlen.toInt < 0)
  | _ => True

/-- A call that returns and changes nothing if it refuses. -/
theorem inBounds_of_ok {call : BufferCall} {p : Option (CoqBuffer s)}
    {target : Option (CoqBuffer t)} (p' : Option (CoqBuffer s)) (target' : Option (CoqBuffer t))
    (r : BufferResult) (hrun : call.run C p target = ((p', target'), .ok r))
    (h : r.Refused → p' = p ∧ target' = target) : InBounds C call p target := by
  constructor <;> rw [hrun]
  · exact fun h => by cases h
  · exact fun h => by cases h
  · exact fun f h => by cases h
  · intro r' hr' hrefused
    cases hr'
    obtain ⟨rfl, rfl⟩ := h hrefused
    rfl

/-- A call that throws and changes nothing. -/
theorem inBounds_of_thrown {call : BufferCall} {p : Option (CoqBuffer s)}
    {target : Option (CoqBuffer t)} (hrun : call.run C p target = ((p, target), .error .outOfRange)) :
    InBounds C call p target := by
  constructor <;> rw [hrun]
  · exact fun h => by cases h
  · exact fun h => by cases h
  · exact fun f h => rfl
  · exact fun r h => by cases h

/-- A call that faults is not in bounds. -/
theorem not_inBounds {call : BufferCall} {p : Option (CoqBuffer s)} {target : Option (CoqBuffer t)}
    (hrun : (call.run C p target).2 = .error .outOfBounds ∨
      (call.run C p target).2 = .error .nullDereference) : ¬ InBounds C call p target := by
  intro h
  exact hrun.elim h.not_outside h.not_null

/-- A call that follows the null pointer is in bounds only where there is a buffer. -/
theorem not_inBounds_null {call : BufferCall} {target : Option (CoqBuffer t)}
    (hrun : (call.run C (none : Option (CoqBuffer s)) target).2 = .error .nullDereference) :
    InBounds C call (none : Option (CoqBuffer s)) target ↔
      (none : Option (CoqBuffer s)).isSome = true :=
  iff_of_false (not_inBounds (.inr hrun)) (by simp)

/-- Where the bytes have been moved away, `at` follows the null pointer and all other calls
refuse. -/
theorem inBounds_none_iff (C : Crypto) (call : BufferCall) (target : Option (CoqBuffer t)) :
    InBounds C call (none : Option (CoqBuffer s)) target ↔
      CallGuarded (none : Option (CoqBuffer s)) call := by
  cases call with
  | at' idx => exact not_inBounds_null rfl
  | setAt idx v => exact not_inBounds_null rfl
  | calcChecksum offset dlen =>
    refine iff_of_true (inBounds_of_ok none target _ rfl fun _ => ⟨rfl, rfl⟩) ?_
    rintro ⟨b, hb, -⟩
    cases hb
  | copySzPos pos0 sz pos1 =>
    exact iff_of_true (inBounds_of_ok none target _ rfl fun _ => ⟨rfl, rfl⟩) trivial
  | fileoutSzPos pos sz fstr =>
    exact iff_of_true (inBounds_of_ok none target _ rfl fun _ => ⟨rfl, rfl⟩) trivial
  | fileinSzPos pos sz fstr =>
    exact iff_of_true (inBounds_of_ok none target _ rfl fun _ => ⟨rfl, rfl⟩) trivial
  | toBuffer n dest =>
    exact iff_of_true (inBounds_of_ok none target _ rfl fun _ => ⟨rfl, rfl⟩) trivial

/-- The only call on a buffer with memory that may leave it is `calc_checksum`. -/
theorem inBounds_calcChecksum_iff (C : Crypto) (b : CoqBuffer s) (offset dlen : Int32)
    (target : Option (CoqBuffer t)) :
    InBounds C (.calcChecksum offset dlen) (some b) target ↔
      CallGuarded (some b) (.calcChecksum offset dlen) := by
  have hguard : CallGuarded (some b) (.calcChecksum offset dlen) ↔
      ¬ (b.bytes ≠ [] ∧ u32 (dlen.toInt + offset.toInt) ≤ b.len ∧
        (offset.toInt < 0 ∨ dlen.toInt < 0)) := by
    simp [CallGuarded]
  rw [hguard, ← calcChecksumRange_outside_iff (C := C) b offset.toInt_lt dlen.toInt_lt]
  rcases calcChecksumRange_cases C b offset.toInt dlen.toInt with hout | ⟨k, hk⟩
  · refine iff_of_false (not_inBounds (.inl ?_)) (not_not_intro hout)
    rw [BufferCall.run, hout]
    rfl
  · refine iff_of_true ?_ (by rw [hk]; exact fun h => by cases h)
    refine inBounds_of_ok (some b) target (.checksum k) ?_ fun _ => ⟨rfl, rfl⟩
    rw [BufferCall.run, hk]
    rfl

/-- **`CoqBuffer` never touches a byte outside itself**, for any call on any pair of buffers, if
and only if no negative argument of `calc_checksum` passes its check and `at` is called on a
buffer whose bytes have not been moved away. -/
theorem bufferCall_inBounds_iff (C : Crypto) (call : BufferCall) (p : Option (CoqBuffer s))
    (target : Option (CoqBuffer t)) : InBounds C call p target ↔ CallGuarded p call := by
  have hint : ∀ x : Int32, x.toInt < 2147483648 := fun x => x.toInt_lt
  have hint' : ∀ x : Int32, -2147483648 ≤ x.toInt := fun x => x.le_toInt
  cases p with
  | none => exact inBounds_none_iff C call target
  | some b =>
    cases call with
    | calcChecksum offset dlen => exact inBounds_calcChecksum_iff C b offset dlen target
    | at' idx =>
      refine iff_of_true ?_ rfl
      by_cases hidx : idx.toNat < b.len
      · refine inBounds_of_ok (some b) target (.byte (b.bytes.get ⟨idx.toNat, hidx⟩)) ?_
          fun h => h.elim
        rw [BufferCall.run, at'_of_lt hidx]
        rfl
      · apply inBounds_of_thrown
        rw [BufferCall.run, CoqBuffer.at', List.getElem?_eq_none (Nat.le_of_not_lt hidx)]
        rfl
    | setAt idx v =>
      refine iff_of_true ?_ rfl
      by_cases hidx : idx.toNat < b.len
      · obtain ⟨b', hset, -⟩ := setAt_of_lt hidx v
        refine inBounds_of_ok (some b') target .done ?_ fun h => h.elim
        rw [BufferCall.run, hset]
      · apply inBounds_of_thrown
        rw [BufferCall.run, CoqBuffer.setAt, if_neg hidx]
    | copySzPos pos0 sz pos1 =>
      refine iff_of_true ?_ trivial
      obtain ⟨v, target', hcopy, hunchanged⟩ := copySzPos_cases b target (hint pos0) (hint sz)
        (hint pos1)
      refine inBounds_of_ok (some b) target' (.value v) ?_ fun h => ⟨rfl, hunchanged h⟩
      rw [BufferCall.run, hcopy]
    | fileoutSzPos pos sz fstr =>
      refine iff_of_true ?_ trivial
      cases fstr with
      | none => exact inBounds_of_ok (some b) target _ rfl fun _ => ⟨rfl, rfl⟩
      | some f =>
        refine inBounds_of_ok (some b) target (.value (b.fileoutSzPos pos.toInt sz.toInt).1) ?_
          fun _ => ⟨rfl, rfl⟩
        rw [BufferCall.run, fileoutSzPos'_eq (hint pos) (hint sz)]
        rfl
    | fileinSzPos pos sz fstr =>
      refine iff_of_true ?_ trivial
      cases fstr with
      | none => exact inBounds_of_ok (some b) target _ rfl fun _ => ⟨rfl, rfl⟩
      | some content =>
        refine inBounds_of_ok (some (b.fileinSzPos pos.toInt sz.toInt content).2) target
          (.value (b.fileinSzPos pos.toInt sz.toInt content).1) ?_ ?_
        · rw [BufferCall.run, fileinSzPos'_eq (hint pos) (hint sz)]
        · intro h
          exact ⟨congrArg some (fileinSzPos_of_le b h), rfl⟩
    | toBuffer n dest =>
      refine iff_of_true ?_ trivial
      cases dest with
      | none => exact inBounds_of_ok (some b) target _ rfl fun _ => ⟨rfl, rfl⟩
      | some d =>
        obtain ⟨v, d, hcopy⟩ := toBuffer_cases b (hint' n) (hint n)
        refine inBounds_of_ok (some b) target (.value v) ?_ fun _ => ⟨rfl, rfl⟩
        rw [BufferCall.run, hcopy]
        rfl

/-- The checksum of two bytes of a buffer of one byte, from the byte in front of it; and an access
to a buffer that has been encrypted. -/
theorem bufferCall_counterexample :
    ¬ InBounds simple (.calcChecksum (-1) 2) (some (CoqBuffer.ofBytes [1] : CoqBuffer .plain))
      (none : Option (CoqBuffer .plain)) ∧
    ¬ InBounds simple (.at' 0) (none : Option (CoqBuffer .plain))
      (none : Option (CoqBuffer .plain)) := by
  constructor
  · have hout := (calcChecksumRange_outside_iff (C := simple)
      (CoqBuffer.ofBytes [1] : CoqBuffer .plain) (show (-1 : ℤ) < 2147483648 by decide)
      (show (2 : ℤ) < 2147483648 by decide)).mpr ⟨by decide, by decide, by decide⟩
    apply not_inBounds
    left
    rw [BufferCall.run]
    exact congrArg (Except.map BufferResult.checksum) hout
  · exact not_inBounds (.inr rfl)

end Elykseer.Analysis
