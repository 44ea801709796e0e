import Elykseer.Analysis.Cipher
import Elykseer.Analysis.ReferenceCrypto
import Elykseer.Model.Environment

/-!
# Decryption that fails

`decrypt_buffer` overwrites the buffer piece by piece before the tag is checked.  The loop in
place computes what the loop over pieces does (`decryptLoop_eq`), whatever the cipher
objects do; so a buffer that could not be decrypted is as it was or all zero, and no layer
above hands out an assembly: `failedDecryption_releases_nothing`.
-/

set_option autoImplicit false

namespace Elykseer.Analysis

open Elykseer.Model Elykseer.Foundation

variable {C : Crypto} {cfg : CoqConfiguration}

/-- The next piece of a buffer that is decrypted up to `done`. -/
theorem next_piece (done rest tag : Bytes) (k : ℕ) {dlen : ℕ}
    (h : done.length + rest.length = dlen) :
    min (dlen - done.length) k = (rest.take k).length ∧
      Overlay.slice (done ++ rest ++ tag) done.length (rest.take k).length = rest.take k := by
  have hlen : min (dlen - done.length) k = (rest.take k).length := by
    rw [List.length_take, Nat.min_comm, ← h, Nat.add_sub_cancel_left]
  refine ⟨hlen, ?_⟩
  rw [Overlay.slice, List.append_assoc, List.drop_left,
    List.take_append_of_le_length (List.length_take_le' _ _), List.length_take, ← List.take_take,
    List.take_length]

/-- The buffer after its next piece was written back. -/
theorem overwrite_piece (done rest tag : Bytes) {out : Bytes} {k : ℕ}
    (hout : out.length = (rest.take k).length) :
    Overlay.overwrite (done ++ rest ++ tag) done.length out =
      done ++ out ++ rest.drop k ++ tag := by
  have hdrop : (rest ++ tag).drop out.length = rest.drop k ++ tag := by
    rw [hout, List.length_take, List.drop_append_of_le_length (Nat.min_le_right _ _)]
    congr 1
    by_cases hk : k ≤ rest.length
    · rw [Nat.min_eq_left hk]
    · rw [Nat.min_eq_right (by omega), List.drop_length, List.drop_of_length_le (by omega)]
  rw [Overlay.overwrite, List.append_assoc done, List.take_left, ← List.drop_drop, List.drop_left,
    hdrop, List.append_assoc, List.append_assoc, List.append_assoc]

/-- The loop in place keeps the length of the buffer, and does to it what the loop over pieces does
in front of the tag. -/
theorem decryptLoop_eq (C : Crypto) (tag : Bytes) (st : C.DecState) (done rest : Bytes) {dlen : ℕ}
    (hdlen : done.length + rest.length = dlen) :
    (CoqBuffer.decryptLoop C dlen st (done ++ rest ++ tag) done.length).2.2.length =
        dlen + tag.length ∧
      match CoqBuffer.processPieces C.datasz C.datasz_pos C.decProcess st done rest with
      | none => (CoqBuffer.decryptLoop C dlen st (done ++ rest ++ tag) done.length).1 = false
      | some (st', out) =>
        CoqBuffer.decryptLoop C dlen st (done ++ rest ++ tag) done.length = (true, st', out ++ tag) := by
  induction st, done, rest using CoqBuffer.processPieces.induct C.datasz C.datasz_pos
    C.decProcess with
  | case1 st done =>
    rw [List.length_nil, Nat.add_zero] at hdlen
    rw [CoqBuffer.processPieces, CoqBuffer.decryptLoop, dif_neg (by omega), dif_pos rfl]
    simp [hdlen]
  | case2 st done rest hrest piece r hcount =>
    have hpos := List.length_pos_of_ne_nil hrest
    obtain ⟨hblen, hpiece⟩ := next_piece done rest tag C.datasz hdlen
    rw [CoqBuffer.processPieces, CoqBuffer.decryptLoop, dif_pos (by omega), dif_neg hrest,
      if_pos hcount]
    dsimp only
    rw [hblen, hpiece, if_pos hcount]
    refine ⟨?_, rfl⟩
    rw [List.length_append, List.length_append, hdlen]
  | case3 st done rest hrest piece r hcount ih =>
    have hpos := List.length_pos_of_ne_nil hrest
    obtain ⟨hblen, hpiece⟩ := next_piece done rest tag C.datasz hdlen
    have hout : r.out.length = piece.length := C.decProcess_length st piece
    have hsplit : piece.length + (rest.drop C.datasz).length = rest.length := by
      rw [← List.length_append, List.take_append_drop]
    rw [CoqBuffer.processPieces, CoqBuffer.decryptLoop, dif_pos (by omega), dif_neg hrest,
      if_neg hcount]
    dsimp only
    rw [hblen, hpiece, if_neg hcount, overwrite_piece done rest tag hout]
    have h := ih (by rw [List.length_append]; omega)
    rw [List.length_append, hout] at h
    exact h

/-- **Decrypting in place** is what the loop over pieces computes. -/
theorem decryptBufferInPlace_eq (C : Crypto) (iv : Key128) (pk : Key256) (aad b : Bytes) :
    CoqBuffer.decryptBufferInPlace C iv pk aad b = CoqBuffer.decryptBuffer C iv pk aad b := by
  unfold CoqBuffer.decryptBufferInPlace CoqBuffer.decryptBuffer
  by_cases hb : b = [] ∨ b.length < tagLen
  · rw [if_pos hb, if_pos hb]
  · rw [if_neg hb, if_neg hb]
    dsimp only
    cases C.decAad (C.decInit pk (CoqBuffer.nonceFromIvec iv)) aad with
    | none => rfl
    | some st =>
      rw [Option.bind_some]
      dsimp only
      cases C.decTag st (CoqBuffer.storedTag b) with
      | none => rfl
      | some st =>
        dsimp only
        obtain ⟨hlen, hloop⟩ := decryptLoop_eq C (b.drop (b.length - tagLen)) st []
          (b.take (b.length - tagLen))
          (show [].length + (b.take (b.length - tagLen)).length = b.length - tagLen by simp)
        rw [List.nil_append, List.take_append_drop, List.length_nil] at hlen hloop
        rw [List.length_drop] at hlen
        have hlen' : (CoqBuffer.decryptLoop C (b.length - tagLen) st b 0).2.2.length = b.length := by
          omega
        cases hpieces : CoqBuffer.processPieces C.datasz C.datasz_pos C.decProcess st []
            (b.take (b.length - tagLen)) with
        | none =>
          rw [hpieces] at hloop
          dsimp only at hloop ⊢
          rw [hloop, hlen']
          rfl
        | some r =>
          rw [hpieces] at hloop
          dsimp only at hloop ⊢
          rw [hlen', hloop, Bool.true_and]

/-- The results of `decrypt_buffer`. -/
theorem decryptBuffer_cases (C : Crypto) (iv : Key128) (pk : Key256) (aad b : Bytes) :
    (CoqBuffer.decryptBuffer C iv pk aad b).1 = true ∨
      CoqBuffer.decryptBuffer C iv pk aad b = (false, b) ∨
      CoqBuffer.decryptBuffer C iv pk aad b = (false, List.replicate b.length 0) := by
  unfold CoqBuffer.decryptBuffer
  split
  · exact .inr (.inl rfl)
  · dsimp only
    split
    · exact .inr (.inl rfl)
    · split
      · exact .inr (.inr rfl)
      · split
        · exact .inl rfl
        · exact .inr (.inr rfl)

/-- The buffer is not handed on. -/
theorem decrypt_of_failed {a : CoqAssemblyEncrypted cfg} {ki : KeyInformation}
    (h : (CoqBuffer.decryptBuffer C ki.ivec ki.pkey a.info.aid a.buffer.bytes).1 = false) :
    a.decrypt C ki = none := by
  unfold CoqAssemblyEncrypted.decrypt
  dsimp only
  rw [if_neg (by rw [h]; exact Bool.false_ne_true)]

/-- The environment keeps its assembly. -/
theorem restoreAssembly_of_failed (H : Host) (er : CoqEnvironmentReadable cfg) (w : World)
    {aid : Bytes} {ki : KeyInformation} {a : CoqAssemblyEncrypted cfg}
    (hrecall : (CoqAssemblyEncrypted.recall C cfg aid H.mkdir w.fs).2 = some a)
    (hdecrypt : a.decrypt C ki = none) :
    (er.restoreAssembly C H w aid ki).1 = er ∧
      (er.restoreAssembly C H w aid ki).2.2 = false := by
  unfold CoqEnvironmentReadable.restoreAssembly
  split
  · dsimp only
    rw [hrecall, Option.bind_some, hdecrypt]
    exact ⟨rfl, rfl⟩
  · exact ⟨rfl, rfl⟩

/-- **Failed decryption releases no unauthenticated plaintext**, whatever the cipher objects do:
the buffer is as it was or all zero, and neither the assembly nor the environment hands anything
out. -/
theorem failedDecryption_releases_nothing (C : Crypto) (b : CoqBuffer .encrypted) (iv : Key128)
    (pk : Key256) (aad : Bytes)
    (hfail : (CoqBuffer.decryptBufferInPlace C iv pk aad b.bytes).1 = false) :
    ((CoqBuffer.decryptBufferInPlace C iv pk aad b.bytes).2 = b.bytes ∨
      (CoqBuffer.decryptBufferInPlace C iv pk aad b.bytes).2 = List.replicate b.len 0) ∧
    b.decrypt C iv pk aad = none ∧
    ∀ (cfg : CoqConfiguration) (a : CoqAssemblyEncrypted cfg) (ki : KeyInformation),
      a.buffer = b → a.info.aid = aad → ki.ivec = iv → ki.pkey = pk →
      a.decrypt C ki = none ∧
      ∀ (H : Host) (er : CoqEnvironmentReadable cfg) (w : World) (aid : Bytes),
        (CoqAssemblyEncrypted.recall C cfg aid H.mkdir w.fs).2 = some a →
        (er.restoreAssembly C H w aid ki).1 = er ∧
          (er.restoreAssembly C H w aid ki).2.2 = false := by
  rw [decryptBufferInPlace_eq] at hfail ⊢
  refine ⟨?_, ?_, ?_⟩
  · rcases decryptBuffer_cases C iv pk aad b.bytes with h | h | h
    · rw [h] at hfail
      cases hfail
    · rw [h]
      exact .inl rfl
    · rw [h]
      exact .inr rfl
  · unfold CoqBuffer.decrypt
    dsimp only
    rw [if_neg (by rw [hfail]; exact Bool.false_ne_true)]
  · rintro cfg a ki rfl rfl rfl rfl
    have hdecrypt := decrypt_of_failed hfail
    exact ⟨hdecrypt, fun H er w aid hrecall => restoreAssembly_of_failed H er w hrecall hdecrypt⟩

/-- Twenty bytes whose tag is not the one of the cipher. -/
theorem decryptBuffer_rejected :
    CoqBuffer.decryptBuffer simple (Vector.replicate 16 0) (Vector.replicate 32 7) []
      (List.replicate 20 0 ++ List.replicate 16 1) = (false, List.replicate 36 0) := by
  obtain ⟨st, hst, hreject⟩ : ∃ st, ((simple.decAad (simple.decInit (Vector.replicate 32 7)
      (CoqBuffer.nonceFromIvec (Vector.replicate 16 0))) []).bind fun st => simple.decTag st
        (CoqBuffer.storedTag (List.replicate 20 0 ++ List.replicate 16 1))) = some st ∧
      ∀ m, simple.decFinish (simple.decProcess st m).next = false := ⟨_, rfl, fun m => by rfl⟩
  have hcount : (simple.decProcess st (List.replicate 20 0)).count = 20 := rfl
  have htake : (List.replicate 20 (0 : UInt8)).take simple.datasz = List.replicate 20 0 := by
    decide
  have hdrop : (List.replicate 20 (0 : UInt8)).drop simple.datasz = [] := by decide
  have hdata : (List.replicate 20 (0 : UInt8) ++ List.replicate 16 1).take
      ((List.replicate 20 (0 : UInt8) ++ List.replicate 16 1).length - tagLen) =
      List.replicate 20 0 := by decide
  unfold CoqBuffer.decryptBuffer
  rw [if_neg (by decide)]
  dsimp only
  rw [hst]
  dsimp only
  rw [hdata, CoqBuffer.processPieces, dif_neg (by decide)]
  dsimp only
  rw [htake, hdrop, if_neg (by rw [hcount]; decide), CoqBuffer.processPieces, dif_pos rfl]
  dsimp only
  rw [if_neg (by rw [hreject]; exact Bool.false_ne_true)]
  rfl

/-- They are cleared. -/
theorem failedDecryption_simple :
    let b : CoqBuffer .encrypted := CoqBuffer.ofBytes (List.replicate 20 0 ++ List.replicate 16 1)
    (CoqBuffer.decryptBufferInPlace simple (Vector.replicate 16 0) (Vector.replicate 32 7) []
      b.bytes).2 = List.replicate 36 0 := by
  intro b
  have hfail : CoqBuffer.decryptBufferInPlace simple (Vector.replicate 16 0)
      (Vector.replicate 32 7) [] b.bytes = (false, List.replicate 36 0) := by
    rw [decryptBufferInPlace_eq]
    exact decryptBuffer_rejected
  rcases (failedDecryption_releases_nothing simple b (Vector.replicate 16 0)
    (Vector.replicate 32 7) [] (by rw [hfail])).1 with h | h
  · rw [hfail] at h
    exact absurd h (by decide)
  · exact h

end Elykseer.Analysis
