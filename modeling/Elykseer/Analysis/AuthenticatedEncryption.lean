import Elykseer.Analysis.ReferenceCrypto

/-!
# Encrypted buffers are authenticated

With ideal authenticated encryption, a buffer is decrypted if and only if it has been
encrypted with this key, nonce and aad (`decrypt_isSome_iff`).  Hence the exact key,
nonce, aad and bytes give the data back, and nothing else gives anything:
`bufferGcm_exact`.
-/

set_option autoImplicit false

namespace Elykseer.Analysis

open Elykseer.Model Elykseer.Foundation

variable {C : Crypto} {G : Gcm} {Q : Set GcmMessage}

/-- Encryption of a buffer succeeds. -/
theorem encrypt_eq (hC : C.Ideal G Q) {b : CoqBuffer .plain} (hlen : tagLen ≤ b.len) (iv : Key128)
    (key : Key256) (aad : Bytes) :
    ∃ e, b.encrypt C iv key aad = some e ∧
      e.bytes = sealedBuffer G (messageOf iv key aad b.bytes) := by
  obtain ⟨encAt, decAt, h⟩ := hC.computes
  have henc := encryptBuffer_eq h iv key aad (b := b.bytes) hlen
  unfold CoqBuffer.encrypt
  split
  · next hnone => cases hnone.symm.trans henc
  · next c hsome => exact ⟨_, rfl, Option.some.inj (hsome.symm.trans henc)⟩

/-- Decryption returns a buffer exactly when the decryption in place succeeds. -/
theorem isSome_decrypt (C : Crypto) (e : CoqBuffer .encrypted) (iv : Key128) (key : Key256)
    (aad : Bytes) :
    (e.decrypt C iv key aad).isSome = (CoqBuffer.decryptBuffer C iv key aad e.bytes).1 := by
  unfold CoqBuffer.decrypt
  dsimp only
  split
  · next h => exact h.symm
  · next h => exact (Bool.not_eq_true _ ▸ h : _ = false).symm

/-- **A buffer is decrypted exactly if it has been encrypted** with this key, nonce and aad. -/
theorem decrypt_isSome_iff (hC : C.Ideal G Q) (e : CoqBuffer .encrypted) (iv : Key128)
    (key : Key256) (aad : Bytes) :
    (e.decrypt C iv key aad).isSome = true ↔
      ∃ q ∈ Q, q.key = key ∧ q.nonce = CoqBuffer.nonceFromIvec iv ∧ q.aad = aad ∧
        sealedBuffer G q = e.bytes := by
  obtain ⟨encAt, decAt, h⟩ := hC.computes
  rw [isSome_decrypt]
  by_cases hlen : tagLen ≤ e.bytes.length
  · obtain ⟨hacc, hrej⟩ := decryptBuffer_eq h iv key aad hlen
    have hiff : (∃ q ∈ Q, G.seal q = (⟨key, CoqBuffer.nonceFromIvec iv, aad,
          e.bytes.take (e.bytes.length - tagLen)⟩, CoqBuffer.storedTag e.bytes)) ↔
        ∃ q ∈ Q, q.key = key ∧ q.nonce = CoqBuffer.nonceFromIvec iv ∧ q.aad = aad ∧
          sealedBuffer G q = e.bytes := by
      constructor
      · rintro ⟨q, hq, hseal⟩
        have hprogress := congrArg Prod.fst hseal
        have htag := congrArg Prod.snd hseal
        refine ⟨q, hq, congrArg GcmProgress.key hprogress, congrArg GcmProgress.nonce hprogress,
          congrArg GcmProgress.aad hprogress, ?_⟩
        rw [sealedBuffer, congrArg GcmProgress.ciphertext hprogress, htag]
        exact take_append_storedTag hlen
      · rintro ⟨q, hq, rfl, hnonce, rfl, heq⟩
        refine ⟨q, hq, ?_⟩
        have hdata : e.bytes.take (e.bytes.length - tagLen) = (G.seal q).1.ciphertext := by
          rw [← heq, length_sealedBuffer, Nat.add_sub_cancel, ← length_seal G q, sealedBuffer,
            List.take_left]
        have htag : CoqBuffer.storedTag e.bytes = (G.seal q).2 := by
          rw [← heq]
          exact storedTag_append _ _
        rw [hdata, htag, ← hnonce]
        rfl
    rw [← hiff]
    constructor
    · intro hsome
      by_contra hnot
      rw [hrej hnot] at hsome
      cases hsome
    · intro hissued
      rw [hacc hissued]
  · -- there is no room for a tag
    have hshort : CoqBuffer.decryptBuffer C iv key aad e.bytes = (false, e.bytes) := by
      unfold CoqBuffer.decryptBuffer
      rw [if_pos (Or.inr (Nat.lt_of_not_le hlen))]
    rw [hshort]
    constructor
    · intro hsome
      cases hsome
    · rintro ⟨q, -, -, -, -, heq⟩
      rw [← heq, length_sealedBuffer] at hlen
      omega

/-- What has been encrypted is decrypted. -/
theorem decrypt_of_sealed (hC : C.Ideal G Q) {q : GcmMessage} (hq : q ∈ Q)
    {e : CoqBuffer .encrypted} (he : e.bytes = sealedBuffer G q) {iv : Key128}
    (hiv : CoqBuffer.nonceFromIvec iv = q.nonce) :
    ∃ d, e.decrypt C iv q.key q.aad = some d ∧ d.bytes = q.plaintext ++ (G.seal q).2.toList := by
  obtain ⟨encAt, decAt, h⟩ := hC.computes
  have hdec := decryptBuffer_sealedBuffer h (q := q) ⟨q, hq, rfl⟩ hiv
  rw [← he] at hdec
  unfold CoqBuffer.decrypt
  dsimp only
  rw [if_pos (by rw [hdec])]
  exact ⟨_, rfl, congrArg Prod.snd hdec⟩

/-- **Piecewise encryption is the encryption at once, and only the exact triple decrypts**: the
buffer keeps its length and holds the ciphertext of its data and the tag; the same key, nonce and
aad give the data back, while another key, nonce or aad and any other buffer give nothing. -/
theorem bufferGcm_exact (hC : C.Ideal G Q) (b : CoqBuffer .plain) (hlen : tagLen ≤ b.len)
    (iv : Key128) (key : Key256) (aad : Bytes) (hq : messageOf iv key aad b.bytes ∈ Q) :
    ∃ e, b.encrypt C iv key aad = some e ∧ e.len = b.len ∧
      e.bytes.take (b.len - tagLen) =
        Keystream.applyAt (G.keystream key (CoqBuffer.nonceFromIvec iv)) 0
          (b.bytes.take (b.len - tagLen)) ∧
      e.bytes.drop (b.len - tagLen) =
        (G.auth key (CoqBuffer.nonceFromIvec iv) aad (e.bytes.take (b.len - tagLen))).toList ∧
      (∀ iv', CoqBuffer.nonceFromIvec iv' = CoqBuffer.nonceFromIvec iv →
        ∃ d, e.decrypt C iv' key aad = some d ∧
          d.bytes.take (b.len - tagLen) = b.bytes.take (b.len - tagLen)) ∧
      (∀ iv' key' aad', ¬ (key' = key ∧
          CoqBuffer.nonceFromIvec iv' = CoqBuffer.nonceFromIvec iv ∧ aad' = aad) →
        e.decrypt C iv' key' aad' = none) ∧
      ∀ e' : CoqBuffer .encrypted, e'.bytes ≠ e.bytes →
        ∀ iv', CoqBuffer.nonceFromIvec iv' = CoqBuffer.nonceFromIvec iv →
          e'.decrypt C iv' key aad = none := by
  obtain ⟨e, henc, hbytes⟩ := encrypt_eq hC hlen iv key aad
  set q := messageOf iv key aad b.bytes with hqdef
  have hplain : q.plaintext.length = b.len - tagLen := by
    rw [hqdef, messageOf, List.length_take]
    exact Nat.min_eq_left (Nat.sub_le _ _)
  have hcipher : (G.seal q).1.ciphertext.length = b.len - tagLen := (length_seal G q).trans hplain
  have htake : e.bytes.take (b.len - tagLen) = (G.seal q).1.ciphertext := by
    rw [hbytes, sealedBuffer, ← hcipher, List.take_left]
  refine ⟨e, henc, ?_, htake, ?_, fun iv' hiv => ?_, fun iv' key' aad' hother => ?_,
    fun e' hne iv' hiv => ?_⟩
  · rw [CoqBuffer.len, hbytes, length_sealedBuffer, hplain]
    omega
  · rw [htake, hbytes, sealedBuffer, ← hcipher, List.drop_left]
    rfl
  · obtain ⟨d, hdec, hd⟩ := decrypt_of_sealed hC hq hbytes hiv
    refine ⟨d, hdec, ?_⟩
    rw [hd]
    exact List.take_left' hplain
  · rw [← Option.isNone_iff_eq_none, ← Option.not_isSome, Bool.not_eq_true', ← Bool.not_eq_true,
      decrypt_isSome_iff hC]
    rintro ⟨q', hq', rfl, hnonce, rfl, heq⟩
    -- two encryptions with the same result are one
    have hlen' : (G.seal q').1.ciphertext.length = (G.seal q).1.ciphertext.length := by
      have := congrArg List.length (heq.trans hbytes)
      rw [length_sealedBuffer, length_sealedBuffer] at this
      rw [length_seal, length_seal]
      omega
    obtain ⟨hc, ht⟩ := List.append_inj (heq.trans hbytes) hlen'
    obtain rfl := hC.results q hq q' hq' hc (Vector.toList_inj.mp ht)
    exact hother ⟨rfl, hnonce.symm, rfl⟩
  · rw [← Option.isNone_iff_eq_none, ← Option.not_isSome, Bool.not_eq_true', ← Bool.not_eq_true,
      decrypt_isSome_iff hC]
    rintro ⟨q', hq', hkey, hnonce, -, heq⟩
    -- a key and a nonce are used for one message
    obtain rfl := hC.nonces q hq q' hq' hkey (hnonce.trans hiv)
    exact hne (heq.symm.trans hbytes.symm)

/-- Two bytes are encrypted and decrypted, but not with another key. -/
theorem bufferGcm_exact_simple :
    let G : Gcm := ⟨fun k _ i => k.toList.getD (i % 32) 0, fun _ _ _ _ => Vector.replicate 16 0⟩
    let b : CoqBuffer .plain := CoqBuffer.ofBytes ([1, 2] ++ List.replicate 16 0)
    let iv : Key128 := Vector.replicate 16 3
    let key : Key256 := Vector.replicate 32 4
    let C := idealReference G simpleHash [messageOf iv key [] b.bytes]
    ∃ e, b.encrypt C iv key [] = some e ∧
      (∃ d, e.decrypt C iv key [] = some d ∧ d.bytes.take 2 = [1, 2]) ∧
      e.decrypt C iv (Vector.replicate 32 5) [] = none := by
  intro G b iv key C
  obtain ⟨e, henc, -, -, -, hsame, hother, -⟩ :=
    bufferGcm_exact (idealReference_ideal G simpleHash (messageOf iv key [] b.bytes)) b
      (by decide) iv key [] rfl
  refine ⟨e, henc, hsame iv rfl, hother iv _ [] fun h => absurd h.1 (by decide)⟩

end Elykseer.Analysis
