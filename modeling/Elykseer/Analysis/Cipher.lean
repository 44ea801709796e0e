import Mathlib.Data.List.GetD
import Elykseer.Model.Buffer

/-!
# Encryption of whole buffers

The loop over pieces computes the cipher of the whole buffer (`processPieces_spec`), so
`encryptBuffer` succeeds (`encryptBuffer_eq`), and `decryptBuffer` depends on nothing but
whether the tag is accepted (`decryptBuffer_eq`).  With a library that accepts the tag it
would compute, every byte in front of the tag is given back (`decryptBuffer_encryptBuffer`).
-/

set_option autoImplicit false

namespace Elykseer.Analysis

open Elykseer.Model Elykseer.Foundation

/-- The loop over pieces processes the whole of `rest`, if every piece continues what has been
processed before: `At st m` says that `st` has processed `m`. -/
theorem processPieces_spec {σ : Type} {datasz : ℕ} (hpos : 0 < datasz)
    {process : σ → Bytes → Processed σ} (ks : ℕ → UInt8) (At : σ → Bytes → Prop)
    (hprocess : ∀ st m piece, At st m → piece.length ≤ datasz →
      (process st piece).count = piece.length ∧
      (process st piece).out = Keystream.applyAt ks m.length piece ∧
      At (process st piece).next (m ++ piece))
    {st : σ} (done rest : Bytes) {m : Bytes} (hst : At st m) :
    ∃ st', CoqBuffer.processPieces datasz hpos process st done rest =
        some (st', done ++ Keystream.applyAt ks m.length rest) ∧ At st' (m ++ rest) := by
  induction st, done, rest using CoqBuffer.processPieces.induct datasz hpos process
    generalizing m with
  | case1 st done =>
    rw [CoqBuffer.processPieces]
    exact ⟨st, by simp, by simpa using hst⟩
  | case2 st done rest hrest piece r =>
    rename_i hcount
    exact absurd (hprocess st m piece hst (by simp [piece])).1 hcount
  | case3 st done rest hrest piece r hcount =>
    rename_i ih
    obtain ⟨-, hout, hnext⟩ := hprocess st m piece hst (by simp [piece])
    obtain ⟨st', heq, hst'⟩ := ih hnext
    have hsplit : rest = piece ++ rest.drop datasz := (List.take_append_drop datasz rest).symm
    refine ⟨st', ?_, ?_⟩
    · rw [CoqBuffer.processPieces, dif_neg hrest, if_neg hcount, heq]
      conv_rhs => rw [hsplit]
      rw [Keystream.applyAt_append, List.length_append, List.append_assoc, ← hout]
    · rw [List.append_assoc, ← hsplit] at hst'
      exact hst'

section Computes

variable {C : Crypto} {G : Gcm} {accepted : GcmProgress → Tag → Prop}
  {encAt : C.EncState → GcmProgress → Prop} {decAt : C.DecState → GcmProgress → Option Tag → Prop}

/-- The message that `encryptBuffer` encrypts: the buffer in front of the tag. -/
def messageOf (iv : Key128) (pk : Key256) (aad b : Bytes) : GcmMessage :=
  ⟨pk, CoqBuffer.nonceFromIvec iv, aad, b.take (b.length - tagLen)⟩

/-- The encrypted buffer: the enciphered data and its tag. -/
def sealedBuffer (G : Gcm) (q : GcmMessage) : Bytes :=
  (G.seal q).1.ciphertext ++ (G.seal q).2.toList

/-- The ciphertext is as long as the plaintext. -/
theorem length_seal (G : Gcm) (q : GcmMessage) :
    (G.seal q).1.ciphertext.length = q.plaintext.length :=
  Keystream.length_applyAt _ _ _

/-- A sealed buffer has a tag behind the ciphertext. -/
theorem length_sealedBuffer (G : Gcm) (q : GcmMessage) :
    (sealedBuffer G q).length = q.plaintext.length + tagLen := by
  rw [sealedBuffer, List.length_append, length_seal, Vector.length_toList]

/-- A buffer is its data and the tag behind it. -/
theorem take_append_storedTag {b : Bytes} (hb : tagLen ≤ b.length) :
    b.take (b.length - tagLen) ++ (CoqBuffer.storedTag b).toList = b := by
  have htag : (CoqBuffer.storedTag b).toList = b.drop (b.length - tagLen) := by
    refine List.ext_getElem ?_ fun i hi hi' => ?_
    · rw [Vector.length_toList, List.length_drop]
      omega
    · rw [Vector.length_toList] at hi
      simp only [Vector.getElem_toList, CoqBuffer.storedTag, Vector.getElem_ofFn,
        List.getElem_drop]
      exact List.getD_eq_getElem _ _ (by omega)
  rw [htag, List.take_append_drop]

/-- The tag behind a ciphertext is found there. -/
theorem storedTag_append (c : Bytes) (t : Tag) : CoqBuffer.storedTag (c ++ t.toList) = t := by
  have hlen : (c ++ t.toList).length = c.length + tagLen := by simp
  have h := take_append_storedTag (b := c ++ t.toList) (by omega)
  rw [hlen, Nat.add_sub_cancel, List.take_left] at h
  exact Vector.toList_inj.mp (List.append_cancel_left h)

/-- `encryptBuffer` encrypts the data in front of the tag. -/
theorem encryptBuffer_eq (h : C.Computes G accepted encAt decAt) (iv : Key128) (pk : Key256)
    (aad : Bytes) {b : Bytes} (hb : tagLen ≤ b.length) :
    CoqBuffer.encryptBuffer C iv pk aad b = some (sealedBuffer G (messageOf iv pk aad b)) := by
  have hne : ¬ (b = [] ∨ b.length < tagLen) := by
    rintro (rfl | hlt)
    · exact absurd hb (by decide)
    · omega
  obtain ⟨st, hst, hat⟩ := h.encAad _ _ _ aad (h.encInit pk (CoqBuffer.nonceFromIvec iv))
  set ks := G.keystream pk (CoqBuffer.nonceFromIvec iv)
  obtain ⟨st', hloop, hat'⟩ := processPieces_spec C.datasz_pos ks
    (fun st m => encAt st ⟨pk, CoqBuffer.nonceFromIvec iv, aad, Keystream.applyAt ks 0 m⟩)
    (fun st m piece hat hpiece => by
      obtain ⟨h1, h2, h3⟩ := h.encProcess st _ piece hat hpiece
      rw [Keystream.length_applyAt] at h2
      refine ⟨h1, h2, ?_⟩
      rw [Keystream.applyAt_append, Nat.zero_add, ← h2]
      exact h3) [] (b.take (b.length - tagLen)) (m := []) hat
  obtain ⟨st'', hfin, hat''⟩ := h.encFinish st' _ hat'
  unfold CoqBuffer.encryptBuffer
  rw [if_neg hne, hst]
  simp only [Option.bind_some]
  rw [hloop]
  simp only [Option.bind_some]
  rw [hfin]
  simp only [Option.bind_some]
  rw [h.encTag st'' _ hat'']
  rfl

/-- `decryptBuffer` deciphers the data in front of the tag if the tag is accepted, and clears the
buffer otherwise. -/
theorem decryptBuffer_eq (h : C.Computes G accepted encAt decAt) (iv : Key128) (pk : Key256)
    (aad : Bytes) {b : Bytes} (hb : tagLen ≤ b.length) :
    let n := CoqBuffer.nonceFromIvec iv
    let d := b.take (b.length - tagLen)
    (accepted ⟨pk, n, aad, d⟩ (CoqBuffer.storedTag b) →
      CoqBuffer.decryptBuffer C iv pk aad b =
        (true, Keystream.applyAt (G.keystream pk n) 0 d ++ b.drop (b.length - tagLen))) ∧
    (¬ accepted ⟨pk, n, aad, d⟩ (CoqBuffer.storedTag b) →
      CoqBuffer.decryptBuffer C iv pk aad b = (false, List.replicate b.length 0)) := by
  intro n d
  have hne : ¬ (b = [] ∨ b.length < tagLen) := by
    rintro (rfl | hlt)
    · exact absurd hb (by decide)
    · omega
  obtain ⟨st, hst, hat⟩ := h.decAad _ _ _ aad (h.decInit pk n)
  obtain ⟨st', hst', hat'⟩ := h.decTag _ _ _ _ (CoqBuffer.storedTag b) hat
  obtain ⟨st'', hloop, hat''⟩ := processPieces_spec C.datasz_pos (G.keystream pk n)
    (fun st m => decAt st ⟨pk, n, aad, m⟩ (some (CoqBuffer.storedTag b)))
    (fun st m piece hat hpiece => h.decProcess st _ _ piece hat hpiece) [] d (m := []) hat'
  have hfin := h.decFinish st'' _ _ hat''
  have heq : CoqBuffer.decryptBuffer C iv pk aad b = if C.decFinish st'' then
      (true, Keystream.applyAt (G.keystream pk n) 0 d ++ b.drop (b.length - tagLen))
      else (false, List.replicate b.length 0) := by
    unfold CoqBuffer.decryptBuffer
    rw [if_neg hne]
    dsimp only
    rw [hst, Option.bind_some, hst']
    dsimp only
    rw [hloop]
    dsimp only
    rw [List.nil_append, List.length_nil]
  rw [heq]
  exact ⟨fun hacc => if_pos (hfin.mpr hacc), fun hacc => if_neg fun h => hacc (hfin.mp h)⟩

/-- `decryptBuffer` with the same key, nonce and aad gives the data back, if the tag of the
encryption is accepted. -/
theorem decryptBuffer_sealedBuffer (h : C.Computes G accepted encAt decAt) {q : GcmMessage}
    (hacc : accepted (G.seal q).1 (G.seal q).2) {iv : Key128}
    (hiv : CoqBuffer.nonceFromIvec iv = q.nonce) :
    CoqBuffer.decryptBuffer C iv q.key q.aad (sealedBuffer G q) =
      (true, q.plaintext ++ (G.seal q).2.toList) := by
  have hlen := length_sealedBuffer G q
  have htake : (sealedBuffer G q).take ((sealedBuffer G q).length - tagLen) =
      (G.seal q).1.ciphertext := by
    rw [hlen, Nat.add_sub_cancel, ← length_seal G q, sealedBuffer, List.take_left]
  have hdrop : (sealedBuffer G q).drop ((sealedBuffer G q).length - tagLen) =
      (G.seal q).2.toList := by
    rw [hlen, Nat.add_sub_cancel, ← length_seal G q, sealedBuffer, List.drop_left]
  have hdec := (decryptBuffer_eq h iv q.key q.aad (b := sealedBuffer G q) (by omega)).1
  rw [htake, hdrop, hiv, show CoqBuffer.storedTag (sealedBuffer G q) = (G.seal q).2 from
    storedTag_append _ _] at hdec
  rw [hdec hacc]
  change (true, Keystream.applyAt _ 0 (Keystream.applyAt _ 0 q.plaintext) ++ _) = _
  rw [Keystream.applyAt_applyAt]

end Computes

/-- **Decryption inverts encryption** on every byte in front of the tag. -/
theorem decryptBuffer_encryptBuffer {C : Crypto} (hC : C.GcmLawful) (iv : Key128) (pk : Key256)
    (aad : Bytes) {b : Bytes} (hb : tagLen ≤ b.length) :
    ∃ c p : Bytes, CoqBuffer.encryptBuffer C iv pk aad b = some c ∧
      CoqBuffer.decryptBuffer C iv pk aad c = (true, p) ∧
      ∀ i < b.length - tagLen, p[i]? = b[i]? := by
  obtain ⟨G, encAt, decAt, h⟩ := hC
  refine ⟨_, _, encryptBuffer_eq h.computes iv pk aad hb, decryptBuffer_sealedBuffer h.computes
    (q := messageOf iv pk aad b) rfl rfl, fun i hi => ?_⟩
  rw [messageOf, List.getElem?_append_left (by rw [List.length_take]; omega),
    List.getElem?_take_of_lt hi]

end Elykseer.Analysis
