import Mathlib.Data.List.GetD
import Elykseer.Analysis.WriteEnvironment
import Elykseer.Foundation.Hex
import Elykseer.Model.AssemblyCache

/-!
# A library that keeps its promises

For any hash and any mathematics of the cipher, objects that remember what they have
been given are a lawful `elykseer-crypto` (`reference_lawful`); the promises do not
contradict each other.  With a simple hash and keystream they give concrete sessions:
`simple`, `config16`, and a host whose draws are numbered (`aidOf_numbered_injOn`).
-/

set_option autoImplicit false

namespace Elykseer.Analysis

open Elykseer.Model Elykseer.Foundation

/-! ## Cipher objects that remember -/

/-- A key of `m` bytes, filled up with zeros. -/
def vectorOf (m : ℕ) (l : Bytes) : Vector UInt8 m := Vector.ofFn fun i => l.getD i 0

/-- The bytes of a key are the key. -/
theorem vectorOf_toList {m : ℕ} (v : Vector UInt8 m) : vectorOf m v.toList = v := by
  apply Vector.ext
  intro i hi
  simp [vectorOf]

/-- A decryption that has been given a ciphertext and, perhaps, a tag. -/
structure ReferenceDec where
  progress : GcmProgress
  tag : Option Tag

/-- The library for the hash `sha3` and the cipher `G`. -/
def reference (G : Gcm) (sha3 : Bytes → Key256) : Crypto where
  sha3 := sha3
  toHex256 k := Hex.encode k.toList
  fromHex256 s := vectorOf 32 (Hex.decode s)
  toHex128 k := Hex.encode k.toList
  fromHex128 s := vectorOf 16 (Hex.decode s)
  blank256 := Vector.replicate 32 0
  datasz := 4096
  datasz_pos := by decide
  EncState := GcmProgress
  encInit k n := ⟨k, n, [], []⟩
  encAad s a := some { s with aad := a }
  encProcess s m :=
    let c := Keystream.applyAt (G.keystream s.key s.nonce) s.ciphertext.length m
    ⟨m.length, c, { s with ciphertext := s.ciphertext ++ c }⟩
  encProcess_length s m := Keystream.length_applyAt _ _ m
  encFinish s := some s
  encTag s := some (G.auth s.key s.nonce s.aad s.ciphertext)
  DecState := ReferenceDec
  decInit k n := ⟨⟨k, n, [], []⟩, none⟩
  decAad s a := some { s with progress := { s.progress with aad := a } }
  decTag s t := some { s with tag := some t }
  decProcess s m :=
    ⟨m.length, Keystream.applyAt (G.keystream s.progress.key s.progress.nonce)
        s.progress.ciphertext.length m,
      { s with progress := { s.progress with ciphertext := s.progress.ciphertext ++ m } }⟩
  decProcess_length s m := Keystream.length_applyAt _ _ m
  decFinish s := s.tag = some (G.auth s.progress.key s.progress.nonce s.progress.aad
    s.progress.ciphertext)

/-- The reference library prints and reads keys as documented. -/
theorem reference_hexLawful (G : Gcm) (sha3 : Bytes → Key256) : (reference G sha3).HexLawful := by
  have hdigit : ∀ d < 16, isHexDigit (Hex.digit d) = true := by decide
  have hdigits : ∀ (l : Bytes), ∀ b ∈ Hex.encode l, isHexDigit b = true := by
    intro l b hb
    obtain ⟨d, hd, rfl⟩ := Hex.mem_encode hb
    exact hdigit d hd
  have hread : ∀ {m : ℕ} (k : Vector UInt8 m), vectorOf m (Hex.decode (Hex.encode k.toList)) = k := by
    intro m k
    rw [Hex.decode_encode, vectorOf_toList]
  refine ⟨fun k => ?_, fun k => hdigits _, hread, fun k => ?_, fun k => hdigits _, hread⟩
  · change (Hex.encode k.toList).length = 64
    rw [Hex.length_encode, Vector.length_toList]
  · change (Hex.encode k.toList).length = 32
    rw [Hex.length_encode, Vector.length_toList]

/-- **The promises of the library can be kept.** -/
theorem reference_lawful (G : Gcm) (sha3 : Bytes → Key256) : (reference G sha3).Lawful := by
  refine ⟨reference_hexLawful G sha3, G, fun s p => s = p, fun s p t => s = ⟨p, t⟩, ?_⟩
  constructor
  case encInit => exact fun k n => rfl
  case encAad =>
    rintro s k n a rfl
    exact ⟨_, rfl, rfl⟩
  case encProcess =>
    rintro s p m rfl -
    exact ⟨rfl, rfl, rfl⟩
  case encFinish =>
    rintro s p rfl
    exact ⟨_, rfl, rfl⟩
  case encTag =>
    rintro s p rfl
    rfl
  case decInit => exact fun k n => rfl
  case decAad =>
    rintro s k n a rfl
    exact ⟨_, rfl, rfl⟩
  case decTag =>
    rintro s k n a t rfl
    exact ⟨_, rfl, rfl⟩
  case decProcess =>
    rintro s p t m rfl -
    exact ⟨rfl, rfl, rfl⟩
  case decFinish =>
    rintro s p t rfl
    simp [reference]

/-! ## Ideal decryption -/

deriving instance DecidableEq for GcmProgress

/-- The library for the hash `sha3` and the cipher `G` that only accepts what has been encrypted. -/
def idealReference (G : Gcm) (sha3 : Bytes → Key256) (Q : List GcmMessage) : Crypto :=
  { reference G sha3 with
    decFinish := fun s : ReferenceDec =>
      Q.any fun q => s.tag.any fun t => decide (G.seal q = (s.progress, t)) }

/-- The ideal reference library prints and reads keys as documented. -/
theorem idealReference_hexLawful (G : Gcm) (sha3 : Bytes → Key256) (Q : List GcmMessage) :
    (idealReference G sha3 Q).HexLawful :=
  let h := reference_hexLawful G sha3
  ⟨h.length256, h.digits256, h.fromHex_toHex256, h.length128, h.digits128, h.fromHex_toHex128⟩

/-- Ideal authenticated encryption of one message. -/
theorem idealReference_ideal (G : Gcm) (sha3 : Bytes → Key256) (q : GcmMessage) :
    (idealReference G sha3 [q]).Ideal G {q} := by
  refine ⟨⟨fun s p => s = p, fun s p t => s = (⟨p, t⟩ : ReferenceDec), ?_⟩, ?_, ?_⟩
  · constructor
    case encInit => exact fun k n => rfl
    case encAad =>
      rintro s k n a rfl
      exact ⟨_, rfl, rfl⟩
    case encProcess =>
      rintro s p m rfl -
      exact ⟨rfl, rfl, rfl⟩
    case encFinish =>
      rintro s p rfl
      exact ⟨_, rfl, rfl⟩
    case encTag =>
      rintro s p rfl
      rfl
    case decInit => exact fun k n => rfl
    case decAad =>
      rintro s k n a rfl
      exact ⟨_, rfl, rfl⟩
    case decTag =>
      rintro s k n a t rfl
      exact ⟨_, rfl, rfl⟩
    case decProcess =>
      rintro s p t m rfl -
      exact ⟨rfl, rfl, rfl⟩
    case decFinish =>
      rintro s p t rfl
      simp [idealReference]
  · rintro q₁ rfl q₂ rfl - -
    rfl
  · rintro q₁ rfl q₂ rfl - -
    rfl

/-! ## A concrete library and host -/

/-- A hash that tells apart what short strings and identifiers are made of: the length, the first
three bytes, and the bytes printed as hex digits at the end. -/
def simpleHash (m : Bytes) : Key256 :=
  vectorOf 32 (m.length.toUInt8 :: m.getD 0 0 :: m.getD 1 0 :: m.getD 2 0 ::
    Hex.decode (m.drop (m.length - 64)))

/-- The library with this hash, and with the key as keystream. -/
def simple : Crypto :=
  reference
    ⟨fun k _ i => k.toList.getD (i % 32) 0, fun _ _ _ _ => Vector.replicate 16 0⟩ simpleHash

/-- The simple library is lawful. -/
theorem simple_lawful : simple.Lawful := reference_lawful _ _

/-- How the simple library prints a key. -/
theorem toHex256_simple (k : Key256) : simple.toHex256 k = Hex.encode k.toList := rfl

/-- The hash of the simple library. -/
theorem sha3_simple (m : Bytes) : simple.sha3 m = simpleHash m := rfl

/-- The hash shows the length and the first bytes. -/
theorem simpleHash_head {m m' : Bytes} (h : simpleHash m = simpleHash m') :
    m.length.toUInt8 = m'.length.toUInt8 ∧ ∀ k < 3, m.getD k 0 = m'.getD k 0 := by
  have hcell : ∀ i (hi : i < 32), (simpleHash m)[i] = (simpleHash m')[i] := fun i hi => by rw [h]
  have h0 := hcell 0 (by decide)
  have h1 := hcell 1 (by decide)
  have h2 := hcell 2 (by decide)
  have h3 := hcell 3 (by decide)
  simp only [simpleHash, vectorOf, Vector.getElem_ofFn, List.getD_cons_zero,
    List.getD_cons_succ] at h0 h1 h2 h3
  refine ⟨h0, fun k hk => ?_⟩
  rcases k with _ | _ | _ | k
  · exact h1
  · exact h2
  · exact h3
  · omega

/-- The hash shows the bytes that are printed at the end. -/
theorem simpleHash_tail (m : Bytes) (v : Key256) {k : ℕ} (hk : k < 28) :
    (simpleHash (m ++ Hex.encode v.toList))[4 + k] = v[k] := by
  have hlen : (Hex.encode v.toList).length = 64 := by
    rw [Hex.length_encode, Vector.length_toList]
  have hdrop : (m ++ Hex.encode v.toList).drop ((m ++ Hex.encode v.toList).length - 64) =
      Hex.encode v.toList := by
    rw [List.length_append, hlen, Nat.add_sub_cancel, List.drop_left]
  have hidx : 4 + k = k + 1 + 1 + 1 + 1 := by omega
  simp only [simpleHash, vectorOf, Vector.getElem_ofFn, hdrop, Hex.decode_encode, hidx,
    List.getD_cons_succ]
  have hk' : k < 32 := by omega
  simp [hk']

/-- A configuration of 16 chunks. -/
def config16 : CoqConfiguration := ⟨⟨16, by decide, by decide⟩, ascii "chunks", []⟩

/-- Everything the operating system is asked for succeeds. -/
def allWorks : ChunkIO := ⟨fun _ => true, true, chunksize, none⟩

/-- The draw whose first eight bytes are the number `i`. -/
def numberedDraw (i : ℕ) : AssemblyDraw where
  header _ := Vector.replicate 32 0
  aid := Vector.ofFn fun j => if (j : ℕ) < 8 then (i / 256 ^ (j : ℕ)).toUInt8 else 0

/-- The host whose `i`-th assembly is drawn with the number `i`. -/
def numberedHost (io : ℕ → ℕ → ChunkIO) : Host where
  assembly := numberedDraw
  finalise i := ⟨Vector.replicate 16 0, Vector.replicate 32 0, io i⟩
  mkdir _ := true

/-- An empty chunk directory, and nothing done yet. -/
def emptyWorld : World := ⟨⟨fun _ => none, fun _ => false, by simp⟩, 0, 0, []⟩

/-- Different numbers below `2^64` are drawn as different identifiers. -/
theorem numberedDraw_inj {i j : ℕ} (hi : i < 18446744073709551616)
    (hj : j < 18446744073709551616)
    (h : ∀ k (hk : k < 8), (numberedDraw i).aid[k] = (numberedDraw j).aid[k]) : i = j := by
  have hbyte : ∀ k < 8, i / 256 ^ k % 256 = j / 256 ^ k % 256 := by
    intro k hk
    have hcell := h k hk
    simp only [numberedDraw, Vector.getElem_ofFn, hk, if_true] at hcell
    simpa [Nat.toUInt8] using congrArg UInt8.toNat hcell
  have h0 := hbyte 0 (by decide)
  have h1 := hbyte 1 (by decide)
  have h2 := hbyte 2 (by decide)
  have h3 := hbyte 3 (by decide)
  have h4 := hbyte 4 (by decide)
  have h5 := hbyte 5 (by decide)
  have h6 := hbyte 6 (by decide)
  have h7 := hbyte 7 (by decide)
  omega

section Numbered

variable (io : ℕ → ℕ → ChunkIO)

/-- The identifier of a numbered assembly. -/
theorem aidOf_numbered (i : ℕ) : aidOf simple (numberedHost io) config16 i =
    Hex.encode (simpleHash (Hex.encode (numberedDraw i).aid.toList)).toList := by
  have hdraw : (numberedHost io).assembly i = numberedDraw i := rfl
  have hid : config16.myId = [] := rfl
  unfold aidOf mkAid
  rw [toHex256_simple, toHex256_simple, sha3_simple, hdraw, hid, List.nil_append]

/-- The bytes of a number are found in the hash its identifier prints. -/
theorem hash_numbered (i : ℕ) {k : ℕ} (hk : k < 28) :
    (simpleHash (Hex.encode (numberedDraw i).aid.toList))[4 + k] = (numberedDraw i).aid[k] := by
  have h := simpleHash_tail [] (numberedDraw i).aid hk
  simp only [List.nil_append] at h
  exact h

/-- **Numbered draws give distinct identifiers.** -/
theorem aidOf_numbered_injOn : Set.InjOn (aidOf simple (numberedHost io) config16)
    (Set.Iio 18446744073709551616) := by
  intro i hi j hj h
  rw [aidOf_numbered, aidOf_numbered] at h
  have hhash := Vector.toList_inj.mp (Hex.encode_injective h)
  apply numberedDraw_inj hi hj
  intro k hk
  have hk' : k < 28 := by omega
  rw [← hash_numbered i hk', ← hash_numbered j hk', hhash]

/-- The chunks of numbered assemblies have distinct hashes, if there are fewer than 100 chunks. -/
theorem noCollision_numbered_of_lt {n : Nchunks} (hn : n.u < 100) : simple.NoCollision
    (chunkInputs { config16 with nchunks := n }
      (Set.image (aidOf simple (numberedHost io) config16) (Set.Iio 18446744073709551616))) := by
  rintro m ⟨aid, ⟨i, hi, rfl⟩, cid, hcid, rfl⟩ m' ⟨aid', ⟨j, hj, rfl⟩, cid', hcid', rfl⟩ h
  rw [sha3_simple, sha3_simple, aidOf_numbered, aidOf_numbered] at h
  change simpleHash (toString10 cid ++ Hex.encode _) =
    simpleHash (toString10 cid' ++ Hex.encode _) at h
  -- the numbers of the assemblies
  have hij : i = j := by
    apply numberedDraw_inj hi hj
    intro k hk
    have hk' : k < 28 := by omega
    have hk'' : 4 + k < 28 := by omega
    have hcell : (simpleHash (toString10 cid ++ Hex.encode
        (simpleHash (Hex.encode (numberedDraw i).aid.toList)).toList))[4 + (4 + k)] =
        (simpleHash (toString10 cid' ++ Hex.encode
        (simpleHash (Hex.encode (numberedDraw j).aid.toList)).toList))[4 + (4 + k)] := by rw [h]
    rw [simpleHash_tail _ _ hk'', simpleHash_tail _ _ hk''] at hcell
    rwa [hash_numbered i hk', hash_numbered j hk'] at hcell
  subst hij
  -- the numbers of the chunks have one or two digits
  have hdigits : ∀ c < 100, (toString10 c).length ≤ 2 := by decide
  obtain ⟨hlen, hhead⟩ := simpleHash_head h
  have hc := hdigits cid (Nat.lt_of_le_of_lt (Nchunks.mem_sequence.mp hcid).2 hn)
  have hc' := hdigits cid' (Nat.lt_of_le_of_lt (Nchunks.mem_sequence.mp hcid').2 hn)
  have hlength : (toString10 cid).length = (toString10 cid').length := by
    have := congrArg UInt8.toNat hlen
    simp only [List.length_append, Hex.length_encode, Vector.length_toList, Nat.toUInt8,
      UInt8.toNat_ofNat'] at this
    omega
  have heq : toString10 cid = toString10 cid' := by
    apply List.ext_getElem hlength
    intro k hk hk'
    have hcell := hhead k (by omega)
    rw [List.getD_append _ _ _ _ hk, List.getD_append _ _ _ _ hk',
      List.getD_eq_getElem _ _ hk, List.getD_eq_getElem _ _ hk'] at hcell
    exact hcell
  rw [toString10_injective heq]

/-- **The chunks of numbered assemblies have distinct hashes.** -/
theorem noCollision_numbered : simple.NoCollision
    (chunkInputs config16 (Set.image (aidOf simple (numberedHost io) config16)
      (Set.Iio 18446744073709551616))) :=
  noCollision_numbered_of_lt io (n := config16.nchunks) (by decide)

end Numbered

end Elykseer.Analysis
