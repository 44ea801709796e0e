import Elykseer.Analysis.ChunkStore

/-!
# Chunk paths

The string that is hashed to the identifier of a chunk has no separators.  It still
determines the chunk: the identifier of the assembly at its end has a fixed length, and
the decimal number before it is read back.  So a chunk path determines the number of the
chunk and its assembly as far as the hash tells these strings apart
(`chunkFile_injOn_iff`, `chunkPath_injective`), and two assemblies can be written one
after the other exactly if it does (`extract_extract_iff`).
-/

set_option autoImplicit false

namespace Elykseer.Analysis

open Elykseer.Model Elykseer.Foundation

variable {C : Crypto} {cfg : CoqConfiguration} {aid : Bytes}

/-- The string that is hashed for the chunk `c`, a number and the identifier of an assembly. -/
def chunkString (cfg : CoqConfiguration) (c : ℕ × Bytes) : Bytes := chunkIdInput cfg.myId c.2 c.1

/-- The string determines the chunk. -/
theorem chunkString_injOn : Set.InjOn (chunkString cfg) {c | c.2.length = 64} := by
  intro c hc c' hc' h
  obtain ⟨haid, hcid⟩ := chunkIdInput_injective hc hc' h
  exact Prod.ext hcid haid

-- an identifier of another length could take digits of the number
example : chunkString config16 (1, ascii "1") = chunkString config16 (11, []) := by decide

/-- The files of some chunks are distinct exactly if the hash has no collision among their
strings. -/
theorem chunkFile_injOn_iff (hC : C.HexLawful) {chunks : Set (ℕ × Bytes)}
    (hlen : ∀ c ∈ chunks, c.2.length = 64) :
    Set.InjOn (fun c : ℕ × Bytes => chunkFile C cfg c.2 c.1) chunks ↔
      C.NoCollision (Set.image (chunkString cfg) chunks) := by
  constructor
  · rintro hinj m ⟨c, hc, rfl⟩ m' ⟨c', hc', rfl⟩ hhash
    have hfile := (chunkFile_eq_iff hC).mpr hhash
    rw [hinj hc hc' hfile]
  · intro hcoll c hc c' hc' hfile
    have hhash := (chunkFile_eq_iff hC).mp hfile
    have hstring := hcoll (Set.mem_image_of_mem _ hc) (Set.mem_image_of_mem _ hc') hhash
    exact chunkString_injOn (hlen c hc) (hlen c' hc') hstring

/-! ## `chunk_path` -/

/-- The path is the file of the chunk, whatever the file system answers. -/
theorem path_of_chunkPath {cid : ℕ} {mkdir : Path → Bool} {fs : FileSystem} {fp : Path}
    (h : (chunkPath C cfg cid aid mkdir fs).2 = some fp) : fp = chunkFile C cfg aid cid := by
  unfold chunkPath at h
  dsimp only at h
  split at h
  · cases h
  · dsimp only at h
    split at h
    · exact (Option.some.inj h).symm
    · cases h

/-- The directories of a chunk are the last two pairs of digits of its identifier. -/
theorem chunkFile_eq (hC : C.HexLawful) (cid : ℕ) :
    chunkFile C cfg aid cid =
      [cfg.pathChunks, (chunkIdentifier C cfg.myId aid cid).drop 62,
        ((chunkIdentifier C cfg.myId aid cid).drop 60).take 2,
        chunkIdentifier C cfg.myId aid cid ++ ascii ".lxr"] := by
  have hlen : (chunkIdentifier C cfg.myId aid cid).length = 64 := hC.length256 _
  have hlast : ((chunkIdentifier C cfg.myId aid cid).drop 62).length = 2 := by
    rw [List.length_drop, hlen]
  unfold chunkFile chunkDir Overlay.slice
  dsimp only
  rw [hlen, List.take_of_length_le (Nat.le_of_eq hlast)]
  rfl

/-- **No two chunks share a file.**  The strings that are hashed for two chunks are the same only
if the chunks are, and so are the paths, if the hash has no collision among the strings of the
chunks that are compared. -/
theorem chunkPath_injective (C : Crypto) :
    (∀ (myId aid aid' : Bytes) (cid cid' : ℕ), aid.length = 64 → aid'.length = 64 →
      (chunkIdInput myId aid cid = chunkIdInput myId aid' cid' ↔ cid = cid' ∧ aid = aid')) ∧
    (C.HexLawful → ∀ (cfg : CoqConfiguration) (chunks : Set (ℕ × Bytes)),
      (∀ c ∈ chunks, c.2.length = 64) →
      C.NoCollision (Set.image (chunkString cfg) chunks) →
      ∀ c ∈ chunks, ∀ c' ∈ chunks, ∀ (mkdir mkdir' : Path → Bool) (fs fs' : FileSystem)
        (fp fp' : Path), (chunkPath C cfg c.1 c.2 mkdir fs).2 = some fp →
        (chunkPath C cfg c'.1 c'.2 mkdir' fs').2 = some fp' →
        (fp = fp' ↔ c.1 = c'.1 ∧ c.2 = c'.2) ∧
        fp = [cfg.pathChunks, (chunkIdentifier C cfg.myId c.2 c.1).drop 62,
          ((chunkIdentifier C cfg.myId c.2 c.1).drop 60).take 2,
          chunkIdentifier C cfg.myId c.2 c.1 ++ ascii ".lxr"]) := by
  constructor
  · intro myId aid aid' cid cid' hlen hlen'
    constructor
    · intro h
      exact (chunkIdInput_injective hlen hlen' h).symm
    · rintro ⟨rfl, rfl⟩
      rfl
  · intro hC cfg chunks hlen hcoll c hc c' hc' mkdir mkdir' fs fs' fp fp' hfp hfp'
    have hinj := (chunkFile_injOn_iff hC hlen).mpr hcoll
    rw [path_of_chunkPath hfp, path_of_chunkPath hfp', ← Prod.ext_iff]
    exact ⟨hinj.eq_iff hc hc', chunkFile_eq hC c.1⟩

/-- An identifier of decimal digits only. -/
def onesAid : Bytes := List.replicate 64 49

/-- The strings of the chunks 1 and 11 of this identifier consist of ones only. -/
theorem noCollision_ones :
    simple.NoCollision (Set.image (chunkString config16) {(1, onesAid), (11, onesAid)}) := by
  have hne : simple.sha3 (chunkString config16 (1, onesAid)) ≠
      simple.sha3 (chunkString config16 (11, onesAid)) := by
    intro h
    rw [sha3_simple, sha3_simple] at h
    exact absurd (simpleHash_head h).1 (by decide)
  rw [Set.image_pair]
  unfold Crypto.NoCollision
  rw [Set.injOn_pair]
  intro h
  exact absurd h hne

/-- These chunks, the hardest to tell apart, have distinct strings and paths. -/
theorem chunkPath_injective_simple :
    chunkIdInput (ascii "id") onesAid 1 ≠ chunkIdInput (ascii "id") onesAid 11 ∧
    ∃ fp fp', (chunkPath simple config16 1 onesAid (fun _ => true) emptyWorld.fs).2 = some fp ∧
      (chunkPath simple config16 11 onesAid (fun _ => true) emptyWorld.fs).2 = some fp' ∧
      fp ≠ fp' := by
  obtain ⟨hstrings, hpaths⟩ := chunkPath_injective simple
  have hlen : onesAid.length = 64 := by decide
  constructor
  · intro h
    have hcid := ((hstrings (ascii "id") onesAid onesAid 1 11 hlen hlen).mp h).1
    exact absurd hcid (by decide)
  · have hmade : ∀ cid, ∃ fp,
        (chunkPath simple config16 cid onesAid (fun _ => true) emptyWorld.fs).2 = some fp := by
      intro cid
      have hmade : (emptyWorld.fs.createDirectories (dirOf simple config16 onesAid cid)
        fun _ => true).2 = true := makeLevels_of_forall (fun _ => rfl) _ _ _
      rw [chunkPath_eq simple_lawful.hex, hmade]
      exact ⟨_, rfl⟩
    obtain ⟨fp, hfp⟩ := hmade 1
    obtain ⟨fp', hfp'⟩ := hmade 11
    refine ⟨fp, fp', hfp, hfp', fun heq => ?_⟩
    have hlens : ∀ c ∈ ({(1, onesAid), (11, onesAid)} : Set (ℕ × Bytes)), c.2.length = 64 := by
      rintro c (rfl | rfl)
      · exact hlen
      · exact hlen
    have hiff := (hpaths simple_lawful.hex config16 _ hlens noCollision_ones (1, onesAid)
      (Or.inl rfl) (11, onesAid) (Or.inr rfl) _ _ _ _ fp fp' hfp hfp').1
    exact absurd (hiff.mp heq).1 (by decide)

/-! ## Two assemblies -/

/-- **A collision makes `extract` pass over a chunk.**  Two assemblies with new files are both
written completely exactly if the hash tells their chunks apart. -/
theorem extract_extract_iff (hC : C.HexLawful) {a b : CoqAssemblyEncrypted cfg}
    {io io' : ℕ → ChunkIO} {fs : FileSystem} (hio : WorkingIO cfg.nchunks io)
    (hio' : WorkingIO cfg.nchunks io') (ha : a.info.aid.length = 64) (hb : b.info.aid.length = 64)
    (hcoll : C.NoCollision (chunkInputs cfg {a.info.aid}))
    (hcoll' : C.NoCollision (chunkInputs cfg {b.info.aid}))
    (habsent : ∀ cid ∈ cfg.nchunks.sequence,
      fs.files (chunkFile C cfg a.info.aid cid) = none ∧
      fs.files (chunkFile C cfg b.info.aid cid) = none) :
    (b.extract C io' (a.extract C io fs).1).2 = assemblysize cfg.nchunks ↔
      ∀ cid ∈ cfg.nchunks.sequence, ∀ cid' ∈ cfg.nchunks.sequence,
        C.sha3 (chunkIdInput cfg.myId a.info.aid cid) ≠
          C.sha3 (chunkIdInput cfg.myId b.info.aid cid') := by
  obtain ⟨-, hfiles⟩ := extract_of_absent hC fs hio ha hcoll fun cid hcid => (habsent cid hcid).1
  constructor
  · intro hall cid hcid cid' hcid' hhash
    -- the file of the second chunk is already there
    have hexists : ((a.extract C io fs).1.files (chunkFile C cfg b.info.aid cid')).isSome = true := by
      rw [← (chunkFile_eq_iff hC).mpr hhash, hfiles cid hcid]
      rfl
    have hlt : (b.extract C io' (a.extract C io fs).1).2 < assemblysize cfg.nchunks :=
      extract_lt_of_exists hC hcid' hexists
    exact Nat.ne_of_lt hlt hall
  · intro hne
    refine (extract_of_absent hC _ hio' hb hcoll' fun cid' hcid' => ?_).1
    rw [extract_keeps hC fs (Or.inl fun cid hcid heq => ?_)]
    · exact (habsent cid' hcid').2
    · exact hne cid hcid cid' hcid' ((chunkFile_eq_iff hC).mp heq.symm)

end Elykseer.Analysis
