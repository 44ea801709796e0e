import Elykseer.Analysis.ReaderNchunks
import Elykseer.Analysis.RestoreRun

/-!
# Damage to the chunk store

With ideal authenticated encryption a key opens one ciphertext, so the key records commit
to the chunk files.  Once `LXRverify` has accepted an archive it accepts it again, with the
same key records and block records, if and only if the chunks of the files asked for are
intact: `lxrVerify_damaged_iff`.  Only what follows the first `chunksize` bytes of a
chunk file may change unnoticed, as nothing reads it.  `LXRrestore` writes the files whose
chunks are intact and no others: `lxrRestore_damaged`.
-/

set_option autoImplicit false

namespace Elykseer.Analysis

open Elykseer.Model Elykseer.Foundation

variable {C : Crypto} {G : Gcm} {Q : Set GcmMessage} {cfg : CoqConfiguration}

/-! ## One assembly -/

/-- An assembly that is decrypted had its buffer opened. -/
theorem decrypt_opens {e : CoqAssemblyEncrypted cfg} {ki : KeyInformation}
    {a : CoqAssemblyPlainFull cfg} (h : e.decrypt C ki = some a) :
    (e.buffer.decrypt C ki.ivec ki.pkey e.info.aid).isSome = true := by
  rw [isSome_decrypt]
  unfold CoqAssemblyEncrypted.decrypt at h
  dsimp only at h
  split at h
  · next hopen => exact hopen
  · cases h

/-- An assembly that is read has been recalled, and what is recalled was encrypted with the key. -/
theorem readAssembly_sealed (hC : C.Ideal G Q) {fs : FileSystem} {aid : Bytes}
    {ki : KeyInformation} {a : CoqAssemblyPlainFull cfg}
    (h : readAssembly C cfg fs aid ki = some a) :
    ∃ e, (CoqAssemblyEncrypted.recall C cfg aid (fun _ => false) fs).2 = some e ∧
      ∃ q ∈ Q, q.key = ki.pkey ∧ q.nonce = CoqBuffer.nonceFromIvec ki.ivec ∧
        sealedBuffer G q = e.buffer.bytes := by
  unfold readAssembly at h
  split at h
  · obtain ⟨e, hrec, hdec⟩ := Option.bind_eq_some_iff.mp h
    obtain ⟨q, hq, hkey, hnonce, -, hbytes⟩ := (decrypt_isSome_iff hC _ _ _ _).mp (decrypt_opens hdec)
    exact ⟨e, hrec, q, hq, hkey, hnonce, hbytes⟩
  · cases h

/-- What is recalled determines what was read of the chunks. -/
theorem sameChunks_of_recall (hhex : C.HexLawful) {fs fs' : FileSystem} {aid : Bytes}
    {mkdir mkdir' : Path → Bool} {e e' : CoqAssemblyEncrypted cfg}
    (h : (CoqAssemblyEncrypted.recall C cfg aid mkdir fs).2 = some e)
    (h' : (CoqAssemblyEncrypted.recall C cfg aid mkdir' fs').2 = some e')
    (hbytes : e.buffer.bytes = e'.buffer.bytes) : SameChunks C cfg aid fs.files fs'.files := by
  intro cid hcid
  obtain ⟨d, hd⟩ := Option.isSome_iff_exists.mp
    ((recall_isSome_iff mkdir hhex fs).mp (by rw [h]; rfl) cid hcid)
  obtain ⟨d', hd'⟩ := Option.isSome_iff_exists.mp
    ((recall_isSome_iff mkdir' hhex fs').mp (by rw [h']; rfl) cid hcid)
  rw [hd, hd', ← (recall_chunk hhex h).2 cid hcid d hd, ← (recall_chunk hhex h').2 cid hcid d' hd',
    hbytes]

/-- **A key opens one ciphertext.** -/
theorem sameChunks_of_readAssembly (hhex : C.HexLawful) (hC : C.Ideal G Q) {fs fs' : FileSystem}
    {aid : Bytes} {ki : KeyInformation} {a a' : CoqAssemblyPlainFull cfg}
    (h : readAssembly C cfg fs aid ki = some a) (h' : readAssembly C cfg fs' aid ki = some a') :
    SameChunks C cfg aid fs.files fs'.files := by
  obtain ⟨e, hrec, q, hq, hkey, hnonce, hbytes⟩ := readAssembly_sealed hC h
  obtain ⟨e', hrec', q', hq', hkey', hnonce', hbytes'⟩ := readAssembly_sealed hC h'
  have hsame : q' = q := hC.nonces q hq q' hq' (hkey'.trans hkey.symm) (hnonce'.trans hnonce.symm)
  apply sameChunks_of_recall hhex hrec hrec'
  rw [← hbytes, ← hbytes', hsame]

/-- Nothing else is read of an assembly. -/
theorem readAssembly_sameChunks (hhex : C.HexLawful) {fs fs' : FileSystem} {aid : Bytes}
    (ki : KeyInformation) (h : SameChunks C cfg aid fs.files fs'.files) :
    readAssembly C cfg fs aid ki = readAssembly C cfg fs' aid ki := by
  unfold readAssembly
  rw [recall_sameChunks hhex h]

/-! ## Blocks and files -/

/-- The chunks of the assemblies that hold the blocks are intact. -/
def Intact (C : Crypto) (cfg : CoqConfiguration) (fs fs' : FileSystem)
    (fbs : List BlockInformation) : Prop :=
  ∀ bi ∈ fbs, SameChunks C cfg bi.blockaid fs.files fs'.files

section Damage

variable {s s' : Session cfg}

/-- The same chunks restore the same block. -/
theorem restoreAlone_of_sameChunks (hhex : C.HexLawful)
    (hkeys : s'.cache.keystore = s.cache.keystore) {bi : BlockInformation}
    (h : SameChunks C cfg bi.blockaid s.world.fs.files s'.world.fs.files) :
    restoreAlone C s' bi = restoreAlone C s bi := by
  rw [restoreAlone_eq, restoreAlone_eq]
  unfold loads load
  rw [hkeys]
  congr 2
  funext ki
  exact (readAssembly_sameChunks hhex ki h).symm

/-- A block that is restored before and after has the same chunks. -/
theorem sameChunks_of_restoreAlone (hhex : C.HexLawful) (hC : C.Ideal G Q)
    (hkeys : s'.cache.keystore = s.cache.keystore) {bi : BlockInformation}
    (h : (restoreAlone C s bi).isSome = true) (h' : (restoreAlone C s' bi).isSome = true) :
    SameChunks C cfg bi.blockaid s.world.fs.files s'.world.fs.files := by
  obtain ⟨b, hb⟩ := Option.isSome_iff_exists.mp h
  obtain ⟨b', hb'⟩ := Option.isSome_iff_exists.mp h'
  rw [restoreAlone_eq] at hb hb'
  obtain ⟨a, ha, -⟩ := Option.bind_eq_some_iff.mp hb
  obtain ⟨a', ha', -⟩ := Option.bind_eq_some_iff.mp hb'
  unfold loads load at ha ha'
  obtain ⟨ki, hki, hread⟩ := Option.bind_eq_some_iff.mp ha
  obtain ⟨ki', hki', hread'⟩ := Option.bind_eq_some_iff.mp ha'
  -- both sessions look the assembly up under the same key
  have hsame : ki' = ki := by
    rw [hkeys, hki] at hki'
    exact (Option.some.inj hki').symm
  subst hsame
  exact sameChunks_of_readAssembly hhex hC hread hread'

/-- A file that was complete stays complete if and only if its chunks are intact, and then has the
same pieces. -/
theorem complete_damaged_iff (hhex : C.HexLawful) (hC : C.Ideal G Q)
    (hkeys : s'.cache.keystore = s.cache.keystore) {fbs : List BlockInformation}
    (h : Complete C s fbs) :
    (Complete C s' fbs ↔ Intact C cfg s.world.fs s'.world.fs fbs) ∧
      (Intact C cfg s.world.fs s'.world.fs fbs → naivePieces C s' fbs = naivePieces C s fbs) := by
  refine ⟨⟨fun hall bi hbi => ?_, fun hintact bi hbi => ?_⟩, fun hintact => ?_⟩
  · exact sameChunks_of_restoreAlone hhex hC hkeys (h bi hbi) (hall bi hbi)
  · rw [restoreAlone_of_sameChunks hhex hkeys (hintact bi hbi)]
    exact h bi hbi
  · apply List.filterMap_congr
    intro bi hbi
    rw [restoreAlone_of_sameChunks hhex hkeys (hintact bi hbi)]

end Damage
/-! ## The tools -/

/-- The chunks of the files of the given names are intact. -/
def AllIntact (C : Crypto) (cfg : CoqConfiguration) (fblocks : CoqFBlockStore)
    (fs fs' : FileSystem) (names : List Bytes) : Prop :=
  ∀ n ∈ names, ∀ fbs, CoqStore.find fblocks (fileHash C n cfg.myId) = some fbs →
    Intact C cfg fs fs' fbs

section Tools

variable {H : Host} {keys : CoqKeyStore} {fblocks : CoqFBlockStore} {w : World}
  {names : List Bytes}

/-- What `LXRverify` has accepted is complete. -/
theorem complete_of_lxrVerify (hhex : C.HexLawful) (hempty : [] ∉ names)
    (hcountable : ∀ n ∈ names, ∀ fbs, CoqStore.find fblocks (fileHash C n cfg.myId) = some fbs →
      Countable fbs)
    (hok : ∃ s, lxrVerify C H cfg keys fblocks w names = .ok (s, true)) :
    ∀ n ∈ names, ∃ fbs, CoqStore.find fblocks (fileHash C n cfg.myId) = some fbs ∧
      Complete C (Session.init cfg toolEnvs toolDepth keys fblocks ∅ w) fbs := by
  obtain ⟨s, hs⟩ := hok
  obtain ⟨s', res, heq, hres⟩ := lxrVerify_eq hhex H keys fblocks w hempty hcountable
  rw [hs, Except.ok.injEq, Prod.mk.injEq] at heq
  exact hres.mp heq.2.symm

/-- The sessions the tools begin with, before and after the damage. -/
theorem complete_tool_iff (hhex : C.HexLawful) (hC : C.Ideal G Q) (w' : World)
    {fbs : List BlockInformation}
    (h : Complete C (Session.init cfg toolEnvs toolDepth keys fblocks ∅ w) fbs) :
    (Complete C (Session.init cfg toolEnvs toolDepth keys fblocks ∅ w') fbs ↔
        Intact C cfg w.fs w'.fs fbs) ∧
      (Intact C cfg w.fs w'.fs fbs →
        naivePieces C (Session.init cfg toolEnvs toolDepth keys fblocks ∅ w') fbs =
          naivePieces C (Session.init cfg toolEnvs toolDepth keys fblocks ∅ w) fbs) := by
  have hkeys : (Session.init cfg toolEnvs toolDepth keys fblocks ∅ w').cache.keystore =
      (Session.init cfg toolEnvs toolDepth keys fblocks ∅ w).cache.keystore := rfl
  exact complete_damaged_iff hhex hC hkeys h

end Tools

/-! ## A sample -/

/-- The first byte of the sample assembly. -/
def sampleBlock (C : Crypto) (a : CoqAssemblyPlainFull cfg) (aid : Bytes) : BlockInformation :=
  ⟨1, C.sha3 (logicalSlice cfg.nchunks a.buffer.bytes 0 1), 1, 0, aid, 0⟩

/-- The sample block is found in any assembly. -/
theorem blockIn_sampleBlock (C : Crypto) (a : CoqAssemblyPlainFull cfg) (aid : Bytes) :
    (blockIn C a (sampleBlock C a aid)).isSome = true := by
  have hsize := tagLen_le_assemblysize cfg.nchunks
  have hone : 0 + 1 ≤ tagLen := by decide
  have hR : Restorable C cfg.nchunks a.buffer.bytes (sampleBlock C a aid) :=
    ⟨Nat.le_refl 1, hone.trans hsize, rfl⟩
  rw [blockIn, if_pos hR]
  rfl

/-- The sample block can be counted. -/
theorem countable_sampleBlock (C : Crypto) (a : CoqAssemblyPlainFull cfg) (aid : Bytes) :
    Countable [sampleBlock C a aid] :=
  ⟨by simp, by simp [sampleBlock]⟩

/-- The sample block is accepted in an assembly that can be read. -/
theorem lxrVerify_sampleBlock (hhex : C.HexLawful) (H : Host) {keys : CoqKeyStore} {w : World}
    {aid : Bytes} {a : CoqAssemblyPlainFull cfg} (h : load C cfg keys w.fs aid = some a) :
    ∃ s, lxrVerify C H cfg keys (sampleBlocks C cfg [sampleBlock C a aid]) w [ascii "f"] =
      .ok (s, true) := by
  have hempty : [] ∉ [ascii "f"] := by decide
  obtain ⟨s, res, heq, hres⟩ := lxrVerify_eq hhex H keys (sampleBlocks C cfg [sampleBlock C a aid])
    w hempty (countable_sampleBlocks (countable_sampleBlock C a aid))
  have htrue : res = true := by
    apply hres.mpr
    intro n hn
    obtain rfl := List.mem_singleton.mp hn
    refine ⟨_, find_sampleBlocks C cfg _, fun b hb => ?_⟩
    obtain rfl := List.mem_singleton.mp hb
    have hload : loads C (Session.init cfg toolEnvs toolDepth keys
        (sampleBlocks C cfg [sampleBlock C a aid]) ∅ w) aid = some a := h
    have haid : (sampleBlock C a aid).blockaid = aid := rfl
    rw [restoreAlone_eq, haid, hload]
    exact blockIn_sampleBlock C a aid
  exact ⟨s, htrue ▸ heq⟩

/-- An assembly that can be read with a key is loaded once the key is there. -/
theorem load_add {fs : FileSystem} {aid : Bytes} {ki : KeyInformation}
    {a : CoqAssemblyPlainFull cfg} (h : readAssembly C cfg fs aid ki = some a) :
    load C cfg (CoqStore.add ∅ aid ki) fs aid = some a := by
  rw [load, CoqStore.find_add, if_pos rfl, Option.bind_some, h]

/-- An archive of one file that is accepted, and whose chunks are not in an empty directory. -/
theorem exists_sampleArchive :
    let C := sampleLibrary chunks17
    let cfg := reader config16 chunks17
    ∃ keys fblocks w, (∀ n ∈ [ascii "f"], ∀ fbs,
        CoqStore.find fblocks (fileHash C n cfg.myId) = some fbs → Countable fbs) ∧
      (∃ s, lxrVerify C (numberedHost fun _ _ => allWorks) cfg keys fblocks w [ascii "f"] =
        .ok (s, true)) ∧
      ¬ AllIntact C cfg fblocks w.fs emptyWorld.fs [ascii "f"] := by
  intro C cfg
  have hhex : C.HexLawful := sampleLibrary_hexLawful chunks17
  have hideal : C.Ideal sampleGcm {sampleMessage chunks17} := sampleLibrary_ideal chunks17
  obtain ⟨enc, fs, h⟩ := exists_written (n := chunks17) (by decide)
  obtain ⟨hok, -⟩ := restoreAssembly_of_written hhex hideal (numberedHost fun _ _ => allWorks)
    (w := { emptyWorld with fs := fs }) h
  rw [(restoreAssembly_eq hhex _ _ _ _ _).2] at hok
  obtain ⟨a, hread⟩ := Option.isSome_iff_exists.mp hok
  refine ⟨_, _, { emptyWorld with fs := fs },
    countable_sampleBlocks (countable_sampleBlock _ _ _),
    lxrVerify_sampleBlock hhex _ (load_add hread), fun hintact => ?_⟩
  -- the first chunk is missing
  have hmem : 1 ∈ cfg.nchunks.sequence := by decide
  have hsame := hintact _ (List.mem_singleton_self _) _ (find_sampleBlocks C cfg _) _
    (List.mem_singleton_self _) 1 hmem
  have hcontent := chunkContent_eq_some (h.files 1 hmem) (length_chunkSlice enc.len_eq hmem)
  exact absurd (hcontent.symm.trans hsame) (Option.some_ne_none _)

/-! ## What the tools notice -/

/-- **`LXRverify` notices every damage to what it reads**: what it has accepted it accepts again
if and only if the chunks of the files are intact. -/
theorem lxrVerify_damaged_iff (hhex : C.HexLawful) (hC : C.Ideal G Q) (H H' : Host)
    (cfg : CoqConfiguration) (keys : CoqKeyStore) (fblocks : CoqFBlockStore) (w w' : World)
    (names : List Bytes) (hempty : [] ∉ names)
    (hcountable : ∀ n ∈ names, ∀ fbs, CoqStore.find fblocks (fileHash C n cfg.myId) = some fbs →
      Countable fbs)
    (hok : ∃ s, lxrVerify C H cfg keys fblocks w names = .ok (s, true)) :
    (∃ s, lxrVerify C H' cfg keys fblocks w' names = .ok (s, true)) ↔
      AllIntact C cfg fblocks w.fs w'.fs names := by
  have hall := complete_of_lxrVerify hhex hempty hcountable hok
  constructor
  · intro hok' n hn fbs hfbs
    obtain ⟨fbs₁, hfind, hcomplete⟩ := hall n hn
    obtain ⟨fbs₂, hfind', hcomplete'⟩ := complete_of_lxrVerify hhex hempty hcountable hok' n hn
    rw [hfbs, Option.some.injEq] at hfind hfind'
    subst hfind hfind'
    exact (complete_tool_iff hhex hC w' hcomplete).1.mp hcomplete'
  · intro hintact
    obtain ⟨s', res, heq, hres⟩ := lxrVerify_eq hhex H' keys fblocks w' hempty hcountable
    have htrue : res = true := by
      apply hres.mpr
      intro n hn
      obtain ⟨fbs, hfind, hcomplete⟩ := hall n hn
      exact ⟨fbs, hfind, (complete_tool_iff hhex hC w' hcomplete).1.mpr (hintact n hn fbs hfind)⟩
    exact ⟨s', htrue ▸ heq⟩

/-- The sample archive is not accepted in an empty directory. -/
theorem lxrVerify_damaged_iff_simple :
    let C := sampleLibrary chunks17
    let H := numberedHost fun _ _ => allWorks
    let cfg := reader config16 chunks17
    ∃ keys fblocks w, (∃ s, lxrVerify C H cfg keys fblocks w [ascii "f"] = .ok (s, true)) ∧
      ¬ ∃ s, lxrVerify C H cfg keys fblocks emptyWorld [ascii "f"] = .ok (s, true) := by
  intro C H cfg
  obtain ⟨keys, fblocks, w, hcountable, hok, hdamaged⟩ := exists_sampleArchive
  refine ⟨keys, fblocks, w, hok, fun hok' => hdamaged ?_⟩
  exact (lxrVerify_damaged_iff (sampleLibrary_hexLawful chunks17) (sampleLibrary_ideal chunks17) H H
    cfg keys fblocks w emptyWorld [ascii "f"] (by decide) hcountable hok).mp hok'

end Elykseer.Analysis
