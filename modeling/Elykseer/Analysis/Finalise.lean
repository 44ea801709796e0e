import Elykseer.Analysis.ReferenceCrypto

/-!
# Finalising an assembly

With a lawful library `finalise_assembly` returns a key exactly if every chunk file can
be opened (`finalise_of_chunksOpen`, `finalise_of_not_chunksOpen`).  What `fwrite` and `fclose`
report is not looked at, so the chunk files hold what the operating system kept of
them: `finaliseAssembly_keptReadable_iff`.
-/

set_option autoImplicit false

namespace Elykseer.Analysis

open Elykseer.Model Elykseer.Foundation

variable {C : Crypto} {H : Host} {cfg : CoqConfiguration}

/-- A library that computes a cipher encrypts every assembly. -/
theorem exists_encrypt {G : Gcm} {accepted : GcmProgress → Tag → Prop}
    {encAt : C.EncState → GcmProgress → Prop} {decAt : C.DecState → GcmProgress → Option Tag → Prop}
    (h : C.Computes G accepted encAt decAt) (a : CoqAssemblyPlainFull cfg) (ki : KeyInformation) :
    ∃ enc, a.encrypt C ki = some enc := by
  have hlen : a.buffer.bytes.length = assemblysize cfg.nchunks := a.len_eq
  have hsize := tagLen_le_assemblysize cfg.nchunks
  have henc := encryptBuffer_eq h ki.ivec ki.pkey a.info.aid (b := a.buffer.bytes)
    (by omega)
  unfold CoqAssemblyPlainFull.encrypt
  split
  · next hnone => cases hnone.symm.trans henc
  · exact ⟨_, rfl⟩

/-- A lawful library encrypts every assembly. -/
theorem encrypt_isSome (hC : C.GcmLawful) (a : CoqAssemblyPlainFull cfg) (ki : KeyInformation) :
    ∃ enc, a.encrypt C ki = some enc := by
  obtain ⟨G, encAt, decAt, h⟩ := hC
  exact exists_encrypt h.computes a ki

/-- The version of a new key is supported. -/
theorem supported_draw (d : FinaliseDraw) :
    supportedFormat (KeyInformation.draw cfg d).version = true := by
  change supportedFormat formatVersion = true
  decide

section

variable {e : CoqEnvironmentWritable cfg} {w : World} {a : CoqAssemblyPlainWritable cfg}

/-- The chunk files of the assembly can be opened. -/
def ChunksOpen (C : Crypto) (H : Host) (a : CoqAssemblyPlainWritable cfg) (w : World) : Prop :=
  AllOpen C cfg a.aid (H.finalise w.nfinalise).io w.fs cfg.nchunks.sequence

/-- If they can, the key is returned, whatever was kept of the chunks. -/
theorem finalise_of_chunksOpen (hC : C.HexLawful) (ha : e.assembly = some a)
    (hapos : headerLen cfg.nchunks < a.apos) {enc : CoqAssemblyEncrypted cfg}
    (henc : a.finish.encrypt C (KeyInformation.draw cfg (H.finalise w.nfinalise)) = some enc)
    (hopen : ChunksOpen C H a w) :
    ∃ fs, e.finaliseAssembly C H w = (⟨none, e.nFailed⟩,
        ⟨fs, w.nassembly, w.nfinalise + 1, w.clog⟩,
        some (a.aid, KeyInformation.draw cfg (H.finalise w.nfinalise))) ∧
      ∀ cid ∈ cfg.nchunks.sequence, fs.files (chunkFile C cfg a.aid cid) =
        some ((chunkSlice enc.buffer.bytes cid).take
          (((H.finalise w.nfinalise).io cid).kept chunksize)) := by
  have haid : enc.info.aid = a.aid := aid_encrypt henc
  have hopen' : AllOpen C cfg enc.info.aid (H.finalise w.nfinalise).io w.fs
      cfg.nchunks.sequence := by
    rw [haid]
    exact hopen
  have hall := (extract_eq_iff hC w.fs).mpr hopen'
  refine ⟨(enc.extract C (H.finalise w.nfinalise).io w.fs).1, ?_, fun cid hcid => ?_⟩
  · unfold CoqEnvironmentWritable.finaliseAssembly
    rw [ha]
    dsimp only
    rw [if_neg (by omega), henc]
    dsimp only
    rw [if_neg (not_not_intro hall)]
  · have hfile := extract_files (a := enc) hC hopen' hcid
    rwa [haid] at hfile

/-- If they cannot, nothing is returned and the failure is counted. -/
theorem finalise_of_not_chunksOpen (hC : C.HexLawful) (ha : e.assembly = some a)
    (hapos : headerLen cfg.nchunks < a.apos) (hopen : ¬ ChunksOpen C H a w) :
    ∃ w', e.finaliseAssembly C H w = (⟨none, (e.nFailed + 1) % 4294967296⟩, w', none) := by
  have hstep := finalise_step (C := C) (H := H) e w
  generalize e.finaliseAssembly C H w = r at hstep ⊢
  obtain ⟨e', w', okey⟩ := r
  dsimp only at hstep
  cases hstep with
  | absent h => cases ha.symm.trans h
  | empty a₁ h hle =>
    cases ha.symm.trans h
    omega
  | failed a₁ h _ fs line hfail => exact ⟨_, rfl⟩
  | archived a₁ h _ enc henc hall =>
    cases ha.symm.trans h
    have haid : enc.info.aid = a.aid := aid_encrypt henc
    refine absurd ?_ hopen
    have hopen' := (extract_eq_iff hC w.fs).mp hall
    rwa [haid] at hopen'

end

/-- What is expected of `finalise_assembly` for the assembly `a`: a key is only returned if all chunk
files hold the encrypted bytes, so that the assembly can be restored; else a failure is counted. -/
def KeptReadable (C : Crypto) (H : Host) (e : CoqEnvironmentWritable cfg) (w : World)
    (a : CoqAssemblyPlainWritable cfg) : Prop :=
  let r := e.finaliseAssembly C H w
  match r.2.2 with
  | some (aid, ki) =>
    aid = a.aid ∧
    (∃ enc, a.finish.encrypt C ki = some enc ∧ ∀ cid ∈ cfg.nchunks.sequence,
      r.2.1.fs.files (chunkFile C cfg aid cid) = some (chunkSlice enc.buffer.bytes cid)) ∧
    ∀ e' : CoqEnvironmentReadable cfg, (e'.restoreAssembly C H r.2.1 aid ki).2.2 = true
  | none => r.1.nFailed = e.nFailed + 1

/-- **A key is kept only for a readable archive** if and only if the chunk files that could be
opened were written completely; and a failure is counted unless the counter is at its end. -/
theorem finaliseAssembly_keptReadable_iff (hC : C.Lawful) (H : Host)
    (e : CoqEnvironmentWritable cfg) (w : World) (a : CoqAssemblyPlainWritable cfg)
    (ha : e.assembly = some a) (hapos : headerLen cfg.nchunks < a.apos) :
    KeptReadable C H e w a ↔
      (ChunksOpen C H a w →
        ∀ cid ∈ cfg.nchunks.sequence, ((H.finalise w.nfinalise).io cid).kept chunksize = chunksize) ∧
      (¬ ChunksOpen C H a w → e.nFailed + 1 < 4294967296) := by
  set ki := KeyInformation.draw cfg (H.finalise w.nfinalise) with hki
  by_cases hopen : ChunksOpen C H a w
  · obtain ⟨enc, henc⟩ := encrypt_isSome hC.gcm a.finish ki
    obtain ⟨fs, hfin, hfiles⟩ := finalise_of_chunksOpen hC.hex ha hapos henc hopen
    have hlen : ∀ cid ∈ cfg.nchunks.sequence,
        (chunkSlice enc.buffer.bytes cid).length = chunksize :=
      fun cid hcid => length_chunkSlice enc.len_eq hcid
    unfold KeptReadable
    rw [hfin]
    dsimp only
    constructor
    · rintro ⟨-, ⟨enc', henc', hwhole⟩, -⟩
      refine ⟨fun _ cid hcid => ?_, fun h => absurd hopen h⟩
      cases henc.symm.trans henc'
      have htake := (hfiles cid hcid).symm.trans (hwhole cid hcid)
      rw [Option.some.injEq, List.take_eq_self_iff, hlen cid hcid] at htake
      refine Nat.le_antisymm ?_ htake
      exact Nat.le_trans (Nat.min_le_left _ _) (Nat.min_le_right _ _)
    · rintro ⟨hkept, -⟩
      have hwhole : ∀ cid ∈ cfg.nchunks.sequence, fs.files (chunkFile C cfg a.aid cid) =
          some (chunkSlice enc.buffer.bytes cid) := by
        intro cid hcid
        rw [hfiles cid hcid, hkept hopen cid hcid, List.take_of_length_le]
        exact Nat.le_of_eq (hlen cid hcid)
      refine ⟨rfl, ⟨enc, henc, hwhole⟩, fun e' => ?_⟩
      obtain ⟨a', hread, -⟩ := readAssembly_of_chunks hC (a := a.finish) (supported_draw _) henc hwhole
      rw [(restoreAssembly_eq hC.hex H e' _ _ ki).2]
      exact Option.isSome_iff_exists.mpr ⟨a', hread⟩
  · obtain ⟨w', hfin⟩ := finalise_of_not_chunksOpen (H := H) hC.hex ha hapos hopen
    unfold KeptReadable
    rw [hfin]
    dsimp only
    constructor
    · intro h
      exact ⟨fun h' => absurd h' hopen, fun _ => by omega⟩
    · rintro ⟨-, h⟩
      have := h hopen
      omega

/-! ## One block -/

/-- The first block of a new environment. -/
theorem backup_first (C : Crypto) (H : Host) (cfg : CoqConfiguration) (w : World) (fname : Bytes)
    (fpos : ℕ) {b : CoqBuffer .plain} (hb : b.bytes ≠ [])
    (hroom : headerLen cfg.nchunks + b.len ≤ dataEnd cfg.nchunks) :
    ∃ a fbs, (((CoqEnvironmentWritable.init cfg).recreateAssembly C H w).1.backup C H
        ((CoqEnvironmentWritable.init cfg).recreateAssembly C H w).2 fname fpos b b.len) =
        .ok (⟨some a, 0⟩, { w with nassembly := w.nassembly + 1 }, fbs, []) ∧
      Appended (newAssembly C H cfg w.nassembly) a b.bytes := by
  rw [recreateAssembly_eq]
  obtain ⟨a, hback, happ⟩ := backup_of_fits (C := C) (H := H)
    (e := ⟨some (newAssembly C H cfg w.nassembly), (CoqEnvironmentWritable.init cfg).nFailed⟩) rfl
    (fits_newAssembly w.nassembly) hb hroom { w with nassembly := w.nassembly + 1 } fname fpos
  exact ⟨a, _, hback, happ⟩

/-- In an empty chunk directory all chunk files can be opened. -/
theorem chunksOpen_numbered {io : ℕ → ℕ → ChunkIO} {a : CoqAssemblyPlainWritable config16}
    (haid : a.aid = aidOf simple (numberedHost io) config16 0) {w : World}
    (hfiles : w.fs.files = fun _ => none) (hmkdir : ∀ i cid p, (io i cid).mkdir p = true)
    (hfopen : ∀ i cid, (io i cid).fopen = true) : ChunksOpen simple (numberedHost io) a w := by
  refine allOpen_of_absent simple_lawful.hex (noCollision_numbered io) ⟨0, by decide, haid.symm⟩ ?_
    (fun cid _ => by rw [hfiles]) (fun cid _ => hmkdir _ cid) fun cid _ => hfopen _ cid
  rw [haid]
  exact simple_lawful.hex.length256 _

/-- The environment that holds the block `[1]`. -/
theorem finaliseAssembly_keptReadable_iff_simple :
    let H := numberedHost fun _ _ => allWorks
    let r := (CoqEnvironmentWritable.init config16).recreateAssembly simple H emptyWorld
    ∃ e w fbs a, r.1.backup simple H r.2 (ascii "f") 0 (CoqBuffer.ofBytes [1]) 1 =
        .ok (e, w, fbs, []) ∧ e.assembly = some a ∧ KeptReadable simple H e w a := by
  intro H r
  obtain ⟨a, fbs, hback, happ⟩ := backup_first simple H config16 emptyWorld (ascii "f") 0
    (b := CoqBuffer.ofBytes [1]) (by decide) (by decide)
  refine ⟨_, _, fbs, a, hback, rfl, ?_⟩
  refine (finaliseAssembly_keptReadable_iff simple_lawful H _ _ a rfl ?_).mpr
    ⟨fun _ cid _ => rfl, fun h => absurd ?_ h⟩
  · rw [happ.apos_eq]
    exact Nat.lt_succ_self _
  · exact chunksOpen_numbered (happ.aid_eq.trans (aid_newAssembly 0)) rfl (fun _ _ _ => rfl)
      fun _ _ => rfl

/-- The same block on a full disk: the chunk files stay empty, and the key is returned. -/
theorem finaliseAssembly_counterexample :
    let H := numberedHost fun _ _ => ⟨fun _ => true, true, 0, none⟩
    let r := (CoqEnvironmentWritable.init config16).recreateAssembly simple H emptyWorld
    ∃ e w fbs a, r.1.backup simple H r.2 (ascii "f") 0 (CoqBuffer.ofBytes [1]) 1 =
        .ok (e, w, fbs, []) ∧ e.assembly = some a ∧ headerLen config16.nchunks < a.apos ∧
      (e.finaliseAssembly simple H w).2.2.isSome = true ∧
      (∀ cid ∈ config16.nchunks.sequence,
        (e.finaliseAssembly simple H w).2.1.fs.files (chunkFile simple config16 a.aid cid) =
          some []) ∧
      ¬ KeptReadable simple H e w a := by
  intro H r
  obtain ⟨a, fbs, hback, happ⟩ := backup_first simple H config16 emptyWorld (ascii "f") 0
    (b := CoqBuffer.ofBytes [1]) (by decide) (by decide)
  have hapos : headerLen config16.nchunks < a.apos := by
    rw [happ.apos_eq]
    exact Nat.lt_succ_self _
  have hopen : ChunksOpen simple H a
      ⟨emptyWorld.fs, emptyWorld.nassembly + 1, emptyWorld.nfinalise, emptyWorld.clog⟩ :=
    chunksOpen_numbered (happ.aid_eq.trans (aid_newAssembly 0)) rfl (fun _ _ _ => rfl) fun _ _ => rfl
  obtain ⟨enc, henc⟩ := encrypt_isSome simple_lawful.gcm a.finish
    (KeyInformation.draw config16 (H.finalise 0))
  obtain ⟨fs, hfin, hfiles⟩ := finalise_of_chunksOpen (e := ⟨some a, 0⟩) simple_lawful.hex rfl hapos
    henc hopen
  have hempty : ∀ cid ∈ config16.nchunks.sequence,
      fs.files (chunkFile simple config16 a.aid cid) = some [] := hfiles
  refine ⟨_, _, fbs, a, hback, rfl, hapos, ?_, ?_, fun h => ?_⟩
  · rw [hfin]
    rfl
  · rw [hfin]
    exact hempty
  · unfold KeptReadable at h
    rw [hfin] at h
    obtain ⟨-, ⟨enc', henc', hwhole⟩, -⟩ := h
    have hone : 1 ∈ config16.nchunks.sequence := by decide
    have hlen := congrArg List.length
      (Option.some.inj ((hempty 1 hone).symm.trans (hwhole 1 hone)))
    rw [length_chunkSlice enc'.len_eq hone] at hlen
    exact absurd hlen (by decide)

/-! ## Several assemblies -/

/-- The `i`-th numbered assembly is archived, with its key and with a block in it. -/
structure NumberedArchive (keys : CoqKeyStore) (fs : FileSystem) (i : ℕ)
    (a : CoqAssemblyPlainFull config16) : Prop where
  aid_eq : a.aid = aidOf simple (numberedHost fun _ _ => allWorks) config16 i
  read : ∃ ki, CoqStore.find keys a.aid = some ki ∧
    readAssembly simple config16 fs a.aid ki = some a
  holds : Holds config16.nchunks a.buffer.bytes (headerLen config16.nchunks) [1]

/-- An archived assembly is there after the next one has been archived. -/
theorem NumberedArchive.next {keys : CoqKeyStore} {fs fs' : FileSystem} {i k : ℕ}
    {a : CoqAssemblyPlainFull config16} (h : NumberedArchive keys fs i a)
    (hext : Extends fs fs') (hik : i < k) (hk : k < 18446744073709551616) (ki : KeyInformation) :
    NumberedArchive (CoqStore.add keys
      (aidOf simple (numberedHost fun _ _ => allWorks) config16 k) ki) fs' i a := by
  obtain ⟨ki', hfind, hread⟩ := h.read
  refine ⟨h.aid_eq, ⟨ki', ?_, readAssembly_extends simple_lawful.hex hext hread⟩, h.holds⟩
  rw [CoqStore.find_add, if_neg, hfind]
  intro heq
  have hi : i < 18446744073709551616 := Nat.lt_trans hik hk
  exact absurd (aidOf_numbered_injOn _ hi hk (h.aid_eq.symm.trans heq)) (Nat.ne_of_lt hik)

/-- What a new numbered assembly leaves in the chunk directory once it has been archived. -/
theorem exists_numbered {fs : FileSystem} {k : ℕ} (hk : k < 18446744073709551616)
    (habsent : ∀ cid ∈ config16.nchunks.sequence, fs.files (chunkFile simple config16
      (aidOf simple (numberedHost fun _ _ => allWorks) config16 k) cid) = none) :
    ∃ fs' ki a, Extends fs fs' ∧
      (∀ p, (∀ cid ∈ config16.nchunks.sequence, p ≠ chunkFile simple config16
        (aidOf simple (numberedHost fun _ _ => allWorks) config16 k) cid) →
          fs'.files p = fs.files p) ∧
      ∀ keys, NumberedArchive (CoqStore.add keys
        (aidOf simple (numberedHost fun _ _ => allWorks) config16 k) ki) fs' k a := by
  set H := numberedHost fun _ _ => allWorks with hH
  have hhex := simple_lawful.hex
  -- a new assembly, with one block
  have hroom : (newAssembly simple H config16 k).apos + [(1 : UInt8)].length ≤
      dataEnd config16.nchunks := by
    rw [apos_newAssembly]
    decide
  obtain ⟨a, -, happ⟩ := backup_of_fits (C := simple) (H := H)
    (e := ⟨some (newAssembly simple H config16 k), 0⟩) rfl (fits_newAssembly k)
    (b := CoqBuffer.ofBytes [1]) (by decide) hroom emptyWorld (ascii "f") 0
  have haid : a.aid = aidOf simple H config16 k := happ.aid_eq.trans (aid_newAssembly k)
  -- encrypted, and written to its chunk files
  obtain ⟨enc, henc⟩ := encrypt_isSome simple_lawful.gcm a.finish
    (KeyInformation.draw config16 (H.finalise k))
  have hinfo : enc.info.aid = aidOf simple H config16 k := (aid_encrypt henc).trans haid
  have hopen : AllOpen simple config16 enc.info.aid (H.finalise k).io fs
      config16.nchunks.sequence := by
    rw [hinfo]
    exact allOpen_of_absent hhex (noCollision_numbered fun _ _ => allWorks) ⟨k, hk, rfl⟩
      (hhex.length256 _) habsent (fun _ _ _ => rfl) fun _ _ => rfl
  have hfiles : ∀ cid ∈ config16.nchunks.sequence,
      (enc.extract simple (H.finalise k).io fs).1.files (chunkFile simple config16 a.aid cid) =
        some (chunkSlice enc.buffer.bytes cid) := by
    intro cid hcid
    have hfile := extract_files (a := enc) hhex hopen hcid
    rw [hinfo, ← haid] at hfile
    rw [hfile, List.take_of_length_le]
    exact Nat.le_of_eq (length_chunkSlice enc.len_eq hcid)
  obtain ⟨a', hread, hcells⟩ := readAssembly_of_chunks simple_lawful (a := a.finish)
    (supported_draw _) henc hfiles
  have haid' : a'.aid = aidOf simple H config16 k := (readAssembly_aid hhex hread).trans haid
  set ki := KeyInformation.draw config16 (H.finalise k)
  refine ⟨(enc.extract simple (H.finalise k).io fs).1, ki, a', extract_extends _ hhex fs,
    fun p hp => extract_keeps hhex fs (Or.inl fun cid hcid => ?_),
    fun keys => ⟨haid', ⟨ki, ?_, ?_⟩, ?_⟩⟩
  · rw [hinfo]
    exact hp cid hcid
  · rw [haid', CoqStore.find_add, if_pos rfl]
  · rw [haid', ← haid]
    exact hread
  · exact (holds_appended (fits_newAssembly k) happ hroom).congr hcells

/-- **Any number of assemblies can be archived.** -/
theorem exists_numberedArchive {n : ℕ} (hn : n ≤ 18446744073709551616) : ∃ keys fs,
    (∀ i < n, ∃ a, NumberedArchive keys fs i a) ∧
    ∀ i, n ≤ i → i < 18446744073709551616 → ∀ cid ∈ config16.nchunks.sequence,
      fs.files (chunkFile simple config16
        (aidOf simple (numberedHost fun _ _ => allWorks) config16 i) cid) = none := by
  have hhex := simple_lawful.hex
  induction n with
  | zero => exact ⟨∅, emptyWorld.fs, fun _ h => absurd h (Nat.not_lt_zero _), fun _ _ _ _ _ => rfl⟩
  | succ k ih =>
    obtain ⟨keys, fs, hold, hnew⟩ := ih (Nat.le_of_succ_le hn)
    obtain ⟨fs', ki, a, hext, hother, hlast⟩ := exists_numbered hn (hnew k (Nat.le_refl k) hn)
    refine ⟨CoqStore.add keys (aidOf simple (numberedHost fun _ _ => allWorks) config16 k) ki, fs',
      fun i hi => ?_, fun i hi hilt cid hcid => ?_⟩
    · rcases Nat.lt_succ_iff_lt_or_eq.mp hi with hik | rfl
      · obtain ⟨a', ha'⟩ := hold i hik
        exact ⟨a', ha'.next hext hik hn ki⟩
      · exact ⟨a, hlast keys⟩
    · rw [hother _ fun cid' hcid' heq => ?_]
      · exact hnew i (Nat.le_of_succ_le hi) hilt cid hcid
      · -- no chunk of a later assembly is a chunk of this one
        have haids := (chunkFile_injective hhex (noCollision_numbered fun _ _ => allWorks)
          ⟨i, hilt, rfl⟩ ⟨k, hn, rfl⟩ (hhex.length256 _) (hhex.length256 _) hcid hcid' heq).1
        exact absurd (aidOf_numbered_injOn _ hilt hn haids) (by omega)

end Elykseer.Analysis
