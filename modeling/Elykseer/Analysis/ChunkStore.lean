import Mathlib.Logic.Relation
import Elykseer.Analysis.Calls
import Elykseer.Analysis.Archive
import Elykseer.Analysis.FileBackup

/-!
# The chunk store

`extract` and `recall` are inverse where the chunk files are new
(`extract_of_absent`), and what is on file stays there over any sequence of runs
(`StoreRun`): `chunkStore_appendOnly`.
-/

set_option autoImplicit false

namespace Elykseer.Analysis

open Elykseer.Model Elykseer.Foundation

variable {C : Crypto} {H : Host} {cfg : CoqConfiguration}

/-! ## One assembly -/

/-- The operating system does what it is asked for while the chunks are written. -/
structure WorkingIO (n : Nchunks) (io : ℕ → ChunkIO) : Prop where
  mkdir : ∀ cid ∈ n.sequence, ∀ p, (io cid).mkdir p = true
  fopen : ∀ cid ∈ n.sequence, (io cid).fopen = true
  kept : ∀ cid ∈ n.sequence, (io cid).kept chunksize = chunksize

/-- What `extract` leaves of new chunk files. -/
theorem extract_of_absent (hC : C.HexLawful) {a : CoqAssemblyEncrypted cfg} {io : ℕ → ChunkIO}
    (fs : FileSystem) (hio : WorkingIO cfg.nchunks io) (haid : a.info.aid.length = 64)
    (hcoll : C.NoCollision (chunkInputs cfg {a.info.aid}))
    (habsent : ∀ cid ∈ cfg.nchunks.sequence, fs.files (chunkFile C cfg a.info.aid cid) = none) :
    (a.extract C io fs).2 = assemblysize cfg.nchunks ∧
      ∀ cid ∈ cfg.nchunks.sequence, (a.extract C io fs).1.files (chunkFile C cfg a.info.aid cid) =
        some (chunkSlice a.buffer.bytes cid) := by
  have hopen := allOpen_of_absent hC hcoll (Set.mem_singleton _) haid habsent hio.mkdir
    hio.fopen
  refine ⟨(extract_eq_iff hC fs).mpr hopen, fun cid hcid => ?_⟩
  rw [extract_files hC hopen hcid, hio.kept cid hcid, List.take_of_length_le]
  exact Nat.le_of_eq (length_chunkSlice a.len_eq hcid)

/-- Fewer bytes are reported if a chunk file exists. -/
theorem extract_lt_of_exists (hC : C.HexLawful) {a : CoqAssemblyEncrypted cfg} {io : ℕ → ChunkIO}
    {fs : FileSystem} {cid : ℕ} (hcid : cid ∈ cfg.nchunks.sequence)
    (hfile : (fs.files (chunkFile C cfg a.info.aid cid)).isSome = true) :
    (a.extract C io fs).2 < assemblysize cfg.nchunks := by
  have hle := (extract_fold (a := a) io hC (fun cid hcid => hcid) (fs, 0)).1
  rw [length_sequence, Nat.zero_add] at hle
  have hne : (a.extract C io fs).2 ≠ assemblysize cfg.nchunks := fun heq => by
    have hnone := ((extract_eq_iff hC fs).mp heq).absent cid hcid
    rw [hnone] at hfile
    cases hfile
  refine Nat.lt_of_le_of_ne ?_ hne
  unfold CoqAssemblyEncrypted.extract
  rw [a.nchunks_eq]
  exact hle

/-! ## Runs -/

/-- No run of the write path changes a file. -/
theorem WriteTrace.extends (hC : C.HexLawful) {s s' : WriteSide cfg} {es : List Entry}
    (h : WriteTrace C H s es s') : Extends s.world.fs s'.world.fs :=
  Trace.invariant_start (I := fun s' _ => Extends s.world.fs s'.world.fs)
    (fun hI hstep => hI.trans (hstep.extends hC)) h (Extends.refl _)

/-- No sequence of calls changes a file. -/
theorem calls_extends (hC : C.HexLawful) {s s' : Session cfg} (hfit : (writeSide s).Fitting)
    {cs : List Call} {rs : List Returned} (h : s.calls C H cs = .ok (s', rs)) :
    Extends s.world.fs s'.world.fs := by
  rcases calls_cases (C := C) (H := H) hC hfit cs with ⟨s₁, rs₁, es, hrun, htrace, -⟩ | ⟨hrun, -⟩
  · cases h.symm.trans hrun
    exact htrace.extends hC
  · cases h.symm.trans hrun

/-- What is run on a chunk directory: an assembly is extracted, a new cache is called, or files are
backed up; each with a configuration of its own. -/
inductive StoreRun (C : Crypto) : World → World → Prop
  | extract {cfg : CoqConfiguration} (a : CoqAssemblyEncrypted cfg) (io : ℕ → ChunkIO) (w : World) :
      StoreRun C w { w with fs := (a.extract C io w.fs).1 }
  | calls {cfg : CoqConfiguration} (H : Host) (nEnvs depth : ℕ) (keys : CoqKeyStore)
      (fblocks : CoqFBlockStore) (finfos : CoqFInfoStore) (w : World) (cs : List Call)
      (s : Session cfg) (rs : List Returned)
      (h : (Session.init cfg nEnvs depth keys fblocks finfos w).calls C H cs = .ok (s, rs)) :
      StoreRun C w s.world
  | backup {cfg : CoqConfiguration} (H : Host) (nEnvs depth : ℕ) (hdepth : 1 ≤ depth)
      (keys : CoqKeyStore) (fblocks : CoqFBlockStore) (finfos : CoqFInfoStore) (w : World)
      (files : List SourceFile) (s : Session cfg) (ofis : List (Option FileInformation))
      (h : (Session.init cfg nEnvs depth keys fblocks finfos w).backupRun C H files =
        .ok (s, ofis)) :
      StoreRun C w s.world

/-- A run on the store changes and removes no existing file. -/
theorem StoreRun.extends (hC : C.HexLawful) {w w' : World} (h : StoreRun C w w') :
    Extends w.fs w'.fs := by
  cases h with
  | extract a io => exact extract_extends _ hC w.fs
  | @calls cfg H nEnvs depth keys fblocks finfos w cs s rs h =>
    exact calls_extends hC (s := Session.init cfg nEnvs depth keys fblocks finfos w)
      (fun a ha => by cases ha) h
  | backup H nEnvs depth hdepth keys fblocks finfos w files s ofis h =>
    obtain ⟨s', es, ofis', hrun, -, htrace, -⟩ :=
      backupRun_trace (H := H) hC (readyToBackup_init hdepth keys fblocks finfos w) files
    cases h.symm.trans hrun
    exact htrace.extends hC

/-- Any number of runs on the store change and remove no existing file. -/
theorem storeRuns_extends (hC : C.HexLawful) {w w' : World}
    (h : Relation.ReflTransGen (StoreRun C) w w') : Extends w.fs w'.fs := by
  induction h with
  | refl => exact Extends.refl _
  | tail _ hstep ih => exact ih.trans (hstep.extends hC)

/-- **The chunk store is append-only, and `recall` inverts `extract`**: no file is changed, new
chunk files hold the chunks, existing ones are reported by a smaller number; and what can be
recalled can be recalled after any sequence of runs. -/
theorem chunkStore_appendOnly (hC : C.HexLawful) :
    (∀ (cfg : CoqConfiguration) (a : CoqAssemblyEncrypted cfg) (io : ℕ → ChunkIO)
      (fs : FileSystem) (mkdir : Path → Bool), WorkingIO cfg.nchunks io →
      a.info.aid.length = 64 → C.NoCollision (chunkInputs cfg {a.info.aid}) →
      let r := a.extract C io fs
      (∀ p, (fs.files p).isSome = true → r.1.files p = fs.files p) ∧
      ((∀ cid ∈ cfg.nchunks.sequence, fs.files (chunkFile C cfg a.info.aid cid) = none) →
        r.2 = assemblysize cfg.nchunks ∧
        (∀ cid ∈ cfg.nchunks.sequence, r.1.files (chunkFile C cfg a.info.aid cid) =
          some (Overlay.slice a.buffer.bytes (chunksize * (cid - 1)) chunksize)) ∧
        (∀ p, (∀ cid ∈ cfg.nchunks.sequence, p ≠ chunkFile C cfg a.info.aid cid) →
          r.1.files p = fs.files p) ∧
        ∃ e, (CoqAssemblyEncrypted.recall C cfg a.info.aid mkdir r.1).2 = some e ∧
          e.buffer = a.buffer) ∧
      ((∃ cid ∈ cfg.nchunks.sequence,
          (fs.files (chunkFile C cfg a.info.aid cid)).isSome = true) →
        r.2 < assemblysize cfg.nchunks)) ∧
    ∀ w w', Relation.ReflTransGen (StoreRun C) w w' →
      (∀ p, (w.fs.files p).isSome = true → w'.fs.files p = w.fs.files p) ∧
      ∀ (cfg : CoqConfiguration) (aid : Bytes) (mkdir : Path → Bool) (e : CoqAssemblyEncrypted cfg),
        (CoqAssemblyEncrypted.recall C cfg aid mkdir w.fs).2 = some e →
        (CoqAssemblyEncrypted.recall C cfg aid mkdir w'.fs).2 = some e := by
  refine ⟨fun cfg a io fs mkdir hio haid hcoll => ⟨extract_extends io hC fs, fun habsent => ?_,
    fun ⟨cid, hcid, hfile⟩ => extract_lt_of_exists hC hcid hfile⟩, fun w w' h => ?_⟩
  · obtain ⟨hall, hfiles⟩ := extract_of_absent hC fs hio haid hcoll habsent
    exact ⟨hall, hfiles, fun p hp => extract_keeps hC fs (Or.inl hp), recall_of_files hC mkdir hfiles⟩
  · have hext := storeRuns_extends hC h
    exact ⟨hext, fun cfg aid mkdir e he => recall_extends hC hext he⟩

/-- The buffer for an assembly has the size of the assembly. -/
theorem len_zeros (cfg : CoqConfiguration) :
    (CoqBuffer.create (assemblysize cfg.nchunks) : CoqBuffer .encrypted).len =
      assemblysize cfg.nchunks :=
  CoqBuffer.len_create (assemblysize_lt _)

/-- An encrypted assembly of zeros. -/
def zeroAssembly (cfg : CoqConfiguration) (aid : Bytes) : CoqAssemblyEncrypted cfg where
  info := ⟨cfg.nchunks, headerLen cfg.nchunks, aid⟩
  buffer := CoqBuffer.create (assemblysize cfg.nchunks)
  nchunks_eq := rfl
  len_eq := len_zeros cfg

/-- Where everything works, the input and output of chunks works. -/
theorem workingIO_allWorks (n : Nchunks) : WorkingIO n fun _ => allWorks where
  mkdir _ _ _ := rfl
  fopen _ _ := rfl
  kept _ _ := by
    change min (min chunksize chunksize) chunksize = chunksize
    rw [Nat.min_self, Nat.min_self]

/-- An identifier whose chunks have distinct hashes. -/
theorem exists_noCollision_simple : ∃ aid : Bytes, aid.length = 64 ∧
    simple.NoCollision (chunkInputs config16 {aid}) := by
  refine ⟨aidOf simple (numberedHost fun _ _ => allWorks) config16 0,
    length_aidOf simple_lawful.hex 0, ?_⟩
  refine Set.InjOn.mono ?_ (noCollision_numbered fun _ _ => allWorks)
  rintro m ⟨aid, haid, cid, hcid, rfl⟩
  exact ⟨aid, ⟨0, Set.mem_Iio.mpr (Nat.zero_lt_succ _), haid.symm⟩, cid, hcid, rfl⟩

/-- An assembly is extracted to an empty directory and recalled, also after a run of another
cache. -/
theorem chunkStore_appendOnly_simple :
    ∃ a : CoqAssemblyEncrypted config16,
      let H := numberedHost fun _ _ => allWorks
      let r := a.extract simple (fun _ => allWorks) emptyWorld.fs
      ∃ e, (CoqAssemblyEncrypted.recall simple config16 a.info.aid H.mkdir r.1).2 = some e ∧
        e.buffer = a.buffer ∧ ∀ s rs, (Session.init config16 1 1 ∅ ∅ ∅
            { emptyWorld with fs := r.1 }).calls simple H
            [.op (.enqueueWrite ⟨Vector.replicate 32 0, 0, some (CoqBuffer.create 1)⟩),
              .op .iterateWrite, .op .close] = .ok (s, rs) →
          (CoqAssemblyEncrypted.recall simple config16 a.info.aid H.mkdir s.world.fs).2 =
            some e := by
  obtain ⟨aid, hlen, hcoll⟩ := exists_noCollision_simple
  obtain ⟨hone, hruns⟩ := chunkStore_appendOnly simple_lawful.hex
  have hstays : ∀ (fs : FileSystem) (e : CoqAssemblyEncrypted config16),
      (CoqAssemblyEncrypted.recall simple config16 aid (fun _ => true) fs).2 = some e →
      ∀ (H : Host) (cs : List Call) s rs, (Session.init config16 1 1 ∅ ∅ ∅
        { emptyWorld with fs := fs }).calls simple H cs = .ok (s, rs) →
      (CoqAssemblyEncrypted.recall simple config16 aid (fun _ => true) s.world.fs).2 = some e := by
    intro fs e he H cs s rs hrun
    have hstep : StoreRun simple { emptyWorld with fs := fs } s.world :=
      .calls H 1 1 ∅ ∅ ∅ _ cs s rs hrun
    exact (hruns _ _ (Relation.ReflTransGen.single hstep)).2 config16 aid _ e he
  obtain ⟨-, hnew, -⟩ := hone config16 (zeroAssembly config16 aid) (fun _ => allWorks)
    emptyWorld.fs (fun _ => true) (workingIO_allWorks _) hlen hcoll
  obtain ⟨-, -, -, e, he, hbuffer⟩ := hnew fun _ _ => rfl
  exact ⟨zeroAssembly config16 aid, e, he, hbuffer, hstays _ e he _ _⟩

end Elykseer.Analysis
