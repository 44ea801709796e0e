import Mathlib.Data.List.TakeWhile
import Elykseer.Analysis.ReadCache
import Elykseer.Model.Restore

/-!
# The batched restore loop

The loops of `LXRrestore` and `LXRverify` drain the read queue in batches; a batch ends
early at the first block whose assembly cannot be restored.  `readBlocks_tracks` says
which blocks get a buffer, for any way of processing the results.  From it:
`restoreFile` and `verifyFile` agree with restoring every block on its own unless the
number of blocks without a buffer is a positive multiple of `2^32`, which the two
32-bit counters cannot tell from zero.
-/

set_option autoImplicit false

namespace Elykseer.Analysis

open Elykseer.Model Elykseer.Foundation

variable {C : Crypto} {H : Host} {cfg : CoqConfiguration}

/-! ## One block on its own -/

/-- Restoring one block on its own: find the key, check its version, recall and decrypt the
assembly, and restore the block from it. -/
def restoreAlone (C : Crypto) (s : Session cfg) (bi : BlockInformation) :
    Option (CoqBuffer .plain) :=
  (CoqStore.find s.cache.keystore bi.blockaid).bind fun ki =>
  if supportedFormat ki.version then
    (CoqAssemblyEncrypted.recall C cfg bi.blockaid (fun _ => false) s.world.fs).2.bind fun enc =>
    (enc.decrypt C ki).bind fun a =>
    match a.restore C bi with
    | .ok b => b
    | .error _ => none
  else none

/-- The block `restore` finds in an assembly. -/
def blockIn (C : Crypto) (a : CoqAssemblyPlainFull cfg) (bi : BlockInformation) :
    Option (CoqBuffer .plain) :=
  if Restorable C cfg.nchunks a.buffer.bytes bi then
    some (CoqBuffer.ofBytes (logicalSlice cfg.nchunks a.buffer.bytes bi.blockapos bi.blocksize))
  else none

/-- Restoring a block on its own is loading its assembly and looking there. -/
theorem restoreAlone_eq (s : Session cfg) (bi : BlockInformation) :
    restoreAlone C s bi = (loads C s bi.blockaid).bind fun a => blockIn C a bi := by
  unfold restoreAlone loads load readAssembly
  cases CoqStore.find s.cache.keystore bi.blockaid with
  | none => rfl
  | some ki =>
    dsimp only [Option.bind_some]
    split
    · rw [Option.bind_assoc]
      congr 1
      funext enc
      congr 1
      funext a
      rw [restore_eq]
      rfl
    · rfl

/-- The record of the block in a numbered assembly, for a position of a file. -/
def numberedBlock (a : CoqAssemblyPlainFull config16) (fpos : ℕ) : BlockInformation :=
  blockRecord simple a.aid (headerLen config16.nchunks) fpos [1]

/-- The block of an archived assembly is restored. -/
theorem NumberedArchive.restoreAlone_eq {keys : CoqKeyStore} {fs : FileSystem} {i : ℕ}
    {a : CoqAssemblyPlainFull config16} (h : NumberedArchive keys fs i a) {s : Session config16}
    (hkeys : s.cache.keystore = keys) (hfs : s.world.fs = fs) (fpos : ℕ) :
    restoreAlone simple s (numberedBlock a fpos) = some (CoqBuffer.ofBytes [1]) := by
  have hload : loads simple s (numberedBlock a fpos).blockaid = some a := by
    rw [loads, hkeys, hfs]
    exact h.load_eq
  have hslice : logicalSlice config16.nchunks a.buffer.bytes (headerLen config16.nchunks) 1 = [1] :=
    logicalSlice_eq h.holds.cells
  have hR : Restorable simple config16.nchunks a.buffer.bytes (numberedBlock a fpos) := by
    refine ⟨Nat.le_refl 1, Nat.le_trans h.holds.le_dataEnd (dataEnd_le _), ?_⟩
    exact congrArg (fun d => simple.toHex256 (simple.sha3 d)) hslice
  rw [Analysis.restoreAlone_eq, hload, Option.bind_some, blockIn, if_pos hR]
  exact congrArg (fun d => some (CoqBuffer.ofBytes d)) hslice

/-- Reading does not change what is restored. -/
theorem ReadOnly.restoreAlone_eq (hC : C.HexLawful) {s s' : Session cfg} (h : ReadOnly s s')
    (bi : BlockInformation) : restoreAlone C s' bi = restoreAlone C s bi := by
  rw [Analysis.restoreAlone_eq, Analysis.restoreAlone_eq, h.loads_eq hC]

/-- A restored block has the length and the checksum of its record. -/
theorem restoreAlone_spec {s : Session cfg} {bi : BlockInformation} {b : CoqBuffer .plain}
    (h : restoreAlone C s bi = some b) :
    b.len = bi.blocksize ∧ 1 ≤ bi.blocksize ∧
      C.toHex256 (C.sha3 b.bytes) = C.toHex256 bi.bchecksum := by
  rw [restoreAlone_eq] at h
  obtain ⟨a, -, hb⟩ := Option.bind_eq_some_iff.mp h
  unfold blockIn at hb
  split at hb
  · next hrest =>
    obtain ⟨h1, h2, h3⟩ := hrest
    have hsize := assemblysize_lt cfg.nchunks
    have hbytes : (CoqBuffer.ofBytes (logicalSlice cfg.nchunks a.buffer.bytes bi.blockapos
        bi.blocksize) : CoqBuffer .plain).bytes =
        logicalSlice cfg.nchunks a.buffer.bytes bi.blockapos bi.blocksize :=
      CoqBuffer.bytes_ofBytes (by rw [length_logicalSlice]; omega)
    cases hb
    refine ⟨?_, h1, ?_⟩
    · rw [CoqBuffer.len, hbytes, length_logicalSlice]
    · rw [hbytes]
      exact h3
  · cases hb

/-! ## One batch -/

/-- The result entries of a batch. -/
def batchResults (C : Crypto) (s : Session cfg) (q : List BlockInformation) :
    List ReadQueueResult :=
  (q.takeWhile fun bi => (loads C s bi.blockaid).isSome).map
    fun bi => ⟨bi.request, restoreAlone C s bi⟩

/-- Reading does not change the results of a batch. -/
theorem ReadOnly.batchResults_eq (hC : C.HexLawful) {s s' : Session cfg} (h : ReadOnly s s')
    (q : List BlockInformation) : batchResults C s' q = batchResults C s q := by
  simp only [batchResults, h.loads_eq hC, h.restoreAlone_eq hC]

/-- A session between two files of a reading program. -/
structure Ready (C : Crypto) (s : Session cfg) : Prop where
  caches : ∃ l, Caches C s l
  nReadenvs : 1 ≤ s.cache.nReadenvs
  nQueuesz : 1 ≤ s.cache.nQueuesz

/-- Running requests appends the results of the batch. -/
theorem runReadRequests_eq (hC : C.HexLawful) {s : Session cfg} (h : Ready C s)
    (results : List ReadQueueResult) (q : List BlockInformation) :
    ∃ s', Session.runReadRequests C H s results (q.map BlockInformation.request) =
        .ok (s', results ++ batchResults C s q) ∧
      Ready C s' ∧ ReadOnly s s' ∧ s'.cache.readqueue = s.cache.readqueue := by
  induction q generalizing s results with
  | nil => exact ⟨s, by simp [Session.runReadRequests, batchResults], h, ReadOnly.refl s, rfl⟩
  | cons bi q ih =>
    obtain ⟨l, hl⟩ := h.caches
    obtain ⟨hres, -, hro, hq⟩ := ensureAssembly_eq hC H h.nReadenvs hl bi.blockaid
    have hcaches := ensureAssembly_caches hC H h.nReadenvs hl bi.blockaid
    rw [Lru.access_result hl.2] at hres
    rw [List.map_cons, Session.runReadRequests]
    dsimp only
    rw [show (bi.request).aid = bi.blockaid from rfl, hres]
    cases hload : loads C s bi.blockaid with
    | none =>
      refine ⟨_, ?_, ⟨⟨_, hcaches⟩, by rw [hro.nReadenvs]; exact h.nReadenvs,
        by rw [hro.nQueuesz]; exact h.nQueuesz⟩, hro, hq⟩
      simp [batchResults, hload]
    | some a =>
      have halone : a.restore C bi.request.block = .ok (restoreAlone C s bi) := by
        rw [restore_eq, restoreAlone_eq, hload]
        rfl
      dsimp only [Option.map_some, Option.bind_some, holding]
      rw [halone]
      dsimp only
      set s₁ : Session cfg := ⟨{ (s.ensureAssembly C H bi.blockaid).1.cache with
          restoredBytes := ((s.ensureAssembly C H bi.blockaid).1.cache.restoredBytes +
            (restoreAlone C s bi).elim 0 (·.len)) % 18446744073709551616
          nReadRequests := ((s.ensureAssembly C H bi.blockaid).1.cache.nReadRequests + 1) %
            4294967296 }, (s.ensureAssembly C H bi.blockaid).1.world⟩ with hs₁
      have hro₁ : ReadOnly s s₁ := hro.withReading _ _ _ _ _
      obtain ⟨s', hrun, hready, hro', hq'⟩ := ih (s := s₁) ⟨⟨_, hcaches⟩,
        by rw [hro₁.nReadenvs]; exact h.nReadenvs, by rw [hro₁.nQueuesz]; exact h.nQueuesz⟩
        (results ++ [⟨bi.request, restoreAlone C s bi⟩])
      refine ⟨s', ?_, hready, hro₁.trans hro', hq'.trans hq⟩
      rw [hrun]
      simp only [batchResults, hro₁.loads_eq hC, hro₁.restoreAlone_eq hC,
        List.takeWhile_cons, hload, Option.isSome_some, if_true, List.map_cons,
        List.append_assoc, List.singleton_append]

/-- Draining the read queue gives the results of the batch. -/
theorem iterateReadQueue_eq (hC : C.HexLawful) {s : Session cfg} (h : Ready C s)
    {q : List BlockInformation} (hq : s.cache.readqueue = q.map BlockInformation.request) :
    ∃ s', s.iterateReadQueue C H = .ok (s', batchResults C s q) ∧ Ready C s' ∧
      ReadOnly s s' ∧ s'.cache.readqueue = [] := by
  unfold Session.iterateReadQueue
  split
  · next hnil =>
    have : q = [] := by simpa [hnil] using hq.symm
    subst this
    exact ⟨s, rfl, h, ReadOnly.refl s, hnil⟩
  · dsimp only
    rw [hq]
    set s₁ : Session cfg := ⟨{ s.cache with
      nIterateReads := (s.cache.nIterateReads + 1) % 4294967296, readqueue := [] }, s.world⟩
    have hro₁ : ReadOnly s s₁ := (ReadOnly.refl s).withReading _ _ _ _ _
    obtain ⟨l, hl⟩ := h.caches
    obtain ⟨s', hrun, hready, hro, hq'⟩ := runReadRequests_eq (H := H) hC (s := s₁)
      ⟨⟨l, hl⟩, h.nReadenvs, h.nQueuesz⟩ [] q
    refine ⟨s', ?_, hready, hro₁.trans hro, hq'⟩
    rw [hrun, List.nil_append, hro₁.batchResults_eq hC]

/-- A request goes into a queue that is not full. -/
theorem enqueueReadRequest_ready {s : Session cfg} (h : Ready C s) {q : List BlockInformation}
    (hq : s.cache.readqueue = q.map BlockInformation.request)
    (hroom : q.length < s.cache.nQueuesz) (bi : BlockInformation) :
    ∃ s', s.enqueueReadRequest bi.request = (s', true) ∧ Ready C s' ∧ ReadOnly s s' ∧
      s'.cache.readqueue = (q ++ [bi]).map BlockInformation.request := by
  obtain ⟨l, hl⟩ := h.caches
  unfold Session.enqueueReadRequest
  rw [hq, List.length_map, if_neg (Nat.not_le_of_lt hroom)]
  refine ⟨_, rfl, ⟨⟨l, hl⟩, h.nReadenvs, h.nQueuesz⟩,
    (ReadOnly.refl s).withReading _ _ _ _ _, ?_⟩
  rw [List.map_append]
  rfl

/-- A full queue refuses the request. -/
theorem enqueueReadRequest_full {s : Session cfg} {q : List BlockInformation}
    (hq : s.cache.readqueue = q.map BlockInformation.request)
    (hfull : s.cache.nQueuesz ≤ q.length) (rqe : ReadQueueEntity) :
    s.enqueueReadRequest rqe = (s, false) := by
  unfold Session.enqueueReadRequest
  rw [hq, List.length_map, if_pos hfull]

/-! ## Cutting a stream into batches -/

/-- The batches of a queue of the given depth: what is drained when `q` is already in the
queue and the entries of the list arrive one by one, the last batch being what is left at
the end. -/
def batches {α : Type*} (depth : ℕ) : List α → List α → List (List α)
  | q, [] => [q]
  | q, a :: rest =>
    if depth ≤ q.length then q :: batches depth [a] rest else batches depth (q ++ [a]) rest

/-- No entry is lost, repeated or moved. -/
theorem flatten_batches {α : Type*} (depth : ℕ) (q l : List α) :
    (batches depth q l).flatten = q ++ l := by
  induction l generalizing q with
  | nil => simp [batches]
  | cons a rest ih =>
    unfold batches
    split
    · rw [List.flatten_cons, ih, List.singleton_append]
    · rw [ih, List.append_assoc, List.singleton_append]

/-! ## The loop -/

/-- Where the blocks of a batch that get a buffer are written, and their bytes. -/
def batchPieces (C : Crypto) (s : Session cfg) (q : List BlockInformation) :
    List (ℕ × Bytes) :=
  (q.takeWhile fun bi => (loads C s bi.blockaid).isSome).filterMap
    fun bi => (restoreAlone C s bi).map fun b => (bi.filepos, b.bytes)

/-- The pieces of a file whose blocks go through a queue of the given depth. -/
def filePieces (C : Crypto) (s : Session cfg) (depth : ℕ) (q fbs : List BlockInformation) :
    List (ℕ × Bytes) :=
  ((batches depth q fbs).map (batchPieces C s)).flatten

/-- The loop over the blocks of a file never faults, leaves the read queue empty, and processes
the pieces of the file: `T st bs ps` relates a state of the loop to the blocks counted and the
pieces processed so far. -/
theorem readBlocks_tracks (hC : C.HexLawful) {σ : Type} {process : σ → List ReadQueueResult → σ}
    {expect : σ → BlockInformation → σ} {s₀ : Session cfg}
    {T : σ → List BlockInformation → List (ℕ × Bytes) → Prop} {P : BlockInformation → Prop}
    (hexpect : ∀ st bs ps bi, T st bs ps → T (expect st bi) (bs ++ [bi]) ps)
    (hprocess : ∀ st bs ps q, (∀ bi ∈ q, P bi) → T st bs ps →
      T (process st (batchResults C s₀ q)) bs (ps ++ batchPieces C s₀ q))
    {s : Session cfg} (hro : ReadOnly s₀ s) (h : Ready C s) {q fbs : List BlockInformation}
    (bs : List BlockInformation) (ps : List (ℕ × Bytes)) {st : σ}
    (hq : s.cache.readqueue = q.map BlockInformation.request)
    (hP : ∀ bi ∈ q ++ fbs, P bi) (hst : T st bs ps) :
    ∃ s' st', s.readBlocks C H process expect st fbs = .ok (s', st') ∧ Ready C s' ∧
      ReadOnly s₀ s' ∧ s'.cache.readqueue = [] ∧
      T st' (bs ++ fbs) (ps ++ filePieces C s₀ s₀.cache.nQueuesz q fbs) := by
  induction fbs generalizing s q bs ps st with
  | nil =>
    obtain ⟨s', hiter, hready, hro', hq'⟩ := iterateReadQueue_eq (H := H) hC h hq
    refine ⟨s', process st (batchResults C s₀ q), ?_, hready, hro.trans hro', hq', ?_⟩
    · rw [Session.readBlocks, hiter, hro.batchResults_eq hC]
    · rw [List.append_nil, filePieces]
      simpa [batches] using hprocess st bs ps q (by simpa using hP) hst
  | cons bi fbs ih =>
    rw [Session.readBlocks, Session.submitRead]
    by_cases hfull : s₀.cache.nQueuesz ≤ q.length
    · -- the queue is drained, and the block is the first one of the next batch
      obtain ⟨s', hiter, hready, hro', hq'⟩ := iterateReadQueue_eq (H := H) hC h hq
      obtain ⟨s₁, henq, hready₁, hro₁, hq₁⟩ :=
        enqueueReadRequest_ready (q := []) hready hq' hready.nQueuesz bi
      rw [enqueueReadRequest_full hq (hro.nQueuesz ▸ hfull)]
      dsimp only
      rw [if_neg Bool.false_ne_true, hiter]
      dsimp only
      rw [henq, hro.batchResults_eq hC]
      obtain ⟨s'', st', hloop, hready', hro'', hq'', hT⟩ := ih ((hro.trans hro').trans hro₁) hready₁
        _ _ hq₁ (fun b hb => hP b (by simp at hb ⊢; tauto))
        (hprocess _ _ _ q (fun b hb => hP b (by simp [hb])) (hexpect st bs ps bi hst))
      refine ⟨s'', st', hloop, hready', hro'', hq'', ?_⟩
      rw [List.append_assoc, List.singleton_append, List.append_assoc] at hT
      rwa [filePieces, batches, if_pos hfull, List.map_cons, List.flatten_cons]
    · obtain ⟨s₁, henq, hready₁, hro₁, hq₁⟩ :=
        enqueueReadRequest_ready h hq (by rw [hro.nQueuesz]; omega) bi
      rw [henq]
      dsimp only
      rw [if_pos rfl]
      obtain ⟨s'', st', hloop, hready', hro'', hq'', hT⟩ := ih (hro.trans hro₁) hready₁ _ _ hq₁
        (fun b hb => hP b (by simp at hb ⊢; tauto)) (hexpect st bs ps bi hst)
      refine ⟨s'', st', hloop, hready', hro'', hq'', ?_⟩
      rw [List.append_assoc, List.singleton_append] at hT
      rwa [filePieces, batches, if_neg hfull]

/-! ## The pieces of a file -/

/-- A batch has at most one piece for each block that can be restored. -/
theorem length_batchPieces_le (s : Session cfg) (q : List BlockInformation) :
    (batchPieces C s q).length ≤ q.countP fun bi => (restoreAlone C s bi).isSome := by
  unfold batchPieces
  simp only [List.length_filterMap_eq_countP, Option.isSome_map]
  exact (List.takeWhile_sublist _).countP_le

/-- A file has at most one piece for each block that can be restored. -/
theorem length_filePieces_le (s : Session cfg) (depth : ℕ) (fbs : List BlockInformation) :
    (filePieces C s depth [] fbs).length ≤ fbs.countP fun bi => (restoreAlone C s bi).isSome := by
  have hsum : ∀ bss : List (List BlockInformation),
      ((bss.map (batchPieces C s)).flatten).length ≤
        bss.flatten.countP fun bi => (restoreAlone C s bi).isSome := by
    intro bss
    induction bss with
    | nil => exact Nat.le_refl 0
    | cons q bss ih =>
      rw [List.map_cons, List.flatten_cons, List.length_append, List.flatten_cons,
        List.countP_append]
      exact Nat.add_le_add (length_batchPieces_le s q) ih
  have := hsum (batches depth [] fbs)
  rwa [flatten_batches, List.nil_append] at this

/-- The naive pieces: every block on its own. -/
def naivePieces (C : Crypto) (s : Session cfg) (fbs : List BlockInformation) : List (ℕ × Bytes) :=
  fbs.filterMap fun bi => (restoreAlone C s bi).map fun b => (bi.filepos, b.bytes)

/-- If every block can be restored on its own, the batches do not matter. -/
theorem filePieces_eq (s : Session cfg) (depth : ℕ) {fbs : List BlockInformation}
    (h : ∀ bi ∈ fbs, (restoreAlone C s bi).isSome = true) :
    filePieces C s depth [] fbs = naivePieces C s fbs := by
  have hbatch : ∀ q : List BlockInformation, (∀ bi ∈ q, (restoreAlone C s bi).isSome = true) →
      batchPieces C s q = naivePieces C s q := by
    intro q hq
    unfold batchPieces naivePieces
    rw [List.takeWhile_eq_self_iff.mpr]
    intro bi hbi
    have hsome := hq bi hbi
    rw [restoreAlone_eq] at hsome
    cases hload : loads C s bi.blockaid with
    | none => rw [hload] at hsome; cases hsome
    | some a => rfl
  have hall : ∀ bss : List (List BlockInformation),
      (∀ bi ∈ bss.flatten, (restoreAlone C s bi).isSome = true) →
      (bss.map (batchPieces C s)).flatten = naivePieces C s bss.flatten := by
    intro bss
    induction bss with
    | nil => exact fun _ => rfl
    | cons q bss ih =>
      intro hbss
      rw [List.flatten_cons] at hbss
      rw [List.map_cons, List.flatten_cons, List.flatten_cons,
        hbatch q fun bi hbi => hbss bi (List.mem_append_left _ hbi),
        ih fun bi hbi => hbss bi (List.mem_append_right _ hbi)]
      exact List.filterMap_append.symm
  have hflat := flatten_batches depth [] fbs
  rw [List.nil_append] at hflat
  unfold filePieces
  rw [hall _ (by rwa [hflat]), hflat]

/-- The number of blocks of a file that get no buffer, when the blocks go through the queue in
batches and a batch ends at the first block whose assembly cannot be restored. -/
def missing (C : Crypto) (s : Session cfg) (fbs : List BlockInformation) : ℕ :=
  fbs.length - (filePieces C s s.cache.nQueuesz [] fbs).length

/-- No block is missing exactly if every block can be restored on its own. -/
theorem missing_eq_zero_iff (s : Session cfg) (fbs : List BlockInformation) :
    missing C s fbs = 0 ↔ ∀ bi ∈ fbs, (restoreAlone C s bi).isSome = true := by
  have hle := length_filePieces_le (C := C) s s.cache.nQueuesz fbs
  have hcount := List.countP_le_length (p := fun bi => (restoreAlone C s bi).isSome) (l := fbs)
  unfold missing
  constructor
  · intro h
    exact List.countP_eq_length.mp (by omega)
  · intro h
    have hnaive : (naivePieces C s fbs).length =
        fbs.countP fun bi => (restoreAlone C s bi).isSome := by
      unfold naivePieces
      simp only [List.length_filterMap_eq_countP, Option.isSome_map]
    rw [filePieces_eq s _ h, hnaive, List.countP_eq_length.mpr h, Nat.sub_self]

end Elykseer.Analysis
