import Elykseer.Analysis.Accounting
import Elykseer.Model.Processor

/-!
# Backing up files

`file_backup` is a run of the write path that records what it read, piece by piece
(`fileBackup_trace`); `backupAll_trace` says so for a sequence of files, and carries an
invariant of single backups to the end of it.  If every `fread` returns what it was
asked for, the pieces tile the content (`readPieces_tiles`).
-/

set_option autoImplicit false

namespace Elykseer.Analysis

open Elykseer.Model Elykseer.Foundation

variable {C : Crypto} {H : Host} {cfg : CoqConfiguration}

/-! ## The pieces of a file -/

/-- What is read of a file from `fpos` on, with the position of each piece. -/
def readPieces (f : SourceFile) (fsize fpos : ℕ) : List (ℕ × Bytes) :=
  if fpos < fsize then
    (fpos, Overlay.slice f.content fpos (min (readSize fsize fpos) (f.fread fpos))) ::
      readPieces f fsize (fpos + readSize fsize fpos)
  else []
termination_by fsize - fpos
decreasing_by
  unfold readSize blockSz
  omega

/-- Every `fread` of a backup returns what it was asked for. -/
def ReadsFull (f : SourceFile) : Prop :=
  ∀ k, blockSz * k < f.content.length →
    readSize f.content.length (blockSz * k) ≤ f.fread (blockSz * k)

/-- A slice is no longer than asked for. -/
theorem length_slice_le (l : Bytes) (pos len : ℕ) : (Overlay.slice l pos len).length ≤ len := by
  unfold Overlay.slice
  rw [List.length_take]
  exact Nat.min_le_left _ _

/-- The pieces of a file that is read completely tile its content. -/
theorem readPieces_tiles {f : SourceFile} (hfull : ReadsFull f) (k : ℕ) :
    Overlay.Tiles (min (blockSz * k) f.content.length)
      (readPieces f f.content.length (min (blockSz * k) f.content.length))
      (f.content.drop (blockSz * k)) := by
  have hsz : blockSz = 32768 := rfl
  induction hn : f.content.length - blockSz * k using Nat.strong_induction_on generalizing k with
  | _ n ih =>
    have hmul : blockSz * (k + 1) = blockSz * k + blockSz := Nat.mul_succ _ _
    rw [readPieces]
    by_cases hlt : blockSz * k < f.content.length
    · rw [Nat.min_eq_left (Nat.le_of_lt hlt), if_pos hlt, Nat.min_eq_left (hfull k hlt)]
      have hlen : (Overlay.slice f.content (blockSz * k)
          (readSize f.content.length (blockSz * k))).length =
          readSize f.content.length (blockSz * k) :=
        Overlay.length_slice (by unfold readSize; omega)
      have hnext : blockSz * k + readSize f.content.length (blockSz * k) =
          min (blockSz * (k + 1)) f.content.length := by
        unfold readSize
        omega
      have hsplit : f.content.drop (blockSz * k) =
          Overlay.slice f.content (blockSz * k) (readSize f.content.length (blockSz * k)) ++
            f.content.drop (blockSz * (k + 1)) := by
        have hdrop : (f.content.drop (blockSz * k)).drop
            (readSize f.content.length (blockSz * k)) = f.content.drop (blockSz * (k + 1)) := by
          rw [List.drop_drop, hnext]
          rcases Nat.le_total (blockSz * (k + 1)) f.content.length with hle | hle
          · rw [Nat.min_eq_left hle]
          · rw [Nat.min_eq_right hle, List.drop_length, List.drop_eq_nil_of_le hle]
        unfold Overlay.slice
        rw [← hdrop, List.take_append_drop]
      rw [hsplit, hnext]
      refine .cons _ _ (fun hnil => ?_) ?_
      · rw [hnil, List.length_nil] at hlen
        unfold readSize at hlen
        omega
      · rw [hlen, hnext]
        exact ih _ (by omega) (k + 1) rfl
    · rw [Nat.min_eq_right (by omega), if_neg (Nat.lt_irrefl _),
        List.drop_eq_nil_of_le (Nat.le_of_not_lt hlt)]
      exact .nil _

/-- The pieces of a file that is read completely tile its content from the start on. -/
theorem readPieces_tiles_zero {f : SourceFile} (hfull : ReadsFull f) :
    Overlay.Tiles 0 (readPieces f f.content.length 0) f.content := by
  have h := readPieces_tiles hfull 0
  rwa [Nat.mul_zero, Nat.zero_min, List.drop_zero] at h

/-! ## The loop -/

/-- The request for a piece that was read wants this piece to be recorded. -/
theorem requestWanted_request (f : SourceFile) (fhash : Key256) (fsize fpos : ℕ) :
    requestWanted C cfg (f.request fhash fsize fpos) =
      some ⟨C.toHex256 fhash, fpos,
        Overlay.slice f.content fpos (min (readSize fsize fpos) (f.fread fpos))⟩ := by
  have hsz : readSize fsize fpos ≤ 32768 := Nat.min_le_left _ _
  have hslice := length_slice_le f.content fpos (min (readSize fsize fpos) (f.fread fpos))
  have hbytes := CoqBuffer.bytes_ofBytes (s := .plain)
    (m := Overlay.slice f.content fpos (min (readSize fsize fpos) (f.fread fpos))) (by omega)
  have hlen : (CoqBuffer.ofBytes (Overlay.slice f.content fpos
      (min (readSize fsize fpos) (f.fread fpos))) : CoqBuffer .plain).len ≤ 32768 := by
    rw [CoqBuffer.len, hbytes]
    omega
  have hhead := headerLen_le cfg.nchunks
  have hend := lt_dataEnd cfg.nchunks
  have hbuffer : (f.request fhash fsize fpos).buffer = some (CoqBuffer.ofBytes
      (Overlay.slice f.content fpos (min (readSize fsize fpos) (f.fread fpos)))) := rfl
  rw [requestWanted_of_room hbuffer (by omega), hbytes]
  rfl

/-- A session that writes one more request: the queue is drained if it is full. -/
theorem submitWrite_trace {s : Session cfg} (hfit : (writeSide s).Fitting)
    (hdepth : 1 ≤ s.cache.nQueuesz) (hopen : (writeSide s).isOpen = true)
    (wqe : WriteQueueEntity) :
    ∃ s' es draws, s.submitWrite C H wqe = .ok s' ∧ Writes C H s s' es draws ∧
      draws + 2 * s'.cache.writequeue.length ≤ 2 * s.cache.writequeue.length + 2 ∧
      (writeSide s').isOpen = true ∧
      es.map Entry.wanted ++ s'.cache.writequeue.filterMap (requestWanted C cfg) =
        s.cache.writequeue.filterMap (requestWanted C cfg) ++
          (requestWanted C cfg wqe).toList := by
  have hone : [wqe].filterMap (requestWanted C cfg) = (requestWanted C cfg wqe).toList :=
    filterMap_requestWanted_singleton wqe
  unfold Session.submitWrite Session.enqueueWriteRequest
  by_cases hfull : s.cache.nQueuesz ≤ s.cache.writequeue.length
  · obtain ⟨s', es, hiter, hwrites, hq, -, hopen', hwanted⟩ :=
      iterateWriteQueue_trace (C := C) (H := H) hfit
    rw [if_pos hfull]
    dsimp only
    rw [if_neg Bool.false_ne_true, hiter]
    dsimp only
    rw [hq, List.length_nil, hwrites.frame.nQueuesz, if_neg (by omega)]
    refine ⟨_, es, _, rfl, ⟨hwrites.trace, ⟨hwrites.frame.readenvs, hwrites.frame.nReadenvs,
      rfl, hwrites.frame.readqueue, hwrites.frame.finfostore⟩,
      hwrites.nassembly_le⟩, by simp, hopen'.trans hopen, ?_⟩
    rw [hwanted, if_pos hopen, List.nil_append, hone]
  · rw [if_neg hfull]
    dsimp only
    rw [if_pos rfl]
    refine ⟨_, [], 0, rfl, Writes.enqueue s _ _, ?_, hopen, ?_⟩
    · simp only [List.length_append, List.length_singleton]
      omega
    · rw [List.map_nil, List.nil_append, List.filterMap_append, hone]

/-- **The loop of `file_backup`** requests what it read. -/
theorem backupLoop_trace {s : Session cfg} (hfit : (writeSide s).Fitting)
    (hdepth : 1 ≤ s.cache.nQueuesz) (hopen : (writeSide s).isOpen = true) (f : SourceFile)
    (fhash : Key256) (fsize fpos : ℕ) :
    ∃ s' es draws, s.backupLoop C H f fhash fsize fpos = .ok s' ∧ Writes C H s s' es draws ∧
      draws + 2 * s'.cache.writequeue.length ≤
        2 * s.cache.writequeue.length + 2 * (readPieces f fsize fpos).length ∧
      (writeSide s').isOpen = true ∧
      es.map Entry.wanted ++ s'.cache.writequeue.filterMap (requestWanted C cfg) =
        s.cache.writequeue.filterMap (requestWanted C cfg) ++
          (readPieces f fsize fpos).map fun p => ⟨C.toHex256 fhash, p.1, p.2⟩ := by
  induction fpos using readPieces.induct fsize generalizing s with
  | case1 fpos hlt ih =>
    obtain ⟨s₁, es₁, m, hsubmit, hwrites₁, hdraws₁, hopen₁, hwanted₁⟩ :=
      submitWrite_trace (C := C) (H := H) hfit hdepth hopen (f.request fhash fsize fpos)
    obtain ⟨s₂, es₂, n, hloop, hwrites₂, hdraws₂, hopen₂, hwanted₂⟩ :=
      ih (hwrites₁.trace.fitting hfit) (by rw [hwrites₁.frame.nQueuesz]; exact hdepth) hopen₁
    refine ⟨s₂, es₁ ++ es₂, m + n, ?_, hwrites₁.trans hwrites₂, ?_, hopen₂, ?_⟩
    · rw [Session.backupLoop, if_pos hlt, hsubmit]
      exact hloop
    · rw [readPieces, if_pos hlt, List.length_cons]
      omega
    · rw [List.map_append, List.append_assoc, hwanted₂, ← List.append_assoc, hwanted₁,
        requestWanted_request, List.append_assoc]
      conv_rhs => rw [readPieces, if_pos hlt, List.map_cons]
      rfl
  | case2 fpos hge =>
    refine ⟨s, [], 0, ?_, Writes.refl s, by omega, hopen, ?_⟩
    · rw [Session.backupLoop, if_neg hge]
    · rw [readPieces, if_neg hge]
      simp

/-! ## One file -/

/-- A session between two files of a backup. -/
structure ReadyToBackup (s : Session cfg) : Prop where
  fitting : (writeSide s).Fitting
  nQueuesz : 1 ≤ s.cache.nQueuesz
  isOpen : (writeSide s).isOpen = true
  writequeue : s.cache.writequeue = []

/-- A new session with a queue is ready to back up files. -/
theorem readyToBackup_init {nEnvs depth : ℕ} (hdepth : 1 ≤ depth) (keys : CoqKeyStore)
    (fblocks : CoqFBlockStore) (finfos : CoqFInfoStore) (w : World) :
    ReadyToBackup (Session.init cfg nEnvs depth keys fblocks finfos w) where
  fitting a ha := by cases ha
  nQueuesz := hdepth
  isOpen := rfl
  writequeue := rfl

/-- What `file_backup` returns: the information of a file that is changed and can be opened. -/
def backedUp (C : Crypto) (s : Session cfg) (f : SourceFile) : Option FileInformation :=
  (getFileInformation C f cfg.myId).filter fun fi => !s.isUnchanged fi && f.fopen

/-- The information about a file names it, and has its size and its checksum. -/
theorem fileInformation_eq {f : SourceFile} {myId : Bytes} {fi : FileInformation}
    (h : getFileInformation C f myId = some fi) :
    fi.fhash = fileHash C f.name myId ∧ fi.fsize = f.content.length ∧
      fi.fchecksum = C.toHex256 (C.sha3 f.content) := by
  unfold getFileInformation at h
  split at h
  · cases h
    exact ⟨rfl, rfl, rfl⟩
  · cases h

/-- What is returned for a file names it, and has its size and its checksum. -/
theorem backedUp_eq {s : Session cfg} {f : SourceFile} {fi : FileInformation}
    (h : backedUp C s f = some fi) :
    fi.fhash = fileHash C f.name cfg.myId ∧ fi.fsize = f.content.length ∧
      fi.fchecksum = C.toHex256 (C.sha3 f.content) :=
  fileInformation_eq (Option.filter_eq_some_iff.mp h).1

/-- What a backup of a file does: it records what it read, and adds the information. -/
structure FileBackup (C : Crypto) (H : Host) (s s' : Session cfg) (f : SourceFile)
    (es : List Entry) : Prop where
  trace : WriteTrace C H (writeSide s) es (writeSide s')
  finfostore : s'.cache.finfostore = (backedUp C s f).elim s.cache.finfostore
    fun fi => CoqFInfoStore.add s.cache.finfostore fi.fhash fi
  wanted : es.map Entry.wanted = (backedUp C s f).elim []
    fun fi => (readPieces f fi.fsize 0).map fun p => ⟨fi.fhash, p.1, p.2⟩
  nassembly_le : s'.world.nassembly ≤
    s.world.nassembly + 2 * (readPieces f f.content.length 0).length

/-- A file that is skipped records nothing. -/
theorem FileBackup.of_none {s s' : Session cfg} {f : SourceFile} {es : List Entry}
    (h : FileBackup C H s s' f es) (hnone : backedUp C s f = none) :
    es = [] ∧ s'.cache.finfostore = s.cache.finfostore := by
  have hwanted := h.wanted
  have hinfos := h.finfostore
  rw [hnone] at hwanted hinfos
  exact ⟨List.map_eq_nil_iff.mp hwanted, hinfos⟩

/-- A file that is backed up records its pieces and its information. -/
theorem FileBackup.of_some {s s' : Session cfg} {f : SourceFile} {es : List Entry}
    (h : FileBackup C H s s' f es) {fi : FileInformation} (hsome : backedUp C s f = some fi) :
    (∀ x ∈ es, x.fname = fi.fhash) ∧
      es.map (fun x => (x.fpos, x.data)) = readPieces f f.content.length 0 ∧
      s'.cache.finfostore = CoqFInfoStore.add s.cache.finfostore fi.fhash fi := by
  have hwanted := h.wanted
  have hinfos := h.finfostore
  rw [hsome, Option.elim_some] at hwanted hinfos
  rw [(backedUp_eq hsome).2.1] at hwanted
  refine ⟨fun x hx => ?_, ?_, hinfos⟩
  · have hmem := List.mem_map_of_mem (f := Entry.wanted) hx
    rw [hwanted, List.mem_map] at hmem
    obtain ⟨p, -, heq⟩ := hmem
    exact (congrArg Wanted.fname heq).symm
  · have hpairs := congrArg (List.map fun w : Wanted => (w.fpos, w.data)) hwanted
    rw [List.map_map, List.map_map] at hpairs
    exact hpairs.trans (List.map_id _)

/-- **`file_backup`** never faults. -/
theorem fileBackup_trace (hC : C.HexLawful) {s : Session cfg} (h : ReadyToBackup s)
    (f : SourceFile) :
    ∃ s' es, s.fileBackup C H f = .ok (s', backedUp C s f) ∧ ReadyToBackup s' ∧
      FileBackup C H s s' f es := by
  have hskip : backedUp C s f = none → FileBackup C H s s f [] := by
    intro hnone
    refine ⟨Trace.refl _, ?_, ?_, Nat.le_add_right _ _⟩
    · rw [hnone]
      rfl
    · rw [hnone]
      rfl
  unfold Session.fileBackup
  cases hinfo : getFileInformation C f cfg.myId with
  | none =>
    have hnone : backedUp C s f = none := by
      unfold backedUp
      rw [hinfo]
      rfl
    exact ⟨s, [], by rw [hnone], h, hskip hnone⟩
  | some fi =>
    have hback : backedUp C s f = if (!s.isUnchanged fi && f.fopen) = true then some fi else none := by
      unfold backedUp
      rw [hinfo]
      rfl
    dsimp only
    by_cases hunchanged : s.isUnchanged fi = true
    · have hnone : backedUp C s f = none := by rw [hback, hunchanged]; rfl
      rw [if_pos hunchanged]
      exact ⟨s, [], by rw [hnone], h, hskip hnone⟩
    · rw [if_neg hunchanged]
      rw [Bool.not_eq_true] at hunchanged
      by_cases hopen : f.fopen = true
      · have hsome : backedUp C s f = some fi := by rw [hback, hunchanged, hopen]; rfl
        have hhash : C.toHex256 (C.fromHex256 fi.fhash) = fi.fhash := by
          rw [(fileInformation_eq hinfo).1, fileHash, hC.fromHex_toHex256]
        obtain ⟨s₁, es₁, m, hloop, hwrites₁, hdraws₁, hopen₁, hwanted₁⟩ :=
          backupLoop_trace (C := C) (H := H) h.fitting h.nQueuesz h.isOpen f
            (C.fromHex256 fi.fhash) fi.fsize 0
        obtain ⟨s₂, es₂, hiter, hwrites₂, hq₂, -, hopen₂, hwanted₂⟩ :=
          iterateWriteQueue_trace (C := C) (H := H) (hwrites₁.trace.fitting h.fitting)
        have hwrites := hwrites₁.trans hwrites₂
        rw [if_pos hopen, hloop]
        dsimp only
        rw [hiter]
        refine ⟨s₂.addFInfo fi, es₁ ++ es₂, by rw [hsome], ⟨?_, ?_, hopen₂.trans hopen₁, hq₂⟩,
          ⟨hwrites.trace, ?_, ?_, ?_⟩⟩
        · exact hwrites.trace.fitting h.fitting
        · exact hwrites.frame.nQueuesz ▸ h.nQueuesz
        · rw [hsome, Option.elim_some, ← hwrites.frame.finfostore]
          rfl
        · rw [h.writequeue, List.filterMap_nil, List.nil_append, hhash] at hwanted₁
          rw [hsome, Option.elim_some, List.map_append, hwanted₂, if_pos hopen₁, hwanted₁]
        · refine Nat.le_trans hwrites.nassembly_le (Nat.add_le_add_left ?_ _)
          rw [h.writequeue, (fileInformation_eq hinfo).2.1, List.length_nil, Nat.mul_zero,
            Nat.zero_add] at hdraws₁
          exact hdraws₁
      · rw [Bool.not_eq_true] at hopen
        have hnone : backedUp C s f = none := by rw [hback, hunchanged, hopen]; rfl
        rw [if_neg (by simp [hopen])]
        exact ⟨s, [], by rw [hnone], h, hskip hnone⟩

/-! ## A sequence of files -/

/-- `cond` holds before every file of a run. -/
def MeetsAll (C : Crypto) (H : Host) (cond : Session cfg → SourceFile → Prop) :
    Session cfg → List SourceFile → Prop
  | _, [] => True
  | s, f :: files => cond s f ∧
      ∀ s' ofi, s.fileBackup C H f = .ok (s', ofi) → MeetsAll C H cond s' files

/-- What every backup that meets `cond` preserves, about a session, the blocks recorded so far, and
the files so far with what was returned for each. -/
def Preserves (C : Crypto) (H : Host) (cond : Session cfg → SourceFile → Prop)
    (I : Session cfg → List Entry → List (SourceFile × Option FileInformation) → Prop) : Prop :=
  ∀ s s' f es L past, ReadyToBackup s → cond s f → FileBackup C H s s' f es → I s L past →
    I s' (L ++ es) (past ++ [(f, backedUp C s f)])

/-- **A sequence of files** is backed up without a fault, and invariants hold at its end. -/
theorem backupAll_trace (hC : C.HexLawful) {s : Session cfg} (h : ReadyToBackup s)
    (files : List SourceFile) :
    ∃ s' es ofis, s.backupAll C H files = .ok (s', ofis) ∧ ReadyToBackup s' ∧
      ofis.length = files.length ∧ WriteTrace C H (writeSide s) es (writeSide s') ∧
      s'.world.nassembly ≤ s.world.nassembly +
        2 * (files.map fun f => (readPieces f f.content.length 0).length).sum ∧
      ∀ cond I, Preserves C H cond I → MeetsAll C H cond s files → ∀ L past, I s L past →
        I s' (L ++ es) (past ++ files.zip ofis) := by
  induction files generalizing s with
  | nil =>
    exact ⟨s, [], [], rfl, h, rfl, Trace.refl _, Nat.le_add_right _ _,
      fun _ _ _ _ L past hI => by simpa using hI⟩
  | cons f files ih =>
    obtain ⟨s₁, es₁, hfile, hready₁, hback⟩ := fileBackup_trace (H := H) hC h f
    obtain ⟨s₂, es₂, ofis, hall, hready₂, hlen, htrace, hnum, hinv⟩ := ih hready₁
    refine ⟨s₂, es₁ ++ es₂, backedUp C s f :: ofis, ?_, hready₂, by simp [hlen],
      hback.trace.trans htrace, ?_, fun cond I hpres hmeets L past hI => ?_⟩
    · rw [Session.backupAll, hfile]
      dsimp only
      rw [hall]
    · have := hback.nassembly_le
      rw [List.map_cons, List.sum_cons]
      omega
    · have hI₁ := hpres s s₁ f es₁ L past h hmeets.1 hback hI
      have hI₂ := hinv cond I hpres (hmeets.2 s₁ _ hfile) _ _ hI₁
      rw [List.append_assoc, List.append_assoc] at hI₂
      exact hI₂

/-- **A backup run** ends with `close`, behind which there is no assembly; invariants that `close`
preserves too hold at its end. -/
theorem backupRun_trace (hC : C.HexLawful) {s : Session cfg} (h : ReadyToBackup s)
    (files : List SourceFile) :
    ∃ s' es ofis, s.backupRun C H files = .ok (s', ofis) ∧ ofis.length = files.length ∧
      WriteTrace C H (writeSide s) es (writeSide s') ∧ (writeSide s').current = none ∧
      s'.world.nassembly ≤ s.world.nassembly +
        2 * (files.map fun f => (readPieces f f.content.length 0).length).sum ∧
      ∀ cond I, Preserves C H cond I → (∀ s L past, I s L past → I (s.close C H) L past) →
        MeetsAll C H cond s files → I s [] [] → I s' es (files.zip ofis) := by
  obtain ⟨s', es, ofis, hall, hready, hlen, htrace, hnum, hinv⟩ :=
    backupAll_trace (H := H) hC h files
  obtain ⟨hclose, -, hcurrent, -⟩ := close_trace (C := C) (H := H) s'
  refine ⟨s'.close C H, es, ofis, ?_, hlen, htrace.trans_silent hclose.trace, hcurrent,
    Nat.le_trans hclose.nassembly_le hnum, fun cond I hpres hstable hmeets hI => ?_⟩
  · unfold Session.backupRun
    rw [hall]
  · have hend := hinv cond I hpres hmeets [] [] hI
    exact hstable _ _ _ hend

/-- `close` adds no block and no file information. -/
theorem close_keeps (s : Session cfg) :
    (s.close C H).cache.finfostore = s.cache.finfostore ∧
      ∀ fname, (CoqFBlockStore.blocks (s.close C H).cache.fblockstore fname).map unnumbered =
        (CoqFBlockStore.blocks s.cache.fblockstore fname).map unnumbered := by
  obtain ⟨hclose, -⟩ := close_trace (C := C) (H := H) s
  refine ⟨hclose.frame.finfostore, fun fname => ?_⟩
  have h := hclose.trace.ledger (ledger_refl _) fname
  rwa [recordsOf_eq_nil (by simp), List.append_nil] at h

/-- A condition on the files alone. -/
theorem meetsAll_of_forall {P : SourceFile → Prop} (s : Session cfg) {files : List SourceFile}
    (h : ∀ f ∈ files, P f) : MeetsAll C H (fun _ f => P f) s files := by
  induction files generalizing s with
  | nil => trivial
  | cons f files ih =>
    exact ⟨h f (by simp), fun s' _ _ => ih s' fun f hf => h f (List.mem_cons_of_mem _ hf)⟩

/-! ## Files that can be read -/

/-- A file that exists, can be opened, and is read as asked. -/
def plainFile (name content : Bytes) (h : content.length < 9223372036854775808) : SourceFile where
  name := name
  content := content
  length_lt := h
  uid := 0
  mode := 0
  modified := []
  stat := true
  fopen := true
  fread _ := blockSz

/-- A plain file is read in full. -/
theorem readsFull_plainFile (name content : Bytes) (h : content.length < 9223372036854775808) :
    ReadsFull (plainFile name content h) := fun _ _ => Nat.min_le_left _ _

/-- A file of at most one block is read in at most one piece. -/
theorem length_readPieces_le {f : SourceFile} (h : f.content.length ≤ blockSz) :
    (readPieces f f.content.length 0).length ≤ 1 := by
  rw [readPieces]
  split
  · have hsz : 0 + readSize f.content.length 0 = f.content.length := by
      unfold readSize
      omega
    rw [hsz, readPieces, if_neg (Nat.lt_irrefl _), List.length_singleton]
  · exact Nat.zero_le 1

end Elykseer.Analysis
