import Elykseer.Analysis.FileBackup
import Elykseer.Analysis.DocumentRoundTrip
import Elykseer.Model.Tools

/-!
# The write queue batches, and nothing else

`file_backup` puts its blocks into the write queue, which is drained when it is full and at
the end of the file.  The write environment gets the same blocks in the same order as if
each were handed over at once: `backupRun_direct`.  So the documents and the chunk files
of a run of `LXRbackup` do not depend on the size of the queue: `lxrBackup_batches`.
-/

set_option autoImplicit false

namespace Elykseer.Analysis

open Elykseer.Model Elykseer.Foundation Elykseer.Foundation.Xml

variable {C : Crypto} {H : Host} {cfg : CoqConfiguration}

/-! ## Backing up without a queue -/

/-- The request for a piece of a file. -/
def pieceRequest (fhash : Key256) (p : ℕ × Bytes) : WriteQueueEntity :=
  ⟨fhash, p.1, some (CoqBuffer.ofBytes p.2)⟩

/-- `file_backup`, each block being written at once. -/
def fileBackupDirect (C : Crypto) (H : Host) (s : Session cfg) (f : SourceFile) :
    Except Fault (Session cfg × Option FileInformation) :=
  match backedUp C s f with
  | none => .ok (s, none)
  | some fi =>
    match s.runWriteRequests C H
      ((readPieces f fi.fsize 0).map (pieceRequest (C.fromHex256 fi.fhash))) with
    | .error e => .error e
    | .ok s' => .ok (s'.addFInfo fi, some fi)

/-- A sequence of files, each block being written at once. -/
def backupAllDirect (C : Crypto) (H : Host) :
    Session cfg → List SourceFile →
      Except Fault (Session cfg × List (Option FileInformation))
  | s, [] => .ok (s, [])
  | s, f :: rest =>
    match fileBackupDirect C H s f with
    | .error e => .error e
    | .ok (s', ofi) =>
      match backupAllDirect C H s' rest with
      | .error e => .error e
      | .ok (s'', ofis) => .ok (s'', ofi :: ofis)

/-- A run ended by `close`, each block being written at once. -/
def backupRunDirect (C : Crypto) (H : Host) (s : Session cfg) (files : List SourceFile) :
    Except Fault (Session cfg × List (Option FileInformation)) :=
  match backupAllDirect C H s files with
  | .error e => .error e
  | .ok (s', ofis) => .ok (s'.close C H, ofis)

/-- A session without its queue of write requests, its limits and what counts the requests. -/
def unqueued (s : Session cfg) : Session cfg :=
  ⟨{ s.cache with
      nReadenvs := 0
      nQueuesz := 0
      writequeue := []
      nWriteRequests := 0
      nIterateWrites := 0 }, s.world⟩

/-- What a session comes to when its queue is drained. -/
def settle (C : Crypto) (H : Host) (s : Session cfg) : Except Fault (Session cfg) :=
  (unqueued s).runWriteRequests C H s.cache.writequeue

/-! ## Draining the queue -/

/-- Requests in two parts are run one part after the other. -/
theorem runWriteRequests_append (s : Session cfg) (wreqs rest : List WriteQueueEntity) :
    s.runWriteRequests C H (wreqs ++ rest) =
      (s.runWriteRequests C H wreqs).bind fun s' => s'.runWriteRequests C H rest := by
  induction wreqs generalizing s with
  | nil => rfl
  | cons wreq wreqs ih =>
    rw [List.cons_append, Session.runWriteRequests, Session.runWriteRequests]
    cases s.runWriteRequest C H wreq with
    | error f => rfl
    | ok s' => exact ih s'

/-- A request is written without regard to the queue. -/
theorem runWriteRequest_unqueued {s s' : Session cfg} {wreq : WriteQueueEntity}
    (h : s.runWriteRequest C H wreq = .ok s') :
    (unqueued s).runWriteRequest C H wreq = .ok (unqueued s') ∧
      s'.cache.writequeue = s.cache.writequeue ∧ s'.cache.nQueuesz = s.cache.nQueuesz := by
  unfold Session.runWriteRequest at h ⊢
  have hensure : (unqueued s).ensureWriteenv C H = s.ensureWriteenv C H := rfl
  rw [hensure]
  cases hbuffer : wreq.buffer with
  | none =>
    rw [hbuffer] at h
    cases h
    exact ⟨rfl, rfl, rfl⟩
  | some b =>
    rw [hbuffer] at h
    dsimp only at h ⊢
    cases hback : (s.ensureWriteenv C H).1.backup C H (s.ensureWriteenv C H).2
        (C.toHex256 wreq.fhash) wreq.fpos b b.len with
    | error f =>
      rw [hback] at h
      cases h
    | ok r =>
      rw [hback] at h
      cases h
      exact ⟨rfl, rfl, rfl⟩

/-- Running requests does not look at the queue. -/
theorem runWriteRequests_unqueued {s s' : Session cfg} {wreqs : List WriteQueueEntity}
    (h : s.runWriteRequests C H wreqs = .ok s') :
    (unqueued s).runWriteRequests C H wreqs = .ok (unqueued s') ∧
      s'.cache.writequeue = s.cache.writequeue ∧ s'.cache.nQueuesz = s.cache.nQueuesz := by
  induction wreqs generalizing s with
  | nil =>
    cases h
    exact ⟨rfl, rfl, rfl⟩
  | cons wreq wreqs ih =>
    rw [Session.runWriteRequests] at h ⊢
    cases hrun : s.runWriteRequest C H wreq with
    | error f =>
      rw [hrun] at h
      cases h
    | ok s₁ =>
      rw [hrun] at h
      obtain ⟨hfirst, hqueue₁, hsize₁⟩ := runWriteRequest_unqueued hrun
      obtain ⟨hrest, hqueue, hsize⟩ := ih h
      rw [hfirst]
      exact ⟨hrest, hqueue.trans hqueue₁, hsize.trans hsize₁⟩

/-- Draining the queue leaves what the session comes to, with an empty queue. -/
theorem iterateWriteQueue_settle {s s' : Session cfg} (h : s.iterateWriteQueue C H = .ok s') :
    settle C H s = .ok (unqueued s') ∧ s'.cache.writequeue = [] ∧
      s'.cache.nQueuesz = s.cache.nQueuesz := by
  unfold Session.iterateWriteQueue at h
  unfold settle
  split at h
  · next hnil =>
    cases h
    rw [hnil]
    exact ⟨rfl, rfl, rfl⟩
  · exact runWriteRequests_unqueued h

/-- **Submitting a request** leaves it to be written behind those in the queue. -/
theorem submitWrite_settle {s s' : Session cfg} (hdepth : 1 ≤ s.cache.nQueuesz)
    {wqe : WriteQueueEntity} (h : s.submitWrite C H wqe = .ok s') :
    settle C H s' = (unqueued s).runWriteRequests C H (s.cache.writequeue ++ [wqe]) ∧
      s'.cache.nQueuesz = s.cache.nQueuesz := by
  unfold Session.submitWrite Session.enqueueWriteRequest at h
  by_cases hfull : s.cache.nQueuesz ≤ s.cache.writequeue.length
  · rw [if_pos hfull] at h
    dsimp only at h
    rw [if_neg Bool.false_ne_true] at h
    cases hiter : s.iterateWriteQueue C H with
    | error f =>
      rw [hiter] at h
      cases h
    | ok s₁ =>
      obtain ⟨hsettle, hqueue, hsize⟩ := iterateWriteQueue_settle hiter
      rw [hiter] at h
      dsimp only at h
      rw [hqueue, List.length_nil, hsize, if_neg (by omega)] at h
      cases h
      rw [runWriteRequests_append]
      change _ = (settle C H s).bind _ ∧ _
      rw [hsettle]
      exact ⟨rfl, rfl⟩
  · rw [if_neg hfull] at h
    cases h
    exact ⟨rfl, rfl⟩

/-- **The loop of `file_backup`** leaves the pieces of the file to be written. -/
theorem backupLoop_settle {s s' : Session cfg} (hdepth : 1 ≤ s.cache.nQueuesz) {f : SourceFile}
    {fhash : Key256} {fsize fpos : ℕ} (h : s.backupLoop C H f fhash fsize fpos = .ok s') :
    settle C H s' = (unqueued s).runWriteRequests C H
        (s.cache.writequeue ++ (readPieces f fsize fpos).map (pieceRequest fhash)) ∧
      s'.cache.nQueuesz = s.cache.nQueuesz := by
  induction fpos using readPieces.induct fsize generalizing s with
  | case1 fpos hlt ih =>
    rw [Session.backupLoop, if_pos hlt] at h
    cases hsubmit : s.submitWrite C H (f.request fhash fsize fpos) with
    | error e =>
      rw [hsubmit] at h
      cases h
    | ok s₁ =>
      rw [hsubmit] at h
      obtain ⟨hsettle₁, hsize₁⟩ := submitWrite_settle hdepth hsubmit
      obtain ⟨hsettle, hsize⟩ := ih (hsize₁ ▸ hdepth) h
      refine ⟨?_, hsize.trans hsize₁⟩
      have hsplit : (readPieces f fsize fpos).map (pieceRequest fhash) =
          f.request fhash fsize fpos ::
            (readPieces f fsize (fpos + readSize fsize fpos)).map (pieceRequest fhash) := by
        conv_lhs => rw [readPieces, if_pos hlt]
        rfl
      rw [hsettle, runWriteRequests_append]
      change (settle C H s₁).bind _ = _
      rw [hsettle₁, hsplit, ← runWriteRequests_append, List.append_assoc]
      rfl
  | case2 fpos hge =>
    rw [Session.backupLoop, if_neg hge] at h
    cases h
    rw [readPieces, if_neg hge, List.map_nil, List.append_nil]
    exact ⟨rfl, rfl⟩

/-! ## Files -/

/-- A file that is skipped leaves the session as it is. -/
theorem fileBackup_of_none {s : Session cfg} {f : SourceFile} (h : backedUp C s f = none) :
    s.fileBackup C H f = .ok (s, none) := by
  unfold Session.fileBackup
  unfold backedUp at h
  cases hinfo : getFileInformation C f cfg.myId with
  | none => rfl
  | some fi =>
    rw [hinfo, Option.filter_some] at h
    dsimp only
    by_cases hsame : s.isUnchanged fi = true
    · exact if_pos hsame
    · rw [if_neg hsame]
      refine if_neg fun hopen => ?_
      simp [hsame, hopen] at h

/-- A file that is backed up goes through the loop and a last drain. -/
theorem fileBackup_of_some {s : Session cfg} {f : SourceFile} {fi : FileInformation}
    (h : backedUp C s f = some fi) :
    s.fileBackup C H f =
      ((s.backupLoop C H f (C.fromHex256 fi.fhash) fi.fsize 0).bind fun s' =>
        s'.iterateWriteQueue C H).map fun s' => (s'.addFInfo fi, some fi) := by
  obtain ⟨hinfo, hcond⟩ := Option.filter_eq_some_iff.mp h
  obtain ⟨hchanged, hopen⟩ := (Bool.and_eq_true _ _).mp hcond
  have hsame : ¬ s.isUnchanged fi = true := by simpa using hchanged
  unfold Session.fileBackup
  rw [hinfo]
  dsimp only
  rw [if_neg hsame, if_pos hopen]
  cases s.backupLoop C H f (C.fromHex256 fi.fhash) fi.fsize 0 with
  | error e => rfl
  | ok s₁ =>
    change _ = (s₁.iterateWriteQueue C H).map _
    dsimp only
    cases s₁.iterateWriteQueue C H with
    | error e => rfl
    | ok s₂ => rfl

/-- **One file** is backed up as without a queue. -/
theorem fileBackup_direct (hC : C.HexLawful) {s : Session cfg} (h : ReadyToBackup s)
    (f : SourceFile) :
    ∃ s', s.fileBackup C H f = .ok (s', backedUp C s f) ∧ ReadyToBackup s' ∧
      fileBackupDirect C H (unqueued s) f = .ok (unqueued s', backedUp C s f) := by
  obtain ⟨s', es, hback, hready, -⟩ := fileBackup_trace (H := H) hC h f
  refine ⟨s', hback, hready, ?_⟩
  have hsame : backedUp C (unqueued s) f = backedUp C s f := rfl
  unfold fileBackupDirect
  rw [hsame]
  cases hbacked : backedUp C s f with
  | none =>
    rw [fileBackup_of_none hbacked, hbacked] at hback
    cases hback
    rfl
  | some fi =>
    rw [fileBackup_of_some hbacked, hbacked] at hback
    cases hloop : s.backupLoop C H f (C.fromHex256 fi.fhash) fi.fsize 0 with
    | error e =>
      rw [hloop] at hback
      cases hback
    | ok s₁ =>
      rw [hloop] at hback
      change (s₁.iterateWriteQueue C H).map _ = _ at hback
      cases hiter : s₁.iterateWriteQueue C H with
      | error e =>
        rw [hiter] at hback
        cases hback
      | ok s₂ =>
        rw [hiter] at hback
        cases hback
        have hsettle := (backupLoop_settle h.nQueuesz hloop).1
        rw [(iterateWriteQueue_settle hiter).1, h.writequeue, List.nil_append] at hsettle
        dsimp only
        rw [← hsettle]
        rfl

/-- Backing up files through the queue comes to the same as backing them up directly. -/
theorem backupAll_direct (hC : C.HexLawful) {s : Session cfg} (h : ReadyToBackup s)
    (files : List SourceFile) :
    ∃ s' ofis, s.backupAll C H files = .ok (s', ofis) ∧
      backupAllDirect C H (unqueued s) files = .ok (unqueued s', ofis) := by
  induction files generalizing s with
  | nil => exact ⟨s, [], rfl, rfl⟩
  | cons f files ih =>
    obtain ⟨s₁, hback, hready, hdirect⟩ := fileBackup_direct (H := H) hC h f
    obtain ⟨s₂, ofis, hall, halldirect⟩ := ih hready
    refine ⟨s₂, backedUp C s f :: ofis, ?_, ?_⟩
    · rw [Session.backupAll, hback]
      dsimp only
      rw [hall]
    · rw [backupAllDirect, hdirect]
      dsimp only
      rw [halldirect]

/-- Closing does not look at the queue. -/
theorem close_unqueued (s : Session cfg) :
    (unqueued s).close C H = unqueued (s.close C H) := by
  have henv : (unqueued s).cache.writeenv = s.cache.writeenv := rfl
  unfold Session.close
  rw [henv]
  cases s.cache.writeenv with
  | none => rfl
  | some e => rfl

/-- **A backup run** writes what it would write without a queue. -/
theorem backupRun_direct (hC : C.HexLawful) {s : Session cfg} (h : ReadyToBackup s)
    (files : List SourceFile) :
    ∃ s' ofis, s.backupRun C H files = .ok (s', ofis) ∧
      backupRunDirect C H (unqueued s) files = .ok (unqueued s', ofis) := by
  obtain ⟨s₁, ofis, hall, hdirect⟩ := backupAll_direct (H := H) hC h files
  refine ⟨s₁.close C H, ofis, ?_, ?_⟩
  · unfold Session.backupRun
    rw [hall]
  · unfold backupRunDirect
    rw [hdirect]
    dsimp only
    rw [close_unqueued]

/-- **The queue is transparent.**  Whatever the size of its queue, a run of `LXRbackup` writes the
chunk files, log lines and documents of the run that hands each block to the write environment at
once. -/
theorem lxrBackup_batches (hC : C.HexLawful) (H : Host) (readXml : Bytes → Except Bytes Ptree)
    (cfg : CoqConfiguration) (w : World) (ref : Option Bytes) (finfos : CoqFInfoStore)
    (href : refFInfos C readXml ref = .ok finfos) (call : BackupCall) :
    ∃ s ofis, backupRunDirect C H (Session.init cfg 0 0 ∅ ∅ finfos w) call.files = .ok (s, ofis) ∧
      ∀ nEnvs depth, (hdepth : 1 ≤ depth) →
        lxrBackup C H readXml cfg w ref
            { call with nEnvs := nEnvs, depth := depth, depth_pos := hdepth } =
          .ok (s.world, call.documents C s) := by
  obtain ⟨s₀, ofis, -, hdirect⟩ := backupRun_direct (H := H) hC
    (readyToBackup_init (Nat.le_refl 1) ∅ ∅ finfos w : ReadyToBackup (Session.init cfg 1 1 _ _ _ _))
    call.files
  refine ⟨unqueued s₀, ofis, hdirect, fun nEnvs depth hdepth => ?_⟩
  obtain ⟨s, ofis', hrun, hdirect'⟩ := backupRun_direct (H := H) hC
    (readyToBackup_init hdepth ∅ ∅ finfos w : ReadyToBackup (Session.init cfg nEnvs depth _ _ _ _))
    call.files
  obtain ⟨hsame, -⟩ := Prod.mk.inj (Except.ok.inj (hdirect.symm.trans hdirect'))
  unfold lxrBackup
  rw [href]
  dsimp only
  rw [hrun, hsame]
  rfl

/-- The blocks of three files are backed up with a queue of one request, which is full after the first
of them, and with one of twelve. -/
theorem lxrBackup_batches_simple :
    let H := numberedHost fun _ _ => allWorks
    let call : BackupCall := ⟨1, 12, by decide, [plainFile (ascii "f") [1] (by decide),
      plainFile (ascii "g") [2, 3] (by decide), plainFile (ascii "h") [4] (by decide)], noOrigin,
      noOrigin, keptOrder, keptOrder, keptOrder⟩
    ∃ w docs, lxrBackup simple H parse config16 emptyWorld none call = .ok (w, docs) ∧
      lxrBackup simple H parse config16 emptyWorld none
        { call with depth := 1, depth_pos := Nat.le_refl 1 } = .ok (w, docs) := by
  intro H call
  obtain ⟨s, ofis, -, hbackup⟩ := lxrBackup_batches simple_lawful.hex H parse config16 emptyWorld none
    ∅ rfl call
  exact ⟨s.world, call.documents simple s, hbackup 1 12 (by decide), hbackup 1 1 (Nat.le_refl 1)⟩

end Elykseer.Analysis
