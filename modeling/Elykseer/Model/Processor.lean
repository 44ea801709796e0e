import Elykseer.Model.AssemblyCache

/-!
# The processor

`fileBackup` reads a file in blocks of `blockSz` bytes and hands them to the write queue
of the cache, unless the file-information store has an entry for the file with the same
checksum.  What `stat`, `fopen` and `fread` answer is part of the `SourceFile`.
-/

set_option autoImplicit false

namespace Elykseer.Model

open Elykseer.Foundation

variable {cfg : CoqConfiguration}

/-- `CoqProcessor::block_sz` -/
def blockSz : ℕ := 32768

/-- A file as a backup finds it. -/
structure SourceFile where
  /-- the path, as a string -/
  name : Bytes
  content : Bytes
  length_lt : content.length < 9223372036854775808
  uid : ℕ
  mode : ℕ
  /-- what `OS::time2string` prints for the modification time -/
  modified : Bytes
  /-- the file exists and `stat` succeeds -/
  stat : Bool
  /-- `fopen(.., "rb")` succeeds -/
  fopen : Bool
  /-- what `fread` returns at a position, if it is less than requested -/
  fread : ℕ → ℕ

/-- `CoqFilesupport::file_hash(fn, my_id)` -/
def fileHash (C : Crypto) (fn myId : Bytes) : Bytes := C.toHex256 (C.sha3 (fn ++ myId))

/-- `CoqFilesupport::get_file_information(fn, my_id)` -/
def getFileInformation (C : Crypto) (f : SourceFile) (myId : Bytes) : Option FileInformation :=
  if f.stat then
    some
      { fname := f.name
        fhash := fileHash C f.name myId
        fsize := f.content.length
        fowner := toString10 f.uid
        fpermissions := 100 * (f.mode / 64 % 8) + 10 * (f.mode / 8 % 8) + f.mode % 8
        fmodified := f.modified
        fchecksum := C.toHex256 (C.sha3 f.content) }
  else none

/-- The number of bytes asked for at `fpos`. -/
def readSize (fsize fpos : ℕ) : ℕ := min blockSz (fsize - fpos)

/-- The write request for the bytes read at `fpos`. -/
def SourceFile.request (f : SourceFile) (fhash : Key256) (fsize fpos : ℕ) : WriteQueueEntity :=
  ⟨fhash, fpos,
    some (CoqBuffer.ofBytes
      (Overlay.slice f.content fpos (min (readSize fsize fpos) (f.fread fpos))))⟩

namespace Session

/-- Enqueue a request; if the queue is full, drain it and try again. -/
def submitWrite (C : Crypto) (H : Host) (s : Session cfg) (wqe : WriteQueueEntity) :
    Except Fault (Session cfg) :=
  let r := s.enqueueWriteRequest wqe
  if r.2 then .ok r.1
  else
    match r.1.iterateWriteQueue C H with
    | .error e => .error e
    | .ok s' => .ok (s'.enqueueWriteRequest wqe).1

/-- The loop of `file_backup` from `fpos` on. -/
def backupLoop (C : Crypto) (H : Host) (f : SourceFile) (fhash : Key256) (fsize : ℕ)
    (s : Session cfg) (fpos : ℕ) : Except Fault (Session cfg) :=
  if fpos < fsize then
    match s.submitWrite C H (f.request fhash fsize fpos) with
    | .error e => .error e
    | .ok s' => backupLoop C H f fhash fsize s' (fpos + readSize fsize fpos)
  else .ok s
termination_by fsize - fpos
decreasing_by
  unfold readSize blockSz
  omega

/-- Deduplication level 1: the store has an entry with the same checksum. -/
def isUnchanged (s : Session cfg) (fi : FileInformation) : Bool :=
  match CoqStore.find s.cache.finfostore fi.fhash with
  | none => false
  | some prevfi => fi.fchecksum = prevfi.fchecksum

/-- The new entry of the file-information store. -/
def addFInfo (s : Session cfg) (fi : FileInformation) : Session cfg :=
  ⟨{ s.cache with finfostore := CoqFInfoStore.add s.cache.finfostore fi.fhash fi }, s.world⟩

/-- `CoqProcessor::file_backup(fp)` -/
def fileBackup (C : Crypto) (H : Host) (s : Session cfg) (f : SourceFile) :
    Except Fault (Session cfg × Option FileInformation) :=
  match getFileInformation C f cfg.myId with
  | none => .ok (s, none)
  | some fi =>
    if s.isUnchanged fi then .ok (s, none)
    else if f.fopen then
      match s.backupLoop C H f (C.fromHex256 fi.fhash) fi.fsize 0 with
      | .error e => .error e
      | .ok s' =>
        match s'.iterateWriteQueue C H with
        | .error e => .error e
        | .ok s'' => .ok (s''.addFInfo fi, some fi)
    else .ok (s, none)

/-- A sequence of `file_backup` calls, with what each returns. -/
def backupAll (C : Crypto) (H : Host) :
    Session cfg → List SourceFile →
      Except Fault (Session cfg × List (Option FileInformation))
  | s, [] => .ok (s, [])
  | s, f :: rest =>
    match s.fileBackup C H f with
    | .error e => .error e
    | .ok (s', ofi) =>
      match backupAll C H s' rest with
      | .error e => .error e
      | .ok (s'', ofis) => .ok (s'', ofi :: ofis)

/-- A backup run: the files in order, then `close()`. -/
def backupRun (C : Crypto) (H : Host) (s : Session cfg) (files : List SourceFile) :
    Except Fault (Session cfg × List (Option FileInformation)) :=
  match s.backupAll C H files with
  | .error e => .error e
  | .ok (s', ofis) => .ok (s'.close C H, ofis)

end Session

end Elykseer.Model
