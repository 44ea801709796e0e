import Elykseer.Model.Processor

/-!
# Restoring and verifying one file

The loops of `LXRrestore` and `LXRverify` over the blocks of a file: the blocks go
through the bounded read queue of the cache, which is drained when it is full and once
more at the end.  The output directory is a map from paths to contents, apart from the
chunk directory; writing to it succeeds.
-/

set_option autoImplicit false

namespace Elykseer.Model

open Elykseer.Foundation

variable {cfg : CoqConfiguration}

/-- A file open for writing. -/
structure OutFile where
  content : Bytes
  pos : ℕ

/-- `fseek(tgt, fpos, SEEK_SET)`; an offset that is no `long` is refused. -/
def OutFile.fseek (f : OutFile) (fpos : ℕ) : OutFile :=
  if fpos < 9223372036854775808 then { f with pos := fpos } else f

/-- `fwrite` at the current position -/
def OutFile.fwrite (f : OutFile) (d : Bytes) : OutFile :=
  ⟨Overlay.writeAt 0 f.content f.pos d, f.pos + d.length⟩

/-- The read request for a block. -/
def BlockInformation.request (bi : BlockInformation) : ReadQueueEntity :=
  ⟨bi.blockaid, bi.blockapos, bi.blocksize, bi.filepos, bi.bchecksum⟩

/-- The output file and the counters of the restore loop, two of 64 and two of 32 bits. -/
structure RestoreState where
  tgt : OutFile
  nExpected : ℕ
  nRestored : ℕ
  nBlocks : ℕ
  nBlocksOk : ℕ

namespace RestoreState

/-- The state when the loop begins. -/
def init : RestoreState := ⟨⟨[], 0⟩, 0, 0, 0, 0⟩

/-- One round of `process_read_blocks`. -/
def processResult (st : RestoreState) (rqr : ReadQueueResult) : RestoreState :=
  match rqr.rresult with
  | none => st
  | some b =>
    let r := b.fileoutSzPos 0 (i32 b.len)
    let tgt := (st.tgt.fseek rqr.readrequest.fpos).fwrite r.2
    if r.1 = i32 b.len then
      { st with
        tgt := tgt
        nRestored := (st.nRestored + r.1.toNat) % 18446744073709551616
        nBlocksOk := (st.nBlocksOk + 1) % 4294967296 }
    else { st with tgt := tgt }

/-- `process_read_blocks(rqrs)` -/
def processReadBlocks (st : RestoreState) (rqrs : List ReadQueueResult) : RestoreState :=
  rqrs.foldl processResult st

/-- A block is counted before it is enqueued. -/
def expect (st : RestoreState) (bi : BlockInformation) : RestoreState :=
  { st with
    nExpected := (st.nExpected + bi.blocksize) % 18446744073709551616
    nBlocks := (st.nBlocks + 1) % 4294967296 }

/-- All blocks were restored. -/
def isOk (st : RestoreState) : Bool :=
  st.nBlocksOk = st.nBlocks && st.nRestored = st.nExpected

end RestoreState

/-- The counters of the verify loop. -/
structure VerifyState where
  nBlocks : ℕ
  nBlocksOk : ℕ

namespace VerifyState

/-- The state when the loop begins. -/
def init : VerifyState := ⟨0, 0⟩

/-- One round of `process_read_blocks`. -/
def processResult (C : Crypto) (st : VerifyState) (rqr : ReadQueueResult) : VerifyState :=
  match rqr.rresult with
  | none => st
  | some b =>
    match b.calcChecksum C with
    | .ok (some chksum) =>
      if C.toHex256 chksum = C.toHex256 rqr.readrequest.chksum then
        { st with nBlocksOk := (st.nBlocksOk + 1) % 4294967296 }
      else st
    | _ => st

/-- `process_read_blocks(rqrs)` -/
def processReadBlocks (C : Crypto) (st : VerifyState) (rqrs : List ReadQueueResult) :
    VerifyState :=
  rqrs.foldl (processResult C) st

/-- A block is counted before it is enqueued. -/
def expect (st : VerifyState) : VerifyState :=
  { st with nBlocks := (st.nBlocks + 1) % 4294967296 }

/-- All blocks were verified. -/
def isOk (st : VerifyState) : Bool := st.nBlocksOk = st.nBlocks

end VerifyState

namespace Session

/-- Enqueue the request of a block; if the queue is full, drain it, process the results and
try again. -/
def submitRead {σ : Type} (C : Crypto) (H : Host)
    (process : σ → List ReadQueueResult → σ) (s : Session cfg) (st : σ)
    (rqe : ReadQueueEntity) : Except Fault (Session cfg × σ) :=
  let r := s.enqueueReadRequest rqe
  if r.2 then .ok (r.1, st)
  else
    match r.1.iterateReadQueue C H with
    | .error e => .error e
    | .ok (s', rqrs) => .ok ((s'.enqueueReadRequest rqe).1, process st rqrs)

/-- The loop over the blocks of a file, and the final drain. -/
def readBlocks {σ : Type} (C : Crypto) (H : Host) (process : σ → List ReadQueueResult → σ)
    (expect : σ → BlockInformation → σ) :
    Session cfg → σ → List BlockInformation → Except Fault (Session cfg × σ)
  | s, st, [] =>
    match s.iterateReadQueue C H with
    | .error e => .error e
    | .ok (s', rqrs) => .ok (s', process st rqrs)
  | s, st, bi :: rest =>
    match s.submitRead C H process (expect st bi) bi.request with
    | .error e => .error e
    | .ok (s', st') => readBlocks C H process expect s' st' rest

/-- What `LXRrestore` does with the blocks of one file and its target path `fp`, which must not
exist before: the output directory afterwards, and whether the file was restored. -/
def restoreFile (C : Crypto) (H : Host) (s : Session cfg) (out : Path → Option Bytes) (fp : Path)
    (fbs : List BlockInformation) :
    Except Fault (Session cfg × (Path → Option Bytes) × Bool) :=
  if (out fp).isSome then .ok (s, out, false)
  else
    match s.readBlocks C H RestoreState.processReadBlocks RestoreState.expect
      RestoreState.init fbs with
    | .error e => .error e
    | .ok (s', st) =>
      if st.isOk then .ok (s', Function.update out fp (some st.tgt.content), true)
      else .ok (s', Function.update out fp none, false)

/-- What `LXRrestore` does with a file it is asked for by name: it is counted as failed if there is
no list of blocks for it or no target, which `contained_target` finds. -/
def restorePath (C : Crypto) (H : Host) (s : Session cfg) (out : Path → Option Bytes)
    (fname : Bytes) (target : Option Path) :
    Except Fault (Session cfg × (Path → Option Bytes) × Bool) :=
  match CoqStore.find s.cache.fblockstore (fileHash C fname cfg.myId), target with
  | some fbs, some fp => s.restoreFile C H out fp fbs
  | _, _ => .ok (s, out, false)

/-- What `LXRverify` does with the blocks of one file: whether they all verify. -/
def verifyFile (C : Crypto) (H : Host) (s : Session cfg) (fbs : List BlockInformation) :
    Except Fault (Session cfg × Bool) :=
  match s.readBlocks C H (VerifyState.processReadBlocks C) (fun st _ => st.expect)
    VerifyState.init fbs with
  | .error e => .error e
  | .ok (s', st) => .ok (s', st.isOk)

end Session

end Elykseer.Model
