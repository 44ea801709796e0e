import Elykseer.Model.Directories
import Elykseer.Model.Restore

/-!
# Runs of `LXRrestore` and `LXRverify`

What the two tools do once the options are read.  Both look up the block lists of the
files they are asked for by name and blank the names that have none.  `LXRrestore` then
creates each file below the output directory, restores its blocks, and removes it again
unless all of them were restored; `LXRverify` only reads.

The output is a file tree with the contents of its regular files; writing to an open
file succeeds.  Of `LXRbackup` there is the exit status.
-/

set_option autoImplicit false

namespace Elykseer.Model

open Elykseer.Foundation

variable {cfg : CoqConfiguration}

/-- How a tool ends early. -/
inductive Abort
  | fault (f : Fault)
  /-- an exception of `std::filesystem` -/
  | filesystemError (e : Errno)
  deriving DecidableEq, Repr

/-- The numbers of read environments and of queue entries both tools ask for. -/
def toolEnvs : ℕ := 3

/-- See `toolEnvs`. -/
def toolDepth : ℕ := 12

/-- The file names after the check for meta data, those without being blanked, and
`corr_files`. -/
def prepareFiles (C : Crypto) (cfg : CoqConfiguration) (fblocks : CoqFBlockStore)
    (names : List Bytes) : List Bytes × ℕ :=
  (names.map fun n => if CoqStore.contains fblocks (fileHash C n cfg.myId) then n else [],
    names.countP fun n => !CoqStore.contains fblocks (fileHash C n cfg.myId))

/-! ## `LXRbackup` -/

/-- The exit status of `LXRbackup`, with what `encrypted_output` returned for the two documents. -/
def backupStatus (keysWritten filesWritten : Bool) (s : Session cfg) : ℕ :=
  if keysWritten && filesWritten && !decide (0 < s.nAssemblyFailed) then 0 else 1

/-! ## `LXRrestore` -/

/-- The state of the main loop. -/
structure RestoreRun (cfg : CoqConfiguration) where
  session : Session cfg
  view : View Bytes
  /-- the bytes of the regular files -/
  content : List Bytes → Bytes
  failedFiles : ℕ

namespace RestoreRun

/-- One round of the main loop, for a target below the output directory. -/
def restoreTarget (C : Crypto) (H : Host) (base : PathText Bytes) (st : RestoreRun cfg)
    (fname : Bytes) (fp : PathText Bytes) : RestoreRun cfg × Option Abort :=
  let ofbs := CoqStore.find st.session.cache.fblockstore (fileHash C fname cfg.myId)
  let r := openTarget st.view base fname ofbs.isSome
  match r.exception, ofbs, r.opened with
  | some e, _, _ => ({ st with view := r.view }, some (.filesystemError e))
  | none, none, _ => ({ st with view := r.view }, none)
  | none, some _, none => ({ st with view := r.view, failedFiles := st.failedFiles + 1 }, none)
  | none, some fbs, some loc =>
    match st.session.readBlocks C H RestoreState.processReadBlocks RestoreState.expect
      RestoreState.init fbs with
    | .error f => ({ st with view := r.view }, some (.fault f))
    | .ok (s', blocks) =>
      let content := Function.update st.content loc blocks.tgt.content
      if blocks.isOk then (⟨s', r.view, content, st.failedFiles⟩, none)
      else
        match r.view.unlink fp with
        | .error e => (⟨s', r.view, content, st.failedFiles⟩, some (.filesystemError e))
        | .ok V => (⟨s', V, content, st.failedFiles + 1⟩, none)

/-- One round of the main loop. -/
def restoreName (C : Crypto) (H : Host) (base : PathText Bytes) (st : RestoreRun cfg)
    (fname : Bytes) : RestoreRun cfg × Option Abort :=
  if fname = [] then (st, none)
  else
    match containedTarget st.view base fname with
    | .error _ => ({ st with failedFiles := st.failedFiles + 1 }, none)
    | .ok fp => st.restoreTarget C H base fname fp

/-- The main loop. -/
def restoreNames (C : Crypto) (H : Host) (base : PathText Bytes) :
    RestoreRun cfg → List Bytes → RestoreRun cfg × Option Abort
  | st, [] => (st, none)
  | st, fname :: rest =>
    match st.restoreName C H base fname with
    | (st', some e) => (st', some e)
    | (st', none) => restoreNames C H base st' rest

end RestoreRun

/-- `LXRrestore` with an output directory, the files to restore, and the stores read from the
documents. -/
def lxrRestore (C : Crypto) (H : Host) (cfg : CoqConfiguration) (keys : CoqKeyStore)
    (fblocks : CoqFBlockStore) (w : World) (V : View Bytes) (content : List Bytes → Bytes)
    (base : PathText Bytes) (names : List Bytes) : RestoreRun cfg × Option Abort :=
  let files := prepareFiles C cfg fblocks names
  RestoreRun.restoreNames C H base
    ⟨Session.init cfg toolEnvs toolDepth keys fblocks ∅ w, V, content, files.2⟩ files.1

/-- The exit status, if the tool comes to its end. -/
def restoreStatus (r : RestoreRun cfg × Option Abort) : Option ℕ :=
  match r.2 with
  | some _ => none
  | none => some (if 0 < r.1.failedFiles then 1 else 0)

/-! ## `LXRverify` -/

/-- The main loop, with `res` so far. -/
def verifyNames (C : Crypto) (H : Host) :
    Session cfg → Bool → List Bytes → Except Fault (Session cfg × Bool)
  | s, res, [] => .ok (s, res)
  | s, res, fname :: rest =>
    if fname = [] then verifyNames C H s res rest
    else
      match CoqStore.find s.cache.fblockstore (fileHash C fname cfg.myId) with
      | none => verifyNames C H s res rest
      | some fbs =>
        match s.verifyFile C H fbs with
        | .error f => .error f
        | .ok (s', ok) => verifyNames C H s' (ok && res) rest

/-- `LXRverify` on the stores read from the documents: `res`, true for exit status 0. -/
def lxrVerify (C : Crypto) (H : Host) (cfg : CoqConfiguration) (keys : CoqKeyStore)
    (fblocks : CoqFBlockStore) (w : World) (names : List Bytes) :
    Except Fault (Session cfg × Bool) :=
  let files := prepareFiles C cfg fblocks names
  verifyNames C H (Session.init cfg toolEnvs toolDepth keys fblocks ∅ w) (files.2 = 0) files.1

end Elykseer.Model
