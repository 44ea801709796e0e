import Elykseer.Model.Directories
import Elykseer.Model.Tools

/-!
# `LXRbackup` on paths

What `main` of `LXRbackup` does once the options are read: it backs up the files of some
directories, then some directories with all that is below them, then single files, and
closes the processor.  An exception of `std::filesystem` ends it before the documents
are written.
-/

set_option autoImplicit false

namespace Elykseer.Model

open Elykseer.Foundation Elykseer.Foundation.Xml

/-- What `LXRbackup` is asked to back up. -/
structure BackupPaths where
  /-- `list_dir1` -/
  dir1 : List (PathText Bytes)
  /-- `list_dir` -/
  dirs : List (PathText Bytes)
  /-- `list_files` -/
  files : List (PathText Bytes)

/-- `operator/` of `std::filesystem::path` for a name, on the strings. -/
def appendName (s n : Bytes) : Bytes :=
  if s = [] ∨ s.getLast? = some 47 then s ++ n else s ++ 47 :: n

/-- The string of the path that the names lead to from `root`. -/
def stringBelow (root : Bytes) (ns : List Bytes) : Bytes := ns.foldl appendName root

section Paths

variable {σ : Type} (V : View Bytes) (L : Listing V.tree) (E : ReadErrors)

/-- The three loops of `main`. -/
def backupPaths (fileBackup : σ → PathText Bytes → σ) (fuel : ℕ) (qproc : σ)
    (paths : BackupPaths) : Except Stop σ :=
  match paths.dir1.foldlM (directoryBackup V L E fileBackup 0) qproc with
  | .error e => .error (.filesystemError e)
  | .ok qproc' =>
    match paths.dirs.foldlM (recursiveBackup V L E fileBackup fuel) qproc' with
    | .error e => .error e
    | .ok qproc'' => .ok (paths.files.foldl fileBackup qproc'')

end Paths

/-- `LXRbackup`, for the files found at the paths; of the call it takes all but the list of files. -/
def lxrBackupPaths (C : Crypto) (H : Host) (readXml : Bytes → Except Bytes Ptree)
    (cfg : CoqConfiguration) (w : World) (ref : Option Bytes) (call : BackupCall)
    (V : View Bytes) (L : Listing V.tree) (E : ReadErrors) (source : PathText Bytes → SourceFile)
    (fuel : ℕ) (paths : BackupPaths) : Except Stop (Except Exit (World × Documents)) :=
  match refFInfos C readXml ref with
  | .error e => .ok (.error e)
  | .ok finfos =>
    match backupPaths V L E (Session.fileBackupAt C H source) fuel
      (.ok (Session.init cfg call.nEnvs call.depth ∅ ∅ finfos w)) paths with
    | .error e => .error e
    | .ok (.error f) => .ok (.error (.fault f))
    | .ok (.ok qproc) =>
      .ok (.ok ((qproc.close C H).world, call.documents C (qproc.close C H)))

end Elykseer.Model
