import Elykseer.Foundation.Filesystem
import Elykseer.Model.Processor

/-!
# Directories

Where the tools touch the file tree itself.  `CoqProcessor` backs up the files of a
directory, and of the directories below it; an entry that is a symbolic link counts as
what it leads to.  `LXRrestore` finds the target of a file below the output directory,
makes the directories it needs and creates the file, which must not exist.

An exception of `std::filesystem` is an `Errno`; it ends the tool.
-/

set_option autoImplicit false

namespace Elykseer.Model

open Elykseer.Foundation

/-! ## Backup -/

/-- How a recursive backup ends early. -/
inductive Stop
  /-- an exception of `std::filesystem` -/
  | filesystemError (e : Errno)
  | outOfFuel
  deriving DecidableEq, Repr

/-- What fails while directories are read and does not follow from the tree: missing permissions, paths
that are too long, too many open directories. -/
structure ReadErrors where
  /-- the status of a path, where it is asked for: by `is_directory(fp)`, for the type of an entry, and
  by `file_backup`, which cannot go on without it -/
  status : PathText Bytes → Option Errno
  /-- `directory_iterator(fp)`, or reading on, while a number of other directories are open -/
  iterate : ℕ → PathText Bytes → Option Errno

/-- Everything that is there can be read. -/
def noReadErrors : ReadErrors := ⟨fun _ => none, fun _ _ => none⟩

section Backup

variable {σ : Type} (V : View Bytes) (L : Listing V.tree) (E : ReadErrors)

/-- `std::filesystem::is_directory(fp)` -/
def isDirectory (fp : PathText Bytes) : Except Errno Bool :=
  match E.status fp with
  | some e => .error e
  | none => V.isDirectory fp

/-- `std::filesystem::is_regular_file(fp)` -/
def isRegularFile (fp : PathText Bytes) : Except Errno Bool :=
  match E.status fp with
  | some e => .error e
  | none => V.isRegularFile fp

/-- The names `std::filesystem::directory_iterator(fp)` goes through, with `level` other directories
open. -/
def directoryIterator (level : ℕ) (fp : PathText Bytes) : Except Errno (List Bytes) :=
  match E.iterate level fp with
  | some e => .error e
  | none => (V.resolve fp).map L.entries

/-- One round of `directory_backup`: a file `directory_files` yields is backed up. -/
def backupEntry (fileBackup : σ → PathText Bytes → σ) (fp : PathText Bytes) (this : σ)
    (name : Bytes) : Except Errno σ :=
  match isRegularFile V E (fp.join [name]) with
  | .error e => .error e
  | .ok isFile => .ok (if isFile then fileBackup this (fp.join [name]) else this)

/-- `CoqProcessor::directory_backup(fp)` -/
def directoryBackup (fileBackup : σ → PathText Bytes → σ) (level : ℕ) (this : σ)
    (fp : PathText Bytes) : Except Errno σ :=
  match isDirectory V E fp with
  | .error e => .error e
  | .ok false => .ok this
  | .ok true =>
    match directoryIterator V L E level fp with
    | .error e => .error e
    | .ok names => names.foldlM (backupEntry V E fileBackup fp) this

/-- One round of `recursive_backup`: the recursion goes into what `directory_subdirs` yields. -/
def backupSubdir (recurse : σ → PathText Bytes → Except Stop σ) (fp : PathText Bytes) (this : σ)
    (name : Bytes) : Except Stop σ :=
  match isDirectory V E (fp.join [name]) with
  | .error e => .error (.filesystemError e)
  | .ok isDir => if isDir then recurse this (fp.join [name]) else .ok this

/-- The recursion of `recursive_backup`, with what is done for every directory.  The directory that is
gone through stays open during the recursion. -/
def recursiveWalk (directory : ℕ → σ → PathText Bytes → Except Errno σ) :
    (fuel : ℕ) → (level : ℕ) → σ → PathText Bytes → Except Stop σ
  | 0, _, _, _ => .error .outOfFuel
  | fuel + 1, level, this, fp =>
    match isDirectory V E fp with
    | .error e => .error (.filesystemError e)
    | .ok false => .ok this
    | .ok true =>
      match directory level this fp with
      | .error e => .error (.filesystemError e)
      | .ok this' =>
        match directoryIterator V L E level fp with
        | .error e => .error (.filesystemError e)
        | .ok names =>
          names.foldlM (backupSubdir V E (recursiveWalk directory fuel (level + 1)) fp) this'

/-- `CoqProcessor::recursive_backup(fp)` -/
def recursiveBackup (fileBackup : σ → PathText Bytes → σ) (fuel : ℕ) (this : σ)
    (fp : PathText Bytes) : Except Stop σ :=
  recursiveWalk V L E (directoryBackup V L E fileBackup) fuel 0 this fp

end Backup

/-- `file_backup` on the state of a processor, for the files found at the paths; nothing is done
any more after a fault. -/
def Session.fileBackupAt {cfg : CoqConfiguration} (C : Crypto) (H : Host)
    (source : PathText Bytes → SourceFile) (s : Except Fault (Session cfg))
    (fp : PathText Bytes) : Except Fault (Session cfg) :=
  match s with
  | .error f => .error f
  | .ok s => (s.fileBackup C H (source fp)).map Prod.fst

/-! ## Restore -/

/-- The component a name between separators stands for. -/
def component (name : Bytes) : Component Bytes :=
  if name = [] ∨ name = [46] then .here
  else if name = [46, 46] then .up
  else .name name

/-- `std::filesystem::path(s)` -/
def pathOf (s : Bytes) : PathText Bytes where
  absolute := s.head? = some 47
  parts := if s = [] then [] else (s.splitOn 47).map component

/-- Why a file is not restored. -/
inductive Refusal
  /-- "contains '..'" -/
  | containsUp
  /-- "empty file name" -/
  | emptyName
  /-- "cannot resolve path" -/
  | unresolved
  /-- "resolves outside of the output directory" -/
  | outside
  deriving DecidableEq, Repr

/-- The loop of `contained_target` over the parts of the file name. -/
def relativeParts : List (Component Bytes) → Except Refusal (List Bytes)
  | [] => .ok []
  | .up :: _ => .error .containsUp
  | .here :: rest => relativeParts rest
  | .name n :: rest => (relativeParts rest).map (n :: ·)

/-- `contained_target(base, fname)` -/
def containedTarget (V : View Bytes) (base : PathText Bytes) (fname : Bytes) :
    Except Refusal (PathText Bytes) :=
  match relativeParts (pathOf fname).parts with
  | .error e => .error e
  | .ok [] => .error .emptyName
  | .ok (n :: ns) =>
    match V.weaklyCanonical base, V.weaklyCanonical (base.join (n :: ns)) with
    | .ok cbase, .ok ctarget =>
      let rest := mismatch cbase.elements ctarget.elements
      if rest.1 ≠ [] ∨ rest.2 = [] then .error .outside else .ok (base.join (n :: ns))
    | _, _ => .error .unresolved

/-- `parent_path()` of a path that ends in a name. -/
def parentPath (fp : PathText Bytes) : PathText Bytes := { fp with parts := fp.parts.dropLast }

/-- What `LXRrestore` has done when the target of one file is open, or cannot be opened. -/
structure TargetRun where
  view : View Bytes
  /-- the paths of the directories and files created -/
  created : List (PathText Bytes)
  /-- `tgt`: the file open for writing -/
  opened : Option (List Bytes)
  /-- the exception that ends the tool -/
  exception : Option Errno

/-- The missing parent directories of a target. -/
def createParents (V : View Bytes) (dir : PathText Bytes) : Creation Bytes :=
  match V.exists_ dir with
  | .error e => ⟨V, [], some e⟩
  | .ok true => ⟨V, [], none⟩
  | .ok false => V.createDirectories dir

/-- `LXRrestore` for one file name up to `fopen(fp, "wx")`, which it only comes to if it has a list
of blocks for the file. -/
def openTarget (V : View Bytes) (base : PathText Bytes) (fname : Bytes) (hasBlocks : Bool) :
    TargetRun :=
  match containedTarget V base fname with
  | .error _ => ⟨V, [], none, none⟩
  | .ok fp =>
    let dirs := createParents V (parentPath fp)
    match dirs.error with
    | some e => ⟨dirs.view, dirs.created, none, some e⟩
    | none =>
      if hasBlocks then
        match dirs.view.create fp .regular with
        | .error _ => ⟨dirs.view, dirs.created, none, none⟩
        | .ok (loc, V') => ⟨V', dirs.created ++ [fp], some loc, none⟩
      else ⟨dirs.view, dirs.created, none, none⟩

/-- What `LXRrestore` has done after the targets of some files. -/
structure TargetsRun where
  view : View Bytes
  created : List (PathText Bytes)
  /-- the files that were opened, in order -/
  opened : List (List Bytes)

/-- The loop of `LXRrestore` over the files, which ends at an exception. -/
def openTargets (base : PathText Bytes) : View Bytes → List (Bytes × Bool) → TargetsRun
  | V, [] => ⟨V, [], []⟩
  | V, (fname, hasBlocks) :: rest =>
    let r := openTarget V base fname hasBlocks
    match r.exception with
    | some _ => ⟨r.view, r.created, r.opened.toList⟩
    | none =>
      let s := openTargets base r.view rest
      ⟨s.view, r.created ++ s.created, r.opened.toList ++ s.opened⟩

end Elykseer.Model
