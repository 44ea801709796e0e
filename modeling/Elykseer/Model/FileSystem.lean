import Mathlib.Data.Nat.Digits.Defs
import Mathlib.Logic.Function.Basic
import Elykseer.Model.Buffer

/-!
# Configuration and chunk directory

`Nchunks` clamps to 16..256.  The chunk directory is a map from paths to contents,
together with the directories that exist; a path is the list of its components, the
configured `path_chunks` being the first one.  A file only exists in an existing
directory.

What the operating system answers while a chunk is written is `ChunkIO`.  The random
numbers and these answers come from a `Host`: the i-th assembly that is created and the
i-th assembly that is encrypted find their numbers and answers at index i.  `World` is
what changes: the file system, the two counters and the messages written to `std::clog`
by the environments.
-/

set_option autoImplicit false

namespace Elykseer.Model

open Elykseer.Foundation

/-! ## Configuration -/

/-- `Nchunks` -/
structure Nchunks where
  u : ℕ
  min_le : 16 ≤ u
  le_max : u ≤ 256
  deriving DecidableEq

/-- `Nchunks(int n)` -/
def Nchunks.ofInt (n : ℤ) : Nchunks :=
  ⟨(min 256 (max 16 n)).toNat, by omega, by omega⟩

/-- `sequence()`: the chunk numbers 1..n. -/
def Nchunks.sequence (n : Nchunks) : List ℕ := List.range' 1 n.u

/-- The chunks are numbered from one on. -/
theorem Nchunks.mem_sequence {n : Nchunks} {cid : ℕ} :
    cid ∈ n.sequence ↔ 1 ≤ cid ∧ cid ≤ n.u := by
  unfold sequence
  rw [List.mem_range'_1]
  omega

/-- `CoqConfiguration` -/
structure CoqConfiguration where
  nchunks : Nchunks
  pathChunks : Bytes
  myId : Bytes
  deriving DecidableEq

/-! ## Files -/

/-- A path, component by component. -/
abbrev Path := List Bytes

/-- The files and directories of the chunk directory. -/
structure FileSystem where
  files : Path → Option Bytes
  dirs : Path → Bool
  parent : ∀ p, (files p).isSome = true → dirs p.dropLast = true

/-- The directories after `create_directories` for the first `k` parts of `p`: below the last one that
exists the missing ones are made, one after the other, up to the first that `mkdir` says cannot be
made; and whether all are there then. -/
def makeLevels (mkdir : Path → Bool) (dirs : Path → Bool) (p : Path) : ℕ → (Path → Bool) × Bool
  | 0 => (dirs, true)
  | k + 1 =>
    if dirs (p.take (k + 1)) then (dirs, true)
    else
      let r := makeLevels mkdir dirs p k
      if r.2 && mkdir (p.take (k + 1)) then (Function.update r.1 (p.take (k + 1)) true, true)
      else (r.1, false)

/-- No directory is removed. -/
theorem makeLevels_mono (mkdir : Path → Bool) {dirs : Path → Bool} (p : Path) (k : ℕ) {q : Path}
    (hq : dirs q = true) : (makeLevels mkdir dirs p k).1 q = true := by
  induction k with
  | zero => exact hq
  | succ k ih =>
    rw [makeLevels]
    split
    · exact hq
    · dsimp only
      split
      · change Function.update (makeLevels mkdir dirs p k).1 (p.take (k + 1)) true q = true
        by_cases heq : q = p.take (k + 1)
        · rw [heq, Function.update_self]
        · rw [Function.update_of_ne heq]
          exact ih
      · exact ih

namespace FileSystem

/-- `std::filesystem::create_directories(p, ec)`, and whether `ec` is not set.  The directories that
were made before the first failure stay. -/
def createDirectories (fs : FileSystem) (p : Path) (mkdir : Path → Bool) : FileSystem × Bool :=
  let r := makeLevels mkdir fs.dirs p p.length
  ({ files := fs.files
     dirs := r.1
     parent := fun q hq => makeLevels_mono mkdir p p.length (fs.parent q hq) }, r.2)

/-- The file at `p`, created or replaced. -/
def writeFile (fs : FileSystem) (p : Path) (content : Bytes) (h : fs.dirs p.dropLast = true) :
    FileSystem where
  files := Function.update fs.files p (some content)
  dirs := fs.dirs
  parent := fun q hq => by
    by_cases hqp : q = p
    · rwa [hqp]
    · rw [Function.update_of_ne hqp] at hq
      exact fs.parent q hq

end FileSystem

/-- The answers of the operating system while one chunk is written. -/
structure ChunkIO where
  /-- whether a missing directory can be made -/
  mkdir : Path → Bool
  /-- `fopen(.., "wb")` succeeds -/
  fopen : Bool
  /-- what `fwrite` returns, if it is less than requested -/
  fwrite : ℕ
  /-- `none` if `fclose` succeeds, else the number of written bytes that reached the file -/
  fclose : Option ℕ

/-- How many of `sz` bytes handed to `fwrite` are in the file in the end. -/
def ChunkIO.kept (io : ChunkIO) (sz : ℕ) : ℕ :=
  min (min io.fwrite sz) (io.fclose.getD sz)

/-! ## The host -/

/-- The random numbers of a new assembly: its header, 32 bytes at a time, and the number its
identifier is made from. -/
structure AssemblyDraw where
  header : ℕ → Key256
  aid : Key256

/-- The random numbers of a `KeyInformation`, and the answers of the operating system while the
chunks encrypted with it are written, by chunk number. -/
structure FinaliseDraw where
  ivec : Key128
  pkey : Key256
  io : ℕ → ChunkIO

/-- Random numbers and answers of the operating system, in the order they are asked for. -/
structure Host where
  assembly : ℕ → AssemblyDraw
  finalise : ℕ → FinaliseDraw
  /-- whether a missing directory can be made while chunks are read -/
  mkdir : Path → Bool

/-- The messages of the environments on `std::clog`. -/
inductive LogLine
  | unsupportedFormat (aid version : Bytes)
  | failedToEncrypt (aid : Bytes)
  | failedToExtract (aid : Bytes) (nwritten : ℕ)
  | doesNotFit (dlen : ℕ)
  deriving DecidableEq

/-- The assembly a message reports as failed. -/
def LogLine.failedAid : LogLine → Option Bytes
  | .unsupportedFormat _ _ => none
  | .failedToEncrypt aid => some aid
  | .failedToExtract aid _ => some aid
  | .doesNotFit _ => none

/-- The assemblies that were reported as failed, in order. -/
def failedAids (clog : List LogLine) : List Bytes := clog.filterMap LogLine.failedAid

/-- The failures of a log, in two parts. -/
@[simp] theorem failedAids_append (clog clog' : List LogLine) :
    failedAids (clog ++ clog') = failedAids clog ++ failedAids clog' :=
  List.filterMap_append

/-- What the operations change outside of their objects. -/
structure World where
  fs : FileSystem
  /-- assemblies created so far -/
  nassembly : ℕ
  /-- `KeyInformation`s drawn so far -/
  nfinalise : ℕ
  clog : List LogLine

/-- `std::to_string` -/
def toString10 (n : ℕ) : Bytes :=
  if n = 0 then [48] else ((Nat.digits 10 n).map fun d => 48 + d.toUInt8).reverse

end Elykseer.Model
