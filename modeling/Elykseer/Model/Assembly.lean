import Elykseer.Foundation.Striping
import Elykseer.Model.FileSystem

/-!
# Assemblies

The three forms of an assembly: writable, full and encrypted.  Each is made for a
configuration, which is constant in the code and a parameter here, and carries its
`AssemblyInformation` and a buffer of `assemblysize` bytes; that the buffer has this
length is part of the structure.  An assembly that was handed on (`finish`, `encrypt`,
`decrypt`, `extract` reset its buffer) is not represented: every caller drops it.

`extract` and `recall` go through the chunk numbers in order, one file for each chunk.
-/

set_option autoImplicit false

namespace Elykseer.Model

open Elykseer.Foundation

/-! ## Layout -/

/-- `CoqAssembly::chunkwidth` -/
def chunkwidth : ℕ := 256

/-- `CoqAssembly::chunklength` -/
def chunklength : ℕ := 1024

/-- `CoqAssembly::chunksize` -/
def chunksize : ℕ := chunkwidth * chunklength

/-- `CoqAssembly::assemblysize` -/
def assemblysize (n : Nchunks) : ℕ := chunksize * n.u

/-- `CoqAssembly::header_len` -/
def headerLen (n : Nchunks) : ℕ := min (n.u - tagLen) 128

/-- `CoqAssembly::idx2apos` -/
def idx2apos (idx : ℕ) (n : Nchunks) : ℕ := chunksize * (idx % n.u) + idx / n.u

/-- `CoqAssembly::idx2apos` in the `uint32_t` arithmetic of the code. -/
def idx2apos32 (idx nc : UInt32) : UInt32 :=
  let cnum := idx % nc
  let cidx := idx / nc
  cnum * UInt32.ofNat chunksize + cidx

/-- The size of a chunk in bytes. -/
theorem chunksize_eq : chunksize = 262144 := rfl

/-- The length of the tag in bytes. -/
theorem tagLen_eq : tagLen = 16 := rfl

/-- The size of an assembly is an `int` of 32 bits. -/
theorem assemblysize_lt (n : Nchunks) : assemblysize n < 2147483648 := by
  have := n.le_max
  unfold assemblysize
  rw [chunksize_eq]
  omega

/-! ## Identifiers -/

/-- `CoqAssembly::format_version` -/
def formatVersion : Bytes := ascii "0.10.1"

/-- `CoqAssembly::supported_format` -/
def supportedFormat (version : Bytes) : Bool := (ascii "0.10.").isPrefixOf version

/-- `CoqAssembly::mk_aid` -/
def mkAid (C : Crypto) (myId rndHex : Bytes) : Bytes := C.toHex256 (C.sha3 (myId ++ rndHex))

/-- The string that is hashed to the identifier of a chunk. -/
def chunkIdInput (myId aid : Bytes) (cid : ℕ) : Bytes := myId ++ toString10 cid ++ aid

/-- `CoqAssembly::chunk_identifier` -/
def chunkIdentifier (C : Crypto) (myId aid : Bytes) (cid : ℕ) : Bytes :=
  C.toHex256 (C.sha3 (chunkIdInput myId aid cid))

/-- The directory of a chunk file, from the chunk identifier `h`. -/
def chunkDir (cfg : CoqConfiguration) (h : Bytes) : Path :=
  [cfg.pathChunks, Overlay.slice h (h.length - 2) 2, Overlay.slice h (h.length - 4) 2]

/-- The file of a chunk. -/
def chunkFile (C : Crypto) (cfg : CoqConfiguration) (aid : Bytes) (cid : ℕ) : Path :=
  let h := chunkIdentifier C cfg.myId aid cid
  chunkDir cfg h ++ [h ++ ascii ".lxr"]

/-- `CoqAssembly::chunk_path`; it makes the directories of the chunk that are missing. -/
def chunkPath (C : Crypto) (cfg : CoqConfiguration) (cid : ℕ) (aid : Bytes)
    (mkdir : Path → Bool) (fs : FileSystem) : FileSystem × Option Path :=
  let h := chunkIdentifier C cfg.myId aid cid
  if h.length ≠ 64 then (fs, none)
  else
    let r := fs.createDirectories (chunkDir cfg h) mkdir
    (r.1, if r.2 then some (chunkFile C cfg aid cid) else none)

/-! ## Records -/

/-- `CoqAssembly::AssemblyInformation` -/
structure AssemblyInformation where
  nchunks : Nchunks
  apos : ℕ
  aid : Bytes

/-- `CoqAssembly::BlockInformation` -/
structure BlockInformation where
  blockid : ℤ
  bchecksum : Key256
  blocksize : ℕ
  filepos : ℕ
  blockaid : Bytes
  blockapos : ℕ
  deriving DecidableEq

/-- `BlockInformation{}` -/
def BlockInformation.blank (C : Crypto) : BlockInformation :=
  ⟨0, C.blank256, 0, 0, [], 0⟩

/-- `CoqAssembly::KeyInformation` -/
structure KeyInformation where
  ivec : Key128
  pkey : Key256
  localnchunks : Nchunks
  version : Bytes
  deriving DecidableEq

/-- `KeyInformation(c)` with freshly drawn keys -/
def KeyInformation.draw (cfg : CoqConfiguration) (d : FinaliseDraw) : KeyInformation :=
  ⟨d.ivec, d.pkey, cfg.nchunks, formatVersion⟩

/-! ## The three forms of an assembly -/

/-- `CoqAssemblyPlainWritable` -/
structure CoqAssemblyPlainWritable (cfg : CoqConfiguration) where
  info : AssemblyInformation
  buffer : CoqBuffer .plain
  nchunks_eq : info.nchunks = cfg.nchunks
  len_eq : buffer.len = assemblysize cfg.nchunks

/-- `CoqAssemblyPlainFull` -/
structure CoqAssemblyPlainFull (cfg : CoqConfiguration) where
  info : AssemblyInformation
  buffer : CoqBuffer .plain
  nchunks_eq : info.nchunks = cfg.nchunks
  len_eq : buffer.len = assemblysize cfg.nchunks

/-- `CoqAssemblyEncrypted` -/
structure CoqAssemblyEncrypted (cfg : CoqConfiguration) where
  info : AssemblyInformation
  buffer : CoqBuffer .encrypted
  nchunks_eq : info.nchunks = cfg.nchunks
  len_eq : buffer.len = assemblysize cfg.nchunks

variable {cfg : CoqConfiguration}

namespace CoqAssemblyPlainWritable

/-- The buffer of a new assembly: the header bytes at the physical positions `[0, h)`. -/
def headerBuffer (d : AssemblyDraw) (n : Nchunks) : Bytes :=
  (List.range (headerLen n)).foldl
    (fun bs i => bs.set i ((d.header (i / 32)).toList.getD (i % 32) 0))
    (List.replicate (assemblysize n) 0)

/-- The buffer of a new assembly has the size of the assembly. -/
theorem length_headerBuffer (d : AssemblyDraw) (n : Nchunks) :
    (headerBuffer d n).length = assemblysize n := by
  have hfold : ∀ (l : List ℕ) (bs : Bytes),
      (l.foldl (fun bs i => bs.set i ((d.header (i / 32)).toList.getD (i % 32) 0)) bs).length =
        bs.length := by
    intro l
    induction l with
    | nil => exact fun bs => rfl
    | cons i l ih =>
      intro bs
      rw [List.foldl_cons, ih, List.length_set]
  rw [headerBuffer, hfold, List.length_replicate]

/-- `CoqAssemblyPlainWritable(c)` -/
def create (C : Crypto) (cfg : CoqConfiguration) (d : AssemblyDraw) :
    CoqAssemblyPlainWritable cfg where
  info := ⟨cfg.nchunks, headerLen cfg.nchunks, mkAid C cfg.myId (C.toHex256 d.aid)⟩
  buffer := ⟨headerBuffer d cfg.nchunks, by
    rw [length_headerBuffer]; exact assemblysize_lt _⟩
  nchunks_eq := rfl
  len_eq := length_headerBuffer d cfg.nchunks

/-- `apos()` -/
def apos (a : CoqAssemblyPlainWritable cfg) : ℕ := a.info.apos

/-- `aid()` -/
def aid (a : CoqAssemblyPlainWritable cfg) : Bytes := a.info.aid

/-- `afree()` -/
def afree (a : CoqAssemblyPlainWritable cfg) : ℤ :=
  max 0 ((assemblysize a.info.nchunks : ℤ) - a.info.apos - (tagLen * a.info.nchunks.u : ℕ))

/-- The loop of `backup`: `k` bytes are still to be written, `i` are behind it.  An exception
leaves the bytes written so far in the buffer. -/
def writeLoop (n : Nchunks) (b : CoqBuffer .plain) (offset aposn : ℕ) :
    ℕ → ℕ → CoqBuffer .plain → CoqBuffer .plain × Except Fault Unit
  | 0, _, buf => (buf, .ok ())
  | k + 1, i, buf =>
    match b.at' ((i + offset) % 4294967296) with
    | .error e => (buf, .error e)
    | .ok v =>
      match buf.setAt (idx2apos ((i + aposn) % 4294967296) n) v with
      | .error e => (buf, .error e)
      | .ok buf' => writeLoop n b offset aposn k (i + 1) buf'

/-- Writing into a buffer keeps its length. -/
theorem len_writeLoop (n : Nchunks) (b : CoqBuffer .plain) (offset aposn k i : ℕ)
    (buf : CoqBuffer .plain) :
    (writeLoop n b offset aposn k i buf).1.len = buf.len := by
  induction k generalizing i buf with
  | zero => simp only [writeLoop]
  | succ k ih =>
    simp only [writeLoop]
    cases b.at' ((i + offset) % 4294967296) with
    | error e => rfl
    | ok v =>
      dsimp only
      cases hset : buf.setAt (idx2apos ((i + aposn) % 4294967296) n) v with
      | error e => rfl
      | ok buf' => exact (ih (i + 1) buf').trans (CoqBuffer.len_setAt hset)

/-- `backup(b, offset, dlen)` -/
def backup (C : Crypto) (a : CoqAssemblyPlainWritable cfg) (b : CoqBuffer .plain)
    (offset dlen : ℕ) : CoqAssemblyPlainWritable cfg × Except Fault BlockInformation :=
  let aposn := a.info.apos
  let n := cfg.nchunks
  if b.len < (dlen + offset) % 4294967296 then (a, .ok (BlockInformation.blank C))
  else if assemblysize n < (aposn + dlen) % 4294967296 then (a, .ok (BlockInformation.blank C))
  else
    match b.calcChecksumRange C (i32 offset) (i32 dlen) with
    | .error e => (a, .error e)
    | .ok none => (a, .ok (BlockInformation.blank C))
    | .ok (some chksum) =>
      let w := writeLoop n b offset aposn dlen 0 a.buffer
      let hlen := (len_writeLoop n b offset aposn dlen 0 a.buffer).trans a.len_eq
      match w.2 with
      | .error e => ({ a with buffer := w.1, len_eq := hlen }, .error e)
      | .ok () =>
        ({ info := { a.info with apos := (aposn + dlen) % 4294967296 }
           buffer := w.1
           nchunks_eq := a.nchunks_eq
           len_eq := hlen },
          .ok ⟨1, chksum, dlen, 0, a.info.aid, aposn⟩)

/-- `finish()` -/
def finish (a : CoqAssemblyPlainWritable cfg) : CoqAssemblyPlainFull cfg :=
  ⟨a.info, a.buffer, a.nchunks_eq, a.len_eq⟩

end CoqAssemblyPlainWritable

namespace CoqAssemblyPlainFull

/-- `aid()` -/
def aid (a : CoqAssemblyPlainFull cfg) : Bytes := a.info.aid

/-- `encrypt(ki)` -/
def encrypt (C : Crypto) (a : CoqAssemblyPlainFull cfg) (ki : KeyInformation) :
    Option (CoqAssemblyEncrypted cfg) :=
  match h : CoqBuffer.encryptBuffer C ki.ivec ki.pkey a.info.aid a.buffer.bytes with
  | none => none
  | some c =>
    have hlen : c.length = a.buffer.bytes.length := CoqBuffer.length_encryptBuffer h
    some ⟨a.info, ⟨c, hlen ▸ a.buffer.len_lt⟩, a.nchunks_eq, hlen.trans a.len_eq⟩

/-- The loop of `restore`: byte `idx` of the block is read from the assembly. -/
def restoreLoop (a : CoqAssemblyPlainFull cfg) (blockapos : ℕ) :
    ℕ → ℕ → CoqBuffer .plain → Except Fault (CoqBuffer .plain)
  | 0, _, b => .ok b
  | k + 1, idx, b =>
    match a.buffer.at' (idx2apos ((idx + blockapos) % 4294967296) cfg.nchunks) with
    | .error e => .error e
    | .ok v =>
      match b.setAt idx v with
      | .error e => .error e
      | .ok b' => restoreLoop a blockapos k (idx + 1) b'

/-- `restore(bi)` -/
def restore (C : Crypto) (a : CoqAssemblyPlainFull cfg) (bi : BlockInformation) :
    Except Fault (Option (CoqBuffer .plain)) :=
  if bi.blocksize = 0 ∨ assemblysize cfg.nchunks < bi.blockapos + bi.blocksize then
    .ok none
  else
    match restoreLoop a bi.blockapos bi.blocksize 0 (CoqBuffer.create bi.blocksize) with
    | .error e => .error e
    | .ok b =>
      match b.calcChecksum C with
      | .error e => .error e
      | .ok none => .ok none
      | .ok (some chksum) =>
        .ok (if C.toHex256 chksum = C.toHex256 bi.bchecksum then some b else none)

end CoqAssemblyPlainFull

namespace CoqAssemblyEncrypted

/-- `decrypt(ki)` -/
def decrypt (C : Crypto) (a : CoqAssemblyEncrypted cfg) (ki : KeyInformation) :
    Option (CoqAssemblyPlainFull cfg) :=
  let r := CoqBuffer.decryptBuffer C ki.ivec ki.pkey a.info.aid a.buffer.bytes
  have hlen : r.2.length = a.buffer.bytes.length := CoqBuffer.length_decryptBuffer ..
  if r.1 then
    some ⟨a.info, ⟨r.2, hlen ▸ a.buffer.len_lt⟩, a.nchunks_eq, hlen.trans a.len_eq⟩
  else none

/-- One round of `extract`: the file system and the number of bytes written. -/
def extractChunk (C : Crypto) (a : CoqAssemblyEncrypted cfg) (io : ℕ → ChunkIO)
    (acc : FileSystem × ℕ) (cid : ℕ) : FileSystem × ℕ :=
  match chunkPath C cfg cid a.info.aid (io cid).mkdir acc.1 with
  | (fs, none) => (fs, acc.2)
  | (fs, some path) =>
    if (fs.files path).isSome then (fs, acc.2)
    else if h : fs.dirs path.dropLast = true ∧ (io cid).fopen = true then
      let r := a.buffer.fileoutSzPos (chunksize * (cid - 1) : ℕ) chunksize
      (fs.writeFile path (r.2.take ((io cid).kept r.2.length)) h.1,
        if r.1 = chunksize then acc.2 + r.1.toNat else acc.2)
    else (fs, acc.2)

/-- `extract()` -/
def extract (C : Crypto) (a : CoqAssemblyEncrypted cfg) (io : ℕ → ChunkIO) (fs : FileSystem) :
    FileSystem × ℕ :=
  a.info.nchunks.sequence.foldl (extractChunk C a io) (fs, 0)

/-- What `recall` works on. -/
structure Recalling (n : Nchunks) where
  fs : FileSystem
  buffer : CoqBuffer .encrypted
  nread : ℕ
  len_eq : buffer.len = assemblysize n

/-- One round of `recall`. -/
def recallChunk (C : Crypto) (cfg : CoqConfiguration) (aid : Bytes) (mkdir : Path → Bool)
    (acc : Recalling cfg.nchunks) (cid : ℕ) : Recalling cfg.nchunks :=
  match chunkPath C cfg cid aid mkdir acc.fs with
  | (fs, none) => { acc with fs := fs }
  | (fs, some path) =>
    match fs.files path with
    | none => { acc with fs := fs }
    | some content =>
      let r := acc.buffer.fileinSzPos (chunksize * (cid - 1) : ℕ) chunksize content
      { fs := fs
        buffer := r.2
        nread := if r.1 = chunksize then acc.nread + r.1.toNat else acc.nread
        len_eq := (CoqBuffer.len_fileinSzPos ..).trans acc.len_eq }

/-- `recall(c, aid)` -/
def «recall» (C : Crypto) (cfg : CoqConfiguration) (aid : Bytes) (mkdir : Path → Bool)
    (fs : FileSystem) : FileSystem × Option (CoqAssemblyEncrypted cfg) :=
  let r := cfg.nchunks.sequence.foldl (recallChunk C cfg aid mkdir)
    ⟨fs, CoqBuffer.create (assemblysize cfg.nchunks), 0,
      CoqBuffer.len_create (assemblysize_lt _)⟩
  (r.fs, if r.nread = assemblysize cfg.nchunks then
    some ⟨⟨cfg.nchunks, r.nread, aid⟩, r.buffer, rfl, r.len_eq⟩ else none)

end CoqAssemblyEncrypted

end Elykseer.Model
