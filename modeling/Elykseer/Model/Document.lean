import Elykseer.Foundation.Xml
import Elykseer.Model.Store

/-!
# The documents of the stores

The keys document and the files document: what `outStream` writes, byte by byte, and
what `inStream` does with the property tree that Boost reads from a document.  The
reader `read_xml`, with the flags `no_comments` and `trim_whitespace`, is a parameter; it
returns what the exception says, or a tree.  `get<T>` of the tree goes through an input
stream: the whole text must be a number, except for white space at both ends.

An `std::unordered_map` is iterated over in an order that is not specified: a
`HashOrder`.
-/

set_option autoImplicit false

namespace Elykseer.Model

open Elykseer.Foundation Elykseer.Foundation.Xml

/-- `std::endl` -/
def endl : Bytes := [10]

/-! ## Writing -/

/-- `xml_escape(s)` -/
def xmlEscape (s : Bytes) : Bytes :=
  s.flatMap fun c =>
    if c = 38 then ascii "&amp;"
    else if c = 60 then ascii "&lt;"
    else if c = 62 then ascii "&gt;"
    else if c = 34 then ascii "&quot;"
    else if c = 39 then ascii "&apos;"
    else [c]

/-- `os << i` for an `int` -/
def intToString (i : ℤ) : Bytes :=
  if i < 0 then 45 :: toString10 i.natAbs else toString10 i.natAbs

/-- What the header of a document tells about its origin. -/
structure Origin where
  /-- `OS::hostname()`, which stops at a zero byte -/
  hostname : Bytes
  hostname_ok : 0 ∉ hostname
  /-- `OS::timestamp()`, a date and a time -/
  timestamp : Bytes
  timestamp_ok : 0 ∉ timestamp ∧ 62 ∉ timestamp

/-- `Liz::name()` -/
def lizName : Bytes := ascii "LXR"

/-- `Liz::version()` -/
def lizVersion : Bytes := ascii "Version 5.0.0"

/-- `outputHeader(os, ty)` -/
def outputHeader (o : Origin) (ty : Bytes) : Bytes :=
  ascii "<?xml version=\"1.0\" encoding=\"UTF-8\"?>" ++ endl ++
  ascii "<!-- " ++ lizName ++ ascii " " ++ lizVersion ++ ascii " on " ++ xmlEscape o.hostname ++
    ascii " at " ++ o.timestamp ++ ascii " -->" ++ endl ++
  ascii "<" ++ ty ++ ascii ">" ++ endl

/-- An order of the keys of a map. -/
structure HashOrder where
  order : List Bytes → List Bytes
  perm : ∀ keys, (order keys).Perm keys

/-- `iterate(f)`: the entries `f` is called with. -/
def CoqStore.iterate {V : Type} (s : CoqStore V) (o : HashOrder) : List (Bytes × V) :=
  (o.order s.keys).filterMap fun k => (s.find k).map fun v => (k, v)

/-- An entry of the keys document. -/
def writeKey (C : Crypto) (p : Bytes × KeyInformation) : Bytes :=
  ascii "<key nchunks=\"" ++ toString10 p.2.localnchunks.u ++ ascii "\" version=\"" ++
    xmlEscape p.2.version ++ ascii "\" aid=\"" ++ xmlEscape p.1 ++ ascii "\">" ++
  ascii "<secret>" ++ C.toHex256 p.2.pkey ++ ascii "</secret><iv>" ++ C.toHex128 p.2.ivec ++
    ascii "</iv></key>" ++ endl

/-- `CoqKeyStore::outStream(os)` -/
def CoqKeyStore.outStream (C : Crypto) (o : Origin) (order : HashOrder) (s : CoqKeyStore) : Bytes :=
  outputHeader o (ascii "keys") ++ (CoqStore.iterate s order).flatMap (writeKey C) ++
    ascii "</keys>" ++ endl

/-- `FileInformation{}` -/
def FileInformation.blank : FileInformation := ⟨[], [], 0, [], 0, [], []⟩

/-- A block in the files document. -/
def writeBlock (C : Crypto) (bi : BlockInformation) : Bytes :=
  ascii "<fileblock blockid=\"" ++ intToString bi.blockid ++ ascii "\" blocksize=\"" ++
    toString10 bi.blocksize ++ ascii "\" filepos=\"" ++ toString10 bi.filepos ++
    ascii "\" apos=\"" ++ toString10 bi.blockapos ++ ascii "\">" ++
  ascii "<aid>" ++ xmlEscape bi.blockaid ++ ascii "</aid><checksum>" ++ C.toHex256 bi.bchecksum ++
    ascii "</checksum></fileblock>" ++ endl

/-- The file information that is written under a hash. -/
def entryInfo (finfos : Option CoqFInfoStore) (fhash : Bytes) : FileInformation :=
  (finfos.bind fun s => CoqStore.find s fhash).getD .blank

/-- The blocks that are written under a hash. -/
def entryBlocks (fblocks : Option CoqFBlockStore) (fhash : Bytes) : List BlockInformation :=
  (fblocks.bind fun s => CoqStore.find s fhash).getD []

/-- `write_entry(fhash)` -/
def writeEntry (C : Crypto) (finfos : Option CoqFInfoStore) (fblocks : Option CoqFBlockStore)
    (fhash : Bytes) : Bytes :=
  let fi := entryInfo finfos fhash
  ascii "<fileinformation version=\"" ++ formatVersion ++ ascii "\" fhash=\"" ++ xmlEscape fhash ++
    ascii "\">" ++ endl ++
  ascii "<name>" ++ xmlEscape fi.fname ++ ascii "</name>" ++ endl ++
  ascii "<size>" ++ toString10 fi.fsize ++ ascii "</size>" ++ endl ++
  ascii "<owner>" ++ xmlEscape fi.fowner ++ ascii "</owner>" ++ endl ++
  ascii "<permissions>" ++ toString10 fi.fpermissions ++ ascii "</permissions>" ++ endl ++
  ascii "<modified>" ++ xmlEscape fi.fmodified ++ ascii "</modified>" ++ endl ++
  ascii "<checksum>" ++ xmlEscape fi.fchecksum ++ ascii "</checksum>" ++ endl ++
  ascii "<fileblocks>" ++ endl ++
  (entryBlocks fblocks fhash).flatMap (writeBlock C) ++
  ascii "</fileblocks>" ++ endl ++
  ascii "</fileinformation>" ++ endl

/-- The hashes that have an entry in the files document: those with blocks, then the others. -/
def entryHashes (finfos : Option CoqFInfoStore) (fblocks : Option CoqFBlockStore)
    (forder border : HashOrder) : List Bytes :=
  fblocks.elim [] (fun s => (CoqStore.iterate s border).map Prod.fst) ++
    (finfos.elim [] fun s => (CoqStore.iterate s forder).map Prod.fst).filter
      fun k => !fblocks.any fun s => s.contains k

/-- `write_files_document(os, finfostore, fblockstore)` -/
def writeFilesDocument (C : Crypto) (o : Origin) (finfos : Option CoqFInfoStore)
    (fblocks : Option CoqFBlockStore) (forder border : HashOrder) : Bytes :=
  outputHeader o (ascii "files") ++
    (entryHashes finfos fblocks forder border).flatMap (writeEntry C finfos fblocks) ++
    ascii "</files>" ++ endl

/-- `CoqFBlockStore::outStream(os)` -/
def CoqFBlockStore.outStream (C : Crypto) (o : Origin) (order : HashOrder) (s : CoqFBlockStore) :
    Bytes :=
  writeFilesDocument C o none (some s) order order

/-- `CoqFInfoStore::outStream(os)` -/
def CoqFInfoStore.outStream (C : Crypto) (o : Origin) (order : HashOrder) (s : CoqFInfoStore) :
    Bytes :=
  writeFilesDocument C o (some s) none order order

/-- `CoqFilesStream(finfostore, fblockstore).outStream(os)` -/
def filesStream (C : Crypto) (o : Origin) (forder border : HashOrder) (finfos : CoqFInfoStore)
    (fblocks : CoqFBlockStore) : Bytes :=
  writeFilesDocument C o (some finfos) (some fblocks) forder border

/-! ## Reading numbers -/

/-- `std::isspace` in the classic locale -/
def isBlank (c : UInt8) : Bool := c = 32 || (9 ≤ c && c ≤ 13)

/-- `0`..`9` -/
def isDigit (c : UInt8) : Bool := 48 ≤ c && c ≤ 57

/-- The number that digits stand for. -/
def digitsValue (ds : Bytes) : ℕ := ds.foldl (fun n c => 10 * n + (c.toNat - 48)) 0

/-- An optional sign. -/
def scanSign : Bytes → Bool × Bytes
  | 45 :: s => (true, s)
  | 43 :: s => (false, s)
  | s => (false, s)

/-- The sign and the digits that `>>` finds in a stream, behind which there is white space only. -/
def scanInteger (s : Bytes) : Option (Bool × ℕ) :=
  let r := scanSign (s.dropWhile isBlank)
  let ds := r.2.takeWhile isDigit
  if ds ≠ [] ∧ (r.2.dropWhile isDigit).all isBlank then some (r.1, digitsValue ds) else none

/-- The translator of `get<int>` -/
def translateInt (s : Bytes) : Option ℤ :=
  match scanInteger s with
  | none => none
  | some (neg, n) =>
    let i : ℤ := if neg then -n else n
    if -2147483648 ≤ i ∧ i < 2147483648 then some i else none

/-- The translator of `get<T>` for an unsigned type with `m` values; a number with a minus sign
wraps around. -/
def translateUnsigned (m : ℕ) (s : Bytes) : Option ℕ :=
  match scanInteger s with
  | none => none
  | some (neg, n) => if n < m then some (if neg then (m - n) % m else n) else none

/-- `get<std::string>` -/
def getString (pt : Ptree) (path : List Bytes) : Bytes := pt.get some path []

/-- `get<int>` -/
def getInt (pt : Ptree) (path : List Bytes) (default : ℤ) : ℤ := pt.get translateInt path default

/-- `get<uint32_t>` -/
def getUint32 (pt : Ptree) (path : List Bytes) : ℕ :=
  pt.get (translateUnsigned 4294967296) path 0

/-- `get<uint64_t>` -/
def getUint64 (pt : Ptree) (path : List Bytes) : ℕ :=
  pt.get (translateUnsigned 18446744073709551616) path 0

/-! ## Reading documents -/

/-- The messages on `std::clog` while a document is read. -/
inductive MetaLine
  | cannotParse (what : Bytes)
  | legacy (root : Bytes)
  | invalidKey (aid : Bytes)
  | invalidChecksum (fhash : Bytes)
  deriving DecidableEq

/-- The store so far, what `inStream` is going to return, and the messages. -/
structure Reading (σ : Type) where
  store : σ
  ok : Bool
  clog : List MetaLine

/-- `from_hex(k, h)` for a `Key256` -/
def fromHex256 (C : Crypto) (h : Bytes) : Option Key256 :=
  if h.length = 256 / 4 ∧ h.all isHexDigit then some (C.fromHex256 h) else none

/-- `from_hex(k, h)` for a `Key128` -/
def fromHex128 (C : Crypto) (h : Bytes) : Option Key128 :=
  if h.length = 128 / 4 ∧ h.all isHexDigit then some (C.fromHex128 h) else none

namespace Reading

variable {σ : Type}

/-- `warn_legacy(root)` -/
def warnLegacy (r : Reading σ) (root : Bytes) : Reading σ :=
  if root = ascii "DbKey" ∨ root = ascii "DbFBlock" ∨ root = ascii "DbFInfo" then
    { r with clog := r.clog ++ [.legacy root] }
  else r

/-- The loop over the roots of a document and the children of those with the name `ty`. -/
def roots (ty : Bytes) (f : Reading σ → Bytes × Ptree → Reading σ) (r : Reading σ) (pt : Ptree) :
    Reading σ :=
  pt.children.foldl
    (fun r root =>
      let r' := r.warnLegacy root.1
      if root.1 = ty then root.2.children.foldl f r' else r') r

end Reading

/-- One round of the loop of `CoqKeyStore::inStream`. -/
def readKey (C : Crypto) (r : Reading CoqKeyStore) (k : Bytes × Ptree) : Reading CoqKeyStore :=
  if k.1 = ascii "key" then
    let aid := getString k.2 [xmlattr, ascii "aid"]
    let localnchunks := Nchunks.ofInt (getInt k.2 [xmlattr, ascii "nchunks"] 16)
    let version := getString k.2 [xmlattr, ascii "version"]
    match fromHex256 C (getString k.2 [ascii "secret"]),
      fromHex128 C (getString k.2 [ascii "iv"]) with
    | some pkey, some ivec =>
      if aid = [] then r
      else { r with store := CoqKeyStore.add r.store aid ⟨ivec, pkey, localnchunks, version⟩ }
    | _, _ => { r with ok := false, clog := r.clog ++ [.invalidKey aid] }
  else r

/-- `CoqKeyStore::inStream(ins)` -/
def CoqKeyStore.inStream (C : Crypto) (readXml : Bytes → Except Bytes Ptree) (s : CoqKeyStore)
    (ins : Bytes) : Reading CoqKeyStore :=
  match readXml ins with
  | .error what => ⟨s, false, [.cannotParse what]⟩
  | .ok pt => Reading.roots (ascii "keys") (readKey C) ⟨s, true, []⟩ pt

/-- One round of the loop over the blocks of a file. -/
def readBlock (C : Crypto) (fhash : Bytes) (r : Reading (List BlockInformation))
    (b : Bytes × Ptree) : Reading (List BlockInformation) :=
  if b.1 = ascii "fileblock" then
    match fromHex256 C (getString b.2 [ascii "checksum"]) with
    | some bchecksum =>
      { r with store := r.store ++
          [{ blockid := getInt b.2 [xmlattr, ascii "blockid"] 0
             bchecksum := bchecksum
             blocksize := getUint32 b.2 [xmlattr, ascii "blocksize"]
             filepos := getUint64 b.2 [xmlattr, ascii "filepos"]
             blockaid := getString b.2 [ascii "aid"]
             blockapos := getUint32 b.2 [xmlattr, ascii "apos"] }] }
    | none => { r with ok := false, clog := r.clog ++ [.invalidChecksum fhash] }
  else r

/-- The two stores of which a files document is read; each may be missing. -/
abbrev FilesStores := Option CoqFInfoStore × Option CoqFBlockStore

/-- The file information of an entry. -/
def readInfo (fhash : Bytes) (entry : Ptree) : FileInformation where
  fname := getString entry [ascii "name"]
  fhash := fhash
  fsize := getUint64 entry [ascii "size"]
  fowner := getString entry [ascii "owner"]
  fpermissions := getUint32 entry [ascii "permissions"]
  fmodified := getString entry [ascii "modified"]
  fchecksum := getString entry [ascii "checksum"]

/-- One round of the loop over the entries of `read_files_document`. -/
def readEntry (C : Crypto) (r : Reading FilesStores) (entry : Bytes × Ptree) :
    Reading FilesStores :=
  if entry.1 = ascii "fileinformation" then
    let fhash := getString entry.2 [xmlattr, ascii "fhash"]
    if fhash = [] then r
    else
      let finfos :=
        if (entry.2.getChild [ascii "name"]).isSome then
          r.store.1.map fun s => CoqFInfoStore.add s fhash (readInfo fhash entry.2)
        else r.store.1
      match r.store.2 with
      | none => { r with store := (finfos, none) }
      | some fblocks =>
        let bis : Reading (List BlockInformation) :=
          match entry.2.getChild [ascii "fileblocks"] with
          | none => ⟨[], r.ok, r.clog⟩
          | some fbs => fbs.children.foldl (readBlock C fhash) ⟨[], r.ok, r.clog⟩
        ⟨(finfos, some (if bis.store ≠ [] then CoqStore.add fblocks fhash bis.store else fblocks)),
          bis.ok, bis.clog⟩
  else r

/-- `read_files_document(ins, finfostore, fblockstore)` -/
def readFilesDocument (C : Crypto) (readXml : Bytes → Except Bytes Ptree) (ins : Bytes)
    (stores : FilesStores) : Reading FilesStores :=
  match readXml ins with
  | .error what => ⟨stores, false, [.cannotParse what]⟩
  | .ok pt => Reading.roots (ascii "files") (readEntry C) ⟨stores, true, []⟩ pt

/-- `CoqFBlockStore::inStream(ins)` -/
def CoqFBlockStore.inStream (C : Crypto) (readXml : Bytes → Except Bytes Ptree) (s : CoqFBlockStore)
    (ins : Bytes) : Reading CoqFBlockStore :=
  let r := readFilesDocument C readXml ins (none, some s)
  ⟨r.store.2.getD s, r.ok, r.clog⟩

/-- `CoqFInfoStore::inStream(ins)` -/
def CoqFInfoStore.inStream (C : Crypto) (readXml : Bytes → Except Bytes Ptree) (s : CoqFInfoStore)
    (ins : Bytes) : Reading CoqFInfoStore :=
  let r := readFilesDocument C readXml ins (some s, none)
  ⟨r.store.1.getD s, r.ok, r.clog⟩

/-- `CoqFilesStream(finfostore, fblockstore).inStream(ins)` -/
def filesStreamIn (C : Crypto) (readXml : Bytes → Except Bytes Ptree) (finfos : CoqFInfoStore)
    (fblocks : CoqFBlockStore) (ins : Bytes) : Reading (CoqFInfoStore × CoqFBlockStore) :=
  let r := readFilesDocument C readXml ins (some finfos, some fblocks)
  ⟨(r.store.1.getD finfos, r.store.2.getD fblocks), r.ok, r.clog⟩

end Elykseer.Model
