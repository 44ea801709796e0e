import Mathlib.Data.List.TakeWhile
import Elykseer.Analysis.Chunks
import Elykseer.Model.Document

/-!
# The markup of the documents

What `outStream` writes is the markup of a tree: `keysDocument_eq` and
`filesDocument_eq`.  Numbers and hex digits need no escaping, and are read as they were
written.
-/

set_option autoImplicit false

namespace Elykseer.Analysis

open Elykseer.Model Elykseer.Foundation Elykseer.Foundation.Xml

variable {C : Crypto}

/-! ## Text that needs no escaping -/

/-- Hex digits, the sign and the dot. -/
def isPlain (c : UInt8) : Bool := isHexDigit c || c = 45 || c = 46

/-- A text that is neither escaped nor collapsed. -/
def Plain (s : Bytes) : Prop := ∀ c ∈ s, isPlain c = true

instance : DecidablePred Plain := fun _ => decidable_of_iff _ List.all_eq_true

/-- A plain character is printed as itself, and is neither white space nor NUL. -/
theorem escapeChar_of_isPlain {c : UInt8} (h : isPlain c = true) :
    escapeChar c = [c] ∧ isSpace c = false ∧ c ≠ 0 := by
  have hne : ∀ d : UInt8, isPlain d = false → c ≠ d := by
    rintro d hd rfl
    rw [h] at hd
    cases hd
  unfold escapeChar isSpace
  rw [if_neg (hne 38 (by decide)), if_neg (hne 60 (by decide)), if_neg (hne 62 (by decide)),
    if_neg (hne 34 (by decide)), if_neg (hne 39 (by decide))]
  refine ⟨rfl, ?_, hne 0 (by decide)⟩
  simp [hne 32 (by decide), hne 9 (by decide), hne 10 (by decide), hne 13 (by decide)]

/-- Nothing in a plain text is escaped. -/
theorem Plain.escape {s : Bytes} (h : Plain s) : escape s = s := by
  induction s with
  | nil => rfl
  | cons c s ih =>
    rw [Xml.escape, List.flatMap_cons, ← Xml.escape, (escapeChar_of_isPlain (h c List.mem_cons_self)).1,
      ih fun d hd => h d (List.mem_cons_of_mem _ hd)]
    rfl

/-- White space is not collapsed in a plain text, which has none. -/
theorem Plain.collapse {s : Bytes} (h : Plain s) : collapse s = s :=
  collapse_eq_self fun c hc => (escapeChar_of_isPlain (h c hc)).2.1

/-- The parser does not stop inside a plain text. -/
theorem Plain.zero_notMem {s : Bytes} (h : Plain s) : 0 ∉ s :=
  fun hmem => (escapeChar_of_isPlain (h 0 hmem)).2.2 rfl

/-- Hex digits are plain. -/
theorem plain_of_isHexDigit {s : Bytes} (h : ∀ c ∈ s, isHexDigit c = true) : Plain s := by
  intro c hc
  unfold isPlain
  rw [h c hc]
  rfl

/-- A number is printed in decimal digits. -/
theorem isDigit_of_mem_toString10 {n : ℕ} {c : UInt8} (h : c ∈ toString10 n) : isDigit c = true := by
  unfold toString10 at h
  split at h
  · rw [List.mem_singleton.mp h]
    decide
  · rw [List.mem_reverse, List.mem_map] at h
    obtain ⟨d, hd, rfl⟩ := h
    have hdigit : ∀ d < 10, isDigit (48 + d.toUInt8) = true := by decide
    exact hdigit d (Nat.digits_lt_base (by decide) hd)

/-- Decimal digits are hex digits. -/
theorem isHexDigit_of_isDigit {c : UInt8} (h : isDigit c = true) : isHexDigit c = true := by
  unfold isHexDigit
  unfold isDigit at h
  rw [h]
  rfl

/-- Printed numbers are plain. -/
theorem plain_toString10 (n : ℕ) : Plain (toString10 n) :=
  plain_of_isHexDigit fun _ hc => isHexDigit_of_isDigit (isDigit_of_mem_toString10 hc)

/-- Printed integers are plain, the minus sign too. -/
theorem plain_intToString (i : ℤ) : Plain (intToString i) := by
  unfold intToString
  split
  · intro c hc
    rcases List.mem_cons.mp hc with rfl | hc
    · decide
    · exact plain_toString10 _ c hc
  · exact plain_toString10 _

/-- The version written into a document is plain. -/
theorem plain_formatVersion : Plain formatVersion := by decide

/-! ## Numbers -/

/-- A printed number has a digit. -/
theorem toString10_ne_nil (n : ℕ) : toString10 n ≠ [] := by
  unfold toString10
  split
  · exact List.cons_ne_nil _ _
  · next h => simpa using Nat.digits_ne_nil_iff_ne_zero.mpr h

/-- The digits of a number have its value. -/
theorem digitsValue_toString10 (n : ℕ) : digitsValue (toString10 n) = n := by
  have h := ofDigits_toString10 n
  rw [Nat.ofDigits_eq_foldr, List.foldr_map, List.foldr_reverse] at h
  refine Eq.trans ?_ h
  unfold digitsValue
  congr 1
  funext m c
  rw [Nat.add_comm]
  rfl

/-- A number is found with its sign and digits. -/
theorem scanInteger_digits (neg : Bool) {s : Bytes} (ds : Bytes) (hs : s.dropWhile isBlank = s)
    (hsign : scanSign s = (neg, ds)) (hds : ∀ c ∈ ds, isDigit c = true) (hne : ds ≠ []) :
    scanInteger s = some (neg, digitsValue ds) := by
  unfold scanInteger
  rw [hs, hsign]
  dsimp only
  rw [List.takeWhile_eq_self_iff.mpr hds, List.dropWhile_eq_nil_iff.mpr hds, if_pos ⟨hne, rfl⟩]

/-- A digit is neither a blank nor a sign. -/
theorem ne_of_isDigit {c : UInt8} (h : isDigit c = true) : isBlank c = false ∧ c ≠ 45 ∧ c ≠ 43 := by
  refine ⟨?_, by rintro rfl; exact absurd h (by decide), by rintro rfl; exact absurd h (by decide)⟩
  have hle : (48 : UInt8) ≤ c := of_decide_eq_true (Bool.and_eq_true _ _ ▸ h).1
  rw [UInt8.le_iff_toNat_le] at hle
  have h48 : (48 : UInt8).toNat = 48 := rfl
  unfold isBlank
  rw [Bool.or_eq_false_iff, Bool.and_eq_false_iff, decide_eq_false_iff_not, decide_eq_false_iff_not,
    decide_eq_false_iff_not, UInt8.le_iff_toNat_le (a := c)]
  have h13 : (13 : UInt8).toNat = 13 := rfl
  refine ⟨by rintro rfl; exact absurd hle (by decide), Or.inr (by omega)⟩

/-- Scanning a printed number gives it back, without a sign. -/
theorem scanInteger_toString10 (n : ℕ) : scanInteger (toString10 n) = some (false, n) := by
  obtain ⟨c, t, hct⟩ := List.exists_cons_of_ne_nil (toString10_ne_nil n)
  have hc : isDigit c = true :=
    isDigit_of_mem_toString10 (n := n) (by rw [hct]; exact List.mem_cons_self)
  obtain ⟨hblank, hminus, hplus⟩ := ne_of_isDigit hc
  have h := scanInteger_digits false (toString10 n) (s := toString10 n)
    (by rw [hct, List.dropWhile_cons_of_neg (by simp [hblank])])
    (by
      rw [hct, scanSign]
      · exact fun _ h => hminus (List.cons.inj h).1
      · exact fun _ h => hplus (List.cons.inj h).1)
    (fun _ hd => isDigit_of_mem_toString10 hd) (toString10_ne_nil n)
  rw [h, digitsValue_toString10]

/-- A printed number is read back as an unsigned one when it is in range. -/
theorem translateUnsigned_toString10 {m n : ℕ} (h : n < m) :
    translateUnsigned m (toString10 n) = some n := by
  unfold translateUnsigned
  rw [scanInteger_toString10]
  dsimp only
  rw [if_pos h]
  rfl

/-- A printed number is read back as an `int` when it is below `2^31`. -/
theorem translateInt_toString10 {n : ℕ} (h : n < 2147483648) :
    translateInt (toString10 n) = some (n : ℤ) := by
  unfold translateInt
  rw [scanInteger_toString10]
  dsimp only
  rw [if_neg Bool.false_ne_true, if_pos (by omega)]

/-- An `int` is read as it was written. -/
theorem translateInt_intToString {i : ℤ} (hmin : -2147483648 ≤ i) (hmax : i < 2147483648) :
    translateInt (intToString i) = some i := by
  unfold intToString
  split
  · next hneg =>
    have hscan : scanInteger (45 :: toString10 i.natAbs) = some (true, i.natAbs) := by
      rw [scanInteger_digits true (toString10 i.natAbs) rfl rfl
        (fun _ hc => isDigit_of_mem_toString10 hc) (toString10_ne_nil _), digitsValue_toString10]
    have hi : -(i.natAbs : ℤ) = i := by omega
    unfold translateInt
    rw [hscan]
    dsimp only
    rw [if_pos rfl, hi, if_pos ⟨hmin, hmax⟩]
  · next hneg =>
    rw [translateInt_toString10 (by omega)]
    congr 1
    omega

/-! ## Trees -/

/-- An element that contains text only. -/
def leaf (tag s : Bytes) : Node := .element tag [] [.text s]

/-- An element whose children stand on lines of their own. -/
def linesNode (tag : Bytes) (attributes : List (Bytes × Bytes)) (ns : List Node) : Node :=
  .element tag attributes (.text endl :: separate endl ns)

/-- The element of a key. -/
def keyNode (C : Crypto) (p : Bytes × KeyInformation) : Node :=
  .element (ascii "key")
    [(ascii "nchunks", toString10 p.2.localnchunks.u), (ascii "version", p.2.version),
      (ascii "aid", p.1)]
    [leaf (ascii "secret") (C.toHex256 p.2.pkey), leaf (ascii "iv") (C.toHex128 p.2.ivec)]

/-- The element of a block. -/
def blockNode (C : Crypto) (bi : BlockInformation) : Node :=
  .element (ascii "fileblock")
    [(ascii "blockid", intToString bi.blockid), (ascii "blocksize", toString10 bi.blocksize),
      (ascii "filepos", toString10 bi.filepos), (ascii "apos", toString10 bi.blockapos)]
    [leaf (ascii "aid") bi.blockaid, leaf (ascii "checksum") (C.toHex256 bi.bchecksum)]

/-- The element of a file. -/
def entryNode (C : Crypto) (fhash : Bytes) (fi : FileInformation) (bis : List BlockInformation) :
    Node :=
  linesNode (ascii "fileinformation") [(ascii "version", formatVersion), (ascii "fhash", fhash)]
    [leaf (ascii "name") fi.fname, leaf (ascii "size") (toString10 fi.fsize),
      leaf (ascii "owner") fi.fowner, leaf (ascii "permissions") (toString10 fi.fpermissions),
      leaf (ascii "modified") fi.fmodified, leaf (ascii "checksum") fi.fchecksum,
      linesNode (ascii "fileblocks") [] (bis.map (blockNode C))]

/-- What stands between `<?` and `?>`. -/
def declaration : Bytes := ascii "xml version=\"1.0\" encoding=\"UTF-8\""

/-- What stands between `<!--` and `-->`. -/
def comment (o : Origin) : Bytes :=
  ascii " " ++ lizName ++ ascii " " ++ lizVersion ++ ascii " on " ++ xmlEscape o.hostname ++
    ascii " at " ++ o.timestamp ++ ascii " "

/-- The repository's escaping is that of the markup library. -/
theorem xmlEscape_eq (s : Bytes) : xmlEscape s = escape s := rfl

/-- How an element with a text and no attributes is written. -/
theorem render_leaf (tag s : Bytes) :
    (leaf tag s).render = 60 :: tag ++ 62 :: escape s ++ 60 :: 47 :: tag ++ [62] := by
  simp [leaf, Node.render, renderAll, renderAttributes]

/-- How an element with one child a line is written. -/
theorem render_linesNode (tag : Bytes) (attributes : List (Bytes × Bytes)) (ns : List Node) :
    (linesNode tag attributes ns).render = 60 :: tag ++ renderAttributes attributes ++ 62 :: endl ++
      (ns.flatMap fun n => n.render ++ endl) ++ 60 :: 47 :: tag ++ [62] := by
  rw [linesNode, Node.render, renderAll, renderAll_separate]
  simp [Node.render, endl, show escape [10] = [10] from rfl]

/-- A document is the markup of its root. -/
theorem document_eq (o : Origin) (ty : Bytes) (ns : List Node) :
    outputHeader o ty ++ (ns.flatMap fun n => n.render ++ endl) ++ (60 :: 47 :: ty ++ [62]) ++ endl =
      document declaration (comment o) (linesNode ty [] ns) := by
  have hdeclaration : ascii "<?xml version=\"1.0\" encoding=\"UTF-8\"?>" =
      60 :: 63 :: declaration ++ [63, 62] := rfl
  have hopen : ascii "<!-- " = 60 :: 33 :: 45 :: 45 :: ascii " " := rfl
  have hclose : ascii " -->" = ascii " " ++ [45, 45, 62] := rfl
  have hlt : ascii "<" = [60] := rfl
  have hgt : ascii ">" = [62] := rfl
  rw [outputHeader, document, render_linesNode, hopen, hdeclaration, hclose, hlt, hgt, comment]
  simp [renderAttributes, endl]

/-- The line the code writes for a key is its element. -/
theorem render_keyNode (hC : C.HexLawful) (p : Bytes × KeyInformation) :
    (keyNode C p).render ++ endl = writeKey C p := by
  have h1 : ascii "<key nchunks=\"" = 60 :: ascii "key" ++ 32 :: ascii "nchunks" ++ [61, 34] := rfl
  have h2 : ascii "\" version=\"" = 34 :: 32 :: ascii "version" ++ [61, 34] := rfl
  have h3 : ascii "\" aid=\"" = 34 :: 32 :: ascii "aid" ++ [61, 34] := rfl
  have h4 : ascii "\">" = [34, 62] := rfl
  have h5 : ascii "<secret>" = 60 :: ascii "secret" ++ [62] := rfl
  have h6 : ascii "</secret><iv>" =
      60 :: 47 :: ascii "secret" ++ 62 :: 60 :: ascii "iv" ++ [62] := rfl
  have h7 : ascii "</iv></key>" = 60 :: 47 :: ascii "iv" ++ 62 :: 60 :: 47 :: ascii "key" ++ [62] :=
    rfl
  have hsecret := (plain_of_isHexDigit (hC.digits256 p.2.pkey)).escape
  have hiv := (plain_of_isHexDigit (hC.digits128 p.2.ivec)).escape
  rw [keyNode, Node.render, renderAll, renderAll, renderAll, render_leaf, render_leaf, hsecret, hiv,
    writeKey, h1, h2, h3, h4, h5, h6, h7]
  simp [renderAttributes, (plain_toString10 _).escape, xmlEscape_eq]

/-- The line the code writes for a block is its element. -/
theorem render_blockNode (hC : C.HexLawful) (bi : BlockInformation) :
    (blockNode C bi).render ++ endl = writeBlock C bi := by
  have h1 : ascii "<fileblock blockid=\"" =
      60 :: ascii "fileblock" ++ 32 :: ascii "blockid" ++ [61, 34] := rfl
  have h2 : ascii "\" blocksize=\"" = 34 :: 32 :: ascii "blocksize" ++ [61, 34] := rfl
  have h3 : ascii "\" filepos=\"" = 34 :: 32 :: ascii "filepos" ++ [61, 34] := rfl
  have h4 : ascii "\" apos=\"" = 34 :: 32 :: ascii "apos" ++ [61, 34] := rfl
  have h5 : ascii "\">" = [34, 62] := rfl
  have h6 : ascii "<aid>" = 60 :: ascii "aid" ++ [62] := rfl
  have h7 : ascii "</aid><checksum>" =
      60 :: 47 :: ascii "aid" ++ 62 :: 60 :: ascii "checksum" ++ [62] := rfl
  have h8 : ascii "</checksum></fileblock>" =
      60 :: 47 :: ascii "checksum" ++ 62 :: 60 :: 47 :: ascii "fileblock" ++ [62] := rfl
  have hsum := (plain_of_isHexDigit (hC.digits256 bi.bchecksum)).escape
  rw [blockNode, Node.render, renderAll, renderAll, renderAll, render_leaf, render_leaf, hsum,
    writeBlock, h1, h2, h3, h4, h5, h6, h7, h8]
  simp [renderAttributes, (plain_toString10 _).escape, (plain_intToString _).escape, xmlEscape_eq]

/-- The lines that are written for a leaf. -/
theorem leaf_line (opening closing tag : Bytes) (hopening : opening = 60 :: tag ++ [62])
    (hclosing : closing = 60 :: 47 :: tag ++ [62]) (s rest : Bytes) :
    opening ++ (xmlEscape s ++ (closing ++ rest)) = (leaf tag s).render ++ rest := by
  rw [hopening, hclosing, render_leaf, xmlEscape_eq]
  simp

/-- The pieces the code writes around a number are an element. -/
theorem leaf_line_number (opening closing tag : Bytes) (hopening : opening = 60 :: tag ++ [62])
    (hclosing : closing = 60 :: 47 :: tag ++ [62]) (n : ℕ) (rest : Bytes) :
    opening ++ (toString10 n ++ (closing ++ rest)) = (leaf tag (toString10 n)).render ++ rest := by
  rw [← leaf_line opening closing tag hopening hclosing, xmlEscape_eq, (plain_toString10 n).escape]

/-- The lines the code writes for a file are its element. -/
theorem render_entryNode (hC : C.HexLawful) (finfos : Option CoqFInfoStore)
    (fblocks : Option CoqFBlockStore) (fhash : Bytes) :
    (entryNode C fhash (entryInfo finfos fhash) (entryBlocks fblocks fhash)).render ++ endl =
      writeEntry C finfos fblocks fhash := by
  have hversion : ascii "<fileinformation version=\"" =
      60 :: ascii "fileinformation" ++ 32 :: ascii "version" ++ [61, 34] := rfl
  have hfhash : ascii "\" fhash=\"" = 34 :: 32 :: ascii "fhash" ++ [61, 34] := rfl
  have hquote : ascii "\">" = [34, 62] := rfl
  have hopen : ascii "<fileblocks>" = 60 :: ascii "fileblocks" ++ [62] := rfl
  have hclose : ascii "</fileblocks>" = 60 :: 47 :: ascii "fileblocks" ++ [62] := rfl
  have hend : ascii "</fileinformation>" = 60 :: 47 :: ascii "fileinformation" ++ [62] := rfl
  have hname := leaf_line (ascii "<name>") (ascii "</name>") (ascii "name") rfl rfl
  have hsize := leaf_line_number (ascii "<size>") (ascii "</size>") (ascii "size") rfl rfl
  have howner := leaf_line (ascii "<owner>") (ascii "</owner>") (ascii "owner") rfl rfl
  have hpermissions := leaf_line_number (ascii "<permissions>") (ascii "</permissions>")
    (ascii "permissions") rfl rfl
  have hmodified := leaf_line (ascii "<modified>") (ascii "</modified>") (ascii "modified") rfl rfl
  have hchecksum := leaf_line (ascii "<checksum>") (ascii "</checksum>") (ascii "checksum") rfl rfl
  have hblocks : ((entryBlocks fblocks fhash).map (blockNode C)).flatMap
      (fun n => n.render ++ endl) = (entryBlocks fblocks fhash).flatMap (writeBlock C) := by
    rw [List.flatMap_map]
    exact List.flatMap_congr fun bi _ => render_blockNode hC bi
  unfold writeEntry
  dsimp only
  simp only [List.append_assoc, hname, hsize, howner, hpermissions, hmodified, hchecksum, hversion,
    hfhash, hquote, hopen, hclose, hend]
  simp only [entryNode, render_linesNode, List.flatMap_cons, List.flatMap_nil, hblocks]
  simp only [renderAttributes, List.flatMap_cons, List.flatMap_nil, plain_formatVersion.escape,
    xmlEscape_eq, List.append_assoc, List.cons_append, List.nil_append, List.append_nil]

/-- The keys document is the markup of its keys. -/
theorem keysDocument_eq (hC : C.HexLawful) (o : Origin) (order : HashOrder) (s : CoqKeyStore) :
    CoqKeyStore.outStream C o order s = document declaration (comment o)
      (linesNode (ascii "keys") [] ((CoqStore.iterate s order).map (keyNode C))) := by
  have hkeys : ((CoqStore.iterate s order).map (keyNode C)).flatMap (fun n => n.render ++ endl) =
      (CoqStore.iterate s order).flatMap (writeKey C) := by
    rw [List.flatMap_map]
    exact List.flatMap_congr fun p _ => render_keyNode hC p
  rw [← document_eq, hkeys]
  rfl

/-- The files document is the markup of its entries. -/
theorem filesDocument_eq (hC : C.HexLawful) (o : Origin) (finfos : Option CoqFInfoStore)
    (fblocks : Option CoqFBlockStore) (forder border : HashOrder) :
    writeFilesDocument C o finfos fblocks forder border = document declaration (comment o)
      (linesNode (ascii "files") [] ((entryHashes finfos fblocks forder border).map fun fhash =>
        entryNode C fhash (entryInfo finfos fhash) (entryBlocks fblocks fhash))) := by
  have hentries : ((entryHashes finfos fblocks forder border).map fun fhash =>
      entryNode C fhash (entryInfo finfos fhash) (entryBlocks fblocks fhash)).flatMap
        (fun n => n.render ++ endl) =
      (entryHashes finfos fblocks forder border).flatMap (writeEntry C finfos fblocks) := by
    rw [List.flatMap_map]
    exact List.flatMap_congr fun fhash _ => render_entryNode hC finfos fblocks fhash
  rw [← document_eq, hentries]
  rfl

end Elykseer.Analysis
