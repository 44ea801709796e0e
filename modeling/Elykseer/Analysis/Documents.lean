import Elykseer.Analysis.Markup

/-!
# What is read of the documents

`inStream` takes from the keys document the keys that were written, and from the files
document the blocks, all unchanged, and the file information with its texts collapsed
(`rereadInfo`).  Reading adds one entry after the other to the store; what is found in
the end is said by `find_foldl_addKey` and `find_foldl_add`.
-/

set_option autoImplicit false

namespace Elykseer.Analysis

open Elykseer.Model Elykseer.Foundation Elykseer.Foundation.Xml

variable {C : Crypto} {readXml : Bytes → Except Bytes Ptree}

/-! ## Iteration -/

/-- Iterating over a store meets the keys that are in it. -/
theorem mem_keys_iterate {V : Type} (s : CoqStore V) (o : HashOrder) (k : Bytes) :
    k ∈ (s.iterate o).map Prod.fst ↔ (s.find k).isSome = true := by
  unfold CoqStore.iterate
  rw [List.map_filterMap, List.mem_filterMap]
  constructor
  · rintro ⟨k', -, hk'⟩
    cases h : s.find k' with
    | none => simp [h] at hk'
    | some v =>
      simp only [h, Option.map_some, Option.some.injEq] at hk'
      rw [← hk', h]
      rfl
  · intro h
    obtain ⟨v, hv⟩ := Option.isSome_iff_exists.mp h
    refine ⟨k, (o.perm s.keys).mem_iff.mpr ?_, by simp [hv]⟩
    exact AList.mem_keys.mp (AList.lookup_isSome.mp (by rw [← CoqStore.find, h]))

/-- Iterating over a store meets the entries that can be found in it. -/
theorem mem_iterate {V : Type} (s : CoqStore V) (o : HashOrder) (p : Bytes × V) :
    p ∈ s.iterate o ↔ s.find p.1 = some p.2 := by
  unfold CoqStore.iterate
  rw [List.mem_filterMap]
  constructor
  · rintro ⟨k, -, hk⟩
    obtain ⟨v, hv, rfl⟩ := Option.map_eq_some_iff.mp hk
    exact hv
  · intro h
    refine ⟨p.1, (o.perm s.keys).mem_iff.mpr ?_, by simp [h]⟩
    exact AList.mem_keys.mp (AList.lookup_isSome.mp (by rw [← CoqStore.find, h]; rfl))

/-! ## Trees -/

/-- The tree of an element whose children stand on lines of their own. -/
def linesTree (attributes : List (Bytes × Bytes)) (ns : List Node) : Ptree :=
  addAll (.text endl :: separate endl ns) (ofAttributes attributes)

/-- The white space between the lines adds no child. -/
theorem children_linesTree (ns : List Node) :
    (linesTree [] ns).children = ns.filterMap Node.tree := by
  rw [linesTree, children_addAll, List.filterMap_cons_none (by rfl), filterMap_tree_separate]
  rfl

/-- An element with one child a line is well formed if its children are. -/
theorem wellFormed_linesNode {tag : Bytes} (htag : IsName tag) {attributes : List (Bytes × Bytes)}
    (hattributes : ∀ a ∈ attributes, IsName a.1) {ns : List Node}
    (hns : ∀ n ∈ ns, n.WellFormed ∧ n.isText = false) :
    (linesNode tag attributes ns).WellFormed := by
  refine ⟨htag, hattributes, trivial, ?_, wellFormedAll_separate hns⟩
  intro _ m hm
  cases ns with
  | nil => cases hm
  | cons n ns =>
    obtain rfl : n = m := Option.some.inj hm
    exact (hns n List.mem_cons_self).2

/-- The document is read as the tree of its root. -/
theorem read_document {o : Origin} {ty : Bytes} (hty : IsName ty) {ns : List Node}
    (hns : ∀ n ∈ ns, n.WellFormed ∧ n.isText = false)
    (hX : ReadsBack readXml (document declaration (comment o) (linesNode ty [] ns))) :
    readXml (document declaration (comment o) (linesNode ty [] ns)) =
      .ok (Ptree.empty.push ty (linesTree [] ns)) := by
  refine hX declaration (comment o) ty [] _ (by decide) ?_ ?_ rfl
  · have hhost : 62 ∉ xmlEscape o.hostname := fun h => (mem_escape h).2.2 rfl
    unfold comment
    simp only [List.mem_append, not_or]
    exact ⟨⟨⟨⟨⟨⟨⟨⟨by decide, by decide⟩, by decide⟩, by decide⟩, by decide⟩, hhost⟩, by decide⟩,
      o.timestamp_ok.2⟩, by decide⟩
  · exact wellFormed_linesNode hty (by simp) hns

/-- The loop over the roots comes to the children of the only one. -/
theorem roots_eq {σ : Type} {ty : Bytes} (hty : ty = ascii "keys" ∨ ty = ascii "files")
    (f : Reading σ → Bytes × Ptree → Reading σ) (r : Reading σ) (t : Ptree) :
    Reading.roots ty f r (Ptree.empty.push ty t) = t.children.foldl f r := by
  have hlegacy : r.warnLegacy ty = r := by
    rcases hty with rfl | rfl <;> rfl
  change (if ty = ty then t.children.foldl f (r.warnLegacy ty) else r.warnLegacy ty) = _
  rw [if_pos rfl, hlegacy]

/-! ## Keys -/

/-- The tree of a key. -/
def keyTree (C : Crypto) (p : Bytes × KeyInformation) : Ptree :=
  addAll [leaf (ascii "secret") (C.toHex256 p.2.pkey), leaf (ascii "iv") (C.toHex128 p.2.ivec)]
    (ofAttributes [(ascii "nchunks", toString10 p.2.localnchunks.u), (ascii "version", p.2.version),
      (ascii "aid", p.1)])

/-- An element with a text only is well formed. -/
theorem wellFormed_leaf {tag : Bytes} (htag : IsName tag) (s : Bytes) : (leaf tag s).WellFormed :=
  ⟨htag, by simp, trivial, by simp, trivial⟩

/-- The element of a key is well formed. -/
theorem wellFormed_keyNode (p : Bytes × KeyInformation) : (keyNode C p).WellFormed := by
  refine ⟨by decide, ?_, ?_⟩
  · have hnames : ∀ n ∈ [ascii "nchunks", ascii "version", ascii "aid"], IsName n := by decide
    simpa using hnames
  · exact ⟨wellFormed_leaf (by decide) _, by simp [leaf, Node.isText],
      wellFormed_leaf (by decide) _, by simp, trivial⟩

/-- A printed key of 256 bits is read back. -/
theorem fromHex256_toHex (hC : C.HexLawful) (k : Key256) :
    fromHex256 C (collapse (C.toHex256 k)) = some k := by
  rw [(plain_of_isHexDigit (hC.digits256 k)).collapse, fromHex256,
    if_pos ⟨hC.length256 k, List.all_eq_true.mpr (hC.digits256 k)⟩, hC.fromHex_toHex256]

/-- A printed key of 128 bits is read back. -/
theorem fromHex128_toHex (hC : C.HexLawful) (k : Key128) :
    fromHex128 C (collapse (C.toHex128 k)) = some k := by
  rw [(plain_of_isHexDigit (hC.digits128 k)).collapse, fromHex128,
    if_pos ⟨hC.length128 k, List.all_eq_true.mpr (hC.digits128 k)⟩, hC.fromHex_toHex128]

/-- A number of chunks is read back as it was written, being in range. -/
theorem ofInt_u (n : Nchunks) : Nchunks.ofInt n.u = n := by
  obtain ⟨u, hmin, hmax⟩ := n
  have hu : (min 256 (max 16 (u : ℤ))).toNat = u := by omega
  unfold Nchunks.ofInt
  simp only [hu]

/-- A key is read as it was written. -/
theorem readKey_keyTree (hC : C.HexLawful) (r : Reading CoqKeyStore) {p : Bytes × KeyInformation}
    (hp : p.1 ≠ []) :
    readKey C r (ascii "key", keyTree C p) =
      { r with store := CoqKeyStore.add r.store p.1 p.2 } := by
  have haid : getString (keyTree C p) [xmlattr, ascii "aid"] = p.1 := rfl
  have hversion : getString (keyTree C p) [xmlattr, ascii "version"] = p.2.version := rfl
  have hnchunks : getInt (keyTree C p) [xmlattr, ascii "nchunks"] 16 = p.2.localnchunks.u := by
    change (translateInt (toString10 p.2.localnchunks.u)).getD 16 = _
    rw [translateInt_toString10 (Nat.lt_of_le_of_lt p.2.localnchunks.le_max (by decide))]
    rfl
  have hsecret : fromHex256 C (getString (keyTree C p) [ascii "secret"]) = some p.2.pkey :=
    fromHex256_toHex hC p.2.pkey
  have hiv : fromHex128 C (getString (keyTree C p) [ascii "iv"]) = some p.2.ivec :=
    fromHex128_toHex hC p.2.ivec
  rw [readKey, if_pos rfl, haid, hversion, hnchunks, hsecret, hiv, ofInt_u]
  dsimp only
  rw [if_neg hp]

/-- The first key that is added for an aid is found. -/
theorem find_foldl_addKey {ps : List (Bytes × KeyInformation)} {K : CoqKeyStore}
    (hps : ∀ p ∈ ps, CoqStore.find K p.1 = some p.2) (T : CoqKeyStore) (aid : Bytes) :
    CoqStore.find (ps.foldl (fun s p => CoqKeyStore.add s p.1 p.2) T) aid =
      (CoqStore.find T aid).or (if aid ∈ ps.map Prod.fst then CoqStore.find K aid else none) := by
  induction ps generalizing T with
  | nil => simp
  | cons p ps ih =>
    have hp := hps p List.mem_cons_self
    rw [List.foldl_cons, ih fun q hq => hps q (List.mem_cons_of_mem _ hq), CoqKeyStore.find_add]
    by_cases heq : aid = p.1
    · subst heq
      have hmem : p.1 ∈ (p :: ps).map Prod.fst := List.mem_map_of_mem List.mem_cons_self
      rw [if_pos rfl, if_pos hmem, hp]
      cases CoqStore.find T p.1 <;> rfl
    · have hmem : aid ∈ (p :: ps).map Prod.fst ↔ aid ∈ ps.map Prod.fst := by
        rw [List.map_cons, List.mem_cons, or_iff_right heq]
      rw [if_neg heq]
      simp only [hmem]

/-- **The keys document**: a key is found if it was there before, or else as it was written. -/
theorem inStream_outStream_keys (hC : C.HexLawful) (o : Origin) (order : HashOrder)
    {K : CoqKeyStore} (hK : ∀ aid, (CoqStore.find K aid).isSome = true → aid ≠ []) (T : CoqKeyStore)
    (hX : ReadsBack readXml (CoqKeyStore.outStream C o order K)) :
    let r := CoqKeyStore.inStream C readXml T (CoqKeyStore.outStream C o order K)
    r.ok = true ∧ r.clog = [] ∧
      ∀ aid, CoqStore.find r.store aid = (CoqStore.find T aid).or (CoqStore.find K aid) := by
  intro r
  have hread : readXml (CoqKeyStore.outStream C o order K) = .ok (Ptree.empty.push (ascii "keys")
      (linesTree [] ((CoqStore.iterate K order).map (keyNode C)))) := by
    rw [keysDocument_eq hC] at hX ⊢
    refine read_document (by decide) (fun n hn => ?_) hX
    obtain ⟨p, -, rfl⟩ := List.mem_map.mp hn
    exact ⟨wellFormed_keyNode p, rfl⟩
  have htrees : ((CoqStore.iterate K order).map (keyNode C)).filterMap Node.tree =
      (CoqStore.iterate K order).map fun p => (ascii "key", keyTree C p) := by
    rw [List.filterMap_map, ← List.filterMap_eq_map]
    rfl
  have hne : ∀ p ∈ CoqStore.iterate K order, p.1 ≠ [] := fun p hp =>
    hK p.1 (by rw [(mem_iterate K order p).mp hp]; rfl)
  have hfold : ∀ (ps : List (Bytes × KeyInformation)) (r : Reading CoqKeyStore),
      (∀ p ∈ ps, p.1 ≠ []) → ps.foldl (fun r p => readKey C r (ascii "key", keyTree C p)) r =
        { r with store := ps.foldl (fun s p => CoqKeyStore.add s p.1 p.2) r.store } := by
    intro ps
    induction ps with
    | nil => exact fun _ _ => rfl
    | cons p ps ih =>
      intro r hps
      rw [List.foldl_cons, readKey_keyTree hC r (hps p List.mem_cons_self),
        ih _ fun q hq => hps q (List.mem_cons_of_mem _ hq)]
      rfl
  have hr : r = ⟨(CoqStore.iterate K order).foldl (fun s p => CoqKeyStore.add s p.1 p.2) T,
      true, []⟩ := by
    change CoqKeyStore.inStream C readXml T (CoqKeyStore.outStream C o order K) = _
    rw [CoqKeyStore.inStream, hread]
    dsimp only
    rw [roots_eq (Or.inl rfl), children_linesTree, htrees, List.foldl_map, hfold _ _ hne]
  refine ⟨by rw [hr], by rw [hr], fun aid => ?_⟩
  rw [hr, find_foldl_addKey fun p hp => (mem_iterate K order p).mp hp]
  congr 1
  split
  · rfl
  · next h =>
    rw [mem_keys_iterate, Bool.not_eq_true, Option.isSome_eq_false_iff, Option.isNone_iff_eq_none] at h
    exact h.symm

/-! ## Blocks and file information -/

/-- The numbers of a block are values of their types. -/
structure Representable (bi : BlockInformation) : Prop where
  blocksize : bi.blocksize < 4294967296
  filepos : bi.filepos < 18446744073709551616
  blockapos : bi.blockapos < 4294967296

/-- A block as it is read. -/
def rereadBlock (bi : BlockInformation) : BlockInformation :=
  { bi with
    blockid := (translateInt (intToString bi.blockid)).getD 0
    blockaid := collapse bi.blockaid }

/-- The file information that is read under a hash. -/
def rereadInfo (fhash : Bytes) (fi : FileInformation) : FileInformation where
  fname := collapse fi.fname
  fhash := fhash
  fsize := fi.fsize
  fowner := collapse fi.fowner
  fpermissions := fi.fpermissions
  fmodified := collapse fi.fmodified
  fchecksum := collapse fi.fchecksum

/-- The tree of a block. -/
def blockTree (C : Crypto) (bi : BlockInformation) : Ptree :=
  addAll [leaf (ascii "aid") bi.blockaid, leaf (ascii "checksum") (C.toHex256 bi.bchecksum)]
    (ofAttributes [(ascii "blockid", intToString bi.blockid),
      (ascii "blocksize", toString10 bi.blocksize), (ascii "filepos", toString10 bi.filepos),
      (ascii "apos", toString10 bi.blockapos)])

/-- The tree of a file. -/
def entryTree (C : Crypto) (fhash : Bytes) (fi : FileInformation) (bis : List BlockInformation) :
    Ptree :=
  linesTree [(ascii "version", formatVersion), (ascii "fhash", fhash)]
    [leaf (ascii "name") fi.fname, leaf (ascii "size") (toString10 fi.fsize),
      leaf (ascii "owner") fi.fowner, leaf (ascii "permissions") (toString10 fi.fpermissions),
      leaf (ascii "modified") fi.fmodified, leaf (ascii "checksum") fi.fchecksum,
      linesNode (ascii "fileblocks") [] (bis.map (blockNode C))]

/-- The element of a block is well formed. -/
theorem wellFormed_blockNode (bi : BlockInformation) : (blockNode C bi).WellFormed := by
  refine ⟨by decide, ?_, ?_⟩
  · have hnames : ∀ n ∈ [ascii "blockid", ascii "blocksize", ascii "filepos", ascii "apos"],
        IsName n := by decide
    simpa using hnames
  · exact ⟨wellFormed_leaf (by decide) _, by simp [leaf, Node.isText],
      wellFormed_leaf (by decide) _, by simp, trivial⟩

/-- The element of a file is well formed. -/
theorem wellFormed_entryNode (fhash : Bytes) (fi : FileInformation) (bis : List BlockInformation) :
    (entryNode C fhash fi bis).WellFormed := by
  have hblocks : (linesNode (ascii "fileblocks") [] (bis.map (blockNode C))).WellFormed := by
    apply wellFormed_linesNode (by decide) (by simp)
    intro n hn
    obtain ⟨bi, -, rfl⟩ := List.mem_map.mp hn
    exact ⟨wellFormed_blockNode bi, rfl⟩
  refine wellFormed_linesNode (by decide) ?_ fun n hn => ?_
  · have hnames : ∀ n ∈ [ascii "version", ascii "fhash"], IsName n := by decide
    simpa using hnames
  · simp only [List.mem_cons, List.not_mem_nil, or_false] at hn
    rcases hn with rfl | rfl | rfl | rfl | rfl | rfl | rfl
    all_goals first
      | exact ⟨hblocks, rfl⟩
      | exact ⟨wellFormed_leaf (by decide) _, rfl⟩

/-- A block is read as it was written. -/
theorem readBlock_blockTree (hC : C.HexLawful) (fhash : Bytes) (r : Reading (List BlockInformation))
    {bi : BlockInformation} (hbi : Representable bi) :
    readBlock C fhash r (ascii "fileblock", blockTree C bi) =
      { r with store := r.store ++ [rereadBlock bi] } := by
  have hsum : fromHex256 C (getString (blockTree C bi) [ascii "checksum"]) = some bi.bchecksum :=
    fromHex256_toHex hC bi.bchecksum
  have hsize : getUint32 (blockTree C bi) [xmlattr, ascii "blocksize"] = bi.blocksize := by
    change (translateUnsigned 4294967296 (toString10 bi.blocksize)).getD 0 = _
    rw [translateUnsigned_toString10 hbi.blocksize]
    rfl
  have hpos : getUint64 (blockTree C bi) [xmlattr, ascii "filepos"] = bi.filepos := by
    change (translateUnsigned 18446744073709551616 (toString10 bi.filepos)).getD 0 = _
    rw [translateUnsigned_toString10 hbi.filepos]
    rfl
  have hapos : getUint32 (blockTree C bi) [xmlattr, ascii "apos"] = bi.blockapos := by
    change (translateUnsigned 4294967296 (toString10 bi.blockapos)).getD 0 = _
    rw [translateUnsigned_toString10 hbi.blockapos]
    rfl
  rw [readBlock, if_pos rfl, hsum]
  dsimp only
  rw [hsize, hpos, hapos]
  rfl

/-- The loop over the blocks of a file reads them in order. -/
theorem foldl_readBlock (hC : C.HexLawful) (fhash : Bytes) {bis : List BlockInformation}
    (hbis : ∀ bi ∈ bis, Representable bi) (r : Reading (List BlockInformation)) :
    (linesTree [] (bis.map (blockNode C))).children.foldl (readBlock C fhash) r =
      { r with store := r.store ++ bis.map rereadBlock } := by
  have htrees : (bis.map (blockNode C)).filterMap Node.tree =
      bis.map fun bi => (ascii "fileblock", blockTree C bi) := by
    rw [List.filterMap_map, ← List.filterMap_eq_map]
    rfl
  rw [children_linesTree, htrees, List.foldl_map]
  induction bis generalizing r with
  | nil => simp
  | cons bi bis ih =>
    rw [List.foldl_cons, readBlock_blockTree hC fhash r (hbis bi List.mem_cons_self),
      ih (fun b hb => hbis b (List.mem_cons_of_mem _ hb)) _ (by
        rw [List.filterMap_map, ← List.filterMap_eq_map]; rfl), List.map_cons, List.append_assoc]
    rfl

/-- An entry adds its blocks, if it has any. -/
theorem readEntry_blocks (hC : C.HexLawful) {fhash : Bytes} (hne : fhash ≠ []) (fi : FileInformation)
    {bis : List BlockInformation} (hbis : ∀ bi ∈ bis, Representable bi) (s : CoqFBlockStore)
    (ok : Bool) (clog : List MetaLine) :
    readEntry C ⟨(none, some s), ok, clog⟩ (ascii "fileinformation", entryTree C fhash fi bis) =
      ⟨(none, some (if bis ≠ [] then CoqStore.add s fhash (bis.map rereadBlock) else s)), ok,
        clog⟩ := by
  have hfhash : getString (entryTree C fhash fi bis) [xmlattr, ascii "fhash"] = fhash := rfl
  have hname : ((entryTree C fhash fi bis).getChild [ascii "name"]).isSome = true := rfl
  have hchild : (entryTree C fhash fi bis).getChild [ascii "fileblocks"] =
      some (linesTree [] (bis.map (blockNode C))) := rfl
  rw [readEntry, if_pos rfl]
  dsimp only
  rw [hfhash, if_neg hne, hname, hchild]
  dsimp only
  have hmap : bis.map rereadBlock ≠ [] ↔ bis ≠ [] := by simp
  simp only [foldl_readBlock hC fhash hbis, List.nil_append, hmap]
  rfl

/-- An entry adds its file information. -/
theorem readEntry_info {fhash : Bytes} (hne : fhash ≠ []) {fi : FileInformation}
    (hsize : fi.fsize < 18446744073709551616) (hperm : fi.fpermissions < 4294967296)
    (bis : List BlockInformation) (s : CoqFInfoStore) (ok : Bool) (clog : List MetaLine) :
    readEntry C ⟨(some s, none), ok, clog⟩ (ascii "fileinformation", entryTree C fhash fi bis) =
      ⟨(some (CoqFInfoStore.add s fhash (rereadInfo fhash fi)), none), ok, clog⟩ := by
  have hfhash : getString (entryTree C fhash fi bis) [xmlattr, ascii "fhash"] = fhash := rfl
  have hname : ((entryTree C fhash fi bis).getChild [ascii "name"]).isSome = true := rfl
  have hinfo : readInfo fhash (entryTree C fhash fi bis) = rereadInfo fhash fi := by
    have hfsize : getUint64 (entryTree C fhash fi bis) [ascii "size"] = fi.fsize := by
      change (translateUnsigned 18446744073709551616 (collapse (toString10 fi.fsize))).getD 0 = _
      rw [(plain_toString10 _).collapse, translateUnsigned_toString10 hsize]
      rfl
    have hfperm : getUint32 (entryTree C fhash fi bis) [ascii "permissions"] = fi.fpermissions := by
      change (translateUnsigned 4294967296 (collapse (toString10 fi.fpermissions))).getD 0 = _
      rw [(plain_toString10 _).collapse, translateUnsigned_toString10 hperm]
      rfl
    rw [readInfo, hfsize, hfperm]
    rfl
  rw [readEntry, if_pos rfl]
  dsimp only
  rw [hfhash, if_neg hne, hname, hinfo]
  rfl

/-- An entry without a hash is passed over. -/
theorem readEntry_nil (r : Reading FilesStores) (fi : FileInformation)
    (bis : List BlockInformation) :
    readEntry C r (ascii "fileinformation", entryTree C [] fi bis) = r := rfl

/-! ## The files document -/

/-- What is found after adding values under some of the keys. -/
theorem find_foldl_add {V : Type} (c : Bytes → Prop) [DecidablePred c] (v : Bytes → V)
    (ks : List Bytes) (T : CoqStore V) (k : Bytes) :
    CoqStore.find (ks.foldl (fun s k => if c k then CoqStore.add s k (v k) else s) T) k =
      if k ∈ ks ∧ c k then some (v k) else CoqStore.find T k := by
  induction ks generalizing T with
  | nil => simp
  | cons k' ks ih =>
    rw [List.foldl_cons, ih]
    by_cases hk : k ∈ ks ∧ c k
    · rw [if_pos hk, if_pos ⟨List.mem_cons_of_mem _ hk.1, hk.2⟩]
    · rw [if_neg hk]
      by_cases heq : k = k'
      · subst heq
        by_cases hc : c k
        · rw [if_pos hc, if_pos ⟨List.mem_cons_self, hc⟩, CoqStore.find_add, if_pos rfl]
        · rw [if_neg hc, if_neg fun h => hc h.2]
      · have hmem : ¬ (k ∈ k' :: ks ∧ c k) := by
          rintro ⟨hmem, hc⟩
          exact hk ⟨(List.mem_cons.mp hmem).resolve_left heq, hc⟩
        rw [if_neg hmem]
        split
        · rw [CoqStore.find_add, if_neg heq]
        · rfl

/-- The hashes of the entries are those of both stores. -/
theorem mem_entryHashes (finfos : Option CoqFInfoStore) (fblocks : Option CoqFBlockStore)
    (forder border : HashOrder) (k : Bytes) :
    k ∈ entryHashes finfos fblocks forder border ↔
      (∃ s ∈ fblocks, (CoqStore.find s k).isSome = true) ∨
        ∃ s ∈ finfos, (CoqStore.find s k).isSome = true := by
  have hinfos : k ∈ (finfos.elim [] fun s => (CoqStore.iterate s forder).map Prod.fst) ↔
      ∃ s ∈ finfos, (CoqStore.find s k).isSome = true := by
    cases finfos with
    | none => simp
    | some s => simpa using mem_keys_iterate s forder k
  have hblocks : k ∈ (fblocks.elim [] fun s => (CoqStore.iterate s border).map Prod.fst) ↔
      ∃ s ∈ fblocks, (CoqStore.find s k).isSome = true := by
    cases fblocks with
    | none => simp
    | some s => simpa using mem_keys_iterate s border k
  have hcontains : (!fblocks.any fun s => s.contains k) = true ↔
      ¬ ∃ s ∈ fblocks, (CoqStore.find s k).isSome = true := by
    cases fblocks with
    | none => simp
    | some s => simp [CoqStore.contains]
  unfold entryHashes
  rw [List.mem_append, List.mem_filter, hblocks, hinfos, hcontains, or_and_left,
    and_iff_left (em _)]

/-- The files document is read as the tree of its entries. -/
theorem read_filesDocument (hC : C.HexLawful) (o : Origin) (finfos : Option CoqFInfoStore)
    (fblocks : Option CoqFBlockStore) (forder border : HashOrder)
    (hX : ReadsBack readXml (writeFilesDocument C o finfos fblocks forder border))
    (stores : FilesStores) :
    readFilesDocument C readXml (writeFilesDocument C o finfos fblocks forder border) stores =
      (entryHashes finfos fblocks forder border).foldl
        (fun r k => readEntry C r (ascii "fileinformation",
          entryTree C k (entryInfo finfos k) (entryBlocks fblocks k))) ⟨stores, true, []⟩ := by
  have htrees : ((entryHashes finfos fblocks forder border).map fun k =>
      entryNode C k (entryInfo finfos k) (entryBlocks fblocks k)).filterMap Node.tree =
      (entryHashes finfos fblocks forder border).map fun k => (ascii "fileinformation",
        entryTree C k (entryInfo finfos k) (entryBlocks fblocks k)) := by
    rw [List.filterMap_map, ← List.filterMap_eq_map]
    rfl
  unfold readFilesDocument
  rw [filesDocument_eq hC] at hX ⊢
  rw [read_document (by decide) (fun n hn => ?_) hX]
  · dsimp only
    rw [roots_eq (Or.inr rfl), children_linesTree, htrees, List.foldl_map]
  · obtain ⟨k, -, rfl⟩ := List.mem_map.mp hn
    exact ⟨wellFormed_entryNode _ _ _, rfl⟩

/-- **The blocks of a files document**: a list that is not empty replaces the one that was there. -/
theorem inStream_filesDocument_blocks (hC : C.HexLawful) (o : Origin)
    (finfos : Option CoqFInfoStore) (fblocks : Option CoqFBlockStore) (forder border : HashOrder)
    (hX : ReadsBack readXml (writeFilesDocument C o finfos fblocks forder border))
    (hblocks : ∀ k, ∀ bi ∈ entryBlocks fblocks k, Representable bi) (T : CoqFBlockStore) :
    let r := CoqFBlockStore.inStream C readXml T
      (writeFilesDocument C o finfos fblocks forder border)
    r.ok = true ∧ r.clog = [] ∧ ∀ k, CoqStore.find r.store k =
      if k ≠ [] ∧ entryBlocks fblocks k ≠ [] then some ((entryBlocks fblocks k).map rereadBlock)
      else CoqStore.find T k := by
  intro r
  have hfold : ∀ (ks : List Bytes) (T : CoqFBlockStore),
      ks.foldl (fun r k => readEntry C r (ascii "fileinformation",
        entryTree C k (entryInfo finfos k) (entryBlocks fblocks k))) ⟨(none, some T), true, []⟩ =
      ⟨(none, some (ks.foldl (fun s k => if k ≠ [] ∧ entryBlocks fblocks k ≠ [] then
        CoqStore.add s k ((entryBlocks fblocks k).map rereadBlock) else s) T)), true, []⟩ := by
    intro ks
    induction ks with
    | nil => exact fun _ => rfl
    | cons k ks ih =>
      intro T
      rw [List.foldl_cons, List.foldl_cons]
      by_cases hk : k = []
      · subst hk
        rw [readEntry_nil, if_neg fun h => h.1 rfl, ih]
      · rw [readEntry_blocks hC hk _ (hblocks k), ih]
        simp [hk]
  have hr : r = ⟨(entryHashes finfos fblocks forder border).foldl
      (fun s k => if k ≠ [] ∧ entryBlocks fblocks k ≠ [] then
        CoqStore.add s k ((entryBlocks fblocks k).map rereadBlock) else s) T, true, []⟩ := by
    change CoqFBlockStore.inStream C readXml T _ = _
    rw [CoqFBlockStore.inStream, read_filesDocument hC _ _ _ _ _ hX, hfold]
    rfl
  refine ⟨by rw [hr], by rw [hr], fun k => ?_⟩
  rw [hr, find_foldl_add (fun k => k ≠ [] ∧ entryBlocks fblocks k ≠ [])]
  have hmem : entryBlocks fblocks k ≠ [] → k ∈ entryHashes finfos fblocks forder border := by
    intro hne
    rw [mem_entryHashes]
    left
    cases fblocks with
    | none => exact absurd rfl hne
    | some s =>
      refine ⟨s, rfl, ?_⟩
      cases hs : CoqStore.find s k with
      | none => exact absurd (by simp [entryBlocks, hs]) hne
      | some l => rfl
  by_cases hne : k ≠ [] ∧ entryBlocks fblocks k ≠ []
  · rw [if_pos ⟨hmem hne.2, hne⟩, if_pos hne]
  · rw [if_neg fun h => hne h.2, if_neg hne]

/-- **The file information of a files document**: every entry replaces the one that was there. -/
theorem inStream_filesDocument_infos (hC : C.HexLawful) (o : Origin)
    (finfos : Option CoqFInfoStore) (fblocks : Option CoqFBlockStore) (forder border : HashOrder)
    (hX : ReadsBack readXml (writeFilesDocument C o finfos fblocks forder border))
    (hinfos : ∀ k, (entryInfo finfos k).fsize < 18446744073709551616 ∧
      (entryInfo finfos k).fpermissions < 4294967296) (T : CoqFInfoStore) :
    let r := CoqFInfoStore.inStream C readXml T
      (writeFilesDocument C o finfos fblocks forder border)
    r.ok = true ∧ r.clog = [] ∧ ∀ k, CoqStore.find r.store k =
      if k ∈ entryHashes finfos fblocks forder border ∧ k ≠ [] then
        some (rereadInfo k (entryInfo finfos k))
      else CoqStore.find T k := by
  intro r
  have hfold : ∀ (ks : List Bytes) (T : CoqFInfoStore),
      ks.foldl (fun r k => readEntry C r (ascii "fileinformation",
        entryTree C k (entryInfo finfos k) (entryBlocks fblocks k))) ⟨(some T, none), true, []⟩ =
      ⟨(some (ks.foldl (fun s k => if k ≠ [] then
        CoqStore.add s k (rereadInfo k (entryInfo finfos k)) else s) T), none), true, []⟩ := by
    intro ks
    induction ks with
    | nil => exact fun _ => rfl
    | cons k ks ih =>
      intro T
      rw [List.foldl_cons, List.foldl_cons]
      by_cases hk : k = []
      · subst hk
        rw [readEntry_nil, if_neg fun h => h rfl, ih]
      · rw [readEntry_info hk (hinfos k).1 (hinfos k).2, ih, if_pos hk]
        rfl
  have hr : r = ⟨(entryHashes finfos fblocks forder border).foldl
      (fun s k => if k ≠ [] then CoqStore.add s k (rereadInfo k (entryInfo finfos k)) else s) T,
      true, []⟩ := by
    change CoqFInfoStore.inStream C readXml T _ = _
    rw [CoqFInfoStore.inStream, read_filesDocument hC _ _ _ _ _ hX, hfold]
    rfl
  refine ⟨by rw [hr], by rw [hr], fun k => ?_⟩
  rw [hr, find_foldl_add (fun k => k ≠ [])]

end Elykseer.Analysis
