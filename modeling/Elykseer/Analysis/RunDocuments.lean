import Elykseer.Analysis.DocumentRoundTrip
import Elykseer.Model.Tools

/-!
# The documents of a backup run

Boost reads a document up to the first zero byte.  The stores of a run hold none, so what
`LXRbackup` writes is read back: `documented` says what the keys document and the files
document add to the stores they are read into.
-/

set_option autoImplicit false

namespace Elykseer.Analysis

open Elykseer.Model Elykseer.Foundation Elykseer.Foundation.Xml

variable {C : Crypto} {cfg : CoqConfiguration} {readXml : Bytes → Except Bytes Ptree}

/-! ## Texts without zero bytes -/

/-- Escaping adds no zero byte. -/
theorem zero_notMem_xmlEscape {s : Bytes} (h : 0 ∉ s) : 0 ∉ xmlEscape s := by
  intro hmem
  obtain ⟨c, hc, hmem⟩ := List.mem_flatMap.mp hmem
  split at hmem
  · exact absurd hmem (by decide)
  split at hmem
  · exact absurd hmem (by decide)
  split at hmem
  · exact absurd hmem (by decide)
  split at hmem
  · exact absurd hmem (by decide)
  split at hmem
  · exact absurd hmem (by decide)
  · rw [List.mem_singleton.mp hmem] at h
    exact h hc

/-- A printed number has no zero byte. -/
theorem zero_notMem_toString10 (n : ℕ) : 0 ∉ toString10 n := (plain_toString10 n).zero_notMem

/-- A printed key has no zero byte. -/
theorem zero_notMem_toHex256 (hC : C.HexLawful) (k : Key256) : 0 ∉ C.toHex256 k :=
  (plain_of_isHexDigit (hC.digits256 k)).zero_notMem

/-- Collapsing white space adds no zero byte. -/
theorem zero_notMem_collapse {s : Bytes} (h : 0 ∉ s) : 0 ∉ collapse s := by
  intro hmem
  rcases mem_collapse hmem with hmem | h32
  · exact h hmem
  · exact absurd h32 (by decide)

/-- The header of a document has no zero byte. -/
theorem zero_notMem_outputHeader (o : Origin) {ty : Bytes} (h : 0 ∉ ty) :
    0 ∉ outputHeader o ty := by
  have hhost := zero_notMem_xmlEscape o.hostname_ok
  have htime := o.timestamp_ok.1
  simp only [outputHeader, List.mem_append, hhost, htime, h, or_false]
  decide

/-- The line of a key has no zero byte. -/
theorem zero_notMem_writeKey (hC : C.HexLawful) {p : Bytes × KeyInformation} (haid : 0 ∉ p.1)
    (hversion : 0 ∉ p.2.version) : 0 ∉ writeKey C p := by
  have hchunks := zero_notMem_toString10 p.2.localnchunks.u
  have hsecret := zero_notMem_toHex256 hC p.2.pkey
  have hiv : 0 ∉ C.toHex128 p.2.ivec := (plain_of_isHexDigit (hC.digits128 p.2.ivec)).zero_notMem
  have haid' := zero_notMem_xmlEscape haid
  have hversion' := zero_notMem_xmlEscape hversion
  simp only [writeKey, List.mem_append, hchunks, hsecret, hiv, haid', hversion', or_false]
  decide

/-- The line of a block has no zero byte. -/
theorem zero_notMem_writeBlock (hC : C.HexLawful) {bi : BlockInformation} (h : 0 ∉ bi.blockaid) :
    0 ∉ writeBlock C bi := by
  have hid := (plain_intToString bi.blockid).zero_notMem
  have hsize := zero_notMem_toString10 bi.blocksize
  have hpos := zero_notMem_toString10 bi.filepos
  have hapos := zero_notMem_toString10 bi.blockapos
  have hsum := zero_notMem_toHex256 hC bi.bchecksum
  have haid := zero_notMem_xmlEscape h
  simp only [writeBlock, List.mem_append, hid, hsize, hpos, hapos, hsum, haid, or_false]
  decide

/-! ## Stores without zero bytes -/

/-- A file information that the files document can carry. -/
structure Recordable (fhash : Bytes) (fi : FileInformation) : Prop where
  fhash : 0 ∉ fhash
  fname : 0 ∉ fi.fname
  fsize : fi.fsize < 18446744073709551616
  fowner : 0 ∉ fi.fowner
  fpermissions : fi.fpermissions < 4294967296
  fmodified : 0 ∉ fi.fmodified
  fchecksum : 0 ∉ fi.fchecksum

/-- All entries of a file-information store can be carried. -/
def AllRecordable (finfos : CoqFInfoStore) : Prop :=
  ∀ fhash fi, CoqStore.find finfos fhash = some fi → Recordable fhash fi

/-- No text in the stores of a run holds a zero byte. -/
structure ZeroFree (keys : CoqKeyStore) (fblocks : CoqFBlockStore) (finfos : CoqFInfoStore) :
    Prop where
  keys : ∀ aid ki, CoqStore.find keys aid = some ki → aid ≠ [] ∧ 0 ∉ aid ∧ 0 ∉ ki.version
  blocks : ∀ fhash l, CoqStore.find fblocks fhash = some l →
    0 ∉ fhash ∧ ∀ bi ∈ l, 0 ∉ bi.blockaid
  infos : AllRecordable finfos

/-- An empty store can be carried. -/
theorem allRecordable_empty : AllRecordable ∅ := by
  intro fhash fi h
  rw [CoqStore.find_empty] at h
  cases h

/-- A blank file information can be carried. -/
theorem Recordable.blank {fhash : Bytes} (h : 0 ∉ fhash) : Recordable fhash FileInformation.blank :=
  ⟨h, by decide, by decide, by decide, by decide, by decide, by decide⟩

/-- What is read back can be carried again. -/
theorem Recordable.reread {fhash : Bytes} {fi : FileInformation} (h : Recordable fhash fi) :
    Recordable fhash (rereadInfo fhash fi) where
  fhash := h.fhash
  fname := zero_notMem_collapse h.fname
  fsize := h.fsize
  fowner := zero_notMem_collapse h.fowner
  fpermissions := h.fpermissions
  fmodified := zero_notMem_collapse h.fmodified
  fchecksum := zero_notMem_collapse h.fchecksum

/-- The information of each entry can be carried. -/
theorem ZeroFree.recordable {keys : CoqKeyStore} {fblocks : CoqFBlockStore} {finfos : CoqFInfoStore}
    (h : ZeroFree keys fblocks finfos) {fhash : Bytes} (hzero : 0 ∉ fhash) :
    Recordable fhash (entryInfo (some finfos) fhash) := by
  cases hfind : CoqStore.find finfos fhash with
  | none =>
    have hblank : entryInfo (some finfos) fhash = .blank := by simp [entryInfo, hfind]
    rw [hblank]
    exact Recordable.blank hzero
  | some fi =>
    have hinfo : entryInfo (some finfos) fhash = fi := by simp [entryInfo, hfind]
    rw [hinfo]
    exact h.infos fhash fi hfind

/-- The hashes of the entries have no zero byte. -/
theorem ZeroFree.hash {keys : CoqKeyStore} {fblocks : CoqFBlockStore}
    {finfos : CoqFInfoStore} (h : ZeroFree keys fblocks finfos) {forder border : HashOrder}
    {fhash : Bytes} (hmem : fhash ∈ entryHashes (some finfos) (some fblocks) forder border) :
    0 ∉ fhash := by
  rw [mem_entryHashes] at hmem
  rcases hmem with ⟨s, hs, hsome⟩ | ⟨s, hs, hsome⟩
  · cases hs
    obtain ⟨l, hl⟩ := Option.isSome_iff_exists.mp hsome
    exact (h.blocks fhash l hl).1
  · cases hs
    obtain ⟨fi, hfi⟩ := Option.isSome_iff_exists.mp hsome
    exact (h.infos fhash fi hfi).fhash

/-- The lines of an entry have no zero byte. -/
theorem ZeroFree.entry (hC : C.HexLawful) {keys : CoqKeyStore} {fblocks : CoqFBlockStore}
    {finfos : CoqFInfoStore} (h : ZeroFree keys fblocks finfos) {fhash : Bytes}
    (hzero : 0 ∉ fhash) : 0 ∉ writeEntry C (some finfos) (some fblocks) fhash := by
  have hinfo := h.recordable hzero
  have hhash := zero_notMem_xmlEscape hzero
  have hname := zero_notMem_xmlEscape hinfo.fname
  have howner := zero_notMem_xmlEscape hinfo.fowner
  have hmodified := zero_notMem_xmlEscape hinfo.fmodified
  have hsum := zero_notMem_xmlEscape hinfo.fchecksum
  have hsize := zero_notMem_toString10 (entryInfo (some finfos) fhash).fsize
  have hperm := zero_notMem_toString10 (entryInfo (some finfos) fhash).fpermissions
  have hblocks : 0 ∉ (entryBlocks (some fblocks) fhash).flatMap (writeBlock C) := by
    intro hmem
    obtain ⟨bi, hbi, hmem⟩ := List.mem_flatMap.mp hmem
    cases hfind : CoqStore.find fblocks fhash with
    | none => simp [entryBlocks, hfind] at hbi
    | some l =>
      rw [show entryBlocks (some fblocks) fhash = l by simp [entryBlocks, hfind]] at hbi
      exact zero_notMem_writeBlock hC ((h.blocks fhash l hfind).2 bi hbi) hmem
  unfold writeEntry
  dsimp only
  simp only [List.mem_append, not_or, hhash, hname, howner, hmodified, hsum, hsize, hperm, hblocks,
    not_false_eq_true, and_true]
  and_intros <;> decide

/-- The document of the keys has no zero byte. -/
theorem ZeroFree.keysDocument (hC : C.HexLawful) {keys : CoqKeyStore} {fblocks : CoqFBlockStore}
    {finfos : CoqFInfoStore} (h : ZeroFree keys fblocks finfos) (o : Origin) (order : HashOrder) :
    0 ∉ CoqKeyStore.outStream C o order keys := by
  have hheader : 0 ∉ outputHeader o (ascii "keys") := zero_notMem_outputHeader o (by decide)
  have hkeys : 0 ∉ (CoqStore.iterate keys order).flatMap (writeKey C) := by
    intro hmem
    obtain ⟨p, hp, hmem⟩ := List.mem_flatMap.mp hmem
    obtain ⟨-, haid, hversion⟩ := h.keys p.1 p.2 ((mem_iterate keys order p).mp hp)
    exact zero_notMem_writeKey hC haid hversion hmem
  simp only [CoqKeyStore.outStream, List.mem_append, hheader, hkeys, or_false]
  decide

/-- The document of the files has no zero byte. -/
theorem ZeroFree.filesDocument (hC : C.HexLawful) {keys : CoqKeyStore} {fblocks : CoqFBlockStore}
    {finfos : CoqFInfoStore} (h : ZeroFree keys fblocks finfos) (o : Origin)
    (forder border : HashOrder) : 0 ∉ filesStream C o forder border finfos fblocks := by
  have hheader : 0 ∉ outputHeader o (ascii "files") := zero_notMem_outputHeader o (by decide)
  have hentries : 0 ∉ (entryHashes (some finfos) (some fblocks) forder border).flatMap
      (writeEntry C (some finfos) (some fblocks)) := by
    intro hmem
    obtain ⟨fhash, hhash, hmem⟩ := List.mem_flatMap.mp hmem
    exact h.entry hC (h.hash hhash) hmem
  simp only [filesStream, writeFilesDocument, List.mem_append, hheader, hentries, or_false]
  decide

/-! ## Reading the documents -/

/-- What the documents of a run add to the stores they are read into. -/
structure Documented (C : Crypto) (readXml : Bytes → Except Bytes Ptree) (docs : Documents)
    (keys : CoqKeyStore) (fblocks : CoqFBlockStore) (finfos : CoqFInfoStore) : Prop where
  keysRead : ∀ T, ∃ T', addDbkeyPath C readXml T docs.keys = .ok T' ∧
    ∀ aid, CoqStore.find T' aid = (CoqStore.find T aid).or (CoqStore.find keys aid)
  blocksRead : (∀ fhash, ∀ bi ∈ CoqFBlockStore.blocks fblocks fhash, Representable bi) →
    ∀ T, ∃ T', addDbfbPath C readXml T docs.files = .ok T' ∧
      ∀ fhash, fhash ≠ [] → CoqStore.find T' fhash =
        if CoqFBlockStore.blocks fblocks fhash = [] then CoqStore.find T fhash
        else some ((CoqFBlockStore.blocks fblocks fhash).map rereadBlock)
  infosRead : ∃ T', addRefDbfi C readXml ∅ docs.files = .ok T' ∧ AllRecordable T' ∧
    ∀ fhash, fhash ≠ [] →
      (CoqStore.find finfos fhash = none → CoqStore.find fblocks fhash = none) →
      CoqStore.find T' fhash = (CoqStore.find finfos fhash).map (rereadInfo fhash)

/-- The numbers of an entry are in range. -/
theorem AllRecordable.entryInfo_lt {finfos : CoqFInfoStore} (h : AllRecordable finfos)
    (fhash : Bytes) : (entryInfo (some finfos) fhash).fsize < 18446744073709551616 ∧
      (entryInfo (some finfos) fhash).fpermissions < 4294967296 := by
  cases hfind : CoqStore.find finfos fhash with
  | none => simp [entryInfo, hfind, FileInformation.blank]
  | some fi =>
    have hfi := h fhash fi hfind
    simp [entryInfo, hfind, hfi.fsize, hfi.fpermissions]

/-- A hash has an entry if it has file information, and only then if blocks have file information. -/
theorem mem_entryHashes_iff_isSome {finfos : CoqFInfoStore} {fblocks : CoqFBlockStore}
    {forder border : HashOrder} {fhash : Bytes}
    (hsync : CoqStore.find finfos fhash = none → CoqStore.find fblocks fhash = none) :
    fhash ∈ entryHashes (some finfos) (some fblocks) forder border ↔
      (CoqStore.find finfos fhash).isSome = true := by
  rw [mem_entryHashes]
  constructor
  · rintro (⟨_, hs, hsome⟩ | ⟨_, hs, hsome⟩)
    · cases hs
      cases hfind : CoqStore.find finfos fhash with
      | none =>
        rw [hsync hfind] at hsome
        cases hsome
      | some fi => rfl
    · cases hs
      exact hsome
  · intro hsome
    exact Or.inr ⟨_, rfl, hsome⟩

/-- **The documents of a run are read back.** -/
theorem documented (hC : C.HexLawful) (hX : Reads readXml) (call : BackupCall) (s : Session cfg)
    (h : ZeroFree s.cache.keystore s.cache.fblockstore s.cache.finfostore) :
    Documented C readXml (call.documents C s) s.cache.keystore s.cache.fblockstore
      s.cache.finfostore := by
  have hkeys := hX _ (h.keysDocument hC call.keysOrigin call.keysOrder)
  have hfiles := hX _ (h.filesDocument hC call.filesOrigin call.finfosOrder call.fblocksOrder)
  have hdoc : (call.documents C s).files = writeFilesDocument C call.filesOrigin
      (some s.cache.finfostore) (some s.cache.fblockstore) call.finfosOrder call.fblocksOrder := rfl
  refine ⟨fun T => ?_, fun hrep T => ?_, ?_⟩
  · obtain ⟨hok, -, hfind⟩ := inStream_outStream_keys hC call.keysOrigin call.keysOrder
      (fun aid haid => by
        obtain ⟨ki, hki⟩ := Option.isSome_iff_exists.mp haid
        exact (h.keys aid ki hki).1) T hkeys
    exact ⟨_, if_pos hok, hfind⟩
  · obtain ⟨hok, -, hfind⟩ := inStream_filesDocument_blocks hC call.filesOrigin
      (some s.cache.finfostore) (some s.cache.fblockstore) call.finfosOrder call.fblocksOrder hfiles
      hrep T
    rw [hdoc]
    refine ⟨_, if_pos hok, fun fhash hne => ?_⟩
    rw [hfind]
    change (if fhash ≠ [] ∧ CoqFBlockStore.blocks s.cache.fblockstore fhash ≠ [] then
      some ((CoqFBlockStore.blocks s.cache.fblockstore fhash).map rereadBlock) else _) = _
    by_cases hnil : CoqFBlockStore.blocks s.cache.fblockstore fhash = []
    · rw [if_neg fun hand => hand.2 hnil, if_pos hnil]
    · rw [if_pos ⟨hne, hnil⟩, if_neg hnil]
  · obtain ⟨hok, -, hfind⟩ := inStream_filesDocument_infos hC call.filesOrigin
      (some s.cache.finfostore) (some s.cache.fblockstore) call.finfosOrder call.fblocksOrder hfiles
      h.infos.entryInfo_lt ∅
    rw [hdoc]
    refine ⟨_, if_pos hok, fun fhash fi hfi => ?_, fun fhash hne hsync => ?_⟩
    · rw [hfind] at hfi
      split at hfi
      · next hmem =>
        cases hfi
        exact (h.recordable (h.hash hmem.1)).reread
      · rw [CoqStore.find_empty] at hfi
        cases hfi
    · rw [hfind]
      cases hinfo : CoqStore.find s.cache.finfostore fhash with
      | none =>
        rw [if_neg, CoqStore.find_empty, Option.map_none]
        rintro ⟨hmem, -⟩
        have hsome := (mem_entryHashes_iff_isSome hsync).mp hmem
        rw [hinfo] at hsome
        cases hsome
      | some fi =>
        have hmem : fhash ∈ entryHashes (some s.cache.finfostore) (some s.cache.fblockstore)
            call.finfosOrder call.fblocksOrder :=
          (mem_entryHashes_iff_isSome hsync).mpr (by rw [hinfo]; rfl)
        rw [if_pos ⟨hmem, hne⟩, Option.map_some]
        simp [entryInfo, hinfo]

end Elykseer.Analysis
