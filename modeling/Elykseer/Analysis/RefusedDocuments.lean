import Elykseer.Foundation.Versions
import Elykseer.Analysis.DocumentRoundTrip

/-!
# Documents that are refused

`inStream` refuses a document as a whole only if it is no XML.  An invalid record is
dropped, the others are loaded, and what is returned is `false`.  So a refused keys
document changes no key that is there, since `CoqKeyStore::add` does not; but a refused
files document replaces what is stored under the hashes of its entries, as any files
document does: the newest file information wins, and a list of blocks is replaced as
a whole.  What the document does not mention is unchanged (`refused_keeps`).
-/

set_option autoImplicit false

namespace Elykseer.Analysis

open Elykseer.Model Elykseer.Foundation Elykseer.Foundation.Xml

variable {C : Crypto} {readXml : Bytes → Except Bytes Ptree}

/-- Every entry of `s` is in `s'`, unchanged. -/
def Kept {V : Type} (s s' : CoqStore V) : Prop :=
  ∀ k v, CoqStore.find s k = some v → CoqStore.find s' k = some v

/-! ## The entries of a files document -/

/-- The hash of an entry. -/
def entryHash (entry : Ptree) : Bytes := getString entry [xmlattr, ascii "fhash"]

/-- The element is an entry with a hash. -/
def isEntry (e : Bytes × Ptree) : Bool :=
  e.1 = ascii "fileinformation" && entryHash e.2 ≠ []

/-- The entries of a document, in their order. -/
def fileEntries (pt : Ptree) : List Ptree :=
  (((pt.children.filter fun root => root.1 = ascii "files").flatMap fun root =>
    root.2.children).filter isEntry).map Prod.snd

/-- The entries of a document that is read, none if it is no XML. -/
def documentEntries (readXml : Bytes → Except Bytes Ptree) (ins : Bytes) : List Ptree :=
  match readXml ins with
  | .error _ => []
  | .ok pt => fileEntries pt

/-- The elements of the blocks of an entry. -/
def blockElements (entry : Ptree) : List Ptree :=
  (((entry.getChild [ascii "fileblocks"]).elim [] Ptree.children).filter fun b =>
    b.1 = ascii "fileblock").map Prod.snd

/-- The block of an element, if its checksum is one. -/
def elementBlock (C : Crypto) (b : Ptree) : Option BlockInformation :=
  (fromHex256 C (getString b [ascii "checksum"])).map fun bchecksum =>
    { blockid := getInt b [xmlattr, ascii "blockid"] 0
      bchecksum := bchecksum
      blocksize := getUint32 b [xmlattr, ascii "blocksize"]
      filepos := getUint64 b [xmlattr, ascii "filepos"]
      blockaid := getString b [ascii "aid"]
      blockapos := getUint32 b [xmlattr, ascii "apos"] }

/-- The valid blocks of an entry. -/
def validBlocks (C : Crypto) (entry : Ptree) : List BlockInformation :=
  (blockElements entry).filterMap (elementBlock C)

/-- All blocks of an entry are valid. -/
def Whole (C : Crypto) (entry : Ptree) : Prop :=
  ∀ b ∈ blockElements entry, (elementBlock C b).isSome = true

/-- The entry has file information. -/
def hasName (entry : Ptree) : Bool := (entry.getChild [ascii "name"]).isSome

/-- What an entry does to the store of the file information. -/
def storeInfo (s : CoqFInfoStore) (entry : Ptree) : CoqFInfoStore :=
  if hasName entry = true then CoqStore.add s (entryHash entry) (readInfo (entryHash entry) entry)
  else s

/-- What an entry does to the store of the blocks. -/
def storeBlocks (C : Crypto) (s : CoqFBlockStore) (entry : Ptree) : CoqFBlockStore :=
  if decide (validBlocks C entry ≠ []) = true then
    CoqStore.add s (entryHash entry) (validBlocks C entry)
  else s

/-! ## What is read of them -/

/-- Reading an element adds a block if it is one and can be read. -/
theorem store_readBlock (fhash : Bytes) (r : Reading (List BlockInformation)) (b : Bytes × Ptree) :
    (readBlock C fhash r b).store = r.store ++
      if b.1 = ascii "fileblock" then (elementBlock C b.2).toList else [] := by
  unfold readBlock elementBlock
  split
  · cases fromHex256 C (getString b.2 [ascii "checksum"]) with
    | none => exact (List.append_nil _).symm
    | some bchecksum => rfl
  · exact (List.append_nil _).symm

/-- The loop over the blocks of an entry collects the valid ones. -/
theorem store_foldl_readBlock (fhash : Bytes) (bs : List (Bytes × Ptree))
    (r : Reading (List BlockInformation)) :
    (bs.foldl (readBlock C fhash) r).store = r.store ++
      ((bs.filter fun b => b.1 = ascii "fileblock").map Prod.snd).filterMap (elementBlock C) := by
  induction bs generalizing r with
  | nil => exact (List.append_nil _).symm
  | cons b bs ih =>
    rw [List.foldl_cons, ih, store_readBlock, List.append_assoc]
    congr 1
    by_cases hb : b.1 = ascii "fileblock"
    · rw [if_pos hb, List.filter_cons_of_pos (by simpa using hb), List.map_cons,
        List.filterMap_cons]
      cases elementBlock C b.2 <;> rfl
    · rw [if_neg hb, List.filter_cons_of_neg (by simpa using hb)]
      rfl

/-- An entry is stored, and whatever else stands in the document is passed over. -/
theorem store_readEntry (r : Reading FilesStores) (e : Bytes × Ptree) :
    (readEntry C r e).store =
      if isEntry e = true then
        (r.store.1.map fun s => storeInfo s e.2, r.store.2.map fun s => storeBlocks C s e.2)
      else r.store := by
  obtain ⟨⟨finfos, fblocks⟩, ok, clog⟩ := r
  unfold isEntry
  by_cases hname : e.1 = ascii "fileinformation"
  · by_cases hhash : entryHash e.2 = []
    · rw [if_neg (by simp [hhash]), readEntry, if_pos hname]
      exact congrArg Reading.store (if_pos hhash)
    · have hinfos : (if (e.2.getChild [ascii "name"]).isSome = true then
          finfos.map fun s => CoqFInfoStore.add s (entryHash e.2) (readInfo (entryHash e.2) e.2)
          else finfos) = finfos.map fun s => storeInfo s e.2 := by
        unfold storeInfo hasName
        split
        · rfl
        · exact Option.map_id'.symm
      rw [if_pos (by simp [hname, hhash]), readEntry, if_pos hname]
      apply (congrArg Reading.store (if_neg hhash)).trans
      cases fblocks with
      | none => exact congrArg (·, none) hinfos
      | some s =>
        dsimp only
        refine Prod.ext hinfos (congrArg some ?_)
        unfold storeBlocks validBlocks blockElements
        cases e.2.getChild [ascii "fileblocks"] with
        | none => rfl
        | some fbs =>
          dsimp only
          rw [store_foldl_readBlock]
          simp only [List.nil_append, decide_eq_true_eq]
          rfl
  · rw [if_neg (by simp [hname]), readEntry, if_neg hname]

/-- What a list of entries does to the stores. -/
def storeEntries (C : Crypto) (stores : FilesStores) (entries : List Ptree) : FilesStores :=
  (stores.1.map fun s => entries.foldl storeInfo s,
    stores.2.map fun s => entries.foldl (storeBlocks C) s)

/-- Entries in two parts are stored one part after the other. -/
theorem storeEntries_append (stores : FilesStores) (es es' : List Ptree) :
    storeEntries C stores (es ++ es') = storeEntries C (storeEntries C stores es) es' := by
  simp only [storeEntries, List.foldl_append, Option.map_map, Function.comp_def]

/-- The loop over the children of a root stores those that are entries. -/
theorem store_foldl_readEntry (es : List (Bytes × Ptree)) (r : Reading FilesStores) :
    (es.foldl (readEntry C) r).store =
      storeEntries C r.store ((es.filter isEntry).map Prod.snd) := by
  induction es generalizing r with
  | nil => simp [storeEntries]
  | cons e es ih =>
    rw [List.foldl_cons, ih, store_readEntry]
    by_cases he : isEntry e = true
    · rw [if_pos he, List.filter_cons_of_pos he, List.map_cons, ← List.singleton_append,
        storeEntries_append]
      rfl
    · rw [if_neg he, List.filter_cons_of_neg he]

/-- The entries of the document are stored one after the other. -/
theorem store_roots (pt : Ptree) (r : Reading FilesStores) :
    (Reading.roots (ascii "files") (readEntry C) r pt).store =
      storeEntries C r.store (fileEntries pt) := by
  unfold Reading.roots fileEntries
  generalize pt.children = roots
  induction roots generalizing r with
  | nil => simp [storeEntries]
  | cons root roots ih =>
    have hwarn : (r.warnLegacy root.1).store = r.store := by
      unfold Reading.warnLegacy
      split <;> rfl
    rw [List.foldl_cons, ih]
    by_cases hroot : root.1 = ascii "files"
    · rw [List.filter_cons_of_pos (by simpa using hroot), List.flatMap_cons, List.filter_append,
        List.map_append, storeEntries_append]
      dsimp only
      rw [if_pos hroot, store_foldl_readEntry, hwarn]
    · rw [List.filter_cons_of_neg (by simpa using hroot)]
      dsimp only
      rw [if_neg hroot, hwarn]

/-- **What reading a files document stores**: its entries, in their order. -/
theorem store_readFilesDocument (ins : Bytes) (stores : FilesStores) :
    (readFilesDocument C readXml ins stores).store =
      storeEntries C stores (documentEntries readXml ins) := by
  unfold readFilesDocument documentEntries
  cases readXml ins with
  | error what => simp [storeEntries]
  | ok pt => exact store_roots pt _

/-- Without a store for the blocks, only a document that is no XML is refused. -/
theorem ok_readFilesDocument_infos (ins : Bytes) (finfos : Option CoqFInfoStore) {pt : Ptree}
    (hread : readXml ins = .ok pt) :
    (readFilesDocument C readXml ins (finfos, none)).ok = true := by
  have hentry : ∀ (r : Reading FilesStores) (e : Bytes × Ptree),
      r.store.2 = none ∧ r.ok = true →
        (readEntry C r e).store.2 = none ∧ (readEntry C r e).ok = true := by
    rintro ⟨⟨finfos, fblocks⟩, ok, clog⟩ e ⟨hnone, hok⟩
    cases hnone
    unfold readEntry
    split
    · dsimp only
      split
      · exact ⟨rfl, hok⟩
      · exact ⟨rfl, hok⟩
    · exact ⟨rfl, hok⟩
  have hroots : ∀ (roots : List (Bytes × Ptree)) (r : Reading FilesStores),
      r.store.2 = none ∧ r.ok = true → (roots.foldl (fun r root =>
        let r' := r.warnLegacy root.1
        if root.1 = ascii "files" then root.2.children.foldl (readEntry C) r' else r') r).ok =
          true := by
    intro roots r hr
    refine (List.foldlRecOn
      (motive := fun r : Reading FilesStores => r.store.2 = none ∧ r.ok = true) roots _ hr
      fun r hr root _ => ?_).2
    have hwarn : (r.warnLegacy root.1).store.2 = none ∧ (r.warnLegacy root.1).ok = true := by
      unfold Reading.warnLegacy
      split <;> exact hr
    dsimp only
    split
    · exact List.foldlRecOn (motive := fun r : Reading FilesStores =>
        r.store.2 = none ∧ r.ok = true) _ _ hwarn fun r hr e _ => hentry r e hr
    · exact hwarn
  unfold readFilesDocument
  rw [hread]
  exact hroots pt.children _ ⟨rfl, rfl⟩

/-! ## The newest entry wins -/

/-- What is found after a list of entries of which some add a value under their hash. -/
theorem find_foldl_store {V : Type} {c : Ptree → Bool} {v : Ptree → V} (es : List Ptree)
    (s : CoqStore V) (k : Bytes) :
    CoqStore.find (es.foldl (fun s e =>
        if c e = true then CoqStore.add s (entryHash e) (v e) else s) s) k =
      ((Versions.newest (fun e => c e && entryHash e = k) es).map v).or (CoqStore.find s k) := by
  induction es using List.reverseRecOn with
  | nil => rfl
  | append_singleton es e ih =>
    rw [List.foldl_append, List.foldl_cons, List.foldl_nil]
    by_cases hc : c e = true
    · rw [if_pos hc, CoqStore.find_add]
      by_cases hk : k = entryHash e
      · rw [if_pos hk, Versions.newest_concat es (by simp [hc, hk])]
        rfl
      · have hne : entryHash e ≠ k := fun h => hk h.symm
        rw [if_neg hk, ih, Versions.newest_append_of_forall_not es (by simp [hne])]
    · rw [if_neg hc, ih, Versions.newest_append_of_forall_not es (by simp [hc])]

/-- A store after a document was read into it: nothing is lost, what the document does not mention
is unchanged, and the newest entry under a hash replaces what was there if it is whole. -/
structure NewestWins {V : Type} (newest : Bytes → Option Ptree) (v : Ptree → V)
    (whole : Ptree → Prop) (s s' : CoqStore V) : Prop where
  present : ∀ k, (CoqStore.find s k).isSome = true → (CoqStore.find s' k).isSome = true
  unchanged : ∀ k, newest k = none → CoqStore.find s' k = CoqStore.find s k
  replaced : ∀ k e, newest k = some e → whole e → CoqStore.find s' k = some (v e)

/-- The newest entries win if each key is looked up there first. -/
theorem newestWins_of_find {V : Type} {newest : Bytes → Option Ptree} {v : Ptree → V}
    {whole : Ptree → Prop} {s s' : CoqStore V}
    (h : ∀ k, CoqStore.find s' k = ((newest k).map v).or (CoqStore.find s k)) :
    NewestWins newest v whole s s' where
  present := by
    intro k hk
    rw [h]
    cases newest k with
    | none => exact hk
    | some e => rfl
  unchanged := by
    intro k hk
    rw [h, hk]
    rfl
  replaced := by
    intro k e he _
    rw [h, he]
    rfl

/-- What a files document does to the file information: entries with a name count. -/
def InfosAfter (readXml : Bytes → Except Bytes Ptree) (ins : Bytes) (s s' : CoqFInfoStore) : Prop :=
  NewestWins
    (fun k => Versions.newest (fun e => hasName e && entryHash e = k) (documentEntries readXml ins))
    (fun e => readInfo (entryHash e) e) (fun _ => True) s s'

/-- What a files document does to the lists of blocks: entries with a valid block count. -/
def BlocksAfter (C : Crypto) (readXml : Bytes → Except Bytes Ptree) (ins : Bytes)
    (s s' : CoqFBlockStore) : Prop :=
  NewestWins
    (fun k => Versions.newest (fun e => decide (validBlocks C e ≠ []) && entryHash e = k)
      (documentEntries readXml ins))
    (validBlocks C) (Whole C) s s'

/-- **What a refused document leaves**: every key; every file information that is read alone; and
of the lists of blocks, alone or together with the file information, all that the document has no
entry for, while the entry of a hash that it has replaces what was there. -/
theorem refused_keeps (C : Crypto) (readXml : Bytes → Except Bytes Ptree) (ins : Bytes) :
    (∀ K : CoqKeyStore, let r := CoqKeyStore.inStream C readXml K ins
      r.ok = false → Kept K r.store) ∧
    (∀ I : CoqFInfoStore, let r := CoqFInfoStore.inStream C readXml I ins
      r.ok = false → Kept I r.store) ∧
    (∀ B : CoqFBlockStore, let r := CoqFBlockStore.inStream C readXml B ins
      r.ok = false → BlocksAfter C readXml ins B r.store) ∧
    ∀ (I : CoqFInfoStore) (B : CoqFBlockStore), let r := filesStreamIn C readXml I B ins
      r.ok = false → InfosAfter readXml ins I r.store.1 ∧ BlocksAfter C readXml ins B r.store.2 := by
  have hinfos : ∀ (I : CoqFInfoStore) (k : Bytes),
      CoqStore.find ((documentEntries readXml ins).foldl storeInfo I) k =
        ((Versions.newest (fun e => hasName e && entryHash e = k)
          (documentEntries readXml ins)).map fun e => readInfo (entryHash e) e).or
            (CoqStore.find I k) := fun I k => find_foldl_store _ I k
  have hblocks : ∀ (B : CoqFBlockStore) (k : Bytes),
      CoqStore.find ((documentEntries readXml ins).foldl (storeBlocks C) B) k =
        ((Versions.newest (fun e => decide (validBlocks C e ≠ []) && entryHash e = k)
          (documentEntries readXml ins)).map (validBlocks C)).or
            (CoqStore.find B k) := fun B k => find_foldl_store _ B k
  refine ⟨?_, ?_, ?_, ?_⟩
  · intro K r _
    exact (grows_inStream K ins).1
  · intro I r hr
    cases hread : readXml ins with
    | error what =>
      have hstore : r.store = I := by
        change (readFilesDocument C readXml ins (some I, none)).store.1.getD I = I
        unfold readFilesDocument
        rw [hread]
        rfl
      rw [hstore]
      exact fun _ _ h => h
    | ok pt =>
      have hok : r.ok = true := ok_readFilesDocument_infos ins (some I) hread
      rw [hok] at hr
      cases hr
  · intro B r _
    apply newestWins_of_find
    intro k
    have hstore : r.store = (documentEntries readXml ins).foldl (storeBlocks C) B := by
      change (readFilesDocument C readXml ins (none, some B)).store.2.getD B = _
      rw [store_readFilesDocument]
      rfl
    rw [hstore, hblocks]
  · intro I B r _
    have hstore : r.store = ((documentEntries readXml ins).foldl storeInfo I,
        (documentEntries readXml ins).foldl (storeBlocks C) B) := by
      change ((readFilesDocument C readXml ins (some I, some B)).store.1.getD I,
        (readFilesDocument C readXml ins (some I, some B)).store.2.getD B) = _
      rw [store_readFilesDocument]
      rfl
    rw [hstore]
    exact ⟨newestWins_of_find (hinfos I), newestWins_of_find (hblocks B)⟩

/-! ## A document with an invalid checksum -/

/-- A block of one byte at a position of the assembly `a`. -/
def byteBlock (blockapos : ℕ) : BlockInformation :=
  ⟨1, simple.sha3 [1], 1, 0, ascii "a", blockapos⟩

/-- An entry for the file `f` with one block, and one for the file `g` whose only block has no
checksum. -/
def halfValid : List Node :=
  [entryNode simple (ascii "f") .blank [byteBlock 16],
    linesNode (ascii "fileinformation") [(ascii "fhash", ascii "g")]
      [linesNode (ascii "fileblocks") []
        [.element (ascii "fileblock") [] [leaf (ascii "checksum") (ascii "abc")]]]]

/-- The document of these two entries. -/
def halfValidDocument : Bytes :=
  document declaration (comment noOrigin) (linesNode (ascii "files") [] halfValid)

/-- How the half valid document is parsed. -/
theorem parse_halfValidDocument :
    parse halfValidDocument = .ok (Ptree.empty.push (ascii "files") (linesTree [] halfValid)) := by
  apply read_document (by decide) _ (parse_readsBack _)
  intro n hn
  simp only [halfValid, List.mem_cons, List.not_mem_nil, or_false] at hn
  rcases hn with rfl | rfl
  · exact ⟨wellFormed_entryNode _ _ _, rfl⟩
  · have hblock : (Node.element (ascii "fileblock") []
        [leaf (ascii "checksum") (ascii "abc")]).WellFormed :=
      ⟨by decide, by simp, wellFormed_leaf (by decide) _, by simp [leaf, Node.isText], trivial⟩
    have hblocks : (linesNode (ascii "fileblocks") []
        [.element (ascii "fileblock") [] [leaf (ascii "checksum") (ascii "abc")]]).WellFormed := by
      apply wellFormed_linesNode (by decide) (by simp)
      intro m hm
      rw [List.mem_singleton.mp hm]
      exact ⟨hblock, rfl⟩
    refine ⟨?_, rfl⟩
    apply wellFormed_linesNode (by decide)
    · have hname : IsName (ascii "fhash") := by decide
      simpa using hname
    · intro m hm
      rw [List.mem_singleton.mp hm]
      exact ⟨hblocks, rfl⟩

/-- The block of `f` is stored, the one of `g` is dropped, and the document is refused. -/
theorem inStream_halfValidDocument (B : CoqFBlockStore) :
    CoqFBlockStore.inStream simple parse B halfValidDocument =
      ⟨CoqStore.add B (ascii "f") [byteBlock 16], false, [.invalidChecksum (ascii "g")]⟩ := by
  have hread : readFilesDocument simple parse halfValidDocument (none, some B) =
      Reading.roots (ascii "files") (readEntry simple) ⟨(none, some B), true, []⟩
        (Ptree.empty.push (ascii "files") (linesTree [] halfValid)) := by
    unfold readFilesDocument
    rw [parse_halfValidDocument]
  unfold CoqFBlockStore.inStream
  rw [hread]
  rfl

/-- What is stored for `f` is replaced. -/
theorem refused_replaces :
    let B := CoqFBlockStore.add ∅ (ascii "f") (byteBlock 32)
    let r := CoqFBlockStore.inStream simple parse B halfValidDocument
    r.ok = false ∧ CoqStore.find B (ascii "f") = some [byteBlock 32] ∧
      CoqStore.find r.store (ascii "f") = some [byteBlock 16] ∧ ¬ Kept B r.store := by
  intro B r
  have hr : r = _ := inStream_halfValidDocument B
  have hB : CoqStore.find B (ascii "f") = some [byteBlock 32] := rfl
  have hfind : CoqStore.find r.store (ascii "f") = some [byteBlock 16] := by
    rw [hr]
    rfl
  refine ⟨by rw [hr], hB, hfind, ?_⟩
  intro hkept
  have hboth : some [byteBlock 16] = some [byteBlock 32] := hfind.symm.trans (hkept _ _ hB)
  simp [byteBlock] at hboth

/-- What is stored for another file is unchanged. -/
theorem refused_keeps_simple :
    let B := CoqFBlockStore.add ∅ (ascii "h") (byteBlock 48)
    let r := CoqFBlockStore.inStream simple parse B halfValidDocument
    r.ok = false ∧ CoqStore.find r.store (ascii "h") = some [byteBlock 48] := by
  intro B r
  have hok : r.ok = false := congrArg Reading.ok (inStream_halfValidDocument B)
  have hentries : documentEntries parse halfValidDocument =
      fileEntries (Ptree.empty.push (ascii "files") (linesTree [] halfValid)) := by
    unfold documentEntries
    rw [parse_halfValidDocument]
  have hafter := (refused_keeps simple parse halfValidDocument).2.2.1 B hok
  refine ⟨hok, (hafter.unchanged (ascii "h") ?_).trans rfl⟩
  rw [hentries]
  rfl

end Elykseer.Analysis
