import Elykseer.Analysis.Documents
import Elykseer.Analysis.ReferenceCrypto
import Elykseer.Foundation.XmlParser

/-!
# Stores and their documents

Block lists and keys survive being written and read (`blockLists_survive`,
`keys_survive`).  File information survives exactly if its texts are not changed by the
trimming of white space and every hash with blocks has file information
(`fileInformation_survives_iff`): for a hash with blocks only, the document has an entry
with empty elements, which is read as file information.
-/

set_option autoImplicit false

namespace Elykseer.Analysis

open Elykseer.Model Elykseer.Foundation Elykseer.Foundation.Xml

variable {C : Crypto} {readXml : Bytes → Except Bytes Ptree}

/-! ## Block lists -/

/-- The store after a sequence of `add`s. -/
def addBlocks (adds : List (Bytes × BlockInformation)) : CoqFBlockStore :=
  adds.foldl (fun s a => CoqFBlockStore.add s a.1 a.2) ∅

/-- A block that can be added: its numbers are values of their types, and its aid contains no white
space. -/
structure Addable (bi : BlockInformation) : Prop where
  representable : Representable bi
  aid : ∀ c ∈ bi.blockaid, isSpace c = false

/-- The conversion to `int32_t` gives a number of 32 bits. -/
theorem i32_range {n : ℕ} (h : n < 4294967296) : -2147483648 ≤ i32 n ∧ i32 n < 2147483648 := by
  unfold i32
  split <;> omega

/-- A numbered block is read as it was. -/
theorem rereadBlock_eq_self {bi : BlockInformation} (h : Addable bi)
    (hid : -2147483648 ≤ bi.blockid ∧ bi.blockid < 2147483648) : rereadBlock bi = bi := by
  rw [rereadBlock, translateInt_intToString hid.1 hid.2, collapse_eq_self h.aid]
  rfl

/-- What is in a store that was built by `add`. -/
theorem addBlocks_inv {adds : List (Bytes × BlockInformation)}
    (hadds : ∀ a ∈ adds, a.1 ≠ [] ∧ Addable a.2) {k : Bytes} {l : List BlockInformation}
    (hl : CoqStore.find (addBlocks adds) k = some l) :
    k ≠ [] ∧ l ≠ [] ∧ ∀ bi ∈ l, Representable bi ∧ rereadBlock bi = bi := by
  induction adds using List.reverseRecOn generalizing l with
  | nil => simp [addBlocks] at hl
  | append_singleton adds a ih =>
    have hold : ∀ l, CoqStore.find (addBlocks adds) k = some l →
        k ≠ [] ∧ l ≠ [] ∧ ∀ bi ∈ l, Representable bi ∧ rereadBlock bi = bi := fun l hl =>
      ih (fun b hb => hadds b (List.mem_append_left _ hb)) hl
    obtain ⟨hne, hadd⟩ := hadds a (by simp)
    have hstep : addBlocks (adds ++ [a]) = CoqFBlockStore.add (addBlocks adds) a.1 a.2 := by
      simp [addBlocks]
    have hnew : ∀ i : ℤ, -2147483648 ≤ i ∧ i < 2147483648 →
        Representable { a.2 with blockid := i } ∧
          rereadBlock { a.2 with blockid := i } = { a.2 with blockid := i } := fun i hi => by
      have hrep : Representable { a.2 with blockid := i } :=
        ⟨hadd.representable.blocksize, hadd.representable.filepos, hadd.representable.blockapos⟩
      exact ⟨hrep, rereadBlock_eq_self ⟨hrep, hadd.aid⟩ hi⟩
    rw [hstep] at hl
    unfold CoqFBlockStore.add at hl
    cases hfind : CoqStore.find (addBlocks adds) a.1 with
    | none =>
      simp only [hfind, CoqStore.find_add] at hl
      split at hl
      · next hk =>
        rw [Option.some.injEq] at hl
        subst hl
        refine ⟨hk ▸ hne, List.cons_ne_nil _ _, fun bi hbi => ?_⟩
        rw [List.mem_singleton.mp hbi]
        exact hnew 1 (by omega)
      · exact hold l hl
    | some l' =>
      simp only [hfind, CoqStore.find_add] at hl
      split at hl
      · next hk =>
        rw [Option.some.injEq] at hl
        subst hl
        refine ⟨hk ▸ hne, by simp, fun bi hbi => ?_⟩
        rcases List.mem_append.mp hbi with hbi | hbi
        · exact (hold l' (hk ▸ hfind)).2.2 bi hbi
        · rw [List.mem_singleton.mp hbi]
          exact hnew _ (i32_range (Nat.mod_lt _ (by omega)))
      · exact hold l hl

/-- **Block lists survive the files document**, with or without file information, whatever the order
in which the hash maps are iterated over. -/
theorem blockLists_survive (hC : C.HexLawful) (adds : List (Bytes × BlockInformation))
    (hadds : ∀ a ∈ adds, a.1 ≠ [] ∧ Addable a.2) (finfos : CoqFInfoStore) (o : Origin)
    (forder border : HashOrder) (doc : Bytes)
    (hdoc : doc = CoqFBlockStore.outStream C o border (addBlocks adds) ∨
      doc = filesStream C o forder border finfos (addBlocks adds))
    (hX : ReadsBack readXml doc) :
    let r := CoqFBlockStore.inStream C readXml ∅ doc
    r.ok = true ∧ ∀ k, CoqStore.find r.store k = CoqStore.find (addBlocks adds) k := by
  obtain ⟨finfos', forder', rfl⟩ : ∃ finfos' forder',
      doc = writeFilesDocument C o finfos' (some (addBlocks adds)) forder' border := by
    rcases hdoc with h | h
    · exact ⟨none, border, h⟩
    · exact ⟨some finfos, forder, h⟩
  have hentry : ∀ k, entryBlocks (some (addBlocks adds)) k =
      (CoqStore.find (addBlocks adds) k).getD [] := fun k => rfl
  have hrep : ∀ k, ∀ bi ∈ entryBlocks (some (addBlocks adds)) k, Representable bi := by
    intro k bi hbi
    rw [hentry] at hbi
    cases hl : CoqStore.find (addBlocks adds) k with
    | none => simp [hl] at hbi
    | some l =>
      rw [hl] at hbi
      exact ((addBlocks_inv hadds hl).2.2 bi hbi).1
  obtain ⟨hok, -, hfind⟩ := inStream_filesDocument_blocks hC o finfos' (some (addBlocks adds))
    forder' border hX hrep ∅
  refine ⟨hok, fun k => ?_⟩
  rw [hfind, hentry]
  cases hl : CoqStore.find (addBlocks adds) k with
  | none => simp
  | some l =>
    obtain ⟨hk, hne, hbis⟩ := addBlocks_inv hadds hl
    rw [Option.getD_some, if_pos ⟨hk, hne⟩]
    congr 1
    conv_rhs => rw [← List.map_id l]
    exact List.map_congr_left fun bi hbi => (hbis bi hbi).2

/-- The entries in the order of insertion. -/
def keptOrder : HashOrder := ⟨id, fun _ => List.Perm.refl _⟩

/-- A document that does not tell its origin. -/
def noOrigin : Origin := ⟨[], by decide, [], by decide⟩

/-- One block is written and read. -/
theorem blockLists_survive_simple :
    let adds : List (Bytes × BlockInformation) :=
      [(ascii "f", ⟨0, simple.sha3 [1], 1, 0, ascii "aid", 128⟩)]
    let r := CoqFBlockStore.inStream simple parse ∅
      (filesStream simple noOrigin keptOrder keptOrder ∅ (addBlocks adds))
    r.ok = true ∧ ∀ k, CoqStore.find r.store k = CoqStore.find (addBlocks adds) k := by
  intro adds
  refine blockLists_survive simple_lawful.hex adds (fun a ha => ?_) ∅ noOrigin keptOrder keptOrder _
    (Or.inr rfl) (parse_readsBack _)
  rw [List.mem_singleton.mp ha]
  have haid : (ascii "aid").all (fun c => !isSpace c) = true := by decide
  refine ⟨by decide, ⟨by decide, by decide, by decide⟩, fun c hc => ?_⟩
  simpa using List.all_eq_true.mp haid c hc

/-! ## Keys -/

/-- A key that is stored, or a document that is read. -/
inductive KeyOp
  | add (aid : Bytes) (ki : KeyInformation)
  | inStream (doc : Bytes)

/-- The key store after an operation. -/
def KeyOp.run (C : Crypto) (readXml : Bytes → Except Bytes Ptree) (s : CoqKeyStore) :
    KeyOp → CoqKeyStore
  | .add aid ki => CoqKeyStore.add s aid ki
  | .inStream doc => (CoqKeyStore.inStream C readXml s doc).store

/-- The record of an element `key`: its secret and iv are hex digits, as many as they should be. -/
structure RecordOf (C : Crypto) (k : Bytes × Ptree) (aid : Bytes) (ki : KeyInformation) : Prop where
  name : k.1 = ascii "key"
  aid_eq : aid = getString k.2 [xmlattr, ascii "aid"]
  secret : (getString k.2 [ascii "secret"]).length = 64 ∧
    ∀ c ∈ getString k.2 [ascii "secret"], isHexDigit c = true
  iv : (getString k.2 [ascii "iv"]).length = 32 ∧
    ∀ c ∈ getString k.2 [ascii "iv"], isHexDigit c = true
  ki_eq : ki = ⟨C.fromHex128 (getString k.2 [ascii "iv"]),
    C.fromHex256 (getString k.2 [ascii "secret"]),
    Nchunks.ofInt (getInt k.2 [xmlattr, ascii "nchunks"] 16),
    getString k.2 [xmlattr, ascii "version"]⟩

/-- Every key of `s` is in `s'`, and what is new there satisfies `Q`. -/
def Grows (Q : Bytes → KeyInformation → Prop) (s s' : CoqKeyStore) : Prop :=
  (∀ aid ki, CoqStore.find s aid = some ki → CoqStore.find s' aid = some ki) ∧
    ∀ aid ki, CoqStore.find s' aid = some ki → CoqStore.find s aid = some ki ∨ Q aid ki

/-- Every store grows to itself. -/
theorem Grows.refl (Q : Bytes → KeyInformation → Prop) (s : CoqKeyStore) : Grows Q s s :=
  ⟨fun _ _ h => h, fun _ _ h => Or.inl h⟩

/-- Growing twice is growing. -/
theorem Grows.trans {Q : Bytes → KeyInformation → Prop} {s s' s'' : CoqKeyStore}
    (h : Grows Q s s') (h' : Grows Q s' s'') : Grows Q s s'' := by
  refine ⟨fun aid ki hki => h'.1 aid ki (h.1 aid ki hki), fun aid ki hki => ?_⟩
  rcases h'.2 aid ki hki with hki | hQ
  · exact h.2 aid ki hki
  · exact Or.inr hQ

/-- What is new satisfies weaker conditions, too. -/
theorem Grows.mono {Q Q' : Bytes → KeyInformation → Prop} {s s' : CoqKeyStore} (h : Grows Q s s')
    (hQ : ∀ aid ki, Q aid ki → Q' aid ki) : Grows Q' s s' :=
  ⟨h.1, fun aid ki hki => (h.2 aid ki hki).imp_right (hQ aid ki)⟩

/-- An added key is new only if there was none. -/
theorem grows_add (s : CoqKeyStore) (aid : Bytes) (ki : KeyInformation) :
    Grows (fun aid' ki' => aid' = aid ∧ ki' = ki) s (CoqKeyStore.add s aid ki) := by
  constructor
  · intro aid' ki' h
    rw [CoqKeyStore.find_add]
    split
    · next heq => rw [← heq, h, Option.getD_some]
    · exact h
  · intro aid' ki' h
    rw [CoqKeyStore.find_add] at h
    split at h
    · next heq =>
      cases hold : CoqStore.find s aid with
      | none =>
        rw [hold, Option.getD_none, Option.some.injEq] at h
        exact Or.inr ⟨heq, h.symm⟩
      | some ki'' =>
        rw [hold, Option.getD_some] at h
        exact Or.inl (by rw [heq, hold, h])
    · exact Or.inl h

/-- A loop over a list grows the store by what its rounds add. -/
theorem grows_foldl {α : Type} {f : Reading CoqKeyStore → α → Reading CoqKeyStore}
    {Q : Bytes → KeyInformation → Prop} {as : List α}
    (h : ∀ r, ∀ a ∈ as, Grows Q r.store (f r a).store) (r : Reading CoqKeyStore) :
    Grows Q r.store (as.foldl f r).store := by
  induction as generalizing r with
  | nil => exact Grows.refl Q _
  | cons a as ih =>
    rw [List.foldl_cons]
    exact (h r a List.mem_cons_self).trans (ih (fun r b hb => h r b (List.mem_cons_of_mem _ hb)) _)

/-- Only 64 hex digits are read as a key of 256 bits. -/
theorem fromHex256_eq_some {h : Bytes} {k : Key256} (heq : fromHex256 C h = some k) :
    (h.length = 64 ∧ ∀ c ∈ h, isHexDigit c = true) ∧ k = C.fromHex256 h := by
  unfold fromHex256 at heq
  split at heq
  · next hvalid =>
    exact ⟨⟨hvalid.1, List.all_eq_true.mp hvalid.2⟩, (Option.some.inj heq).symm⟩
  · cases heq

/-- Only 32 hex digits are read as a key of 128 bits. -/
theorem fromHex128_eq_some {h : Bytes} {k : Key128} (heq : fromHex128 C h = some k) :
    (h.length = 32 ∧ ∀ c ∈ h, isHexDigit c = true) ∧ k = C.fromHex128 h := by
  unfold fromHex128 at heq
  split at heq
  · next hvalid =>
    exact ⟨⟨hvalid.1, List.all_eq_true.mp hvalid.2⟩, (Option.some.inj heq).symm⟩
  · cases heq

/-- One round of the reader adds at most the record of its element. -/
theorem grows_readKey (r : Reading CoqKeyStore) (k : Bytes × Ptree) :
    Grows (RecordOf C k) r.store (readKey C r k).store := by
  unfold readKey
  split
  · next hname =>
    dsimp only
    cases hsecret : fromHex256 C (getString k.2 [ascii "secret"]) with
    | none => exact Grows.refl _ _
    | some pkey =>
      cases hiv : fromHex128 C (getString k.2 [ascii "iv"]) with
      | none => exact Grows.refl _ _
      | some ivec =>
        dsimp only
        obtain ⟨hsecret', rfl⟩ := fromHex256_eq_some hsecret
        obtain ⟨hiv', rfl⟩ := fromHex128_eq_some hiv
        split
        · exact Grows.refl _ _
        · apply (grows_add _ _ _).mono
          rintro aid ki ⟨rfl, rfl⟩
          exact ⟨hname, rfl, hsecret', hiv', rfl⟩
  · exact Grows.refl _ _

/-- A document adds records of its elements. -/
theorem grows_inStream (s : CoqKeyStore) (doc : Bytes) :
    Grows (fun aid ki => ∃ pt root k, readXml doc = .ok pt ∧ root ∈ pt.children ∧
        root.1 = ascii "keys" ∧ k ∈ root.2.children ∧ RecordOf C k aid ki) s
      (CoqKeyStore.inStream C readXml s doc).store := by
  unfold CoqKeyStore.inStream
  cases hread : readXml doc with
  | error what => exact Grows.refl _ _
  | ok pt =>
    dsimp only
    unfold Reading.roots
    refine grows_foldl (fun r root hroot => ?_) (⟨s, true, []⟩ : Reading CoqKeyStore)
    have hwarn : (r.warnLegacy root.1).store = r.store := by
      unfold Reading.warnLegacy
      split <;> rfl
    dsimp only
    split
    · next hname =>
      rw [← hwarn]
      refine grows_foldl (fun r k hk => ?_) _
      exact (grows_readKey r k).mono fun aid ki h => ⟨pt, root, k, rfl, hroot, hname, hk, h⟩
    · rw [hwarn]
      exact Grows.refl _ _

/-- Where a key may come from in a sequence of operations. -/
def AddedBy (C : Crypto) (readXml : Bytes → Except Bytes Ptree) (ops : List KeyOp) (aid : Bytes)
    (ki : KeyInformation) : Prop :=
  KeyOp.add aid ki ∈ ops ∨ ∃ doc, KeyOp.inStream doc ∈ ops ∧ ∃ pt root k, readXml doc = .ok pt ∧
    root ∈ pt.children ∧ root.1 = ascii "keys" ∧ k ∈ root.2.children ∧ RecordOf C k aid ki

/-- A sequence of operations replaces no key. -/
theorem grows_ops (ops : List KeyOp) (s : CoqKeyStore) :
    Grows (AddedBy C readXml ops) s (ops.foldl (KeyOp.run C readXml) s) := by
  induction ops generalizing s with
  | nil => exact Grows.refl _ _
  | cons op ops ih =>
    have hrest : Grows (AddedBy C readXml (op :: ops)) (op.run C readXml s)
        (ops.foldl (KeyOp.run C readXml) (op.run C readXml s)) := (ih _).mono
      fun aid ki h => h.imp (List.mem_cons_of_mem _)
        fun ⟨doc, hdoc, hrec⟩ => ⟨doc, List.mem_cons_of_mem _ hdoc, hrec⟩
    rw [List.foldl_cons]
    refine Grows.trans ?_ hrest
    cases op with
    | add aid ki =>
      apply (grows_add s aid ki).mono
      rintro aid' ki' ⟨rfl, rfl⟩
      exact Or.inl List.mem_cons_self
    | inStream doc =>
      exact (grows_inStream s doc).mono fun aid ki h => Or.inr ⟨doc, List.mem_cons_self, h⟩

/-- **Keys survive the keys document and are never replaced**: reading the document of `K` into `T`
gives `T`'s key if there is one and `K`'s key otherwise; and over any sequence of operations, with
whatever documents, a key that is found stays, and a key that is new was added or comes from a
record with hex digits. -/
theorem keys_survive (hC : C.HexLawful) (readXml : Bytes → Except Bytes Ptree) :
    (∀ K T : CoqKeyStore, (∀ aid, (CoqStore.find K aid).isSome = true → aid ≠ []) →
      ∀ (o : Origin) (order : HashOrder),
      ReadsBack readXml (CoqKeyStore.outStream C o order K) →
      let r := CoqKeyStore.inStream C readXml T (CoqKeyStore.outStream C o order K)
      r.ok = true ∧
        ∀ aid, CoqStore.find r.store aid = (CoqStore.find T aid).or (CoqStore.find K aid)) ∧
    ∀ (ops : List KeyOp) (s : CoqKeyStore) (aid : Bytes) (ki : KeyInformation),
      (CoqStore.find s aid = some ki →
        CoqStore.find (ops.foldl (KeyOp.run C readXml) s) aid = some ki) ∧
      (CoqStore.find (ops.foldl (KeyOp.run C readXml) s) aid = some ki →
        CoqStore.find s aid = some ki ∨ AddedBy C readXml ops aid ki) := by
  refine ⟨fun K T hK o order hX => ?_, fun ops s aid ki => ?_⟩
  · obtain ⟨hok, -, hfind⟩ := inStream_outStream_keys hC o order hK T hX
    exact ⟨hok, hfind⟩
  · exact ⟨(grows_ops ops s).1 aid ki, (grows_ops ops s).2 aid ki⟩

/-- A key whose aid needs escaping is written and read, and then not replaced. -/
theorem keys_survive_simple :
    let aid := ascii "a&b"
    let ki : KeyInformation := ⟨Vector.replicate 16 1, Vector.replicate 32 2, config16.nchunks,
      formatVersion⟩
    let K := CoqKeyStore.add ∅ aid ki
    let r := CoqKeyStore.inStream simple parse ∅ (CoqKeyStore.outStream simple noOrigin keptOrder K)
    r.ok = true ∧ CoqStore.find r.store aid = some ki ∧
      ∀ ki', CoqStore.find ([KeyOp.add aid ki'].foldl (KeyOp.run simple parse) r.store) aid =
        some ki := by
  intro aid ki K r
  have hfind : ∀ aid', CoqStore.find K aid' = if aid' = aid then some ki else none := by
    intro aid'
    rw [CoqKeyStore.find_add, CoqStore.find_empty, CoqStore.find_empty]
    rfl
  obtain ⟨hread, hops⟩ := keys_survive simple_lawful.hex parse
  obtain ⟨hok, hr⟩ := hread K ∅ (fun aid' h => by
    rw [hfind] at h
    split at h
    · next heq => rw [heq]; decide
    · cases h) noOrigin keptOrder (parse_readsBack _)
  have hki : CoqStore.find r.store aid = some ki := by
    rw [hr, CoqStore.find_empty, Option.none_or, hfind, if_pos rfl]
  exact ⟨hok, hki, fun ki' => (hops [.add aid ki'] r.store aid ki).1 hki⟩

/-! ## File information -/

/-- The texts of a file information are left alone by the trimming of white space. -/
structure Trimmed (fi : FileInformation) : Prop where
  fname : collapse fi.fname = fi.fname
  fowner : collapse fi.fowner = fi.fowner
  fmodified : collapse fi.fmodified = fi.fmodified
  fchecksum : collapse fi.fchecksum = fi.fchecksum

/-- A file information under its hash, with numbers that are values of their types. -/
structure StoredInfo (k : Bytes) (fi : FileInformation) : Prop where
  key : k ≠ []
  fhash : fi.fhash = k
  fsize : fi.fsize < 18446744073709551616
  fpermissions : fi.fpermissions < 4294967296

/-- A file information is read back unchanged exactly when its texts are trimmed. -/
theorem rereadInfo_eq_self_iff {k : Bytes} {fi : FileInformation} (h : StoredInfo k fi) :
    rereadInfo k fi = fi ↔ Trimmed fi := by
  have hhash := h.fhash
  cases fi with
  | mk fname fhash fsize fowner fpermissions fmodified fchecksum =>
    subst hhash
    rw [rereadInfo, FileInformation.mk.injEq]
    exact ⟨fun ⟨h1, _, _, h2, _, h3, h4⟩ => ⟨h1, h2, h3, h4⟩,
      fun ⟨h1, h2, h3, h4⟩ => ⟨h1, rfl, rfl, h2, rfl, h3, h4⟩⟩

/-- What is read from the document of two stores. -/
theorem find_inStream_filesStream (hC : C.HexLawful) {F : CoqFInfoStore}
    (hF : ∀ k fi, CoqStore.find F k = some fi → StoredInfo k fi) (B : CoqFBlockStore) (o : Origin)
    (forder border : HashOrder) (hX : ReadsBack readXml (filesStream C o forder border F B)) :
    let r := CoqFInfoStore.inStream C readXml ∅ (filesStream C o forder border F B)
    r.ok = true ∧ ∀ k, CoqStore.find r.store k =
      if ((CoqStore.find B k).isSome = true ∨ (CoqStore.find F k).isSome = true) ∧ k ≠ [] then
        some (rereadInfo k ((CoqStore.find F k).getD .blank))
      else none := by
  intro r
  have hentry : ∀ k, entryInfo (some F) k = (CoqStore.find F k).getD .blank := fun k => rfl
  have hsizes : ∀ k, (entryInfo (some F) k).fsize < 18446744073709551616 ∧
      (entryInfo (some F) k).fpermissions < 4294967296 := by
    intro k
    rw [hentry]
    cases hfi : CoqStore.find F k with
    | none => exact ⟨by decide, by decide⟩
    | some fi => exact ⟨(hF k fi hfi).fsize, (hF k fi hfi).fpermissions⟩
  obtain ⟨hok, -, hfind⟩ := inStream_filesDocument_infos hC o (some F) (some B) forder border hX
    hsizes ∅
  have hmem : ∀ k, k ∈ entryHashes (some F) (some B) forder border ↔
      (CoqStore.find B k).isSome = true ∨ (CoqStore.find F k).isSome = true := by
    intro k
    rw [mem_entryHashes]
    simp
  refine ⟨hok, fun k => (hfind k).trans ?_⟩
  rw [hentry, CoqStore.find_empty]
  simp only [hmem]

/-- **File information survives the files document** if and only if its texts are trimmed and every
hash that has blocks has file information. -/
theorem fileInformation_survives_iff (hC : C.HexLawful) (F : CoqFInfoStore)
    (hF : ∀ k fi, CoqStore.find F k = some fi → StoredInfo k fi) (B : CoqFBlockStore) (o : Origin)
    (forder border : HashOrder) (hX : ReadsBack readXml (filesStream C o forder border F B)) :
    let r := CoqFInfoStore.inStream C readXml ∅ (filesStream C o forder border F B)
    r.ok = true ∧
      ((∀ k, CoqStore.find r.store k = CoqStore.find F k) ↔
        (∀ k fi, CoqStore.find F k = some fi → Trimmed fi) ∧
        ∀ k, k ≠ [] → (CoqStore.find B k).isSome = true → (CoqStore.find F k).isSome = true) := by
  intro r
  obtain ⟨hok, hfind⟩ := find_inStream_filesStream hC hF B o forder border hX
  refine ⟨hok, fun hsame => ⟨fun k fi hfi => ?_, fun k hk hB => ?_⟩, fun ⟨htrim, hcover⟩ k => ?_⟩
  · have hk := (hfind k).symm.trans (hsame k)
    rw [hfi, if_pos ⟨Or.inr rfl, (hF k fi hfi).key⟩, Option.getD_some, Option.some.injEq] at hk
    exact (rereadInfo_eq_self_iff (hF k fi hfi)).mp hk
  · rw [← hsame k, hfind, if_pos ⟨Or.inl hB, hk⟩]
    rfl
  · apply (hfind k).trans
    cases hfi : CoqStore.find F k with
    | none =>
      rw [if_neg]
      rintro ⟨hk, hne⟩
      rcases hk with hB | hnone
      · have hsome := hcover k hne hB
        rw [hfi] at hsome
        cases hsome
      · cases hnone
    | some fi =>
      rw [if_pos ⟨Or.inr rfl, (hF k fi hfi).key⟩, Option.getD_some,
        (rereadInfo_eq_self_iff (hF k fi hfi)).mpr (htrim k fi hfi)]

/-- The file information of a file with this name. -/
def namedInfo (fname : Bytes) : FileInformation :=
  ⟨fname, ascii "f", 1, ascii "501", 420, ascii "2025-01-01T10:00:00", ascii "00"⟩

/-- A store with a file of this name. -/
def namedStore (fname : Bytes) : CoqFInfoStore :=
  CoqFInfoStore.add ∅ (ascii "f") (namedInfo fname)

/-- The sample store has one entry. -/
theorem find_namedStore {fname k : Bytes} {fi : FileInformation}
    (h : CoqStore.find (namedStore fname) k = some fi) : k = ascii "f" ∧ fi = namedInfo fname := by
  unfold namedStore CoqFInfoStore.add at h
  rw [CoqStore.find_add] at h
  split at h
  · next hk => exact ⟨hk, (Option.some.inj h).symm⟩
  · rw [CoqStore.find_empty] at h
    cases h

/-- The entry of the sample store can be stored. -/
theorem storedInfo_namedStore {fname k : Bytes} {fi : FileInformation}
    (h : CoqStore.find (namedStore fname) k = some fi) : StoredInfo k fi := by
  obtain ⟨rfl, rfl⟩ := find_namedStore h
  exact ⟨by decide, rfl, by simp [namedInfo], by simp [namedInfo]⟩

/-- A name with single blanks is read as it was. -/
theorem fileInformation_survives_blank :
    let r := CoqFInfoStore.inStream simple parse ∅
      (filesStream simple noOrigin keptOrder keptOrder (namedStore (ascii "a b.txt")) ∅)
    ∀ k, CoqStore.find r.store k = CoqStore.find (namedStore (ascii "a b.txt")) k := by
  refine (fileInformation_survives_iff simple_lawful.hex _ (fun k fi => storedInfo_namedStore) ∅
    noOrigin keptOrder keptOrder (parse_readsBack _)).2.mpr ⟨fun k fi h => ?_, fun k _ h => ?_⟩
  · obtain ⟨-, rfl⟩ := find_namedStore h
    exact ⟨by decide, by decide, by decide, by decide⟩
  · rw [CoqStore.find_empty] at h
    cases h

/-- A name with two blanks in a row loses one, and a hash that has blocks only is read as the hash of
a file. -/
theorem fileInformation_lost :
    (let F := namedStore (ascii "a  b.txt")
      let r := CoqFInfoStore.inStream simple parse ∅
        (filesStream simple noOrigin keptOrder keptOrder F ∅)
      CoqStore.find r.store (ascii "f") = some (namedInfo (ascii "a b.txt")) ∧
        ¬ ∀ k, CoqStore.find r.store k = CoqStore.find F k) ∧
    (let B := CoqFBlockStore.add ∅ (ascii "g") ⟨0, simple.sha3 [1], 1, 0, ascii "aid", 128⟩
      let r := CoqFInfoStore.inStream simple parse ∅
        (filesStream simple noOrigin keptOrder keptOrder ∅ B)
      CoqStore.find r.store (ascii "g") = some { FileInformation.blank with fhash := ascii "g" } ∧
        ¬ ∀ k, CoqStore.find r.store k = none) := by
  constructor
  · intro F r
    have hread : CoqStore.find r.store (ascii "f") = some (namedInfo (ascii "a b.txt")) := by
      refine ((find_inStream_filesStream simple_lawful.hex (fun k fi => storedInfo_namedStore) ∅
        noOrigin keptOrder keptOrder (parse_readsBack _)).2 _).trans ?_
      decide
    refine ⟨hread, fun h => absurd (hread.symm.trans (h _)) (by decide)⟩
  · intro B r
    have hread : CoqStore.find r.store (ascii "g") =
        some { FileInformation.blank with fhash := ascii "g" } := by
      refine ((find_inStream_filesStream simple_lawful.hex (fun k fi h => by
        rw [CoqStore.find_empty] at h; cases h) B noOrigin keptOrder keptOrder
        (parse_readsBack _)).2 _).trans ?_
      decide
    refine ⟨hread, fun h => absurd (hread.symm.trans (h _)) (by decide)⟩

end Elykseer.Analysis
