import Elykseer.Analysis.ChunkStore
import Elykseer.Analysis.Rebackup
import Elykseer.Analysis.RunDocuments

/-!
# Incremental backups

A chain of runs of `LXRbackup`, each on new key and block stores and with the file
information of the run before, and `LXRrestore` on the documents of all of them.  A path
is restored with the newest of its contents that is not empty (`backupChain_chained`), so
with the last one unless the file was emptied: `backupChain_newest_iff`.
-/

set_option autoImplicit false

namespace Elykseer.Analysis

open Elykseer.Model Elykseer.Foundation Elykseer.Foundation.Xml

variable {C : Crypto} {H : Host} {cfg : CoqConfiguration} {readXml : Bytes → Except Bytes Ptree}

/-! ## One run -/

/-- The texts of a file that end up in a document. -/
def TextFile (f : SourceFile) : Prop := 0 ∉ f.name ∧ 0 ∉ f.modified

/-- The information about a file with a text as its name can be carried. -/
theorem recordable_fileInformation (hC : C.HexLawful) {f : SourceFile} (h : TextFile f)
    {myId : Bytes} {fi : FileInformation} (hfi : getFileInformation C f myId = some fi) :
    Recordable fi.fhash fi := by
  unfold getFileInformation at hfi
  split at hfi
  · cases hfi
    refine ⟨zero_notMem_toHex256 hC _, h.1, ?_, zero_notMem_toString10 _, ?_, h.2,
      zero_notMem_toHex256 hC _⟩
    · exact Nat.lt_trans f.length_lt (by omega)
    · change 100 * (f.mode / 64 % 8) + 10 * (f.mode / 8 % 8) + f.mode % 8 < 4294967296
      omega
  · cases hfi

/-- **Every backup keeps the documents readable.** -/
theorem recordable_preserves (hC : C.HexLawful) :
    Preserves C H (fun (_ : Session cfg) f => TextFile f)
      (fun s L _ => AllRecordable s.cache.finfostore ∧ ∀ x ∈ L, 0 ∉ x.fname) := by
  intro s s' f es L past hready htext hback h
  cases hsome : backedUp C s f with
  | none =>
    obtain ⟨rfl, hinfos⟩ := hback.of_none hsome
    rw [hinfos, List.append_nil]
    exact h
  | some fi =>
    obtain ⟨hnames, -, hinfos⟩ := hback.of_some hsome
    have hfi := recordable_fileInformation hC htext (Option.filter_eq_some_iff.mp hsome).1
    refine ⟨fun fhash fi' hfind => ?_, fun x hx => ?_⟩
    · rw [hinfos, CoqFInfoStore.add, CoqStore.find_add] at hfind
      split at hfind
      · next heq =>
        cases hfind
        rw [heq]
        exact hfi
      · exact h.1 fhash fi' hfind
    · rcases List.mem_append.mp hx with hx | hx
      · exact h.2 x hx
      · rw [hnames x hx]
        exact hfi.fhash

/-- What a run on empty key and block stores does, as far as the path `p` is concerned. -/
structure RunEffect (C : Crypto) (H : Host) (p : Bytes) (w : World) (finfos : CoqFInfoStore)
    (files : List SourceFile) (s : Session cfg) : Prop where
  nassembly_le : w.nassembly ≤ s.world.nassembly
  drawn_le : s.world.nassembly ≤
    w.nassembly + 2 * (files.map fun f => (readPieces f f.content.length 0).length).sum
  zeroFree : ZeroFree s.cache.keystore s.cache.fblockstore s.cache.finfostore
  keyed : ∀ aid, (CoqStore.find s.cache.keystore aid).isSome = true →
    ∃ i ∈ Set.Ico w.nassembly s.world.nassembly, aid = aidOf C H cfg i
  grown : Extends w.fs s.world.fs
  favourable : ∀ N, s.world.nassembly ≤ N → Favourable C H cfg w ∅ N →
    Favourable C H cfg s.world s.cache.keystore N
  representable : Favourable C H cfg w ∅ s.world.nassembly → ∀ fhash,
    ∀ bi ∈ CoqFBlockStore.blocks s.cache.fblockstore fhash, Representable bi
  known : knownChecksum s.cache.finfostore (fileHash C p cfg.myId) =
    Versions.lastKey (checksum C) (knownChecksum finfos (fileHash C p cfg.myId))
      (versions p files)
  saved : Favourable C H cfg w ∅ s.world.nassembly →
    ∃ mine, Saved C s p (changedVersions C cfg finfos files p) mine

/-- All keys are of assemblies of a run that starts with none. -/
theorem Keyed.of_empty {s₀ s : WriteSide cfg} (h : Keyed C H s₀ s) (hkeys : s₀.keys = ∅) {aid : Bytes}
    {ki : KeyInformation} (hki : CoqStore.find s.keys aid = some ki) :
    (∃ i ∈ Set.Ico s₀.world.nassembly s.world.nassembly, aid = aidOf C H cfg i) ∧
      ki.version = formatVersion := by
  rcases h aid ki hki with hold | ⟨⟨i, hi₀, hi, haid⟩, hversion⟩
  · rw [hkeys, CoqStore.find_empty] at hold
    cases hold
  · exact ⟨⟨i, ⟨hi₀, hi⟩, haid⟩, hversion⟩

/-- The stores of a run on empty ones hold no zero byte, if the names and the file information do
not. -/
theorem WriteTrace.zeroFree (hC : C.HexLawful) {s₀ s : WriteSide cfg} {es : List Entry}
    (h : WriteTrace C H s₀ es s) (henv : s₀.env = none) (hkeys : s₀.keys = ∅)
    (hblocks : s₀.blocks = ∅) (hes : ∀ x ∈ es, x.data ≠ [] ∧ 0 ∉ x.fname) {finfos : CoqFInfoStore}
    (hinfos : AllRecordable finfos) : ZeroFree s.keys s.blocks finfos := by
  have hacc := h.accounted (accounted_start henv)
  rw [List.nil_append] at hacc
  refine ⟨fun aid ki hki => ?_, fun fhash l hl => ⟨?_, fun bi hbi => ?_⟩, hinfos⟩
  · obtain ⟨⟨i, -, rfl⟩, hversion⟩ := (h.keyed henv).of_empty hkeys hki
    refine ⟨fun hnil => ?_, zero_notMem_toHex256 hC _, ?_⟩
    · have hlength : (aidOf C H cfg i).length = 64 := length_aidOf hC i
      rw [hnil] at hlength
      cases hlength
    · rw [hversion]
      decide
  · intro hzero
    have hnone : CoqStore.find s.blocks fhash = CoqStore.find s₀.blocks fhash :=
      h.find_blocks fun x hx heq => (hes x hx).2 (heq ▸ hzero)
    rw [hblocks, CoqStore.find_empty, hl] at hnone
    cases hnone
  · have hmem : bi ∈ CoqFBlockStore.blocks s.blocks fhash := by
      rw [CoqFBlockStore.blocks, hl, Option.getD_some]
      exact hbi
    have hstart : CoqFBlockStore.blocks s₀.blocks fhash = [] := by
      rw [hblocks]
      rfl
    obtain ⟨x, hx, -, hrecord⟩ := hacc.ledger.exists_entry fhash hstart hmem
    obtain ⟨i, -, -, hi⟩ := hacc.drawn x hx (hes x hx).1
    rw [Entry.record, if_neg (hes x hx).1] at hrecord
    have haid : bi.blockaid = x.aid := congrArg BlockInformation.blockaid hrecord
    rw [haid, hi]
    exact zero_notMem_toHex256 hC _

/-- **One run** in which all files can be read. -/
theorem backupRun_effect (hC : C.HexLawful) (H : Host) (nEnvs : ℕ) {depth : ℕ} (hdepth : 1 ≤ depth)
    {finfos : CoqFInfoStore} (hinfos : AllRecordable finfos) (w : World) {files : List SourceFile}
    {p : Bytes} (hworks : ∀ f ∈ files, BackupWorks C cfg p f) (htext : ∀ f ∈ files, TextFile f) :
    ∃ s ofis, (Session.init cfg nEnvs depth ∅ ∅ finfos w).backupRun C H files = .ok (s, ofis) ∧
      RunEffect C H p w finfos files s := by
  set s₀ := Session.init cfg nEnvs depth ∅ ∅ finfos w with hs₀
  obtain ⟨s, es, ofis, hrun, hlen, htrace, hclosed, hnum, hinv⟩ := backupRun_trace (H := H) hC
    (readyToBackup_init hdepth ∅ ∅ finfos w) files
  obtain ⟨s', ofis', hrun', -, hsaved⟩ :=
    backupRun_saved hC H nEnvs hdepth ∅ ∅ finfos w files
  cases hrun.symm.trans hrun'
  have hstacked := hinv _ _ (stacked_preserves p s₀) (fun _ _ _ h => h.close)
    (meetsAll_of_forall s₀ hworks) (stacked_start p s₀)
  obtain ⟨hrec, hfnames⟩ := hinv _ _ (recordable_preserves hC)
    (fun s _ _ h => by rw [(close_keeps s).1]; exact h) (meetsAll_of_forall s₀ htext)
    ⟨hinfos, by simp⟩
  have hacc := htrace.accounted (accounted_start (C := C) (H := H) rfl)
  rw [List.nil_append] at hacc
  have hfst : (files.zip ofis).map Prod.fst = files := List.map_fst_zip (Nat.le_of_eq hlen.symm)
  have hzero := htrace.zeroFree hC rfl rfl rfl
    (fun x hx => ⟨(hstacked.entries x hx).1, hfnames x hx⟩) hrec
  have harch : ∀ N, s.world.nassembly ≤ N → Favourable C H cfg w ∅ N →
      Archived C H w N (writeSide s) es := by
    intro N hN hfav
    have hacc₀ : Accounted C H (writeSide s₀) (writeSide s₀) [] := accounted_start rfl
    have harch₀ : Archived C H (writeSide s₀).world N (writeSide s₀) [] := archived_start hfav rfl
    have h := htrace.archived hfav hacc₀ harch₀ hN
    rwa [List.nil_append] at h
  refine ⟨s, ofis, hrun, hacc.nassembly_le, hnum, hzero, fun aid haid => ?_, htrace.extends hC,
    fun N hN hfav => ?_, fun hfav fhash bi hbi => ?_, ?_,
    fun hfav => hsaved hfav p hworks (CoqStore.find_empty _)⟩
  · obtain ⟨ki, hki⟩ := Option.isSome_iff_exists.mp haid
    exact ((htrace.keyed rfl).of_empty rfl hki).1
  · have h := harch N hN hfav
    exact hfav.narrow hacc.nassembly_le (Nat.le_refl N) h.nfinalise_le
      fun i hi => h.undrawn i hi.1 hi.2
  · obtain ⟨x, hx, -, hrecord⟩ := hacc.ledger.exists_entry fhash rfl hbi
    obtain ⟨hd, hpos⟩ := hstacked.entries x hx
    rw [Entry.record, if_neg hd] at hrecord
    obtain ⟨a, -, hholds⟩ := (harch _ (Nat.le_refl _) hfav).readable_of_closed hclosed hx hd
    have hsize : bi.blocksize = x.data.length := congrArg BlockInformation.blocksize hrecord
    have hfilepos : bi.filepos = x.fpos := congrArg BlockInformation.filepos hrecord
    have hapos : bi.blockapos = x.apos := congrArg BlockInformation.blockapos hrecord
    have h1 := hholds.le_dataEnd
    have h2 := dataEnd_le cfg.nchunks
    have h3 := assemblysize_lt cfg.nchunks
    exact ⟨by omega, by omega, by omega⟩
  · have hknown := hstacked.known
    rw [hfst] at hknown
    exact hknown

/-! ## The documents of several runs -/

/-- A readable block has a key. -/
theorem Readable.exists_key {keys : CoqKeyStore} {fs : FileSystem} {x : Entry}
    (h : Readable C cfg keys fs x) : ∃ ki, CoqStore.find keys x.aid = some ki := by
  obtain ⟨a, hload, -⟩ := h
  obtain ⟨ki, hki, -⟩ := Option.bind_eq_some_iff.mp hload
  exact ⟨ki, hki⟩

/-- A saved path without blocks has empty contents only. -/
theorem Saved.blocks_eq_nil_iff {s : Session cfg} {p : Bytes} {vs : List Bytes} {mine : List Entry}
    (h : Saved C s p vs mine) :
    CoqFBlockStore.blocks s.cache.fblockstore (fileHash C p cfg.myId) = [] ↔
      Overlay.stack vs = [] := by
  have hpieces : ∀ q ∈ mine.map fun x => (x.fpos, x.data), q.2 ≠ [] := by
    intro q hq
    obtain ⟨x, hx, rfl⟩ := List.mem_map.mp hq
    exact (h.entries x hx).1
  rw [← h.overlay, Overlay.overlay_eq_nil_iff 0 hpieces, List.map_eq_nil_iff]
  rw [← List.map_eq_nil_iff (f := unnumbered), h.blocks, List.map_eq_nil_iff]

/-- A path stays saved with more keys and more files. -/
theorem Saved.mono (hC : C.HexLawful) {s s' : Session cfg} {p : Bytes} {vs : List Bytes}
    {mine : List Entry} (h : Saved C s p vs mine)
    (hblocks : (CoqFBlockStore.blocks s'.cache.fblockstore (fileHash C p cfg.myId)).map unnumbered =
      (CoqFBlockStore.blocks s.cache.fblockstore (fileHash C p cfg.myId)).map unnumbered)
    (hkeys : ∀ x ∈ mine, ∀ ki, CoqStore.find s.cache.keystore x.aid = some ki →
      CoqStore.find s'.cache.keystore x.aid = some ki)
    (hext : Extends s.world.fs s'.world.fs)
    (habsent : vs = [] →
      CoqStore.find s'.cache.fblockstore (fileHash C p cfg.myId) = none) :
    Saved C s' p vs mine where
  blocks := hblocks.trans h.blocks
  entries x hx := by
    obtain ⟨hd, hpos, hread⟩ := h.entries x hx
    exact ⟨hd, hpos, hread.mono hC (hkeys x hx) hext⟩
  overlay := h.overlay
  absent := habsent

/-- The newest content that is not empty. -/
def newestFull (vs : List Bytes) : List Bytes := (Versions.newest (fun v => v ≠ []) vs).toList

/-- The stores that hold the documents of all runs so far, and the file information for the next
run; `vs` are the contents the path `p` had. -/
structure Chained (C : Crypto) (H : Host) (cfg : CoqConfiguration) (N : ℕ) (p : Bytes)
    (vs : List Bytes) (w : World) (keys : CoqKeyStore) (fblocks : CoqFBlockStore)
    (finfos : CoqFInfoStore) : Prop where
  favourable : Favourable C H cfg w keys N
  known : knownChecksum finfos (fileHash C p cfg.myId) = Versions.lastKey (checksum C) none vs
  saved : ∃ mine, Saved C (Session.init cfg 1 1 keys fblocks ∅ w) p (newestFull vs) mine

/-- Nothing is known before the first run. -/
theorem chained_start {N : ℕ} {p : Bytes} {w : World} (h : Favourable C H cfg w ∅ N) :
    Chained C H cfg N p [] w ∅ ∅ ∅ where
  favourable := h
  known := by
    rw [knownChecksum, CoqStore.find_empty]
    rfl
  saved := ⟨[], rfl, by simp, rfl, fun _ => CoqStore.find_empty _⟩

/-- The next run, on an empty key store. -/
theorem Chained.favourable_run {N M : ℕ} {p : Bytes} {vs : List Bytes} {w : World}
    {keys : CoqKeyStore} {fblocks : CoqFBlockStore} {finfos : CoqFInfoStore}
    (h : Chained C H cfg N p vs w keys fblocks finfos) (hM : M ≤ N) :
    Favourable C H cfg w ∅ M :=
  h.favourable.narrow (Nat.le_refl _) hM (Nat.le_refl _) fun i hi =>
    ⟨CoqStore.find_empty _, h.favourable.absent i ⟨hi.1, Nat.lt_of_lt_of_le hi.2 hM⟩⟩

/-- Every file of a run has one content in it. -/
def OneContent (files : List SourceFile) : Prop :=
  ∀ f ∈ files, ∀ g ∈ files, f.name = g.name → f.content = g.content

/-- A path with one content in a run has it each time, or does not occur. -/
theorem OneContent.versions_eq {files : List SourceFile} (h : OneContent files) (p : Bytes) :
    versions p files = [] ∨ ∃ n c, versions p files = List.replicate (n + 1) c := by
  cases hversions : versions p files with
  | nil => exact Or.inl rfl
  | cons c us =>
    refine Or.inr ⟨us.length, c, ?_⟩
    have hc : c ∈ versions p files := by rw [hversions]; exact List.mem_cons_self
    obtain ⟨f, hf, hfname, rfl⟩ := mem_versions.mp hc
    refine List.eq_replicate_iff.mpr ⟨by simp, fun v hv => ?_⟩
    obtain ⟨g, hg, hgname, rfl⟩ := mem_versions.mp (hversions ▸ hv)
    exact h g hg f hf (hgname.trans hfname.symm)

/-- The newest full content after a run is the one before, and the run has no block, or it is the one
content that the run saves. -/
theorem newestFull_append {vs us : List Bytes} (hus : us = [] ∨ ∃ n c, us = List.replicate (n + 1) c)
    (hkey : ∀ u ∈ vs, ∀ c ∈ us, checksum C u = checksum C c → u = c) :
    let changed := Versions.changes (checksum C) (Versions.lastKey (checksum C) none vs) us
    (newestFull (vs ++ us) = newestFull vs ∧ Overlay.stack changed = []) ∨
      (newestFull (vs ++ us) = changed ∧ Overlay.stack changed ≠ []) := by
  intro changed
  rcases hus with rfl | ⟨n, c, rfl⟩
  · exact Or.inl ⟨by rw [List.append_nil], rfl⟩
  have hchanged : changed = if Versions.lastKey (checksum C) none vs = some (checksum C c) then []
      else [c] := Versions.changes_replicate ..
  have hconcat : ∀ ws : List Bytes, c ≠ [] → newestFull (ws ++ [c]) = [c] := by
    intro ws hc
    rw [newestFull, Versions.newest_concat ws (by simpa using hc)]
    rfl
  by_cases hc : c = []
  · left
    subst hc
    constructor
    · rw [newestFull, Versions.newest_append_of_forall_not vs fun u hu => by
        simp [List.eq_of_mem_replicate hu]]
      rfl
    · rw [hchanged]
      split <;> rfl
  · have hnewest : newestFull (vs ++ List.replicate (n + 1) c) = [c] := by
      rw [List.replicate_succ', ← List.append_assoc, hconcat _ hc]
    by_cases hlast : Versions.lastKey (checksum C) none vs = some (checksum C c)
    · left
      rw [hchanged, if_pos hlast]
      refine ⟨?_, rfl⟩
      obtain ⟨u, hu, hsum⟩ : ∃ u, vs.getLast? = some u ∧ checksum C u = checksum C c := by
        unfold Versions.lastKey at hlast
        rwa [Option.or_none, Option.map_eq_some_iff] at hlast
      have huc : u = c :=
        hkey u (List.mem_of_getLast? hu) c (by simp) hsum
      obtain ⟨ws, rfl⟩ := List.getLast?_eq_some_iff.mp hu
      rw [hnewest, huc, hconcat ws hc]
    · right
      rw [hchanged, if_neg hlast]
      refine ⟨hnewest, ?_⟩
      rw [Overlay.stack_singleton]
      exact hc

/-- White space is not collapsed in a printed key. -/
theorem collapse_toHex256 (hC : C.HexLawful) (k : Key256) : collapse (C.toHex256 k) = C.toHex256 k :=
  (plain_of_isHexDigit (hC.digits256 k)).collapse

/-- The keys of a saved path are those of assemblies of the run. -/
theorem RunEffect.aid_saved {p : Bytes} {w : World} {finfos : CoqFInfoStore}
    {files : List SourceFile} {s : Session cfg} (h : RunEffect C H p w finfos files s)
    {vs : List Bytes} {mine : List Entry} (hsaved : Saved C s p vs mine) {x : Entry}
    (hx : x ∈ mine) : ∃ i ∈ Set.Ico w.nassembly s.world.nassembly, x.aid = aidOf C H cfg i := by
  obtain ⟨-, -, hread⟩ := hsaved.entries x hx
  obtain ⟨ki, hki⟩ := hread.exists_key
  exact h.keyed x.aid (by rw [hki]; rfl)

/-- The identifiers in the blocks are made of hex digits, and read as they were written. -/
theorem RunEffect.map_rereadBlock (hC : C.HexLawful) {p : Bytes} {w : World}
    {finfos : CoqFInfoStore} {files : List SourceFile} {s : Session cfg}
    (h : RunEffect C H p w finfos files s) {vs : List Bytes} {mine : List Entry}
    (hsaved : Saved C s p vs mine) :
    ((CoqFBlockStore.blocks s.cache.fblockstore (fileHash C p cfg.myId)).map rereadBlock).map
        unnumbered =
      (CoqFBlockStore.blocks s.cache.fblockstore (fileHash C p cfg.myId)).map unnumbered := by
  rw [List.map_map]
  apply List.map_congr_left
  intro bi hbi
  have hmem := List.mem_map_of_mem (f := unnumbered) hbi
  rw [hsaved.blocks, List.mem_map] at hmem
  obtain ⟨x, hx, hrecord⟩ := hmem
  obtain ⟨i, -, haid⟩ := h.aid_saved hsaved hx
  have hbiaid : bi.blockaid = aidOf C H cfg i := by
    rw [← haid, ← aid_record (C := C) (hsaved.entries x hx).1, hrecord]
    rfl
  have hcollapse : collapse bi.blockaid = bi.blockaid := by
    rw [hbiaid]
    exact collapse_toHex256 hC _
  rw [Function.comp_apply, rereadBlock, hcollapse]
  rfl

/-- **One more run.** -/
theorem Chained.step (hC : C.HexLawful) {N : ℕ} {p : Bytes} {vs : List Bytes} {w : World}
    {keys : CoqKeyStore} {fblocks : CoqFBlockStore} {finfos : CoqFInfoStore}
    (h : Chained C H cfg N p vs w keys fblocks finfos) {files : List SourceFile} {s : Session cfg}
    (hrun : RunEffect C H p w finfos files s) (hN : s.world.nassembly ≤ N)
    (hone : OneContent files)
    (hkey : ∀ u ∈ vs, ∀ c ∈ versions p files, checksum C u = checksum C c → u = c)
    {keys' : CoqKeyStore} {fblocks' : CoqFBlockStore} {finfos' : CoqFInfoStore}
    (hkeys : ∀ aid, CoqStore.find keys' aid =
      (CoqStore.find keys aid).or (CoqStore.find s.cache.keystore aid))
    (hblocks : CoqStore.find fblocks' (fileHash C p cfg.myId) =
      if CoqFBlockStore.blocks s.cache.fblockstore (fileHash C p cfg.myId) = [] then
        CoqStore.find fblocks (fileHash C p cfg.myId)
      else some ((CoqFBlockStore.blocks s.cache.fblockstore (fileHash C p cfg.myId)).map
        rereadBlock))
    (hinfos : CoqStore.find finfos' (fileHash C p cfg.myId) =
      (CoqStore.find s.cache.finfostore (fileHash C p cfg.myId)).map
        (rereadInfo (fileHash C p cfg.myId))) :
    Chained C H cfg N p (vs ++ versions p files) s.world keys' fblocks' finfos' := by
  set fhash := fileHash C p cfg.myId with hfhash
  have hfav' := hrun.favourable N hN (h.favourable_run (Nat.le_refl N))
  refine ⟨{ hfav' with unkeyed := fun i hi => ?_ }, ?_, ?_⟩
  · rw [hkeys, h.favourable.unkeyed i ⟨Nat.le_trans hrun.nassembly_le hi.1, hi.2⟩,
      hfav'.unkeyed i hi]
    rfl
  · have hknown : knownChecksum finfos' fhash =
        (knownChecksum s.cache.finfostore fhash).map collapse := by
      rw [knownChecksum, hinfos, knownChecksum, Option.map_map, Option.map_map]
      rfl
    rw [hknown, hrun.known, h.known, ← Versions.lastKey_append, Versions.lastKey, Option.or_none,
      Option.map_map]
    exact Option.map_congr fun v _ => collapse_toHex256 hC (C.sha3 v)
  obtain ⟨mine, hmine⟩ := h.saved
  obtain ⟨new, hnew⟩ := hrun.saved (h.favourable_run hN)
  have hchanged : changedVersions C cfg finfos files p = Versions.changes (checksum C)
      (Versions.lastKey (checksum C) none vs) (versions p files) := by
    rw [changedVersions, h.known]
  have hnil : CoqFBlockStore.blocks s.cache.fblockstore fhash = [] ↔
      Overlay.stack (changedVersions C cfg finfos files p) = [] := hnew.blocks_eq_nil_iff
  rw [hchanged] at hnew hnil
  rcases newestFull_append (C := C) (hone.versions_eq p) hkey with ⟨hfull, hstack⟩ | ⟨hfull, hstack⟩
  · -- the run has no blocks of the path
    rw [hfull]
    rw [if_pos (hnil.mpr hstack)] at hblocks
    refine ⟨mine, hmine.mono hC ?_ (fun x _ ki hki => ?_) hrun.grown
      fun hempty => hblocks.trans (hmine.absent hempty)⟩
    · have hsame : CoqFBlockStore.blocks fblocks' fhash = CoqFBlockStore.blocks fblocks fhash := by
        rw [CoqFBlockStore.blocks, hblocks]
        rfl
      exact congrArg _ hsame
    · change CoqStore.find keys x.aid = some ki at hki
      exact (hkeys x.aid).trans (by rw [hki]; rfl)
  · -- the blocks of the run replace those that were there
    rw [hfull]
    rw [if_neg fun hn => hstack (hnil.mp hn)] at hblocks
    refine ⟨new, hnew.mono hC ?_ (fun x hx ki hki => ?_) (Extends.refl _) fun hempty => ?_⟩
    · have hread : CoqFBlockStore.blocks fblocks' fhash =
          (CoqFBlockStore.blocks s.cache.fblockstore fhash).map rereadBlock := by
        rw [CoqFBlockStore.blocks, hblocks, Option.getD_some]
      exact (congrArg _ hread).trans (hrun.map_rereadBlock hC hnew)
    · obtain ⟨i, hi, haid⟩ := hrun.aid_saved hnew hx
      have hunkeyed := h.favourable.unkeyed i ⟨hi.1, Nat.lt_of_lt_of_le hi.2 hN⟩
      apply (hkeys x.aid).trans
      rw [haid, hunkeyed, ← haid, hki]
      rfl
    · rw [hempty] at hstack
      exact absurd rfl hstack

/-- A path without file information has no blocks in the run. -/
theorem RunEffect.find_blocks {p : Bytes} {w : World} {finfos : CoqFInfoStore}
    {files : List SourceFile} {s : Session cfg} (h : RunEffect C H p w finfos files s)
    (hfav : Favourable C H cfg w ∅ s.world.nassembly)
    (hnone : CoqStore.find s.cache.finfostore (fileHash C p cfg.myId) = none) :
    CoqStore.find s.cache.fblockstore (fileHash C p cfg.myId) = none := by
  obtain ⟨mine, hmine⟩ := h.saved hfav
  apply hmine.absent
  have hknown := h.known
  rw [knownChecksum, hnone, Option.map_none, Versions.lastKey, eq_comm, Option.or_eq_none_iff,
    Option.map_eq_none_iff, List.getLast?_eq_none_iff] at hknown
  rw [changedVersions, hknown.1]
  rfl

/-- What one run of the tool does, with the file information it starts from. -/
theorem lxrBackup_effect (hC : C.HexLawful) (H : Host) (w : World) {ref : Option Bytes}
    {finfos : CoqFInfoStore} (readXml : Bytes → Except Bytes Ptree)
    (href : refFInfos C readXml ref = .ok finfos)
    (hinfos : AllRecordable finfos) (call : BackupCall) {p : Bytes}
    (hworks : ∀ f ∈ call.files, BackupWorks C cfg p f) (htext : ∀ f ∈ call.files, TextFile f) :
    ∃ s : Session cfg, lxrBackup C H readXml cfg w ref call = .ok (s.world, call.documents C s) ∧
      RunEffect C H p w finfos call.files s := by
  obtain ⟨s, ofis, hrun, heffect⟩ :=
    backupRun_effect hC H call.nEnvs call.depth_pos hinfos w hworks htext
  refine ⟨s, ?_, heffect⟩
  unfold lxrBackup
  rw [href]
  dsimp only
  rw [hrun]

/-- The files of all runs. -/
def allFiles (calls : List BackupCall) : List SourceFile := calls.flatMap (·.files)

/-- The contents of a path in two parts of a run. -/
theorem versions_append (p : Bytes) (files files' : List SourceFile) :
    versions p (files ++ files') = versions p files ++ versions p files' := by
  rw [versions, List.filter_append, List.map_append]
  rfl

/-- **The chain of runs**, and the restore from the documents of all of them. -/
theorem backupChain_chained (hC : C.HexLawful) (hX : Reads readXml) (H : Host) {p : Bytes}
    {calls : List BackupCall} (hworks : ∀ f ∈ allFiles calls, BackupWorks C cfg p f)
    (htext : ∀ f ∈ allFiles calls, TextFile f) (w : World) (ref : Option Bytes)
    {finfos : CoqFInfoStore} (href : refFInfos C readXml ref = .ok finfos)
    (hinfos : AllRecordable finfos) :
    ∃ w' docs, backupChain C H readXml cfg w ref calls = .ok (w', docs) ∧
      w.nassembly ≤ w'.nassembly ∧ w'.nassembly ≤ w.nassembly +
        2 * ((allFiles calls).map fun f => (readPieces f f.content.length 0).length).sum ∧
      ∀ N vs keys fblocks, w'.nassembly ≤ N → (∀ call ∈ calls, OneContent call.files) →
        Set.InjOn (checksum C) {v | v ∈ vs ++ versions p (allFiles calls)} →
        Chained C H cfg N p vs w keys fblocks finfos →
        ∃ keys' fblocks' finfos', loadDocuments C readXml keys fblocks docs =
            .ok (keys', fblocks') ∧
          Chained C H cfg N p (vs ++ versions p (allFiles calls)) w' keys' fblocks' finfos' := by
  induction calls generalizing w ref finfos with
  | nil =>
    refine ⟨w, [], rfl, Nat.le_refl _, Nat.le_add_right _ _, fun N vs keys fblocks _ _ _ h => ?_⟩
    exact ⟨keys, fblocks, finfos, rfl, by simpa [allFiles, versions] using h⟩
  | cons call calls ih =>
    have hfiles : allFiles (call :: calls) = call.files ++ allFiles calls := rfl
    rw [hfiles] at hworks htext ⊢
    obtain ⟨s, hbackup, heffect⟩ := lxrBackup_effect hC H w readXml href hinfos call
      (fun f hf => hworks f (List.mem_append_left _ hf))
      fun f hf => htext f (List.mem_append_left _ hf)
    have hdocs := documented hC hX call s heffect.zeroFree
    obtain ⟨finfos₁, hread, hinfos₁, hfinfos₁⟩ := hdocs.infosRead
    obtain ⟨w', docs, hchain, hle, hnum, hrest⟩ :=
      ih (fun f hf => hworks f (List.mem_append_right _ hf))
        (fun f hf => htext f (List.mem_append_right _ hf)) s.world
        (some (call.documents C s).files) hread hinfos₁
    have hle₁ := heffect.nassembly_le
    have hnum₁ := heffect.drawn_le
    refine ⟨w', call.documents C s :: docs, ?_, Nat.le_trans hle₁ hle, ?_,
      fun N vs keys fblocks hN hone hinj h => ?_⟩
    · rw [backupChain, hbackup]
      dsimp only
      rw [hchain]
    · rw [List.map_append, List.sum_append]
      omega
    · rw [versions_append, ← List.append_assoc] at hinj ⊢
      have hN₁ : s.world.nassembly ≤ N := Nat.le_trans hle hN
      have hfav := h.favourable_run hN₁
      obtain ⟨keys₁, hkeys₁, hfindkeys⟩ := hdocs.keysRead keys
      obtain ⟨fblocks₁, hblocks₁, hfindblocks⟩ :=
        hdocs.blocksRead (heffect.representable hfav) fblocks
      have hhash : fileHash C p cfg.myId ≠ [] := by
        intro hnil
        have hlength := hC.length256 (C.sha3 (p ++ cfg.myId))
        rw [show C.toHex256 (C.sha3 (p ++ cfg.myId)) = [] from hnil] at hlength
        cases hlength
      have hstep := h.step hC heffect hN₁ (hone call List.mem_cons_self)
        (fun u hu c hc => hinj (by simp [hu]) (by simp [hc])) hfindkeys (hfindblocks _ hhash)
        (hfinfos₁ _ hhash (heffect.find_blocks hfav))
      obtain ⟨keys', fblocks', finfos', hload, hchained⟩ := hrest N _ keys₁ fblocks₁ hN
        (fun call hcall => hone call (List.mem_cons_of_mem _ hcall)) hinj hstep
      refine ⟨keys', fblocks', finfos', ?_, hchained⟩
      rw [loadDocuments, hkeys₁, hblocks₁]
      exact hload

/-! ## The newest version -/

/-- The overlay of the newest content that is not empty is this content. -/
theorem stack_newestFull (vs : List Bytes) :
    Overlay.stack (newestFull vs) = (Versions.newest (fun v => v ≠ []) vs).getD [] := by
  rw [newestFull]
  cases Versions.newest (fun v => v ≠ []) vs with
  | none => rfl
  | some v => exact Overlay.stack_singleton v

/-- **Incremental backups**: when nothing fails in a chain of runs, a path that was backed up is
refused or restored with the newest of its contents that is not empty; this is the last one, `c`, if
and only if `c` is not empty or no content was. -/
theorem backupChain_newest_iff (hC : C.Lawful) (hX : Reads readXml) (H : Host)
    (cfg : CoqConfiguration) (w₀ : World) (calls : List BackupCall)
    (hfiles : FilesWork C cfg (allFiles calls)) (htext : ∀ f ∈ allFiles calls, TextFile f)
    (hone : ∀ call ∈ calls, OneContent call.files)
    (hcontents : C.NoCollision {m | ∃ f ∈ allFiles calls, m = f.content}) (p c : Bytes)
    (vs : List Bytes) (hversions : versions p (allFiles calls) = vs ++ [c]) :
    ∃ w docs, backupChain C H readXml cfg w₀ none calls = .ok (w, docs) ∧
      (Favourable C H cfg w₀ ∅ w.nassembly →
        ∃ keys fblocks, loadDocuments C readXml ∅ ∅ docs = .ok (keys, fblocks) ∧
        ∀ (H' : Host) nEnvs depth, 1 ≤ nEnvs → 1 ≤ depth → ∀ out fp, out fp = none →
        ∃ s' out' ok, (Session.init cfg nEnvs depth keys fblocks ∅ w).restorePath C H' out p
            (some fp) = .ok (s', out', ok) ∧
          RefusedOr ((Versions.newest (fun v => v ≠ []) (vs ++ [c])).getD []) out' fp ok ∧
          (RefusedOr c out' fp ok ↔ (c = [] → ∀ v ∈ vs, v = []))) := by
  have hc : c ∈ versions p (allFiles calls) := by rw [hversions]; simp
  have hp : ∃ g ∈ allFiles calls, g.name = p := by
    obtain ⟨g, hg, hname, -⟩ := mem_versions.mp hc
    exact ⟨g, hg, hname⟩
  obtain ⟨w, docs, hchain, -, -, hrest⟩ := backupChain_chained hC.hex hX H
    (hfiles.backupWorks hC.hex hp) htext w₀ none rfl allRecordable_empty
  refine ⟨w, docs, hchain, fun hfav => ?_⟩
  obtain ⟨keys, fblocks, finfos, hload, hchained⟩ := hrest w.nassembly [] ∅ ∅ (Nat.le_refl _) hone
    (fun u hu v hv => checksum_injOn hC.hex hcontents hu hv) (chained_start hfav)
  refine ⟨keys, fblocks, hload, fun H' nEnvs depth hn hd out fp hnew => ?_⟩
  obtain ⟨mine, hmine⟩ := hchained.saved
  rw [List.nil_append, hversions] at hmine
  obtain ⟨s', out', ok, hpath, hstack, hrefused, -⟩ := hmine.restorePath hC.hex H' hn hd out fp hnew
  rw [stack_newestFull] at hstack hrefused
  refine ⟨s', out', ok, hpath, hstack, ?_⟩
  by_cases hempty : c = []
  · subst hempty
    rw [Versions.newest_append_of_forall_not vs (by simp)] at hstack hrefused
    cases hnewest : Versions.newest (fun v => v ≠ []) vs with
    | none =>
      rw [hnewest] at hstack
      rw [Versions.newest_eq_none_iff] at hnewest
      exact ⟨fun _ _ v hv => by simpa using hnewest v hv, fun _ => hstack⟩
    | some u =>
      obtain ⟨hu, hfull⟩ := Versions.newest_mem hnewest
      have hne : u ≠ [] := of_decide_eq_true hfull
      rw [hnewest, Option.getD_some] at hstack hrefused
      refine ⟨fun hnil => ?_, fun hall => absurd (hall rfl u hu) hne⟩
      -- an old content is restored
      rcases hstack with ⟨hok, -⟩ | ⟨hok, hout⟩
      · exact absurd (hrefused hok) hne
      · rcases hnil with ⟨hok', -⟩ | ⟨-, hout'⟩
        · rw [hok] at hok'
          cases hok'
        · rw [hout, Option.some.injEq] at hout'
          exact absurd hout' hne
  · rw [Versions.newest_concat vs (by simpa using hempty)] at hstack
    exact ⟨fun _ hnil => absurd hnil hempty, fun _ => hstack⟩

section Simple

/-- Two runs that each back up one version of the file `f`. -/
def twoRuns (c c' : Bytes) (h : c.length < 9223372036854775808)
    (h' : c'.length < 9223372036854775808) : List BackupCall :=
  [⟨1, 1, Nat.le_refl 1, [plainFile (ascii "f") c h], noOrigin, noOrigin, keptOrder, keptOrder,
      keptOrder⟩,
    ⟨1, 1, Nat.le_refl 1, [plainFile (ascii "f") c' h'], noOrigin, noOrigin, keptOrder, keptOrder,
      keptOrder⟩]

section

variable {c c' : Bytes} {h : c.length < 9223372036854775808} {h' : c'.length < 9223372036854775808}

/-- The two runs of the sample have one file each. -/
theorem mem_twoRuns {f : SourceFile} (hf : f ∈ allFiles (twoRuns c c' h h')) :
    f = plainFile (ascii "f") c h ∨ f = plainFile (ascii "f") c' h' := by
  simpa [allFiles, twoRuns] using hf

/-- The files of the sample can be read and backed up. -/
theorem filesWork_twoRuns : FilesWork simple config16 (allFiles (twoRuns c c' h h')) := by
  have hplain : ∀ f ∈ allFiles (twoRuns c c' h h'), ∃ content hlen,
      f = plainFile (ascii "f") content hlen := by
    intro f hf
    rcases mem_twoRuns hf with rfl | rfl <;> exact ⟨_, _, rfl⟩
  exact filesWork_plain hplain

/-- The names in the sample are texts. -/
theorem textFile_twoRuns : ∀ f ∈ allFiles (twoRuns c c' h h'), TextFile f := by
  intro f hf
  have hname : 0 ∉ ascii "f" := by decide
  rcases mem_twoRuns hf with rfl | rfl <;> exact ⟨hname, List.not_mem_nil⟩

/-- Each run of the sample has one content for its path. -/
theorem oneContent_twoRuns : ∀ call ∈ twoRuns c c' h h', OneContent call.files := by
  intro call hcall f hf g hg _
  simp only [twoRuns, List.mem_cons, List.not_mem_nil, or_false] at hcall
  rcases hcall with rfl | rfl <;>
    rw [List.mem_singleton.mp hf, List.mem_singleton.mp hg]

/-- The two contents of the sample have different hashes. -/
theorem noCollision_twoRuns (hne : c.getD 0 0 ≠ c'.getD 0 0) :
    simple.NoCollision {m | ∃ f ∈ allFiles (twoRuns c c' h h'), m = f.content} :=
  noCollision_contents hne fun f hf => by
    rcases mem_twoRuns hf with rfl | rfl
    · exact Or.inl rfl
    · exact Or.inr rfl

end

/-- The chain of two runs with small files, and what is restored from its documents. -/
theorem twoRuns_chained (c c' : Bytes) (h : c.length < 9223372036854775808)
    (h' : c'.length < 9223372036854775808) (hc : c.length ≤ blockSz) (hc' : c'.length ≤ blockSz)
    (hne : c.getD 0 0 ≠ c'.getD 0 0) :
    let H := numberedHost fun _ _ => allWorks
    ∃ w docs keys fblocks finfos,
      backupChain simple H parse config16 emptyWorld none (twoRuns c c' h h') = .ok (w, docs) ∧
      Favourable simple H config16 emptyWorld ∅ w.nassembly ∧
      loadDocuments simple parse ∅ ∅ docs = .ok (keys, fblocks) ∧
      Chained simple H config16 w.nassembly (ascii "f") [c, c'] w keys fblocks finfos := by
  intro H
  have hversions : versions (ascii "f") (allFiles (twoRuns c c' h h')) = [c, c'] := by
    simp [versions, allFiles, twoRuns, plainFile]
  have hp : ∃ g ∈ allFiles (twoRuns c c' h h'), g.name = ascii "f" :=
    ⟨plainFile (ascii "f") c h, by simp [allFiles, twoRuns], rfl⟩
  obtain ⟨w, docs, hchain, -, hnum, hrest⟩ := backupChain_chained simple_lawful.hex parse_reads H
    (filesWork_twoRuns.backupWorks simple_lawful.hex hp) textFile_twoRuns emptyWorld none
    rfl allRecordable_empty
  have hle : w.nassembly ≤ 18446744073709551616 := by
    have h1 := length_readPieces_le (f := plainFile (ascii "f") c h) hc
    have h2 := length_readPieces_le (f := plainFile (ascii "f") c' h') hc'
    have hsum : w.nassembly ≤ 0 + 2 *
        ((readPieces (plainFile (ascii "f") c h) c.length 0).length +
          ((readPieces (plainFile (ascii "f") c' h') c'.length 0).length + 0)) := hnum
    change (readPieces (plainFile (ascii "f") c h) c.length 0).length ≤ 1 at h1
    change (readPieces (plainFile (ascii "f") c' h') c'.length 0).length ≤ 1 at h2
    omega
  have hfav := favourable_numbered hle
  obtain ⟨keys, fblocks, finfos, hload, hchained⟩ := hrest w.nassembly [] ∅ ∅ (Nat.le_refl _)
    oneContent_twoRuns
    (fun u hu v hv => checksum_injOn simple_lawful.hex (noCollision_twoRuns hne) hu hv)
    (chained_start hfav)
  rw [List.nil_append, hversions] at hchained
  exact ⟨w, docs, keys, fblocks, finfos, hchain, hfav, hload, hchained⟩

end Simple

/-- A file changes, and is restored with its new content. -/
theorem backupChain_newest_iff_simple :
    let H := numberedHost fun _ _ => allWorks
    let calls := twoRuns [1] [2, 3] (by decide) (by decide)
    ∃ w docs keys fblocks s' out ok,
      backupChain simple H parse config16 emptyWorld none calls = .ok (w, docs) ∧
      loadDocuments simple parse ∅ ∅ docs = .ok (keys, fblocks) ∧
      (Session.init config16 1 1 keys fblocks ∅ w).restorePath simple H (fun _ => none) (ascii "f")
        (some [ascii "f"]) = .ok (s', out, ok) ∧
      RefusedOr [2, 3] out [ascii "f"] ok := by
  intro H calls
  obtain ⟨w, docs, hchain, hrest⟩ := backupChain_newest_iff simple_lawful parse_reads H config16
    emptyWorld calls filesWork_twoRuns textFile_twoRuns oneContent_twoRuns
    (noCollision_twoRuns (by decide)) (ascii "f") [2, 3] [[1]] (by decide)
  obtain ⟨w₁, docs₁, -, -, -, hchain₁, hfav, -⟩ := twoRuns_chained [1] [2, 3] (by decide)
    (by decide) (by decide) (by decide) (by decide)
  cases hchain.symm.trans hchain₁
  obtain ⟨keys, fblocks, hload, hrestore⟩ := hrest hfav
  obtain ⟨s', out, ok, hpath, -, hiff⟩ := hrestore H 1 1 (Nat.le_refl 1) (Nat.le_refl 1)
    (fun _ => none) [ascii "f"] rfl
  exact ⟨w, docs, keys, fblocks, s', out, ok, hchain, hload, hpath,
    hiff.mpr fun hnil => by cases hnil⟩

/-- A file is emptied, and is restored with its old content. -/
theorem backupChain_newest_counterexample :
    let H := numberedHost fun _ _ => allWorks
    let calls := twoRuns [1] [] (by decide) (by decide)
    ∃ w docs keys fblocks s' out,
      backupChain simple H parse config16 emptyWorld none calls = .ok (w, docs) ∧
      Favourable simple H config16 emptyWorld ∅ w.nassembly ∧
      loadDocuments simple parse ∅ ∅ docs = .ok (keys, fblocks) ∧
      (Session.init config16 1 1 keys fblocks ∅ w).restorePath simple H (fun _ => none) (ascii "f")
        (some [ascii "f"]) = .ok (s', out, true) ∧
      out [ascii "f"] = some [1] ∧ ¬ RefusedOr [] out [ascii "f"] true := by
  intro H calls
  obtain ⟨w, docs, keys, fblocks, finfos, hchain, hfav, hload, hchained⟩ :=
    twoRuns_chained [1] [] (by decide) (by decide) (by decide) (by decide) (by decide)
  obtain ⟨mine, hmine⟩ := hchained.saved
  have hnewest : newestFull [[1], []] = [[1]] := by decide
  rw [hnewest] at hmine
  obtain ⟨s', out, ok, hpath, hstack, hrefused, -⟩ := hmine.restorePath simple_lawful.hex H
    (Nat.le_refl 1) (Nat.le_refl 1) (fun _ => none) [ascii "f"] rfl
  rcases hstack with ⟨hok, -⟩ | ⟨rfl, hout⟩
  · exact absurd (hrefused hok) (by decide)
  · refine ⟨w, docs, keys, fblocks, s', out, hchain, hfav, hload, hpath, hout, ?_⟩
    rintro (⟨hok, -⟩ | ⟨-, hnil⟩)
    · cases hok
    · rw [hout] at hnil
      exact absurd hnil (by decide)

end Elykseer.Analysis
