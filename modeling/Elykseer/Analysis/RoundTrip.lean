import Elykseer.Analysis.Archive
import Elykseer.Analysis.FileBackup
import Elykseer.Analysis.RestoreFile
import Elykseer.Foundation.Versions

/-!
# From a backup to a restored file

The blocks of a path are the pieces of those of its versions that were not skipped as
unchanged, one version after the other (`Stacked`).  When nothing fails, restoring them
overlays these versions in order (`backupRun_saved`).
-/

set_option autoImplicit false

namespace Elykseer.Analysis

open Elykseer.Model Elykseer.Foundation

variable {C : Crypto} {H : Host} {cfg : CoqConfiguration}

/-! ## Restoring recorded blocks -/

/-- A readable block is restored with its bytes. -/
theorem restoreAlone_of_readable {s : Session cfg} {x : Entry} (hd : x.data ≠ [])
    (h : Readable C cfg s.cache.keystore s.world.fs x) {bi : BlockInformation}
    (hbi : unnumbered bi = unnumbered (x.record C)) :
    bi.filepos = x.fpos ∧ ∃ b, restoreAlone C s bi = some b ∧ b.bytes = x.data := by
  obtain ⟨a, hload, hholds⟩ := h
  rw [Entry.record, if_neg hd] at hbi
  have haid : bi.blockaid = x.aid := congrArg BlockInformation.blockaid hbi
  have hsize : bi.blocksize = x.data.length := congrArg BlockInformation.blocksize hbi
  have hsum : bi.bchecksum = C.sha3 x.data := congrArg BlockInformation.bchecksum hbi
  have hapos : bi.blockapos = x.apos := congrArg BlockInformation.blockapos hbi
  have hrest := restore_of_holds C hd hsize hsum (a := a) (by rw [hapos]; exact hholds)
  rw [restore_eq, Except.ok.injEq] at hrest
  have hlen : x.data.length < 2147483648 := by
    have h1 := hholds.le_dataEnd
    have h2 := dataEnd_le cfg.nchunks
    have h3 := assemblysize_lt cfg.nchunks
    omega
  refine ⟨congrArg BlockInformation.filepos hbi, CoqBuffer.ofBytes x.data, ?_,
    CoqBuffer.bytes_ofBytes hlen⟩
  have hloads : loads C s bi.blockaid = some a := by
    rw [haid]
    exact hload
  rw [restoreAlone_eq, hloads]
  exact hrest

/-- The blocks of readable entries are restored one by one. -/
theorem naivePieces_of_readable {s : Session cfg} {bis : List BlockInformation} {es : List Entry}
    (hbis : bis.map unnumbered = es.map fun x => unnumbered (x.record C))
    (hes : ∀ x ∈ es, x.data ≠ [] ∧ Readable C cfg s.cache.keystore s.world.fs x) :
    (∀ bi ∈ bis, (restoreAlone C s bi).isSome = true) ∧
      naivePieces C s bis = es.map fun x => (x.fpos, x.data) := by
  induction es generalizing bis with
  | nil =>
    have hnil : bis = [] := by simpa using hbis
    subst hnil
    exact ⟨by simp, rfl⟩
  | cons x es ih =>
    cases bis with
    | nil => simp at hbis
    | cons bi bis =>
      rw [List.map_cons, List.map_cons, List.cons.injEq] at hbis
      obtain ⟨hd, hread⟩ := hes x (by simp)
      obtain ⟨hpos, b, hb, hbytes⟩ := restoreAlone_of_readable hd hread hbis.1
      obtain ⟨hall, hpieces⟩ := ih hbis.2 fun y hy => hes y (List.mem_cons_of_mem _ hy)
      constructor
      · intro bi' hbi'
        rcases List.mem_cons.mp hbi' with rfl | hbi'
        · rw [hb]
          rfl
        · exact hall bi' hbi'
      · unfold naivePieces at hpieces ⊢
        rw [List.filterMap_cons, hb, Option.map_some, hpieces, List.map_cons, hpos, hbytes]

/-! ## The versions of a path -/

/-- The contents a path has in a sequence of files. -/
def versions (p : Bytes) (files : List SourceFile) : List Bytes :=
  (files.filter fun f => f.name = p).map (·.content)

/-- The checksum that `file_backup` compares. -/
def checksum (C : Crypto) (c : Bytes) : Bytes := C.toHex256 (C.sha3 c)

/-- The checksum of the entry under `fhash`. -/
def knownChecksum (finfos : CoqFInfoStore) (fhash : Bytes) : Option Bytes :=
  (CoqStore.find finfos fhash).map (·.fchecksum)

/-- The positions and bytes of the blocks recorded under a name. -/
def piecesOf (L : List Entry) (fname : Bytes) : List (ℕ × Bytes) :=
  (L.filter fun x => x.fname = fname).map fun x => (x.fpos, x.data)

/-- One more file adds its content under its path. -/
theorem versions_concat (p : Bytes) (files : List SourceFile) (f : SourceFile) :
    versions p (files ++ [f]) = versions p files ++ if f.name = p then [f.content] else [] := by
  unfold versions
  rw [List.filter_append, List.map_append]
  congr 1
  by_cases h : f.name = p <;> simp [h]

/-- The contents of a path are those of the files there. -/
theorem mem_versions {p v : Bytes} {files : List SourceFile} :
    v ∈ versions p files ↔ ∃ f ∈ files, f.name = p ∧ f.content = v := by
  simp [versions, and_assoc]

/-- The pieces under a name, in two parts. -/
theorem piecesOf_append (L L' : List Entry) (fname : Bytes) :
    piecesOf (L ++ L') fname = piecesOf L fname ++ piecesOf L' fname := by
  simp [piecesOf, List.filter_append]

/-- A file can be backed up completely, and shares the hash of its path with no other path than
its own. -/
structure BackupWorks (C : Crypto) (cfg : CoqConfiguration) (p : Bytes) (f : SourceFile) : Prop where
  stat : f.stat = true
  fopen : f.fopen = true
  reads : ReadsFull f
  name : fileHash C f.name cfg.myId = fileHash C p cfg.myId → f.name = p

/-- A file is skipped if the checksum is known. -/
theorem backedUp_of_works {s : Session cfg} {p : Bytes} {f : SourceFile}
    (h : BackupWorks C cfg p f) :
    if knownChecksum s.cache.finfostore (fileHash C f.name cfg.myId) = some (checksum C f.content)
      then backedUp C s f = none
      else ∃ fi, backedUp C s f = some fi := by
  obtain ⟨fi, hfi⟩ : ∃ fi, getFileInformation C f cfg.myId = some fi := ⟨_, if_pos h.stat⟩
  obtain ⟨hhash, -, hsum⟩ := fileInformation_eq hfi
  have hunchanged : s.isUnchanged fi = true ↔
      knownChecksum s.cache.finfostore (fileHash C f.name cfg.myId) =
        some (checksum C f.content) := by
    unfold Session.isUnchanged knownChecksum
    rw [hhash, hsum]
    cases CoqStore.find s.cache.finfostore (fileHash C f.name cfg.myId) with
    | none => simp
    | some prevfi => simp [checksum, eq_comm]
  unfold backedUp
  rw [hfi, Option.filter_some]
  split
  · next hknown =>
    rw [if_neg]
    rw [hunchanged.mpr hknown]
    exact Bool.false_ne_true
  · next hknown =>
    refine ⟨fi, if_pos ?_⟩
    rw [h.fopen, Bool.and_true, Bool.not_eq_true', ← Bool.not_eq_true]
    exact fun hsame => hknown (hunchanged.mp hsame)

/-- Every piece that is read starts inside the file. -/
theorem lt_of_mem_readPieces {f : SourceFile} {fsize fpos : ℕ} {p : ℕ × Bytes}
    (hp : p ∈ readPieces f fsize fpos) : p.1 < fsize := by
  induction fpos using readPieces.induct fsize with
  | case1 fpos hlt ih =>
    rw [readPieces, if_pos hlt] at hp
    rcases List.mem_cons.mp hp with rfl | hp
    · exact hlt
    · exact ih hp
  | case2 fpos hge =>
    rw [readPieces, if_neg hge] at hp
    cases hp

/-- The blocks recorded for the path `p` since `s₀` are those of its versions that changed. -/
structure Stacked (C : Crypto) (p : Bytes) (s₀ s : Session cfg) (L : List Entry)
    (past : List (SourceFile × Option FileInformation)) : Prop where
  ledger : Ledger C (writeSide s₀) (writeSide s) L
  overlay : Overlay.overlay 0 (piecesOf L (fileHash C p cfg.myId)) =
    Overlay.stack (Versions.changes (checksum C)
      (knownChecksum s₀.cache.finfostore (fileHash C p cfg.myId)) (versions p (past.map Prod.fst)))
  entries : ∀ x ∈ L, x.data ≠ [] ∧ x.fpos < 9223372036854775808
  silent : Versions.changes (checksum C)
      (knownChecksum s₀.cache.finfostore (fileHash C p cfg.myId))
      (versions p (past.map Prod.fst)) = [] → ∀ x ∈ L, x.fname ≠ fileHash C p cfg.myId
  known : knownChecksum s.cache.finfostore (fileHash C p cfg.myId) =
    Versions.lastKey (checksum C) (knownChecksum s₀.cache.finfostore (fileHash C p cfg.myId))
      (versions p (past.map Prod.fst))

/-- Nothing is recorded at first. -/
theorem stacked_start (p : Bytes) (s₀ : Session cfg) : Stacked C p s₀ s₀ [] [] :=
  ⟨ledger_refl _, rfl, by simp, by simp, rfl⟩

section Backup

variable {p : Bytes} {s₀ s s' : Session cfg} {L es : List Entry}
  {past : List (SourceFile × Option FileInformation)} {f : SourceFile}

/-- One more file with its information adds its content under its path. -/
theorem versions_past (p : Bytes) (past : List (SourceFile × Option FileInformation))
    (f : SourceFile) (ofi : Option FileInformation) :
    versions p ((past ++ [(f, ofi)]).map Prod.fst) =
      versions p (past.map Prod.fst) ++ if f.name = p then [f.content] else [] := by
  rw [List.map_append, List.map_singleton, versions_concat]

/-- The backup of another path leaves the path alone. -/
theorem Stacked.other (h : Stacked C p s₀ s L past)
    (hledger : Ledger C (writeSide s₀) (writeSide s') (L ++ es))
    (hentries : ∀ x ∈ L ++ es, x.data ≠ [] ∧ x.fpos < 9223372036854775808) (hname : f.name ≠ p)
    (hes : ∀ x ∈ es, x.fname ≠ fileHash C p cfg.myId)
    (hknown : knownChecksum s'.cache.finfostore (fileHash C p cfg.myId) =
      knownChecksum s.cache.finfostore (fileHash C p cfg.myId))
    (ofi : Option FileInformation) : Stacked C p s₀ s' (L ++ es) (past ++ [(f, ofi)]) := by
  have hversions := versions_past p past f ofi
  rw [if_neg hname, List.append_nil] at hversions
  have hpieces : piecesOf es (fileHash C p cfg.myId) = [] := by
    unfold piecesOf
    rw [List.filter_eq_nil_iff.mpr fun x hx => by simpa using hes x hx, List.map_nil]
  refine ⟨hledger, ?_, hentries, fun hnil x hx => ?_, ?_⟩
  · rw [hversions, piecesOf_append, hpieces, List.append_nil]
    exact h.overlay
  · rw [hversions] at hnil
    rcases List.mem_append.mp hx with hx | hx
    · exact h.silent hnil x hx
    · exact hes x hx
  · rw [hversions, hknown]
    exact h.known

/-- A version that is skipped is the one before. -/
theorem Stacked.skip (h : Stacked C p s₀ s L past)
    (hledger : Ledger C (writeSide s₀) (writeSide s') L) (hname : f.name = p)
    (hinfos : s'.cache.finfostore = s.cache.finfostore)
    (hknown : knownChecksum s.cache.finfostore (fileHash C p cfg.myId) =
      some (checksum C f.content))
    (ofi : Option FileInformation) : Stacked C p s₀ s' L (past ++ [(f, ofi)]) := by
  have hversions := versions_past p past f ofi
  rw [if_pos hname] at hversions
  have hlast := h.known.symm.trans hknown
  refine ⟨hledger, ?_, h.entries, ?_, ?_⟩
  · rw [hversions, Versions.changes_concat, if_pos hlast, List.append_nil]
    exact h.overlay
  · rw [hversions, Versions.changes_concat, if_pos hlast, List.append_nil]
    exact h.silent
  · rw [hversions, Versions.lastKey_concat, hinfos]
    exact hknown

/-- A version that is backed up is stacked. -/
theorem Stacked.push (h : Stacked C p s₀ s L past)
    (hledger : Ledger C (writeSide s₀) (writeSide s') (L ++ es))
    (hentries : ∀ x ∈ L ++ es, x.data ≠ [] ∧ x.fpos < 9223372036854775808) (hname : f.name = p)
    (hes : ∀ x ∈ es, x.fname = fileHash C p cfg.myId)
    (htiles : Overlay.Tiles 0 (es.map fun x => (x.fpos, x.data)) f.content)
    (hchanged : knownChecksum s.cache.finfostore (fileHash C p cfg.myId) ≠
      some (checksum C f.content))
    (hknown : knownChecksum s'.cache.finfostore (fileHash C p cfg.myId) =
      some (checksum C f.content))
    (ofi : Option FileInformation) : Stacked C p s₀ s' (L ++ es) (past ++ [(f, ofi)]) := by
  have hversions := versions_past p past f ofi
  rw [if_pos hname] at hversions
  have hlast := h.known ▸ hchanged
  have hpieces : piecesOf es (fileHash C p cfg.myId) = es.map fun x => (x.fpos, x.data) := by
    unfold piecesOf
    rw [List.filter_eq_self.mpr fun x hx => decide_eq_true (hes x hx)]
  refine ⟨hledger, ?_, hentries, fun hnil => ?_, ?_⟩
  · have hoverlay := h.overlay
    rw [Overlay.overlay] at hoverlay
    rw [hversions, Versions.changes_concat, if_neg hlast, piecesOf_append, hpieces,
      Overlay.overlay, Overlay.overlayOn_append, Overlay.stack_concat, hoverlay,
      Overlay.overlayOn_tiles 0 htiles _ (Nat.zero_le _), Overlay.overwrite_zero]
  · rw [hversions, Versions.changes_concat, if_neg hlast] at hnil
    simp at hnil
  · rw [hversions, Versions.lastKey_concat]
    exact hknown

end Backup

/-- **Every backup stacks the version of its path**, if that has changed. -/
theorem stacked_preserves (p : Bytes) (s₀ : Session cfg) :
    Preserves C H (fun _ f => BackupWorks C cfg p f)
      (fun s L past => Stacked C p s₀ s L past) := by
  intro s s' f es L past hready hworks hback h
  have hledger := hback.trace.ledger h.ledger
  have hcases := backedUp_of_works (s := s) hworks
  cases hsome : backedUp C s f with
  | none =>
    obtain ⟨rfl, hinfos⟩ := hback.of_none hsome
    have hknown : knownChecksum s.cache.finfostore (fileHash C f.name cfg.myId) =
        some (checksum C f.content) := by
      by_contra hne
      rw [if_neg hne] at hcases
      obtain ⟨fi, hfi⟩ := hcases
      rw [hsome] at hfi
      cases hfi
    by_cases hname : f.name = p
    · rw [List.append_nil] at hledger ⊢
      exact h.skip hledger hname hinfos (hname ▸ hknown) none
    · refine h.other hledger ?_ hname (by simp) (by rw [hinfos]) none
      rw [List.append_nil]
      exact h.entries
  | some fi =>
    obtain ⟨hnames, hpieces, hinfos⟩ := hback.of_some hsome
    obtain ⟨hhash, hsize, hsum⟩ := backedUp_eq hsome
    have htiles : Overlay.Tiles 0 (es.map fun x => (x.fpos, x.data)) f.content :=
      hpieces ▸ readPieces_tiles_zero hworks.reads
    have hchanged : knownChecksum s.cache.finfostore (fileHash C f.name cfg.myId) ≠
        some (checksum C f.content) := by
      intro heq
      rw [if_pos heq, hsome] at hcases
      cases hcases
    have hentries : ∀ x ∈ L ++ es, x.data ≠ [] ∧ x.fpos < 9223372036854775808 := by
      intro x hx
      rcases List.mem_append.mp hx with hx | hx
      · exact h.entries x hx
      · have hmem := List.mem_map_of_mem (f := fun x : Entry => (x.fpos, x.data)) hx
        refine ⟨htiles.ne_nil _ hmem, ?_⟩
        rw [hpieces] at hmem
        exact Nat.lt_trans (lt_of_mem_readPieces hmem) f.length_lt
    have hfind : ∀ fhash, knownChecksum s'.cache.finfostore fhash =
        if fhash = fileHash C f.name cfg.myId then some (checksum C f.content)
        else knownChecksum s.cache.finfostore fhash := by
      intro fhash
      rw [hinfos, knownChecksum, CoqFInfoStore.add, CoqStore.find_add, hhash]
      split
      · rw [Option.map_some, hsum]
        rfl
      · rfl
    by_cases hname : f.name = p
    · subst hname
      exact h.push hledger hentries rfl (fun x hx => (hnames x hx).trans hhash) htiles hchanged
        ((hfind _).trans (if_pos rfl)) (some fi)
    · have hne : fileHash C p cfg.myId ≠ fileHash C f.name cfg.myId :=
        fun heq => hname (hworks.name heq.symm)
      refine h.other hledger hentries hname (fun x hx => ?_) ((hfind _).trans (if_neg hne)) (some fi)
      rw [hnames x hx, hhash]
      exact hne.symm

/-- Closing records no block. -/
theorem Stacked.close {p : Bytes} {s₀ s : Session cfg} {L : List Entry}
    {past : List (SourceFile × Option FileInformation)} (h : Stacked C p s₀ s L past) :
    Stacked C p s₀ (s.close C H) L past := by
  obtain ⟨hinfos, hblocks⟩ := close_keeps (C := C) (H := H) s
  exact ⟨fun fname => (hblocks fname).trans (h.ledger fname), h.overlay, h.entries, h.silent,
    hinfos ▸ h.known⟩

/-! ## Backup and restore -/

/-- The versions of a path that are backed up in a run, `finfos` being the file information at its
start. -/
def changedVersions (C : Crypto) (cfg : CoqConfiguration) (finfos : CoqFInfoStore)
    (files : List SourceFile) (p : Bytes) : List Bytes :=
  Versions.changes (checksum C) (knownChecksum finfos (fileHash C p cfg.myId)) (versions p files)

/-- The blocks of the path `p` are the entries `mine`, which can be read back and carry the contents
`vs`, each written over the ones before. -/
structure Saved (C : Crypto) (s : Session cfg) (p : Bytes) (vs : List Bytes) (mine : List Entry) :
    Prop where
  blocks : (CoqFBlockStore.blocks s.cache.fblockstore (fileHash C p cfg.myId)).map unnumbered =
    mine.map fun x => unnumbered (x.record C)
  entries : ∀ x ∈ mine, x.data ≠ [] ∧ x.fpos < 9223372036854775808 ∧
    Readable C cfg s.cache.keystore s.world.fs x
  overlay : Overlay.overlay 0 (mine.map fun x => (x.fpos, x.data)) = Overlay.stack vs
  absent : vs = [] → CoqStore.find s.cache.fblockstore (fileHash C p cfg.myId) = none

/-- **After a backup run** in which nothing fails, the versions of a path that changed are saved. -/
theorem backupRun_saved (hC : C.HexLawful) (H : Host) (nEnvs : ℕ) {depth : ℕ}
    (hdepth : 1 ≤ depth) (keys₀ : CoqKeyStore) (fblocks₀ : CoqFBlockStore)
    (finfos₀ : CoqFInfoStore) (w₀ : World) (files : List SourceFile) :
    ∃ s ofis, (Session.init cfg nEnvs depth keys₀ fblocks₀ finfos₀ w₀).backupRun C H files =
        .ok (s, ofis) ∧
      s.world.nassembly ≤
        w₀.nassembly + 2 * (files.map fun f => (readPieces f f.content.length 0).length).sum ∧
      (Favourable C H cfg w₀ keys₀ s.world.nassembly →
        ∀ p, (∀ f ∈ files, BackupWorks C cfg p f) →
          CoqStore.find fblocks₀ (fileHash C p cfg.myId) = none →
          ∃ mine, Saved C s p (changedVersions C cfg finfos₀ files p) mine) := by
  set s₀ := Session.init cfg nEnvs depth keys₀ fblocks₀ finfos₀ w₀ with hs₀
  obtain ⟨s, es, ofis, hrun, hlen, htrace, hclosed, hnum, hinv⟩ := backupRun_trace (H := H) hC
    (readyToBackup_init hdepth keys₀ fblocks₀ finfos₀ w₀) files
  refine ⟨s, ofis, hrun, hnum, fun hfav p hworks hnone => ?_⟩
  have hstacked := hinv _ _ (stacked_preserves p s₀) (fun _ _ _ h => h.close)
    (meetsAll_of_forall s₀ hworks) (stacked_start p s₀)
  have hfst : (files.zip ofis).map Prod.fst = files := List.map_fst_zip (Nat.le_of_eq hlen.symm)
  have harch := htrace.archived hfav (accounted_start rfl) (archived_start hfav rfl) (Nat.le_refl _)
  rw [List.nil_append] at harch
  refine ⟨es.filter fun x => x.fname = fileHash C p cfg.myId, ?_, fun x hx => ?_, ?_, fun hnil => ?_⟩
  · have h := hstacked.ledger (fileHash C p cfg.myId)
    have hold : CoqFBlockStore.blocks (writeSide s₀).blocks (fileHash C p cfg.myId) = [] := by
      change (CoqStore.find fblocks₀ (fileHash C p cfg.myId)).getD [] = []
      rw [hnone]
      rfl
    rw [hold, List.map_nil, List.nil_append] at h
    exact h
  · have hxes := (List.mem_filter.mp hx).1
    obtain ⟨hd, hpos⟩ := hstacked.entries x hxes
    exact ⟨hd, hpos, harch.readable_of_closed hclosed hxes hd⟩
  · have hoverlay := hstacked.overlay
    rw [hfst] at hoverlay
    exact hoverlay
  · have hsilent := hstacked.silent
    rw [hfst] at hsilent
    exact (htrace.find_blocks (hsilent hnil)).trans hnone

/-- A saved path is restored to its versions, each written over the ones before, with the stores and
files of `r`. -/
theorem Saved.restoreFile (hC : C.HexLawful) {s : Session cfg} {p : Bytes} {vs : List Bytes}
    {mine : List Entry} (h : Saved C s p vs mine) (H : Host) {nEnvs depth : ℕ} (hn : 1 ≤ nEnvs)
    (hd : 1 ≤ depth) {out : Path → Option Bytes} {fp : Path} (hnew : out fp = none) :
    ∃ s', (Session.init cfg nEnvs depth s.cache.keystore s.cache.fblockstore s.cache.finfostore
        s.world).restoreFile C H out fp
        (CoqFBlockStore.blocks s.cache.fblockstore (fileHash C p cfg.myId)) =
      .ok (s', Function.update out fp (some (Overlay.stack vs)), true) := by
  set r := Session.init cfg nEnvs depth s.cache.keystore s.cache.fblockstore s.cache.finfostore
    s.world with hr
  obtain ⟨hall, hpieces⟩ := naivePieces_of_readable (s := r) h.blocks fun x hx =>
    ⟨(h.entries x hx).1, (h.entries x hx).2.2⟩
  have hpos : ∀ bi ∈ CoqFBlockStore.blocks s.cache.fblockstore (fileHash C p cfg.myId),
      bi.filepos < 9223372036854775808 := by
    intro bi hbi
    have hmem := List.mem_map_of_mem (f := unnumbered) hbi
    rw [h.blocks, List.mem_map] at hmem
    obtain ⟨x, hx, hrecord⟩ := hmem
    obtain ⟨hdata, hlt, -⟩ := h.entries x hx
    rw [Entry.record, if_neg hdata] at hrecord
    rw [show bi.filepos = x.fpos from (congrArg BlockInformation.filepos hrecord).symm]
    exact hlt
  have hready : Ready C r := ready_fresh rfl hn hd
  obtain ⟨s', hfile⟩ := restoreFile_complete (H := H) hC hready rfl hpos hnew hall
  exact ⟨s', by rw [hfile, hpieces, h.overlay]⟩

/-- The files can be read completely, and the hashes of their paths do not collide. -/
structure FilesWork (C : Crypto) (cfg : CoqConfiguration) (files : List SourceFile) : Prop where
  stat : ∀ f ∈ files, f.stat = true
  fopen : ∀ f ∈ files, f.fopen = true
  reads : ∀ f ∈ files, ReadsFull f
  names : C.NoCollision {m | ∃ f ∈ files, m = f.name ++ cfg.myId}

/-- Files that can be read and named apart can be backed up. -/
theorem FilesWork.backupWorks (hC : C.HexLawful) {files : List SourceFile}
    (h : FilesWork C cfg files) {p : Bytes} (hp : ∃ g ∈ files, g.name = p) :
    ∀ f ∈ files, BackupWorks C cfg p f := by
  intro f hf
  obtain ⟨g, hg, rfl⟩ := hp
  refine ⟨h.stat f hf, h.fopen f hf, h.reads f hf, fun heq => ?_⟩
  exact List.append_cancel_right
    (h.names ⟨f, hf, rfl⟩ ⟨g, hg, rfl⟩ (hC.toHex256_injective heq))

/-- A path that is backed up with one content has one version. -/
theorem changedVersions_same {files : List SourceFile} {f : SourceFile}
    (hf : f ∈ files) (hsame : ∀ g ∈ files, g.name = f.name → g.content = f.content) :
    Overlay.stack (changedVersions C cfg ∅ files f.name) = f.content := by
  have hall : ∀ v ∈ versions f.name files, v = f.content := by
    intro v hv
    obtain ⟨g, hg, hname, rfl⟩ := mem_versions.mp hv
    exact hsame g hg hname
  have hmem : f.content ∈ versions f.name files := mem_versions.mpr ⟨f, hf, rfl, rfl⟩
  have hne : versions f.name files ≠ [] := List.ne_nil_of_mem hmem
  have hlast : versions f.name files = (versions f.name files).dropLast ++ [f.content] := by
    rw [← List.dropLast_append_getLast hne]
    simp [hall _ (List.getLast_mem hne)]
  have hkept : f.content ∈ changedVersions C cfg ∅ files f.name := by
    have hnone : knownChecksum ∅ (fileHash C f.name cfg.myId) = none := by
      rw [knownChecksum, CoqStore.find_empty]
      rfl
    unfold changedVersions
    rw [hnone]
    exact Versions.subset_changes_none (fun v hv w hw _ => (hall v hv).trans (hall w hw).symm) hmem
  have hchanged := List.ne_nil_of_mem hkept
  unfold changedVersions at hchanged ⊢
  rw [hlast] at hchanged ⊢
  obtain ⟨us, hus⟩ := Versions.changes_eq_concat
    (fun u hu _ => hall u (List.dropLast_subset _ hu)) hchanged
  rw [hus, Overlay.stack_concat_eq_iff]
  intro v hv
  have hvs := Versions.changes_subset _ _ (hus ▸ List.mem_append_left _ hv)
  rw [← hlast] at hvs
  rw [hall v hvs]

/-- **The round trip**: in a backup run on new stores in which nothing fails, every file that is not
empty and keeps its content is restored to it from the blocks under its hash. -/
theorem backupRun_roundTrip (hC : C.Lawful) (H : Host) (cfg : CoqConfiguration) (nEnvs depth : ℕ)
    (hdepth : 1 ≤ depth) (w₀ : World) (files : List SourceFile) (hfiles : FilesWork C cfg files)
    (hnonempty : ∀ f ∈ files, f.content ≠ [])
    (hsame : ∀ f ∈ files, ∀ g ∈ files, g.name = f.name → g.content = f.content) :
    ∃ s ofis, (Session.init cfg nEnvs depth ∅ ∅ ∅ w₀).backupRun C H files = .ok (s, ofis) ∧
      (Favourable C H cfg w₀ ∅ s.world.nassembly → ∀ f ∈ files,
        CoqFBlockStore.blocks s.cache.fblockstore (fileHash C f.name cfg.myId) ≠ [] ∧
        ∀ (H' : Host) nEnvs' depth', 1 ≤ nEnvs' → 1 ≤ depth' → ∀ out fp, out fp = none →
          ∃ s', (Session.init cfg nEnvs' depth' s.cache.keystore s.cache.fblockstore
              s.cache.finfostore s.world).restoreFile C H' out fp
              (CoqFBlockStore.blocks s.cache.fblockstore (fileHash C f.name cfg.myId)) =
            .ok (s', Function.update out fp (some f.content), true)) := by
  obtain ⟨s, ofis, hrun, -, hsaved⟩ :=
    backupRun_saved hC.hex H nEnvs hdepth ∅ ∅ ∅ w₀ files
  refine ⟨s, ofis, hrun, fun hfav f hf => ?_⟩
  obtain ⟨mine, hmine⟩ := hsaved hfav f.name (hfiles.backupWorks hC.hex ⟨f, hf, rfl⟩)
    (CoqStore.find_empty _)
  have hcontent : Overlay.stack (changedVersions C cfg ∅ files f.name) = f.content :=
    changedVersions_same hf fun g hg => hsame f hf g hg
  refine ⟨fun hnil => ?_, fun H' nEnvs' depth' hn hd out fp hnew => ?_⟩
  · have hblocks := hmine.blocks
    rw [hnil, List.map_nil, eq_comm, List.map_eq_nil_iff] at hblocks
    have hoverlay := hmine.overlay
    rw [hblocks, hcontent] at hoverlay
    exact hnonempty f hf hoverlay.symm
  · rw [← hcontent]
    exact hmine.restoreFile hC.hex H' hn hd hnew

/-- One file is backed up and restored. -/
theorem backupRun_roundTrip_simple :
    let H := numberedHost fun _ _ => allWorks
    let f := plainFile (ascii "f") [1] (by decide)
    ∃ s ofis s', (Session.init config16 1 1 ∅ ∅ ∅ emptyWorld).backupRun simple H [f] =
        .ok (s, ofis) ∧
      (Session.init config16 1 1 s.cache.keystore s.cache.fblockstore s.cache.finfostore
        s.world).restoreFile simple H (fun _ => none) [ascii "f"]
        (CoqFBlockStore.blocks s.cache.fblockstore (fileHash simple f.name config16.myId)) =
          .ok (s', Function.update (fun _ => none) [ascii "f"] (some [1]), true) := by
  intro H f
  have hfiles : FilesWork simple config16 [f] := by
    refine ⟨?_, ?_, ?_, ?_⟩
    · simp [f, plainFile]
    · simp [f, plainFile]
    · intro g hg
      rw [List.mem_singleton.mp hg]
      exact readsFull_plainFile _ _ _
    · rintro m ⟨g, hg, rfl⟩ m' ⟨g', hg', rfl⟩ -
      rw [List.mem_singleton.mp hg, List.mem_singleton.mp hg']
  obtain ⟨s, ofis, hrun, hrest⟩ := backupRun_roundTrip simple_lawful H config16 1 1 (Nat.le_refl 1)
    emptyWorld [f] hfiles (by simp [f, plainFile]) (by simp)
  obtain ⟨s₁, ofis₁, hrun₁, hnum, -⟩ := backupRun_saved simple_lawful.hex H 1
    (Nat.le_refl 1) ∅ ∅ ∅ emptyWorld [f]
  cases hrun.symm.trans hrun₁
  have hle : s.world.nassembly ≤ 18446744073709551616 := by
    have hpieces : (readPieces f f.content.length 0).length ≤ 1 := length_readPieces_le (by decide)
    have hsum : s.world.nassembly ≤ 0 + 2 * ((readPieces f f.content.length 0).length + 0) := hnum
    omega
  obtain ⟨-, hrestore⟩ := hrest (favourable_numbered hle) f (by simp)
  obtain ⟨s', hfile⟩ := hrestore H 1 1 (Nat.le_refl 1) (Nat.le_refl 1) (fun _ => none) [ascii "f"] rfl
  exact ⟨s, ofis, s', hrun, hfile⟩

end Elykseer.Analysis
