import Elykseer.Analysis.BackupRestore

/-!
# Backups of files that have not changed

One more run of `LXRbackup` in a chain, on files that have the contents of the run before
or are empty, touches nothing: no chunk file is written, no random number is drawn, and
the documents add neither keys nor blocks.  Any other file is written again:
`backupChain_idle_iff`.  Nothing is assumed of the operating system but that the files can
be read.
-/

set_option autoImplicit false

namespace Elykseer.Analysis

open Elykseer.Model Elykseer.Foundation Elykseer.Foundation.Xml

variable {C : Crypto} {H : Host} {cfg : CoqConfiguration} {readXml : Bytes → Except Bytes Ptree}

/-! ## One run -/

/-- A file adds no block: it is empty, or its checksum is known. -/
def Idle (C : Crypto) (cfg : CoqConfiguration) (finfos : CoqFInfoStore) (f : SourceFile) : Prop :=
  f.content = [] ∨
    knownChecksum finfos (fileHash C f.name cfg.myId) = some (checksum C f.content)

/-- Some of the files can be backed up if all can. -/
theorem FilesWork.mono {files files' : List SourceFile} (h : FilesWork C cfg files)
    (hsub : ∀ f ∈ files', f ∈ files) : FilesWork C cfg files' where
  stat f hf := h.stat f (hsub f hf)
  fopen f hf := h.fopen f (hsub f hf)
  reads f hf := h.reads f (hsub f hf)
  names := by
    apply h.names.mono
    rintro m ⟨f, hf, hm⟩
    exact ⟨f, hsub f hf, hm⟩

/-- The backup of an idle file leaves all but the file information as it is, and this too unless the
file is empty. -/
theorem fileBackup_idle {s : Session cfg} {f : SourceFile} (hstat : f.stat = true)
    (hopen : f.fopen = true) (hqueue : s.cache.writequeue = [])
    (hidle : Idle C cfg s.cache.finfostore f) :
    ∃ finfos ofi,
      s.fileBackup C H f = .ok (⟨{ s.cache with finfostore := finfos }, s.world⟩, ofi) ∧
      (finfos = s.cache.finfostore ∨ f.content = [] ∧ ∀ fhash, fhash ≠ fileHash C f.name cfg.myId →
        knownChecksum finfos fhash = knownChecksum s.cache.finfostore fhash) := by
  obtain ⟨fi, hinfo⟩ : ∃ fi, getFileInformation C f cfg.myId = some fi := ⟨_, if_pos hstat⟩
  obtain ⟨hhash, hsize, hsum⟩ := fileInformation_eq hinfo
  by_cases hsame : s.isUnchanged fi = true
  · refine ⟨s.cache.finfostore, none, ?_, Or.inl rfl⟩
    unfold Session.fileBackup
    rw [hinfo]
    exact if_pos hsame
  -- a file whose checksum is not known is empty, so the loop ends at once
  have hempty : f.content = [] := by
    rcases hidle with hempty | hknown
    · exact hempty
    · refine absurd ?_ hsame
      obtain ⟨prevfi, hfind, hprev⟩ := Option.map_eq_some_iff.mp hknown
      unfold Session.isUnchanged
      rw [hhash, hfind]
      exact decide_eq_true (hsum.trans hprev.symm)
  have hloop : s.backupLoop C H f (C.fromHex256 fi.fhash) fi.fsize 0 = .ok s := by
    rw [Session.backupLoop, if_neg]
    rw [hsize, hempty]
    exact Nat.lt_irrefl 0
  have hiter : s.iterateWriteQueue C H = .ok s := if_pos hqueue
  refine ⟨CoqFInfoStore.add s.cache.finfostore fi.fhash fi, some fi, ?_, Or.inr ⟨hempty, ?_⟩⟩
  · unfold Session.fileBackup
    rw [hinfo]
    dsimp only
    rw [if_neg hsame, if_pos hopen, hloop]
    dsimp only
    rw [hiter]
    rfl
  · intro fhash hne
    rw [knownChecksum, CoqFInfoStore.add, CoqStore.find_add, if_neg (hhash ▸ hne)]
    rfl

/-- Idle files leave all but the file information as it is. -/
theorem backupAll_idle (hC : C.HexLawful) {files : List SourceFile} (hfiles : FilesWork C cfg files)
    (hone : OneContent files) {s : Session cfg} (hqueue : s.cache.writequeue = [])
    (hidle : ∀ f ∈ files, Idle C cfg s.cache.finfostore f) :
    ∃ finfos ofis,
      s.backupAll C H files = .ok (⟨{ s.cache with finfostore := finfos }, s.world⟩, ofis) := by
  induction files generalizing s with
  | nil => exact ⟨s.cache.finfostore, [], rfl⟩
  | cons f files ih =>
    have hf : f ∈ f :: files := List.mem_cons_self
    obtain ⟨finfos, ofi, hback, hinfos⟩ := fileBackup_idle (H := H) (hfiles.stat f hf)
      (hfiles.fopen f hf) hqueue (hidle f hf)
    obtain ⟨finfos', ofis, hall⟩ := ih (hfiles.mono fun g hg => List.mem_cons_of_mem f hg)
      (fun g hg g' hg' => hone g (List.mem_cons_of_mem f hg) g' (List.mem_cons_of_mem f hg'))
      (s := ⟨{ s.cache with finfostore := finfos }, s.world⟩) hqueue fun g hg => by
        have hgf : g ∈ f :: files := List.mem_cons_of_mem f hg
        rcases hinfos with rfl | ⟨hempty, hother⟩
        · exact hidle g hgf
        by_cases hhash : fileHash C g.name cfg.myId = fileHash C f.name cfg.myId
        · -- the same path, which is empty in this run
          have hname := (hfiles.backupWorks hC ⟨f, hf, rfl⟩ g hgf).name hhash
          exact Or.inl ((hone g hgf f hf hname).trans hempty)
        · exact (hidle g hgf).imp_right (hother _ hhash).trans
    refine ⟨finfos', ofi :: ofis, ?_⟩
    rw [Session.backupAll, hback]
    dsimp only
    rw [hall]

/-- What a run on empty key and block stores records of one path, whatever becomes of it. -/
structure RunRecords (C : Crypto) (H : Host) (p : Bytes) (w : World) (finfos : CoqFInfoStore)
    (files : List SourceFile) (s : Session cfg) : Prop where
  known : knownChecksum s.cache.finfostore (fileHash C p cfg.myId) =
    Versions.lastKey (checksum C) (knownChecksum finfos (fileHash C p cfg.myId))
      (versions p files)
  synced : CoqStore.find s.cache.finfostore (fileHash C p cfg.myId) = none →
    CoqStore.find s.cache.fblockstore (fileHash C p cfg.myId) = none
  draws : Overlay.stack (changedVersions C cfg finfos files p) ≠ [] →
    w.nassembly < s.world.nassembly

/-- A run records the changes of a path and keeps its last checksum. -/
theorem backupRun_records (hC : C.HexLawful) (H : Host) (nEnvs : ℕ) {depth : ℕ}
    (hdepth : 1 ≤ depth) (finfos : CoqFInfoStore) (w : World) {files : List SourceFile}
    {p : Bytes} (hworks : ∀ f ∈ files, BackupWorks C cfg p f) :
    ∃ s ofis, (Session.init cfg nEnvs depth ∅ ∅ finfos w).backupRun C H files = .ok (s, ofis) ∧
      RunRecords C H p w finfos files s := by
  set s₀ : Session cfg := Session.init cfg nEnvs depth ∅ ∅ finfos w with hs₀
  obtain ⟨s, es, ofis, hrun, hlen, htrace, -, -, hinv⟩ := backupRun_trace (H := H) hC
    (readyToBackup_init hdepth ∅ ∅ finfos w) files
  have hstacked := hinv _ _ (stacked_preserves p s₀) (fun _ _ _ h => h.close)
    (meetsAll_of_forall s₀ hworks) (stacked_start p s₀)
  have hacc := htrace.accounted (accounted_start (C := C) (H := H) rfl)
  rw [List.nil_append] at hacc
  have hfst : (files.zip ofis).map Prod.fst = files := List.map_fst_zip (Nat.le_of_eq hlen.symm)
  have hknown := hstacked.known
  have hsilent := hstacked.silent
  have hoverlay := hstacked.overlay
  rw [hfst] at hknown hsilent hoverlay
  refine ⟨s, ofis, hrun, hknown, fun hnone => ?_, fun hstack => ?_⟩
  · rw [knownChecksum, hnone, Option.map_none, Versions.lastKey, eq_comm, Option.or_eq_none_iff,
      Option.map_eq_none_iff, List.getLast?_eq_none_iff] at hknown
    rw [hknown.1] at hsilent
    exact (htrace.find_blocks (hsilent rfl)).trans (CoqStore.find_empty _)
  · change _ = Overlay.stack (changedVersions C cfg finfos files p) at hoverlay
    rw [← hoverlay] at hstack
    have hpieces : piecesOf es (fileHash C p cfg.myId) ≠ [] := by
      intro hnil
      rw [hnil] at hstack
      exact hstack rfl
    obtain ⟨q, hq⟩ := List.exists_mem_of_ne_nil _ hpieces
    obtain ⟨x, hx, -⟩ := List.mem_map.mp hq
    have hmem := List.mem_of_mem_filter hx
    obtain ⟨i, hle, hlt, -⟩ := hacc.drawn x hmem (hstacked.entries x hmem).1
    exact Nat.lt_of_le_of_lt hle hlt

/-- **One run** touches nothing exactly if its files are idle. -/
theorem backupRun_idle_iff (hC : C.HexLawful) (H : Host) (nEnvs : ℕ) {depth : ℕ}
    (hdepth : 1 ≤ depth) (finfos : CoqFInfoStore) (w : World) {files : List SourceFile}
    (hfiles : FilesWork C cfg files) (hone : OneContent files) :
    ∃ s ofis, (Session.init cfg nEnvs depth ∅ ∅ finfos w).backupRun C H files = .ok (s, ofis) ∧
      (s.world = w ↔ ∀ f ∈ files, Idle C cfg finfos f) ∧
      (s.world = w → s.cache.keystore = ∅ ∧ s.cache.fblockstore = ∅) := by
  obtain ⟨p, hworks⟩ := hfiles.exists_backupWorks hC
  obtain ⟨s, ofis, hrun, -⟩ := backupRun_records hC H nEnvs hdepth finfos w hworks
  have hidle : (∀ f ∈ files, Idle C cfg finfos f) →
      s.world = w ∧ s.cache.keystore = ∅ ∧ s.cache.fblockstore = ∅ := by
    intro hall
    obtain ⟨finfos', ofis', hback⟩ := backupAll_idle (H := H) hC hfiles hone
      (s := Session.init cfg nEnvs depth ∅ ∅ finfos w) rfl hall
    unfold Session.backupRun at hrun
    rw [hback] at hrun
    cases hrun
    exact ⟨rfl, rfl, rfl⟩
  have hbusy : s.world = w → ∀ f ∈ files, Idle C cfg finfos f := by
    intro hw f hf
    obtain ⟨s', ofis', hrun', hrecords⟩ := backupRun_records hC H nEnvs hdepth finfos w
      (hfiles.backupWorks hC ⟨f, hf, rfl⟩)
    cases hrun.symm.trans hrun'
    by_contra hnot
    obtain ⟨hne, hknown⟩ := not_or.mp hnot
    obtain hnil | ⟨n, c, hversions⟩ := hone.versions_eq f.name
    · have hmem : f.content ∈ versions f.name files := mem_versions.mpr ⟨f, hf, rfl, rfl⟩
      rw [hnil] at hmem
      cases hmem
    · have hc : f.content = c := by
        have hmem : f.content ∈ versions f.name files := mem_versions.mpr ⟨f, hf, rfl, rfl⟩
        rw [hversions] at hmem
        exact List.eq_of_mem_replicate hmem
      have hdraws := hrecords.draws (by
        rw [changedVersions, hversions, Versions.changes_replicate, if_neg (hc ▸ hknown),
          Overlay.stack_singleton]
        exact hc ▸ hne)
      rw [hw] at hdraws
      exact Nat.lt_irrefl _ hdraws
  exact ⟨s, ofis, hrun, ⟨hbusy, fun hall => (hidle hall).1⟩, fun hw => (hidle (hbusy hw)).2⟩

/-! ## The chain -/

/-- One more run at the end of a chain. -/
theorem backupChain_concat {calls : List BackupCall} {w w' w'' : World} {ref : Option Bytes}
    {docs : List Documents} {docs' : Documents}
    (h : backupChain C H readXml cfg w ref calls = .ok (w', docs)) {call : BackupCall}
    (hlast : lxrBackup C H readXml cfg w' (Versions.lastKey Documents.files ref docs) call =
      .ok (w'', docs')) :
    backupChain C H readXml cfg w ref (calls ++ [call]) = .ok (w'', docs ++ [docs']) := by
  induction calls generalizing w ref docs with
  | nil =>
    cases h
    change lxrBackup C H readXml cfg _ ref call = _ at hlast
    rw [List.nil_append, backupChain, hlast]
    rfl
  | cons first calls ih =>
    rw [backupChain] at h
    cases hfirst : lxrBackup C H readXml cfg w ref first with
    | error e =>
      rw [hfirst] at h
      cases h
    | ok r =>
      rw [hfirst] at h
      dsimp only at h
      cases hrest : backupChain C H readXml cfg r.1 (some r.2.files) calls with
      | error e =>
        rw [hrest] at h
        cases h
      | ok rest =>
        rw [hrest] at h
        cases h
        rw [Versions.lastKey_cons] at hlast
        rw [List.cons_append, backupChain, hfirst]
        dsimp only
        rw [ih hrest hlast]
        rfl

/-- A chain of runs knows the last checksum of each path, whatever becomes of its assemblies. -/
theorem backupChain_knows (hC : C.HexLawful) (hX : Reads readXml) (H : Host)
    {files : List SourceFile} (hfiles : FilesWork C cfg files) (htext : ∀ f ∈ files, TextFile f)
    {calls : List BackupCall} (hsub : ∀ f ∈ allFiles calls, f ∈ files) (w : World)
    {ref : Option Bytes} {finfos : CoqFInfoStore} (href : refFInfos C readXml ref = .ok finfos)
    (hinfos : AllRecordable finfos) {past : List SourceFile}
    (hknown : ∀ f ∈ files, knownChecksum finfos (fileHash C f.name cfg.myId) =
      Versions.lastKey (checksum C) none (versions f.name past)) :
    ∃ w' docs finfos', backupChain C H readXml cfg w ref calls = .ok (w', docs) ∧
      refFInfos C readXml (Versions.lastKey Documents.files ref docs) = .ok finfos' ∧
      AllRecordable finfos' ∧
      ∀ f ∈ files, knownChecksum finfos' (fileHash C f.name cfg.myId) =
        Versions.lastKey (checksum C) none (versions f.name (past ++ allFiles calls)) := by
  induction calls generalizing w ref finfos past with
  | nil =>
    refine ⟨w, [], finfos, rfl, href, hinfos, fun f hf => ?_⟩
    rw [hknown f hf]
    simp [allFiles]
  | cons call calls ih =>
    have hcall : ∀ f ∈ call.files, f ∈ files := fun f hf => hsub f (List.mem_append_left _ hf)
    have hwork := hfiles.mono hcall
    obtain ⟨p, hworks⟩ := hwork.exists_backupWorks hC
    obtain ⟨s, ofis, hrun, heffect⟩ := backupRun_effect hC H call.nEnvs call.depth_pos hinfos w
      hworks fun f hf => htext f (hcall f hf)
    have hbackup : lxrBackup C H readXml cfg w ref call = .ok (s.world, call.documents C s) := by
      unfold lxrBackup
      rw [href]
      dsimp only
      rw [hrun]
    obtain ⟨finfos₁, hread, hinfos₁, hfind₁⟩ := (documented hC hX call s heffect.zeroFree).infosRead
    have href₁ : refFInfos C readXml (some (call.documents C s).files) = .ok finfos₁ := hread
    have hknown₁ : ∀ f ∈ files, knownChecksum finfos₁ (fileHash C f.name cfg.myId) =
        Versions.lastKey (checksum C) none (versions f.name (past ++ call.files)) := by
      intro f hf
      obtain ⟨s', ofis', hrun', hrecords⟩ := backupRun_records hC H call.nEnvs call.depth_pos finfos w
        fun g hg => hfiles.backupWorks hC ⟨f, hf, rfl⟩ g (hcall g hg)
      cases hrun.symm.trans hrun'
      have hread₁ : knownChecksum finfos₁ (fileHash C f.name cfg.myId) =
          (knownChecksum s.cache.finfostore (fileHash C f.name cfg.myId)).map collapse := by
        rw [knownChecksum, hfind₁ _ (fileHash_ne_nil hC f.name) hrecords.synced, knownChecksum,
          Option.map_map, Option.map_map]
        rfl
      rw [hread₁, hrecords.known, hknown f hf, ← Versions.lastKey_append, ← versions_append,
        Versions.lastKey, Option.or_none, Option.map_map]
      exact Option.map_congr fun v _ => collapse_toHex256 hC (C.sha3 v)
    obtain ⟨w', docs, finfos', hchain, href', hinfos', hknown'⟩ :=
      ih (fun f hf => hsub f (List.mem_append_right _ hf)) s.world href₁ hinfos₁ hknown₁
    refine ⟨w', call.documents C s :: docs, finfos', ?_, ?_, hinfos', fun f hf => ?_⟩
    · rw [backupChain, hbackup]
      dsimp only
      rw [hchain]
    · rw [Versions.lastKey_cons]
      exact href'
    · rw [hknown' f hf, List.append_assoc]
      rfl

/-- With the checksum telling contents apart, a file is idle if it was like this before. -/
theorem idle_iff (hC : C.HexLawful) {finfos : CoqFInfoStore} {past : List SourceFile}
    {f : SourceFile} (hcontents : C.NoCollision {m | ∃ g ∈ past ++ [f], m = g.content})
    (hknown : knownChecksum finfos (fileHash C f.name cfg.myId) =
      Versions.lastKey (checksum C) none (versions f.name past)) :
    Idle C cfg finfos f ↔
      f.content = [] ∨ (versions f.name past).getLast? = some f.content := by
  refine or_congr_right ?_
  rw [hknown, Versions.lastKey, Option.or_none, Option.map_eq_some_iff]
  constructor
  · rintro ⟨v, hv, hsum⟩
    have hmem : v ∈ versions f.name (past ++ [f]) := by
      rw [versions_append]
      exact List.mem_append_left _ (List.mem_of_getLast? hv)
    have hlast : f.content ∈ versions f.name (past ++ [f]) :=
      mem_versions.mpr ⟨f, by simp, rfl, rfl⟩
    rw [hv, checksum_injOn hC hcontents hmem hlast hsum]
  · intro hv
    exact ⟨f.content, hv, rfl⟩

/-- **A backup of unchanged files.**  After a chain of runs, one more run leaves the chunk files, the
log and the random numbers as they are if and only if each of its files is empty or has the content
it had last.  Its documents then change no key and no block list they are read into. -/
theorem backupChain_idle_iff (hC : C.HexLawful) (hX : Reads readXml) (H : Host)
    (cfg : CoqConfiguration) (w₀ : World) (calls : List BackupCall) (call : BackupCall)
    (hfiles : FilesWork C cfg (allFiles (calls ++ [call])))
    (htext : ∀ f ∈ allFiles (calls ++ [call]), TextFile f) (hone : OneContent call.files)
    (hcontents : C.NoCollision {m | ∃ f ∈ allFiles (calls ++ [call]), m = f.content}) :
    ∃ w docs w' docs', backupChain C H readXml cfg w₀ none calls = .ok (w, docs) ∧
      backupChain C H readXml cfg w₀ none (calls ++ [call]) = .ok (w', docs ++ [docs']) ∧
      (w' = w ↔ ∀ f ∈ call.files,
        f.content = [] ∨ (versions f.name (allFiles calls)).getLast? = some f.content) ∧
      (w' = w → ∀ keys fblocks, ∃ keys' fblocks',
        loadDocuments C readXml keys fblocks [docs'] = .ok (keys', fblocks') ∧
        (∀ aid, CoqStore.find keys' aid = CoqStore.find keys aid) ∧
        ∀ fhash, fhash ≠ [] → CoqStore.find fblocks' fhash = CoqStore.find fblocks fhash) := by
  have hall : allFiles (calls ++ [call]) = allFiles calls ++ call.files := by simp [allFiles]
  rw [hall] at hfiles htext hcontents
  have hstart : ∀ f ∈ allFiles calls ++ call.files,
      knownChecksum ∅ (fileHash C f.name cfg.myId) =
        Versions.lastKey (checksum C) none (versions f.name []) := by
    intro f _
    rw [knownChecksum, CoqStore.find_empty]
    rfl
  have href₀ : refFInfos C readXml none = .ok ∅ := rfl
  obtain ⟨w, docs, finfos, hchain, href, hinfos, hknown⟩ := backupChain_knows hC hX H hfiles htext
    (fun f hf => List.mem_append_left _ hf) w₀ href₀ allRecordable_empty hstart
  have hwork := hfiles.mono fun f hf => List.mem_append_right (allFiles calls) hf
  obtain ⟨s, ofis, hrun, hidle, hempty⟩ :=
    backupRun_idle_iff hC H call.nEnvs call.depth_pos finfos w hwork hone
  have hbackup : lxrBackup C H readXml cfg w (Versions.lastKey Documents.files none docs) call =
      .ok (s.world, call.documents C s) := by
    unfold lxrBackup
    rw [href]
    dsimp only
    rw [hrun]
  refine ⟨w, docs, s.world, call.documents C s, hchain, backupChain_concat hchain hbackup, ?_,
    fun hw keys fblocks => ?_⟩
  · rw [hidle]
    refine forall₂_congr fun f hf => ?_
    have hmem : f ∈ allFiles calls ++ call.files := List.mem_append_right _ hf
    rw [idle_iff hC (hcontents.mono ?_) (hknown f hmem), List.nil_append]
    rintro m ⟨g, hg, hm⟩
    refine ⟨g, ?_, hm⟩
    rcases List.mem_append.mp hg with hg | hg
    · exact List.mem_append_left _ hg
    · rwa [List.mem_singleton.mp hg]
  · obtain ⟨hkeys, hblocks⟩ := hempty hw
    obtain ⟨p, hworks⟩ := hwork.exists_backupWorks hC
    obtain ⟨s', ofis', hrun', heffect⟩ := backupRun_effect hC H call.nEnvs call.depth_pos hinfos w
      hworks fun f hf => htext f (List.mem_append_right _ hf)
    cases hrun.symm.trans hrun'
    have hdocs := documented hC hX call s heffect.zeroFree
    obtain ⟨keys', hkeys', hfind⟩ := hdocs.keysRead keys
    obtain ⟨fblocks', hblocks', hfblocks⟩ := hdocs.blocksRead (fun fhash bi hbi => by
      rw [hblocks] at hbi
      cases hbi) fblocks
    refine ⟨keys', fblocks', ?_, fun aid => ?_, fun fhash hne => ?_⟩
    · rw [loadDocuments, hkeys', hblocks']
      rfl
    · rw [hfind, hkeys, CoqStore.find_empty, Option.or_none]
    · rw [hfblocks fhash hne, hblocks]
      rfl

/-- A small file is backed up twice, and the second time nothing happens. -/
theorem backupChain_idle_iff_simple :
    let H := numberedHost fun _ _ => allWorks
    let f := plainFile (ascii "f") [1] (by decide)
    let call : BackupCall := ⟨1, 1, Nat.le_refl 1, [f], noOrigin, noOrigin, keptOrder, keptOrder,
      keptOrder⟩
    ∃ w docs docs', backupChain simple H parse config16 emptyWorld none [call] = .ok (w, docs) ∧
      backupChain simple H parse config16 emptyWorld none [call, call] = .ok (w, docs ++ [docs']) := by
  intro H f call
  have hall : ∀ g ∈ allFiles ([call] ++ [call]), g = f := by
    intro g hg
    simpa [allFiles, call] using hg
  have hone : OneContent call.files := by
    intro g hg g' hg' _
    rw [List.mem_singleton.mp hg, List.mem_singleton.mp hg']
  obtain ⟨w, docs, w', docs', hchain, hchain', hiff, -⟩ := backupChain_idle_iff simple_lawful.hex
    parse_reads H config16 emptyWorld [call] call
    (filesWork_plain fun g hg => ⟨_, _, hall g hg⟩)
    (fun g hg => by
      rw [hall g hg]
      exact ⟨by decide, List.not_mem_nil⟩)
    hone (by
      rintro m ⟨g, hg, rfl⟩ m' ⟨g', hg', rfl⟩ -
      rw [hall g hg, hall g' hg'])
  have hsame : w' = w := hiff.mpr fun g hg => by
    rw [List.mem_singleton.mp hg]
    exact Or.inr (by decide)
  rw [hsame] at hchain'
  exact ⟨w, docs, docs', hchain, hchain'⟩

end Elykseer.Analysis
