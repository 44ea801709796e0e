import Elykseer.Analysis.Incremental
import Elykseer.Analysis.RestoreRun

/-!
# From backup to restored files

The whole path of the data: a chain of `LXRbackup` runs, each with the files document of
the one before, the documents they write, and `LXRrestore` with these documents, the
chunk directory and an output directory.

When nothing fails while backing up, `LXRrestore` makes of each file asked for, as far as
its target can be created, a new file with the newest content that is not empty:
`lxrBackup_lxrRestore`.
-/

set_option autoImplicit false

namespace Elykseer.Analysis

open Elykseer.Model Elykseer.Foundation Elykseer.Foundation.Xml

variable {C : Crypto} {H : Host} {cfg : CoqConfiguration} {readXml : Bytes → Except Bytes Ptree}

/-- A saved file is complete, and its blocks make up its versions. -/
theorem Saved.complete {s : Session cfg} {p : Bytes} {vs : List Bytes} {mine : List Entry}
    (h : Saved C s p vs mine) {fbs : List BlockInformation}
    (hfind : CoqStore.find s.cache.fblockstore (fileHash C p cfg.myId) = some fbs) :
    Complete C s fbs ∧ Overlay.overlay 0 (naivePieces C s fbs) = Overlay.stack vs ∧
      ∀ bi ∈ fbs, bi.filepos < 9223372036854775808 := by
  have hblocks : fbs.map unnumbered = mine.map fun x => unnumbered (x.record C) := by
    have hb := h.blocks
    rwa [CoqFBlockStore.blocks, hfind, Option.getD_some] at hb
  obtain ⟨hall, hpieces⟩ := naivePieces_of_readable hblocks fun x hx =>
    ⟨(h.entries x hx).1, (h.entries x hx).2.2⟩
  refine ⟨hall, by rw [hpieces, h.overlay], fun bi hbi => ?_⟩
  have hmem := List.mem_map_of_mem (f := unnumbered) hbi
  rw [hblocks] at hmem
  obtain ⟨x, hx, hrec⟩ := List.mem_map.mp hmem
  obtain ⟨hd, hpos, -⟩ := h.entries x hx
  rw [Entry.record, if_neg hd] at hrec
  have hfilepos : x.fpos = bi.filepos := congrArg BlockInformation.filepos hrec
  omega

/-- The newest content of a path that is not empty. -/
def newestContent (files : List SourceFile) (p : Bytes) : Option Bytes :=
  Versions.newest (fun v => v ≠ []) (versions p files)

/-- A path with a content that is not empty has a newest one. -/
theorem exists_newestContent {files : List SourceFile} {f : SourceFile} (hf : f ∈ files)
    (hne : f.content ≠ []) : ∃ c, newestContent files f.name = some c ∧ c ≠ [] := by
  cases hc : newestContent files f.name with
  | none =>
    have hmem : f.content ∈ versions f.name files := mem_versions.mpr ⟨f, hf, rfl, rfl⟩
    have hnone := Versions.newest_eq_none_iff.mp hc f.content hmem
    exact absurd hnone (by simpa using hne)
  | some c => exact ⟨c, rfl, of_decide_eq_true (Versions.newest_mem hc).2⟩

/-- There is a path to look at, whatever the files are. -/
theorem FilesWork.exists_backupWorks (hC : C.HexLawful) {files : List SourceFile}
    (h : FilesWork C cfg files) : ∃ p, ∀ f ∈ files, BackupWorks C cfg p f := by
  cases files with
  | nil => exact ⟨[], by simp⟩
  | cons f files => exact ⟨f.name, h.backupWorks hC ⟨f, List.mem_cons_self, rfl⟩⟩

/-- The hash of a path is not empty. -/
theorem fileHash_ne_nil (hC : C.HexLawful) (p : Bytes) : fileHash C p cfg.myId ≠ [] := by
  intro hnil
  have hlength : (fileHash C p cfg.myId).length = 64 := hC.length256 _
  rw [hnil] at hlength
  cases hlength

/-- What is restored from the documents of a chain of runs, for one path. -/
structure Archives (C : Crypto) (cfg : CoqConfiguration) (files : List SourceFile) (w : World)
    (keys : CoqKeyStore) (fblocks : CoqFBlockStore) (p : Bytes) : Prop where
  complete : ∀ fbs, CoqStore.find fblocks (fileHash C p cfg.myId) = some fbs →
    let s := Session.init cfg toolEnvs toolDepth keys fblocks ∅ w
    Complete C s fbs ∧ (∀ bi ∈ fbs, bi.filepos < 9223372036854775808) ∧
      Overlay.overlay 0 (naivePieces C s fbs) = (newestContent files p).getD []
  found : ∀ c, newestContent files p = some c →
    ∃ fbs, CoqStore.find fblocks (fileHash C p cfg.myId) = some fbs

/-- What a run saves archives the newest content. -/
theorem Saved.archives {p : Bytes} {files : List SourceFile} {w : World} {keys : CoqKeyStore}
    {fblocks : CoqFBlockStore} {mine : List Entry}
    (h : Saved C (Session.init cfg toolEnvs toolDepth keys fblocks ∅ w) p
      (newestFull (versions p files)) mine) :
    Archives C cfg files w keys fblocks p := by
  refine ⟨fun fbs hfind => ?_, fun c hc => ?_⟩
  · obtain ⟨hall, hoverlay, hseek⟩ := h.complete hfind
    exact ⟨hall, hseek, hoverlay.trans (stack_newestFull _)⟩
  · have hne : c ≠ [] := of_decide_eq_true (Versions.newest_mem hc).2
    have hblocks : CoqFBlockStore.blocks fblocks (fileHash C p cfg.myId) ≠ [] := by
      intro hnil
      have hstack := h.blocks_eq_nil_iff.mp hnil
      rw [stack_newestFull] at hstack
      have hc' : Versions.newest (fun v => v ≠ []) (versions p files) = some c := hc
      rw [hc', Option.getD_some] at hstack
      exact hne hstack
    cases hfind : CoqStore.find fblocks (fileHash C p cfg.myId) with
    | none =>
      rw [CoqFBlockStore.blocks, hfind] at hblocks
      exact absurd rfl hblocks
    | some fbs => exact ⟨fbs, rfl⟩

/-- A chain of runs archives the newest content. -/
theorem Chained.archives {N : ℕ} {p : Bytes} {files : List SourceFile} {w : World}
    {keys : CoqKeyStore} {fblocks : CoqFBlockStore} {finfos : CoqFInfoStore}
    (h : Chained C H cfg N p (versions p files) w keys fblocks finfos) :
    Archives C cfg files w keys fblocks p := by
  obtain ⟨mine, hmine⟩ := h.saved
  have hsaved : Saved C (Session.init cfg toolEnvs toolDepth keys fblocks ∅ w) p
      (newestFull (versions p files)) mine :=
    ⟨hmine.blocks, hmine.entries, hmine.overlay, hmine.absent⟩
  exact hsaved.archives

/-- What is written and loaded does not depend on the path that is looked at: what holds of each path
for stores of its own holds of all of them for the same stores. -/
theorem FilesWork.forall_loaded {ι ε ε' D : Type} (hC : C.HexLawful) {files : List SourceFile}
    (hfiles : FilesWork C cfg files) (written : Except ε (World × D))
    (load : ι → D → Except ε' (CoqKeyStore × CoqFBlockStore)) (Nice : World → Prop)
    (P : ι → World → CoqKeyStore → CoqFBlockStore → Bytes → Prop)
    (h : ∀ p, (∀ f ∈ files, BackupWorks C cfg p f) → ∃ w docs, written = .ok (w, docs) ∧
      (Nice w → ∀ i, ∃ keys fblocks, load i docs = .ok (keys, fblocks) ∧ P i w keys fblocks p)) :
    ∃ w docs, written = .ok (w, docs) ∧ (Nice w → ∀ i, ∃ keys fblocks,
      load i docs = .ok (keys, fblocks) ∧ ∀ f ∈ files, P i w keys fblocks f.name) := by
  obtain ⟨p, hp⟩ := hfiles.exists_backupWorks hC
  obtain ⟨w, docs, hwritten, hrest⟩ := h p hp
  refine ⟨w, docs, hwritten, fun hnice i => ?_⟩
  obtain ⟨keys, fblocks, hload, -⟩ := hrest hnice i
  refine ⟨keys, fblocks, hload, fun f hf => ?_⟩
  obtain ⟨w', docs', hwritten', hrest'⟩ := h f.name (hfiles.backupWorks hC ⟨f, hf, rfl⟩)
  obtain ⟨rfl, rfl⟩ := Prod.mk.inj (Except.ok.inj (hwritten.symm.trans hwritten'))
  obtain ⟨keys', fblocks', hload', hP⟩ := hrest' hnice i
  obtain ⟨rfl, rfl⟩ := Prod.mk.inj (Except.ok.inj (hload.symm.trans hload'))
  exact hP

/-- **The documents of a chain of runs archive every file.** -/
theorem backupChain_archives (hC : C.Lawful) (hX : Reads readXml) (H : Host) (w₀ : World)
    {calls : List BackupCall} (hfiles : FilesWork C cfg (allFiles calls))
    (htext : ∀ f ∈ allFiles calls, TextFile f) (hone : ∀ call ∈ calls, OneContent call.files)
    (hcontents : C.NoCollision {m | ∃ f ∈ allFiles calls, m = f.content}) :
    ∃ w docs, backupChain C H readXml cfg w₀ none calls = .ok (w, docs) ∧
      (Favourable C H cfg w₀ ∅ w.nassembly →
        ∃ keys fblocks, loadDocuments C readXml ∅ ∅ docs = .ok (keys, fblocks) ∧
          ∀ f ∈ allFiles calls, Archives C cfg (allFiles calls) w keys fblocks f.name) := by
  obtain ⟨w, docs, hchain, hrest⟩ := hfiles.forall_loaded hC.hex
    (backupChain C H readXml cfg w₀ none calls) (fun _ : Unit => loadDocuments C readXml ∅ ∅)
    (fun w => Favourable C H cfg w₀ ∅ w.nassembly) (fun _ => Archives C cfg (allFiles calls))
    fun p hworks => by
      obtain ⟨w, docs, hchain, -, -, hrest⟩ :=
        backupChain_chained hC.hex hX H hworks htext w₀ none rfl allRecordable_empty
      refine ⟨w, docs, hchain, fun hfav _ => ?_⟩
      obtain ⟨keys, fblocks, finfos, hload, hch⟩ := hrest w.nassembly [] ∅ ∅ (Nat.le_refl _) hone
        (fun u hu v hv => checksum_injOn hC.hex hcontents hu hv) (chained_start hfav)
      exact ⟨keys, fblocks, hload, hch.archives⟩
  exact ⟨w, docs, hchain, fun hfav => hrest hfav ()⟩

/-- What `LXRrestore` leaves of the archived files `names`: new files with the newest contents, as
far as the targets can be created. -/
structure Restores (files : List SourceFile) (V : View Bytes) (content : List Bytes → Bytes)
    (base : PathText Bytes) (names : List Bytes) (r : RestoreRun cfg × Option Abort)
    (done : List (Bytes × List Bytes)) : Prop where
  /-- all targets that can be created are there, and nothing else -/
  view : r.1.view = (openTargets base V (names.map fun n => (n, true))).view
  sublist : (done.map Prod.fst).Sublist names
  nodup : (done.map Prod.snd).Nodup
  isNew : ∀ q ∈ done, V.tree.node q.2 = none ∧ r.1.view.tree.node q.2 = some .regular
  target : ∀ q ∈ done, ∃ ns, relativeParts (pathOf q.1).parts = .ok ns ∧
    r.1.view.resolve (base.join ns) = .ok q.2
  newest : ∀ q ∈ done, some (r.1.content q.2) = newestContent files q.1
  directories : ∀ loc, r.1.view.tree.node loc ≠ V.tree.node loc →
    r.1.view.tree.node loc = some .directory ∨ ∃ n, (n, loc) ∈ done
  old : ∀ loc, V.tree.node loc ≠ none → r.1.content loc = content loc
  opened : r.2 = none →
    done.length = (openTargets base V (names.map fun n => (n, true))).opened.length
  status : restoreStatus r = some 0 ↔
    (openTargets base V (names.map fun n => (n, true))).opened.length = names.length
  all : restoreStatus r = some 0 → done.map Prod.fst = names

/-- With status zero, every name has been restored somewhere. -/
theorem Restores.exists_done {files : List SourceFile} {V : View Bytes}
    {content : List Bytes → Bytes} {base : PathText Bytes} {names : List Bytes}
    {r : RestoreRun cfg × Option Abort} {done : List (Bytes × List Bytes)}
    (h : Restores files V content base names r done) (hzero : restoreStatus r = some 0) {n : Bytes}
    (hn : n ∈ names) : ∃ q ∈ done, q.1 = n := by
  rw [← h.all hzero] at hn
  exact List.mem_map.mp hn

/-- Names that are archived and have a content are restored. -/
theorem Archives.restores (hC : C.HexLawful) (H : Host) {files : List SourceFile} {w : World}
    {keys : CoqKeyStore} {fblocks : CoqFBlockStore} {V : View Bytes}
    (content : List Bytes → Bytes) {base : PathText Bytes} {B : List Bytes}
    (hbase : V.resolve base = .ok B) (hdir : V.tree.node B = some .directory) {names : List Bytes}
    (hempty : [] ∉ names) (harch : ∀ n ∈ names, Archives C cfg files w keys fblocks n)
    (hnames : ∀ n ∈ names, ∃ c, newestContent files n = some c) :
    ∃ done, Restores files V content base names
      (lxrRestore C H cfg keys fblocks w V content base names) done := by
  have hjudged : ∀ n ∈ names, ∀ fbs, CoqStore.find fblocks (fileHash C n cfg.myId) = some fbs →
      Judged C (Session.init cfg toolEnvs toolDepth keys fblocks ∅ w) fbs := by
    intro n hn fbs hfind
    obtain ⟨hall, hseek, -⟩ := (harch n hn).complete fbs hfind
    exact ⟨.inr hall, hseek⟩
  have hall : ∀ n ∈ names, ∃ fbs, CoqStore.find fblocks (fileHash C n cfg.myId) = some fbs ∧
      Complete C (Session.init cfg toolEnvs toolDepth keys fblocks ∅ w) fbs ∧
      ∀ bi ∈ fbs, bi.filepos < 9223372036854775808 := by
    intro n hn
    obtain ⟨c, hc⟩ := hnames n hn
    obtain ⟨fbs, hfind⟩ := (harch n hn).found c hc
    obtain ⟨hcomplete, hseek, -⟩ := (harch n hn).complete fbs hfind
    exact ⟨fbs, hfind, hcomplete, hseek⟩
  obtain ⟨done, hinv, -, hsub, hcount⟩ :=
    lxrRestore_inv hC H keys fblocks w content hbase hdir hjudged
  obtain ⟨hview, hopened, hstatus⟩ := lxrRestore_complete hC H w content hbase hdir hempty hall
  refine ⟨done, hview, hsub, hinv.nodup, fun q hq => ⟨(hinv.kept q hq).isNew,
    (hinv.kept q hq).regular⟩, fun q hq => (hinv.kept q hq).target, fun q hq => ?_, hinv.fresh,
    hinv.old, fun hnone => ?_, hstatus, (hcount hempty).2.mp⟩
  · have hmem : q.1 ∈ names := hsub.subset (List.mem_map_of_mem hq)
    obtain ⟨fbs, hfind, -, hbytes⟩ := (hinv.kept q hq).bytes
    obtain ⟨-, -, hnewest⟩ := (harch q.1 hmem).complete fbs hfind
    obtain ⟨c, hc⟩ := hnames q.1 hmem
    rw [hbytes, hnewest, hc, Option.getD_some]
  · have hfailed := (hcount hempty).1 hnone
    have hopen := hopened hnone
    omega

/-- **From backup to restored files.**  Files are backed up in a chain of runs, and nothing fails.
With the documents of all runs `LXRrestore` makes of each name that was backed up, as far as its
target can be created, a new file with the newest content that is not empty.  It changes nothing
else, and its exit status is 0 exactly if all names have been restored. -/
theorem lxrBackup_lxrRestore (hC : C.Lawful) (hX : Reads readXml) (H H' : Host)
    (cfg : CoqConfiguration) (w₀ : World) (calls : List BackupCall)
    (hfiles : FilesWork C cfg (allFiles calls)) (htext : ∀ f ∈ allFiles calls, TextFile f)
    (hone : ∀ call ∈ calls, OneContent call.files)
    (hcontents : C.NoCollision {m | ∃ f ∈ allFiles calls, m = f.content}) (V : View Bytes)
    (content : List Bytes → Bytes) (base : PathText Bytes) (B : List Bytes)
    (hbase : V.resolve base = .ok B) (hdir : V.tree.node B = some .directory) (names : List Bytes)
    (hempty : [] ∉ names)
    (hnames : ∀ n ∈ names, ∃ f ∈ allFiles calls, f.name = n ∧ f.content ≠ []) :
    ∃ w docs, backupChain C H readXml cfg w₀ none calls = .ok (w, docs) ∧
      (Favourable C H cfg w₀ ∅ w.nassembly →
        ∃ keys fblocks done, loadDocuments C readXml ∅ ∅ docs = .ok (keys, fblocks) ∧
          Restores (allFiles calls) V content base names
            (lxrRestore C H' cfg keys fblocks w V content base names) done) := by
  obtain ⟨w, docs, hchain, hrest⟩ := backupChain_archives hC hX H w₀ hfiles htext hone hcontents
  refine ⟨w, docs, hchain, fun hfav => ?_⟩
  obtain ⟨keys, fblocks, hload, harch⟩ := hrest hfav
  obtain ⟨done, hdone⟩ := Archives.restores hC.hex H' content hbase hdir hempty
    (fun n hn => by
      obtain ⟨f, hf, rfl, -⟩ := hnames n hn
      exact harch f hf)
    fun n hn => by
      obtain ⟨f, hf, rfl, hne⟩ := hnames n hn
      obtain ⟨c, hc, -⟩ := exists_newestContent hf hne
      exact ⟨c, hc⟩
  exact ⟨keys, fblocks, done, hload, hdone⟩

/-- A file that has changed between two runs is restored into `/o` with its new content. -/
theorem lxrBackup_lxrRestore_simple :
    let H := numberedHost fun _ _ => allWorks
    let calls := twoRuns [1] [2, 3] (by decide) (by decide)
    ∃ w docs keys fblocks loc,
      backupChain simple H parse config16 emptyWorld none calls = .ok (w, docs) ∧
      loadDocuments simple parse ∅ ∅ docs = .ok (keys, fblocks) ∧
      let r := lxrRestore simple H config16 keys fblocks w outputView (fun _ => [])
        ⟨true, [.name [111]]⟩ [ascii "f"]
      restoreStatus r = some 0 ∧ r.1.view.tree.node loc = some .regular ∧
        r.1.content loc = [2, 3] := by
  intro H calls
  have hnames : ∀ n ∈ [ascii "f"], ∃ f ∈ allFiles calls, f.name = n ∧ f.content ≠ [] := by
    intro n hn
    rw [List.mem_singleton.mp hn]
    refine ⟨plainFile (ascii "f") [1] (by decide), ?_, rfl, by decide⟩
    simp [calls, allFiles, twoRuns]
  obtain ⟨w, docs, hchain, hrest⟩ := lxrBackup_lxrRestore simple_lawful parse_reads H H config16
    emptyWorld calls filesWork_twoRuns textFile_twoRuns oneContent_twoRuns
    (noCollision_twoRuns (by decide)) outputView (fun _ => []) ⟨true, [.name [111]]⟩ [[111]]
    (by decide) (by decide) [ascii "f"] (by decide) hnames
  obtain ⟨w₁, docs₁, -, -, -, hchain₁, hfav, -⟩ := twoRuns_chained [1] [2, 3] (by decide)
    (by decide) (by decide) (by decide) (by decide)
  cases hchain.symm.trans hchain₁
  obtain ⟨keys, fblocks, done, hload, hdone⟩ := hrest hfav
  have hzero := hdone.status.mpr (by decide)
  obtain ⟨q, hq, hname⟩ := hdone.exists_done hzero List.mem_cons_self
  refine ⟨w, docs, keys, fblocks, q.2, hchain, hload, hzero, (hdone.isNew q hq).2, ?_⟩
  have hnewest := hdone.newest q hq
  have hversions : versions (ascii "f") (allFiles calls) = [[1], [2, 3]] := by
    simp [versions, allFiles, calls, twoRuns, plainFile]
  rw [hname, newestContent, hversions] at hnewest
  exact Option.some.inj (hnewest.trans (by decide))

end Elykseer.Analysis
