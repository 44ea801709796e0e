import Elykseer.Analysis.BackupRestore
import Elykseer.Foundation.Growth

/-!
# Restoring into an empty output directory

In an output directory with nothing in it no link leads elsewhere and no file is in the
way, so whether the targets of a restore can be created is a matter of the file names
alone.
-/

set_option autoImplicit false

namespace Elykseer.Analysis

open Elykseer.Foundation Elykseer.Foundation.Xml Elykseer.Model

variable {V V₀ : View Bytes} {base : PathText Bytes} {B : List Bytes} {files : List (List Bytes)}

/-- The names that lead to a file below the output directory, none if it is refused. -/
def placeOf (fname : Bytes) : List Bytes :=
  match relativeParts (pathOf fname).parts with
  | .error _ => []
  | .ok ns => ns

/-- The place of a name consists of its parts. -/
theorem relativeParts_placeOf {fname : Bytes} (h : placeOf fname ≠ []) :
    relativeParts (pathOf fname).parts = .ok (placeOf fname) := by
  unfold placeOf at h ⊢
  split
  · next e he =>
    rw [he] at h
    exact absurd rfl h
  · next ns hns => exact hns

/-- A path apart from the files in the output directory is accepted as a target. -/
theorem containedTarget_grown (hbase : V.resolve base = .ok B)
    (hB : V₀.tree.node B = some .directory) (h : GrownFrom B V₀ V files) {fname : Bytes}
    (hplace : placeOf fname ≠ []) (hf : ∀ g ∈ files, Apart g (placeOf fname)) :
    containedTarget V base fname = .ok (base.join (placeOf fname)) := by
  have hparts := relativeParts_placeOf hplace
  generalize placeOf fname = ns at hplace hf hparts
  have hlast : V.tree.node (B ++ ns) = none := by
    rw [h.below ns hplace, grown_apart hf]
  obtain ⟨es, x, tl, rfl, hes, hx⟩ :=
    FileTree.exists_missing (h.keeps _ _ hB) (fun q hq => h.above hB hf hq) hlast
  obtain ⟨hne, k, hlocate⟩ := View.resolve_eq_ok.mp hbase
  have hpre : V.resolve (base.join es) = .ok (B ++ es) := by
    refine View.resolve_eq_ok.mpr ⟨?_, k, View.locate_names hlocate hes⟩
    cases hp : base.parts <;> simp_all [PathText.join]
  have hmissing := View.weaklyCanonical_missing hpre (hes es (List.prefix_refl es)) hx tl
  rw [PathText.join_join, List.append_assoc] at hmissing
  obtain ⟨hfst, hsnd⟩ := (mismatch_ofLocation B (B ++ (es ++ x :: tl))).mpr
    ⟨List.prefix_append _ _, by simp⟩
  obtain ⟨m, ms, hcons⟩ := List.exists_cons_of_ne_nil hplace
  unfold containedTarget
  rw [hparts, hcons]
  dsimp only
  rw [← hcons, View.weaklyCanonical_existing hbase, hmissing]
  dsimp only
  rw [if_neg (by simp [hfst, hsnd])]

/-- The parent directories of a target are made if they are missing. -/
theorem createParents_grown (hbase : V.resolve base = .ok B)
    (hB : V.tree.node B = some .directory) {ns : List Bytes}
    (hfree : ∀ q, q <+: ns → V.tree.node (B ++ q) = none ∨
      V.tree.node (B ++ q) = some .directory) :
    let r := createParents V (base.join ns)
    r.error = none ∧ MadeAlong B ns V r.view := by
  obtain ⟨hne, k, hlocate⟩ := View.resolve_eq_ok.mp hbase
  have hskip : V.createDirectories (base.join ns) =
      V.createAlong base.absolute base.parts (ns.map .name) := by
    have := V.createAlong_existing base.absolute base.parts (ns.map .name) []
      (by simpa using! hlocate) hB
    simpa [View.createDirectories, PathText.join] using this
  by_cases hlast : V.tree.node (B ++ ns) = none
  · obtain ⟨es, x, tl, rfl, hes, hx⟩ := FileTree.exists_missing hB hfree hlast
    have hstatus : V.status (base.join (es ++ x :: tl)) = .ok none := by
      have := View.status_missing (View.locate_names hlocate hes) (hes es (List.prefix_refl es)) hx
        tl
      rwa [PathText.join_join] at this
    have hmissing : V.exists_ (base.join (es ++ x :: tl)) = .ok false := by
      simp [View.exists_, hstatus, Except.map]
    intro r
    unfold r createParents
    rw [hmissing, hskip]
    exact V.createAlong_grown base hlocate hB (es ++ x :: tl) hfree
  · -- the directory is there, and so are those above it
    have hdir := (hfree ns (List.prefix_refl ns)).resolve_left hlast
    have halong : ∀ q, q <+: ns → V.tree.node (B ++ q) = some .directory := fun q hq =>
      FileTree.directory_above ((List.prefix_append_right_inj B).mpr hq) hdir
    have hresolve : V.resolve (base.join ns) = .ok (B ++ ns) := by
      refine View.resolve_eq_ok.mpr ⟨?_, k, View.locate_names hlocate halong⟩
      cases hp : base.parts <;> simp_all [PathText.join]
    have hexists : V.exists_ (base.join ns) = .ok true := by
      simp [View.exists_, View.status_eq_some hresolve, Except.map]
    intro r
    unfold r createParents
    rw [hexists]
    exact ⟨rfl, FileTree.Extends.refl _, rfl, rfl, halong, fun _ _ => rfl⟩

/-- The outcome when the directories and the file could be made. -/
theorem openTarget_of_created {fname : Bytes} {fp : PathText Bytes} {loc : List Bytes}
    {V' : View Bytes} (htarget : containedTarget V base fname = .ok fp)
    (herror : (createParents V (parentPath fp)).error = none)
    (hcreate : (createParents V (parentPath fp)).view.create fp .regular = .ok (loc, V')) :
    openTarget V base fname true =
      ⟨V', (createParents V (parentPath fp)).created ++ [fp], some loc, none⟩ := by
  unfold openTarget
  rw [htarget]
  dsimp only
  rw [herror]
  dsimp only
  rw [if_pos rfl, hcreate]

/-- The file is made at its place. -/
theorem openTarget_grown (hbase : V.resolve base = .ok B)
    (hB : V₀.tree.node B = some .directory) (h : GrownFrom B V₀ V files) {fname : Bytes}
    (hplace : placeOf fname ≠ []) (hf : ∀ g ∈ files, Apart g (placeOf fname)) :
    let r := openTarget V base fname true
    r.exception = none ∧ r.opened = some (B ++ placeOf fname) ∧
      GrownFrom B V₀ r.view (files ++ [placeOf fname]) := by
  have htarget := containedTarget_grown hbase hB h hplace hf
  have hlast : V.tree.node (B ++ placeOf fname) = none := by
    rw [h.below _ hplace, grown_apart hf]
  generalize placeOf fname = place at hplace hf hlast htarget
  obtain ⟨ns, n, rfl⟩ := (List.eq_nil_or_concat' place).resolve_left hplace
  have hparent : parentPath (base.join (ns ++ [n])) = base.join ns := by
    simp [parentPath, PathText.join]
  obtain ⟨herror, hmade⟩ := createParents_grown hbase (h.keeps _ _ hB) fun q hq =>
    h.above hB hf (hq.trans (List.prefix_append ns [n]))
  obtain ⟨-, k, hlocate⟩ := View.resolve_eq_ok.mp hbase
  have hfree : (createParents V (base.join ns)).view.tree.node (B ++ ns ++ [n]) = none := by
    rw [hmade.others _ fun q hq heq => ?_, List.append_assoc, hlast]
    have hlen := hq.length_le
    have := congrArg List.length heq
    simp only [List.length_append, List.length_singleton] at this
    omega
  obtain ⟨V', hcreate, hcreated⟩ := View.create_join (hmade.locate hlocate)
    (hmade.along ns (List.prefix_refl ns)) hfree .regular
  rw [PathText.join_join, ← hparent] at hcreate
  rw [← hparent] at herror
  rw [openTarget_of_created htarget herror hcreate]
  exact ⟨rfl, by rw [List.append_assoc], h.concat hf hmade hcreated⟩

/-- Files that are apart from each other are all made, each at its place. -/
theorem openTargets_grown (hB : V₀.tree.node B = some .directory) {names : List Bytes}
    (hbase : V₀.resolve base = .ok B) (hplaces : ∀ n ∈ names, placeOf n ≠ [])
    (hapart : names.Pairwise fun m n => Apart (placeOf m) (placeOf n))
    (h : GrownFrom B V₀ V files) (hf : ∀ g ∈ files, ∀ n ∈ names, Apart g (placeOf n)) :
    let r := openTargets base V (names.map fun n => (n, true))
    r.opened = names.map (fun n => B ++ placeOf n) ∧
      GrownFrom B V₀ r.view (files ++ names.map placeOf) := by
  induction names generalizing V files with
  | nil => exact ⟨rfl, by simpa [openTargets] using h⟩
  | cons n names ih =>
    obtain ⟨hn, hnames⟩ := List.pairwise_cons.mp hapart
    obtain ⟨hne, k, hlocate⟩ := View.resolve_eq_ok.mp hbase
    have hbase' : V.resolve base = .ok B := View.resolve_eq_ok.mpr
      ⟨hne, k, View.locate_extends h.keeps h.cwd h.maxLinks hlocate⟩
    obtain ⟨hexception, hopened, hgrown⟩ := openTarget_grown hbase' hB h
      (hplaces n List.mem_cons_self) fun g hg => hf g hg n List.mem_cons_self
    have hrec := ih (fun m hm => hplaces m (List.mem_cons_of_mem n hm)) hnames hgrown
      fun g hg m hm => by
        rcases List.mem_append.mp hg with hg | hg
        · exact hf g hg m (List.mem_cons_of_mem n hm)
        · rw [List.mem_singleton.mp hg]
          exact hn m hm
    rw [List.map_cons, openTargets]
    dsimp only
    rw [hexception, hopened]
    refine ⟨?_, by simpa using hrec.2⟩
    simp [hrec.1]

/-! ## A run of `LXRrestore` -/

section Run

variable {cfg : CoqConfiguration} {sources : List SourceFile} {content : List Bytes → Bytes}
  {names : List Bytes} {r : RestoreRun cfg × Option Abort} {done : List (Bytes × List Bytes)}

/-- In a directory that was empty every restored file is at its place. -/
theorem Restores.place (h : Restores sources V content base names r done)
    (hbase : V.resolve base = .ok B) (hdir : V.tree.node B = some .directory)
    (hempty : ∀ n, V.tree.node (B ++ [n]) = none) {q : Bytes × List Bytes} (hq : q ∈ done) :
    placeOf q.1 ≠ [] ∧ q.2 = B ++ placeOf q.1 := by
  obtain ⟨ns, hns, hresolve⟩ := h.target q hq
  have hplace : placeOf q.1 = ns := by
    unfold placeOf
    rw [hns]
  have hbelow := (openTargets_below hbase hdir (names.map fun n => (n, true))).1
  rw [← h.view] at hbelow
  have hloc : q.2 = B ++ ns := by
    obtain ⟨-, k, hlocate⟩ := View.resolve_eq_ok.mp hresolve
    obtain ⟨-, k', hlocate'⟩ := View.resolve_eq_ok.mp (hbelow.resolve hbase)
    have hB := hbelow.keeps _ _ hdir
    by_cases hnil : ns = []
    · subst hnil
      rw [PathText.join_nil, hlocate'] at hlocate
      simpa using (Prod.mk.inj (Except.ok.inj hlocate)).1.symm
    · have happend := View.locate_append r.1.view base.absolute base.parts (ns.map .name)
      rw [show r.1.view.locate ⟨base.absolute, base.parts⟩ = .ok (B, k') from hlocate'] at happend
      have hwalk : r.1.view.tree.walk k' B (ns.map .name) = .ok (q.2, k) := by
        rw [show r.1.view.locate ⟨base.absolute, base.parts ++ ns.map .name⟩ = .ok (q.2, k)
          from hlocate] at happend
        simpa [hnil, hB] using happend.symm
      refine FileTree.walk_names (fun p t _ hlink => ?_) hwalk
      -- what is new below the output directory is a directory or a restored file
      by_cases hsame : r.1.view.tree.node (B ++ p) = V.tree.node (B ++ p)
      · rw [hsame] at hlink
        by_cases hp : p = []
        · rw [hp, List.append_nil, hdir] at hlink
          cases hlink
        · rw [(GrownFrom.start hempty).below p hp] at hlink
          simp [grown] at hlink
      · rcases h.directories _ hsame with hd | ⟨n, hn⟩
        · rw [hd] at hlink
          cases hlink
        · rw [(h.isNew _ hn).2] at hlink
          cases hlink
  refine ⟨fun hnil => ?_, by rw [hloc, hplace]⟩
  rw [hplace] at hnil
  have hfree := (h.isNew q hq).1
  rw [hloc, hnil, List.append_nil, hdir] at hfree
  cases hfree

/-- Restored files are apart from each other. -/
theorem Restores.apart (h : Restores sources V content base names r done)
    (hbase : V.resolve base = .ok B) (hdir : V.tree.node B = some .directory)
    (hempty : ∀ n, V.tree.node (B ++ [n]) = none) :
    done.Pairwise fun a b => Apart (placeOf a.1) (placeOf b.1) := by
  have hone : ∀ a ∈ done, ∀ b ∈ done, a.2 ≠ b.2 → ¬ placeOf a.1 <+: placeOf b.1 := by
    intro a ha b hb hne hpre
    have ha' := (h.place hbase hdir hempty ha).2
    have hb' := (h.place hbase hdir hempty hb).2
    have habove : a.2 <+: b.2 := by
      rw [ha', hb']
      exact (List.prefix_append_right_inj B).mpr hpre
    have hd := FileTree.node_above habove hne (by rw [(h.isNew b hb).2]; rfl)
    rw [(h.isNew a ha).2] at hd
    cases hd
  have hnodup : done.Pairwise fun a b => a.2 ≠ b.2 := List.pairwise_map.mp h.nodup
  exact hnodup.imp_of_mem fun ha hb hne => ⟨hone _ ha _ hb hne, hone _ hb _ ha hne.symm⟩

/-- Whether everything is restored into an empty directory is a matter of the names. -/
theorem Restores.status_iff_apart (h : Restores sources V content base names r done)
    (hbase : V.resolve base = .ok B) (hdir : V.tree.node B = some .directory)
    (hempty : ∀ n, V.tree.node (B ++ [n]) = none) :
    restoreStatus r = some 0 ↔ (∀ n ∈ names, placeOf n ≠ []) ∧
      names.Pairwise fun m n => Apart (placeOf m) (placeOf n) := by
  constructor
  · intro hzero
    rw [← h.all hzero]
    refine ⟨fun n hn => ?_, List.pairwise_map.mpr (h.apart hbase hdir hempty)⟩
    obtain ⟨q, hq, rfl⟩ := List.mem_map.mp hn
    exact (h.place hbase hdir hempty hq).1
  · rintro ⟨hplaces, hapart⟩
    obtain ⟨hopened, -⟩ := openTargets_grown hdir hbase hplaces hapart (GrownFrom.start hempty)
      (by simp)
    rw [h.status, hopened, List.length_map]

/-- What a restore leaves of an output directory `B` that was empty: the files at their places with
the newest contents, the directories on the way to them, and nothing else. -/
structure Mirrors (sources : List SourceFile) (V : View Bytes) (content : List Bytes → Bytes)
    (B : List Bytes) (names : List Bytes) (st : RestoreRun cfg) : Prop where
  below : ∀ q, q ≠ [] → st.view.tree.node (B ++ q) = grown (names.map placeOf) q
  outside : ∀ loc, ¬ (B <+: loc ∧ B ≠ loc) → st.view.tree.node loc = V.tree.node loc
  newest : ∀ n ∈ names, some (st.content (B ++ placeOf n)) = newestContent sources n
  old : ∀ loc, V.tree.node loc ≠ none → st.content loc = content loc

/-- A restore with status zero into an empty directory mirrors the files. -/
theorem Restores.mirrors (h : Restores sources V content base names r done)
    (hbase : V.resolve base = .ok B) (hdir : V.tree.node B = some .directory)
    (hempty : ∀ n, V.tree.node (B ++ [n]) = none) (hzero : restoreStatus r = some 0) :
    Mirrors sources V content B names r.1 := by
  obtain ⟨hplaces, hapart⟩ := (h.status_iff_apart hbase hdir hempty).mp hzero
  obtain ⟨-, hgrown⟩ := openTargets_grown hdir hbase hplaces hapart (GrownFrom.start hempty)
    (by simp)
  rw [← h.view, List.nil_append] at hgrown
  refine ⟨hgrown.below, fun loc hloc => ?_, fun n hn => ?_, h.old⟩
  · by_cases heq : B = loc
    · rw [← heq, hgrown.keeps _ _ hdir, hdir]
    · exact hgrown.outside loc fun hB => hloc ⟨hB, heq⟩
  · rw [← h.all hzero] at hn
    obtain ⟨q, hq, rfl⟩ := List.mem_map.mp hn
    rw [← (h.place hbase hdir hempty hq).2]
    exact h.newest q hq

end Run

/-- **A restore into an empty directory is complete.**  Files are backed up in a chain of runs, and
nothing fails.  `LXRrestore` with the documents of all runs and an output directory with nothing
in it ends with status 0 exactly if the names contain no `..` and none of them leads to
another or to a directory above another; then the output directory consists of the files with
their newest contents that are not empty and of the directories on the way to them. -/
theorem lxrRestore_empty {C : Crypto} {readXml : Bytes → Except Bytes Ptree} (hC : C.Lawful)
    (hX : Reads readXml) (H H' : Host) (cfg : CoqConfiguration) (w₀ : World)
    (calls : List BackupCall) (hfiles : FilesWork C cfg (allFiles calls))
    (htext : ∀ f ∈ allFiles calls, TextFile f) (hone : ∀ call ∈ calls, OneContent call.files)
    (hcontents : C.NoCollision {m | ∃ f ∈ allFiles calls, m = f.content}) (V : View Bytes)
    (content : List Bytes → Bytes) (base : PathText Bytes) (B : List Bytes)
    (hbase : V.resolve base = .ok B) (hdir : V.tree.node B = some .directory)
    (hempty : ∀ n, V.tree.node (B ++ [n]) = none) (names : List Bytes) (hnil : [] ∉ names)
    (hnames : ∀ n ∈ names, ∃ f ∈ allFiles calls, f.name = n ∧ f.content ≠ []) :
    ∃ w docs, backupChain C H readXml cfg w₀ none calls = .ok (w, docs) ∧
      (Favourable C H cfg w₀ ∅ w.nassembly →
        ∃ keys fblocks, loadDocuments C readXml ∅ ∅ docs = .ok (keys, fblocks) ∧
          let r := lxrRestore C H' cfg keys fblocks w V content base names
          (restoreStatus r = some 0 ↔ (∀ n ∈ names, placeOf n ≠ []) ∧
            names.Pairwise fun m n => Apart (placeOf m) (placeOf n)) ∧
          (restoreStatus r = some 0 → Mirrors (allFiles calls) V content B names r.1)) := by
  obtain ⟨w, docs, hchain, hrest⟩ := backupChain_archives hC hX H w₀ hfiles htext hone hcontents
  refine ⟨w, docs, hchain, fun hfav => ?_⟩
  obtain ⟨keys, fblocks, hload, harch⟩ := hrest hfav
  obtain ⟨done, hdone⟩ := Archives.restores hC.hex H' content hbase hdir hnil
    (fun n hn => by
      obtain ⟨f, hf, rfl, -⟩ := hnames n hn
      exact harch f hf)
    fun n hn => by
      obtain ⟨f, hf, rfl, hne⟩ := hnames n hn
      obtain ⟨c, hc, -⟩ := exists_newestContent hf hne
      exact ⟨c, hc⟩
  exact ⟨keys, fblocks, hload, hdone.status_iff_apart hbase hdir hempty,
    hdone.mirrors hbase hdir hempty⟩

/-- An empty output directory `/e`. -/
def emptyOutput : View Bytes where
  tree := (FileTree.bare Bytes).insert [] [101] .directory (FileTree.bare Bytes).root (by decide)
  cwd := []
  cwd_directory := by decide
  maxLinks := 40

/-- The sample output directory is empty. -/
theorem emptyOutput_empty (n : Bytes) : emptyOutput.tree.node ([[101]] ++ [n]) = none := by
  simp [emptyOutput, FileTree.insert, FileTree.bare]

/-- After two runs `/e` consists of the file `/e/f` with its new content. -/
theorem lxrRestore_empty_simple :
    let H := numberedHost fun _ _ => allWorks
    let calls := twoRuns [1] [2, 3] (by decide) (by decide)
    ∃ w docs keys fblocks,
      backupChain simple H parse config16 emptyWorld none calls = .ok (w, docs) ∧
      loadDocuments simple parse ∅ ∅ docs = .ok (keys, fblocks) ∧
      let r := lxrRestore simple H config16 keys fblocks w emptyOutput (fun _ => [])
        ⟨true, [.name [101]]⟩ [ascii "f"]
      restoreStatus r = some 0 ∧ r.1.content [[101], ascii "f"] = [2, 3] ∧
        ∀ q, q ≠ [] → r.1.view.tree.node ([101] :: q) = grown [[ascii "f"]] q := by
  intro H calls
  have hnames : ∀ n ∈ [ascii "f"], ∃ f ∈ allFiles calls, f.name = n ∧ f.content ≠ [] := by
    intro n hn
    rw [List.mem_singleton.mp hn]
    refine ⟨plainFile (ascii "f") [1] (by decide), ?_, rfl, by decide⟩
    simp [calls, allFiles, twoRuns]
  obtain ⟨w, docs, hchain, hrest⟩ := lxrRestore_empty simple_lawful parse_reads H H config16
    emptyWorld calls filesWork_twoRuns textFile_twoRuns oneContent_twoRuns
    (noCollision_twoRuns (by decide)) emptyOutput (fun _ => []) ⟨true, [.name [101]]⟩ [[101]]
    (by decide) (by decide) emptyOutput_empty [ascii "f"] (by decide) hnames
  obtain ⟨w₁, docs₁, -, -, -, hchain₁, hfav, -⟩ := twoRuns_chained [1] [2, 3] (by decide)
    (by decide) (by decide) (by decide) (by decide)
  cases hchain.symm.trans hchain₁
  obtain ⟨keys, fblocks, hload, hiff, hmirrors⟩ := hrest hfav
  have hplace : placeOf (ascii "f") = [ascii "f"] := by decide
  have hzero := hiff.mpr ⟨by decide, List.pairwise_singleton _ _⟩
  refine ⟨w, docs, keys, fblocks, hchain, hload, hzero, ?_, ?_⟩
  · have hversions : versions (ascii "f") (allFiles calls) = [[1], [2, 3]] := by
      simp [versions, allFiles, calls, twoRuns, plainFile]
    have hnewest := (hmirrors hzero).newest (ascii "f") List.mem_cons_self
    rw [hplace, newestContent, hversions] at hnewest
    exact Option.some.inj (hnewest.trans (by decide))
  · intro q hq
    have hbelow := (hmirrors hzero).below q hq
    rwa [List.map_singleton, hplace] at hbelow

end Elykseer.Analysis
