import Elykseer.Analysis.EmptyOutput
import Elykseer.Analysis.RecursiveBackup
import Elykseer.Model.BackupPaths

/-!
# Backing up a directory and restoring it elsewhere

`LXRbackup` on paths is `LXRbackup` on the list of the files that are found
(`lxrBackupPaths_eq`).  The files below one directory are restored apart from each other,
because a file is on the way to no other; so a restore of all of them into an empty
directory is complete.
-/

set_option autoImplicit false

namespace Elykseer.Analysis

open Elykseer.Foundation Elykseer.Foundation.Unfolding Elykseer.Foundation.Xml Elykseer.Model

variable {V : View Bytes} {L : Listing V.tree} {E : ReadErrors}

/-! ## The calls of `file_backup` -/

/-- The directory can be listed, and the status of its entries be had. -/
structure CanRead (V : View Bytes) (L : Listing V.tree) (E : ReadErrors) (fp : PathText Bytes) :
    Prop where
  isDir : isDir V fp = true
  status : StatusKnown V E fp
  iterate : E.iterate 0 fp = none
  entries : ∀ n ∈ names V L fp, StatusKnown V E (fp.join [n])

/-- The directory and all that is below it can be read, in less than `fuel` levels. -/
structure Descends (V : View Bytes) (L : Listing V.tree) (E : ReadErrors) (fuel : ℕ)
    (fp : PathText Bytes) : Prop where
  isDir : isDir V fp = true
  walkable : Walkable V L E 0 fp
  length_lt : ∀ ns, Analysis.isDir V (fp.join ns) = true → ns.length < fuel

/-- The paths `file_backup` is called with, in order. -/
def backupCalls (V : View Bytes) (L : Listing V.tree) (fuel : ℕ) (paths : BackupPaths) :
    List (PathText Bytes) :=
  paths.dir1.flatMap (fun fp => (fileNames V L fp).map fun n => fp.join [n]) ++
    paths.dirs.flatMap (fileCalls V L fuel) ++ paths.files

/-- A loop whose steps never fail is a plain loop over all their calls. -/
theorem foldlM_eq_foldl {σ α β ε : Type} {f : σ → α → Except ε σ} {g : σ → β → σ}
    {calls : α → List β} {l : List α} (h : ∀ a ∈ l, ∀ s, f s a = .ok ((calls a).foldl g s))
    (s : σ) : l.foldlM f s = .ok ((l.flatMap calls).foldl g s) := by
  induction l generalizing s with
  | nil => rfl
  | cons a l ih =>
    rw [List.foldlM_cons, h a List.mem_cons_self, List.flatMap_cons, List.foldl_append]
    exact ih (fun b hb => h b (List.mem_cons_of_mem a hb)) _

/-- What can be read is backed up, whatever `file_backup` does. -/
theorem backupPaths_eq {σ : Type} (fileBackup : σ → PathText Bytes → σ) {fuel : ℕ}
    {paths : BackupPaths} (hdir1 : ∀ fp ∈ paths.dir1, CanRead V L E fp)
    (hdirs : ∀ fp ∈ paths.dirs, Descends V L E fuel fp) (qproc : σ) :
    backupPaths V L E fileBackup fuel qproc paths =
      .ok ((backupCalls V L fuel paths).foldl fileBackup qproc) := by
  have hone : ∀ fp ∈ paths.dir1, ∀ s : σ, directoryBackup V L E fileBackup 0 s fp =
      .ok (((fileNames V L fp).map fun n => fp.join [n]).foldl fileBackup s) := by
    intro fp hfp s
    have hread := hdir1 fp hfp
    rw [directoryBackup_eq fileBackup hread.isDir hread.status hread.iterate hread.entries,
      List.foldl_map]
  have hrec : ∀ fp ∈ paths.dirs, ∀ s : σ, recursiveBackup V L E fileBackup fuel s fp =
      .ok ((fileCalls V L fuel fp).foldl fileBackup s) := fun fp hfp s =>
    recursiveBackup_eq fileBackup (hdirs fp hfp).isDir (hdirs fp hfp).walkable
      (hdirs fp hfp).length_lt s
  unfold backupPaths
  rw [foldlM_eq_foldl hone]
  dsimp only
  rw [foldlM_eq_foldl hrec]
  simp [backupCalls, List.foldl_append]

/-- The calls of `file_backup` are a sequence of calls for the files found. -/
theorem foldl_fileBackupAt {cfg : CoqConfiguration} (C : Crypto) (H : Host)
    (source : PathText Bytes → SourceFile) (calls : List (PathText Bytes)) (s : Session cfg) :
    calls.foldl (Session.fileBackupAt C H source) (.ok s) =
      (s.backupAll C H (calls.map source)).map Prod.fst := by
  have herror : ∀ (l : List (PathText Bytes)) (f : Fault),
      l.foldl (Session.fileBackupAt C H source) (.error f : Except Fault (Session cfg)) =
        .error f := by
    intro l f
    induction l with
    | nil => rfl
    | cons a l ih => exact ih
  induction calls generalizing s with
  | nil => rfl
  | cons a calls ih =>
    rw [List.foldl_cons, List.map_cons, Session.backupAll]
    cases hstep : s.fileBackup C H (source a) with
    | error f => simp [Session.fileBackupAt, hstep, Except.map, herror]
    | ok r =>
      obtain ⟨s', ofi⟩ := r
      have hnext : Session.fileBackupAt C H source (.ok s) a = .ok s' := by
        simp [Session.fileBackupAt, hstep, Except.map]
      rw [hnext, ih s']
      dsimp only
      cases s'.backupAll C H (calls.map source) <;> rfl

/-- **`LXRbackup` on paths is `LXRbackup` on the files found there**, when all that is on the way can
be read. -/
theorem lxrBackupPaths_eq (C : Crypto) (H : Host) (readXml : Bytes → Except Bytes Ptree)
    (cfg : CoqConfiguration) (w : World) (ref : Option Bytes) (call : BackupCall)
    (source : PathText Bytes → SourceFile) {fuel : ℕ} {paths : BackupPaths}
    (hdir1 : ∀ fp ∈ paths.dir1, CanRead V L E fp)
    (hdirs : ∀ fp ∈ paths.dirs, Descends V L E fuel fp) :
    lxrBackupPaths C H readXml cfg w ref call V L E source fuel paths =
      .ok (lxrBackup C H readXml cfg w ref
        { call with files := (backupCalls V L fuel paths).map source }) := by
  unfold lxrBackupPaths lxrBackup
  cases refFInfos C readXml ref with
  | error e => rfl
  | ok finfos =>
    dsimp only
    rw [backupPaths_eq _ hdir1 hdirs, foldl_fileBackupAt, Session.backupRun]
    cases (Session.init cfg call.nEnvs call.depth ∅ ∅ finfos w).backupAll C H
      ((backupCalls V L fuel paths).map source) <;> rfl

/-! ## The strings of paths -/

/-- A name a file can have. -/
structure FileName (n : Bytes) : Prop where
  nonempty : n ≠ []
  slash : 47 ∉ n
  dot : n ≠ [46]
  dots : n ≠ [46, 46]

/-- A file name is read as a name, not as `.` or `..`. -/
theorem FileName.component {n : Bytes} (h : FileName n) : component n = .name n := by
  unfold Model.component
  rw [if_neg (by simp [h.nonempty, h.dot]), if_neg h.dots]

/-- The names of a path are those of its parts, one after the other. -/
theorem relativeParts_append {ps qs : List (Component Bytes)} {ns ms : List Bytes}
    (hp : relativeParts ps = .ok ns) (hq : relativeParts qs = .ok ms) :
    relativeParts (ps ++ qs) = .ok (ns ++ ms) := by
  induction ps generalizing ns with
  | nil =>
    obtain rfl : [] = ns := Except.ok.inj hp
    exact hq
  | cons c ps ih =>
    cases c with
    | up => cases hp
    | here => exact ih hp
    | name n =>
      rw [relativeParts] at hp
      cases hrest : relativeParts ps with
      | error e =>
        rw [hrest] at hp
        cases hp
      | ok ns' =>
        rw [hrest] at hp
        obtain rfl : n :: ns' = ns := Except.ok.inj hp
        simp [relativeParts, ih hrest, Except.map]

/-- A separator at the end of a path makes no difference. -/
theorem relativeParts_append_here (ps : List (Component Bytes)) :
    relativeParts (ps ++ [.here]) = relativeParts ps := by
  induction ps with
  | nil => rfl
  | cons c ps ih =>
    cases c with
    | up => rfl
    | here => exact ih
    | name n => simp [relativeParts, ih]

/-- Where a name is appended to a path, it is the next element. -/
theorem relativeParts_appendName {s n : Bytes} {ns : List Bytes} (hn : FileName n)
    (h : relativeParts (pathOf s).parts = .ok ns) :
    relativeParts (pathOf (appendName s n)).parts = .ok (ns ++ [n]) := by
  have hname : relativeParts [component n] = .ok [n] := by
    rw [hn.component]
    rfl
  have hparts : ∀ t : Bytes, t ≠ [] → (pathOf t).parts = (t.splitOn 47).map component :=
    fun t ht => if_neg ht
  by_cases hnil : s = []
  · subst hnil
    obtain rfl : [] = ns := Except.ok.inj h
    rw [appendName, if_pos (.inl rfl), List.nil_append, hparts n hn.nonempty,
      List.splitOn_eq_singleton hn.slash]
    exact hname
  · rw [hparts s hnil] at h
    by_cases hlast : s.getLast? = some 47
    · -- the separator is there already
      obtain ⟨t, rfl⟩ : ∃ t, s = t ++ [47] := List.getLast?_eq_some_iff.mp hlast
      rw [appendName, if_pos (.inr hlast), List.append_assoc, List.singleton_append,
        hparts _ (by simp), List.splitOn_append_cons_self, List.map_append,
        List.splitOn_eq_singleton hn.slash]
      rw [List.splitOn_append_cons_self, List.map_append] at h
      rw [show (([] : Bytes).splitOn 47).map component = [.here] from rfl,
        relativeParts_append_here] at h
      exact relativeParts_append h hname
    · rw [appendName, if_neg (by simp [hnil, hlast]), hparts _ (by simp),
        List.splitOn_append_cons_self, List.map_append, List.splitOn_eq_singleton hn.slash]
      exact relativeParts_append h hname

/-- Where a file below the root is restored to. -/
theorem placeOf_stringBelow {root : Bytes} {rs ns : List Bytes}
    (hroot : relativeParts (pathOf root).parts = .ok rs) (hns : ∀ n ∈ ns, FileName n) :
    placeOf (stringBelow root ns) = rs ++ ns := by
  have hparts : relativeParts (pathOf (stringBelow root ns)).parts = .ok (rs ++ ns) := by
    induction ns using List.reverseRecOn with
    | nil => simpa [stringBelow] using hroot
    | append_singleton ns n ih =>
      have hrec := ih fun m hm => hns m (List.mem_append_left [n] hm)
      rw [stringBelow, List.foldl_append, List.foldl_cons, List.foldl_nil, ← List.append_assoc]
      exact relativeParts_appendName (hns n (by simp)) hrec
  unfold placeOf
  rw [hparts]

/-! ## The files below a directory -/

/-- A path is a file when it resolves to a regular file. -/
theorem isFile_iff_resolve {fp : PathText Bytes} : isFile V fp = true ↔
    ∃ d, V.resolve fp = .ok d ∧ V.tree.node d = some .regular := by
  unfold isFile View.isRegularFile View.status
  cases hr : V.resolve fp with
  | error e => cases e <;> simp [Except.map, View.statusIs]
  | ok loc =>
    simp only [Except.map, View.statusIs]
    cases hn : V.tree.node loc with
    | none => simp [hn]
    | some node => cases node <;> simp [hn]

/-- What is on the way to something is a directory. -/
theorem isDir_on_way {root : PathText Bytes} (hroot : isDir V root = true) {ns ms : List Bytes}
    (hms : ms ≠ []) {loc : List Bytes} (h : V.resolve (root.join (ns ++ ms)) = .ok loc) :
    isDir V (root.join ns) = true := by
  obtain ⟨-, k, hlocate⟩ := View.resolve_eq_ok.mp h
  have hsplit : V.locate ⟨root.absolute, (root.join ns).parts ++ ms.map .name⟩ =
      .ok (loc, k) := by
    rw [← PathText.join_join] at hlocate
    exact hlocate
  obtain ⟨d', k', hpre, hd', -⟩ := View.locate_split hsplit (by simpa using hms)
  obtain ⟨r, hr, -⟩ := isDir_iff_resolve.mp hroot
  obtain ⟨hne, -⟩ := View.resolve_eq_ok.mp hr
  refine isDir_iff_resolve.mpr ⟨d', View.resolve_eq_ok.mpr ⟨?_, k', hpre⟩, hd'⟩
  cases hparts : root.parts <;> simp_all [PathText.join]

/-- A directory is no file. -/
theorem not_isFile_of_isDir {fp : PathText Bytes} (h : isDir V fp = true) :
    isFile V fp = false := by
  obtain ⟨d, hd, hnode⟩ := isDir_iff_resolve.mp h
  rw [Bool.eq_false_iff]
  intro hfile
  obtain ⟨d', hd', hnode'⟩ := isFile_iff_resolve.mp hfile
  obtain rfl : d = d' := Except.ok.inj (hd.symm.trans hd')
  rw [hnode] at hnode'
  cases hnode'

/-- A file is on the way to no other. -/
theorem apart_of_isFile {root : PathText Bytes} (hroot : isDir V root = true) {p q : List Bytes}
    (hp : isFile V (root.join p) = true) (hq : isFile V (root.join q) = true) (hne : p ≠ q) :
    Apart p q := by
  have hone : ∀ {p q : List Bytes}, isFile V (root.join p) = true →
      isFile V (root.join q) = true → p ≠ q → ¬ p <+: q := by
    rintro p q hp hq hne ⟨ms, rfl⟩
    have hms : ms ≠ [] := by
      rintro rfl
      simp at hne
    obtain ⟨loc, hloc, -⟩ := isFile_iff_resolve.mp hq
    rw [not_isFile_of_isDir (isDir_on_way hroot hms hloc)] at hp
    cases hp
  exact ⟨hone hp hq hne, hone hq hp hne.symm⟩

/-- The calls of a recursive backup are the files below its root. -/
theorem mem_fileCalls {fuel : ℕ} {root fp : PathText Bytes} (h : Descends V L E fuel root) :
    fp ∈ fileCalls V L fuel root ↔ ∃ q, fp = root.join q ∧ isFile V fp = true := by
  constructor
  · intro hfp
    obtain ⟨ns, -, hfp⟩ := List.mem_flatMap.mp hfp
    obtain ⟨n, hn, rfl⟩ := List.mem_map.mp hfp
    refine ⟨ns ++ [n], rfl, ?_⟩
    rw [← PathText.join_join]
    exact (List.mem_filter.mp hn).2
  · rintro ⟨q, rfl, hfile⟩
    have hq : q ≠ [] := by
      rintro rfl
      rw [PathText.join_nil, not_isFile_of_isDir h.isDir] at hfile
      cases hfile
    obtain ⟨ns, n, rfl⟩ := (List.eq_nil_or_concat' q).resolve_left hq
    obtain ⟨loc, hloc, -⟩ := isFile_iff_resolve.mp hfile
    have hdir := isDir_on_way h.isDir (List.cons_ne_nil n []) hloc
    rw [← PathText.join_join] at hloc hfile
    refine List.mem_flatMap.mpr ⟨ns, mem_walks.mpr ⟨h.length_lt ns hdir,
      (follows_iff L h.isDir ns).mpr hdir⟩, List.mem_map.mpr ⟨n, ?_, rfl⟩⟩
    exact List.mem_filter.mpr ⟨mem_names hdir hloc, hfile⟩

/-- Different names below a path give different paths. -/
theorem join_injective (root : PathText Bytes) : Function.Injective root.join := by
  intro p q h
  have hparts : root.parts ++ p.map .name = root.parts ++ q.map .name :=
    congrArg PathText.parts h
  exact List.map_injective_iff.mpr (fun _ _ h => Component.name.inj h)
    (List.append_cancel_left hparts)

/-- Every file is backed up at most once. -/
theorem fileCalls_nodup {fuel : ℕ} {root : PathText Bytes} : (fileCalls V L fuel root).Nodup := by
  refine List.nodup_flatMap.mpr ⟨fun ns _ => ?_, ?_⟩
  · refine ((names_nodup (root.join ns)).filter _).map fun n m heq => ?_
    have := List.append_cancel_left (join_injective root heq)
    simpa using this
  · refine (walks_nodup subdirs_nodup).imp fun {ns ms} hne => ?_
    rw [Function.onFun, List.disjoint_left]
    intro fp hfp hfp'
    obtain ⟨n, -, rfl⟩ := List.mem_map.mp hfp
    obtain ⟨m, -, heq⟩ := List.mem_map.mp hfp'
    exact hne (List.append_inj' (join_injective root heq) rfl).1.symm

/-- The names on the way to something are names of nodes. -/
theorem fileName_of_resolve {root : PathText Bytes} (hroot : isDir V root = true)
    (hnames : ∀ d n, (V.tree.node (d ++ [n])).isSome = true → FileName n) {q : List Bytes}
    {loc : List Bytes} (h : V.resolve (root.join q) = .ok loc) : ∀ n ∈ q, FileName n := by
  induction q using List.reverseRecOn generalizing loc with
  | nil => simp
  | append_singleton ns n ih =>
    have hdir := isDir_on_way hroot (List.cons_ne_nil n []) h
    obtain ⟨d, hd, hnode⟩ := isDir_iff_resolve.mp hdir
    rw [← PathText.join_join] at h
    have hn := node_of_leadsTo
      ((resolve_join hd hnode ⟨_, View.status_eq_some h⟩).symm.trans h)
    intro m hm
    rcases List.mem_append.mp hm with hm | hm
    · exact ih hd m hm
    · rw [List.mem_singleton.mp hm]
      exact hnames d n hn

/-! ## The copy -/

/-- The files below `root`, in the order they are backed up. -/
def filesBelow (V : View Bytes) (L : Listing V.tree) (fuel : ℕ)
    (source : PathText Bytes → SourceFile) (root : Bytes) : List SourceFile :=
  (fileCalls V L fuel (pathOf root)).map source

/-- The names of the files that are not empty. -/
def namesBelow (V : View Bytes) (L : Listing V.tree) (fuel : ℕ)
    (source : PathText Bytes → SourceFile) (root : Bytes) : List Bytes :=
  ((filesBelow V L fuel source root).filter fun f => f.content ≠ []).map SourceFile.name

/-- A file below `root` that is not empty. -/
def IsSaved (V : View Bytes) (source : PathText Bytes → SourceFile) (root : Bytes)
    (q : List Bytes) : Prop :=
  isFile V ((pathOf root).join q) = true ∧ (source ((pathOf root).join q)).content ≠ []

/-- In the output directory `B` there is a copy of the files below `root` that are not empty, at
`place`, and nothing else. -/
structure Copied {cfg : CoqConfiguration} (V : View Bytes) (source : PathText Bytes → SourceFile)
    (root : Bytes) (V' : View Bytes) (B place : List Bytes) (st : RestoreRun cfg) : Prop where
  files : ∀ q, st.view.tree.node (place ++ q) = some .regular ↔ IsSaved V source root q
  contents : ∀ q, IsSaved V source root q →
    st.content (place ++ q) = (source ((pathOf root).join q)).content
  only : ∀ loc, B <+: loc → B ≠ loc → st.view.tree.node loc ≠ none →
    ∃ q, IsSaved V source root q ∧ loc <+: place ++ q
  outside : ∀ loc, ¬ (B <+: loc ∧ B ≠ loc) → st.view.tree.node loc = V'.tree.node loc

/-- All below the directory `root` can be read, and its files are found under the strings of their
paths, which have the elements `rs` and the names on the way from `root`. -/
structure Sourced (V : View Bytes) (L : Listing V.tree) (E : ReadErrors) (fuel : ℕ)
    (source : PathText Bytes → SourceFile) (root : Bytes) (rs : List Bytes) : Prop where
  descends : Descends V L E fuel (pathOf root)
  relative : relativeParts (pathOf root).parts = .ok rs
  fileNames : ∀ d n, (V.tree.node (d ++ [n])).isSome = true → FileName n
  named : ∀ ns, (source ((pathOf root).join ns)).name = stringBelow root ns

namespace Sourced

variable {source : PathText Bytes → SourceFile} {fuel : ℕ} {root : Bytes} {rs : List Bytes}

/-- The files below the root are the regular files found there. -/
theorem mem_filesBelow (h : Sourced V L E fuel source root rs) {f : SourceFile} :
    f ∈ filesBelow V L fuel source root ↔
      ∃ q, f = source ((pathOf root).join q) ∧ isFile V ((pathOf root).join q) = true := by
  constructor
  · intro hf
    obtain ⟨fp, hfp, rfl⟩ := List.mem_map.mp hf
    obtain ⟨q, rfl, hfile⟩ := (mem_fileCalls h.descends).mp hfp
    exact ⟨q, rfl, hfile⟩
  · rintro ⟨q, rfl, hfile⟩
    exact List.mem_map_of_mem ((mem_fileCalls h.descends).mpr ⟨q, rfl, hfile⟩)

/-- The names below the root are those of the files that are saved. -/
theorem mem_namesBelow (h : Sourced V L E fuel source root rs) {n : Bytes} :
    n ∈ namesBelow V L fuel source root ↔
      ∃ q, n = (source ((pathOf root).join q)).name ∧ IsSaved V source root q := by
  constructor
  · intro hn
    obtain ⟨f, hf, rfl⟩ := List.mem_map.mp hn
    obtain ⟨hf, hne⟩ := List.mem_filter.mp hf
    obtain ⟨q, rfl, hfile⟩ := h.mem_filesBelow.mp hf
    exact ⟨q, rfl, hfile, of_decide_eq_true hne⟩
  · rintro ⟨q, rfl, hfile, hne⟩
    exact List.mem_map_of_mem (List.mem_filter.mpr
      ⟨h.mem_filesBelow.mpr ⟨q, rfl, hfile⟩, decide_eq_true hne⟩)

/-- The restored files are found where they were below `root`. -/
theorem placeOf (h : Sourced V L E fuel source root rs) {q : List Bytes}
    (hq : isFile V ((pathOf root).join q) = true) :
    Analysis.placeOf (source ((pathOf root).join q)).name = rs ++ q := by
  obtain ⟨loc, hloc, -⟩ := isFile_iff_resolve.mp hq
  rw [h.named]
  exact placeOf_stringBelow h.relative (fileName_of_resolve h.descends.isDir h.fileNames hloc)

/-- The root is not a file, so a file has a name below it. -/
theorem ne_nil (h : Sourced V L E fuel source root rs) {q : List Bytes}
    (hq : isFile V ((pathOf root).join q) = true) : q ≠ [] := by
  rintro rfl
  rw [PathText.join_nil, not_isFile_of_isDir h.descends.isDir] at hq
  cases hq

/-- Files with one name are one file. -/
theorem eq_of_name (h : Sourced V L E fuel source root rs) {p q : List Bytes}
    (hp : isFile V ((pathOf root).join p) = true) (hq : isFile V ((pathOf root).join q) = true)
    (heq : (source ((pathOf root).join p)).name = (source ((pathOf root).join q)).name) :
    p = q := by
  have hplace := congrArg Analysis.placeOf heq
  rw [h.placeOf hp, h.placeOf hq] at hplace
  exact List.append_cancel_left hplace

/-- A path has one content in a run over the tree. -/
theorem oneContent (h : Sourced V L E fuel source root rs) :
    OneContent (filesBelow V L fuel source root) := by
  intro f hf g hg heq
  obtain ⟨p, rfl, hp⟩ := h.mem_filesBelow.mp hf
  obtain ⟨q, rfl, hq⟩ := h.mem_filesBelow.mp hg
  rw [h.eq_of_name hp hq heq]

/-- The names of the files lead to places apart from each other. -/
theorem apart (h : Sourced V L E fuel source root rs) :
    (namesBelow V L fuel source root).Pairwise fun m n =>
      Apart (Analysis.placeOf m) (Analysis.placeOf n) := by
  have hpairs : (fileCalls V L fuel (pathOf root)).Pairwise fun fp gp =>
      Apart (Analysis.placeOf (source fp).name) (Analysis.placeOf (source gp).name) := by
    refine List.Pairwise.imp_of_mem ?_ (fileCalls_nodup (V := V) (L := L))
    intro fp gp hfp hgp hne
    obtain ⟨p, rfl, hp⟩ := (mem_fileCalls h.descends).mp hfp
    obtain ⟨q, rfl, hq⟩ := (mem_fileCalls h.descends).mp hgp
    have hpq : p ≠ q := fun heq => hne (by rw [heq])
    obtain ⟨h₁, h₂⟩ := apart_of_isFile h.descends.isDir hp hq hpq
    rw [h.placeOf hp, h.placeOf hq]
    exact ⟨fun hpre => h₁ ((List.prefix_append_right_inj rs).mp hpre),
      fun hpre => h₂ ((List.prefix_append_right_inj rs).mp hpre)⟩
  have hfiles : (filesBelow V L fuel source root).Pairwise fun f g =>
      Apart (Analysis.placeOf f.name) (Analysis.placeOf g.name) := List.pairwise_map.mpr hpairs
  exact List.pairwise_map.mpr (hfiles.filter _)

/-- A mirror of the names is a copy of the files. -/
theorem copied {cfg : CoqConfiguration} (h : Sourced V L E fuel source root rs) {V' : View Bytes}
    {content : List Bytes → Bytes} {B : List Bytes} (hdir : V'.tree.node B = some .directory)
    {st : RestoreRun cfg} (hst : Mirrors (filesBelow V L fuel source root) V' content B
      (namesBelow V L fuel source root) st) : Copied V source root V' B (B ++ rs) st := by
  have hplaces : ∀ p, p ∈ (namesBelow V L fuel source root).map Analysis.placeOf ↔
      ∃ q, p = rs ++ q ∧ IsSaved V source root q := by
    intro p
    constructor
    · intro hp
      obtain ⟨n, hn, rfl⟩ := List.mem_map.mp hp
      obtain ⟨q, rfl, hq⟩ := h.mem_namesBelow.mp hn
      exact ⟨q, h.placeOf hq.1, hq⟩
    · rintro ⟨q, rfl, hq⟩
      exact List.mem_map.mpr ⟨_, h.mem_namesBelow.mpr ⟨q, rfl, hq⟩, h.placeOf hq.1⟩
  refine ⟨fun q => ?_, fun q hq => ?_, fun loc hB hne hnode => ?_, hst.outside⟩
  · rw [List.append_assoc]
    by_cases hnil : rs ++ q = []
    · -- the output directory itself
      have hq : ¬ IsSaved V source root q := fun hq =>
        h.ne_nil hq.1 (List.append_eq_nil_iff.mp hnil).2
      rw [hnil, List.append_nil, hst.outside B (by simp), hdir]
      simp [hq]
    · rw [hst.below _ hnil, grown]
      constructor
      · intro hregular
        split at hregular
        · next hmem =>
          obtain ⟨q', heq, hq'⟩ := (hplaces _).mp hmem
          rwa [List.append_cancel_left heq]
        · split at hregular <;> cases hregular
      · intro hq
        rw [if_pos ((hplaces _).mpr ⟨q, rfl, hq⟩)]
  · have hnewest := hst.newest _ (h.mem_namesBelow.mpr ⟨q, rfl, hq⟩)
    rw [h.placeOf hq.1, ← List.append_assoc] at hnewest
    obtain ⟨hmem, -⟩ := Versions.newest_mem hnewest.symm
    obtain ⟨f, hf, hname, hcontent⟩ := mem_versions.mp hmem
    rw [← hcontent]
    exact h.oneContent f hf _ (h.mem_filesBelow.mpr ⟨q, rfl, hq.1⟩) hname
  · obtain ⟨p, rfl⟩ := hB
    have hp : p ≠ [] := by
      rintro rfl
      simp at hne
    rw [hst.below p hp, grown] at hnode
    split at hnode
    · next hmem =>
      obtain ⟨q, rfl, hq⟩ := (hplaces p).mp hmem
      exact ⟨q, hq, by rw [List.append_assoc]⟩
    · split at hnode
      · next hex =>
        obtain ⟨f, hf, hpre⟩ := hex
        obtain ⟨q, rfl, hq⟩ := (hplaces f).mp hf
        refine ⟨q, hq, ?_⟩
        rw [List.append_assoc]
        exact (List.prefix_append_right_inj B).mpr hpre
      · exact absurd rfl hnode

end Sourced

/-- A chain of one run is that run. -/
theorem backupChain_single {C : Crypto} {H : Host} {readXml : Bytes → Except Bytes Ptree}
    {cfg : CoqConfiguration} {w₀ w : World} {ref : Option Bytes} {call : BackupCall}
    {docs : List Documents} (h : backupChain C H readXml cfg w₀ ref [call] = .ok (w, docs)) :
    ∃ d, docs = [d] ∧ lxrBackup C H readXml cfg w₀ ref call = .ok (w, d) := by
  unfold backupChain at h
  cases hbackup : lxrBackup C H readXml cfg w₀ ref call with
  | error e =>
    rw [hbackup] at h
    cases h
  | ok r =>
    obtain ⟨w', d⟩ := r
    rw [hbackup] at h
    obtain ⟨rfl, rfl⟩ := Prod.mk.inj (Except.ok.inj h)
    exact ⟨d, rfl, rfl⟩

/-- **A directory is copied by a backup and a restore.**  `LXRbackup` backs up a directory with all
that is below it; all of it can be read, no loop of links is met, and nothing fails.  `LXRrestore`
of the files that are not empty, into a directory with nothing in it, ends with status 0, and leaves
there a copy of these files, at the path of the directory, and nothing else. -/
theorem lxrBackup_lxrRestore_tree {C : Crypto} {readXml : Bytes → Except Bytes Ptree}
    (hC : C.Lawful) (hX : Reads readXml) (H H' : Host) (cfg : CoqConfiguration) (w₀ : World)
    (call : BackupCall) (V : View Bytes) (L : Listing V.tree) (E : ReadErrors) (fuel : ℕ)
    (source : PathText Bytes → SourceFile) (root : Bytes) (rs : List Bytes)
    (hsource : Sourced V L E fuel source root rs)
    (hfiles : FilesWork C cfg (filesBelow V L fuel source root))
    (htext : ∀ f ∈ filesBelow V L fuel source root, TextFile f)
    (hcontents : C.NoCollision {m | ∃ f ∈ filesBelow V L fuel source root, m = f.content})
    (V' : View Bytes) (content : List Bytes → Bytes) (base : PathText Bytes) (B : List Bytes)
    (hbase : V'.resolve base = .ok B) (hdir : V'.tree.node B = some .directory)
    (hempty : ∀ n, V'.tree.node (B ++ [n]) = none) :
    ∃ w docs, lxrBackupPaths C H readXml cfg w₀ none call V L E source fuel
        ⟨[], [pathOf root], []⟩ = .ok (.ok (w, docs)) ∧
      (Favourable C H cfg w₀ ∅ w.nassembly →
        ∃ keys fblocks, loadDocuments C readXml ∅ ∅ [docs] = .ok (keys, fblocks) ∧
          let r := lxrRestore C H' cfg keys fblocks w V' content base
            (namesBelow V L fuel source root)
          restoreStatus r = some 0 ∧ Copied V source root V' B (B ++ rs) r.1) := by
  have hcalls : (backupCalls V L fuel ⟨[], [pathOf root], []⟩).map source =
      filesBelow V L fuel source root := by
    simp [backupCalls, filesBelow]
  have hall : allFiles [{ call with files := filesBelow V L fuel source root }] =
      filesBelow V L fuel source root := by
    simp [allFiles]
  have hpaths : lxrBackupPaths C H readXml cfg w₀ none call V L E source fuel
      ⟨[], [pathOf root], []⟩ = .ok (lxrBackup C H readXml cfg w₀ none
        { call with files := filesBelow V L fuel source root }) := by
    rw [← hcalls]
    exact lxrBackupPaths_eq C H readXml cfg w₀ none call source (by simp)
      (by simpa using hsource.descends)
  have hfiles' : FilesWork C cfg (allFiles [{ call with files := filesBelow V L fuel source root }]) :=
    by rwa [hall]
  obtain ⟨w, docs, hchain, hrest⟩ := backupChain_archives hC hX H w₀ hfiles' (by rwa [hall])
    (by simpa using hsource.oneContent) (by rwa [hall])
  rw [hall] at hrest
  obtain ⟨d, rfl, hbackup⟩ := backupChain_single hchain
  refine ⟨w, d, by rw [hpaths, hbackup], fun hfav => ?_⟩
  obtain ⟨keys, fblocks, hload, harch⟩ := hrest hfav
  have hnames : ∀ n ∈ namesBelow V L fuel source root,
      ∃ f ∈ filesBelow V L fuel source root, f.name = n ∧ f.content ≠ [] := by
    intro n hn
    obtain ⟨q, rfl, hq⟩ := hsource.mem_namesBelow.mp hn
    exact ⟨_, hsource.mem_filesBelow.mpr ⟨q, rfl, hq.1⟩, rfl, hq.2⟩
  have hplaces : ∀ n ∈ namesBelow V L fuel source root, placeOf n ≠ [] := by
    intro n hn
    obtain ⟨q, rfl, hq⟩ := hsource.mem_namesBelow.mp hn
    rw [hsource.placeOf hq.1]
    simp [hsource.ne_nil hq.1]
  obtain ⟨done, hdone⟩ := Archives.restores hC.hex H' content hbase hdir
    (fun hnil => hplaces [] hnil rfl)
    (fun n hn => by
      obtain ⟨f, hf, rfl, -⟩ := hnames n hn
      exact harch f hf)
    fun n hn => by
      obtain ⟨f, hf, rfl, hne⟩ := hnames n hn
      obtain ⟨c, hc, -⟩ := exists_newestContent hf hne
      exact ⟨c, hc⟩
  have hzero := (hdone.status_iff_apart hbase hdir hempty).mpr ⟨hplaces, hsource.apart⟩
  exact ⟨keys, fblocks, hload, hzero, hsource.copied hdir (hdone.mirrors hbase hdir hempty hzero)⟩

/-! A directory `/s` with a file `/s/d/f` -/

section Simple

/-- The tree with the file `/s/d/f`. -/
def sourceView : View Bytes where
  tree := (((FileTree.bare Bytes).insert [] [115] .directory bareRoot (by decide)).insert [[115]]
    [100] .directory (by decide) (by decide)).insert [[115], [100]] [102] .regular (by decide)
    (by decide)
  cwd := []
  cwd_directory := by decide
  maxLinks := 40

/-- The entries of the directories of the sample tree. -/
def sourceListing : Listing sourceView.tree :=
  (((Listing.bare Bytes).insert [] [115] .directory bareRoot (by decide)).insert [[115]]
    [100] .directory (by decide) (by decide)).insert [[115], [100]] [102] .regular (by decide)
    (by decide)

/-- Every file below `/s` holds one byte. -/
def sourceFile (fp : PathText Bytes) : SourceFile :=
  plainFile (stringBelow (ascii "/s") ((fp.parts.drop 2).filterMap fun
    | .name n => some n
    | _ => none)) [1] (by decide)

/-- Names stay file names when a node with such a name is inserted. -/
theorem fileName_insert {T : FileTree Bytes} {d : List Bytes} {n : Bytes} {node : Node Bytes}
    (hd : T.node d = some .directory) (hnew : T.node (d ++ [n]) = none) (hn : FileName n)
    (h : ∀ d n, (T.node (d ++ [n])).isSome = true → FileName n) (d' : List Bytes) (n' : Bytes)
    (h' : ((T.insert d n node hd hnew).node (d' ++ [n'])).isSome = true) : FileName n' := by
  by_cases heq : d' ++ [n'] = d ++ [n]
  · obtain ⟨-, hlast⟩ := List.append_inj' heq rfl
    rwa [List.singleton_inj.mp hlast]
  · rw [FileTree.insert_node_of_ne hd hnew heq] at h'
    exact h d' n' h'

/-- The sample tree can be read. -/
theorem sourced_simple :
    Sourced sourceView sourceListing noReadErrors 3 sourceFile (ascii "/s") [[115]] := by
  have hdir : isDir sourceView (pathOf (ascii "/s")) = true := by decide
  have hwalk : recursiveWalk sourceView sourceListing noReadErrors
      (fun _ ds fp => .ok (ds ++ [fp])) 3 0 [] (pathOf (ascii "/s")) =
      .ok [⟨true, [.here, .name [115]]⟩, ⟨true, [.here, .name [115], .name [100]]⟩] := by decide
  obtain ⟨hread, hlen⟩ := walkable_of_recursiveWalk hdir hwalk
  refine ⟨⟨hdir, hread, hlen⟩, by decide, ?_, fun ns => ?_⟩
  · have hbare : ∀ (d : List Bytes) n, ((FileTree.bare Bytes).node (d ++ [n])).isSome = true →
        FileName n := by
      intro d n h
      simp [FileTree.bare] at h
    have hname : ∀ b : UInt8, b ≠ 46 → b ≠ 47 → FileName [b] := fun b h46 h47 =>
      ⟨by simp, by simpa using h47.symm, by simpa using h46, by simp⟩
    exact fileName_insert (by decide) (by decide) (hname 102 (by decide) (by decide))
      (fileName_insert (by decide) (by decide) (hname 100 (by decide) (by decide))
        (fileName_insert bareRoot (by decide) (hname 115 (by decide) (by decide)) hbare))
  · have hparts : ((pathOf (ascii "/s")).join ns).parts.drop 2 = ns.map .name := rfl
    have hfilter : ∀ l : List Bytes, (l.map Component.name).filterMap (fun
        | .name n => some n
        | _ => none) = l := by
      intro l
      induction l with
      | nil => rfl
      | cons n l ih => simp [ih]
    rw [sourceFile, hparts]
    exact congrArg (stringBelow (ascii "/s")) (hfilter ns)

/-- The sample tree has one file. -/
theorem filesBelow_simple : filesBelow sourceView sourceListing 3 sourceFile (ascii "/s") =
    [plainFile (ascii "/s/d/f") [1] (by decide)] := by
  have hcalls : fileCalls sourceView sourceListing 3 (pathOf (ascii "/s")) =
      [⟨true, [.here, .name [115], .name [100], .name [102]]⟩] := by decide
  rw [filesBelow, hcalls]
  rfl

/-- `/s` is copied to `/e/s`. -/
theorem lxrBackup_lxrRestore_tree_simple :
    let H := numberedHost fun _ _ => allWorks
    let call : BackupCall :=
      ⟨1, 1, Nat.le_refl 1, [], noOrigin, noOrigin, keptOrder, keptOrder, keptOrder⟩
    ∃ w docs keys fblocks,
      lxrBackupPaths simple H parse config16 emptyWorld none call sourceView sourceListing
        noReadErrors sourceFile 3 ⟨[], [pathOf (ascii "/s")], []⟩ = .ok (.ok (w, docs)) ∧
      loadDocuments simple parse ∅ ∅ [docs] = .ok (keys, fblocks) ∧
      let r := lxrRestore simple H config16 keys fblocks w emptyOutput (fun _ => [])
        ⟨true, [.name [101]]⟩ [ascii "/s/d/f"]
      restoreStatus r = some 0 ∧
        r.1.view.tree.node [[101], [115], [100], [102]] = some .regular ∧
        r.1.content [[101], [115], [100], [102]] = [1] := by
  intro H call
  have hplain : ∀ f ∈ filesBelow sourceView sourceListing 3 sourceFile (ascii "/s"),
      f = plainFile (ascii "/s/d/f") [1] (by decide) := by
    intro f hf
    rw [filesBelow_simple] at hf
    exact List.mem_singleton.mp hf
  have hfiles : FilesWork simple config16
      (filesBelow sourceView sourceListing 3 sourceFile (ascii "/s")) :=
    filesWork_plain fun f hf => ⟨_, _, hplain f hf⟩
  have htext : ∀ f ∈ filesBelow sourceView sourceListing 3 sourceFile (ascii "/s"), TextFile f := by
    intro f hf
    rw [hplain f hf]
    exact ⟨by decide, List.not_mem_nil⟩
  have hcontents : simple.NoCollision {m | ∃ f ∈ filesBelow sourceView sourceListing 3 sourceFile
      (ascii "/s"), m = f.content} := by
    rintro m ⟨f, hf, rfl⟩ m' ⟨g, hg, rfl⟩ -
    rw [hplain f hf, hplain g hg]
  obtain ⟨w, docs, hbackup, hrest⟩ := lxrBackup_lxrRestore_tree simple_lawful parse_reads H H
    config16 emptyWorld call sourceView sourceListing noReadErrors 3 sourceFile (ascii "/s") [[115]]
    sourced_simple hfiles htext hcontents emptyOutput (fun _ => []) ⟨true, [.name [101]]⟩ [[101]]
    (by decide) (by decide) emptyOutput_empty
  -- one assembly is enough
  have hpaths : lxrBackupPaths simple H parse config16 emptyWorld none call sourceView sourceListing
      noReadErrors sourceFile 3 ⟨[], [pathOf (ascii "/s")], []⟩ = .ok (lxrBackup simple H parse
        config16 emptyWorld none { call with files := [plainFile (ascii "/s/d/f") [1] (by decide)] }) := by
    rw [← filesBelow_simple]
    exact lxrBackupPaths_eq simple H parse config16 emptyWorld none call sourceFile (by simp)
      (by simpa using sourced_simple.descends)
  have hplain' : ∀ f ∈ allFiles
      [{ call with files := [plainFile (ascii "/s/d/f") [1] (by decide)] }],
      f = plainFile (ascii "/s/d/f") [1] (by decide) := fun f hf => by simpa [allFiles] using hf
  obtain ⟨w₁, docs₁, hchain, -, hnum, -⟩ := backupChain_chained simple_lawful.hex parse_reads H
    ((filesWork_plain fun f hf => ⟨_, _, hplain' f hf⟩).backupWorks simple_lawful.hex
      ⟨_, List.mem_cons_self, rfl⟩) (fun f hf => by
        rw [hplain' f hf]
        exact ⟨by decide, List.not_mem_nil⟩) emptyWorld none rfl allRecordable_empty
  obtain ⟨d, rfl, hbackup₁⟩ := backupChain_single hchain
  rw [hpaths, hbackup₁] at hbackup
  obtain ⟨rfl, rfl⟩ := Prod.mk.inj (Except.ok.inj (Except.ok.inj hbackup))
  have hle : w₁.nassembly ≤ 18446744073709551616 := by
    have h1 := length_readPieces_le (f := plainFile (ascii "/s/d/f") [1] (by decide)) (by decide)
    have hsum : w₁.nassembly ≤ 0 + 2 * ((readPieces (plainFile (ascii "/s/d/f") [1] (by decide))
      (plainFile (ascii "/s/d/f") [1] (by decide)).content.length 0).length + 0) := hnum
    omega
  obtain ⟨keys, fblocks, hload, hzero, hcopied⟩ := hrest (favourable_numbered hle)
  have hnames : namesBelow sourceView sourceListing 3 sourceFile (ascii "/s") =
      [ascii "/s/d/f"] := by
    rw [namesBelow, filesBelow_simple]
    rfl
  rw [hnames] at hzero hcopied
  have hsaved : IsSaved sourceView sourceFile (ascii "/s") [[100], [102]] := ⟨by decide, by decide⟩
  refine ⟨w₁, d, keys, fblocks, by rw [hpaths, hbackup₁], hload, hzero, ?_, ?_⟩
  · exact (hcopied.files [[100], [102]]).mpr hsaved
  · exact hcopied.contents [[100], [102]] hsaved

end Simple

end Elykseer.Analysis
