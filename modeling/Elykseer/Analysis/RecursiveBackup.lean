import Elykseer.Foundation.Unfolding
import Elykseer.Model.Directories

/-!
# The recursive backup of a directory

`recursive_backup` goes through the unfolding of the directories below its root: one
visit for every sequence of entry names that leads to a directory, symbolic links
followed.  Its calls of `file_backup` are in preorder (`recursiveBackup_eq`), and it
comes to an end exactly when the sequences are shorter than the fuel and all directories
and entries on the way can be read (`walkable_of_recursiveWalk`).

Main result: each directory is visited once, and each file backed up once, exactly when
moreover no two sequences lead to the same directory (`recursiveBackup_once_iff`).
-/

set_option autoImplicit false

namespace Elykseer.Analysis

open Elykseer.Foundation Elykseer.Foundation.Unfolding Elykseer.Model

/-! ## Folds with errors -/

section Fold

variable {σ α ε : Type}

/-- A fold without errors that passes over some elements. -/
theorem foldlM_filter {f : σ → α → Except ε σ} {g : σ → α → σ} {c : α → Bool} {l : List α}
    (h : ∀ a ∈ l, ∀ s, f s a = .ok (if c a then g s a else s)) (s : σ) :
    l.foldlM f s = .ok ((l.filter c).foldl g s) := by
  induction l generalizing s with
  | nil => rfl
  | cons a l ih =>
    rw [List.foldlM_cons, h a List.mem_cons_self]
    have hrec := ih (fun b hb => h b (List.mem_cons_of_mem a hb))
    cases hc : c a with
    | false => simpa [hc] using! hrec s
    | true => simpa [hc] using! hrec (g s a)

/-- In a fold that succeeds, every element has been passed in some state. -/
theorem foldlM_mem {f : σ → α → Except ε σ} {l : List α} {s s' : σ}
    (h : l.foldlM f s = .ok s') {a : α} (ha : a ∈ l) : ∃ s₁ s₂, f s₁ a = .ok s₂ := by
  induction l generalizing s with
  | nil => cases ha
  | cons b l ih =>
    rw [List.foldlM_cons] at h
    cases hb : f s b with
    | error e =>
      rw [hb] at h
      cases h
    | ok s₁ =>
      rw [hb] at h
      rcases List.mem_cons.mp ha with rfl | ha
      · exact ⟨s, s₁, hb⟩
      · exact ih h ha

end Fold

/-! ## The directories below a path -/

variable {V : View Bytes} {L : Listing V.tree} {E : ReadErrors}

/-- The names in the directory at `fp`. -/
def names (V : View Bytes) (L : Listing V.tree) (fp : PathText Bytes) : List Bytes :=
  match V.resolve fp with
  | .error _ => []
  | .ok d => L.entries d

/-- No loop of links is met on the way to `fp`. -/
def HasStatus (V : View Bytes) (fp : PathText Bytes) : Prop := ∃ loc, V.status fp = .ok loc

/-- The status of `fp` can be had. -/
def StatusKnown (V : View Bytes) (E : ReadErrors) (fp : PathText Bytes) : Prop :=
  E.status fp = none ∧ HasStatus V fp

/-- `is_directory(fp)`, taken as false if it throws. -/
def isDir (V : View Bytes) (fp : PathText Bytes) : Bool :=
  match V.isDirectory fp with
  | .ok b => b
  | .error _ => false

/-- `is_regular_file(fp)`, taken as false if it throws. -/
def isFile (V : View Bytes) (fp : PathText Bytes) : Bool :=
  match V.isRegularFile fp with
  | .ok b => b
  | .error _ => false

/-- The names of the directories in the directory at `fp`. -/
def subdirs (V : View Bytes) (L : Listing V.tree) (fp : PathText Bytes) : List Bytes :=
  (names V L fp).filter fun n => isDir V (fp.join [n])

/-- The names of the files in the directory at `fp`. -/
def fileNames (V : View Bytes) (L : Listing V.tree) (fp : PathText Bytes) : List Bytes :=
  (names V L fp).filter fun n => isFile V (fp.join [n])

/-- One step down. -/
def child (fp : PathText Bytes) (n : Bytes) : PathText Bytes := fp.join [n]

/-- The paths a recursive backup of `fp` calls `file_backup` with, in order. -/
def fileCalls (V : View Bytes) (L : Listing V.tree) (fuel : ℕ) (fp : PathText Bytes) :
    List (PathText Bytes) :=
  (walks (subdirs V L) child fuel fp).flatMap fun ns =>
    (fileNames V L (fp.join ns)).map fun n => fp.join (ns ++ [n])

/-- `is_directory` does not throw if the status can be had. -/
theorem isDirectory_ok {fp : PathText Bytes} (h : StatusKnown V E fp) :
    isDirectory V E fp = .ok (isDir V fp) := by
  obtain ⟨hno, loc, hloc⟩ := h
  simp [isDir, isDirectory, View.isDirectory, hno, hloc, Except.map]

/-- `is_regular_file` does not throw if the status can be had. -/
theorem isRegularFile_ok {fp : PathText Bytes} (h : StatusKnown V E fp) :
    isRegularFile V E fp = .ok (isFile V fp) := by
  obtain ⟨hno, loc, hloc⟩ := h
  simp [isFile, isRegularFile, View.isRegularFile, hno, hloc, Except.map]

/-- If `is_directory` does not throw, the status can be had. -/
theorem statusKnown_of_isDirectory {fp : PathText Bytes} {b : Bool}
    (h : isDirectory V E fp = .ok b) : StatusKnown V E fp := by
  unfold isDirectory at h
  split at h
  · cases h
  · next hno =>
    unfold View.isDirectory at h
    cases hs : V.status fp with
    | error e => simp [hs, Except.map] at h
    | ok loc => exact ⟨hno, loc, hs⟩

/-- A path leads to a directory if it resolves to one. -/
theorem isDir_iff_resolve {fp : PathText Bytes} : isDir V fp = true ↔
    ∃ d, V.resolve fp = .ok d ∧ V.tree.node d = some .directory := by
  rw [← View.isDirectory_iff]
  unfold isDir
  split <;> simp_all

/-- `directory_iterator` goes through the names in a directory that can be opened. -/
theorem directoryIterator_ok {fp : PathText Bytes} (h : isDir V fp = true) {level : ℕ}
    (hno : E.iterate level fp = none) :
    directoryIterator V L E level fp = .ok (names V L fp) := by
  obtain ⟨d, hd, -⟩ := isDir_iff_resolve.mp h
  simp [directoryIterator, names, hno, hd, Except.map]

/-- No name is listed twice. -/
theorem names_nodup (fp : PathText Bytes) : (names V L fp).Nodup := by
  unfold names
  split
  · exact List.nodup_nil
  · exact L.nodup _

/-- A directory has each subdirectory once. -/
theorem subdirs_nodup (fp : PathText Bytes) : (subdirs V L fp).Nodup := (names_nodup fp).filter _

/-- A path to a directory, and a name that leads on to something, an entry of the directory. -/
theorem mem_names {fp : PathText Bytes} {n : Bytes} {loc : List Bytes} (hdir : isDir V fp = true)
    (h : V.resolve (fp.join [n]) = .ok loc) : n ∈ names V L fp := by
  obtain ⟨d, hd, hnode⟩ := isDir_iff_resolve.mp hdir
  obtain ⟨-, k, hlocate⟩ := View.resolve_eq_ok.mp hd
  obtain ⟨-, k', hlocate'⟩ := View.resolve_eq_ok.mp h
  have hwalk : V.tree.walk k d [.name n] = .ok (loc, k') := by
    rw [← hlocate']
    exact (View.locate_concat hlocate hnode (.name n)).symm
  simp only [names, hd, L.mem_entries]
  cases hx : V.tree.node (d ++ [n]) with
  | none =>
    rw [FileTree.walk_missing hx] at hwalk
    cases hwalk
  | some x => rfl

/-- A path that goes on from a directory only passes through directories. -/
theorem isDir_above {fp : PathText Bytes} (hdir : isDir V fp = true) (ns ms : List Bytes)
    (h : isDir V (fp.join (ns ++ ms)) = true) : isDir V (fp.join ns) = true := by
  cases ms with
  | nil => simpa using h
  | cons m ms =>
    obtain ⟨d, hd, -⟩ := isDir_iff_resolve.mp h
    obtain ⟨-, k, hlocate⟩ := View.resolve_eq_ok.mp hd
    have hsplit : V.locate ⟨fp.absolute, (fp.join ns).parts ++ (m :: ms).map .name⟩ =
        .ok (d, k) := by
      rw [← PathText.join_join] at hlocate
      exact hlocate
    obtain ⟨d', k', hpre, hd', -⟩ := View.locate_split hsplit (by simp)
    obtain ⟨r, hr, -⟩ := isDir_iff_resolve.mp hdir
    obtain ⟨hne, -⟩ := View.resolve_eq_ok.mp hr
    refine isDir_iff_resolve.mpr ⟨d', View.resolve_eq_ok.mpr ⟨?_, k', hpre⟩, hd'⟩
    cases hparts : fp.parts <;> simp_all [PathText.join]

/-- The label sequences followed are the ones that lead to a directory. -/
theorem follows_iff (L : Listing V.tree) {fp : PathText Bytes} (hdir : isDir V fp = true)
    (ns : List Bytes) : Follows (subdirs V L) child fp ns ↔ isDir V (fp.join ns) = true := by
  induction ns generalizing fp with
  | nil => simp [Follows, hdir]
  | cons n ns ih =>
    have hjoin : fp.join (n :: ns) = (fp.join [n]).join ns := by simp
    rw [Follows, child]
    constructor
    · rintro ⟨hn, hfollows⟩
      rw [hjoin]
      exact (ih (List.mem_filter.mp hn).2).mp hfollows
    · intro h
      have hn : isDir V (fp.join [n]) = true := isDir_above hdir [n] ns h
      obtain ⟨d, hd, -⟩ := isDir_iff_resolve.mp hn
      rw [hjoin] at h
      exact ⟨List.mem_filter.mpr ⟨mem_names hdir hd, hn⟩, (ih hn).mpr h⟩

/-! ## What a recursive backup does -/

/-- Everything on the way down from `fp` can be read, with `level` directories open: the status of
`fp`, each directory, and the status of each entry. -/
structure Walkable (V : View Bytes) (L : Listing V.tree) (E : ReadErrors) (level : ℕ)
    (fp : PathText Bytes) : Prop where
  status : StatusKnown V E fp
  iterate : ∀ ns, isDir V (fp.join ns) = true →
    E.iterate (level + ns.length) (fp.join ns) = none
  entries : ∀ ns, isDir V (fp.join ns) = true →
    ∀ n ∈ names V L (fp.join ns), StatusKnown V E (fp.join (ns ++ [n]))

/-- The directory itself can be read. -/
theorem Walkable.iterate_self {fp : PathText Bytes} {level : ℕ} (h : Walkable V L E level fp)
    (hdir : isDir V fp = true) : E.iterate level fp = none := by
  simpa using h.iterate [] (by simpa using hdir)

/-- So can the status of its entries. -/
theorem Walkable.entries_self {fp : PathText Bytes} {level : ℕ} (h : Walkable V L E level fp)
    (hdir : isDir V fp = true) {n : Bytes} (hn : n ∈ names V L fp) :
    StatusKnown V E (fp.join [n]) := by
  simpa using h.entries [] (by simpa using hdir) n (by simpa using hn)

/-- And everything below an entry. -/
theorem Walkable.child {fp : PathText Bytes} {level : ℕ} (h : Walkable V L E level fp)
    (hdir : isDir V fp = true) {n : Bytes} (hn : n ∈ names V L fp) :
    Walkable V L E (level + 1) (fp.join [n]) := by
  refine ⟨h.entries_self hdir hn, fun ns hns => ?_, fun ns hns m hm => ?_⟩
  · have hlevel : level + (n :: ns).length = level + 1 + ns.length := by
      rw [List.length_cons]
      omega
    rw [← hlevel]
    simpa using h.iterate (n :: ns) (by simpa using hns)
  · simpa using h.entries (n :: ns) (by simpa using hns) m (by simpa using hm)

/-- A sequence of names that leads to a directory begins with the name of a subdirectory. -/
theorem subdir_of_isDir (L : Listing V.tree) {fp : PathText Bytes} (hdir : isDir V fp = true)
    {n : Bytes} {ns : List Bytes} (h : isDir V (fp.join (n :: ns)) = true) :
    n ∈ names V L fp ∧ isDir V (fp.join [n]) = true := by
  obtain ⟨hn, -⟩ := (follows_iff L hdir (n :: ns)).mpr h
  exact List.mem_filter.mp hn

/-- The other way round: the directory itself, its entries, and everything below the entries. -/
theorem Walkable.of_children {fp : PathText Bytes} {level : ℕ} (hdir : isDir V fp = true)
    (hstatus : StatusKnown V E fp) (hopen : E.iterate level fp = none)
    (hentries : ∀ n ∈ names V L fp, StatusKnown V E (fp.join [n]))
    (hbelow : ∀ n ∈ names V L fp, isDir V (fp.join [n]) = true →
      Walkable V L E (level + 1) (fp.join [n])) : Walkable V L E level fp := by
  refine ⟨hstatus, fun ns hns => ?_, fun ns hns m hm => ?_⟩
  · cases ns with
    | nil => simpa using hopen
    | cons n ns =>
      obtain ⟨hn, hsub⟩ := subdir_of_isDir L hdir hns
      have hlevel : level + (n :: ns).length = level + 1 + ns.length := by
        rw [List.length_cons]
        omega
      rw [hlevel]
      simpa using (hbelow n hn hsub).iterate ns (by simpa using hns)
  · cases ns with
    | nil =>
      rw [PathText.join_nil] at hm
      exact hentries m hm
    | cons n ns =>
      obtain ⟨hn, hsub⟩ := subdir_of_isDir L hdir hns
      simpa using (hbelow n hn hsub).entries ns (by simpa using hns) m (by simpa using hm)

/-- The status of each directory on the way can be had. -/
theorem Walkable.statusKnown {fp : PathText Bytes} {level : ℕ} (h : Walkable V L E level fp)
    (hdir : isDir V fp = true) {ns : List Bytes} (hns : isDir V (fp.join ns) = true) :
    StatusKnown V E (fp.join ns) := by
  cases ns using List.reverseRecOn with
  | nil => simpa using h.status
  | append_singleton ns n =>
    have habove := isDir_above hdir ns [n] hns
    obtain ⟨d, hd, -⟩ := isDir_iff_resolve.mp hns
    rw [← PathText.join_join] at hd
    exact h.entries ns habove n (mem_names habove hd)

section Runs

variable {σ : Type} {fp : PathText Bytes} {fuel : ℕ}

/-- The calls of `directory_backup`. -/
theorem directoryBackup_eq (fileBackup : σ → PathText Bytes → σ) (hdir : isDir V fp = true)
    (hstatus : StatusKnown V E fp) {level : ℕ} (hopen : E.iterate level fp = none)
    (hread : ∀ n ∈ names V L fp, StatusKnown V E (fp.join [n])) (this : σ) :
    directoryBackup V L E fileBackup level this fp =
      .ok ((fileNames V L fp).foldl (fun this n => fileBackup this (fp.join [n])) this) := by
  unfold directoryBackup
  rw [isDirectory_ok hstatus, hdir, directoryIterator_ok hdir hopen]
  refine foldlM_filter (fun n hn s => ?_) this
  rw [backupEntry, isRegularFile_ok (hread n hn)]

/-- The visits of the recursion, in preorder. -/
theorem recursiveWalk_eq {directory : ℕ → σ → PathText Bytes → Except Errno σ}
    (visit : σ → PathText Bytes → σ) (hdir : isDir V fp = true) {level : ℕ}
    (hread : Walkable V L E level fp)
    (hlen : ∀ ns, isDir V (fp.join ns) = true → ns.length < fuel)
    (hvisit : ∀ ns, isDir V (fp.join ns) = true →
      ∀ s, directory (level + ns.length) s (fp.join ns) = .ok (visit s (fp.join ns))) (this : σ) :
    recursiveWalk V L E directory fuel level this fp =
      .ok ((walks (subdirs V L) child fuel fp).foldl (fun s ns => visit s (fp.join ns)) this) := by
  induction fuel generalizing fp this level with
  | zero => exact absurd (hlen [] (by simpa using hdir)) (by simp)
  | succ fuel ih =>
    have hhere := hvisit [] (by simpa using hdir) this
    rw [PathText.join_nil, List.length_nil, Nat.add_zero] at hhere
    rw [foldl_walks_succ, recursiveWalk, isDirectory_ok hread.status, hdir]
    simp only [hhere, directoryIterator_ok hdir (hread.iterate_self hdir), PathText.join_nil]
    refine foldlM_filter (fun n hn s => ?_) (visit this fp)
    rw [backupSubdir, isDirectory_ok (hread.entries_self hdir hn)]
    cases hsub : isDir V (fp.join [n]) with
    | false => rfl
    | true =>
      have hjoin : ∀ ns, (fp.join [n]).join ns = fp.join (n :: ns) := fun ns => by simp
      have hrec := ih hsub (hread.child hdir hn)
        (fun ns hns => by
          have := hlen (n :: ns) (by rwa [← hjoin])
          simpa using this)
        (fun ns hns s => by
          rw [hjoin] at hns ⊢
          have hlevel : level + 1 + ns.length = level + (n :: ns).length := by
            rw [List.length_cons]
            omega
          rw [hlevel]
          exact hvisit (n :: ns) hns s) s
      simp only [hjoin] at hrec
      simpa [child] using hrec

/-- A round of a recursive backup that comes to an end: the directory and the status of each entry
could be read, and the recursion into each subdirectory came to an end. -/
theorem recursiveWalk_succ_ok {directory : ℕ → σ → PathText Bytes → Except Errno σ}
    (hdir : isDir V fp = true) {level : ℕ} {this this' : σ}
    (h : recursiveWalk V L E directory (fuel + 1) level this fp = .ok this') :
    StatusKnown V E fp ∧ E.iterate level fp = none ∧
      ∀ n ∈ names V L fp, StatusKnown V E (fp.join [n]) ∧
        (isDir V (fp.join [n]) = true → ∃ s₁ s₂,
          recursiveWalk V L E directory fuel (level + 1) s₁ (fp.join [n]) = .ok s₂) := by
  have hstatus : StatusKnown V E fp := by
    rw [recursiveWalk] at h
    cases hd : isDirectory V E fp with
    | error e =>
      rw [hd] at h
      cases h
    | ok b => exact statusKnown_of_isDirectory hd
  rw [recursiveWalk, isDirectory_ok hstatus, hdir] at h
  cases hvisit : directory level this fp with
  | error e =>
    simp only [hvisit] at h
    cases h
  | ok s =>
    simp only [hvisit] at h
    have hopen : E.iterate level fp = none := by
      cases ho : E.iterate level fp with
      | none => rfl
      | some e =>
        simp only [directoryIterator, ho] at h
        cases h
    rw [directoryIterator_ok hdir hopen] at h
    refine ⟨hstatus, hopen, fun n hn => ?_⟩
    obtain ⟨s₁, s₂, hround⟩ := foldlM_mem h hn
    unfold backupSubdir at hround
    split at hround
    · cases hround
    · next b hb =>
      have hknown := statusKnown_of_isDirectory hb
      refine ⟨hknown, fun hsub => ⟨s₁, s₂, ?_⟩⟩
      rw [isDirectory_ok hknown, hsub] at hb
      obtain rfl := Except.ok.inj hb
      exact hround

/-- A recursive backup that comes to an end has read everything on the way down. -/
theorem walkable_of_recursiveWalk {directory : ℕ → σ → PathText Bytes → Except Errno σ}
    (hdir : isDir V fp = true) {level : ℕ} {this this' : σ}
    (h : recursiveWalk V L E directory fuel level this fp = .ok this') :
    Walkable V L E level fp ∧ ∀ ns, isDir V (fp.join ns) = true → ns.length < fuel := by
  induction fuel generalizing fp this this' level with
  | zero => cases h
  | succ fuel ih =>
    obtain ⟨hstatus, hopen, hentry⟩ := recursiveWalk_succ_ok hdir h
    have hbelow : ∀ n ∈ names V L fp, isDir V (fp.join [n]) = true →
        Walkable V L E (level + 1) (fp.join [n]) ∧
          ∀ ns, isDir V ((fp.join [n]).join ns) = true → ns.length < fuel := by
      intro n hn hsub
      obtain ⟨s₁, s₂, hround⟩ := (hentry n hn).2 hsub
      exact ih hsub hround
    refine ⟨.of_children hdir hstatus hopen (fun n hn => (hentry n hn).1)
      fun n hn hsub => (hbelow n hn hsub).1, fun ns hns => ?_⟩
    cases ns with
    | nil => exact Nat.succ_pos fuel
    | cons n ns =>
      obtain ⟨hn, hsub⟩ := subdir_of_isDir L hdir hns
      rw [List.length_cons]
      exact Nat.succ_lt_succ ((hbelow n hn hsub).2 ns (by simpa using hns))

/-- The calls of `recursive_backup`, whatever `file_backup` does to the processor. -/
theorem recursiveBackup_eq (fileBackup : σ → PathText Bytes → σ) (hdir : isDir V fp = true)
    (hread : Walkable V L E 0 fp) (hlen : ∀ ns, isDir V (fp.join ns) = true → ns.length < fuel)
    (this : σ) :
    recursiveBackup V L E fileBackup fuel this fp =
      .ok ((fileCalls V L fuel fp).foldl fileBackup this) := by
  have hvisit : ∀ ns, isDir V (fp.join ns) = true → ∀ s : σ,
      directoryBackup V L E fileBackup (0 + ns.length) s (fp.join ns) =
        .ok ((fileNames V L (fp.join ns)).foldl
          (fun s n => fileBackup s ((fp.join ns).join [n])) s) := by
    intro ns hns s
    refine directoryBackup_eq fileBackup hns (hread.statusKnown hdir hns) (hread.iterate ns hns)
      (fun n hn => ?_) s
    rw [PathText.join_join]
    exact hread.entries ns hns n hn
  rw [recursiveBackup, recursiveWalk_eq
    (fun s q => (fileNames V L q).foldl (fun s n => fileBackup s (q.join [n])) s)
    hdir hread hlen hvisit]
  simp only [fileCalls, List.foldl_flatMap, List.foldl_map, PathText.join_join]

end Runs

/-! ## Directories and files below a root -/

/-- What the entry `n` of the directory `d` is, or links to. -/
def leadsTo (V : View Bytes) (d : List Bytes) (n : Bytes) : Except Errno (List Bytes) :=
  (V.tree.walk V.maxLinks d [.name n]).map Prod.fst

/-- A directory at or below the root of a backup; a link to a directory counts as the
directory. -/
inductive AtOrBelow (V : View Bytes) (root : PathText Bytes) : List Bytes → Prop
  | root {d : List Bytes} : V.resolve root = .ok d → V.tree.node d = some .directory →
      AtOrBelow V root d
  | entry {d d' : List Bytes} {n : Bytes} : AtOrBelow V root d → leadsTo V d n = .ok d' →
      V.tree.node d' = some .directory → AtOrBelow V root d'

/-- The entry `n` of the directory `d` is, or links to, a regular file. -/
def IsFileEntry (V : View Bytes) (d : List Bytes) (n : Bytes) : Prop :=
  ∃ loc, leadsTo V d n = .ok loc ∧ V.tree.node loc = some .regular

/-- The entry a path ends in: a directory, and a name in it. -/
def entryOf (V : View Bytes) (fp : PathText Bytes) : Option (List Bytes × Bytes) :=
  match fp.parts.getLast?, V.resolve (parentPath fp) with
  | some (.name n), .ok d => some (d, n)
  | _, _ => none

/-- A name below a directory is an entry of it. -/
theorem entryOf_join {fp : PathText Bytes} {d : List Bytes} (h : V.resolve fp = .ok d)
    (n : Bytes) : entryOf V (fp.join [n]) = some (d, n) := by
  have hparent : parentPath (fp.join [n]) = fp := by simp [parentPath, PathText.join]
  unfold entryOf
  rw [hparent, h]
  simp [PathText.join]

/-- A status that can be had at the end of a path is what the entry leads to, though fewer links
may be followed from there. -/
theorem resolve_join {fp : PathText Bytes} {d : List Bytes} {n : Bytes}
    (hd : V.resolve fp = .ok d) (hnode : V.tree.node d = some .directory)
    (hstatus : HasStatus V (fp.join [n])) : V.resolve (fp.join [n]) = leadsTo V d n := by
  obtain ⟨-, k, hlocate⟩ := View.resolve_eq_ok.mp hd
  have hwalk : V.locate (fp.join [n]) = V.tree.walk k d [.name n] :=
    View.locate_concat hlocate hnode (.name n)
  have hresolve : V.resolve (fp.join [n]) = (V.tree.walk k d [.name n]).map Prod.fst := by
    unfold View.resolve
    rw [hwalk]
    simp [PathText.join]
  have hloop : V.tree.walk k d [.name n] ≠ .error .loop := by
    intro h
    obtain ⟨loc, hloc⟩ := hstatus
    simp [View.status, hresolve, h, Except.map] at hloc
  obtain ⟨more, hmore⟩ := Nat.exists_eq_add_of_le (FileTree.walk_links_le hlocate)
  rw [hresolve, leadsTo, hmore, FileTree.walk_links more hloop]
  cases V.tree.walk k d [.name n] <;> rfl

/-- An entry that leads somewhere is there. -/
theorem node_of_leadsTo {d loc : List Bytes} {n : Bytes} (h : leadsTo V d n = .ok loc) :
    (V.tree.node (d ++ [n])).isSome = true := by
  cases hx : V.tree.node (d ++ [n]) with
  | none => simp [leadsTo, FileTree.walk_missing hx, Except.map] at h
  | some x => rfl

/-- An entry that leads somewhere is listed. -/
theorem mem_names_of_leadsTo {fp : PathText Bytes} {d loc : List Bytes} {n : Bytes}
    (hd : V.resolve fp = .ok d) (h : leadsTo V d n = .ok loc) : n ∈ names V L fp := by
  simp only [names, hd, L.mem_entries]
  exact node_of_leadsTo h

/-- A sequence of names that leads to a directory leads to one at or below the root. -/
theorem atOrBelow_of_isDir {root : PathText Bytes} (hroot : isDir V root = true)
    (ns : List Bytes) {d : List Bytes} (hd : V.resolve (root.join ns) = .ok d)
    (hnode : V.tree.node d = some .directory) : AtOrBelow V root d := by
  induction ns using List.reverseRecOn generalizing d with
  | nil => exact .root (by simpa using hd) hnode
  | append_singleton ns n ih =>
    have hpre := isDir_above hroot ns [n] (isDir_iff_resolve.mpr ⟨d, hd, hnode⟩)
    obtain ⟨d', hd', hnode'⟩ := isDir_iff_resolve.mp hpre
    have hjoin : root.join (ns ++ [n]) = (root.join ns).join [n] := by simp
    rw [hjoin] at hd
    rw [resolve_join hd' hnode' ⟨_, View.status_eq_some hd⟩] at hd
    exact .entry (ih hd' hnode') hd hnode

/-- A root with something at or below it is a directory. -/
theorem isDir_of_atOrBelow {root : PathText Bytes} {d : List Bytes} (h : AtOrBelow V root d) :
    isDir V root = true := by
  induction h with
  | root hd hnode => exact isDir_iff_resolve.mpr ⟨_, hd, hnode⟩
  | entry _ _ _ ih => exact ih

/-- If everything on the way can be read, a sequence of names leads to every directory at or below
the root. -/
theorem exists_names_of_atOrBelow {root : PathText Bytes} {level : ℕ}
    (hread : Walkable V L E level root) {d : List Bytes} (h : AtOrBelow V root d) :
    ∃ ns, V.resolve (root.join ns) = .ok d ∧ isDir V (root.join ns) = true := by
  induction h with
  | root hd hnode =>
    exact ⟨[], by simpa using hd, isDir_iff_resolve.mpr ⟨_, by simpa using hd, hnode⟩⟩
  | @entry d d' n _ hleads hnode ih =>
    obtain ⟨ns, hd, hdir⟩ := ih
    obtain ⟨d₀, hd₀, hnode₀⟩ := isDir_iff_resolve.mp hdir
    obtain rfl : d₀ = d := Except.ok.inj (hd₀.symm.trans hd)
    have hstatus := (hread.entries ns hdir n (mem_names_of_leadsTo hd hleads)).2
    rw [← PathText.join_join] at hstatus
    have hresolve := (resolve_join hd hnode₀ hstatus).trans hleads
    rw [PathText.join_join] at hresolve
    exact ⟨ns ++ [n], hresolve, isDir_iff_resolve.mpr ⟨d', hresolve, hnode⟩⟩

/-! ## Once -/

/-- A recursive backup ends normally, visits every directory at or below its root once, and calls
`file_backup` once for every entry that is, or links to, a regular file, and for nothing else. -/
def BacksUpOnce (V : View Bytes) (L : Listing V.tree) (E : ReadErrors) (root : PathText Bytes) :
    Prop :=
  ∃ fuel dirs calls,
    recursiveWalk V L E (fun _ ds fp => .ok (ds ++ [fp])) fuel 0 [] root = .ok dirs ∧
      recursiveBackup V L E (fun cs fp => cs ++ [fp]) fuel [] root = .ok calls ∧
      (∀ d, AtOrBelow V root d → (dirs.map V.resolve).count (.ok d) = 1) ∧
      (∀ d n, AtOrBelow V root d → IsFileEntry V d n →
        (calls.map (entryOf V)).count (some (d, n)) = 1) ∧
      ∀ fp ∈ calls, ∃ d n, entryOf V fp = some (d, n) ∧ AtOrBelow V root d ∧ IsFileEntry V d n

/-- Seen from `root`, the directories are a tree that can be read: every directory can be listed and
every status be had on the way down, and no two sequences of names lead to the same directory. -/
structure TreeLike (V : View Bytes) (L : Listing V.tree) (E : ReadErrors) (root : PathText Bytes) :
    Prop where
  status : StatusKnown V E root
  walkable : isDir V root = true → Walkable V L E 0 root
  once : isDir V root = true → ∀ ns ms, isDir V (root.join ns) = true →
    isDir V (root.join ms) = true → V.resolve (root.join ns) = V.resolve (root.join ms) → ns = ms

/-- Adding elements at the end one by one is appending them. -/
theorem foldl_snoc {α β : Type} (f : α → β) (l : List α) (s : List β) :
    l.foldl (fun s a => s ++ [f a]) s = s ++ l.map f := by
  induction l generalizing s with
  | nil => simp
  | cons a l ih => simp [ih]

/-- An element counted once among the images has one preimage. -/
theorem eq_of_count_map_eq_one {α β : Type} [DecidableEq β] {f : α → β} {l : List α} {b : β}
    (h : (l.map f).count b = 1) {x y : α} (hx : x ∈ l) (hy : y ∈ l) (hfx : f x = b)
    (hfy : f y = b) : x = y := by
  rw [List.count, List.countP_map, List.countP_eq_length_filter, List.length_eq_one_iff] at h
  obtain ⟨z, hz⟩ := h
  have hmem : ∀ w ∈ l, f w = b → w = z := by
    intro w hw hfw
    have : w ∈ l.filter ((fun c => c == b) ∘ f) := List.mem_filter.mpr ⟨hw, by simp [hfw]⟩
    rw [hz] at this
    exact List.mem_singleton.mp this
  rw [hmem x hx hfx, hmem y hy hfy]

/-- The directories visited by a recursive backup that comes to an end. -/
theorem visits_eq {fuel : ℕ} {root : PathText Bytes} (hdir : isDir V root = true)
    {level : ℕ} (hread : Walkable V L E level root)
    (hlen : ∀ ns, isDir V (root.join ns) = true → ns.length < fuel) :
    recursiveWalk V L E (fun _ ds fp => .ok (ds ++ [fp])) fuel level [] root =
      .ok ((walks (subdirs V L) child fuel root).map root.join) := by
  rw [recursiveWalk_eq (fun ds fp => ds ++ [fp]) hdir hread hlen fun ns _ s => rfl, foldl_snoc]
  rfl

/-- Visiting each directory once takes a tree. -/
theorem treeLike_of_backsUpOnce {root : PathText Bytes} (h : BacksUpOnce V L E root) :
    TreeLike V L E root := by
  obtain ⟨fuel, dirs, calls, hdirs, -, honce, -⟩ := h
  have hstatus : StatusKnown V E root := by
    cases fuel with
    | zero => cases hdirs
    | succ fuel =>
      rw [recursiveWalk] at hdirs
      split at hdirs
      · cases hdirs
      · next hdir => exact statusKnown_of_isDirectory hdir
      · next hdir => exact statusKnown_of_isDirectory hdir
  refine ⟨hstatus, fun hdir => (walkable_of_recursiveWalk hdir hdirs).1, ?_⟩
  intro hdir ns ms hns hms heq
  obtain ⟨hread, hlen⟩ := walkable_of_recursiveWalk hdir hdirs
  rw [visits_eq hdir hread hlen] at hdirs
  obtain rfl := Except.ok.inj hdirs
  obtain ⟨d, hd, hnode⟩ := isDir_iff_resolve.mp hns
  have hcount := honce d (atOrBelow_of_isDir hdir ns hd hnode)
  rw [List.map_map] at hcount
  have hmem : ∀ ks, isDir V (root.join ks) = true → ks ∈ walks (subdirs V L) child fuel root :=
    fun ks hks => mem_walks.mpr ⟨hlen ks hks, (follows_iff L hdir ks).mpr hks⟩
  exact eq_of_count_map_eq_one hcount (hmem ns hns) (hmem ms hms) hd
    (heq.symm.trans hd)

/-- As many rounds as there are directories are enough for a tree. -/
theorem TreeLike.length_lt {root : PathText Bytes} (h : TreeLike V L E root)
    (hdir : isDir V root = true) {ns : List Bytes} (hns : isDir V (root.join ns) = true) :
    ns.length < (Except.ok '' {d | V.tree.node d = some .directory} :
      Set (Except Errno (List Bytes))).ncard := by
  refine length_lt_ncard (L.finite.image _) (fun ns => V.resolve (root.join ns)) ?_ ?_
    ((follows_iff L hdir ns).mpr hns)
  · intro ms hms
    obtain ⟨d, hd, hnode⟩ := isDir_iff_resolve.mp ((follows_iff L hdir ms).mp hms)
    exact ⟨d, hnode, hd.symm⟩
  · intro ms ks hms hks heq
    exact h.once hdir ms ks ((follows_iff L hdir ms).mp hms) ((follows_iff L hdir ks).mp hks) heq

/-- The files of a directory are its entries that lead to a regular file. -/
theorem mem_fileNames {fp : PathText Bytes} {d : List Bytes} {n : Bytes}
    (hd : V.resolve fp = .ok d) (hnode : V.tree.node d = some .directory)
    (hread : ∀ n ∈ names V L fp, StatusKnown V E (fp.join [n])) :
    n ∈ fileNames V L fp ↔ IsFileEntry V d n := by
  have hfile : ∀ loc, leadsTo V d n = .ok loc → HasStatus V (fp.join [n]) →
      (isFile V (fp.join [n]) = true ↔ V.tree.node loc = some .regular) := by
    intro loc hloc hstatus
    rw [← resolve_join hd hnode hstatus] at hloc
    simp only [isFile, View.isRegularFile, View.status_eq_some hloc, Except.map, View.statusIs]
    cases V.tree.node loc with
    | none => simp
    | some node => cases node <;> simp
  constructor
  · intro h
    obtain ⟨hn, hisFile⟩ := List.mem_filter.mp h
    have hstatus := (hread n hn).2
    cases hr : V.resolve (fp.join [n]) with
    | error e =>
      simp only [isFile, View.isRegularFile, View.status, hr] at hisFile
      cases e <;> cases hisFile
    | ok loc =>
      rw [resolve_join hd hnode hstatus] at hr
      exact ⟨loc, hr, (hfile loc hr hstatus).mp hisFile⟩
  · rintro ⟨loc, hloc, hregular⟩
    have hn : n ∈ names V L fp := mem_names_of_leadsTo hd hloc
    exact List.mem_filter.mpr ⟨hn, (hfile loc hloc (hread n hn).2).mpr hregular⟩

/-- In a tree the walks lead to different directories. -/
theorem TreeLike.dirs_nodup {root : PathText Bytes} (h : TreeLike V L E root)
    (hdir : isDir V root = true) (fuel : ℕ) :
    ((walks (subdirs V L) child fuel root).map fun ns => V.resolve (root.join ns)).Nodup := by
  apply (walks_nodup subdirs_nodup).map_on
  intro ns hns ms hms heq
  exact h.once hdir ns ms ((follows_iff L hdir ns).mp (mem_walks.mp hns).2)
    ((follows_iff L hdir ms).mp (mem_walks.mp hms).2) heq

/-- The entries backed up in one directory. -/
theorem entryOf_fileNames {root : PathText Bytes} {ns : List Bytes} {d : List Bytes}
    (hd : V.resolve (root.join ns) = .ok d) (l : List Bytes) :
    (l.map fun n => entryOf V (root.join (ns ++ [n]))) = l.map fun n => some (d, n) := by
  apply List.map_congr_left
  intro n _
  rw [← PathText.join_join]
  exact entryOf_join hd n

/-- In a tree every entry is backed up at most once. -/
theorem TreeLike.calls_nodup {root : PathText Bytes} (h : TreeLike V L E root)
    (hdir : isDir V root = true) (fuel : ℕ) :
    ((fileCalls V L fuel root).map (entryOf V)).Nodup := by
  have hwalk : ∀ ns ∈ walks (subdirs V L) child fuel root,
      ∃ d, V.resolve (root.join ns) = .ok d := by
    intro ns hns
    obtain ⟨d, hd, -⟩ := isDir_iff_resolve.mp ((follows_iff L hdir ns).mp (mem_walks.mp hns).2)
    exact ⟨d, hd⟩
  simp only [fileCalls, List.map_flatMap, List.map_map]
  refine List.nodup_flatMap.mpr ⟨fun ns hns => ?_, ?_⟩
  · obtain ⟨d, hd⟩ := hwalk ns hns
    rw [show (fileNames V L (root.join ns)).map (entryOf V ∘ fun n => root.join (ns ++ [n])) =
      _ from entryOf_fileNames hd _]
    exact ((names_nodup (root.join ns)).filter _).map fun n m heq => by simpa using heq
  · apply (walks_nodup subdirs_nodup).pairwise_of_forall_ne
    intro ns hns ms hms hne
    obtain ⟨d, hd⟩ := hwalk ns hns
    obtain ⟨e, he⟩ := hwalk ms hms
    rw [Function.onFun, List.disjoint_left]
    intro x hx hx'
    rw [show (fileNames V L (root.join ns)).map (entryOf V ∘ fun n => root.join (ns ++ [n])) =
      _ from entryOf_fileNames hd _] at hx
    rw [show (fileNames V L (root.join ms)).map (entryOf V ∘ fun n => root.join (ms ++ [n])) =
      _ from entryOf_fileNames he _] at hx'
    obtain ⟨n, -, rfl⟩ := List.mem_map.mp hx
    obtain ⟨m, -, heq⟩ := List.mem_map.mp hx'
    obtain ⟨rfl, -⟩ : e = d ∧ m = n := by simpa using heq
    exact hne (h.once hdir ns ms ((follows_iff L hdir ns).mp (mem_walks.mp hns).2)
      ((follows_iff L hdir ms).mp (mem_walks.mp hms).2) (hd.trans he.symm))

/-- A path that is no directory is not visited. -/
theorem backsUpOnce_of_not_isDir {root : PathText Bytes} (hstatus : StatusKnown V E root)
    (hdir : isDir V root = false) : BacksUpOnce V L E root := by
  have hfalse : isDirectory V E root = .ok false := hdir ▸ isDirectory_ok hstatus
  have hnone : ∀ d, ¬ AtOrBelow V root d := by
    intro d hd
    rw [isDir_of_atOrBelow hd] at hdir
    cases hdir
  refine ⟨1, [], [], by simp [recursiveWalk, hfalse],
    by simp [recursiveBackup, recursiveWalk, hfalse], fun d hd => absurd hd (hnone d),
    fun d n hd => absurd hd (hnone d), by simp⟩

/-- A tree is backed up once. -/
theorem TreeLike.backsUpOnce {root : PathText Bytes} (h : TreeLike V L E root) :
    BacksUpOnce V L E root := by
  cases hdir : isDir V root with
  | false => exact backsUpOnce_of_not_isDir h.status hdir
  | true =>
    have hread := h.walkable hdir
    obtain ⟨fuel, hfuel⟩ : ∃ fuel, ∀ ns, isDir V (root.join ns) = true → ns.length < fuel :=
      ⟨_, fun ns hns => h.length_lt hdir hns⟩
    have hmem : ∀ ns, isDir V (root.join ns) = true →
        ns ∈ walks (subdirs V L) child fuel root :=
      fun ns hns => mem_walks.mpr ⟨hfuel ns hns, (follows_iff L hdir ns).mpr hns⟩
    have hnames : ∀ ns, isDir V (root.join ns) = true →
        ∀ n ∈ names V L (root.join ns), StatusKnown V E ((root.join ns).join [n]) := by
      intro ns hns n hn
      rw [PathText.join_join]
      exact hread.entries ns hns n hn
    refine ⟨fuel, _, fileCalls V L fuel root, visits_eq hdir hread hfuel, ?_, ?_, ?_, ?_⟩
    · rw [recursiveBackup_eq _ hdir hread hfuel]
      simpa using foldl_snoc id (fileCalls V L fuel root) []
    · intro d hd
      obtain ⟨ns, hns, hnsDir⟩ := exists_names_of_atOrBelow hread hd
      rw [List.map_map]
      exact List.count_eq_one_of_mem (h.dirs_nodup hdir fuel)
        (List.mem_map.mpr ⟨ns, hmem ns hnsDir, hns⟩)
    · intro d n hd hn
      obtain ⟨ns, hns, hnsDir⟩ := exists_names_of_atOrBelow hread hd
      obtain ⟨d₀, hd₀, hnode⟩ := isDir_iff_resolve.mp hnsDir
      obtain rfl : d₀ = d := Except.ok.inj (hd₀.symm.trans hns)
      refine List.count_eq_one_of_mem (h.calls_nodup hdir fuel) (List.mem_map.mpr
        ⟨root.join (ns ++ [n]), List.mem_flatMap.mpr ⟨ns, hmem ns hnsDir, List.mem_map.mpr
          ⟨n, (mem_fileNames hns hnode (hnames ns hnsDir)).mpr hn, rfl⟩⟩, ?_⟩)
      rw [← PathText.join_join]
      exact entryOf_join hns n
    · intro fp hfp
      obtain ⟨ns, hns, hfp⟩ := List.mem_flatMap.mp hfp
      obtain ⟨n, hn, rfl⟩ := List.mem_map.mp hfp
      have hnsDir := (follows_iff L hdir ns).mp (mem_walks.mp hns).2
      obtain ⟨d, hd, hnode⟩ := isDir_iff_resolve.mp hnsDir
      refine ⟨d, n, ?_, atOrBelow_of_isDir hdir ns hd hnode,
        (mem_fileNames hd hnode (hnames ns hnsDir)).mp hn⟩
      rw [← PathText.join_join]
      exact entryOf_join hd n

/-- A recursive backup ends normally and backs up each file once exactly when the directories, seen
from its root through symbolic links, are a tree in which everything can be read. -/
theorem recursiveBackup_once_iff (V : View Bytes) (L : Listing V.tree) (E : ReadErrors)
    (root : PathText Bytes) :
    BacksUpOnce V L E root ↔ TreeLike V L E root :=
  ⟨treeLike_of_backsUpOnce, TreeLike.backsUpOnce⟩

/-- The root of the bare tree is a directory. -/
theorem bareRoot : (FileTree.bare Bytes).node [] = some .directory := rfl

/-- A directory `/r` with a file and a link to itself. -/
def loopView : View Bytes where
  tree := (((FileTree.bare Bytes).insert [] [114] .directory bareRoot (by decide)).insert [[114]] [102]
    .regular (by decide) (by decide)).insert [[114]] [108] (.link ⟨false, [.here]⟩) (by decide)
    (by decide)
  cwd := []
  cwd_directory := by decide
  maxLinks := 40

/-- The entries of `/r`. -/
def loopListing : Listing loopView.tree :=
  (((Listing.bare Bytes).insert [] [114] .directory bareRoot (by decide)).insert [[114]] [102] .regular
    (by decide) (by decide)).insert [[114]] [108] (.link ⟨false, [.here]⟩) (by decide) (by decide)

/-- The link leads back to the directory. -/
theorem recursiveBackup_counterexample :
    ¬ BacksUpOnce loopView loopListing noReadErrors ⟨true, [.name [114]]⟩ := by
  intro h
  have honce := (treeLike_of_backsUpOnce h).once (by decide) [] [[108]] (by decide) (by decide)
    (by decide)
  cases honce

/-! ## Trees without links to directories -/

/-- No link leads to a directory, and each can be followed to its end. -/
def PlainTree (V : View Bytes) : Prop :=
  ∀ fp d n t, V.resolve fp = .ok d → V.tree.node (d ++ [n]) = some (.link t) →
    V.isDirectory (fp.join [n]) = .ok false

/-- In a plain tree a directory is where its path says. -/
theorem PlainTree.node_of_isDir (h : PlainTree V) {fp : PathText Bytes} {d : List Bytes} {n : Bytes}
    (hd : V.resolve fp = .ok d) (hnode : V.tree.node d = some .directory)
    (hdir : isDir V (fp.join [n]) = true) :
    V.resolve (fp.join [n]) = .ok (d ++ [n]) ∧ V.tree.node (d ++ [n]) = some .directory := by
  obtain ⟨loc, hloc, hlocNode⟩ := isDir_iff_resolve.mp hdir
  have hleads := (resolve_join hd hnode ⟨_, View.status_eq_some hloc⟩).symm.trans hloc
  obtain ⟨node, hx⟩ := Option.isSome_iff_exists.mp (node_of_leadsTo hleads)
  have hlink : ∀ t, node ≠ .link t := by
    rintro t rfl
    have hfile := h fp d n t hd hx
    simp [isDir, hfile] at hdir
  rw [leadsTo, FileTree.walk_entry hx hlink] at hleads
  obtain rfl := Except.ok.inj hleads
  exact ⟨hloc, hlocNode⟩

/-- Plain trees are backed up once. -/
theorem PlainTree.backsUpOnce (h : PlainTree V) (L : Listing V.tree) {root : PathText Bytes}
    (hstatus : HasStatus V root) : BacksUpOnce V L noReadErrors root := by
  refine TreeLike.backsUpOnce ⟨⟨rfl, hstatus⟩,
    fun _ => ⟨⟨rfl, hstatus⟩, fun _ _ => rfl, fun ns hns n hn => ⟨rfl, ?_⟩⟩,
    fun hdir ns ms hns hms heq => ?_⟩
  · obtain ⟨d, hd, hnode⟩ := isDir_iff_resolve.mp hns
    simp only [names, hd, L.mem_entries] at hn
    rw [← PathText.join_join]
    obtain ⟨-, k, hlocate⟩ := View.resolve_eq_ok.mp hd
    have hconcat : V.locate ((root.join ns).join [n]) = V.tree.walk k d [.name n] :=
      View.locate_concat hlocate hnode (.name n)
    obtain ⟨node, hx⟩ := Option.isSome_iff_exists.mp hn
    by_cases hlink : ∃ t, node = .link t
    · obtain ⟨t, rfl⟩ := hlink
      exact (statusKnown_of_isDirectory (E := noReadErrors) (h _ d n t hd hx)).2
    · have hwalk : V.tree.walk k d [.name n] = .ok (d ++ [n], k) :=
        FileTree.walk_entry hx fun t ht => hlink ⟨t, ht⟩
      have hresolve := View.resolve_eq_ok.mpr
        ⟨by simp [PathText.join], k, hconcat.trans hwalk⟩
      exact ⟨some (d ++ [n]), View.status_eq_some hresolve⟩
  · obtain ⟨r, hr, hrNode⟩ := isDir_iff_resolve.mp hdir
    have hlocation : ∀ ks, isDir V (root.join ks) = true →
        V.resolve (root.join ks) = .ok (r ++ ks) ∧ V.tree.node (r ++ ks) = some .directory := by
      intro ks hks
      induction ks using List.reverseRecOn with
      | nil => simpa using ⟨hr, hrNode⟩
      | append_singleton ks k ih =>
        obtain ⟨hd, hnode⟩ := ih (isDir_above hdir ks [k] hks)
        have hjoin : root.join (ks ++ [k]) = (root.join ks).join [k] := by simp
        rw [hjoin] at hks ⊢
        rw [← List.append_assoc]
        exact h.node_of_isDir hd hnode hks
    rw [(hlocation ns hns).1, (hlocation ms hms).1] at heq
    exact List.append_cancel_left (Except.ok.inj heq)

end Elykseer.Analysis
