import Mathlib.Data.List.Infix
import Mathlib.Data.Set.Finite.Basic
import Mathlib.Logic.Function.Basic

/-!
# File trees with symbolic links

A file tree has a node for every location, the list of names that leads to it from the
root; every node but the root stands in a directory.  A symbolic link holds the text of
a path.  `walk` resolves a path the way the kernel does: `..` is the parent of the
directory that has been reached, a link is replaced by its text, and no more than a
given number of links is followed.

Proved: resolving a path is resolving its first part and then the rest from there
(`walk_append`), more links to follow change no answer but `loop` (`walk_links`), and
a tree that has been added to resolves what it resolved before (`walk_extends`).
-/

set_option autoImplicit false

namespace Elykseer.Foundation

/-- A component of a path: `.` and the empty name, `..`, or a name. -/
inductive Component (α : Type)
  | here
  | up
  | name (n : α)
  deriving DecidableEq

/-- A path, as it is written. -/
structure PathText (α : Type) where
  absolute : Bool
  parts : List (Component α)
  deriving DecidableEq

/-- What is at a location. -/
inductive Node (α : Type)
  | directory
  | regular
  /-- neither a directory nor a regular file nor a link -/
  | special
  | link (target : PathText α)
  deriving DecidableEq

/-- Why an operation on a path fails. -/
inductive Errno
  | notFound
  | notDirectory
  | loop
  | fileExists
  | accessDenied
  | nameTooLong
  | tooManyOpen
  deriving DecidableEq, Repr

variable {α : Type}

/-- The directory a path starts from, for a process or a link in `dir`. -/
def PathText.start (t : PathText α) (dir : List α) : List α := if t.absolute then [] else dir

/-- A file tree. -/
structure FileTree (α : Type) where
  node : List α → Option (Node α)
  root : node [] = some .directory
  parent : ∀ d n, (node (d ++ [n])).isSome = true → node d = some .directory

namespace FileTree

variable (T : FileTree α)

/-- There is a directory at `p`. -/
def isDir (p : List α) : Bool :=
  match T.node p with
  | some .directory => true
  | _ => false

/-- Resolve a path from `dir` up to the next link, which `follow` resolves. -/
def scan (follow : List α → PathText α → List (Component α) → Except Errno (List α × ℕ))
    (links : ℕ) : List α → List (Component α) → Except Errno (List α × ℕ)
  | dir, [] => .ok (dir, links)
  | dir, .here :: rest => scan follow links dir rest
  | dir, .up :: rest => scan follow links dir.dropLast rest
  | dir, .name n :: rest =>
    match T.node (dir ++ [n]) with
    | none => .error .notFound
    | some .directory => scan follow links (dir ++ [n]) rest
    | some (.link t) => follow dir t rest
    | some _ => if rest.isEmpty then .ok (dir ++ [n], links) else .error .notDirectory

/-- Resolve a path from the directory `dir`, following at most `links` links: the location, and how
many links may still be followed. -/
def walk : ℕ → List α → List (Component α) → Except Errno (List α × ℕ)
  | 0 => T.scan (fun _ _ _ => .error .loop) 0
  | links + 1 =>
    T.scan (fun dir t rest => walk links (t.start dir) (t.parts ++ rest)) (links + 1)

variable {T} {links : ℕ} {dir : List α} {n : α} {rest : List (Component α)}

/-- The test for a directory says so exactly for directories. -/
@[simp] theorem isDir_iff {p : List α} : T.isDir p = true ↔ T.node p = some .directory := by
  unfold isDir
  split <;> simp_all

/-- With no components left, the walk is at its end. -/
@[simp] theorem walk_nil : T.walk links dir [] = .ok (dir, links) := by
  cases links <;> rfl

/-- The component `.` stays where it is. -/
@[simp] theorem walk_here : T.walk links dir (.here :: rest) = T.walk links dir rest := by
  cases links <;> rfl

/-- The component `..` goes one level up; the root is its own parent. -/
@[simp] theorem walk_up : T.walk links dir (.up :: rest) = T.walk links dir.dropLast rest := by
  cases links <;> rfl

/-- The walk fails at a name that is missing. -/
theorem walk_missing (h : T.node (dir ++ [n]) = none) :
    T.walk links dir (.name n :: rest) = .error .notFound := by
  cases links <;> simp [walk, scan, h]

/-- The walk goes on inside a directory. -/
theorem walk_directory (h : T.node (dir ++ [n]) = some .directory) :
    T.walk links dir (.name n :: rest) = T.walk links (dir ++ [n]) rest := by
  cases links <;> simp [walk, scan, h]

/-- The walk fails at a link when no more links may be followed. -/
theorem walk_loop {t : PathText α} (h : T.node (dir ++ [n]) = some (.link t)) :
    T.walk 0 dir (.name n :: rest) = .error .loop := by
  simp [walk, scan, h]

/-- The walk goes on along the target of a link, then along the rest. -/
theorem walk_link {t : PathText α} (h : T.node (dir ++ [n]) = some (.link t)) :
    T.walk (links + 1) dir (.name n :: rest) = T.walk links (t.start dir) (t.parts ++ rest) := by
  simp [walk, scan, h]

/-- A node that is neither a directory nor a link. -/
def IsFile (node : Node α) : Prop := node = .regular ∨ node = .special

/-- The walk ends at a file, and fails if components are left. -/
theorem walk_file {node : Node α} (h : T.node (dir ++ [n]) = some node) (hf : IsFile node) :
    T.walk links dir (.name n :: rest) =
      if rest.isEmpty then .ok (dir ++ [n], links) else .error .notDirectory := by
  rcases hf with rfl | rfl <;> cases links <;> simp [walk, scan, h]

/-- A last name that is no link is where it says. -/
theorem walk_entry {node : Node α} (h : T.node (dir ++ [n]) = some node)
    (hlink : ∀ t, node ≠ .link t) : T.walk links dir [.name n] = .ok (dir ++ [n], links) := by
  cases node with
  | directory => rw [walk_directory h, walk_nil]
  | regular => rw [walk_file h (.inl rfl)]; rfl
  | special => rw [walk_file h (.inr rfl)]; rfl
  | link t => exact absurd rfl (hlink t)

/-- Induction along `walk`: one case for each way it goes on. -/
theorem walk_induction (T : FileTree α) {motive : ℕ → List α → List (Component α) → Prop}
    (nil : ∀ links dir, motive links dir [])
    (here : ∀ links dir rest, motive links dir rest → motive links dir (.here :: rest))
    (up : ∀ links dir rest, motive links dir.dropLast rest → motive links dir (.up :: rest))
    (missing : ∀ links dir n rest, T.node (dir ++ [n]) = none → motive links dir (.name n :: rest))
    (directory : ∀ links dir n rest, T.node (dir ++ [n]) = some .directory →
      motive links (dir ++ [n]) rest → motive links dir (.name n :: rest))
    (loop : ∀ dir n rest t, T.node (dir ++ [n]) = some (.link t) → motive 0 dir (.name n :: rest))
    (link : ∀ links dir n rest t, T.node (dir ++ [n]) = some (.link t) →
      motive links (t.start dir) (t.parts ++ rest) → motive (links + 1) dir (.name n :: rest))
    (file : ∀ links dir n rest node, T.node (dir ++ [n]) = some node → IsFile node →
      motive links dir (.name n :: rest))
    (links : ℕ) (dir : List α) (parts : List (Component α)) : motive links dir parts := by
  induction links generalizing dir parts with
  | zero =>
    induction parts generalizing dir with
    | nil => exact nil 0 dir
    | cons c rest ih =>
      cases c with
      | here => exact here 0 dir rest (ih dir)
      | up => exact up 0 dir rest (ih dir.dropLast)
      | name n =>
        cases hnode : T.node (dir ++ [n]) with
        | none => exact missing 0 dir n rest hnode
        | some node =>
          cases node with
          | directory => exact directory 0 dir n rest hnode (ih (dir ++ [n]))
          | regular => exact file 0 dir n rest .regular hnode (.inl rfl)
          | special => exact file 0 dir n rest .special hnode (.inr rfl)
          | link t => exact loop dir n rest t hnode
  | succ links ihl =>
    induction parts generalizing dir with
    | nil => exact nil (links + 1) dir
    | cons c rest ih =>
      cases c with
      | here => exact here (links + 1) dir rest (ih dir)
      | up => exact up (links + 1) dir rest (ih dir.dropLast)
      | name n =>
        cases hnode : T.node (dir ++ [n]) with
        | none => exact missing (links + 1) dir n rest hnode
        | some node =>
          cases node with
          | directory => exact directory (links + 1) dir n rest hnode (ih (dir ++ [n]))
          | regular => exact file (links + 1) dir n rest .regular hnode (.inl rfl)
          | special => exact file (links + 1) dir n rest .special hnode (.inr rfl)
          | link t => exact link links dir n rest t hnode (ihl (t.start dir) (t.parts ++ rest))

/-! ## Directories -/

/-- What stands at a prefix of a location that exists is a directory, unless it is the location
itself. -/
theorem node_above {p q : List α} (hpq : p <+: q) (hne : p ≠ q)
    (hq : (T.node q).isSome = true) : T.node p = some .directory := by
  induction q using List.reverseRecOn with
  | nil => exact absurd (List.prefix_nil.mp hpq) hne
  | append_singleton d n ih =>
    have hd := T.parent d n hq
    rcases List.prefix_concat_iff.mp hpq with h | h
    · exact absurd h hne
    · by_cases hpd : p = d
      · rw [hpd, hd]
      · exact ih h hpd (by rw [hd]; rfl)

/-- What is above a directory is a directory. -/
theorem directory_above {p q : List α} (hpq : p <+: q) (hq : T.node q = some .directory) :
    T.node p = some .directory := by
  by_cases hne : p = q
  · rw [hne, hq]
  · exact node_above hpq hne (by rw [hq]; rfl)

/-- The parent of a directory is a directory. -/
theorem directory_dropLast (h : T.node dir = some .directory) :
    T.node dir.dropLast = some .directory :=
  directory_above (List.dropLast_prefix dir) h

/-- A path in a directory starts at a directory. -/
theorem directory_start (t : PathText α) (h : T.node dir = some .directory) :
    T.node (t.start dir) = some .directory := by
  unfold PathText.start
  split
  · exact T.root
  · exact h

/-! ## Walking on -/

/-- A path is resolved by resolving its first part, which must be a directory if there is more. -/
theorem walk_append (qs : List (Component α)) (hdir : T.node dir = some .directory)
    (ps : List (Component α)) :
    T.walk links dir (ps ++ qs) =
      match T.walk links dir ps with
      | .error e => .error e
      | .ok (d, k) =>
        if qs.isEmpty then .ok (d, k)
        else if T.isDir d then T.walk k d qs
        else .error .notDirectory := by
  induction links, dir, ps using walk_induction T with
  | nil links dir =>
    cases qs with
    | nil => simp
    | cons c qs => simp [hdir]
  | here links dir rest ih => simpa using ih hdir
  | up links dir rest ih => simpa using ih (directory_dropLast hdir)
  | missing links dir n rest h => simp [walk_missing h]
  | directory links dir n rest h ih => simpa [walk_directory h] using ih h
  | loop dir n rest t h => simp [walk_loop h]
  | link links dir n rest t h ih =>
    simpa [walk_link h] using ih (directory_start t hdir)
  | file links dir n rest node h hf =>
    have hnd : T.node (dir ++ [n]) ≠ some .directory := by
      rw [h]
      rcases hf with rfl | rfl <;> simp
    simp only [List.cons_append, walk_file h hf]
    cases rest with
    | nil =>
      cases qs with
      | nil => simp
      | cons c qs => simp [hnd]
    | cons c rest => simp

/-- The location a path resolves to exists, and is no link. -/
theorem walk_node (hdir : T.node dir = some .directory) {ps : List (Component α)} {d : List α}
    {k : ℕ} (h : T.walk links dir ps = .ok (d, k)) :
    ∃ node, T.node d = some node ∧ ∀ t, node ≠ .link t := by
  induction links, dir, ps using walk_induction T with
  | nil links dir =>
    obtain ⟨rfl, rfl⟩ : dir = d ∧ links = k := by simpa using h
    exact ⟨.directory, hdir, by simp⟩
  | here links dir rest ih => exact ih hdir (by simpa using h)
  | up links dir rest ih => exact ih (directory_dropLast hdir) (by simpa using h)
  | missing links dir n rest hn => simp [walk_missing hn] at h
  | directory links dir n rest hn ih => exact ih hn (by simpa [walk_directory hn] using h)
  | loop dir n rest t hn => simp [walk_loop hn] at h
  | link links dir n rest t hn ih =>
    exact ih (directory_start t hdir) (by simpa [walk_link hn] using h)
  | file links dir n rest node hn hf =>
    rw [walk_file hn hf] at h
    split at h
    · obtain ⟨rfl, -⟩ : dir ++ [n] = d ∧ links = k := by simpa using h
      refine ⟨node, hn, fun t => ?_⟩
      rcases hf with rfl | rfl <;> simp
    · cases h

/-- No more links are left than there were. -/
theorem walk_links_le {ps : List (Component α)} {d : List α} {k : ℕ}
    (h : T.walk links dir ps = .ok (d, k)) : k ≤ links := by
  induction links, dir, ps using walk_induction T with
  | nil links dir =>
    obtain ⟨-, rfl⟩ : dir = d ∧ links = k := by simpa using h
    exact le_rfl
  | here links dir rest ih => exact ih (by simpa using h)
  | up links dir rest ih => exact ih (by simpa using h)
  | missing links dir n rest hn => simp [walk_missing hn] at h
  | directory links dir n rest hn ih => exact ih (by simpa [walk_directory hn] using h)
  | loop dir n rest t hn => simp [walk_loop hn] at h
  | link links dir n rest t hn ih =>
    exact Nat.le_succ_of_le (ih (by simpa [walk_link hn] using h))
  | file links dir n rest node hn hf =>
    rw [walk_file hn hf] at h
    split at h
    · obtain ⟨-, rfl⟩ : dir ++ [n] = d ∧ links = k := by simpa using h
      exact le_rfl
    · cases h

/-- More links to follow change no answer but `loop`. -/
theorem walk_links (more : ℕ) {ps : List (Component α)}
    (h : T.walk links dir ps ≠ .error .loop) :
    T.walk (links + more) dir ps = (T.walk links dir ps).map fun r => (r.1, r.2 + more) := by
  induction links, dir, ps using walk_induction T with
  | nil links dir => simp [Except.map]
  | here links dir rest ih => simpa using ih (by simpa using h)
  | up links dir rest ih => simpa using ih (by simpa using h)
  | missing links dir n rest hn => simp [walk_missing hn, Except.map]
  | directory links dir n rest hn ih =>
    simpa [walk_directory hn] using ih (by simpa [walk_directory hn] using h)
  | loop dir n rest t hn => exact absurd (walk_loop hn) h
  | link links dir n rest t hn ih =>
    have hmore : links + 1 + more = links + more + 1 := by omega
    rw [hmore, walk_link hn, walk_link hn]
    exact ih (by simpa [walk_link hn] using h)
  | file links dir n rest node hn hf =>
    rw [walk_file hn hf, walk_file hn hf]
    split <;> rfl

/-! ## Adding to a tree -/

/-- Everything in `T` is in `T'`. -/
def Extends (T T' : FileTree α) : Prop := ∀ p node, T.node p = some node → T'.node p = some node

/-- A tree extends itself. -/
theorem Extends.refl (T : FileTree α) : Extends T T := fun _ _ h => h

/-- An extension of an extension is one. -/
theorem Extends.trans {T₁ T₂ T₃ : FileTree α} (h₁ : Extends T₁ T₂) (h₂ : Extends T₂ T₃) :
    Extends T₁ T₃ :=
  fun p node h => h₂ p node (h₁ p node h)

/-- What has been added does not change what a path resolves to. -/
theorem walk_extends {T' : FileTree α} (hT : Extends T T') {ps : List (Component α)}
    {r : List α × ℕ} (h : T.walk links dir ps = .ok r) : T'.walk links dir ps = .ok r := by
  induction links, dir, ps using walk_induction T with
  | nil links dir => simpa using h
  | here links dir rest ih => simpa using ih (by simpa using h)
  | up links dir rest ih => simpa using ih (by simpa using h)
  | missing links dir n rest hn => simp [walk_missing hn] at h
  | directory links dir n rest hn ih =>
    rw [walk_directory (hT _ _ hn)]
    exact ih (by simpa [walk_directory hn] using h)
  | loop dir n rest t hn => simp [walk_loop hn] at h
  | link links dir n rest t hn ih =>
    rw [walk_link (hT _ _ hn)]
    exact ih (by simpa [walk_link hn] using h)
  | file links dir n rest node hn hf =>
    rwa [walk_file (hT _ _ hn) hf, ← walk_file hn hf]

/-- The tree with nothing in its root. -/
def bare (α : Type) [DecidableEq α] : FileTree α where
  node := fun p => if p = [] then some .directory else none
  root := rfl
  parent := fun d n h => by simp at h

/-- A new node in the directory `d`. -/
def insert [DecidableEq α] (T : FileTree α) (d : List α) (n : α) (node : Node α)
    (hd : T.node d = some .directory) (hnew : T.node (d ++ [n]) = none) : FileTree α where
  node := Function.update T.node (d ++ [n]) (some node)
  root := by
    rw [Function.update_of_ne (by simp)]
    exact T.root
  parent := fun d' n' h => by
    have hne : ∀ p, T.node p = some .directory → p ≠ d ++ [n] := by
      rintro p hp rfl
      rw [hnew] at hp
      cases hp
    by_cases hp : d' ++ [n'] = d ++ [n]
    · obtain ⟨rfl, -⟩ := List.append_inj' hp rfl
      rw [Function.update_of_ne (hne _ hd)]
      exact hd
    · rw [Function.update_of_ne hp] at h
      have hd' := T.parent d' n' h
      rw [Function.update_of_ne (hne _ hd')]
      exact hd'

section Insert

variable [DecidableEq α] {d : List α} {node : Node α} (hd : T.node d = some .directory)
  (hnew : T.node (d ++ [n]) = none)

/-- The inserted node is there. -/
@[simp] theorem insert_node : (T.insert d n node hd hnew).node (d ++ [n]) = some node :=
  Function.update_self ..

/-- All other nodes are as before. -/
theorem insert_node_of_ne {p : List α} (h : p ≠ d ++ [n]) :
    (T.insert d n node hd hnew).node p = T.node p :=
  Function.update_of_ne h ..

/-- Inserting a node extends the tree. -/
theorem extends_insert : Extends T (T.insert d n node hd hnew) := by
  intro p x hp
  rwa [insert_node_of_ne hd hnew]
  rintro rfl
  rw [hnew] at hp
  cases hp

end Insert

/-- The tree without the node at `p`, which is no directory. -/
def erase [DecidableEq α] (T : FileTree α) (p : List α) (hp : T.node p ≠ some .directory) :
    FileTree α where
  node := Function.update T.node p none
  root := by
    rw [Function.update_of_ne]
    · exact T.root
    · rintro rfl
      exact hp T.root
  parent := fun d n h => by
    have hne : d ++ [n] ≠ p := by
      rintro rfl
      rw [Function.update_self] at h
      cases h
    rw [Function.update_of_ne hne] at h
    have hd := T.parent d n h
    rw [Function.update_of_ne]
    · exact hd
    · rintro rfl
      exact hp hd

/-- Trees with the same nodes are equal. -/
theorem ext_node {T T' : FileTree α} (h : T.node = T'.node) : T = T' := by
  cases T
  cases T'
  cases h
  rfl

/-- Taking away what has been added. -/
theorem erase_insert [DecidableEq α] {d : List α} {node : Node α}
    (hd : T.node d = some .directory) (hnew : T.node (d ++ [n]) = none)
    (hp : (T.insert d n node hd hnew).node (d ++ [n]) ≠ some .directory) :
    (T.insert d n node hd hnew).erase (d ++ [n]) hp = T := by
  apply ext_node
  change Function.update (Function.update T.node (d ++ [n]) (some node)) (d ++ [n]) none = T.node
  rw [Function.update_idem, ← hnew, Function.update_eq_self]

end FileTree

/-- The entries of every directory of a finite tree, in the order the system lists them. -/
structure Listing (T : FileTree α) where
  entries : List α → List α
  mem_entries : ∀ d n, n ∈ entries d ↔ (T.node (d ++ [n])).isSome = true
  nodup : ∀ d, (entries d).Nodup
  finite : {d | T.node d = some .directory}.Finite

namespace Listing

variable [DecidableEq α]

/-- The listing of a tree with nothing in its root. -/
def bare (α : Type) [DecidableEq α] : Listing (FileTree.bare α) where
  entries := fun _ => []
  mem_entries := fun d n => by simp [FileTree.bare]
  nodup := fun _ => List.nodup_nil
  finite := by
    apply (Set.finite_singleton ([] : List α)).subset
    intro d hd
    by_contra hne
    simp_all [FileTree.bare]

/-- A new entry is listed last. -/
def insert {T : FileTree α} (L : Listing T) (d : List α) (n : α) (node : Node α)
    (hd : T.node d = some .directory) (hnew : T.node (d ++ [n]) = none) :
    Listing (T.insert d n node hd hnew) where
  entries := Function.update L.entries d (L.entries d ++ [n])
  mem_entries := fun d' n' => by
    by_cases hp : d' ++ [n'] = d ++ [n]
    · obtain ⟨rfl, hn⟩ := List.append_inj' hp rfl
      obtain rfl : n' = n := by simpa using hn
      simp
    · rw [FileTree.insert_node_of_ne hd hnew hp]
      by_cases hd' : d' = d
      · subst hd'
        have hn : n' ≠ n := fun h => hp (by rw [h])
        simp [L.mem_entries, hn]
      · rw [Function.update_of_ne hd', L.mem_entries]
  nodup := fun d' => by
    by_cases hd' : d' = d
    · subst hd'
      rw [Function.update_self, List.nodup_append]
      refine ⟨L.nodup d', List.nodup_singleton n, ?_⟩
      rintro a ha b hb rfl
      rw [List.mem_singleton] at hb
      subst hb
      rw [L.mem_entries, hnew] at ha
      cases ha
    · rw [Function.update_of_ne hd']
      exact L.nodup d'
  finite := by
    apply (L.finite.union (Set.finite_singleton (d ++ [n]))).subset
    intro p hp
    by_cases h : p = d ++ [n]
    · exact .inr h
    · left
      rwa [Set.mem_ofPred_eq, FileTree.insert_node_of_ne hd hnew h] at hp

end Listing

end Elykseer.Foundation
