import Elykseer.Foundation.FileTree

/-!
# A process and its file tree

A `View` is a file tree as a process sees it, with a working directory and the number of
links the kernel follows while it resolves one path.  On it stand the operations of
`std::filesystem` that ask for the status of a path, make it canonical and create
directories, and the exclusive creation of a node, which follows no link at the end of
the path.

Creation is described by `Below`: what is new in a view, and that it is strictly below a
location.  `Guarded` is what a path must satisfy for creation along it to stay below.
-/

set_option autoImplicit false

namespace Elykseer.Foundation

variable {α : Type}

/-- A file tree as a process sees it. -/
structure View (α : Type) where
  tree : FileTree α
  cwd : List α
  cwd_directory : tree.node cwd = some .directory
  maxLinks : ℕ

/-- The path of a location. -/
def PathText.ofLocation (loc : List α) : PathText α := ⟨true, loc.map .name⟩

/-- Append names to a path, `p / n₁ / n₂ / ..`. -/
def PathText.join (p : PathText α) (names : List α) : PathText α :=
  { p with parts := p.parts ++ names.map .name }

/-- Joining no names changes nothing. -/
@[simp] theorem PathText.join_nil (p : PathText α) : p.join [] = p := by
  simp [join]

/-- Joining names in two steps is joining them in one. -/
@[simp] theorem PathText.join_join (p : PathText α) (ns ms : List α) :
    (p.join ns).join ms = p.join (ns ++ ms) := by
  simp [join]

/-- The elements of a path: the root directory first, if it is absolute. -/
def PathText.elements (p : PathText α) : List (Option (Component α)) :=
  (if p.absolute then [none] else []) ++ p.parts.map some

/-- `std::mismatch`: what is left of two ranges from the first difference on. -/
def mismatch {β : Type} [DecidableEq β] : List β → List β → List β × List β
  | a :: as, b :: bs => if a = b then mismatch as bs else (a :: as, b :: bs)
  | as, bs => (as, bs)

/-- One step of `lexically_normal`, on the elements so far. -/
def normalStep (absolute : Bool) (parts : List (Component α)) :
    Component α → List (Component α)
  | .here => parts
  | .name n => parts ++ [.name n]
  | .up =>
    match parts.getLast? with
    | some (.name _) => parts.dropLast
    | _ => if absolute then parts else parts ++ [.up]

/-- `lexically_normal()`, without the separator it may leave at the end. -/
def PathText.lexicallyNormal (p : PathText α) : PathText α :=
  { p with parts := p.parts.foldl (normalStep p.absolute) [] }

namespace View

variable (V : View α)

/-- Walk along a path from where it starts. -/
def locate (p : PathText α) : Except Errno (List α × ℕ) :=
  V.tree.walk V.maxLinks (p.start V.cwd) p.parts

/-- Resolve a path; the empty path names nothing. -/
def resolve (p : PathText α) : Except Errno (List α) :=
  if p.parts.isEmpty && !p.absolute then .error .notFound else (V.locate p).map Prod.fst

/-- `std::filesystem::status`: the location, if there is one; other failures are errors. -/
def status (p : PathText α) : Except Errno (Option (List α)) :=
  match V.resolve p with
  | .ok loc => .ok (some loc)
  | .error .loop => .error .loop
  | .error _ => .ok none

/-- `std::filesystem::exists` -/
def exists_ (p : PathText α) : Except Errno Bool := (V.status p).map Option.isSome

/-- The node a status is about. -/
def statusIs (test : Node α → Bool) : Option (List α) → Bool
  | none => false
  | some loc =>
    match V.tree.node loc with
    | none => false
    | some node => test node

/-- `std::filesystem::is_directory` -/
def isDirectory (p : PathText α) : Except Errno Bool :=
  (V.status p).map (V.statusIs fun
    | .directory => true
    | _ => false)

/-- `std::filesystem::is_regular_file` -/
def isRegularFile (p : PathText α) : Except Errno Bool :=
  (V.status p).map (V.statusIs fun
    | .regular => true
    | _ => false)

/-- The loop of `weakly_canonical` over the leading elements that exist: these, and the rest. -/
def leading (absolute : Bool) (result : List (Component α)) :
    List (Component α) → Except Errno (List (Component α) × List (Component α))
  | [] => .ok (result, [])
  | c :: rest =>
    match V.status ⟨absolute, result ++ [c]⟩ with
    | .error e => .error e
    | .ok (some _) => leading absolute (result ++ [c]) rest
    | .ok none => .ok (result, c :: rest)

/-- `std::filesystem::weakly_canonical` -/
def weaklyCanonical (p : PathText α) : Except Errno (PathText α) :=
  match V.status p with
  | .error e => .error e
  | .ok (some loc) => .ok (.ofLocation loc)
  | .ok none =>
    match V.leading p.absolute [] p.parts with
    | .error e => .error e
    | .ok (result, rest) =>
      if result.isEmpty && !p.absolute then .ok (PathText.lexicallyNormal ⟨false, rest⟩)
      else
        match V.resolve ⟨p.absolute, result⟩ with
        | .error e => .error e
        | .ok loc => .ok (PathText.lexicallyNormal ⟨true, loc.map .name ++ rest⟩)

section Creation

variable [DecidableEq α]

/-- Create a node at a path, which must not exist; a link at its end is not followed. -/
def create (p : PathText α) (node : Node α) : Except Errno (List α × View α) :=
  match p.parts.getLast?, V.locate { p with parts := p.parts.dropLast } with
  | none, _ => .error (if p.absolute then .fileExists else .notFound)
  | some _, .error e => .error e
  | some (.name n), .ok (d, _) =>
    if hd : V.tree.node d = some .directory then
      if hnew : V.tree.node (d ++ [n]) = none then
        .ok (d ++ [n],
          { V with
            tree := V.tree.insert d n node hd hnew
            cwd_directory := FileTree.extends_insert hd hnew _ _ V.cwd_directory })
      else .error .fileExists
    else .error .notDirectory
  | some _, .ok _ => .error .fileExists

/-- `create_directory`: the new view, or `none` if the directory exists. -/
def createDirectory (p : PathText α) : Except Errno (Option (View α)) :=
  match V.create p .directory with
  | .ok (_, V') => .ok (some V')
  | .error .fileExists =>
    match V.isDirectory p with
    | .ok true => .ok none
    | _ => .error .fileExists
  | .error e => .error e

/-- `unlink`: remove the node at a path, which is no directory; a link at its end is not
followed. -/
def unlink (p : PathText α) : Except Errno (View α) :=
  match p.parts.getLast?, V.locate { p with parts := p.parts.dropLast } with
  | some (.name n), .ok (d, _) =>
    if (V.tree.node (d ++ [n])).isNone then .error .notFound
    else if hn : V.tree.node (d ++ [n]) = some .directory then .error .fileExists
    else
      .ok { V with
        tree := V.tree.erase (d ++ [n]) hn
        cwd_directory := by
          change Function.update V.tree.node (d ++ [n]) none V.cwd = some .directory
          rw [Function.update_of_ne]
          · exact V.cwd_directory
          · intro h
            exact hn (h ▸ V.cwd_directory) }
  | _, .error e => .error e
  | _, .ok _ => .error .fileExists

end Creation

end View

/-- What a sequence of creations leaves behind: the view, the paths at which something was created,
and the error that ended it. -/
structure Creation (α : Type) where
  view : View α
  created : List (PathText α)
  error : Option Errno

namespace View

variable [DecidableEq α]

/-- `create_directory` for every element of a path after the elements in `done`. -/
def createAlong (absolute : Bool) :
    View α → (done : List (Component α)) → List (Component α) → Creation α
  | V, _, [] => ⟨V, [], none⟩
  | V, done, c :: rest =>
    match V.createDirectory ⟨absolute, done ++ [c]⟩ with
    | .error e => ⟨V, [], some e⟩
    | .ok none => createAlong absolute V (done ++ [c]) rest
    | .ok (some V') =>
      let r := createAlong absolute V' (done ++ [c]) rest
      { r with created := ⟨absolute, done ++ [c]⟩ :: r.created }

/-- `std::filesystem::create_directories` -/
def createDirectories (V : View α) (p : PathText α) : Creation α :=
  V.createAlong p.absolute [] p.parts

end View

/-! ## Resolving -/

namespace View

variable {V V' : View α} {p : PathText α}

/-- Resolution starts at a directory. -/
theorem directory_start (V : View α) (p : PathText α) :
    V.tree.node (p.start V.cwd) = some .directory :=
  FileTree.directory_start p V.cwd_directory

/-- Walking along a path is walking along its first part and then on from there. -/
theorem locate_append (V : View α) (absolute : Bool) (ps qs : List (Component α)) :
    V.locate ⟨absolute, ps ++ qs⟩ =
      match V.locate ⟨absolute, ps⟩ with
      | .error e => .error e
      | .ok (d, k) =>
        if qs.isEmpty then .ok (d, k)
        else if V.tree.isDir d then V.tree.walk k d qs
        else .error .notDirectory :=
  FileTree.walk_append qs (V.directory_start ⟨absolute, ps⟩) ps

/-- The last component of a path is looked up in the directory the others lead to. -/
theorem locate_concat {absolute : Bool} {ps : List (Component α)} {d : List α} {k : ℕ}
    (h : V.locate ⟨absolute, ps⟩ = .ok (d, k)) (hd : V.tree.node d = some .directory)
    (c : Component α) : V.locate ⟨absolute, ps ++ [c]⟩ = V.tree.walk k d [c] := by
  rw [locate_append, h]
  simp [hd]

/-- The first part of a path that resolves and goes on is a directory. -/
theorem locate_split {absolute : Bool} {ps qs : List (Component α)} {r : List α × ℕ}
    (h : V.locate ⟨absolute, ps ++ qs⟩ = .ok r) (hqs : qs ≠ []) :
    ∃ d k, V.locate ⟨absolute, ps⟩ = .ok (d, k) ∧ V.tree.node d = some .directory ∧
      V.tree.walk k d qs = .ok r := by
  rw [locate_append] at h
  split at h
  · cases h
  · next d k hps =>
    rw [if_neg (by simpa using hqs)] at h
    split at h
    · next hd => exact ⟨d, k, hps, FileTree.isDir_iff.mp hd, h⟩
    · cases h

/-- A path resolves when it is not empty and its components can be followed. -/
theorem resolve_eq_ok {loc : List α} :
    V.resolve p = .ok loc ↔
      (p.parts.isEmpty && !p.absolute) = false ∧ ∃ k, V.locate p = .ok (loc, k) := by
  unfold resolve
  by_cases hp : (p.parts.isEmpty && !p.absolute) = true
  · simp [hp]
  · rw [if_neg hp]
    cases hl : V.locate p with
    | error e => simp [Except.map]
    | ok r =>
      obtain ⟨d, k⟩ := r
      simp only [Bool.not_eq_true] at hp
      simp [Except.map, hp]

/-- What a path resolves to exists, and is no link. -/
theorem resolve_node {loc : List α} (h : V.resolve p = .ok loc) :
    ∃ node, V.tree.node loc = some node ∧ ∀ t, node ≠ .link t := by
  obtain ⟨-, k, hlocate⟩ := resolve_eq_ok.mp h
  exact FileTree.walk_node (V.directory_start p) hlocate

/-- A path that resolves keeps its location when the tree is added to. -/
theorem locate_extends (hT : FileTree.Extends V.tree V'.tree) (hcwd : V'.cwd = V.cwd)
    (hmax : V'.maxLinks = V.maxLinks) {r : List α × ℕ} (h : V.locate p = .ok r) :
    V'.locate p = .ok r := by
  unfold locate
  rw [hcwd, hmax]
  exact FileTree.walk_extends hT h

/-- A path that resolves has the status of its location. -/
theorem status_eq_some {loc : List α} (h : V.resolve p = .ok loc) :
    V.status p = .ok (some loc) := by
  simp [status, h]

/-- A path that leads to a directory is one. -/
theorem isDirectory_of_resolve {loc : List α} (h : V.resolve p = .ok loc)
    (hd : V.tree.node loc = some .directory) : V.isDirectory p = .ok true := by
  simp [isDirectory, status_eq_some h, statusIs, hd, Except.map]

/-- A path is a directory when it resolves to one. -/
theorem isDirectory_iff :
    V.isDirectory p = .ok true ↔
      ∃ loc, V.resolve p = .ok loc ∧ V.tree.node loc = some .directory := by
  constructor
  · intro h
    unfold isDirectory status at h
    cases hr : V.resolve p with
    | error e => cases e <;> simp [hr, Except.map, statusIs] at h
    | ok loc =>
      refine ⟨loc, rfl, ?_⟩
      simp only [hr, Except.map, statusIs] at h
      cases hn : V.tree.node loc with
      | none => simp [hn] at h
      | some node => cases node <;> simp_all
  · rintro ⟨loc, hr, hd⟩
    exact isDirectory_of_resolve hr hd

end View

/-! ## Canonical paths -/

/-- Nothing of the first list is left, but some of the second, when it is a proper prefix.
-/
theorem mismatch_fst_eq_nil {β : Type} [DecidableEq β] (as bs : List β) :
    (mismatch as bs).1 = [] ∧ (mismatch as bs).2 ≠ [] ↔ as <+: bs ∧ as ≠ bs := by
  induction as generalizing bs with
  | nil => cases bs <;> simp [mismatch]
  | cons a as ih =>
    cases bs with
    | nil => simp [mismatch]
    | cons b bs =>
      unfold mismatch
      by_cases hab : a = b
      · subst hab
        simp only [if_true, ih, List.cons_prefix_cons, true_and, ne_eq, List.cons.injEq]
      · simp [hab]

/-- Different names are different path elements. -/
theorem elements_ofLocation_inj :
    Function.Injective fun n : α => (some (Component.name n) : Option (Component α)) := by
  intro n m h
  simpa using h

/-- Comparing the elements of two canonical paths is comparing the locations. -/
theorem mismatch_ofLocation [DecidableEq α] (B loc : List α) :
    (mismatch (PathText.ofLocation B).elements (PathText.ofLocation loc).elements).1 = [] ∧
        (mismatch (PathText.ofLocation B).elements (PathText.ofLocation loc).elements).2 ≠ [] ↔
      B <+: loc ∧ B ≠ loc := by
  have helements : ∀ l : List α, (PathText.ofLocation l).elements =
      none :: l.map fun n => some (.name n) := by
    intro l
    simp [PathText.ofLocation, PathText.elements]
  rw [mismatch_fst_eq_nil, helements, helements, List.cons_prefix_cons,
    List.prefix_map_iff_of_injective elements_ofLocation_inj]
  simp only [true_and, ne_eq, List.cons.injEq]
  rw [(List.map_injective_iff.mpr elements_ofLocation_inj).eq_iff]

/-- Names are not removed by normalisation. -/
theorem foldl_normalStep_names (absolute : Bool) (parts : List (Component α)) (names : List α) :
    (names.map Component.name).foldl (normalStep absolute) parts = parts ++ names.map .name := by
  induction names generalizing parts with
  | nil => simp
  | cons n names ih => simp [normalStep, ih]

/-- A path without `.` and `..` is normal. -/
theorem lexicallyNormal_ofLocation (loc : List α) :
    (PathText.ofLocation loc).lexicallyNormal = .ofLocation loc := by
  simp [PathText.lexicallyNormal, PathText.ofLocation, foldl_normalStep_names]

namespace View

variable {V : View α} {p : PathText α}

/-- The canonical form of an existing path is its location. -/
theorem weaklyCanonical_existing {loc : List α} (h : V.resolve p = .ok loc) :
    V.weaklyCanonical p = .ok (.ofLocation loc) := by
  unfold weaklyCanonical
  rw [status_eq_some h]

/-- The leading elements that are directories are passed over. -/
theorem leading_existing (V : View α) (absolute : Bool) (es rest : List (Component α))
    (done : List (Component α)) {d : List α} {k : ℕ}
    (h : V.locate ⟨absolute, done ++ es⟩ = .ok (d, k)) :
    V.leading absolute done (es ++ rest) = V.leading absolute (done ++ es) rest := by
  induction es generalizing done with
  | nil => simp
  | cons c es ih =>
    have hsplit : done ++ c :: es = done ++ [c] ++ es := by simp
    rw [hsplit] at h
    have hstatus : ∃ d', V.status ⟨absolute, done ++ [c]⟩ = .ok (some d') := by
      by_cases hes : es = []
      · subst hes
        exact ⟨d, status_eq_some (resolve_eq_ok.mpr ⟨by simp, k, by simpa using h⟩)⟩
      · obtain ⟨d', k', hpre, -, -⟩ := locate_split h hes
        exact ⟨d', status_eq_some (resolve_eq_ok.mpr ⟨by simp, k', hpre⟩)⟩
    obtain ⟨d', hd'⟩ := hstatus
    rw [List.cons_append, leading, hd', hsplit]
    exact ih (done ++ [c]) h

/-- A path the next element of which is missing in the directory reached so far. -/
theorem status_missing {d : List α} {k : ℕ} {n : α} (h : V.locate p = .ok (d, k))
    (hd : V.tree.node d = some .directory) (hn : V.tree.node (d ++ [n]) = none) (ms : List α) :
    V.status (p.join (n :: ms)) = .ok none := by
  have hlocate : V.locate (p.join (n :: ms)) = .error .notFound := by
    rw [show p.join (n :: ms) = ⟨p.absolute, p.parts ++ (n :: ms).map .name⟩ from rfl,
      locate_append, show V.locate ⟨p.absolute, p.parts⟩ = .ok (d, k) from h]
    simp [hd, FileTree.walk_missing hn]
  have hresolve : V.resolve (p.join (n :: ms)) = .error .notFound := by
    unfold resolve
    rw [hlocate]
    simp [PathText.join, Except.map]
  simp [status, hresolve]

/-- What is missing is appended to the location of what is there. -/
theorem weaklyCanonical_missing {d : List α} {n : α} (h : V.resolve p = .ok d)
    (hd : V.tree.node d = some .directory) (hn : V.tree.node (d ++ [n]) = none) (ms : List α) :
    V.weaklyCanonical (p.join (n :: ms)) = .ok (.ofLocation (d ++ n :: ms)) := by
  obtain ⟨hp, k, hlocate⟩ := resolve_eq_ok.mp h
  have hleading : V.leading p.absolute [] (p.join (n :: ms)).parts =
      .ok (p.parts, (n :: ms).map .name) := by
    have hexisting := V.leading_existing p.absolute p.parts ((n :: ms).map .name) []
      (by simpa using! hlocate)
    have hstatus : V.status ⟨p.absolute, p.parts ++ [.name n]⟩ = .ok none :=
      status_missing hlocate hd hn []
    rw [List.nil_append] at hexisting
    rw [show (p.join (n :: ms)).parts = p.parts ++ (n :: ms).map .name from rfl, hexisting,
      List.map_cons, leading, hstatus]
  unfold weaklyCanonical
  rw [status_missing hlocate hd hn ms]
  simp only [show (p.join (n :: ms)).absolute = p.absolute from rfl, hleading, hp, h]
  have hnormal := lexicallyNormal_ofLocation (d ++ n :: ms)
  simpa [PathText.ofLocation] using hnormal

end View

/-! ## Creating one node -/

/-- What the creation of `node` at `p` does: a free entry of a directory is taken. -/
structure Created (V : View α) (p : PathText α) (node : Node α) (d : List α) (n : α)
    (V' : View α) : Prop where
  path : ∃ init k, p.parts = init ++ [.name n] ∧ V.locate ⟨p.absolute, init⟩ = .ok (d, k)
  directory : V.tree.node d = some .directory
  free : V.tree.node (d ++ [n]) = none
  node : V'.tree.node (d ++ [n]) = some node
  others : ∀ q, q ≠ d ++ [n] → V'.tree.node q = V.tree.node q
  cwd : V'.cwd = V.cwd
  maxLinks : V'.maxLinks = V.maxLinks

/-- Creating a node keeps all others. -/
theorem Created.keeps {V V' : View α} {p : PathText α} {node : Node α} {d : List α} {n : α}
    (h : Created V p node d n V') : FileTree.Extends V.tree V'.tree := by
  intro q x hq
  rw [h.others q, hq]
  rintro rfl
  rw [h.free] at hq
  cases hq

/-- What has been created is found at its path, if it is no link. -/
theorem Created.resolve {V V' : View α} {p : PathText α} {node : Node α} {d : List α} {n : α}
    (h : Created V p node d n V')
    (hnode : node = .directory ∨ node = .regular) : V'.resolve p = .ok (d ++ [n]) := by
  obtain ⟨init, k, hparts, hinit⟩ := h.path
  have hinit' := View.locate_extends h.keeps h.cwd h.maxLinks hinit
  have hd' := h.keeps _ _ h.directory
  have hloc : V'.locate ⟨p.absolute, init ++ [.name n]⟩ = .ok (d ++ [n], k) := by
    rw [View.locate_concat hinit' hd']
    apply FileTree.walk_entry h.node
    rintro t rfl
    simp at hnode
  refine View.resolve_eq_ok.mpr ⟨by simp [hparts], k, ?_⟩
  rwa [← hparts] at hloc

section Create

variable [DecidableEq α] {V V' : View α} {p : PathText α}

/-- A node is created as a new entry of an existing directory. -/
theorem View.create_spec {node : Node α} {loc : List α} (h : V.create p node = .ok (loc, V')) :
    ∃ d n, loc = d ++ [n] ∧ Created V p node d n V' := by
  unfold View.create at h
  split at h
  · cases h
  · cases h
  · next n d k hlast hinit =>
    split at h
    · next hd =>
      split at h
      · next hnew =>
        obtain ⟨rfl, rfl⟩ := Prod.mk.inj (Except.ok.inj h)
        exact ⟨d, n, rfl, ⟨p.parts.dropLast, k, (List.dropLast_append_getLast? _ hlast).symm, hinit⟩,
          hd, hnew, FileTree.insert_node hd hnew,
          fun q hq => FileTree.insert_node_of_ne hd hnew hq, rfl, rfl⟩
      · cases h
    · cases h
  · cases h

/-- What has just been created is taken away. -/
theorem View.unlink_create {node : Node α} (hnode : node ≠ .directory) {loc : List α}
    (h : V.create p node = .ok (loc, V')) : V'.unlink p = .ok V := by
  unfold View.create at h
  split at h
  · cases h
  · cases h
  · next n d k hlast hinit =>
    split at h
    · next hd =>
      split at h
      · next hnew =>
        obtain ⟨-, hV⟩ := Prod.mk.inj (Except.ok.inj h)
        have htree : V'.tree = V.tree.insert d n node hd hnew := by rw [← hV]
        have hkeeps : FileTree.Extends V.tree V'.tree := htree ▸ FileTree.extends_insert hd hnew
        have hcwd : V'.cwd = V.cwd := by rw [← hV]
        have hmax : V'.maxLinks = V.maxLinks := by rw [← hV]
        have hinit' := View.locate_extends hkeeps hcwd hmax hinit
        have hmade : V'.tree.node (d ++ [n]) = some node := by
          rw [htree, FileTree.insert_node hd hnew]
        have hne : V'.tree.node (d ++ [n]) ≠ some .directory := by
          rw [hmade]
          exact fun h => hnode (Option.some.inj h)
        unfold View.unlink
        rw [hlast, hinit']
        dsimp only
        rw [if_neg (by rw [hmade]; exact Bool.false_ne_true), dif_neg hne]
        subst hV
        congr
        exact FileTree.erase_insert hd hnew hne
      · cases h
    · cases h
  · cases h

/-- `create_directory` makes a directory only where there is nothing. -/
theorem View.createDirectory_some (h : V.createDirectory p = .ok (some V')) :
    ∃ d n, Created V p .directory d n V' := by
  unfold View.createDirectory at h
  split at h
  · next loc V'' hcreate =>
    obtain rfl := Option.some.inj (Except.ok.inj h)
    obtain ⟨d, n, -, hc⟩ := View.create_spec hcreate
    exact ⟨d, n, hc⟩
  · split at h <;> cases h
  · cases h

/-- Nothing is created where there is a directory. -/
theorem View.createDirectory_of_isDirectory (hp : p.parts ≠ [])
    (h : V.isDirectory p = .ok true) : V.createDirectory p = .ok none := by
  obtain ⟨loc, hr, hloc⟩ := View.isDirectory_iff.mp h
  obtain ⟨-, k, hl⟩ := View.resolve_eq_ok.mp hr
  obtain ⟨init, c, hparts⟩ := (List.eq_nil_or_concat' p.parts).resolve_left hp
  have hlocate : V.locate ⟨p.absolute, init ++ [c]⟩ = .ok (loc, k) := by rwa [← hparts]
  obtain ⟨d, k', hinit, hd, hwalk⟩ := View.locate_split hlocate (by simp)
  have hcreate : V.create p .directory = .error .fileExists := by
    unfold View.create
    have hdrop : V.locate { p with parts := p.parts.dropLast } = .ok (d, k') := by
      simpa [hparts] using hinit
    rw [hdrop, hparts, List.getLast?_concat]
    cases c with
    | here => rfl
    | up => rfl
    | name n =>
      have hnew : V.tree.node (d ++ [n]) ≠ none := by
        intro hnone
        rw [FileTree.walk_missing hnone] at hwalk
        cases hwalk
      simp only [hd, dif_pos, hnew, dif_neg, not_false_eq_true]
  unfold View.createDirectory
  rw [hcreate]
  simp only [h]

end Create

/-! ## What is new is below a location -/

/-- The paths in `created` are what is new in `V'`, and resolve to locations strictly below `B`. -/
structure Below (B : List α) (V V' : View α) (created : List (PathText α)) : Prop where
  keeps : FileTree.Extends V.tree V'.tree
  cwd : V'.cwd = V.cwd
  maxLinks : V'.maxLinks = V.maxLinks
  below : ∀ p ∈ created, ∃ loc, V'.resolve p = .ok loc ∧ V.tree.node loc = none ∧
    B <+: loc ∧ B ≠ loc
  new : ∀ loc, V'.tree.node loc ≠ V.tree.node loc → ∃ p ∈ created, V'.resolve p = .ok loc

namespace Below

variable {B : List α} {V V₁ V₂ V₃ V' : View α} {p : PathText α}

/-- Nothing created, nothing changed. -/
theorem refl (B : List α) (V : View α) : Below B V V [] where
  keeps := FileTree.Extends.refl _
  cwd := rfl
  maxLinks := rfl
  below := by simp
  new := fun loc h => absurd rfl h

/-- Paths that resolved before still lead to the same location. -/
theorem resolve {created : List (PathText α)} (h : Below B V V' created) {loc : List α}
    (hr : V.resolve p = .ok loc) : V'.resolve p = .ok loc := by
  obtain ⟨hp, k, hl⟩ := View.resolve_eq_ok.mp hr
  exact View.resolve_eq_ok.mpr ⟨hp, k, View.locate_extends h.keeps h.cwd h.maxLinks hl⟩

/-- Two steps below the same location are one. -/
theorem trans {c₁ c₂ : List (PathText α)} (h₁ : Below B V₁ V₂ c₁) (h₂ : Below B V₂ V₃ c₂) :
    Below B V₁ V₃ (c₁ ++ c₂) where
  keeps := h₁.keeps.trans h₂.keeps
  cwd := h₂.cwd.trans h₁.cwd
  maxLinks := h₂.maxLinks.trans h₁.maxLinks
  below := by
    intro p hp
    rcases List.mem_append.mp hp with hp | hp
    · obtain ⟨loc, hr, hrest⟩ := h₁.below p hp
      exact ⟨loc, h₂.resolve hr, hrest⟩
    · obtain ⟨loc, hr, hfree, hbelow⟩ := h₂.below p hp
      refine ⟨loc, hr, ?_, hbelow⟩
      cases hnode : V₁.tree.node loc with
      | none => rfl
      | some x =>
        rw [h₁.keeps _ _ hnode] at hfree
        cases hfree
  new := by
    intro loc hne
    by_cases h : V₂.tree.node loc = V₁.tree.node loc
    · obtain ⟨p, hp, hr⟩ := h₂.new loc (by rwa [h])
      exact ⟨p, List.mem_append_right _ hp, hr⟩
    · obtain ⟨p, hp, hr⟩ := h₁.new loc h
      exact ⟨p, List.mem_append_left _ hp, h₂.resolve hr⟩

/-- One creation in a directory at or below `B`. -/
theorem of_created [DecidableEq α] {node : Node α} {d : List α} {n : α}
    (h : Created V p node d n V') (hnode : node = .directory ∨ node = .regular)
    (hB : B <+: d) : Below B V V' [p] where
  keeps := h.keeps
  cwd := h.cwd
  maxLinks := h.maxLinks
  below := by
    intro q hq
    rw [List.mem_singleton] at hq
    subst hq
    refine ⟨d ++ [n], h.resolve hnode, h.free, hB.trans (List.prefix_append d [n]), ?_⟩
    intro heq
    have hlen := hB.length_le
    rw [heq, List.length_append, List.length_singleton] at hlen
    omega
  new := by
    intro loc hne
    have hloc : loc = d ++ [n] := by
      by_contra hloc
      exact hne (h.others loc hloc)
    exact ⟨p, List.mem_singleton_self p, hloc ▸ h.resolve hnode⟩

end Below

/-- Creation along `names` after the path `p` stays below `B`: what is missing first is missing in
a directory at or below `B`. -/
def Guarded (B : List α) (V : View α) (p : PathText α) (names : List α) : Prop :=
  ∀ ns n ms, names = ns ++ n :: ms → ∀ d k, V.locate (p.join ns) = .ok (d, k) →
    V.tree.node d = some .directory → V.tree.node (d ++ [n]) = none → B <+: d

namespace Guarded

variable {B : List α} {V V' : View α} {p : PathText α} {n : α} {names : List α}

/-- A guarded list of names stays guarded after its first. -/
theorem of_cons (h : Guarded B V p (n :: names)) : Guarded B V (p.join [n]) names := by
  intro ns m ms hsplit d k hloc hd hfree
  refine h (n :: ns) m ms (by rw [hsplit]; rfl) d k ?_ hd hfree
  rwa [PathText.join_join] at hloc

/-- A guarded list of names stays guarded after a prefix. -/
theorem of_append (ns : List α) {ms : List α} (h : Guarded B V p (ns ++ ms)) :
    Guarded B V (p.join ns) ms := by
  induction ns generalizing p with
  | nil => rwa [PathText.join_nil]
  | cons n ns ih =>
    have hrec := ih h.of_cons
    rwa [PathText.join_join] at hrec

/-- What has just been created is empty, so all that follows is created in it. -/
theorem of_created {d : List α} (h : Created V (p.join [n]) .directory d n V') (hB : B <+: d) :
    Guarded B V' (p.join [n]) names := by
  intro ns m ms hsplit d' k hloc hd' hfree
  obtain ⟨hparts, k', hnew⟩ := View.resolve_eq_ok.mp (h.resolve (.inl rfl))
  cases ns with
  | nil =>
    rw [PathText.join_nil, hnew] at hloc
    obtain ⟨rfl, -⟩ := Prod.mk.inj (Except.ok.inj hloc)
    exact hB.trans (List.prefix_append d [n])
  | cons m' ns =>
    have hempty : V'.tree.node (d ++ [n] ++ [m']) = none := by
      rw [h.others _ (by simp)]
      cases hx : V.tree.node (d ++ [n] ++ [m']) with
      | none => rfl
      | some x =>
        have hparent := V.tree.parent _ _ (by rw [hx]; rfl)
        rw [h.free] at hparent
        cases hparent
    have hwalk : V'.locate ((p.join [n]).join (m' :: ns)) = .error .notFound := by
      have := View.locate_append V' p.absolute (p.join [n]).parts ((m' :: ns).map .name)
      rw [show V'.locate ⟨p.absolute, (p.join [n]).parts⟩ = .ok (d ++ [n], k') from hnew] at this
      simpa [h.node, FileTree.walk_missing hempty, PathText.join] using this
    rw [hwalk] at hloc
    cases hloc

end Guarded

namespace View

variable [DecidableEq α] {B : List α}

/-- Elements of a path that are directories are passed over. -/
theorem createAlong_existing (V : View α) (absolute : Bool) (es rest : List (Component α))
    (done : List (Component α)) {d : List α} {k : ℕ}
    (h : V.locate ⟨absolute, done ++ es⟩ = .ok (d, k)) (hd : V.tree.node d = some .directory) :
    V.createAlong absolute done (es ++ rest) = V.createAlong absolute (done ++ es) rest := by
  induction es generalizing done with
  | nil => simp
  | cons c es ih =>
    have hsplit : done ++ c :: es = done ++ [c] ++ es := by simp
    rw [hsplit] at h
    have hdir : V.isDirectory ⟨absolute, done ++ [c]⟩ = .ok true := by
      rw [View.isDirectory_iff]
      by_cases hes : es = []
      · subst hes
        exact ⟨d, View.resolve_eq_ok.mpr ⟨by simp, k, by simpa using h⟩, hd⟩
      · obtain ⟨d', k', hpre, hd', -⟩ := View.locate_split h hes
        exact ⟨d', View.resolve_eq_ok.mpr ⟨by simp, k', hpre⟩, hd'⟩
    rw [List.cons_append, createAlong, createDirectory_of_isDirectory (by simp) hdir, hsplit]
    exact ih (done ++ [c]) h

/-- Only directories are made. -/
theorem createAlong_new (V : View α) (absolute : Bool) (done cs : List (Component α))
    {loc : List α} (h : (V.createAlong absolute done cs).view.tree.node loc ≠ V.tree.node loc) :
    (V.createAlong absolute done cs).view.tree.node loc = some .directory := by
  induction cs generalizing V done with
  | nil => exact absurd rfl h
  | cons c cs ih =>
    rw [createAlong] at h ⊢
    cases hc : V.createDirectory ⟨absolute, done ++ [c]⟩ with
    | error e =>
      rw [hc] at h
      exact absurd rfl h
    | ok made =>
      rw [hc] at h
      cases made with
      | none => exact ih V (done ++ [c]) h
      | some V' =>
        obtain ⟨d, n, hcreated⟩ := createDirectory_some hc
        dsimp only at h ⊢
        by_cases hsame : (V'.createAlong absolute (done ++ [c]) cs).view.tree.node loc =
            V'.tree.node loc
        · rw [hsame] at h ⊢
          by_cases hloc : loc = d ++ [n]
          · rw [hloc, hcreated.node]
          · exact absurd (hcreated.others loc hloc) h
        · exact ih V' (done ++ [c]) hsame

/-- Creating directories along guarded names stays below `B`, and guards the names that follow. -/
theorem createAlong_below (V : View α) (p : PathText α) (names tail : List α)
    (hg : Guarded B V p (names ++ tail)) :
    let r := V.createAlong p.absolute p.parts (names.map .name)
    Below B V r.view r.created ∧ (r.error = none → Guarded B r.view (p.join names) tail) := by
  induction names generalizing V p with
  | nil => exact ⟨Below.refl B V, fun _ => by simpa [createAlong] using hg⟩
  | cons n names ih =>
    have hpath : (⟨p.absolute, p.parts ++ [.name n]⟩ : PathText α) = p.join [n] := rfl
    simp only [List.map_cons, createAlong, hpath]
    cases hc : V.createDirectory (p.join [n]) with
    | error e => exact ⟨Below.refl B V, fun h => by cases h⟩
    | ok made =>
      cases made with
      | none =>
        have hrec := ih V (p.join [n]) hg.of_cons
        rw [PathText.join_join] at hrec
        exact hrec
      | some V' =>
        obtain ⟨d, n', hcreated⟩ := createDirectory_some hc
        obtain ⟨init, k, hparts, hinit⟩ := hcreated.path
        obtain ⟨rfl, hn⟩ := List.append_inj' (hparts : p.parts ++ [.name n] = _) rfl
        obtain rfl : n = n' := by simpa using hn
        have hB : B <+: d :=
          hg [] n (names ++ tail) rfl d k (by simpa using! hinit) hcreated.directory hcreated.free
        have hrec := ih V' (p.join [n]) (Guarded.of_created hcreated hB)
        rw [PathText.join_join] at hrec
        exact ⟨(Below.of_created hcreated (.inl rfl) hB).trans hrec.1, hrec.2⟩

end View

end Elykseer.Foundation
