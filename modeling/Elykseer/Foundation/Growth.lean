import Elykseer.Foundation.Filesystem

/-!
# What a list of files makes of an empty directory

`grown files` is the tree that consists of the given files and the directories they
need.  It is well defined when no file stands on the way to another (`Apart`).  Where a
view agrees with it below a directory (`GrownFrom`) there are no links: a name leads
where it says, missing directories can be made (`createAlong_grown`), and a file apart
from the others is made next to them (`GrownFrom.concat`).
-/

set_option autoImplicit false

namespace Elykseer.Foundation

variable {α : Type}

/-- Neither of two locations stands on the way to the other. -/
def Apart (p q : List α) : Prop := ¬ p <+: q ∧ ¬ q <+: p

/-- Being apart goes both ways. -/
theorem Apart.symm {p q : List α} (h : Apart p q) : Apart q p := ⟨h.2, h.1⟩

section Grown

variable [DecidableEq α]

instance (p q : List α) : Decidable (Apart p q) := inferInstanceAs (Decidable (_ ∧ _))

/-- What is at a location of the tree that consists of some files and the directories on the way to
them. -/
def grown (files : List (List α)) (q : List α) : Option (Node α) :=
  if q ∈ files then some .regular
  else if ∃ f ∈ files, q <+: f then some .directory
  else none

variable {files : List (List α)} {f q : List α}

/-- The last file is there. -/
theorem grown_concat_self : grown (files ++ [f]) f = some .regular := by
  simp [grown]

/-- A location on the way to a new file becomes a directory. -/
theorem grown_concat_above (h : ∀ g ∈ files, Apart g f) (hq : q <+: f) (hne : q ≠ f) :
    grown (files ++ [f]) q = some .directory := by
  have hnot : q ∉ files ++ [f] := by
    rw [List.mem_append, List.mem_singleton]
    rintro (hmem | rfl)
    · exact (h q hmem).1 hq
    · exact hne rfl
  rw [grown, if_neg hnot, if_pos ⟨f, by simp, hq⟩]

/-- One more file changes nothing that is not above it. -/
theorem grown_concat_of_not_above (hq : ¬ q <+: f) : grown (files ++ [f]) q = grown files q := by
  have hne : q ≠ f := by
    rintro rfl
    exact hq (List.prefix_refl q)
  simp [grown, hne, hq, or_and_right, exists_or]

/-- On the way to a new file there are directories or nothing. -/
theorem grown_above (h : ∀ g ∈ files, Apart g f) (hq : q <+: f) :
    grown files q = none ∨ grown files q = some .directory := by
  have hnot : q ∉ files := fun hmem => (h q hmem).1 hq
  rw [grown, if_neg hnot]
  split
  · exact .inr rfl
  · exact .inl rfl

/-- Nothing is at a location that is apart from all files. -/
theorem grown_apart (h : ∀ g ∈ files, Apart g f) : grown files f = none := by
  have hnot : f ∉ files := fun hmem => (h f hmem).1 (List.prefix_refl f)
  rw [grown, if_neg hnot, if_neg]
  rintro ⟨g, hg, hpre⟩
  exact (h g hg).2 hpre

end Grown

/-! ## Creation where there are no links -/

namespace View

variable {V V' : View α} {p : PathText α} {d : List α} {k : ℕ} {n : α}

/-- A name that is a directory can be followed. -/
theorem locate_join (h : V.locate p = .ok (d, k)) (hd : V.tree.node d = some .directory)
    (hn : V.tree.node (d ++ [n]) = some .directory) :
    V.locate (p.join [n]) = .ok (d ++ [n], k) := by
  have hconcat : V.locate (p.join [n]) = V.tree.walk k d [.name n] :=
    locate_concat h hd (.name n)
  rwa [FileTree.walk_directory hn, FileTree.walk_nil] at hconcat

/-- A path through directories. -/
theorem locate_names (h : V.locate p = .ok (d, k)) {names : List α}
    (hnames : ∀ q, q <+: names → V.tree.node (d ++ q) = some .directory) :
    V.locate (p.join names) = .ok (d ++ names, k) := by
  induction names generalizing p d with
  | nil => simpa using h
  | cons n names ih =>
    have hd := hnames [] List.nil_prefix
    rw [List.append_nil] at hd
    have hn := hnames [n] (List.cons_prefix_cons.mpr ⟨rfl, List.nil_prefix⟩)
    have hrec := ih (locate_join h hd hn) fun q hq => by
      simpa using hnames (n :: q) (List.cons_prefix_cons.mpr ⟨rfl, hq⟩)
    simpa using hrec

/-- A name that is missing in a directory can be taken. -/
theorem create_join [DecidableEq α] (h : V.locate p = .ok (d, k))
    (hd : V.tree.node d = some .directory) (hn : V.tree.node (d ++ [n]) = none) (node : Node α) :
    ∃ V', V.create (p.join [n]) node = .ok (d ++ [n], V') ∧ Created V (p.join [n]) node d n V' := by
  have hcreate : ∃ V', V.create (p.join [n]) node = .ok (d ++ [n], V') := by
    have hinit : V.locate { p.join [n] with parts := (p.join [n]).parts.dropLast } = .ok (d, k) := by
      simpa [PathText.join] using h
    have hlast : (p.join [n]).parts.getLast? = some (.name n) := by simp [PathText.join]
    unfold create
    rw [hinit, hlast]
    simp [hd, hn]
  obtain ⟨V', hV'⟩ := hcreate
  obtain ⟨d', n', hloc, hcreated⟩ := create_spec hV'
  obtain ⟨rfl, hn'⟩ := List.append_inj' hloc rfl
  obtain rfl : n = n' := by simpa using hn'
  exact ⟨V', hV', hcreated⟩

end View

/-- Where the first name of a path is missing. -/
theorem FileTree.exists_missing {T : FileTree α} {d names : List α}
    (hd : T.node d = some .directory)
    (hfree : ∀ q, q <+: names → T.node (d ++ q) = none ∨ T.node (d ++ q) = some .directory)
    (hlast : T.node (d ++ names) = none) :
    ∃ es x tl, names = es ++ x :: tl ∧ (∀ q, q <+: es → T.node (d ++ q) = some .directory) ∧
      T.node (d ++ es ++ [x]) = none := by
  induction names generalizing d with
  | nil =>
    rw [List.append_nil, hd] at hlast
    cases hlast
  | cons n names ih =>
    rcases hfree [n] (List.cons_prefix_cons.mpr ⟨rfl, List.nil_prefix⟩) with hn | hn
    · refine ⟨[], n, names, rfl, fun q hq => ?_, by simpa using hn⟩
      rw [List.prefix_nil.mp hq, List.append_nil, hd]
    · have hbelow : ∀ q, q <+: names → T.node (d ++ [n] ++ q) = none ∨
          T.node (d ++ [n] ++ q) = some .directory := by
        intro q hq
        simpa using hfree (n :: q) (List.cons_prefix_cons.mpr ⟨rfl, hq⟩)
      obtain ⟨es, x, tl, rfl, hes, hx⟩ := ih hn hbelow (by simpa using hlast)
      refine ⟨n :: es, x, tl, rfl, fun q hq => ?_, by simpa using hx⟩
      rcases List.prefix_cons_iff.mp hq with rfl | ⟨q, rfl, hpre⟩
      · rw [List.append_nil, hd]
      · simpa using hes q hpre

/-- `names` have been made directories below `d`, and nothing else has changed. -/
structure MadeAlong (d names : List α) (V V' : View α) : Prop where
  keeps : FileTree.Extends V.tree V'.tree
  cwd : V'.cwd = V.cwd
  maxLinks : V'.maxLinks = V.maxLinks
  along : ∀ q, q <+: names → V'.tree.node (d ++ q) = some .directory
  others : ∀ loc, (∀ q, q <+: names → loc ≠ d ++ q) → V'.tree.node loc = V.tree.node loc

namespace MadeAlong

variable {V V₁ V' : View α} {d names : List α} {n : α}

/-- Nothing has been made yet. -/
theorem nil (hd : V.tree.node d = some .directory) : MadeAlong d [] V V where
  keeps := FileTree.Extends.refl _
  cwd := rfl
  maxLinks := rfl
  along := by
    intro q hq
    rw [List.prefix_nil.mp hq, List.append_nil, hd]
  others := fun loc _ => rfl

/-- The first name may be a directory already. -/
theorem cons_existing (h : MadeAlong (d ++ [n]) names V V') (hd : V.tree.node d = some .directory) :
    MadeAlong d (n :: names) V V' where
  keeps := h.keeps
  cwd := h.cwd
  maxLinks := h.maxLinks
  along := by
    intro q hq
    rcases List.prefix_cons_iff.mp hq with rfl | ⟨q, rfl, hpre⟩
    · rw [List.append_nil]
      exact h.keeps _ _ hd
    · simpa using h.along q hpre
  others := by
    intro loc hloc
    refine h.others loc fun q hq => ?_
    simpa using hloc (n :: q) (List.cons_prefix_cons.mpr ⟨rfl, hq⟩)

/-- The first name may just have been made a directory. -/
theorem cons_created {p : PathText α} (hcreated : Created V p .directory d n V₁)
    (h : MadeAlong (d ++ [n]) names V₁ V') : MadeAlong d (n :: names) V V' where
  keeps := hcreated.keeps.trans h.keeps
  cwd := h.cwd.trans hcreated.cwd
  maxLinks := h.maxLinks.trans hcreated.maxLinks
  along := (h.cons_existing (hcreated.keeps _ _ hcreated.directory)).along
  others := by
    intro loc hloc
    have hne : loc ≠ d ++ [n] := hloc [n] (List.cons_prefix_cons.mpr ⟨rfl, List.nil_prefix⟩)
    rw [(h.cons_existing (hcreated.keeps _ _ hcreated.directory)).others loc hloc,
      hcreated.others loc hne]

end MadeAlong

/-- Directories are made along names that are free or taken by directories. -/
theorem View.createAlong_grown [DecidableEq α] (V : View α) (p : PathText α) {d : List α} {k : ℕ}
    (h : V.locate p = .ok (d, k)) (hd : V.tree.node d = some .directory) (names : List α)
    (hfree : ∀ q, q <+: names → V.tree.node (d ++ q) = none ∨
      V.tree.node (d ++ q) = some .directory) :
    let r := V.createAlong p.absolute p.parts (names.map .name)
    r.error = none ∧ MadeAlong d names V r.view := by
  induction names generalizing V p d with
  | nil => exact ⟨rfl, MadeAlong.nil hd⟩
  | cons n names ih =>
    have hpath : (⟨p.absolute, p.parts ++ [.name n]⟩ : PathText α) = p.join [n] := rfl
    simp only [List.map_cons, createAlong, hpath]
    have hbelow : ∀ q, q <+: names → V.tree.node (d ++ [n] ++ q) = none ∨
        V.tree.node (d ++ [n] ++ q) = some .directory := by
      intro q hq
      simpa using hfree (n :: q) (List.cons_prefix_cons.mpr ⟨rfl, hq⟩)
    rcases hfree [n] (List.cons_prefix_cons.mpr ⟨rfl, List.nil_prefix⟩) with hn | hn
    · obtain ⟨V', hcreate, hcreated⟩ := View.create_join h hd hn .directory
      have hmade : V.createDirectory (p.join [n]) = .ok (some V') := by
        unfold View.createDirectory
        rw [hcreate]
      rw [hmade]
      have hd' := hcreated.keeps _ _ hd
      have hloc := View.locate_extends hcreated.keeps hcreated.cwd hcreated.maxLinks h
      have hrec := ih V' (p.join [n]) (View.locate_join hloc hd' hcreated.node) hcreated.node
        fun q hq => by
          by_cases hq' : q = []
          · rw [hq', List.append_nil]
            exact .inr hcreated.node
          · rw [hcreated.others _ (by simpa using hq')]
            exact hbelow q hq
      exact ⟨hrec.1, hrec.2.cons_created hcreated⟩
    · have hloc := View.locate_join h hd hn
      have hmade : V.createDirectory (p.join [n]) = .ok none := by
        apply View.createDirectory_of_isDirectory (by simp [PathText.join])
        exact View.isDirectory_of_resolve
          (View.resolve_eq_ok.mpr ⟨by simp [PathText.join], k, hloc⟩) hn
      rw [hmade]
      have hrec := ih V (p.join [n]) hloc hn hbelow
      exact ⟨hrec.1, hrec.2.cons_existing hd⟩

/-- The names can be followed afterwards. -/
theorem MadeAlong.locate {V V' : View α} {p : PathText α} {d names : List α} {k : ℕ}
    (h : MadeAlong d names V V') (hp : V.locate p = .ok (d, k)) :
    V'.locate (p.join names) = .ok (d ++ names, k) :=
  View.locate_names (View.locate_extends h.keeps h.cwd h.maxLinks hp) h.along

/-! ## Views that agree with a list of files -/

/-- Below `B` a view has what some files make of an empty directory; elsewhere it is `V₀`. -/
structure GrownFrom [DecidableEq α] (B : List α) (V₀ V : View α) (files : List (List α)) :
    Prop where
  keeps : FileTree.Extends V₀.tree V.tree
  cwd : V.cwd = V₀.cwd
  maxLinks : V.maxLinks = V₀.maxLinks
  below : ∀ q, q ≠ [] → V.tree.node (B ++ q) = grown files q
  outside : ∀ loc, ¬ B <+: loc → V.tree.node loc = V₀.tree.node loc

namespace GrownFrom

variable [DecidableEq α] {B : List α} {V₀ V V₁ V' : View α} {files : List (List α)}

/-- An empty directory. -/
theorem start (hempty : ∀ n, V₀.tree.node (B ++ [n]) = none) : GrownFrom B V₀ V₀ [] where
  keeps := FileTree.Extends.refl _
  cwd := rfl
  maxLinks := rfl
  below := by
    intro q hq
    obtain ⟨n, q, rfl⟩ := List.exists_cons_of_ne_nil hq
    cases hnode : V₀.tree.node (B ++ n :: q) with
    | none => simp [grown]
    | some x =>
      have habove : B ++ [n] <+: B ++ n :: q := ⟨q, by simp⟩
      by_cases hnil : q = []
      · subst hnil
        rw [hempty n] at hnode
        cases hnode
      · have hdir := FileTree.node_above habove (by simpa using Ne.symm hnil) (by rw [hnode]; rfl)
        rw [hempty n] at hdir
        cases hdir
  outside := fun _ _ => rfl

/-- On the way to a file apart from the others there are directories or nothing. -/
theorem above (h : GrownFrom B V₀ V files) (hB : V₀.tree.node B = some .directory) {f : List α}
    (hf : ∀ g ∈ files, Apart g f) {q : List α} (hq : q <+: f) :
    V.tree.node (B ++ q) = none ∨ V.tree.node (B ++ q) = some .directory := by
  by_cases hnil : q = []
  · rw [hnil, List.append_nil]
    exact .inr (h.keeps _ _ hB)
  · rw [h.below q hnil]
    exact grown_above hf hq

/-- A new file apart from the others, with the directories on the way to it. -/
theorem concat (h : GrownFrom B V₀ V files) {names : List α} {n : α}
    (hf : ∀ g ∈ files, Apart g (names ++ [n])) (hmade : MadeAlong B names V V₁) {p : PathText α}
    (hcreated : Created V₁ p .regular (B ++ names) n V') :
    GrownFrom B V₀ V' (files ++ [names ++ [n]]) where
  keeps := h.keeps.trans (hmade.keeps.trans hcreated.keeps)
  cwd := hcreated.cwd.trans (hmade.cwd.trans h.cwd)
  maxLinks := hcreated.maxLinks.trans (hmade.maxLinks.trans h.maxLinks)
  below := by
    intro q hnil
    by_cases hself : q = names ++ [n]
    · rw [hself, grown_concat_self, ← List.append_assoc, hcreated.node]
    · rw [hcreated.others _ (by simpa using hself)]
      by_cases hq : q <+: names ++ [n]
      · rw [grown_concat_above hf hq hself]
        exact hmade.along q ((List.prefix_concat_iff.mp hq).resolve_left hself)
      · rw [grown_concat_of_not_above hq, ← h.below q hnil]
        refine hmade.others _ fun q' hq' heq => hq ?_
        rw [List.append_cancel_left heq]
        exact hq'.trans (List.prefix_append names [n])
  outside := by
    intro loc hloc
    have hne : ∀ q, loc ≠ B ++ q := by
      rintro q rfl
      exact hloc (List.prefix_append B q)
    rw [hcreated.others loc (by simpa using hne (names ++ [n])),
      hmade.others loc fun q _ => hne q, h.outside loc hloc]

end GrownFrom

/-- Where there are no links, a name leads where it says. -/
theorem FileTree.walk_names {T : FileTree α} {links k : ℕ} {d loc : List α} {names : List α}
    (hlinks : ∀ q t, q <+: names → T.node (d ++ q) ≠ some (.link t))
    (h : T.walk links d (names.map .name) = .ok (loc, k)) : loc = d ++ names := by
  induction names generalizing d with
  | nil =>
    obtain ⟨rfl, -⟩ : d = loc ∧ links = k := by simpa using h
    simp
  | cons n names ih =>
    have hn := hlinks [n]
    rw [List.map_cons] at h
    cases hnode : T.node (d ++ [n]) with
    | none =>
      rw [walk_missing hnode] at h
      cases h
    | some node =>
      cases node with
      | directory =>
        rw [walk_directory hnode] at h
        rw [ih (fun q t hq => by simpa using hlinks (n :: q) t (List.cons_prefix_cons.mpr ⟨rfl, hq⟩))
          h]
        simp
      | link t => exact absurd hnode (hn t (List.cons_prefix_cons.mpr ⟨rfl, List.nil_prefix⟩))
      | regular =>
        rw [walk_file hnode (.inl rfl)] at h
        cases names with
        | nil =>
          obtain ⟨rfl, -⟩ : d ++ [n] = loc ∧ links = k := by simpa using h
          rfl
        | cons m names => cases h
      | special =>
        rw [walk_file hnode (.inr rfl)] at h
        cases names with
        | nil =>
          obtain ⟨rfl, -⟩ : d ++ [n] = loc ∧ links = k := by simpa using h
          rfl
        | cons m names => cases h

end Elykseer.Foundation
