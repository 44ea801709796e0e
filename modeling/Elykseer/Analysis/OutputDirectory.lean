import Elykseer.Model.Directories

/-!
# Restored files stay below the output directory

`contained_target` compares the canonical output directory with the canonical target,
as far as it exists.  If the first missing name of the target were missing outside of
the output directory, the output directory would itself be on the way to it, and the
name would not be missing; so all that is created on the way is created below
(`containedTarget_guarded`).  A link that leads nowhere is not followed by a creation.

Main results: `openTarget_contained` for one file and `openTargets_below` for all the
files of a run.
-/

set_option autoImplicit false

namespace Elykseer.Analysis

open Elykseer.Foundation Elykseer.Model

variable {V : View Bytes} {base : PathText Bytes} {B : List Bytes}

/-- The target of a file is a path below the output directory along which creation is guarded. -/
theorem containedTarget_guarded (hbase : V.resolve base = .ok B)
    (hdir : V.tree.node B = some .directory) {fname : Bytes} {fp : PathText Bytes}
    (h : containedTarget V base fname = .ok fp) :
    ∃ ns n, fp = base.join (ns ++ [n]) ∧ Guarded B V base (ns ++ [n]) := by
  unfold containedTarget at h
  split at h
  · cases h
  · cases h
  · next m ms hparts =>
    obtain ⟨ns, n, hns⟩ := (List.eq_nil_or_concat' (m :: ms)).resolve_left (by simp)
    rw [hns] at h
    split at h
    · next cbase ctarget hcbase hctarget =>
      dsimp only at h
      split at h
      · cases h
      · next hmismatch =>
        refine ⟨ns, n, (Except.ok.inj h).symm, ?_⟩
        intro es x tl hsplit d k hlocate hd hfree
        -- the target is missing from `x` on
        have hpre : V.resolve (base.join es) = .ok d := by
          obtain ⟨hne, -⟩ := View.resolve_eq_ok.mp hbase
          refine View.resolve_eq_ok.mpr ⟨?_, k, hlocate⟩
          cases hparts : base.parts <;> simp_all [PathText.join]
        have hmissing := View.weaklyCanonical_missing hpre hd hfree tl
        rw [PathText.join_join, ← hsplit, hctarget] at hmissing
        rw [View.weaklyCanonical_existing hbase] at hcbase
        obtain rfl := Except.ok.inj hcbase
        obtain rfl := Except.ok.inj hmissing
        rw [not_or, not_not] at hmismatch
        obtain ⟨hB, hne⟩ := (mismatch_ofLocation B (d ++ x :: tl)).mp hmismatch
        rcases List.prefix_or_prefix_of_prefix hB (List.prefix_append d (x :: tl)) with h | h
        · exact h
        · obtain ⟨bs, rfl⟩ := h
          cases bs with
          | nil => simp
          | cons b bs =>
            -- `x` would lead to the output directory
            obtain ⟨rfl, -⟩ := List.cons_prefix_cons.mp ((List.prefix_append_right_inj d).mp hB)
            have hx : V.tree.node (d ++ [b]) = some .directory :=
              FileTree.directory_above ⟨bs, by simp⟩ hdir
            rw [hx] at hfree
            cases hfree
    · cases h

/-- The parent directories of a target are made below the output directory. -/
theorem createParents_below (hbase : V.resolve base = .ok B)
    (hdir : V.tree.node B = some .directory) {ns tail : List Bytes}
    (hg : Guarded B V base (ns ++ tail)) :
    let r := createParents V (base.join ns)
    Below B V r.view r.created ∧ (r.error = none → Guarded B r.view (base.join ns) tail) := by
  intro r
  unfold r createParents
  split
  · exact ⟨Below.refl B V, fun h => by cases h⟩
  · exact ⟨Below.refl B V, fun _ => hg.of_append ns⟩
  · obtain ⟨-, k, hlocate⟩ := View.resolve_eq_ok.mp hbase
    have hskip : V.createDirectories (base.join ns) =
        V.createAlong base.absolute base.parts (ns.map .name) := by
      have := V.createAlong_existing base.absolute base.parts (ns.map .name) []
        (by simpa using! hlocate) hdir
      simpa [View.createDirectories, PathText.join] using this
    rw [hskip]
    exact V.createAlong_below base ns tail hg

/-- What is created for one file is new and below the output directory, and so is the file that is
opened. -/
theorem openTarget_below (hbase : V.resolve base = .ok B)
    (hdir : V.tree.node B = some .directory) (fname : Bytes) (hasBlocks : Bool) :
    let r := openTarget V base fname hasBlocks
    Below B V r.view r.created ∧
      ∀ loc, r.opened = some loc → ∃ fp ∈ r.created, r.view.resolve fp = .ok loc := by
  intro r
  unfold r openTarget
  split
  · exact ⟨Below.refl B V, by simp⟩
  · next fp htarget =>
    obtain ⟨ns, n, rfl, hg⟩ := containedTarget_guarded hbase hdir htarget
    have hparent : parentPath (base.join (ns ++ [n])) = base.join ns := by
      simp [parentPath, PathText.join]
    obtain ⟨hdirs, hguarded⟩ := createParents_below hbase hdir hg
    rw [hparent]
    generalize createParents V (base.join ns) = dirs at hdirs hguarded
    dsimp only
    split
    · exact ⟨hdirs, by simp⟩
    · next hnone =>
      split
      · split
        · exact ⟨hdirs, by simp⟩
        · next loc V' hcreate =>
          obtain ⟨d, n', rfl, hcreated⟩ := View.create_spec hcreate
          obtain ⟨init, k, hparts, hinit⟩ := hcreated.path
          have hjoin : (base.join (ns ++ [n])).parts = (base.join ns).parts ++ [.name n] := by
            simp [PathText.join]
          obtain ⟨rfl, hn⟩ := List.append_inj' (hjoin.symm.trans hparts) rfl
          obtain rfl : n = n' := by simpa using hn
          have hB : B <+: d := by
            refine hguarded hnone [] n [] rfl d k ?_ hcreated.directory hcreated.free
            rw [PathText.join_nil]
            exact hinit
          refine ⟨hdirs.trans (Below.of_created hcreated (.inr rfl) hB), ?_⟩
          rintro loc h
          obtain rfl := Option.some.inj h
          exact ⟨_, by simp, hcreated.resolve (.inr rfl)⟩
      · exact ⟨hdirs, by simp⟩

/-- Every directory and file created for a restored file resolves to a location strictly below the
resolved output directory at which there was nothing before; nothing else in the tree changes,
and the file that is opened for writing is new. -/
theorem openTarget_contained (V : View Bytes) (base : PathText Bytes) (B : List Bytes)
    (hbase : V.resolve base = .ok B) (hdir : V.tree.node B = some .directory) (fname : Bytes)
    (hasBlocks : Bool) :
    let r := openTarget V base fname hasBlocks
    r.view.resolve base = .ok B ∧
      (∀ p ∈ r.created, ∃ loc, r.view.resolve p = .ok loc ∧ V.tree.node loc = none ∧
        B <+: loc ∧ B ≠ loc) ∧
      (∀ loc, r.view.tree.node loc ≠ V.tree.node loc →
        ∃ p ∈ r.created, r.view.resolve p = .ok loc) ∧
      ∀ loc, r.opened = some loc → V.tree.node loc = none ∧ B <+: loc ∧ B ≠ loc := by
  intro r
  obtain ⟨hbelow, hopened⟩ := openTarget_below hbase hdir fname hasBlocks
  refine ⟨hbelow.resolve hbase, hbelow.below, hbelow.new, fun loc h => ?_⟩
  obtain ⟨p, hp, hr⟩ := hopened loc h
  obtain ⟨loc', hr', hrest⟩ := hbelow.below p hp
  obtain rfl : loc = loc' := Except.ok.inj (hr.symm.trans hr')
  exact hrest

/-- An output directory `/o`, with a link `/o/l` to the root directory. -/
def outputView : View Bytes where
  tree := ((FileTree.bare Bytes).insert [] [111] .directory rfl (by decide)).insert [[111]] [108]
    (.link ⟨true, []⟩) (by decide) (by decide)
  cwd := []
  cwd_directory := by decide
  maxLinks := 40

/-- An absolute name is restored below the output directory of the sample. -/
theorem openTarget_contained_outputView :
    let r := openTarget outputView ⟨true, [.name [111]]⟩ [47, 97, 47, 98] true
    r.opened = some [[111], [97], [98]] ∧
      ∀ loc, r.opened = some loc → outputView.tree.node loc = none ∧ [[111]] <+: loc ∧
        [[111]] ≠ loc :=
  ⟨by decide, (openTarget_contained outputView ⟨true, [.name [111]]⟩ [[111]] (by decide)
    (by decide) [47, 97, 47, 98] true).2.2.2⟩

/-- The link out of the output directory is refused. -/
example : containedTarget outputView ⟨true, [.name [111]]⟩ [108, 47, 97] = .error .outside := by
  decide

/-! ## A whole run -/

/-- Over all files of a run, what is created is below the output directory, and every file that is
opened is new and opened once. -/
theorem openTargets_below (hbase : V.resolve base = .ok B)
    (hdir : V.tree.node B = some .directory) (files : List (Bytes × Bool)) :
    let r := openTargets base V files
    Below B V r.view r.created ∧
      (∀ loc ∈ r.opened, ∃ fp ∈ r.created, r.view.resolve fp = .ok loc) ∧ r.opened.Nodup := by
  induction files generalizing V with
  | nil => exact ⟨Below.refl B V, by simp [openTargets], by simp [openTargets]⟩
  | cons file files ih =>
    obtain ⟨fname, hasBlocks⟩ := file
    obtain ⟨hbelow, hopened⟩ := openTarget_below hbase hdir fname hasBlocks
    dsimp only [openTargets]
    generalize openTarget V base fname hasBlocks = r at hbelow hopened
    split
    · refine ⟨hbelow, fun loc h => hopened loc (by simpa using h), ?_⟩
      cases r.opened <;> simp
    · have hrec := ih (hbelow.resolve hbase) (hbelow.keeps _ _ hdir)
      generalize openTargets base r.view files = s at hrec
      obtain ⟨hbelow', hopened', hnodup⟩ := hrec
      refine ⟨hbelow.trans hbelow', fun loc h => ?_, ?_⟩
      · rcases List.mem_append.mp h with h | h
        · obtain ⟨p, hp, hr⟩ := hopened loc (by simpa using h)
          exact ⟨p, List.mem_append_left _ hp, hbelow'.resolve hr⟩
        · obtain ⟨p, hp, hr⟩ := hopened' loc h
          exact ⟨p, List.mem_append_right _ hp, hr⟩
      · refine List.nodup_append.mpr ⟨by cases r.opened <;> simp, hnodup, ?_⟩
        rintro loc h loc' h' rfl
        -- a file opened before is there, and no later creation takes its place
        obtain ⟨p, hp, hr⟩ := hopened loc (by simpa using h)
        obtain ⟨q, hq, hr'⟩ := hopened' loc h'
        obtain ⟨loc', hloc', hfree, -⟩ := hbelow'.below q hq
        obtain rfl : loc = loc' := Except.ok.inj (hr'.symm.trans hloc')
        obtain ⟨node, hnode, -⟩ := View.resolve_node hr
        rw [hfree] at hnode
        cases hnode

end Elykseer.Analysis
