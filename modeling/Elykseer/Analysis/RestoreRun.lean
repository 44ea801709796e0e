import Elykseer.Analysis.OutputDirectory
import Elykseer.Analysis.RestoreFile
import Elykseer.Model.ToolRuns

/-!
# Whole runs of `LXRrestore` and `LXRverify`

`Round` lists what one round of the main loop of `LXRrestore` can do, `RunInv` is what
holds between two rounds: everything that was in the file tree is unchanged, and what
is new is a directory or a file with all its blocks.

Main results: `lxrRestore_output` for the output and the exit status of a run,
`lxrVerify_iff` for what `LXRverify` accepts, and `lxrRestore_of_verified`: what has been
verified fails to be restored only where its target cannot be created.
-/

set_option autoImplicit false

namespace Elykseer.Analysis

open Elykseer.Foundation Elykseer.Model

variable {C : Crypto} {H : Host} {cfg : CoqConfiguration} {V : View Bytes}
  {base : PathText Bytes} {B : List Bytes}

/-! ## Opening a target -/

/-- Where `createParents` changes the tree, there is a directory afterwards. -/
theorem createParents_new {dir : PathText Bytes} {loc : List Bytes}
    (h : (createParents V dir).view.tree.node loc ≠ V.tree.node loc) :
    (createParents V dir).view.tree.node loc = some .directory := by
  unfold createParents at h ⊢
  split at h
  · exact absurd rfl h
  · exact absurd rfl h
  · exact View.createAlong_new V _ _ _ h

/-- The ways `openTarget` ends. -/
theorem openTarget_cases (V : View Bytes) (base : PathText Bytes) (fname : Bytes)
    (hasBlocks : Bool) :
    openTarget V base fname hasBlocks = ⟨V, [], none, none⟩ ∨
      ∃ fp, containedTarget V base fname = .ok fp ∧
        let dirs := createParents V (parentPath fp)
        (∃ e, openTarget V base fname hasBlocks = ⟨dirs.view, dirs.created, none, some e⟩) ∨
        openTarget V base fname hasBlocks = ⟨dirs.view, dirs.created, none, none⟩ ∨
        ∃ loc V', dirs.view.create fp .regular = .ok (loc, V') ∧
          openTarget V base fname hasBlocks = ⟨V', dirs.created ++ [fp], some loc, none⟩ := by
  unfold openTarget
  cases htarget : containedTarget V base fname with
  | error e => exact .inl rfl
  | ok fp =>
    refine .inr ⟨fp, rfl, ?_⟩
    dsimp only
    cases herror : (createParents V (parentPath fp)).error with
    | some e => exact .inl ⟨e, rfl⟩
    | none =>
      right
      cases hasBlocks with
      | false => exact .inl rfl
      | true =>
        dsimp only [if_true]
        cases hcreate : (createParents V (parentPath fp)).view.create fp .regular with
        | error e => exact .inl rfl
        | ok r => exact .inr ⟨r.1, r.2, rfl, rfl⟩

/-- What has been done before the target was opened. -/
theorem openTarget_opened {fname : Bytes} {hasBlocks : Bool} {loc : List Bytes}
    (h : (openTarget V base fname hasBlocks).opened = some loc) :
    ∃ fp, containedTarget V base fname = .ok fp ∧
      (createParents V (parentPath fp)).view.create fp .regular =
        .ok (loc, (openTarget V base fname hasBlocks).view) := by
  rcases openTarget_cases V base fname hasBlocks with
    hr | ⟨fp, htarget, ⟨e, hr⟩ | hr | ⟨loc', V', hcreate, hr⟩⟩ <;> rw [hr] at h ⊢
  · cases h
  · cases h
  · cases h
  · obtain rfl := Option.some.inj h
    exact ⟨fp, htarget, hcreate⟩

/-- What is new is a directory or the file that is open. -/
theorem openTarget_new {fname : Bytes} {hasBlocks : Bool} {loc : List Bytes}
    (h : (openTarget V base fname hasBlocks).view.tree.node loc ≠ V.tree.node loc) :
    (openTarget V base fname hasBlocks).view.tree.node loc = some .directory ∨
      (openTarget V base fname hasBlocks).opened = some loc := by
  rcases openTarget_cases V base fname hasBlocks with
    hr | ⟨fp, htarget, ⟨e, hr⟩ | hr | ⟨loc', V', hcreate, hr⟩⟩ <;> rw [hr] at h ⊢
  · exact absurd rfl h
  · exact .inl (createParents_new h)
  · exact .inl (createParents_new h)
  · obtain ⟨d, n, rfl, hcreated⟩ := View.create_spec hcreate
    by_cases hloc : loc = d ++ [n]
    · exact .inr (by rw [hloc])
    · left
      dsimp only at h ⊢
      rw [hcreated.others loc hloc] at h ⊢
      exact createParents_new h

/-! ## One round -/

/-- The session goes on with another file. -/
structure Continues (C : Crypto) (s s' : Session cfg) : Prop where
  ready : Ready C s'
  reads : ReadOnly s s'
  queue : s'.cache.readqueue = []

/-- All blocks of a list can be restored. -/
def Complete (C : Crypto) (s : Session cfg) (fbs : List BlockInformation) : Prop :=
  ∀ bi ∈ fbs, (restoreAlone C s bi).isSome = true

/-- Restoring some blocks does not change which block lists are complete. -/
theorem Continues.complete_iff (hC : C.HexLawful) {s s' : Session cfg} (h : Continues C s s')
    (fbs : List BlockInformation) : Complete C s' fbs ↔ Complete C s fbs := by
  simp only [Complete, h.reads.restoreAlone_eq hC]

/-- A list of blocks that the counters can count and `fseek` can seek. -/
structure Countable (fbs : List BlockInformation) : Prop where
  count : fbs.length < 4294967296
  seek : ∀ bi ∈ fbs, bi.filepos < 9223372036854775808

/-- The counters tell whether a block is missing: they count all blocks, or none is missing. -/
structure Judged (C : Crypto) (s : Session cfg) (fbs : List BlockInformation) : Prop where
  count : fbs.length < 4294967296 ∨ Complete C s fbs
  seek : ∀ bi ∈ fbs, bi.filepos < 9223372036854775808

/-- A block list with fewer than `2^32` blocks is judged correctly. -/
theorem Countable.judged {fbs : List BlockInformation} (h : Countable fbs) (s : Session cfg) :
    Judged C s fbs :=
  ⟨.inl h.count, h.seek⟩

/-- Restoring some blocks does not change which block lists are judged correctly. -/
theorem Continues.judged (hC : C.HexLawful) {s s' : Session cfg} (h : Continues C s s')
    {fbs : List BlockInformation} (hfbs : Judged C s fbs) : Judged C s' fbs :=
  ⟨hfbs.count.imp_right (h.complete_iff hC fbs).mpr, hfbs.seek⟩

/-- The blocks of one file: the counters tell whether one is missing, and if none is, the file has
the bytes of all. -/
theorem readBlocks_restore (hC : C.HexLawful) {s : Session cfg} (h : Ready C s)
    (hq : s.cache.readqueue = []) {fbs : List BlockInformation} (hfbs : Judged C s fbs) :
    ∃ s' st, s.readBlocks C H RestoreState.processReadBlocks RestoreState.expect
        RestoreState.init fbs = .ok (s', st) ∧ Continues C s s' ∧
      (st.isOk = true ↔ Complete C s fbs) ∧
      (Complete C s fbs → st.tgt.content = Overlay.overlay 0 (naivePieces C s fbs)) := by
  obtain ⟨s', st, hloop, hready, hro, hq', hst⟩ := readBlocks_tracks (H := H) hC
    (T := RestoreTracks) (P := fun bi => bi.filepos < 9223372036854775808)
    (fun st bs ps bi h => h.expect bi) (fun st bs ps q hP h => h.processReadBlocks hP)
    (ReadOnly.refl s) h (q := []) [] [] hq (by simpa using hfbs.seek)
    restoreTracks_init
  have hcomplete : Complete C s fbs → st.isOk = true ∧ st.tgt.content =
      Overlay.overlay 0 (naivePieces C s fbs) :=
    fun hall => hst.complete ((missing_eq_zero_iff s fbs).mpr hall)
  refine ⟨s', st, hloop, ⟨hready, hro, hq'⟩, ?_, fun hall => (hcomplete hall).2⟩
  rcases hfbs.count with hcount | hall
  · exact hst.isOk_iff hcount
  · exact iff_of_true (hcomplete hall).1 hall

/-- What one round of the main loop does with a file that has the blocks `fbs`. -/
inductive Round (C : Crypto) (base : PathText Bytes) (fname : Bytes) (fbs : List BlockInformation)
    (st : RestoreRun cfg) : RestoreRun cfg → Option Abort → Prop
  /-- a parent directory cannot be made -/
  | exception (e : Errno) (h : (openTarget st.view base fname true).exception = some e) :
      Round C base fname fbs st { st with view := (openTarget st.view base fname true).view }
        (some (.filesystemError e))
  /-- the target is refused, or cannot be created -/
  | refused (h : (openTarget st.view base fname true).exception = none)
      (hopened : (openTarget st.view base fname true).opened = none) :
      Round C base fname fbs st
        { st with
          view := (openTarget st.view base fname true).view
          failedFiles := st.failedFiles + 1 } none
  /-- all blocks are restored -/
  | kept (loc : List Bytes) (s' : Session cfg)
      (hopened : (openTarget st.view base fname true).opened = some loc)
      (hs : Continues C st.session s') (hall : Complete C st.session fbs) :
      Round C base fname fbs st
        ⟨s', (openTarget st.view base fname true).view, Function.update st.content loc
          (Overlay.overlay 0 (naivePieces C st.session fbs)), st.failedFiles⟩ none
  /-- a block is missing, and the file is removed -/
  | removed (loc : List Bytes) (s' : Session cfg) (d : Bytes) (fp : PathText Bytes)
      (hopened : (openTarget st.view base fname true).opened = some loc)
      (htarget : containedTarget st.view base fname = .ok fp)
      (hs : Continues C st.session s') (hmissing : ¬ Complete C st.session fbs) :
      Round C base fname fbs st
        ⟨s', (createParents st.view (parentPath fp)).view, Function.update st.content loc d,
          st.failedFiles + 1⟩ none

/-- Restoring one name, for which there is a block list, is a round. -/
theorem restoreName_round (hC : C.HexLawful) (H : Host) (base : PathText Bytes)
    {st : RestoreRun cfg} (h : Ready C st.session) (hq : st.session.cache.readqueue = [])
    {fname : Bytes} (hname : fname ≠ []) {fbs : List BlockInformation}
    (hfind : CoqStore.find st.session.cache.fblockstore (fileHash C fname cfg.myId) = some fbs)
    (hfbs : Judged C st.session fbs) :
    Round C base fname fbs st (st.restoreName C H base fname).1
      (st.restoreName C H base fname).2 := by
  unfold RestoreRun.restoreName
  rw [if_neg hname]
  cases htarget : containedTarget st.view base fname with
  | error e =>
    have hopen : openTarget st.view base fname true = ⟨st.view, [], none, none⟩ := by
      unfold openTarget
      rw [htarget]
    have hround : Round C base fname fbs st
        { st with
          view := (openTarget st.view base fname true).view
          failedFiles := st.failedFiles + 1 } none :=
      .refused (by rw [hopen]) (by rw [hopen])
    rwa [hopen] at hround
  | ok fp =>
    dsimp only
    unfold RestoreRun.restoreTarget
    rw [hfind]
    dsimp only [Option.isSome_some]
    cases hexc : (openTarget st.view base fname true).exception with
    | some e => exact .exception e hexc
    | none =>
      cases hopened : (openTarget st.view base fname true).opened with
      | none => exact .refused hexc hopened
      | some loc =>
        obtain ⟨s', blocks, hloop, hs, hok, hcontent⟩ :=
          readBlocks_restore (H := H) hC h hq hfbs
        dsimp only
        rw [hloop]
        dsimp only
        by_cases hall : Complete C st.session fbs
        · rw [if_pos (hok.mpr hall), hcontent hall]
          exact .kept loc s' hopened hs hall
        · rw [if_neg fun h => hall (hok.mp h)]
          obtain ⟨fp', htarget', hcreate⟩ := openTarget_opened hopened
          obtain rfl : fp = fp' := Except.ok.inj (htarget.symm.trans htarget')
          rw [View.unlink_create (by simp) hcreate]
          exact .removed loc s' _ fp hopened htarget hs hall

/-! ## The output of a run -/

/-- A file that has been restored: a new one below the output directory, at its name, with the
bytes of all its blocks. -/
structure HoldsOutput (C : Crypto) (s₀ : Session cfg) (V₀ : View Bytes) (base : PathText Bytes)
    (view : View Bytes) (content : List Bytes → Bytes) (fname : Bytes)
    (loc : List Bytes) : Prop where
  isNew : V₀.tree.node loc = none
  regular : view.tree.node loc = some .regular
  target : ∃ ns, relativeParts (pathOf fname).parts = .ok ns ∧
    view.resolve (base.join ns) = .ok loc
  bytes : ∃ fbs, CoqStore.find s₀.cache.fblockstore (fileHash C fname cfg.myId) = some fbs ∧
    Complete C s₀ fbs ∧ content loc = Overlay.overlay 0 (naivePieces C s₀ fbs)

/-- What holds between two rounds: `done` are the files restored so far, with their locations. -/
structure RunInv (C : Crypto) (s₀ : Session cfg) (V₀ : View Bytes) (content₀ : List Bytes → Bytes)
    (base : PathText Bytes) (B : List Bytes) (st : RestoreRun cfg)
    (done : List (Bytes × List Bytes)) : Prop where
  session : Continues C s₀ st.session
  below : ∃ created, Below B V₀ st.view created
  old : ∀ loc, V₀.tree.node loc ≠ none → st.content loc = content₀ loc
  fresh : ∀ loc, st.view.tree.node loc ≠ V₀.tree.node loc →
    st.view.tree.node loc = some .directory ∨ ∃ fname, (fname, loc) ∈ done
  kept : ∀ q ∈ done, HoldsOutput C s₀ V₀ base st.view st.content q.1 q.2
  nodup : (done.map Prod.snd).Nodup

/-- What is free now was free before. -/
theorem Below.free {V₀ V₁ : View Bytes} {created : List (PathText Bytes)}
    (h : Below B V₀ V₁ created) {loc : List Bytes} (hfree : V₁.tree.node loc = none) :
    V₀.tree.node loc = none := by
  cases hnode : V₀.tree.node loc with
  | none => rfl
  | some node =>
    rw [h.keeps _ _ hnode] at hfree
    cases hfree

/-- The bytes of the files that are there are not touched. -/
def Untouched (V : View Bytes) (content content' : List Bytes → Bytes) : Prop :=
  ∀ loc, V.tree.node loc ≠ none → content' loc = content loc

/-- Writing a file where there was none touches nothing that existed. -/
theorem untouched_update {content : List Bytes → Bytes} {loc : List Bytes}
    (hfree : V.tree.node loc = none) (d : Bytes) :
    Untouched V content (Function.update content loc d) := by
  intro loc' hloc'
  apply Function.update_of_ne
  rintro rfl
  exact hloc' hfree

/-- What has been restored stays when the tree grows. -/
theorem HoldsOutput.mono {s₀ : Session cfg} {V₀ V₁ V₂ : View Bytes}
    {content content' : List Bytes → Bytes} {fname : Bytes} {loc : List Bytes} (h : HoldsOutput C s₀ V₀ base V₁ content fname loc)
    {created : List (PathText Bytes)} (hbelow : Below B V₁ V₂ created)
    (hcontent : Untouched V₁ content content') :
    HoldsOutput C s₀ V₀ base V₂ content' fname loc where
  isNew := h.isNew
  regular := hbelow.keeps _ _ h.regular
  target := by
    obtain ⟨ns, hns, hr⟩ := h.target
    exact ⟨ns, hns, hbelow.resolve hr⟩
  bytes := by
    obtain ⟨fbs, hfind, hall, hbytes⟩ := h.bytes
    refine ⟨fbs, hfind, hall, (hcontent loc ?_).trans hbytes⟩
    rw [h.regular]
    exact Option.some_ne_none _

section Run

variable {s₀ : Session cfg} {V₀ : View Bytes} {content₀ : List Bytes → Bytes}
  {st : RestoreRun cfg} {done : List (Bytes × List Bytes)}

/-- Only directories are added. -/
theorem RunInv.grow (h : RunInv C s₀ V₀ content₀ base B st done) {s' : Session cfg}
    (hs : Continues C st.session s') {V' : View Bytes} {created : List (PathText Bytes)}
    (hbelow : Below B st.view V' created)
    (hdirs : ∀ loc, V'.tree.node loc ≠ st.view.tree.node loc → V'.tree.node loc = some .directory)
    {content' : List Bytes → Bytes} (hcontent : Untouched st.view st.content content')
    (failed : ℕ) : RunInv C s₀ V₀ content₀ base B ⟨s', V', content', failed⟩ done := by
  obtain ⟨created₀, hbelow₀⟩ := h.below
  refine ⟨⟨hs.ready, h.session.reads.trans hs.reads, hs.queue⟩,
    ⟨created₀ ++ created, hbelow₀.trans hbelow⟩, fun loc hloc => ?_, fun loc hloc => ?_,
    fun q hq => (h.kept q hq).mono hbelow hcontent, h.nodup⟩
  · exact (hcontent loc fun hfree => hloc (Below.free hbelow₀ hfree)).trans (h.old loc hloc)
  · dsimp only at hloc ⊢
    by_cases hsame : V'.tree.node loc = st.view.tree.node loc
    · rw [hsame] at hloc ⊢
      exact h.fresh loc hloc
    · exact .inl (hdirs loc hsame)

/-- One more file is restored. -/
theorem RunInv.keep (h : RunInv C s₀ V₀ content₀ base B st done) {s' : Session cfg}
    (hs : Continues C st.session s') {V' : View Bytes} {created : List (PathText Bytes)}
    (hbelow : Below B st.view V' created) {fname : Bytes} {loc : List Bytes}
    (hnew : ∀ l, V'.tree.node l ≠ st.view.tree.node l →
      V'.tree.node l = some .directory ∨ l = loc)
    (hfree : st.view.tree.node loc = none) {d : Bytes}
    (hkept : HoldsOutput C s₀ V₀ base V' (Function.update st.content loc d) fname loc) (failed : ℕ) :
    RunInv C s₀ V₀ content₀ base B ⟨s', V', Function.update st.content loc d, failed⟩
      (done ++ [(fname, loc)]) := by
  obtain ⟨created₀, hbelow₀⟩ := h.below
  have hcontent : Untouched st.view st.content (Function.update st.content loc d) :=
    untouched_update hfree d
  refine ⟨⟨hs.ready, h.session.reads.trans hs.reads, hs.queue⟩,
    ⟨created₀ ++ created, hbelow₀.trans hbelow⟩, fun l hl => ?_, fun l hl => ?_, fun q hq => ?_, ?_⟩
  · exact (hcontent l fun hl' => hl (Below.free hbelow₀ hl')).trans (h.old l hl)
  · dsimp only at hl ⊢
    by_cases hsame : V'.tree.node l = st.view.tree.node l
    · rw [hsame] at hl ⊢
      rcases h.fresh l hl with hdir | ⟨fname', hmem⟩
      · exact .inl hdir
      · exact .inr ⟨fname', List.mem_append_left _ hmem⟩
    · rcases hnew l hsame with hdir | rfl
      · exact .inl hdir
      · exact .inr ⟨fname, by simp⟩
  · rcases List.mem_append.mp hq with hq | hq
    · exact (h.kept q hq).mono hbelow hcontent
    · rw [List.mem_singleton.mp hq]
      exact hkept
  · rw [List.map_append, List.map_singleton, List.nodup_append]
    refine ⟨h.nodup, List.nodup_singleton _, ?_⟩
    rintro l hl l' hl' heq
    -- a file restored before is still there
    obtain ⟨q, hq, rfl⟩ := List.mem_map.mp hl
    have hreg := (h.kept q hq).regular
    rw [heq, List.mem_singleton.mp hl', hfree] at hreg
    cases hreg

/-- The output directory stays where it is. -/
theorem RunInv.output (h : RunInv C s₀ V₀ content₀ base B st done) (hbase : V₀.resolve base = .ok B)
    (hdir : V₀.tree.node B = some .directory) :
    st.view.resolve base = .ok B ∧ st.view.tree.node B = some .directory := by
  obtain ⟨created, hbelow⟩ := h.below
  exact ⟨hbelow.resolve hbase, hbelow.keeps _ _ hdir⟩

/-- What a run changes is below the output directory: a directory, or a file it has restored. -/
theorem RunInv.changed (h : RunInv C s₀ V₀ content₀ base B st done) {loc : List Bytes}
    (hloc : st.view.tree.node loc ≠ V₀.tree.node loc) : B <+: loc ∧ B ≠ loc ∧
      (st.view.tree.node loc = some .directory ∨ ∃ fname, (fname, loc) ∈ done) := by
  obtain ⟨created, hbelow⟩ := h.below
  obtain ⟨p, hp, hr⟩ := hbelow.new loc hloc
  obtain ⟨loc', hr', -, hpre, hne⟩ := hbelow.below p hp
  obtain rfl : loc = loc' := Except.ok.inj (hr.symm.trans hr')
  exact ⟨hpre, hne, h.fresh loc hloc⟩

/-- When the file cannot be opened, all that is new are directories. -/
theorem openTarget_directories {fname : Bytes} {hasBlocks : Bool}
    (h : (openTarget V base fname hasBlocks).opened = none) (loc : List Bytes)
    (hloc : (openTarget V base fname hasBlocks).view.tree.node loc ≠ V.tree.node loc) :
    (openTarget V base fname hasBlocks).view.tree.node loc = some .directory := by
  rcases openTarget_new hloc with hdir | hopened
  · exact hdir
  · rw [h] at hopened
    cases hopened

/-- When an exception ends the run, the file is not opened. -/
theorem openTarget_exception {fname : Bytes} {hasBlocks : Bool} {e : Errno}
    (h : (openTarget V base fname hasBlocks).exception = some e) :
    (openTarget V base fname hasBlocks).opened = none := by
  rcases openTarget_cases V base fname hasBlocks with
    hr | ⟨fp, htarget, ⟨e, hr⟩ | hr | ⟨loc', V', hcreate, hr⟩⟩ <;> rw [hr] at h ⊢
  cases h

/-- The target of a file is its name below the output directory. -/
theorem containedTarget_join {fname : Bytes} {fp : PathText Bytes}
    (h : containedTarget V base fname = .ok fp) :
    ∃ ns, relativeParts (pathOf fname).parts = .ok ns ∧ fp = base.join ns := by
  unfold containedTarget at h
  split at h
  · cases h
  · cases h
  · next n ns hparts =>
    split at h
    · dsimp only at h
      split at h
      · cases h
      · exact ⟨n :: ns, hparts, (Except.ok.inj h).symm⟩
    · cases h

/-- What has been opened is new, and found at the name of the file. -/
theorem openTarget_found (hbase : V.resolve base = .ok B)
    (hdir : V.tree.node B = some .directory) {fname : Bytes} {loc : List Bytes}
    (h : (openTarget V base fname true).opened = some loc) :
    V.tree.node loc = none ∧
      (openTarget V base fname true).view.tree.node loc = some .regular ∧
      ∃ ns, relativeParts (pathOf fname).parts = .ok ns ∧
        (openTarget V base fname true).view.resolve (base.join ns) = .ok loc := by
  obtain ⟨-, -, -, hopened⟩ := openTarget_contained V base B hbase hdir fname true
  obtain ⟨fp, htarget, hcreate⟩ := openTarget_opened h
  obtain ⟨ns, hns, rfl⟩ := containedTarget_join htarget
  obtain ⟨d, n, rfl, hcreated⟩ := View.create_spec hcreate
  exact ⟨(hopened _ h).1, hcreated.node, ns, hns, hcreated.resolve (.inr rfl)⟩

/-- **One round** keeps the invariant: the file is counted as failed, or restored. -/
theorem RunInv.round (hC : C.HexLawful) (h : RunInv C s₀ V₀ content₀ base B st done)
    (hbase : V₀.resolve base = .ok B) (hdir : V₀.tree.node B = some .directory) {fname : Bytes}
    {fbs : List BlockInformation}
    (hfind : CoqStore.find s₀.cache.fblockstore (fileHash C fname cfg.myId) = some fbs)
    {st' : RestoreRun cfg} {abort : Option Abort} (hround : Round C base fname fbs st st' abort) :
    (∀ f, abort ≠ some (.fault f)) ∧
      ((RunInv C s₀ V₀ content₀ base B st' done ∧
          (abort = none → st'.failedFiles = st.failedFiles + 1)) ∨
        ∃ loc, RunInv C s₀ V₀ content₀ base B st' (done ++ [(fname, loc)]) ∧ abort = none ∧
          st'.failedFiles = st.failedFiles) := by
  obtain ⟨hbase', hdir'⟩ := h.output hbase hdir
  have hsame : Continues C st.session st.session :=
    ⟨h.session.ready, ReadOnly.refl _, h.session.queue⟩
  obtain ⟨hbelow, -⟩ := openTarget_below hbase' hdir' fname true
  cases hround with
  | exception e hexc =>
    refine ⟨by simp, .inl ⟨?_, by simp⟩⟩
    exact h.grow hsame hbelow (openTarget_directories (openTarget_exception hexc))
      (fun _ _ => rfl) st.failedFiles
  | refused hexc hopened =>
    refine ⟨by simp, .inl ⟨?_, fun _ => rfl⟩⟩
    exact h.grow hsame hbelow (openTarget_directories hopened) (fun _ _ => rfl) _
  | kept loc s' hopened hs hall =>
    refine ⟨by simp, .inr ⟨loc, ?_, rfl, rfl⟩⟩
    obtain ⟨hfree, hreg, htarget⟩ := openTarget_found hbase' hdir' hopened
    obtain ⟨created₀, hbelow₀⟩ := h.below
    have hpieces : naivePieces C st.session fbs = naivePieces C s₀ fbs := by
      simp only [naivePieces, h.session.reads.restoreAlone_eq hC]
    refine h.keep hs hbelow (fun l hl => ?_) hfree
      ⟨Below.free hbelow₀ hfree, hreg, htarget, fbs, hfind,
        (h.session.complete_iff hC fbs).mp hall, ?_⟩ _
    · rcases openTarget_new hl with hl | hl
      · exact .inl hl
      · rw [hopened] at hl
        exact .inr (Option.some.inj hl).symm
    · rw [Function.update_self, hpieces]
  | removed loc s' d fp hopened htarget hs hmissing =>
    refine ⟨by simp, .inl ⟨?_, fun _ => rfl⟩⟩
    obtain ⟨hfree, -⟩ := openTarget_found hbase' hdir' hopened
    obtain ⟨ns, n, rfl, hguarded⟩ := containedTarget_guarded hbase' hdir' htarget
    have hparent : parentPath (base.join (ns ++ [n])) = base.join ns := by
      simp [parentPath, PathText.join]
    rw [hparent]
    exact h.grow hs (createParents_below hbase' hdir' hguarded).1
      (fun l hl => createParents_new hl) (untouched_update hfree d) _

/-- **The main loop** keeps the invariant, and counts what has not been restored; if it is left
early, the name at which it is left has not. -/
theorem RunInv.names (hC : C.HexLawful) (h : RunInv C s₀ V₀ content₀ base B st done)
    (hbase : V₀.resolve base = .ok B) (hdir : V₀.tree.node B = some .directory)
    {names : List Bytes} (hnames : ∀ fname ∈ names, fname ≠ [] → ∃ fbs,
      CoqStore.find s₀.cache.fblockstore (fileHash C fname cfg.myId) = some fbs ∧
        Judged C s₀ fbs) :
    let r := st.restoreNames C H base names
    ∃ more, RunInv C s₀ V₀ content₀ base B r.1 (done ++ more) ∧
      (more.map Prod.fst).Sublist (names.filter fun fname => fname ≠ []) ∧
      (∀ f, r.2 ≠ some (.fault f)) ∧
      (r.2 = none → r.1.failedFiles + more.length =
        st.failedFiles + (names.filter fun fname => fname ≠ []).length) ∧
      (r.2 ≠ none → more.length < (names.filter fun fname => fname ≠ []).length) := by
  induction names generalizing st done with
  | nil =>
    exact ⟨[], by simpa [RestoreRun.restoreNames] using h, by simp,
      by simp [RestoreRun.restoreNames], by simp [RestoreRun.restoreNames],
      by simp [RestoreRun.restoreNames]⟩
  | cons fname names ih =>
    have hrest := fun n hn => hnames n (List.mem_cons_of_mem _ hn)
    by_cases hname : fname = []
    · have hskip : st.restoreNames C H base (fname :: names) = st.restoreNames C H base names := by
        rw [RestoreRun.restoreNames, RestoreRun.restoreName, if_pos hname]
      rw [hskip, List.filter_cons_of_neg (by simpa using hname)]
      exact ih h hrest
    · obtain ⟨fbs, hfind, hfbs⟩ := hnames fname (by simp) hname
      have hround := restoreName_round hC H base h.session.ready h.session.queue hname
        (h.session.reads.fblockstore ▸ hfind) (h.session.judged hC hfbs)
      obtain ⟨hfault, hcases⟩ := h.round hC hbase hdir hfind hround
      rw [List.filter_cons_of_pos (by simpa using hname), RestoreRun.restoreNames]
      generalize st.restoreName C H base fname = r at hfault hcases ⊢
      obtain ⟨st', abort⟩ := r
      cases abort with
      | some e =>
        dsimp only
        rcases hcases with ⟨hinv, -⟩ | ⟨loc, -, habort, -⟩
        · exact ⟨[], by simpa using hinv, by simp, hfault, by simp, fun _ => Nat.succ_pos _⟩
        · cases habort
      | none =>
        dsimp only
        rcases hcases with ⟨hinv, hfailed⟩ | ⟨loc, hinv, -, hfailed⟩
        · obtain ⟨more, hinv', hsub, hfault', hcount, hearly⟩ := ih hinv hrest
          refine ⟨more, hinv', hsub.cons fname, hfault', fun hnone => ?_,
            fun habort => Nat.lt_succ_of_lt (hearly habort)⟩
          rw [hcount hnone, hfailed rfl, List.length_cons]
          exact Nat.add_right_comm _ _ _
        · obtain ⟨more, hinv', hsub, hfault', hcount, hearly⟩ := ih hinv hrest
          refine ⟨(fname, loc) :: more, ?_, hsub.cons_cons fname, hfault', fun hnone => ?_,
            fun habort => Nat.succ_lt_succ (hearly habort)⟩
          · rwa [List.append_assoc, List.singleton_append] at hinv'
          · rw [List.length_cons, List.length_cons, ← Nat.add_assoc, ← Nat.add_assoc, hcount hnone,
              hfailed]

end Run

/-! ## `LXRrestore` -/

/-- The names that are restored: those with meta data, if they are not empty. -/
def listed (C : Crypto) (cfg : CoqConfiguration) (fblocks : CoqFBlockStore)
    (names : List Bytes) : List Bytes :=
  names.filter fun n => CoqStore.contains fblocks (fileHash C n cfg.myId) && n ≠ []

/-- The names that are neither unknown nor empty are the listed ones. -/
theorem filter_prepareFiles (fblocks : CoqFBlockStore) (names : List Bytes) :
    ((prepareFiles C cfg fblocks names).1.filter fun n => n ≠ []) =
      listed C cfg fblocks names := by
  unfold prepareFiles listed
  induction names with
  | nil => rfl
  | cons n names ih =>
    rw [List.map_cons]
    by_cases hn : CoqStore.contains fblocks (fileHash C n cfg.myId) = true
    · rw [if_pos hn]
      by_cases hempty : n = [] <;> simp_all
    · rw [if_neg hn]
      simp_all

/-- Every name is either counted as unknown or listed, if none is empty. -/
theorem length_listed {fblocks : CoqFBlockStore} {names : List Bytes} (h : [] ∉ names) :
    (prepareFiles C cfg fblocks names).2 + (listed C cfg fblocks names).length = names.length := by
  unfold prepareFiles listed
  induction names with
  | nil => rfl
  | cons n names ih =>
    have hn : n ≠ [] := fun hn => h (hn ▸ List.mem_cons_self)
    have hrest := ih fun hmem => h (List.mem_cons_of_mem _ hmem)
    cases hfind : CoqStore.contains fblocks (fileHash C n cfg.myId) <;>
      simp [hfind, hn] at hrest ⊢ <;> omega

/-- A name that is left is one of the names and has a block list. -/
theorem mem_prepareFiles {fblocks : CoqFBlockStore} {names : List Bytes} {n : Bytes}
    (h : n ∈ (prepareFiles C cfg fblocks names).1) (hn : n ≠ []) :
    n ∈ names ∧ ∃ fbs, CoqStore.find fblocks (fileHash C n cfg.myId) = some fbs := by
  have hmem : n ∈ listed C cfg fblocks names := by
    rw [← filter_prepareFiles, List.mem_filter]
    exact ⟨h, decide_eq_true hn⟩
  obtain ⟨hname, hfind⟩ := List.mem_filter.mp hmem
  rw [Bool.and_eq_true] at hfind
  exact ⟨hname, Option.isSome_iff_exists.mp hfind.1⟩

/-- The tool starts ready to read blocks. -/
theorem ready_tool {keys : CoqKeyStore} {fblocks : CoqFBlockStore} {w : World} :
    Ready C (Session.init cfg toolEnvs toolDepth keys fblocks ∅ w) := by
  have hn : 1 ≤ toolEnvs := by decide
  have hd : 1 ≤ toolDepth := by decide
  exact ready_fresh rfl hn hd

/-- The invariant holds before the first name. -/
theorem runInv_start {keys : CoqKeyStore} {fblocks : CoqFBlockStore} {w : World}
    (content : List Bytes → Bytes) (failed : ℕ) :
    RunInv C (Session.init cfg toolEnvs toolDepth keys fblocks ∅ w) V content base B
      ⟨Session.init cfg toolEnvs toolDepth keys fblocks ∅ w, V, content, failed⟩ [] :=
  ⟨⟨ready_tool, ReadOnly.refl _, rfl⟩, ⟨[], Below.refl B V⟩, fun _ _ => rfl,
    fun _ h => absurd rfl h, by simp, List.nodup_nil⟩

/-- The status is zero when the run ends without an exception and no file failed. -/
theorem restoreStatus_eq_zero {r : RestoreRun cfg × Option Abort} :
    restoreStatus r = some 0 ↔ r.2 = none ∧ r.1.failedFiles = 0 := by
  unfold restoreStatus
  cases r.2 with
  | some e => simp
  | none =>
    by_cases h : 0 < r.1.failedFiles
    · simp [h]
      omega
    · simp [h]
      omega

/-- The exit status is 0 exactly if all names have been restored. -/
theorem restoreStatus_iff {r : RestoreRun cfg × Option Abort} {names : List Bytes}
    {done : List (Bytes × List Bytes)} (hsub : (done.map Prod.fst).Sublist names)
    (hcount : r.2 = none → r.1.failedFiles + done.length = names.length)
    (hearly : r.2 ≠ none → done.length < names.length) :
    restoreStatus r = some 0 ↔ done.map Prod.fst = names := by
  rw [restoreStatus_eq_zero]
  constructor
  · rintro ⟨hnone, hzero⟩
    have hlen := hcount hnone
    exact hsub.eq_of_length (by rw [List.length_map]; omega)
  · intro hall
    have hlen := congrArg List.length hall
    rw [List.length_map] at hlen
    have hnone : r.2 = none := by
      by_contra habort
      exact Nat.ne_of_lt (hearly habort) hlen
    have hfailed := hcount hnone
    exact ⟨hnone, by omega⟩

/-- The invariant at the end of a run. -/
theorem lxrRestore_inv (hC : C.HexLawful) (H : Host) (keys : CoqKeyStore)
    (fblocks : CoqFBlockStore) (w : World) (content : List Bytes → Bytes)
    (hbase : V.resolve base = .ok B) (hdir : V.tree.node B = some .directory) {names : List Bytes}
    (hjudged : ∀ n ∈ names, ∀ fbs, CoqStore.find fblocks (fileHash C n cfg.myId) = some fbs →
      Judged C (Session.init cfg toolEnvs toolDepth keys fblocks ∅ w) fbs) :
    let r := lxrRestore C H cfg keys fblocks w V content base names
    ∃ done : List (Bytes × List Bytes),
      RunInv C (Session.init cfg toolEnvs toolDepth keys fblocks ∅ w) V content base B r.1 done ∧
      (∀ f, r.2 ≠ some (.fault f)) ∧ (done.map Prod.fst).Sublist names ∧
      ([] ∉ names → (r.2 = none → r.1.failedFiles + done.length = names.length) ∧
        (restoreStatus r = some 0 ↔ done.map Prod.fst = names)) := by
  intro r
  obtain ⟨done, hinv, hsub, hfault, hcount, hearly⟩ :=
    (runInv_start content (prepareFiles C cfg fblocks names).2).names (H := H) hC hbase hdir
      fun n hn hne => by
        obtain ⟨hname, fbs, hfind⟩ := mem_prepareFiles hn hne
        exact ⟨fbs, hfind, hjudged n hname fbs hfind⟩
  rw [List.nil_append] at hinv
  rw [filter_prepareFiles] at hsub hcount hearly
  have hsub' := hsub.trans List.filter_sublist
  refine ⟨done, hinv, hfault, hsub', fun hempty => ?_⟩
  have hcount' : r.2 = none → r.1.failedFiles + done.length = names.length :=
    fun hnone => (hcount hnone).trans (length_listed hempty)
  exact ⟨hcount', restoreStatus_iff hsub' hcount' fun habort =>
    Nat.lt_of_lt_of_le (hearly habort) (List.length_filter_le _ _)⟩

/-- If no name is unknown, all names are left and each has a block list. -/
theorem find_of_prepareFiles {fblocks : CoqFBlockStore} {names : List Bytes}
    (h : (prepareFiles C cfg fblocks names).2 = 0) :
    (prepareFiles C cfg fblocks names).1 = names ∧
      ∀ n ∈ names, ∃ fbs, CoqStore.find fblocks (fileHash C n cfg.myId) = some fbs := by
  have hall : ∀ n ∈ names, CoqStore.contains fblocks (fileHash C n cfg.myId) = true := by
    simpa [prepareFiles, List.countP_eq_zero] using h
  refine ⟨?_, fun n hn => Option.isSome_iff_exists.mp (hall n hn)⟩
  unfold prepareFiles
  dsimp only
  conv_rhs => rw [← List.map_id names]
  exact List.map_congr_left fun n hn => if_pos (hall n hn)

/-- Names that have a block list are all known. -/
theorem prepareFiles_of_find {fblocks : CoqFBlockStore} {names : List Bytes}
    (h : ∀ n ∈ names, ∃ fbs, CoqStore.find fblocks (fileHash C n cfg.myId) = some fbs) :
    (prepareFiles C cfg fblocks names).2 = 0 := by
  refine List.countP_eq_zero.mpr fun n hn => ?_
  obtain ⟨fbs, hfind⟩ := h n hn
  simp [CoqStore.contains, hfind]

section Verified

variable {s₀ : Session cfg} {V₀ : View Bytes} {content₀ : List Bytes → Bytes}
  {st : RestoreRun cfg} {done : List (Bytes × List Bytes)}

/-- A round with a complete file leaves what opening its target leaves. -/
theorem Round.of_complete {fname : Bytes} {fbs : List BlockInformation} {st' : RestoreRun cfg}
    {abort : Option Abort} (h : Round C base fname fbs st st' abort)
    (hall : Complete C st.session fbs) :
    let t := openTarget st.view base fname true
    st'.view = t.view ∧ (abort = none ↔ t.exception = none) ∧
      (abort = none → st'.failedFiles + t.opened.toList.length = st.failedFiles + 1) := by
  intro t
  cases h with
  | exception e hexc => exact ⟨rfl, by simp [t, hexc], by simp⟩
  | refused hexc hopened => exact ⟨rfl, by simp [t, hexc], fun _ => by simp [t, hopened]⟩
  | kept loc s' hopened hs hall' =>
    refine ⟨rfl, ?_, fun _ => by simp [t, hopened]⟩
    cases hexc : t.exception with
    | none => simp
    | some e =>
      rw [openTarget_exception hexc] at hopened
      cases hopened
  | removed loc s' d fp hopened htarget hs hmissing => exact absurd hall hmissing

/-- At most one file is opened for each name. -/
theorem length_openTargets_le (V : View Bytes) (names : List Bytes) :
    (openTargets base V (names.map fun n => (n, true))).opened.length ≤ names.length := by
  induction names generalizing V with
  | nil => exact Nat.le_refl 0
  | cons n names ih =>
    rw [List.map_cons, openTargets]
    have hone : (openTarget V base n true).opened.toList.length ≤ 1 := by
      cases (openTarget V base n true).opened <;> simp
    dsimp only
    split
    · rw [List.length_cons]
      exact hone.trans (Nat.le_add_left 1 _)
    · have hrest := ih (openTarget V base n true).view
      rw [List.length_append, List.length_cons]
      omega

/-- If all files are complete the main loop leaves what opening the targets leaves. -/
theorem RunInv.verified (hC : C.HexLawful) (h : RunInv C s₀ V₀ content₀ base B st done)
    (hbase : V₀.resolve base = .ok B) (hdir : V₀.tree.node B = some .directory)
    {names : List Bytes} (hempty : [] ∉ names) (hnames : ∀ n ∈ names, ∃ fbs,
      CoqStore.find s₀.cache.fblockstore (fileHash C n cfg.myId) = some fbs ∧
        Complete C s₀ fbs ∧ ∀ bi ∈ fbs, bi.filepos < 9223372036854775808) :
    let r := st.restoreNames C H base names
    let t := openTargets base st.view (names.map fun n => (n, true))
    r.1.view = t.view ∧ (t.opened.length = names.length → r.2 = none) ∧
      (r.2 = none → r.1.failedFiles + t.opened.length = st.failedFiles + names.length) := by
  induction names generalizing st done with
  | nil => exact ⟨rfl, fun _ => rfl, fun _ => rfl⟩
  | cons n names ih =>
    have hn : n ≠ [] := fun hn => hempty (hn ▸ List.mem_cons_self)
    obtain ⟨fbs, hfind, hall, hseek⟩ := hnames n (by simp)
    have hround := restoreName_round hC H base h.session.ready h.session.queue hn
      (h.session.reads.fblockstore ▸ hfind) (h.session.judged hC ⟨.inr hall, hseek⟩)
    obtain ⟨-, hcases⟩ := h.round hC hbase hdir hfind hround
    obtain ⟨hview, habort, hcount⟩ :=
      hround.of_complete ((h.session.complete_iff hC fbs).mpr hall)
    rw [RestoreRun.restoreNames, List.map_cons, openTargets]
    generalize st.restoreName C H base n = r at hcases hview habort hcount ⊢
    obtain ⟨st', abort⟩ := r
    dsimp only at hview habort hcount ⊢
    cases abort with
    | some e =>
      cases hexc : (openTarget st.view base n true).exception with
      | none => exact absurd (habort.mpr hexc) (by simp)
      | some e' => exact ⟨hview, by simp [openTarget_exception hexc], by simp⟩
    | none =>
      rw [habort.mp rfl]
      obtain ⟨done', hinv⟩ : ∃ done', RunInv C s₀ V₀ content₀ base B st' done' := by
        rcases hcases with ⟨hinv, -⟩ | ⟨loc, hinv, -⟩
        · exact ⟨done, hinv⟩
        · exact ⟨_, hinv⟩
      obtain ⟨hview', hends, hcount'⟩ := ih hinv
        (fun hmem => hempty (List.mem_cons_of_mem _ hmem))
        fun m hm => hnames m (List.mem_cons_of_mem _ hm)
      rw [hview] at hview' hends hcount'
      have hone := hcount rfl
      refine ⟨hview', fun hall => hends ?_, fun hnone => ?_⟩
      · have hle := @length_openTargets_le base (openTarget st.view base n true).view names
        have hopened : (openTarget st.view base n true).opened.toList.length ≤ 1 := by
          cases (openTarget st.view base n true).opened <;> simp
        rw [List.length_append, List.length_cons] at hall
        omega
      have hmore := hcount' hnone
      dsimp only at hmore ⊢
      rw [List.length_append, List.length_cons]
      omega

end Verified

/-- If all files asked for are complete, `LXRrestore` fails only where a target cannot be created. -/
theorem lxrRestore_complete (hC : C.HexLawful) (H : Host) {keys : CoqKeyStore}
    {fblocks : CoqFBlockStore} (w : World) (content : List Bytes → Bytes)
    (hbase : V.resolve base = .ok B) (hdir : V.tree.node B = some .directory) {names : List Bytes}
    (hempty : [] ∉ names) (hall : ∀ n ∈ names, ∃ fbs,
      CoqStore.find fblocks (fileHash C n cfg.myId) = some fbs ∧
        Complete C (Session.init cfg toolEnvs toolDepth keys fblocks ∅ w) fbs ∧
        ∀ bi ∈ fbs, bi.filepos < 9223372036854775808) :
    let r := lxrRestore C H cfg keys fblocks w V content base names
    let t := openTargets base V (names.map fun n => (n, true))
    r.1.view = t.view ∧ (r.2 = none → r.1.failedFiles + t.opened.length = names.length) ∧
      (restoreStatus r = some 0 ↔ t.opened.length = names.length) := by
  intro r t
  have hzero := prepareFiles_of_find fun n hn => (hall n hn).imp fun _ h => h.1
  have hr : r = RestoreRun.restoreNames C H base
      ⟨Session.init cfg toolEnvs toolDepth keys fblocks ∅ w, V, content, 0⟩ names := by
    unfold r lxrRestore
    dsimp only
    rw [(find_of_prepareFiles hzero).1, hzero]
  obtain ⟨hview, hends, hcount⟩ :=
    (runInv_start content 0).verified (H := H) hC hbase hdir hempty hall
  rw [← hr, Nat.zero_add] at hcount
  rw [← hr] at hview hends
  refine ⟨hview, hcount, ?_⟩
  rw [restoreStatus_eq_zero]
  constructor
  · rintro ⟨hnone, hfailed⟩
    have h := hcount hnone
    rwa [hfailed, Nat.zero_add] at h
  · intro hopened
    have hnone := hends hopened
    have h : r.1.failedFiles + t.opened.length = names.length := hcount hnone
    exact ⟨hnone, by omega⟩

/-- The block list of one file. -/
def sampleBlocks (C : Crypto) (cfg : CoqConfiguration) (fbs : List BlockInformation) :
    CoqFBlockStore :=
  CoqStore.add ∅ (fileHash C (ascii "f") cfg.myId) fbs

/-- The sample document has the block list of the file `f`. -/
theorem find_sampleBlocks (C : Crypto) (cfg : CoqConfiguration) (fbs : List BlockInformation) :
    CoqStore.find (sampleBlocks C cfg fbs) (fileHash C (ascii "f") cfg.myId) = some fbs := by
  rw [sampleBlocks, CoqStore.find_add, if_pos rfl]

/-- The block lists found in the sample document are countable if its own is. -/
theorem countable_sampleBlocks {fbs : List BlockInformation} (h : Countable fbs) :
    ∀ n ∈ [ascii "f"], ∀ fbs',
      CoqStore.find (sampleBlocks C cfg fbs) (fileHash C n cfg.myId) = some fbs' →
      Countable fbs' := by
  intro n hn fbs' hfbs
  obtain rfl := List.mem_singleton.mp hn
  obtain rfl := Option.some.inj ((find_sampleBlocks C cfg fbs).symm.trans hfbs)
  exact h

section Sample

variable {keys : CoqKeyStore} {fs : FileSystem} {i : ℕ} {a : CoqAssemblyPlainFull config16}

/-- Two blocks of an archived assembly. -/
def numberedBlocks (a : CoqAssemblyPlainFull config16) : List BlockInformation :=
  [numberedBlock a 0, numberedBlock a 1]

/-- Both can be restored. -/
theorem NumberedArchive.complete (h : NumberedArchive keys fs i a) {s : Session config16}
    (hkeys : s.cache.keystore = keys) (hfs : s.world.fs = fs) :
    Complete simple s (numberedBlocks a) := by
  intro bi hbi
  rw [numberedBlocks, List.mem_pair] at hbi
  rcases hbi with rfl | rfl <;> rw [h.restoreAlone_eq hkeys hfs] <;> rfl

/-- The bytes of the file. -/
theorem NumberedArchive.pieces (h : NumberedArchive keys fs i a) {s : Session config16}
    (hkeys : s.cache.keystore = keys) (hfs : s.world.fs = fs) :
    Overlay.overlay 0 (naivePieces simple s (numberedBlocks a)) = [1, 1] := by
  simp only [numberedBlocks, naivePieces, List.filterMap_cons, List.filterMap_nil,
    h.restoreAlone_eq hkeys hfs, Option.map_some]
  rfl

end Sample

/-- With less than `2^32` blocks the counters tell whether one is missing. -/
theorem VerifyTracks.isOk_iff {s : Session cfg} {fbs : List BlockInformation} {st : VerifyState}
    (hst : VerifyTracks st fbs (filePieces C s s.cache.nQueuesz [] fbs))
    (hcount : fbs.length < 4294967296) : st.isOk = true ↔ Complete C s fbs := by
  have hle : missing C s fbs ≤ fbs.length := Nat.sub_le _ _
  unfold VerifyState.isOk Complete
  rw [decide_eq_true_eq, hst.nBlocks, hst.nBlocksOk, counters_eq_iff, ← missing_eq_zero_iff]
  refine ⟨fun hdvd => Nat.eq_zero_of_dvd_of_lt hdvd (by omega), fun hzero => ?_⟩
  rw [hzero]
  exact Nat.dvd_zero _

/-- The main loop finds every file complete, or one that is not. -/
theorem verifyNames_eq (hC : C.HexLawful) {s : Session cfg} (h : Ready C s)
    (hq : s.cache.readqueue = []) {names : List Bytes} (hnames : ∀ n ∈ names, n ≠ [] → ∃ fbs,
      CoqStore.find s.cache.fblockstore (fileHash C n cfg.myId) = some fbs ∧ Countable fbs)
    (res : Bool) :
    ∃ s' res', verifyNames C H s res names = .ok (s', res') ∧
      (res' = true ↔ res = true ∧ ∀ n ∈ names, n ≠ [] → ∃ fbs,
        CoqStore.find s.cache.fblockstore (fileHash C n cfg.myId) = some fbs ∧
          Complete C s fbs) := by
  induction names generalizing s res with
  | nil => exact ⟨s, res, rfl, by simp⟩
  | cons n names ih =>
    have hrest := fun m hm => hnames m (List.mem_cons_of_mem _ hm)
    rw [verifyNames]
    by_cases hn : n = []
    · obtain ⟨s', res', hloop, hres⟩ := ih h hq hrest res
      refine ⟨s', res', by rw [if_pos hn, hloop], ?_⟩
      rw [hres, List.forall_mem_cons]
      simp [hn]
    · obtain ⟨fbs, hfind, hfbs⟩ := hnames n (by simp) hn
      obtain ⟨s₁, st, hst, hfile, hready, hro, hq₁⟩ := verifyFile_eq (H := H) hC h hq fbs
      have hcomplete : ∀ fbs, Complete C s₁ fbs ↔ Complete C s fbs :=
        (Continues.mk hready hro hq₁).complete_iff hC
      obtain ⟨s', res', hloop, hres⟩ := ih hready hq₁
        (fun m hm hne => hro.fblockstore ▸ hrest m hm hne) (st.isOk && res)
      refine ⟨s', res', by rw [if_neg hn, hfind]; dsimp only; rw [hfile]; exact hloop, ?_⟩
      rw [hres, List.forall_mem_cons, hro.fblockstore, Bool.and_eq_true, hst.isOk_iff hfbs.count]
      simp only [hcomplete]
      constructor
      · rintro ⟨⟨hall, hok⟩, htail⟩
        exact ⟨hok, fun _ => ⟨fbs, hfind, hall⟩, htail⟩
      · rintro ⟨hok, hhead, htail⟩
        obtain ⟨fbs', hfind', hall⟩ := hhead hn
        obtain rfl := Option.some.inj (hfind.symm.trans hfind')
        exact ⟨⟨hall, hok⟩, htail⟩

/-- `LXRverify` accepts the names of files all blocks of which can be restored. -/
theorem lxrVerify_eq (hC : C.HexLawful) (H : Host) (keys : CoqKeyStore) (fblocks : CoqFBlockStore)
    (w : World) {names : List Bytes} (hempty : [] ∉ names) (hcountable : ∀ n ∈ names, ∀ fbs,
      CoqStore.find fblocks (fileHash C n cfg.myId) = some fbs → Countable fbs) :
    ∃ s' res, lxrVerify C H cfg keys fblocks w names = .ok (s', res) ∧
      (res = true ↔ ∀ n ∈ names, ∃ fbs,
        CoqStore.find fblocks (fileHash C n cfg.myId) = some fbs ∧
          Complete C (Session.init cfg toolEnvs toolDepth keys fblocks ∅ w) fbs) := by
  have hlisted : ∀ n ∈ (prepareFiles C cfg fblocks names).1, n ≠ [] → ∃ fbs,
      CoqStore.find fblocks (fileHash C n cfg.myId) = some fbs ∧ Countable fbs := by
    intro n hn hne
    obtain ⟨hname, fbs, hfind⟩ := mem_prepareFiles hn hne
    exact ⟨fbs, hfind, hcountable n hname fbs hfind⟩
  have hready : Ready C (Session.init cfg toolEnvs toolDepth keys fblocks ∅ w) := ready_tool
  obtain ⟨s', res, hloop, hres⟩ := verifyNames_eq (H := H) hC hready rfl hlisted
    (decide ((prepareFiles C cfg fblocks names).2 = 0))
  refine ⟨s', res, hloop, ?_⟩
  rw [hres, decide_eq_true_eq]
  constructor
  · rintro ⟨hzero, hall⟩ n hn
    obtain ⟨hsame, -⟩ := find_of_prepareFiles hzero
    rw [hsame] at hall
    exact hall n hn fun h => hempty (h ▸ hn)
  · intro hall
    have hzero := prepareFiles_of_find fun n hn => (hall n hn).imp fun _ h => h.1
    refine ⟨hzero, fun n hn _ => ?_⟩
    rw [(find_of_prepareFiles hzero).1] at hn
    exact hall n hn

end Elykseer.Analysis
