import Elykseer.Analysis.BackupRestore
import Elykseer.Foundation.Lineage

/-!
# Backup plans

Runs of `LXRbackup` each of which refers to the files document of any run before it, or of
none: full, differential and incremental backups, and `LXRrestore` with the documents of
some of the runs, in any order and with repetitions.

The documents can always be loaded together, and a path is restored with what was saved by
the last of these runs that saved the path: `lxrBackup_choice`.  The documents of a run
and of those it builds on give the newest contents in these runs, whatever was backed up
beside them or since: `lxrBackup_lineage`.
-/

set_option autoImplicit false

namespace Elykseer.Analysis

open Elykseer.Model Elykseer.Foundation Elykseer.Foundation.Xml Elykseer.Foundation.Lineage

variable {C : Crypto} {H : Host} {cfg : CoqConfiguration} {readXml : Bytes → Except Bytes Ptree}

/-! ## What a run saves -/

/-- The files a run saves: those that are not empty and have changed since they were last seen. -/
def savedFiles (past files : List SourceFile) : List SourceFile :=
  files.filter fun f => f.content ≠ [] ∧ (versions f.name past).getLast? ≠ some f.content

/-- The files of all runs. -/
def planFiles (plan : List PlannedRun) : List SourceFile := plan.flatMap (·.call.files)

/-- The files that each run and those it builds on have backed up. -/
def histories (plan : List PlannedRun) : List (List SourceFile) :=
  accumulate PlannedRun.ref (fun past r => past ++ r.call.files) [] plan

/-- The files that the runs have backed up on which a run after `plan` builds. -/
def pastOf (plan : List PlannedRun) (r : PlannedRun) : List SourceFile :=
  (parent r.ref (histories plan)).getD []

/-- The files saved by each run. -/
def savedByRun (plan : List PlannedRun) : List (List SourceFile) :=
  made PlannedRun.ref (fun past r => past ++ r.call.files) []
    (fun past r => savedFiles past r.call.files) plan

/-- The files saved by the chosen runs. -/
def chosenFiles (plan : List PlannedRun) (runs : List ℕ) : List SourceFile :=
  (choose runs (savedByRun plan)).flatten

/-- One more run adds the history of its documents. -/
theorem histories_concat (plan : List PlannedRun) (r : PlannedRun) :
    histories (plan ++ [r]) = histories plan ++ [pastOf plan r ++ r.call.files] :=
  accumulate_concat ..

/-- One more run adds the files it saves. -/
theorem savedByRun_concat (plan : List PlannedRun) (r : PlannedRun) :
    savedByRun (plan ++ [r]) = savedByRun plan ++ [savedFiles (pastOf plan r) r.call.files] :=
  made_concat ..

/-- One more run adds its files. -/
theorem planFiles_concat (plan : List PlannedRun) (r : PlannedRun) :
    planFiles (plan ++ [r]) = planFiles plan ++ r.call.files := by
  rw [planFiles, List.flatMap_append]
  exact congrArg _ (List.flatMap_singleton _ _)

/-- The files of a run of the plan are files of the plan. -/
theorem mem_planFiles {plan : List PlannedRun} {r : PlannedRun} (hr : r ∈ plan) {f : SourceFile}
    (hf : f ∈ r.call.files) : f ∈ planFiles plan := List.mem_flatMap.mpr ⟨r, hr, hf⟩

/-- A history holds files of the plan only. -/
theorem histories_subset {plan : List PlannedRun} {files : List SourceFile}
    (h : files ∈ histories plan) : files ⊆ planFiles plan := by
  refine accumulate_induction (P := fun files => files ⊆ planFiles plan) (List.nil_subset _) ?_ _ h
  intro past hpast r hr f hf
  rcases List.mem_append.mp hf with hf | hf
  · exact hpast hf
  · exact mem_planFiles hr hf

/-- A run builds on files of the plan only. -/
theorem pastOf_subset (plan : List PlannedRun) (r : PlannedRun) :
    pastOf plan r ⊆ planFiles plan := by
  unfold pastOf
  cases hp : parent r.ref (histories plan) with
  | none => exact List.nil_subset _
  | some files =>
    obtain ⟨i, -, hi⟩ := Option.bind_eq_some_iff.mp hp
    exact histories_subset (List.mem_of_getElem? hi)

/-- The contents of a path that are saved: those that are not empty and not the one known
before. -/
theorem versions_savedFiles (past files : List SourceFile) (p : Bytes) :
    versions p (savedFiles past files) = (versions p files).filter fun c =>
      c ≠ [] ∧ (versions p past).getLast? ≠ some c := by
  have hright : versions p files = (files.filter fun f => f.name = p).map (·.content) := rfl
  rw [versions, savedFiles, List.filter_filter, hright, List.filter_map, List.filter_filter]
  apply congrArg
  apply List.filter_congr
  intro f _
  by_cases hname : f.name = p
  · subst hname
    simp
  · simp [hname]

/-- The newest content is looked for among the later files first. -/
theorem newestContent_append (files files' : List SourceFile) (p : Bytes) :
    newestContent (files ++ files') p = (newestContent files' p).or (newestContent files p) := by
  rw [newestContent, versions_append, Versions.newest, List.filter_append, List.getLast?_append]
  rfl

/-- A run has no block of the path, or it saves the one content that the path has in it. -/
theorem newestContent_savedFiles {past files : List SourceFile} {p : Bytes}
    (hone : OneContent files)
    (hkey : ∀ u ∈ versions p past, ∀ c ∈ versions p files, checksum C u = checksum C c → u = c) :
    let changed := Versions.changes (checksum C)
      (Versions.lastKey (checksum C) none (versions p past)) (versions p files)
    (newestContent (savedFiles past files) p = none ∧ Overlay.stack changed = []) ∨
      ∃ c, newestContent (savedFiles past files) p = some c ∧ changed = [c] ∧ c ≠ [] := by
  intro changed
  rw [newestContent, versions_savedFiles]
  rcases hone.versions_eq p with hversions | ⟨n, c, hversions⟩
  · left
    simp [changed, hversions, Versions.changes, Versions.newest, Overlay.stack]
  have hlast : Versions.lastKey (checksum C) none (versions p past) = some (checksum C c) ↔
      (versions p past).getLast? = some c := by
    rw [Versions.lastKey, Option.or_none, Option.map_eq_some_iff]
    constructor
    · rintro ⟨u, hu, hsum⟩
      have hc : c ∈ versions p files := by rw [hversions]; simp
      rw [hu, hkey u (List.mem_of_getLast? hu) c hc hsum]
    · intro hc
      exact ⟨c, hc, rfl⟩
  have hchanged : changed = if (versions p past).getLast? = some c then [] else [c] := by
    simp only [changed, hversions, Versions.changes_replicate, hlast]
  by_cases hnone : c = [] ∨ (versions p past).getLast? = some c
  · left
    constructor
    · rw [hversions, Versions.newest_eq_none_iff]
      intro v hv
      obtain ⟨hv, hfull⟩ := List.mem_filter.mp hv
      rw [List.eq_of_mem_replicate hv] at hfull ⊢
      simp only [ne_eq, decide_eq_true_eq] at hfull
      rcases hnone with rfl | hsame
      · exact absurd rfl hfull.1
      · exact absurd hsame hfull.2
    · rw [hchanged]
      split
      · rfl
      · rcases hnone with rfl | hsame
        · rfl
        · contradiction
  · right
    rw [not_or] at hnone
    refine ⟨c, ?_, by rw [hchanged, if_neg hnone.2], hnone.1⟩
    rw [hversions, List.filter_eq_self.mpr, List.replicate_succ',
      Versions.newest_concat _ (by simpa using hnone.1)]
    intro v hv
    rw [List.eq_of_mem_replicate hv]
    simpa using hnone

/-! ## The documents of a run, seen later -/

/-- The documents of a run, read when all runs are over: their keys are among `K`, and they hold of
the path `p` what the run saved of it. -/
structure Offers (C : Crypto) (readXml : Bytes → Except Bytes Ptree) (cfg : CoqConfiguration)
    (K : Bytes → Option KeyInformation) (w : World) (p : Bytes) (docs : Documents)
    (files : List SourceFile) (s : Session cfg) : Prop where
  keysRead : ∀ T, ∃ T', addDbkeyPath C readXml T docs.keys = .ok T' ∧
    ∀ aid, CoqStore.find T' aid = (CoqStore.find T aid).or (CoqStore.find s.cache.keystore aid)
  known : ∀ aid ki, CoqStore.find s.cache.keystore aid = some ki → K aid = some ki
  blocksRead : ∀ T, ∃ T', addDbfbPath C readXml T docs.files = .ok T' ∧
    CoqStore.find T' (fileHash C p cfg.myId) =
      if newestContent files p = none then CoqStore.find T (fileHash C p cfg.myId)
      else some ((CoqFBlockStore.blocks s.cache.fblockstore (fileHash C p cfg.myId)).map
        rereadBlock)
  reread : ((CoqFBlockStore.blocks s.cache.fblockstore (fileHash C p cfg.myId)).map
      rereadBlock).map unnumbered =
    (CoqFBlockStore.blocks s.cache.fblockstore (fileHash C p cfg.myId)).map unnumbered
  saved : ∀ c, newestContent files p = some c → ∃ mine, Saved C s p [c] mine
  grown : Extends s.world.fs w.fs

/-- More keys and more chunks do no harm. -/
theorem Offers.mono {K K' : Bytes → Option KeyInformation} {w w' : World} {p : Bytes}
    {docs : Documents} {files : List SourceFile} {s : Session cfg}
    (h : Offers C readXml cfg K w p docs files s)
    (hK : ∀ aid ki, K aid = some ki → K' aid = some ki) (hext : Extends w.fs w'.fs) :
    Offers C readXml cfg K' w' p docs files s :=
  { h with
    known := fun aid ki hki => hK aid ki (h.known aid ki hki)
    grown := h.grown.trans hext }

/-- The run after which the documents are written. -/
theorem RunEffect.offers (hC : C.HexLawful) (hX : Reads readXml) {w : World} {p : Bytes}
    {finfos : CoqFInfoStore} {call : BackupCall} {s : Session cfg}
    (h : RunEffect C H p w finfos call.files s) (hfav : Favourable C H cfg w ∅ s.world.nassembly)
    {past : List SourceFile} (hone : OneContent call.files)
    (hkey : ∀ u ∈ versions p past, ∀ c ∈ versions p call.files, checksum C u = checksum C c → u = c)
    (hknown : knownChecksum finfos (fileHash C p cfg.myId) =
      Versions.lastKey (checksum C) none (versions p past))
    {K : Bytes → Option KeyInformation}
    (hK : ∀ aid ki, CoqStore.find s.cache.keystore aid = some ki → K aid = some ki) {w' : World}
    (hext : Extends s.world.fs w'.fs) :
    Offers C readXml cfg K w' p (call.documents C s) (savedFiles past call.files) s := by
  have hdocs := documented hC hX call s h.zeroFree
  obtain ⟨mine, hmine⟩ := h.saved hfav
  have hchanged : changedVersions C cfg finfos call.files p = Versions.changes (checksum C)
      (Versions.lastKey (checksum C) none (versions p past)) (versions p call.files) := by
    rw [changedVersions, hknown]
  have hsaves := newestContent_savedFiles hone hkey
  rw [← hchanged] at hsaves
  refine ⟨hdocs.keysRead, hK, fun T => ?_, h.map_rereadBlock hC hmine, fun c hc => ?_, hext⟩
  · obtain ⟨T', hread, hfind⟩ := hdocs.blocksRead (h.representable hfav) T
    refine ⟨T', hread, ?_⟩
    rw [hfind _ (fileHash_ne_nil hC p)]
    apply if_congr _ rfl rfl
    rw [hmine.blocks_eq_nil_iff]
    rcases hsaves with ⟨hnone, hstack⟩ | ⟨c, hc, hstack, hne⟩
    · rw [hnone, hstack]
      simp
    · rw [hc, hstack, Overlay.stack_singleton]
      simp [hne]
  · rcases hsaves with ⟨hnone, -⟩ | ⟨c', hc', hstack, -⟩
    · rw [hnone] at hc
      cases hc
    · rw [hc'] at hc
      cases hc
      rw [hstack] at hmine
      exact ⟨mine, hmine⟩

/-- What the next run knows of the path. -/
theorem RunEffect.known_next (hC : C.HexLawful) {w : World} {p : Bytes} {finfos : CoqFInfoStore}
    {files : List SourceFile} {s : Session cfg} (h : RunEffect C H p w finfos files s)
    {past : List SourceFile} (hknown : knownChecksum finfos (fileHash C p cfg.myId) =
      Versions.lastKey (checksum C) none (versions p past)) {finfos' : CoqFInfoStore}
    (hinfos : CoqStore.find finfos' (fileHash C p cfg.myId) =
      (CoqStore.find s.cache.finfostore (fileHash C p cfg.myId)).map
        (rereadInfo (fileHash C p cfg.myId))) :
    knownChecksum finfos' (fileHash C p cfg.myId) =
      Versions.lastKey (checksum C) none (versions p (past ++ files)) := by
  have hreread : knownChecksum finfos' (fileHash C p cfg.myId) =
      (knownChecksum s.cache.finfostore (fileHash C p cfg.myId)).map collapse := by
    rw [knownChecksum, hinfos, knownChecksum, Option.map_map, Option.map_map]
    rfl
  rw [hreread, h.known, hknown, versions_append, ← Versions.lastKey_append, Versions.lastKey,
    Option.or_none, Option.map_map]
  exact Option.map_congr fun v _ => collapse_toHex256 hC (C.sha3 v)

/-- A plan with one more run is the plan, then the run. -/
theorem backupPlan_concat (w : World) (plan : List PlannedRun) (r : PlannedRun)
    {st : World × List Documents} (h : backupPlan C H readXml cfg w plan = .ok st) :
    backupPlan C H readXml cfg w (plan ++ [r]) = planStep C H readXml cfg st r := by
  unfold backupPlan at h ⊢
  rw [List.foldlM_append, h]
  exact bind_pure (planStep C H readXml cfg st r)

/-- The file information that the next run starts with. -/
theorem refFInfos_parent {docs : List Documents} {infos : List CoqFInfoStore}
    (h : List.Forall₂ (fun d fi => addRefDbfi C readXml ∅ d.files = .ok fi ∧ AllRecordable fi)
      docs infos) (ref : Option ℕ) :
    refFInfos C readXml ((parent ref docs).map (·.files)) = .ok ((parent ref infos).getD ∅) ∧
      AllRecordable ((parent ref infos).getD ∅) := by
  have hrel := rel_parent h ref
  cases hd : parent ref docs <;> cases hi : parent ref infos <;> rw [hd, hi] at hrel <;> cases hrel
  · exact ⟨rfl, allRecordable_empty⟩
  · next hread => exact hread

/-- What the next run knows of a path. -/
theorem knownChecksum_parent {infos : List CoqFInfoStore} {past : List (List SourceFile)}
    {p : Bytes} (h : List.Forall₂ (fun fi files => knownChecksum fi (fileHash C p cfg.myId) =
      Versions.lastKey (checksum C) none (versions p files)) infos past) (ref : Option ℕ) :
    knownChecksum ((parent ref infos).getD ∅) (fileHash C p cfg.myId) =
      Versions.lastKey (checksum C) none (versions p ((parent ref past).getD [])) := by
  have hrel := rel_parent h ref
  cases hi : parent ref infos <;> cases hp : parent ref past <;> rw [hi, hp] at hrel <;> cases hrel
  · rw [Option.getD_none, knownChecksum, CoqStore.find_empty]
    rfl
  · next hknown => exact hknown

/-! ## Chains -/

/-- The runs of a chain after `n` runs: each refers to the one before. -/
def chainPlan : ℕ → List BackupCall → List PlannedRun
  | _, [] => []
  | n, call :: calls => ⟨call, if n = 0 then none else some (n - 1)⟩ :: chainPlan (n + 1) calls

/-- The plan of a chain has the files of the chain. -/
theorem planFiles_chainPlan (n : ℕ) (calls : List BackupCall) :
    planFiles (chainPlan n calls) = allFiles calls := by
  induction calls generalizing n with
  | nil => rfl
  | cons call calls ih => exact congrArg (call.files ++ ·) (ih (n + 1))

/-- The runs of the plan of a chain are the calls of the chain. -/
theorem mem_chainPlan {n : ℕ} {calls : List BackupCall} {r : PlannedRun}
    (h : r ∈ chainPlan n calls) : r.call ∈ calls := by
  induction calls generalizing n with
  | nil => cases h
  | cons call calls ih =>
    rcases List.mem_cons.mp h with rfl | h
    · exact List.mem_cons_self
    · exact List.mem_cons_of_mem _ (ih h)

/-- A plan in which each run refers to the one before it is the chain of these runs. -/
theorem foldlM_chainPlan (w : World) (docs : List Documents) (calls : List BackupCall) :
    (chainPlan docs.length calls).foldlM (planStep C H readXml cfg) (w, docs) =
      (backupChain C H readXml cfg w (docs.getLast?.map (·.files)) calls).map
        fun r => (r.1, docs ++ r.2) := by
  induction calls generalizing w docs with
  | nil => exact congrArg (fun ds => Except.ok (w, ds)) (List.append_nil docs).symm
  | cons call calls ih =>
    have href : (if docs.length = 0 then none else some (docs.length - 1)).bind (docs[·]?) =
        docs.getLast? := by
      rw [List.getLast?_eq_getElem?]
      split
      · next hzero =>
        rw [List.length_eq_zero_iff.mp hzero]
        rfl
      · rfl
    rw [chainPlan, List.foldlM_cons, planStep, backupChain]
    dsimp only
    rw [href]
    cases hbackup : lxrBackup C H readXml cfg w (docs.getLast?.map (·.files)) call with
    | error e => rfl
    | ok r =>
      obtain ⟨w', d⟩ := r
      have hnext := ih w' (docs ++ [d])
      rw [List.length_append, List.length_singleton, List.getLast?_concat] at hnext
      change (chainPlan (docs.length + 1) calls).foldlM (planStep C H readXml cfg)
        (w', docs ++ [d]) = _
      rw [hnext]
      dsimp only [Option.map_some]
      cases backupChain C H readXml cfg w' (some d.files) calls with
      | error e => rfl
      | ok r => exact congrArg (fun ds => Except.ok (r.1, ds)) (List.append_assoc docs [d] r.2)

/-- A chain is a plan. -/
theorem backupPlan_chainPlan (w : World) (calls : List BackupCall) :
    backupPlan C H readXml cfg w (chainPlan 0 calls) =
      backupChain C H readXml cfg w none calls := by
  refine (foldlM_chainPlan w [] calls).trans ?_
  change (backupChain C H readXml cfg w none calls).map (fun r => (r.1, [] ++ r.2)) = _
  cases backupChain C H readXml cfg w none calls <;> rfl

/-! ## The runs of a plan -/

/-- **What the runs of a plan offer** when all of them are over. -/
theorem backupPlan_offers (hC : C.HexLawful) (hX : Reads readXml) (H : Host) {p : Bytes}
    {plan : List PlannedRun} (hworks : ∀ f ∈ planFiles plan, BackupWorks C cfg p f)
    (htext : ∀ f ∈ planFiles plan, TextFile f) (hone : ∀ r ∈ plan, OneContent r.call.files)
    (hinj : Set.InjOn (checksum C) {v | v ∈ versions p (planFiles plan)}) (w : World) :
    ∃ w' docs infos, backupPlan C H readXml cfg w plan = .ok (w', docs) ∧
      w.nassembly ≤ w'.nassembly ∧
      List.Forall₂ (fun d fi => addRefDbfi C readXml ∅ d.files = .ok fi ∧ AllRecordable fi)
        docs infos ∧
      ∀ N, w'.nassembly ≤ N → Favourable C H cfg w ∅ N →
        Favourable C H cfg w' ∅ N ∧
        List.Forall₂ (fun fi files => knownChecksum fi (fileHash C p cfg.myId) =
          Versions.lastKey (checksum C) none (versions p files)) infos (histories plan) ∧
        ∃ K : Bytes → Option KeyInformation,
          (∀ aid ki, K aid = some ki →
            ∃ i ∈ Set.Ico w.nassembly w'.nassembly, aid = aidOf C H cfg i) ∧
          List.Forall₂ (fun d files => ∃ s : Session cfg, Offers C readXml cfg K w' p d files s)
            docs (savedByRun plan) := by
  induction plan using List.reverseRecOn with
  | nil =>
    refine ⟨w, [], [], rfl, Nat.le_refl _, .nil, fun N _ hfav => ⟨hfav, .nil, fun _ => none, ?_,
      .nil⟩⟩
    simp
  | append_singleton plan r ih =>
    rw [planFiles_concat] at hworks htext hinj
    obtain ⟨w', docs, infos, hplan, hle, hread, hrest⟩ :=
      ih (fun f hf => hworks f (List.mem_append_left _ hf))
        (fun f hf => htext f (List.mem_append_left _ hf))
        (fun r' hr' => hone r' (List.mem_append_left _ hr'))
        (hinj.mono fun v hv => by rw [versions_append]; exact List.mem_append_left _ hv)
    obtain ⟨href, hinfos⟩ := refFInfos_parent hread r.ref
    obtain ⟨s, hbackup, heffect⟩ := lxrBackup_effect hC H w' readXml href hinfos r.call
      (fun f hf => hworks f (List.mem_append_right _ hf))
      fun f hf => htext f (List.mem_append_right _ hf)
    have hdocs := documented hC hX r.call s heffect.zeroFree
    obtain ⟨finfos, hinfosRead, hrecordable, hfinfos⟩ := hdocs.infosRead
    have hle' := heffect.nassembly_le
    refine ⟨s.world, docs ++ [r.call.documents C s], infos ++ [finfos], ?_, Nat.le_trans hle hle',
      List.rel_append hread (.cons ⟨hinfosRead, hrecordable⟩ .nil), fun N hN hfav => ?_⟩
    · rw [backupPlan_concat w plan r hplan, planStep]
      dsimp only
      rw [show (r.ref.bind (docs[·]?)).map (·.files) = (parent r.ref docs).map (·.files) from rfl,
        hbackup]
    obtain ⟨hfav', hknown, K, hK, hoffers⟩ := hrest N (Nat.le_trans hle' hN) hfav
    have hfavRun : Favourable C H cfg w' ∅ s.world.nassembly :=
      hfav'.narrow (Nat.le_refl _) hN (Nat.le_refl _) fun i hi =>
        ⟨CoqStore.find_empty _, hfav'.absent i ⟨hi.1, Nat.lt_of_lt_of_le hi.2 hN⟩⟩
    have hfavNext := heffect.favourable N hN hfav'
    have hknownRun := knownChecksum_parent hknown r.ref
    have hnext := heffect.known_next hC hknownRun
      (hfinfos _ (fileHash_ne_nil hC p) (heffect.find_blocks hfavRun))
    have howned : ∀ aid ki, CoqStore.find s.cache.keystore aid = some ki →
        ∃ i ∈ Set.Ico w'.nassembly s.world.nassembly, aid = aidOf C H cfg i :=
      fun aid ki hki => heffect.keyed aid (by rw [hki]; rfl)
    have hkeys : ∀ aid ki, CoqStore.find s.cache.keystore aid = some ki →
        (K aid).or (CoqStore.find s.cache.keystore aid) = some ki := by
      intro aid ki hki
      cases hold : K aid with
      | none => exact hki
      | some ki' =>
        -- no two runs draw the same assembly identifier
        obtain ⟨i, hi, haid⟩ := hK aid ki' hold
        obtain ⟨j, hj, haid'⟩ := howned aid ki hki
        have hij := hfav.distinct ⟨hi.1, Nat.lt_of_lt_of_le hi.2 (Nat.le_trans hle' hN)⟩
          ⟨Nat.le_trans hle hj.1, Nat.lt_of_lt_of_le hj.2 hN⟩ (haid.symm.trans haid')
        have h1 := hi.2
        have h2 := hj.1
        omega
    rw [histories_concat, savedByRun_concat]
    refine ⟨hfavNext.narrow (Nat.le_refl _) (Nat.le_refl _) (Nat.le_refl _) fun i hi =>
        ⟨CoqStore.find_empty _, hfavNext.absent i hi⟩, List.rel_append hknown (.cons hnext .nil),
      fun aid => (K aid).or (CoqStore.find s.cache.keystore aid), fun aid ki hki => ?_,
      List.rel_append ?_ (.cons ⟨s, ?_⟩ .nil)⟩
    · rcases Option.or_eq_some_iff.mp hki with hold | ⟨-, hnew⟩
      · obtain ⟨i, hi, haid⟩ := hK aid ki hold
        exact ⟨i, ⟨hi.1, Nat.lt_of_lt_of_le hi.2 hle'⟩, haid⟩
      · obtain ⟨i, hi, haid⟩ := howned aid ki hnew
        exact ⟨i, ⟨Nat.le_trans hle hi.1, hi.2⟩, haid⟩
    · refine hoffers.imp ?_
      rintro d files ⟨s', h⟩
      exact ⟨s', h.mono (fun aid ki hki => by rw [hki]; rfl) heffect.grown⟩
    · refine heffect.offers hC hX hfavRun (hone r (by simp)) (fun u hu c hc => hinj ?_ ?_) hknownRun
        hkeys (Extends.refl _)
      · obtain ⟨f, hf, hname, rfl⟩ := mem_versions.mp hu
        exact mem_versions.mpr ⟨f, List.mem_append_left _ (pastOf_subset plan r hf), hname, rfl⟩
      · rw [Set.mem_ofPred_eq, versions_append]
        exact List.mem_append_right _ hc

/-! ## Loading the chosen documents -/

/-- The stores hold what was saved in `files` of the path `p`, and their keys are among `K`. -/
structure Collected (C : Crypto) (cfg : CoqConfiguration) (K : Bytes → Option KeyInformation)
    (w : World) (p : Bytes) (files : List SourceFile) (keys : CoqKeyStore)
    (fblocks : CoqFBlockStore) : Prop where
  known : ∀ aid ki, CoqStore.find keys aid = some ki → K aid = some ki
  saved : ∃ mine, Saved C (Session.init cfg toolEnvs toolDepth keys fblocks ∅ w) p
    (newestFull (versions p files)) mine

/-- **One more document.** -/
theorem Collected.step (hC : C.HexLawful) {K : Bytes → Option KeyInformation} {w : World}
    {p : Bytes} {files files' : List SourceFile} {keys : CoqKeyStore} {fblocks : CoqFBlockStore}
    (h : Collected C cfg K w p files keys fblocks) {docs : Documents} {s : Session cfg}
    (hoffers : Offers C readXml cfg K w p docs files' s) :
    ∃ keys' fblocks', addDbkeyPath C readXml keys docs.keys = .ok keys' ∧
      addDbfbPath C readXml fblocks docs.files = .ok fblocks' ∧
      Collected C cfg K w p (files ++ files') keys' fblocks' := by
  obtain ⟨keys', hkeys, hfindkeys⟩ := hoffers.keysRead keys
  obtain ⟨fblocks', hblocks, hfindblocks⟩ := hoffers.blocksRead fblocks
  have hnewest := newestContent_append files files' p
  refine ⟨keys', fblocks', hkeys, hblocks, fun aid ki hki => ?_, ?_⟩
  · rw [hfindkeys] at hki
    rcases Option.or_eq_some_iff.mp hki with hold | ⟨-, hnew⟩
    · exact h.known aid ki hold
    · exact hoffers.known aid ki hnew
  change ∃ mine, Saved C _ p (newestContent (files ++ files') p).toList mine
  cases hsaved : newestContent files' p with
  | none =>
    rw [hsaved, Option.none_or] at hnewest
    rw [hsaved, if_pos rfl] at hfindblocks
    rw [hnewest]
    obtain ⟨mine, hmine⟩ := h.saved
    refine ⟨mine, hmine.mono hC ?_ (fun x _ ki hki => ?_) (Extends.refl _) fun hempty =>
      hfindblocks.trans (hmine.absent hempty)⟩
    · have hsame : CoqFBlockStore.blocks fblocks' (fileHash C p cfg.myId) =
          CoqFBlockStore.blocks fblocks (fileHash C p cfg.myId) := by
        rw [CoqFBlockStore.blocks, hfindblocks]
        rfl
      exact congrArg _ hsame
    · change CoqStore.find keys x.aid = some ki at hki
      exact (hfindkeys x.aid).trans (by rw [hki]; rfl)
  | some c =>
    rw [hsaved, Option.some_or] at hnewest
    rw [hsaved, if_neg (by simp)] at hfindblocks
    rw [hnewest]
    obtain ⟨mine, hmine⟩ := hoffers.saved c hsaved
    refine ⟨mine, hmine.mono hC ?_ (fun x _ ki hki => ?_) hoffers.grown fun hempty => ?_⟩
    · have hread : CoqFBlockStore.blocks fblocks' (fileHash C p cfg.myId) =
          (CoqFBlockStore.blocks s.cache.fblockstore (fileHash C p cfg.myId)).map rereadBlock := by
        rw [CoqFBlockStore.blocks, hfindblocks, Option.getD_some]
      exact (congrArg _ hread).trans hoffers.reread
    · -- a key that is there already is the same one
      apply (hfindkeys x.aid).trans
      rw [hki]
      cases hold : CoqStore.find keys x.aid with
      | none => rfl
      | some ki' =>
        have hsame := (h.known x.aid ki' hold).symm.trans (hoffers.known x.aid ki hki)
        rw [Option.some_or, hsame]
    · cases hempty

/-- Loading the documents of further runs collects their files as well. -/
theorem Collected.load (hC : C.HexLawful) {K : Bytes → Option KeyInformation} {w : World}
    {p : Bytes} {docs : List Documents} {runs : List (List SourceFile)}
    (hoffers : List.Forall₂
      (fun d files => ∃ s : Session cfg, Offers C readXml cfg K w p d files s) docs runs)
    {files : List SourceFile} {keys : CoqKeyStore} {fblocks : CoqFBlockStore}
    (h : Collected C cfg K w p files keys fblocks) :
    ∃ keys' fblocks', loadDocuments C readXml keys fblocks docs = .ok (keys', fblocks') ∧
      Collected C cfg K w p (files ++ runs.flatten) keys' fblocks' := by
  induction hoffers generalizing files keys fblocks with
  | nil => exact ⟨keys, fblocks, rfl, by simpa using h⟩
  | @cons d files' docs runs hhead _ ih =>
    obtain ⟨s, hs⟩ := hhead
    obtain ⟨keys₁, fblocks₁, hkeys, hblocks, hstep⟩ := h.step hC hs
    obtain ⟨keys', fblocks', hload, hcollected⟩ := ih hstep
    refine ⟨keys', fblocks', ?_, ?_⟩
    · rw [loadDocuments, hkeys, hblocks]
      exact hload
    · rwa [List.flatten_cons, ← List.append_assoc]

/-- Nothing is collected before the first document is loaded. -/
theorem collected_start (K : Bytes → Option KeyInformation) (w : World) (p : Bytes) :
    Collected C cfg K w p [] ∅ ∅ where
  known aid ki hki := by
    rw [CoqStore.find_empty] at hki
    cases hki
  saved := ⟨[], rfl, by simp, rfl, fun _ => CoqStore.find_empty _⟩

/-- What is loaded with a choice of documents. -/
theorem backupPlan_collected (hC : C.Lawful) (hX : Reads readXml) (H : Host) (w₀ : World)
    {plan : List PlannedRun} (hfiles : FilesWork C cfg (planFiles plan))
    (htext : ∀ f ∈ planFiles plan, TextFile f) (hone : ∀ r ∈ plan, OneContent r.call.files)
    (hcontents : C.NoCollision {m | ∃ f ∈ planFiles plan, m = f.content}) :
    ∃ w docs, backupPlan C H readXml cfg w₀ plan = .ok (w, docs) ∧
      (Favourable C H cfg w₀ ∅ w.nassembly → ∀ runs,
        ∃ keys fblocks, loadDocuments C readXml ∅ ∅ (choose runs docs) = .ok (keys, fblocks) ∧
          ∀ f ∈ planFiles plan, ∃ K,
            Collected C cfg K w f.name (chosenFiles plan runs) keys fblocks) := by
  refine hfiles.forall_loaded hC.hex (backupPlan C H readXml cfg w₀ plan)
    (fun runs docs => loadDocuments C readXml ∅ ∅ (choose runs docs))
    (fun w => Favourable C H cfg w₀ ∅ w.nassembly)
    (fun runs w keys fblocks p => ∃ K, Collected C cfg K w p (chosenFiles plan runs) keys fblocks)
    fun p hworks => ?_
  obtain ⟨w, docs, infos, hplan, -, -, hrest⟩ := backupPlan_offers hC.hex hX H hworks htext hone
    (fun u hu v hv => checksum_injOn hC.hex hcontents hu hv) w₀
  refine ⟨w, docs, hplan, fun hfav runs => ?_⟩
  obtain ⟨-, -, K, -, hoffers⟩ := hrest w.nassembly (Nat.le_refl _) hfav
  obtain ⟨keys, fblocks, hload, h⟩ :=
    Collected.load hC.hex (forall₂_choose hoffers runs) (collected_start K w p)
  exact ⟨keys, fblocks, hload, K, h⟩

/-! ## What is restored -/

/-- What a run saves are files of the plan that are not empty. -/
theorem mem_savedByRun {plan : List PlannedRun} {files : List SourceFile}
    (hfiles : files ∈ savedByRun plan) {f : SourceFile} (hf : f ∈ files) :
    f ∈ planFiles plan ∧ f.content ≠ [] := by
  induction plan using List.reverseRecOn with
  | nil => cases hfiles
  | append_singleton plan r ih =>
    rw [planFiles_concat]
    rw [savedByRun_concat, List.mem_append, List.mem_singleton] at hfiles
    rcases hfiles with hfiles | rfl
    · obtain ⟨hmem, hne⟩ := ih hfiles
      exact ⟨List.mem_append_left _ hmem, hne⟩
    · obtain ⟨hmem, hsaved⟩ := List.mem_filter.mp hf
      exact ⟨List.mem_append_right _ hmem, (of_decide_eq_true hsaved).1⟩

/-- The files of the chosen runs are files of the plan that are not empty. -/
theorem mem_chosenFiles {plan : List PlannedRun} {runs : List ℕ} {f : SourceFile}
    (h : f ∈ chosenFiles plan runs) : f ∈ planFiles plan ∧ f.content ≠ [] := by
  obtain ⟨files, hfiles, hf⟩ := List.mem_flatten.mp h
  obtain ⟨i, -, hi⟩ := List.mem_filterMap.mp hfiles
  exact mem_savedByRun (List.mem_of_getElem? hi) hf

/-- Keys and block lists that are collected archive the newest content. -/
theorem Collected.archives {K : Bytes → Option KeyInformation} {w : World} {p : Bytes}
    {files : List SourceFile} {keys : CoqKeyStore} {fblocks : CoqFBlockStore}
    (h : Collected C cfg K w p files keys fblocks) : Archives C cfg files w keys fblocks p := by
  obtain ⟨mine, hmine⟩ := h.saved
  exact hmine.archives

/-- A path with no content among the files collected has no block list. -/
theorem Collected.find_eq_none {K : Bytes → Option KeyInformation} {w : World} {p : Bytes}
    {files : List SourceFile} {keys : CoqKeyStore} {fblocks : CoqFBlockStore}
    (h : Collected C cfg K w p files keys fblocks) (hnone : newestContent files p = none) :
    CoqStore.find fblocks (fileHash C p cfg.myId) = none := by
  obtain ⟨mine, hmine⟩ := h.saved
  apply hmine.absent
  change (newestContent files p).toList = []
  rw [hnone]
  rfl

/-- **Any choice of documents.**  Files are backed up in runs each of which refers to any run before
it, or to none, and nothing fails.  The documents of any of the runs, in any order, can be loaded
together, and `LXRrestore` makes of each name that one of these runs saved a new file with what the
last of them saved.  It has nothing of the other names. -/
theorem lxrBackup_choice (hC : C.Lawful) (hX : Reads readXml) (H H' : Host)
    (cfg : CoqConfiguration) (w₀ : World) (plan : List PlannedRun)
    (hfiles : FilesWork C cfg (planFiles plan)) (htext : ∀ f ∈ planFiles plan, TextFile f)
    (hone : ∀ r ∈ plan, OneContent r.call.files)
    (hcontents : C.NoCollision {m | ∃ f ∈ planFiles plan, m = f.content}) :
    ∃ w docs, backupPlan C H readXml cfg w₀ plan = .ok (w, docs) ∧
      (Favourable C H cfg w₀ ∅ w.nassembly → ∀ runs : List ℕ,
        ∃ keys fblocks, loadDocuments C readXml ∅ ∅ (choose runs docs) = .ok (keys, fblocks) ∧
          (∀ f ∈ planFiles plan, (∀ g ∈ chosenFiles plan runs, g.name ≠ f.name) →
            CoqStore.find fblocks (fileHash C f.name cfg.myId) = none) ∧
          ∀ (V : View Bytes) (content : List Bytes → Bytes) (base : PathText Bytes)
            (B : List Bytes), V.resolve base = .ok B → V.tree.node B = some .directory →
          ∀ names : List Bytes, [] ∉ names →
          (∀ n ∈ names, ∃ f ∈ chosenFiles plan runs, f.name = n) →
          ∃ done, Restores (chosenFiles plan runs) V content base names
            (lxrRestore C H' cfg keys fblocks w V content base names) done) := by
  obtain ⟨w, docs, hplan, hrest⟩ := backupPlan_collected hC hX H w₀ hfiles htext hone hcontents
  refine ⟨w, docs, hplan, fun hfav runs => ?_⟩
  obtain ⟨keys, fblocks, hload, hcollected⟩ := hrest hfav runs
  refine ⟨keys, fblocks, hload, fun f hf hother => ?_,
    fun V content base B hbase hdir names hempty hnames => ?_⟩
  · obtain ⟨K, h⟩ := hcollected f hf
    apply h.find_eq_none
    cases hc : newestContent (chosenFiles plan runs) f.name with
    | none => rfl
    | some c =>
      obtain ⟨g, hg, hname, -⟩ := mem_versions.mp (Versions.newest_mem hc).1
      exact absurd hname (hother g hg)
  · refine Archives.restores hC.hex H' content hbase hdir hempty (fun n hn => ?_) fun n hn => ?_
    · obtain ⟨f, hf, rfl⟩ := hnames n hn
      obtain ⟨K, h⟩ := hcollected f (mem_chosenFiles hf).1
      exact h.archives
    · obtain ⟨f, hf, rfl⟩ := hnames n hn
      obtain ⟨c, hc, -⟩ := exists_newestContent hf (mem_chosenFiles hf).2
      exact ⟨c, hc⟩

section Simple

/-- The plan of two runs, the second of which refers to the first. -/
theorem plan_twoRuns (c c' : Bytes) (h : c.length < 9223372036854775808)
    (h' : c'.length < 9223372036854775808) (hc : c.length ≤ blockSz) (hc' : c'.length ≤ blockSz)
    (hne : c.getD 0 0 ≠ c'.getD 0 0) :
    let H := numberedHost fun _ _ => allWorks
    let plan := chainPlan 0 (twoRuns c c' h h')
    FilesWork simple config16 (planFiles plan) ∧ (∀ f ∈ planFiles plan, TextFile f) ∧
      (∀ r ∈ plan, OneContent r.call.files) ∧
      simple.NoCollision {m | ∃ f ∈ planFiles plan, m = f.content} ∧
      ∃ w docs, backupPlan simple H parse config16 emptyWorld plan = .ok (w, docs) ∧
        Favourable simple H config16 emptyWorld ∅ w.nassembly := by
  intro H plan
  obtain ⟨w, docs, -, -, -, hchain, hfav, -⟩ := twoRuns_chained c c' h h' hc hc' hne
  have hplan : planFiles plan = allFiles (twoRuns c c' h h') := planFiles_chainPlan 0 _
  rw [hplan]
  exact ⟨filesWork_twoRuns, textFile_twoRuns, fun r hr => oneContent_twoRuns _ (mem_chainPlan hr),
    noCollision_twoRuns hne, w, docs, (backupPlan_chainPlan emptyWorld _).trans hchain, hfav⟩

end Simple

/-- With the documents in the wrong order a file is restored into `/o` with its old content. -/
theorem lxrBackup_choice_simple :
    let H := numberedHost fun _ _ => allWorks
    let plan := chainPlan 0 (twoRuns [1] [2, 3] (by decide) (by decide))
    ∃ w docs keys fblocks loc,
      backupPlan simple H parse config16 emptyWorld plan = .ok (w, docs) ∧
      loadDocuments simple parse ∅ ∅ (choose [1, 0] docs) = .ok (keys, fblocks) ∧
      let r := lxrRestore simple H config16 keys fblocks w outputView (fun _ => [])
        ⟨true, [.name [111]]⟩ [ascii "f"]
      restoreStatus r = some 0 ∧ r.1.view.tree.node loc = some .regular ∧
        r.1.content loc = [1] := by
  intro H plan
  obtain ⟨hfiles, htext, hone, hcontents, w₁, docs₁, hplan₁, hfav⟩ := plan_twoRuns [1] [2, 3]
    (by decide) (by decide) (by decide) (by decide) (by decide)
  have hversions : versions (ascii "f") (chosenFiles plan [1, 0]) = [[2, 3], [1]] := by decide
  have hnames : ∀ n ∈ [ascii "f"], ∃ f ∈ chosenFiles plan [1, 0], f.name = n := by
    intro n hn
    rw [List.mem_singleton.mp hn]
    have hmem : [1] ∈ versions (ascii "f") (chosenFiles plan [1, 0]) := by rw [hversions]; decide
    obtain ⟨f, hf, hname, -⟩ := mem_versions.mp hmem
    exact ⟨f, hf, hname⟩
  obtain ⟨w, docs, hplan, hrest⟩ := lxrBackup_choice simple_lawful parse_reads H H config16
    emptyWorld plan hfiles htext hone hcontents
  obtain ⟨rfl, rfl⟩ := Prod.mk.inj (Except.ok.inj (hplan₁.symm.trans hplan))
  obtain ⟨keys, fblocks, hload, -, hrestore⟩ := hrest hfav [1, 0]
  obtain ⟨done, hdone⟩ := hrestore outputView (fun _ => []) ⟨true, [.name [111]]⟩ [[111]]
    (by decide) (by decide) [ascii "f"] (by decide) hnames
  have hzero := hdone.status.mpr (by decide)
  obtain ⟨q, hq, hname⟩ := hdone.exists_done hzero List.mem_cons_self
  refine ⟨w₁, docs₁, keys, fblocks, q.2, hplan, hload, hzero, (hdone.isNew q hq).2, ?_⟩
  have hnewest := hdone.newest q hq
  rw [hname, newestContent, hversions] at hnewest
  exact Option.some.inj (hnewest.trans (by decide))

/-! ## The documents of a run and of those it builds on -/

/-- The newest content after a run is what the run saved, or the one before. -/
theorem newestContent_append_savedFiles (past : List SourceFile) {files : List SourceFile}
    (hone : OneContent files) (p : Bytes) :
    newestContent (past ++ files) p =
      (newestContent (savedFiles past files) p).or (newestContent past p) := by
  rw [newestContent_append]
  have hsaved : newestContent (savedFiles past files) p =
      Versions.newest (fun v => v ≠ []) ((versions p files).filter fun c =>
        c ≠ [] ∧ (versions p past).getLast? ≠ some c) := by
    rw [newestContent, versions_savedFiles]
  rw [hsaved, newestContent, newestContent]
  rcases hone.versions_eq p with hversions | ⟨n, c, hversions⟩
  · rw [hversions]
    rfl
  rw [hversions]
  by_cases hsave : c ≠ [] ∧ (versions p past).getLast? ≠ some c
  · rw [List.filter_eq_self.mpr fun v hv => by
      rw [List.eq_of_mem_replicate hv]
      exact decide_eq_true hsave]
  rw [List.filter_eq_nil_iff.mpr fun v hv => by
    rw [List.eq_of_mem_replicate hv]
    simpa using hsave]
  by_cases hc : c = []
  · have hnone : Versions.newest (fun v => v ≠ []) (List.replicate (n + 1) c) = none :=
      Versions.newest_eq_none_iff.mpr fun v hv => by simp [List.eq_of_mem_replicate hv, hc]
    rw [hnone]
    rfl
  · -- the content was there before
    have hlast : (versions p past).getLast? = some c := by
      by_contra hne
      exact hsave ⟨hc, hne⟩
    obtain ⟨us, hus⟩ := List.getLast?_eq_some_iff.mp hlast
    rw [hus, List.replicate_succ', Versions.newest_concat _ (by simpa using hc),
      Versions.newest_concat _ (by simpa using hc)]
    rfl

/-- For each run, the numbers of the runs it builds on and its own. -/
def lineagesOf (plan : List PlannedRun) : List (List ℕ) := lineages PlannedRun.ref plan

-- a full backup, two differential ones, and one that is incremental to the second of them
example (c : BackupCall) : lineagesOf [⟨c, none⟩, ⟨c, some 0⟩, ⟨c, some 0⟩, ⟨c, some 2⟩] =
    [[0], [0, 1], [0, 2], [0, 2, 3]] := rfl

/-- What the runs of a lineage saved last is the newest content in them. -/
theorem newestContent_lineage {plan : List PlannedRun} (hone : ∀ r ∈ plan, OneContent r.call.files)
    {l : List ℕ} (hl : l ∈ lineagesOf plan) (p : Bytes) :
    newestContent (chosenFiles plan l) p = newestContent (planFiles (choose l plan)) p := by
  have hsaved : List.Forall₂ (fun l files =>
      newestContent (choose l (savedByRun plan)).flatten p = newestContent files p)
      (lineagesOf plan) (histories plan) := by
    refine made_lineage (P := fun saved files =>
      newestContent saved.flatten p = newestContent files p) rfl ?_
    intro saved past h r hr
    rw [newestContent_append_savedFiles past (hone r hr), List.flatten_append, newestContent_append,
      h, List.flatten_singleton]
  have hfiles : List.Forall₂ (fun l files => planFiles (choose l plan) = files)
      (lineagesOf plan) (histories plan) := by
    have h : List.Forall₂ (fun l files => planFiles (choose l (made PlannedRun.ref
        (fun past r => past ++ r.call.files) [] (fun _ r => r) plan)) = files)
        (lineagesOf plan) (histories plan) := by
      refine made_lineage (P := fun runs files => planFiles runs = files) rfl ?_
      intro runs past h r _
      rw [planFiles_concat, h]
    rwa [made_self] at h
  obtain ⟨i, hi⟩ := List.getElem?_of_mem hl
  have h1 := rel_getElem? hsaved i
  have h2 := rel_getElem? hfiles i
  rw [hi] at h1 h2
  cases hx : (histories plan)[i]? <;> rw [hx] at h1 h2 <;> cases h1
  cases h2
  next h1 h2 =>
    rw [h2]
    exact h1

/-- What a restore does depends on the newest contents only. -/
theorem Restores.congr {files files' : List SourceFile} {V : View Bytes}
    {content : List Bytes → Bytes} {base : PathText Bytes} {names : List Bytes}
    {r : RestoreRun cfg × Option Abort} {done : List (Bytes × List Bytes)}
    (h : Restores files V content base names r done)
    (hsame : ∀ p, newestContent files p = newestContent files' p) :
    Restores files' V content base names r done :=
  { h with newest := fun q hq => (h.newest q hq).trans (hsame q.1) }

/-- Only elements of the list are chosen. -/
theorem choose_subset {α : Type*} (is : List ℕ) (xs : List α) : choose is xs ⊆ xs := by
  intro x hx
  obtain ⟨i, -, hi⟩ := List.mem_filterMap.mp hx
  exact List.mem_of_getElem? hi

/-- **A run and those it builds on.**  Files are backed up in runs each of which refers to any run
before it, or to none, and nothing fails.  With the documents of a run and of those it builds on
`LXRrestore` makes of each file that was not always empty in these runs a new file with the newest
content in them that is not empty. -/
theorem lxrBackup_lineage (hC : C.Lawful) (hX : Reads readXml) (H H' : Host)
    (cfg : CoqConfiguration) (w₀ : World) (plan : List PlannedRun)
    (hfiles : FilesWork C cfg (planFiles plan)) (htext : ∀ f ∈ planFiles plan, TextFile f)
    (hone : ∀ r ∈ plan, OneContent r.call.files)
    (hcontents : C.NoCollision {m | ∃ f ∈ planFiles plan, m = f.content}) :
    ∃ w docs, backupPlan C H readXml cfg w₀ plan = .ok (w, docs) ∧
      (Favourable C H cfg w₀ ∅ w.nassembly → ∀ l ∈ lineagesOf plan,
        ∃ keys fblocks, loadDocuments C readXml ∅ ∅ (choose l docs) = .ok (keys, fblocks) ∧
          ∀ (V : View Bytes) (content : List Bytes → Bytes) (base : PathText Bytes)
            (B : List Bytes), V.resolve base = .ok B → V.tree.node B = some .directory →
          ∀ names : List Bytes, [] ∉ names →
          (∀ n ∈ names, ∃ f ∈ planFiles (choose l plan), f.name = n ∧ f.content ≠ []) →
          ∃ done, Restores (planFiles (choose l plan)) V content base names
            (lxrRestore C H' cfg keys fblocks w V content base names) done) := by
  obtain ⟨w, docs, hplan, hrest⟩ := backupPlan_collected hC hX H w₀ hfiles htext hone hcontents
  refine ⟨w, docs, hplan, fun hfav l hl => ?_⟩
  obtain ⟨keys, fblocks, hload, hcollected⟩ := hrest hfav l
  refine ⟨keys, fblocks, hload, fun V content base B hbase hdir names hempty hnames => ?_⟩
  have hsame := newestContent_lineage hone hl
  have harch : ∀ n ∈ names, Archives C cfg (chosenFiles plan l) w keys fblocks n := by
    intro n hn
    obtain ⟨f, hf, rfl, -⟩ := hnames n hn
    obtain ⟨r, hr, hmem⟩ := List.mem_flatMap.mp hf
    obtain ⟨K, h⟩ := hcollected f (mem_planFiles (choose_subset l plan hr) hmem)
    exact h.archives
  obtain ⟨done, hdone⟩ := Archives.restores hC.hex H' content hbase hdir hempty harch
    fun n hn => by
      obtain ⟨f, hf, rfl, hne⟩ := hnames n hn
      obtain ⟨c, hc, -⟩ := exists_newestContent hf hne
      exact ⟨c, (hsame f.name).trans hc⟩
  exact ⟨done, hdone.congr hsame⟩

/-- The first version of a file is restored into `/o` after the second one was backed up. -/
theorem lxrBackup_lineage_simple :
    let H := numberedHost fun _ _ => allWorks
    let plan := chainPlan 0 (twoRuns [1] [2, 3] (by decide) (by decide))
    ∃ w docs keys fblocks loc,
      backupPlan simple H parse config16 emptyWorld plan = .ok (w, docs) ∧
      loadDocuments simple parse ∅ ∅ (choose [0] docs) = .ok (keys, fblocks) ∧
      let r := lxrRestore simple H config16 keys fblocks w outputView (fun _ => [])
        ⟨true, [.name [111]]⟩ [ascii "f"]
      restoreStatus r = some 0 ∧ r.1.view.tree.node loc = some .regular ∧
        r.1.content loc = [1] := by
  intro H plan
  obtain ⟨hfiles, htext, hone, hcontents, w₁, docs₁, hplan₁, hfav⟩ := plan_twoRuns [1] [2, 3]
    (by decide) (by decide) (by decide) (by decide) (by decide)
  have hversions : versions (ascii "f") (planFiles (choose [0] plan)) = [[1]] := by decide
  have hnames : ∀ n ∈ [ascii "f"], ∃ f ∈ planFiles (choose [0] plan),
      f.name = n ∧ f.content ≠ [] := by
    intro n hn
    rw [List.mem_singleton.mp hn]
    exact ⟨plainFile (ascii "f") [1] (by decide), List.mem_cons_self, rfl, by decide⟩
  obtain ⟨w, docs, hplan, hrest⟩ := lxrBackup_lineage simple_lawful parse_reads H H config16
    emptyWorld plan hfiles htext hone hcontents
  obtain ⟨rfl, rfl⟩ := Prod.mk.inj (Except.ok.inj (hplan₁.symm.trans hplan))
  obtain ⟨keys, fblocks, hload, hrestore⟩ := hrest hfav [0] List.mem_cons_self
  obtain ⟨done, hdone⟩ := hrestore outputView (fun _ => []) ⟨true, [.name [111]]⟩ [[111]]
    (by decide) (by decide) [ascii "f"] (by decide) hnames
  have hzero := hdone.status.mpr (by decide)
  obtain ⟨q, hq, hname⟩ := hdone.exists_done hzero List.mem_cons_self
  refine ⟨w₁, docs₁, keys, fblocks, q.2, hplan, hload, hzero, (hdone.isNew q hq).2, ?_⟩
  have hnewest := hdone.newest q hq
  rw [hname, newestContent, hversions] at hnewest
  exact Option.some.inj (hnewest.trans (by decide))

end Elykseer.Analysis
