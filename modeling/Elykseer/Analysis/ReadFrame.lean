import Elykseer.Analysis.Calls
import Elykseer.Analysis.RestoreLoop

/-!
# What reading does to the chunk directory

`chunk_path` makes the directory of a chunk if it is missing, for the reading side as for
the writing side.  So `recall` leaves the files alone but makes the directories of the
chunks that are not there, level by level: it changes nothing exactly if none of them is
missing, or the first level that is missing cannot be made (`recall_fs_eq_iff`).  A drain
of the read queue calls it for the assemblies that no read environment holds, up to the
first one that cannot be restored (`attempts`); from one drain to whole runs, `LXRverify`
and `LXRrestore` included, it is one invariant: directories are only added (`DirsGrow`).
-/

set_option autoImplicit false

namespace Elykseer.Analysis

open Elykseer.Model Elykseer.Foundation

variable {C : Crypto} {H : Host} {cfg : CoqConfiguration}

/-! ## Directories are only added -/

/-- The files are the same, and every directory is still there. -/
structure DirsGrow (fs fs' : FileSystem) : Prop where
  files : fs'.files = fs.files
  dirs : ∀ p, fs.dirs p = true → fs'.dirs p = true

/-- Nothing has changed at first. -/
theorem DirsGrow.refl (fs : FileSystem) : DirsGrow fs fs := ⟨rfl, fun _ h => h⟩

/-- Directories that appear in two steps appear in one. -/
theorem DirsGrow.trans {fs fs' fs'' : FileSystem} (h : DirsGrow fs fs') (h' : DirsGrow fs' fs'') :
    DirsGrow fs fs'' :=
  ⟨h'.files.trans h.files, fun p hp => h'.dirs p (h.dirs p hp)⟩

/-- Directories that appeared and are not there were there before. -/
theorem DirsGrow.antisymm {fs fs' : FileSystem} (h : DirsGrow fs fs') (h' : DirsGrow fs' fs) :
    fs' = fs := by
  obtain ⟨files, dirs, parent⟩ := fs
  obtain ⟨files', dirs', parent'⟩ := fs'
  obtain rfl : files' = files := h.files
  obtain rfl : dirs' = dirs := by
    funext p
    rw [Bool.eq_iff_iff]
    exact ⟨h'.dirs p, h.dirs p⟩
  rfl

/-- Two steps change nothing if and only if neither of them does. -/
theorem DirsGrow.eq_iff {fs fs' fs'' : FileSystem} (h : DirsGrow fs fs') (h' : DirsGrow fs' fs'') :
    fs'' = fs ↔ fs' = fs ∧ fs'' = fs' := by
  constructor
  · rintro rfl
    have heq := h.antisymm h'
    exact ⟨heq, heq.symm⟩
  · rintro ⟨rfl, rfl⟩
    rfl

/-- The first directory that `create_directories` makes for the first `k` parts of `p`: the one below
the last that exists. -/
def firstMissing (dirs : Path → Bool) (p : Path) : ℕ → Option Path
  | 0 => none
  | k + 1 =>
    if dirs (p.take (k + 1)) then none else (firstMissing dirs p k).or (some (p.take (k + 1)))

/-- With nothing missing, nothing is made. -/
theorem makeLevels_of_none {mkdir dirs : Path → Bool} {p : Path} {k : ℕ}
    (h : firstMissing dirs p k = none) : makeLevels mkdir dirs p k = (dirs, true) := by
  cases k with
  | zero => rfl
  | succ k =>
    rw [firstMissing] at h
    split at h
    · next hdir => rw [makeLevels, if_pos hdir]
    · cases hk : firstMissing dirs p k <;> rw [hk] at h <;> cases h

/-- All depends on whether the first missing directory can be made. -/
theorem makeLevels_of_first (mkdir : Path → Bool) {dirs : Path → Bool} {p q : Path} {k : ℕ}
    (h : firstMissing dirs p k = some q) :
    dirs q = false ∧ (mkdir q = false → makeLevels mkdir dirs p k = (dirs, false)) ∧
      (mkdir q = true → (makeLevels mkdir dirs p k).1 q = true) := by
  induction k with
  | zero => cases h
  | succ k ih =>
    rw [firstMissing] at h
    rw [makeLevels]
    split at h
    · cases h
    next hdir =>
    rw [if_neg hdir]
    cases hk : firstMissing dirs p k with
    | none =>
      rw [hk, Option.none_or, Option.some.injEq] at h
      subst h
      rw [makeLevels_of_none hk]
      refine ⟨by simpa using hdir, fun hno => by simp [hno], fun hyes => ?_⟩
      simp only [hyes, Bool.and_self, if_true]
      exact Function.update_self ..
    | some q' =>
      rw [hk, Option.some_or, Option.some.injEq] at h
      subst h
      obtain ⟨hmissing, hno, hyes⟩ := ih hk
      refine ⟨hmissing, fun hq => by rw [hno hq]; rfl, fun hq => ?_⟩
      dsimp only
      split
      · change Function.update (makeLevels mkdir dirs p k).1 (p.take (k + 1)) true q' = true
        by_cases heq : q' = p.take (k + 1)
        · rw [heq, Function.update_self]
        · rw [Function.update_of_ne heq]
          exact hyes hq
      · exact hyes hq

/-- The directories of the chunks of an assembly are there, or the first that is missing cannot be
made. -/
def DirsSettled (C : Crypto) (cfg : CoqConfiguration) (mkdir : Path → Bool) (fs : FileSystem)
    (aid : Bytes) (cids : List ℕ) : Prop :=
  ∀ cid ∈ cids, ∀ q, firstMissing fs.dirs (dirOf C cfg aid cid) (dirOf C cfg aid cid).length =
    some q → mkdir q = false

/-! ## One assembly -/

/-- One round of `recall` changes nothing exactly if the directories of the chunk are settled. -/
theorem recallChunk_grows (hC : C.HexLawful) (aid : Bytes) (mkdir : Path → Bool)
    (acc : CoqAssemblyEncrypted.Recalling cfg.nchunks) (cid : ℕ) :
    DirsGrow acc.fs (CoqAssemblyEncrypted.recallChunk C cfg aid mkdir acc cid).fs ∧
      ((CoqAssemblyEncrypted.recallChunk C cfg aid mkdir acc cid).fs = acc.fs ↔
        DirsSettled C cfg mkdir acc.fs aid [cid]) := by
  have hfs : (CoqAssemblyEncrypted.recallChunk C cfg aid mkdir acc cid).fs =
      (acc.fs.createDirectories (dirOf C cfg aid cid) mkdir).1 := by
    unfold CoqAssemblyEncrypted.recallChunk
    rw [chunkPath_eq hC]
    cases (acc.fs.createDirectories (dirOf C cfg aid cid) mkdir).2 with
    | false => rfl
    | true =>
      rw [if_pos rfl]
      dsimp only
      split <;> rfl
  have hgrow : DirsGrow acc.fs (acc.fs.createDirectories (dirOf C cfg aid cid) mkdir).1 :=
    ⟨rfl, fun _ hq => makeLevels_mono _ _ _ hq⟩
  rw [hfs]
  refine ⟨hgrow, ?_⟩
  unfold DirsSettled
  rw [List.forall_mem_singleton]
  constructor
  · intro heq q hq
    obtain ⟨hmissing, -, hyes⟩ := makeLevels_of_first mkdir hq
    cases hmkdir : mkdir q with
    | false => rfl
    | true =>
      -- the directory is there now
      have hnew : acc.fs.dirs q = true := (congrArg (fun fs => fs.dirs q) heq).symm.trans (hyes hmkdir)
      rw [hmissing] at hnew
      cases hnew
  · intro hsettled
    have hsame : (acc.fs.createDirectories (dirOf C cfg aid cid) mkdir).1.dirs = acc.fs.dirs := by
      change (makeLevels mkdir acc.fs.dirs (dirOf C cfg aid cid) (dirOf C cfg aid cid).length).1 = _
      cases hfirst : firstMissing acc.fs.dirs (dirOf C cfg aid cid)
        (dirOf C cfg aid cid).length with
      | none => rw [makeLevels_of_none hfirst]
      | some q => rw [(makeLevels_of_first mkdir hfirst).2.1 (hsettled q hfirst)]
    exact hgrow.antisymm ⟨rfl, fun q hq => by rw [← hsame]; exact hq⟩

/-- The directories of the chunks are made one after the other. -/
theorem recallChunks_grow (hC : C.HexLawful) (aid : Bytes) (mkdir : Path → Bool) (cids : List ℕ)
    (acc : CoqAssemblyEncrypted.Recalling cfg.nchunks) :
    DirsGrow acc.fs (cids.foldl (CoqAssemblyEncrypted.recallChunk C cfg aid mkdir) acc).fs ∧
      ((cids.foldl (CoqAssemblyEncrypted.recallChunk C cfg aid mkdir) acc).fs = acc.fs ↔
        DirsSettled C cfg mkdir acc.fs aid cids) := by
  induction cids generalizing acc with
  | nil => exact ⟨DirsGrow.refl _, by simp [DirsSettled]⟩
  | cons cid cids ih =>
    obtain ⟨hgrow, hiff⟩ := recallChunk_grows hC aid mkdir acc cid
    obtain ⟨hgrow', hiff'⟩ := ih (CoqAssemblyEncrypted.recallChunk C cfg aid mkdir acc cid)
    rw [List.foldl_cons, hgrow.eq_iff hgrow']
    refine ⟨hgrow.trans hgrow', ?_⟩
    have hcons : DirsSettled C cfg mkdir acc.fs aid (cid :: cids) ↔
        DirsSettled C cfg mkdir acc.fs aid [cid] ∧ DirsSettled C cfg mkdir acc.fs aid cids := by
      unfold DirsSettled
      rw [List.forall_mem_cons, List.forall_mem_singleton]
    rw [hcons, ← hiff]
    constructor
    · rintro ⟨hfs, hrest⟩
      refine ⟨hfs, ?_⟩
      rw [hiff', hfs] at hrest
      exact hrest
    · rintro ⟨hfs, hrest⟩
      refine ⟨hfs, ?_⟩
      rw [hiff', hfs]
      exact hrest

/-- **`recall` changes nothing** if and only if the directories of each chunk are there, or the first of
them that is missing cannot be made. -/
theorem recall_fs_eq_iff (hC : C.HexLawful) (cfg : CoqConfiguration) (aid : Bytes)
    (mkdir : Path → Bool) (fs : FileSystem) :
    DirsGrow fs (CoqAssemblyEncrypted.recall C cfg aid mkdir fs).1 ∧
      ((CoqAssemblyEncrypted.recall C cfg aid mkdir fs).1 = fs ↔
        DirsSettled C cfg mkdir fs aid cfg.nchunks.sequence) :=
  recallChunks_grow hC aid mkdir cfg.nchunks.sequence ⟨fs, _, _, _⟩

/-- The directories of the chunks of an assembly are there, or the first that is missing cannot be made,
if there is a key of a supported format for the assembly. -/
def Settled (C : Crypto) (H : Host) (s : Session cfg) (aid : Bytes) : Prop :=
  ∀ ki, CoqStore.find s.cache.keystore aid = some ki → supportedFormat ki.version = true →
    DirsSettled C cfg H.mkdir s.world.fs aid cfg.nchunks.sequence

/-- Restoring an assembly makes directories at most, and none if they are settled. -/
theorem tryRestoreAssembly_grows (hC : C.HexLawful) (s : Session cfg) (aid : Bytes) :
    DirsGrow s.world.fs (s.tryRestoreAssembly C H aid).1.world.fs ∧
      ((s.tryRestoreAssembly C H aid).1.world.fs = s.world.fs ↔ Settled C H s aid) := by
  unfold Session.tryRestoreAssembly Settled
  cases CoqStore.find s.cache.keystore aid with
  | none => exact ⟨DirsGrow.refl _, by simp⟩
  | some ki =>
    dsimp only
    have hfs : DirsGrow s.world.fs
        ((CoqEnvironmentReadable.init cfg).restoreAssembly C H s.world aid ki).2.1.fs ∧
        (((CoqEnvironmentReadable.init cfg).restoreAssembly C H s.world aid ki).2.1.fs =
          s.world.fs ↔ (supportedFormat ki.version = true →
            DirsSettled C cfg H.mkdir s.world.fs aid cfg.nchunks.sequence)) := by
      unfold CoqEnvironmentReadable.restoreAssembly
      split
      · next hv =>
        obtain ⟨hgrow, hiff⟩ := recall_fs_eq_iff hC cfg aid H.mkdir s.world.fs
        dsimp only
        split
        · exact ⟨hgrow, by simpa [hv] using hiff⟩
        · exact ⟨hgrow, by simpa [hv] using hiff⟩
      · next hv => exact ⟨DirsGrow.refl _, by simp [hv]⟩
    have hiff : (∀ ki', some ki = some ki' → supportedFormat ki'.version = true →
        DirsSettled C cfg H.mkdir s.world.fs aid cfg.nchunks.sequence) ↔
        (supportedFormat ki.version = true →
          DirsSettled C cfg H.mkdir s.world.fs aid cfg.nchunks.sequence) := by simp
    rw [hiff]
    split
    · exact hfs
    · exact hfs

/-! ## One drain -/

/-- The read environments after an access, the one that was asked for first; none if no environment
holds the assembly and it cannot be loaded. -/
def accessed (n : ℕ) (load : Bytes → Option (CoqAssemblyPlainFull cfg))
    (envs : List (CoqEnvironmentReadable cfg)) (aid : Bytes) :
    Option (CoqEnvironmentReadable cfg × List (CoqEnvironmentReadable cfg)) :=
  match envs.findIdx? (Session.matchAid aid) with
  | some i => (envs[i]?).map fun e => (e, envs.eraseIdx i)
  | none => (load aid).map fun a =>
    (holding a, if n ≤ envs.length ∧ envs ≠ [] then envs.dropLast else envs)

/-- The assemblies that are looked for in the chunk directory while requests for `aids` are run: those
that no environment holds, up to the first one that cannot be loaded. -/
def attempts (n : ℕ) (load : Bytes → Option (CoqAssemblyPlainFull cfg)) :
    List (CoqEnvironmentReadable cfg) → List Bytes → List Bytes
  | _, [] => []
  | envs, aid :: aids =>
    (if envs.any (Session.matchAid aid) then [] else [aid]) ++
      match accessed n load envs aid with
      | none => []
      | some (e, rest) => attempts n load (e :: rest) aids

/-- The environment that an access returns holds an assembly. -/
theorem assembly_of_accessed {n : ℕ} {load : Bytes → Option (CoqAssemblyPlainFull cfg)}
    {envs rest : List (CoqEnvironmentReadable cfg)} {aid : Bytes} {e : CoqEnvironmentReadable cfg}
    (h : accessed n load envs aid = some (e, rest)) : ∃ a, e.assembly = some a := by
  unfold accessed at h
  cases hfind : envs.findIdx? (Session.matchAid aid) with
  | none =>
    rw [hfind] at h
    obtain ⟨a, -, ha⟩ := Option.map_eq_some_iff.mp h
    cases ha
    exact ⟨a, rfl⟩
  | some i =>
    rw [hfind] at h
    obtain ⟨e', he', heq⟩ := Option.map_eq_some_iff.mp h
    cases heq
    obtain ⟨hi, hmatch, -⟩ := List.findIdx?_eq_some_iff_getElem.mp hfind
    obtain ⟨_, hget⟩ := List.getElem?_eq_some_iff.mp he'
    rw [hget] at hmatch
    unfold Session.matchAid at hmatch
    cases ha : e.assembly with
    | none => simp [ha] at hmatch
    | some a => exact ⟨a, rfl⟩

/-- **`ensure_assembly`** in any session: what it returns, and what it leaves. -/
theorem ensureAssembly_accessed (hC : C.HexLawful) (s : Session cfg) (aid : Bytes) :
    let r := s.ensureAssembly C H aid
    let x := accessed s.cache.nReadenvs (loads C s) s.cache.readenvs aid
    r.2 = x.map Prod.fst ∧
      (∀ e rest, x = some (e, rest) → r.1.cache.readenvs = e :: rest) ∧
      DirsGrow s.world.fs r.1.world.fs ∧
      (r.1.world.fs = s.world.fs ↔
        s.cache.readenvs.any (Session.matchAid aid) = true ∨ Settled C H s aid) := by
  unfold Session.ensureAssembly accessed
  cases hfind : s.cache.readenvs.findIdx? (Session.matchAid aid) with
  | none =>
    have hany : s.cache.readenvs.any (Session.matchAid aid) = false := by
      rw [← List.findIdx?_isSome, hfind]
      rfl
    obtain ⟨hres, hro, henvs, -⟩ := tryRestoreAssembly_eq hC H s aid
    obtain ⟨hgrow, hiff⟩ := tryRestoreAssembly_grows (H := H) hC s aid
    dsimp only
    rw [hany, hres]
    cases hload : loads C s aid with
    | none => exact ⟨rfl, by simp, hgrow, by simpa using hiff⟩
    | some a =>
      refine ⟨rfl, ?_, hgrow, by simpa using hiff⟩
      intro e rest heq
      cases heq
      dsimp only [Option.map_some]
      rw [henvs, hro.nReadenvs]
  | some i =>
    obtain ⟨hi, -, -⟩ := List.findIdx?_eq_some_iff_getElem.mp hfind
    have hget : s.cache.readenvs[i]? = some s.cache.readenvs[i] := List.getElem?_eq_getElem hi
    have hany : s.cache.readenvs.any (Session.matchAid aid) = true := by
      rw [← List.findIdx?_isSome, hfind]
      rfl
    cases i with
    | zero =>
      obtain ⟨e, envs, henvs⟩ := List.exists_cons_of_length_pos hi
      dsimp only
      rw [hany, henvs]
      refine ⟨rfl, ?_, DirsGrow.refl _, by simp⟩
      intro e' rest heq
      cases heq
      exact henvs
    | succ i =>
      simp only [hget]
      refine ⟨rfl, ?_, DirsGrow.refl _, by simp [hany]⟩
      intro e rest heq
      cases heq
      rfl

/-- A read request whose assembly is not there ends the drain. -/
theorem runReadRequests_of_none (hC : C.HexLawful) {s : Session cfg} {rreq : ReadQueueEntity}
    (hx : accessed s.cache.nReadenvs (loads C s) s.cache.readenvs rreq.aid = none)
    (results : List ReadQueueResult) (rest : List ReadQueueEntity) :
    Session.runReadRequests C H s results (rreq :: rest) =
      .ok ((s.ensureAssembly C H rreq.aid).1, results) := by
  obtain ⟨hres, -, -, -⟩ := ensureAssembly_accessed (H := H) hC s rreq.aid
  rw [hx, Option.map_none] at hres
  rw [Session.runReadRequests]
  dsimp only
  rw [hres]
  rfl

/-- One whose assembly is there has a result entry, and is counted with it. -/
theorem runReadRequests_of_some (hC : C.HexLawful) {s : Session cfg} {rreq : ReadQueueEntity}
    {e : CoqEnvironmentReadable cfg} {envs : List (CoqEnvironmentReadable cfg)}
    (hx : accessed s.cache.nReadenvs (loads C s) s.cache.readenvs rreq.aid = some (e, envs))
    (results : List ReadQueueResult) (rest : List ReadQueueEntity) :
    ∃ (s₁ : Session cfg) (b : Option (CoqBuffer .plain)),
      Session.runReadRequests C H s results (rreq :: rest) =
        Session.runReadRequests C H s₁ (results ++ [⟨rreq, b⟩]) rest ∧
      ReadOnly s s₁ ∧ s₁.world = (s.ensureAssembly C H rreq.aid).1.world ∧
      s₁.cache.readenvs = e :: envs ∧
      s₁.cache = { (s.ensureAssembly C H rreq.aid).1.cache with
        restoredBytes := ((s.ensureAssembly C H rreq.aid).1.cache.restoredBytes +
          b.elim 0 (·.len)) % 18446744073709551616
        nReadRequests := ((s.ensureAssembly C H rreq.aid).1.cache.nReadRequests + 1) %
          4294967296 } := by
  have hro := ensureAssembly_readOnly (H := H) hC s rreq.aid
  obtain ⟨hres, henvs, -, -⟩ := ensureAssembly_accessed (H := H) hC s rreq.aid
  obtain ⟨a, ha⟩ := assembly_of_accessed hx
  obtain ⟨b, hb⟩ : ∃ b, a.restore C rreq.block = .ok b := ⟨_, restore_eq C a rreq.block⟩
  rw [hx, Option.map_some] at hres
  refine ⟨⟨{ (s.ensureAssembly C H rreq.aid).1.cache with
      restoredBytes := ((s.ensureAssembly C H rreq.aid).1.cache.restoredBytes +
        b.elim 0 (·.len)) % 18446744073709551616
      nReadRequests := ((s.ensureAssembly C H rreq.aid).1.cache.nReadRequests + 1) %
        4294967296 }, (s.ensureAssembly C H rreq.aid).1.world⟩, b, ?_, ⟨hro.nReadenvs,
    hro.nQueuesz, hro.writeenv, hro.writequeue, hro.keystore, hro.fblockstore, hro.finfostore,
    hro.world⟩, rfl, henvs e envs hx, rfl⟩
  rw [Session.runReadRequests]
  dsimp only
  rw [hres, Option.bind_some, ha]
  dsimp only
  rw [hb]

/-- What is left to be looked for after the first request. -/
theorem attempts_readOnly (hC : C.HexLawful) {s s₁ : Session cfg} (h : ReadOnly s s₁)
    {envs : List (CoqEnvironmentReadable cfg)} (henvs : s₁.cache.readenvs = envs)
    (aids : List Bytes) : attempts s₁.cache.nReadenvs (loads C s₁) s₁.cache.readenvs aids =
      attempts s.cache.nReadenvs (loads C s) envs aids := by
  rw [h.nReadenvs, h.loads_eq hC, henvs]

/-- The operations of a reader. -/
def IsReading : Op → Prop
  | .enqueueRead _ => True
  | .iterateRead => True
  | .enqueueWrite _ => False
  | .iterateWrite => False
  | .flush => False
  | .close => False

/-- The session after a run of a reader. -/
def ReadRun (C : Crypto) (H : Host) (s s' : Session cfg) : Prop :=
  ∃ ops answers, (∀ op ∈ ops, IsReading op) ∧ s.run C H ops = .ok (s', answers)

/-- A reader may do nothing. -/
theorem ReadRun.refl (s : Session cfg) : ReadRun C H s s := ⟨[], [], by simp, rfl⟩

/-- Two runs of a reader are one. -/
theorem ReadRun.trans {s s' s'' : Session cfg} (h : ReadRun C H s s') (h' : ReadRun C H s' s'') :
    ReadRun C H s s'' := by
  obtain ⟨ops, answers, hops, hrun⟩ := h
  obtain ⟨ops', answers', hops', hrun'⟩ := h'
  refine ⟨ops ++ ops', answers ++ answers', ?_, run_append hrun hrun'⟩
  intro op hop
  exact (List.mem_append.mp hop).elim (hops op) (hops' op)

/-- A request for a block of the assembly `a`. -/
def requestA : ReadQueueEntity := ⟨ascii "a", 128, 1, 0, simple.sha3 [1]⟩

end Elykseer.Analysis
