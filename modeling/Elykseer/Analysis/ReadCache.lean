import Elykseer.Analysis.Finalise
import Elykseer.Foundation.Lru
import Elykseer.Model.AssemblyCache

/-!
# The read cache

`ensureAssembly` is an access to a least recently used cache in front of the uncached
`tryRestoreAssembly` (`ensureAssembly_eq`), whose answer only depends on the chunk files
and the key records (`load`).
-/

set_option autoImplicit false

namespace Elykseer.Analysis

open Elykseer.Model Elykseer.Foundation

variable {C : Crypto} {H : Host} {cfg : CoqConfiguration}

/-- A readable environment that holds an assembly. -/
def holding (a : CoqAssemblyPlainFull cfg) : CoqEnvironmentReadable cfg := ⟨some a⟩

/-- The assembly that can be read for an identifier, from the key records and the files. -/
def load (C : Crypto) (cfg : CoqConfiguration) (keys : CoqKeyStore) (fs : FileSystem)
    (aid : Bytes) : Option (CoqAssemblyPlainFull cfg) :=
  (CoqStore.find keys aid).bind fun ki => readAssembly C cfg fs aid ki

/-- The assembly that is loaded is the one asked for. -/
theorem load_aid (hC : C.HexLawful) {keys : CoqKeyStore} {fs : FileSystem} (aid : Bytes)
    (a : CoqAssemblyPlainFull cfg) (h : load C cfg keys fs aid = some a) : a.aid = aid := by
  obtain ⟨ki, -, hread⟩ := Option.bind_eq_some_iff.mp h
  exact readAssembly_aid hC hread

/-- What has been archived can be loaded. -/
theorem NumberedArchive.load_eq {keys : CoqKeyStore} {fs : FileSystem} {i : ℕ}
    {a : CoqAssemblyPlainFull config16} (h : NumberedArchive keys fs i a) :
    load simple config16 keys fs a.aid = some a := by
  obtain ⟨ki, hfind, hread⟩ := h.read
  rw [load, hfind, Option.bind_some, hread]

/-- Loading depends on the files only, not on the directories. -/
theorem load_congr (hC : C.HexLawful) {keys : CoqKeyStore} {fs fs' : FileSystem}
    (h : fs.files = fs'.files) : load C cfg keys fs = load C cfg keys fs' := by
  funext aid
  unfold load
  congr 1
  funext ki
  exact readAssembly_congr hC ki fun cid _ => by rw [h]

/-- What reading leaves as it is. -/
structure ReadOnly (s s' : Session cfg) : Prop where
  nReadenvs : s'.cache.nReadenvs = s.cache.nReadenvs
  nQueuesz : s'.cache.nQueuesz = s.cache.nQueuesz
  writeenv : s'.cache.writeenv = s.cache.writeenv
  writequeue : s'.cache.writequeue = s.cache.writequeue
  keystore : s'.cache.keystore = s.cache.keystore
  fblockstore : s'.cache.fblockstore = s.cache.fblockstore
  finfostore : s'.cache.finfostore = s.cache.finfostore
  world : World.ReadOnly s.world s'.world

/-- Nothing has changed at first. -/
theorem ReadOnly.refl (s : Session cfg) : ReadOnly s s :=
  ⟨rfl, rfl, rfl, rfl, rfl, rfl, rfl, rfl, rfl, rfl, rfl⟩

/-- What two pieces of a run leave as it is, the whole leaves as it is. -/
theorem ReadOnly.trans {s s' s'' : Session cfg} (h : ReadOnly s s') (h' : ReadOnly s' s'') :
    ReadOnly s s'' where
  nReadenvs := h'.nReadenvs.trans h.nReadenvs
  nQueuesz := h'.nQueuesz.trans h.nQueuesz
  writeenv := h'.writeenv.trans h.writeenv
  writequeue := h'.writequeue.trans h.writequeue
  keystore := h'.keystore.trans h.keystore
  fblockstore := h'.fblockstore.trans h.fblockstore
  finfostore := h'.finfostore.trans h.finfostore
  world := ⟨h'.world.files.trans h.world.files, h'.world.nassembly.trans h.world.nassembly,
    h'.world.nfinalise.trans h.world.nfinalise, h'.world.failed.trans h.world.failed⟩

/-- Reading may change the read environments, the read queue and its counters. -/
theorem ReadOnly.withReading {s s' : Session cfg} (h : ReadOnly s s')
    (readenvs : List (CoqEnvironmentReadable cfg)) (readqueue : List ReadQueueEntity)
    (restoredBytes nReadRequests nIterateReads : ℕ) :
    ReadOnly s ⟨{ s'.cache with
      readenvs := readenvs
      readqueue := readqueue
      restoredBytes := restoredBytes
      nReadRequests := nReadRequests
      nIterateReads := nIterateReads }, s'.world⟩ :=
  ⟨h.nReadenvs, h.nQueuesz, h.writeenv, h.writequeue, h.keystore, h.fblockstore, h.finfostore,
    h.world⟩

/-- What a session can load. -/
def loads (C : Crypto) (s : Session cfg) : Bytes → Option (CoqAssemblyPlainFull cfg) :=
  load C cfg s.cache.keystore s.world.fs

/-- The assembly that a session loads is the one asked for. -/
theorem loads_aid (hC : C.HexLawful) (s : Session cfg) (aid : Bytes)
    (a : CoqAssemblyPlainFull cfg) (h : loads C s aid = some a) : a.aid = aid :=
  load_aid hC aid a h

/-- Reading does not change what can be loaded. -/
theorem ReadOnly.loads_eq (hC : C.HexLawful) {s s' : Session cfg} (h : ReadOnly s s') :
    loads C s' = loads C s := by
  unfold loads
  rw [h.keystore]
  exact load_congr hC h.world.files

/-- The uncached attempt. -/
theorem tryRestoreAssembly_eq (hC : C.HexLawful) (H : Host) (s : Session cfg) (aid : Bytes) :
    (s.tryRestoreAssembly C H aid).2 = (loads C s aid).map holding ∧
      ReadOnly s (s.tryRestoreAssembly C H aid).1 ∧
      (s.tryRestoreAssembly C H aid).1.cache.readenvs = s.cache.readenvs ∧
      (s.tryRestoreAssembly C H aid).1.cache.readqueue = s.cache.readqueue := by
  unfold Session.tryRestoreAssembly loads load
  cases CoqStore.find s.cache.keystore aid with
  | none => exact ⟨rfl, ReadOnly.refl s, rfl, rfl⟩
  | some ki =>
    obtain ⟨henv, hok⟩ := restoreAssembly_eq hC H (CoqEnvironmentReadable.init cfg) s.world aid ki
    have hworld := restoreAssembly_readOnly hC H (CoqEnvironmentReadable.init cfg) s.world aid ki
    dsimp only [Option.bind_some]
    cases hread : readAssembly C cfg s.world.fs aid ki with
    | none =>
      rw [hread] at hok
      rw [hok, if_neg (by simp)]
      exact ⟨rfl, ⟨rfl, rfl, rfl, rfl, rfl, rfl, rfl, hworld⟩, rfl, rfl⟩
    | some a =>
      rw [hread] at hok henv
      rw [hok, if_pos (by simp), henv]
      exact ⟨rfl, ⟨rfl, rfl, rfl, rfl, rfl, rfl, rfl, hworld⟩, rfl, rfl⟩

/-- The read environments are a valid cache of what can be loaded. -/
def Caches (C : Crypto) (s : Session cfg) (l : List (CoqAssemblyPlainFull cfg)) : Prop :=
  s.cache.readenvs = l.map holding ∧
    Lru.Valid CoqAssemblyPlainFull.aid s.cache.nReadenvs (loads C s) l

/-- **`ensure_assembly` is an access to a least recently used cache** in front of the uncached
attempt. -/
theorem ensureAssembly_eq (hC : C.HexLawful) (H : Host) {s : Session cfg}
    (hn : 1 ≤ s.cache.nReadenvs) {l : List (CoqAssemblyPlainFull cfg)} (h : Caches C s l)
    (aid : Bytes) :
    let r := Lru.access CoqAssemblyPlainFull.aid s.cache.nReadenvs (loads C s) l aid
    (s.ensureAssembly C H aid).2 = r.1.map holding ∧
      (s.ensureAssembly C H aid).1.cache.readenvs = r.2.map holding ∧
      ReadOnly s (s.ensureAssembly C H aid).1 ∧
      (s.ensureAssembly C H aid).1.cache.readqueue = s.cache.readqueue := by
  obtain ⟨hl, hv⟩ := h
  have hidx : s.cache.readenvs.findIdx? (Session.matchAid aid) =
      l.findIdx? (fun a => decide (a.aid = aid)) := by
    rw [hl, List.findIdx?_map]
    rfl
  unfold Session.ensureAssembly
  rw [hidx]
  cases hfind : l.findIdx? (fun a => decide (a.aid = aid)) with
  | none =>
    have hmem : aid ∉ l.map CoqAssemblyPlainFull.aid := by
      rw [List.findIdx?_eq_none_iff] at hfind
      intro hmem
      obtain ⟨a, ha, heq⟩ := List.mem_map.mp hmem
      simpa [heq] using hfind a ha
    obtain ⟨hres, hro, henvs, hq⟩ := tryRestoreAssembly_eq hC H s aid
    dsimp only
    rw [Lru.access_result hv]
    cases hload : loads C s aid with
    | none =>
      rw [hload] at hres
      rw [hres, Lru.access_of_none hv hload]
      exact ⟨rfl, henvs.trans hl, hro, hq⟩
    | some a =>
      rw [hload] at hres
      rw [hres]
      dsimp only [Option.map_some]
      refine ⟨rfl, ?_, hro.withReading _ _ _ _ _, hq⟩
      rw [henvs, hro.nReadenvs, hl, List.length_map, Lru.access_of_miss_evicts hv hn hload hmem]
      have hb := hv.bounded
      by_cases hfull : s.cache.nReadenvs ≤ l.length
      · have hne : l ≠ [] := List.ne_nil_of_length_pos (by omega)
        rw [if_pos ⟨hfull, by simpa using hne⟩, if_pos (by omega), List.map_cons,
          List.map_dropLast]
      · rw [if_neg (fun hh => hfull hh.1), if_neg (by omega)]
        rfl
  | some i =>
    obtain ⟨hi, hp, -⟩ := List.findIdx?_eq_some_iff_getElem.mp hfind
    have hkey : (l[i]).aid = aid := by simpa using hp
    have hget : l[i]? = some l[i] := List.getElem?_eq_getElem hi
    have hmem : aid ∈ l.map CoqAssemblyPlainFull.aid :=
      hkey ▸ List.mem_map_of_mem (List.getElem_mem hi)
    have hload : loads C s aid = some l[i] := hkey ▸ hv.loaded _ (List.getElem_mem hi)
    have herase := Lru.eraseIdx_eq_filter hv.distinct hget
    rw [hkey] at herase
    dsimp only
    rw [Lru.access_result hv, hload, Lru.access_of_hit hv hload hmem, ← herase]
    cases i with
    | zero =>
      obtain ⟨a, l, rfl⟩ : ∃ a l', l = a :: l' := by
        cases l with
        | nil => simp at hi
        | cons a l => exact ⟨a, l, rfl⟩
      exact ⟨congrArg List.head? hl, hl, ReadOnly.refl s, rfl⟩
    | succ i =>
      have hfound : s.cache.readenvs[i + 1]? = some (holding l[i + 1]) := by
        rw [hl, List.getElem?_map, hget]
        rfl
      simp only [hfound]
      refine ⟨rfl, ?_, (ReadOnly.refl s).withReading _ _ _ _ _, trivial⟩
      rw [hl, List.map_cons, List.eraseIdx_map]

/-- Ensuring an assembly is an access to the cache. -/
theorem ensureAssembly_caches (hC : C.HexLawful) (H : Host) {s : Session cfg}
    (hn : 1 ≤ s.cache.nReadenvs) {l : List (CoqAssemblyPlainFull cfg)} (h : Caches C s l)
    (aid : Bytes) :
    Caches C (s.ensureAssembly C H aid).1
      (Lru.access CoqAssemblyPlainFull.aid s.cache.nReadenvs (loads C s) l aid).2 := by
  obtain ⟨-, henvs, hro, -⟩ := ensureAssembly_eq hC H hn h aid
  refine ⟨henvs, ?_⟩
  rw [hro.nReadenvs, hro.loads_eq hC]
  exact Lru.access_valid h.2 (loads_aid hC _) aid

/-! ## Histories -/

/-- A sequence of `ensure_assembly` calls. -/
def ensureAll (C : Crypto) (H : Host) (s : Session cfg) (aids : List Bytes) : Session cfg :=
  aids.foldl (fun s aid => (s.ensureAssembly C H aid).1) s

/-- After any history the read environments are what the abstract cache holds. -/
theorem ensureAll_caches (hC : C.HexLawful) (H : Host) {s : Session cfg}
    (hn : 1 ≤ s.cache.nReadenvs) {l : List (CoqAssemblyPlainFull cfg)} (h : Caches C s l)
    (aids : List Bytes) :
    Caches C (ensureAll C H s aids)
        (Lru.accesses CoqAssemblyPlainFull.aid s.cache.nReadenvs (loads C s) l aids) ∧
      ReadOnly s (ensureAll C H s aids) := by
  induction aids generalizing s l with
  | nil => exact ⟨h, ReadOnly.refl s⟩
  | cons aid aids ih =>
    have hro := (ensureAssembly_eq hC H hn h aid).2.2.1
    obtain ⟨hcaches, hro'⟩ := ih (s := (s.ensureAssembly C H aid).1)
      (by rw [hro.nReadenvs]; exact hn) (ensureAssembly_caches hC H hn h aid)
    rw [hro.nReadenvs, hro.loads_eq hC] at hcaches
    exact ⟨hcaches, hro.trans hro'⟩

/-! ## The reference definition -/

/-- `AssemblyCache.ensure_assembly` of the reference: the environment and the new list. -/
def referenceEnsureAssembly {ε : Type} (aid : ε → Bytes) (acsize : ℕ)
    (tryRestore : Bytes → Option ε) (acenvs : List ε) (selAid : Bytes) : Option (ε × List ε) :=
  match acenvs with
  | [] =>
    match tryRestore selAid with
    | none => none
    | some env => some (env, [env])
  | [e1] =>
    if aid e1 = selAid then some (e1, acenvs)
    else
      match tryRestore selAid with
      | none => none
      | some env => if acsize = 1 then some (env, [env]) else some (env, [env, e1])
  | e1 :: r =>
    if aid e1 = selAid then some (e1, acenvs)
    else
      match r.filter fun e => aid e = selAid with
      | efound :: _ => some (efound, efound :: e1 :: r.filter fun e => aid e ≠ selAid)
      | [] =>
        match tryRestore selAid with
        | none => none
        | some env =>
          some (env, env :: if acsize ≤ acenvs.length then acenvs.dropLast else acenvs)

/-- **The reference is the same cache.** -/
theorem reference_eq_access {ε : Type} {aid : ε → Bytes} {n : ℕ} (hn : 1 ≤ n)
    {tryRestore : Bytes → Option ε} {l : List ε} (hv : Lru.Valid aid n tryRestore l)
    (selAid : Bytes) :
    referenceEnsureAssembly aid n tryRestore l selAid =
      (Lru.access aid n tryRestore l selAid).1.map
        fun e => (e, (Lru.access aid n tryRestore l selAid).2) := by
  have hb := hv.bounded
  -- a miss, for lists of any length
  have hmiss : ∀ {e}, tryRestore selAid = some e → selAid ∉ l.map aid →
      (Lru.access aid n tryRestore l selAid).2 =
        e :: if n ≤ l.length then l.dropLast else l := by
    intro e he hmem
    rw [Lru.access_of_miss_evicts hv hn he hmem]
    congr 1
    by_cases hfull : l.length = n
    · rw [if_pos hfull, if_pos (by omega)]
    · rw [if_neg hfull, if_neg (by omega)]
  rw [Lru.access_result hv]
  rcases l with _ | ⟨e1, _ | ⟨e2, r⟩⟩
  · cases he : tryRestore selAid with
    | none => simp [referenceEnsureAssembly, he]
    | some e => simp [referenceEnsureAssembly, he, hmiss he]
  · by_cases hkey : aid e1 = selAid
    · subst hkey
      rw [hv.loaded e1 (by simp), Lru.access_of_front hv]
      simp [referenceEnsureAssembly]
    · have hmem : selAid ∉ [e1].map aid := by simpa using Ne.symm hkey
      cases he : tryRestore selAid with
      | none => simp [referenceEnsureAssembly, hkey, he]
      | some e =>
        rw [hmiss he hmem]
        by_cases hone : n = 1
        · simp [referenceEnsureAssembly, hkey, he, hone]
        · simp [referenceEnsureAssembly, hkey, he, hone, show ¬ n ≤ 1 by omega]
  · by_cases hkey : aid e1 = selAid
    · subst hkey
      rw [hv.loaded e1 (by simp), Lru.access_of_front hv]
      simp [referenceEnsureAssembly]
    · simp only [referenceEnsureAssembly, if_neg hkey]
      cases hfound : (e2 :: r).filter (fun e => decide (aid e = selAid)) with
      | nil =>
        have hmem : selAid ∉ (e1 :: e2 :: r).map aid := by
          rw [List.map_cons, List.mem_cons, not_or]
          refine ⟨Ne.symm hkey, fun hmem => ?_⟩
          obtain ⟨e, he, heq⟩ := List.mem_map.mp hmem
          have hin : e ∈ (e2 :: r).filter fun e => decide (aid e = selAid) :=
            List.mem_filter.mpr ⟨he, decide_eq_true heq⟩
          rw [hfound] at hin
          cases hin
        cases he : tryRestore selAid with
        | none => rfl
        | some e =>
          rw [hmiss he hmem]
          rfl
      | cons e others =>
        have hmem : e ∈ (e2 :: r).filter (fun e => decide (aid e = selAid)) := by
          rw [hfound]
          exact List.mem_cons_self
        obtain ⟨hin, haid⟩ := List.mem_filter.mp hmem
        rw [decide_eq_true_eq] at haid
        have hload := haid ▸ hv.loaded e (List.mem_cons_of_mem _ hin)
        have hsplit : (e1 :: e2 :: r).filter (fun e' => aid e' ≠ selAid) =
            e1 :: (e2 :: r).filter fun e' => aid e' ≠ selAid :=
          List.filter_cons_of_pos (by simpa using hkey)
        rw [hload, Lru.access_of_hit hv hload
          (haid ▸ List.mem_map_of_mem (List.mem_cons_of_mem _ hin)), hsplit]
        rfl

/-- **The read cache is a transparent least recently used cache.**  After any history of
`ensure_assembly` calls on a fresh cache, one more call returns what the uncached attempt
returns, keeps at most `n_envs` distinct environments, most recently used first, evicts the last
one only after a successful restore into a full cache, and does what the reference does. -/
theorem ensureAssembly_transparent (hC : C.HexLawful) (H : Host) (s₀ : Session cfg)
    (hn : 1 ≤ s₀.cache.nReadenvs) (hfresh : s₀.cache.readenvs = []) (hist : List Bytes)
    (aid : Bytes) :
    let uncached := fun aid => (s₀.tryRestoreAssembly C H aid).2.bind (·.assembly)
    let s := ensureAll C H s₀ hist
    let r := s.ensureAssembly C H aid
    ∃ l l' : List (CoqAssemblyPlainFull cfg),
      s.cache.readenvs = l.map holding ∧ r.1.cache.readenvs = l'.map holding ∧
      -- (a)
      r.2 = (s₀.tryRestoreAssembly C H aid).2 ∧
      (∀ env, r.2 = some env → ∃ a, env = holding a ∧ a.aid = aid) ∧
      -- (b)
      l'.length ≤ s₀.cache.nReadenvs ∧ (l'.map (·.aid)).Nodup ∧
      l'.map (·.aid) = (Lru.recency uncached (hist ++ [aid])).take s₀.cache.nReadenvs ∧
      -- (c)
      (r.2 = none → l' = l) ∧
      (aid ∈ l.map (·.aid) → l'.Perm l) ∧
      (∀ a, r.2 = some (holding a) → aid ∉ l.map (·.aid) →
        l' = a :: if l.length = s₀.cache.nReadenvs then l.dropLast else l) ∧
      -- (d)
      referenceEnsureAssembly (·.aid) s₀.cache.nReadenvs uncached l aid =
        (r.2.bind (·.assembly)).map fun env => (env, l') := by
  intro uncached s r
  have hstart : Caches C s₀ [] := ⟨by rw [hfresh]; rfl, Lru.valid_nil _ _ _⟩
  obtain ⟨hcaches, hro⟩ := ensureAll_caches hC H hn hstart hist
  set l := Lru.accesses CoqAssemblyPlainFull.aid s₀.cache.nReadenvs (loads C s₀) [] hist with hl
  have hn' : 1 ≤ s.cache.nReadenvs := by rw [hro.nReadenvs]; exact hn
  obtain ⟨hres, henvs, -, -⟩ := ensureAssembly_eq hC H hn' hcaches aid
  obtain ⟨henvs₀, hv⟩ := hcaches
  have hloads : loads C s = loads C s₀ := hro.loads_eq hC
  rw [hro.nReadenvs, hloads] at hres henvs hv
  have huncached : uncached = loads C s₀ := by
    funext aid
    change ((s₀.tryRestoreAssembly C H aid).2.bind (·.assembly)) = _
    rw [(tryRestoreAssembly_eq hC H s₀ aid).1]
    cases loads C s₀ aid <;> rfl
  have hresult := Lru.access_result hv aid
  set l' := (Lru.access CoqAssemblyPlainFull.aid s₀.cache.nReadenvs (loads C s₀) l aid).2 with hl'
  have hv' := Lru.access_valid hv (loads_aid hC _) aid
  rw [hresult] at hres
  have hassembly : ∀ a, r.2 = some (holding a) → loads C s₀ aid = some a := by
    intro a ha
    rw [show r.2 = _ from hres] at ha
    obtain ⟨a', ha', heq⟩ := Option.map_eq_some_iff.mp ha
    cases heq
    exact ha'
  refine ⟨l, l', henvs₀, henvs, ?_, ?_, hv'.bounded, hv'.distinct, ?_, ?_, ?_, ?_, ?_⟩
  · rw [(tryRestoreAssembly_eq hC H s₀ aid).1]
    exact hres
  · intro env henv
    rw [show r.2 = _ from hres] at henv
    obtain ⟨a, ha, rfl⟩ := Option.map_eq_some_iff.mp henv
    exact ⟨a, rfl, loads_aid hC s₀ aid a ha⟩
  · rw [huncached, ← Lru.keys_accesses (loads_aid hC s₀), hl', hl]
    simp [Lru.accesses, List.foldl_append]
  · intro hnone
    rw [show r.2 = _ from hres, Option.map_eq_none_iff] at hnone
    exact Lru.access_of_none hv hnone
  · intro hmem
    exact Lru.access_perm_of_hit hv hmem
  · intro a ha hmem
    exact Lru.access_of_miss_evicts hv hn (hassembly a ha) hmem
  · rw [huncached, reference_eq_access hn hv, hresult, show r.2 = _ from hres]
    cases loads C s₀ aid <;> rfl

/-- Two archived assemblies and a cache of one environment: the first is restored, then found again,
and evicted by the second. -/
theorem ensureAssembly_transparent_simple :
    let H := numberedHost fun _ _ => allWorks
    ∃ keys w a b,
      let s₀ := Session.init config16 1 1 keys ∅ ∅ w
      let s₁ := ensureAll simple H s₀ [a.aid]
      a.aid ≠ b.aid ∧
      (s₀.ensureAssembly simple H a.aid).2 = some (holding a) ∧
      s₁.cache.readenvs = [holding a] ∧
      (s₁.ensureAssembly simple H a.aid).2 = some (holding a) ∧
      (s₁.ensureAssembly simple H a.aid).1.cache.readenvs = [holding a] ∧
      (s₁.ensureAssembly simple H b.aid).2 = some (holding b) ∧
      (s₁.ensureAssembly simple H b.aid).1.cache.readenvs = [holding b] := by
  intro H
  have hhex := simple_lawful.hex
  obtain ⟨keys, fs, harchive, -⟩ := exists_numberedArchive (n := 2) (by decide)
  obtain ⟨a, ha⟩ := harchive 0 (by decide)
  obtain ⟨b, hb⟩ := harchive 1 (by decide)
  refine ⟨keys, { emptyWorld with fs := fs }, a, b, ?_⟩
  intro s₀ s₁
  have hne : a.aid ≠ b.aid := by
    rw [ha.aid_eq, hb.aid_eq]
    intro heq
    exact absurd (aidOf_numbered_injOn _ (by decide) (by decide) heq) (by decide)
  -- both can be restored without a cache
  have htry : ∀ c : CoqAssemblyPlainFull config16, load simple config16 keys fs c.aid = some c →
      (s₀.tryRestoreAssembly simple H c.aid).2 = some (holding c) := by
    intro c hc
    rw [(tryRestoreAssembly_eq hhex H s₀ c.aid).1]
    exact congrArg (Option.map holding) hc
  have htransparent := ensureAssembly_transparent hhex H s₀ (Nat.le_refl 1) rfl
  have hinj : ∀ {l : List (CoqAssemblyPlainFull config16)} {c}, [holding c] = l.map holding →
      l = [c] := by
    intro l c hl
    cases l with
    | nil => cases hl
    | cons c' l =>
      obtain ⟨hhead, htail⟩ := List.cons.inj hl
      obtain rfl := List.map_eq_nil_iff.mp htail.symm
      cases hhead
      rfl
  -- the first call restores `a`
  obtain ⟨l, l', hl, hl', hres, -, -, -, -, -, -, hmiss, -⟩ := htransparent [] a.aid
  obtain rfl : l = [] := List.map_eq_nil_iff.mp hl.symm
  rw [htry a ha.load_eq] at hres
  rw [hmiss a hres (by simp)] at hl'
  -- the second finds it
  obtain ⟨k, k', hk, hk', hhit, -, -, -, -, -, hperm, -⟩ := htransparent [a.aid] a.aid
  obtain rfl := hinj (hl'.symm.trans hk)
  rw [List.perm_singleton.mp (hperm (by simp))] at hk'
  -- or `b` takes its place
  obtain ⟨m, m', hm, hm', hother, -, -, -, -, -, -, hevict, -⟩ := htransparent [a.aid] b.aid
  obtain rfl := hinj (hl'.symm.trans hm)
  rw [htry b hb.load_eq] at hother
  rw [hevict b hother (by simpa using hne.symm)] at hm'
  exact ⟨hne, hres, hl', hhit.trans (htry a ha.load_eq), hk', hother, hm'⟩

end Elykseer.Analysis
