import Mathlib.Data.Set.Card
import Elykseer.Analysis.CacheRuns
import Elykseer.Analysis.Finalise

/-!
# Keys and blocks stay consistent

After any run of a writer, every identifier of a block is the one of the current assembly,
or has a key, or belongs to an assembly that was reported as failed; and the failed ones
are counted, as far as a 32-bit counter can: `keysConsistent_iff`.
-/

set_option autoImplicit false

namespace Elykseer.Analysis

open Elykseer.Model Elykseer.Foundation

variable {C : Crypto} {H : Host} {cfg : CoqConfiguration}

/-- An identifier that occurs in the file-block store. -/
def BlockAid (s : Session cfg) (aid : Bytes) : Prop :=
  ∃ fname, ∃ bi ∈ CoqFBlockStore.blocks s.cache.fblockstore fname, bi.blockaid = aid

/-- The identifiers of blocks whose assembly was reported as failed. -/
def failedBlockAids (s : Session cfg) : Set Bytes :=
  {aid | BlockAid s aid ∧ aid ∈ failedAids s.world.clog}

/-- Keys and blocks are consistent. -/
structure KeysConsistent (s : Session cfg) : Prop where
  cover : ∀ aid, BlockAid s aid → (∃ a, (writeSide s).current = some a ∧ a.aid = aid) ∨
    (CoqStore.find s.cache.keystore aid).isSome = true ∨ aid ∈ failedBlockAids s
  exclusive : ∀ aid ∈ failedBlockAids s, CoqStore.find s.cache.keystore aid = none ∧
    ∀ a, (writeSide s).current = some a → a.aid ≠ aid
  count : (failedBlockAids s).ncard = s.nAssemblyFailed
  closed : (writeSide s).current = none → s.nAssemblyFailed = 0 → ∀ aid, BlockAid s aid →
    (CoqStore.find s.cache.keystore aid).isSome = true

/-- The counter of failed assemblies is that of the write path. -/
theorem nAssemblyFailed_eq (s : Session cfg) : s.nAssemblyFailed = (writeSide s).nFailed := by
  unfold Session.nAssemblyFailed writeSide WriteSide.nFailed
  cases s.cache.writeenv <;> rfl

/-- The identifiers of the blocks are those of the recorded entries. -/
theorem blockAid_iff {s₀ : WriteSide cfg} {s : Session cfg} {L : List Entry}
    (hempty : s₀.blocks = ∅) (h : Ledger C s₀ (writeSide s) L) (hL : ∀ x ∈ L, x.data ≠ [])
    (aid : Bytes) : BlockAid s aid ↔ ∃ x ∈ L, x.aid = aid := by
  have hblocks : ∀ fname, (CoqFBlockStore.blocks s.cache.fblockstore fname).map unnumbered =
      recordsOf C L fname := by
    intro fname
    have := h fname
    rwa [hempty, show CoqFBlockStore.blocks ∅ fname = [] from rfl, List.map_nil,
      List.nil_append] at this
  constructor
  · rintro ⟨fname, bi, hbi, rfl⟩
    have hmem := List.mem_map_of_mem (f := unnumbered) hbi
    rw [hblocks, recordsOf, List.mem_map] at hmem
    obtain ⟨x, hx, heq⟩ := hmem
    have hxL := (List.mem_filter.mp hx).1
    refine ⟨x, hxL, ?_⟩
    rw [← aid_record (C := C) (hL x hxL), heq]
    rfl
  · rintro ⟨x, hx, rfl⟩
    have hmem : unnumbered (x.record C) ∈ recordsOf C L x.fname :=
      List.mem_map_of_mem (List.mem_filter.mpr ⟨hx, decide_eq_true rfl⟩)
    rw [← hblocks, List.mem_map] at hmem
    obtain ⟨bi, hbi, heq⟩ := hmem
    refine ⟨x.fname, bi, hbi, ?_⟩
    rw [← aid_record (C := C) (hL x hx), ← heq]
    rfl

/-- The failed assemblies are counted correctly exactly below `2^32`. -/
theorem keysConsistent_iff_of_counted {s₀ : WriteSide cfg} {s : Session cfg} {L : List Entry} {N : ℕ}
    (hempty : s₀.blocks = ∅) (hacc : Accounted C H s₀ (writeSide s) L)
    (hcount : Counted C H N (writeSide s) L) (hL : ∀ x ∈ L, x.data ≠ []) :
    KeysConsistent s ↔ (failedAids s.world.clog).length < 4294967296 := by
  have haids := blockAid_iff hempty hacc.ledger hL
  have hfailed : failedBlockAids s = {aid | aid ∈ failedAids s.world.clog} := by
    ext aid
    refine ⟨fun h => h.2, fun h => ⟨?_, h⟩⟩
    obtain ⟨⟨x, hx, -, haid⟩, -⟩ := hcount.failed aid h
    exact (haids aid).mpr ⟨x, hx, haid⟩
  have hcard : (failedBlockAids s).ncard = (failedAids s.world.clog).length := by
    have hnodup : (failedAids s.world.clog).Nodup := hcount.nodup
    rw [hfailed, ← List.coe_toFinset, Set.ncard_coe_finset, List.toFinset_card_of_nodup hnodup]
  have hmod : s.nAssemblyFailed = (failedAids s.world.clog).length % 4294967296 := by
    rw [nAssemblyFailed_eq]
    exact hcount.count
  constructor
  · intro h
    have := h.count
    omega
  · intro hlt
    have hcover : ∀ aid, BlockAid s aid → (∃ a, (writeSide s).current = some a ∧ a.aid = aid) ∨
        (CoqStore.find s.cache.keystore aid).isSome = true ∨ aid ∈ failedAids s.world.clog := by
      intro aid haid
      obtain ⟨x, hx, rfl⟩ := (haids aid).mp haid
      exact (hacc.status x hx (hL x hx)).imp_left fun ⟨a, ha, hin⟩ => ⟨a, ha, hin.aid_eq⟩
    refine ⟨fun aid haid => ?_, fun aid haid => ⟨?_, fun a ha heq => ?_⟩, by omega,
      fun hclosed hzero aid haid => ?_⟩
    · rw [hfailed]
      exact hcover aid haid
    · exact (hcount.failed aid haid.2).2
    · exact (hcount.unsealed a ha).2 (heq ▸ haid.2)
    · rcases hcover aid haid with ⟨a, ha, -⟩ | hkey | hfail
      · rw [hclosed] at ha
        cases ha
      · exact hkey
      · have hlen : (failedAids s.world.clog).length = 0 := by omega
        rw [List.length_eq_zero_iff.mp hlen] at hfail
        cases hfail

/-- **Keys and blocks stay consistent** in every run of a writer on a new cache, with non-empty
buffers, distinct draws, and any failures, if and only if fewer than `2^32` assemblies failed. -/
theorem keysConsistent_iff (C : Crypto) (H : Host) (cfg : CoqConfiguration) (nEnvs depth : ℕ)
    (finfos : CoqFInfoStore) (w₀ : World) (hlog : failedAids w₀.clog = []) (ops : List Op)
    (hops : ∀ op ∈ ops, IsWriting op)
    (hdata : ∀ w ∈ ops.filterMap writeRequest, ∀ b, w.buffer = some b → b.bytes ≠ [])
    (hflush : Meets C H FlushesLate (Session.init cfg nEnvs depth ∅ ∅ finfos w₀) ops) :
    ∃ s answers, (Session.init cfg nEnvs depth ∅ ∅ finfos w₀).run C H ops = .ok (s, answers) ∧
      (Set.InjOn (aidOf C H cfg) (Set.Ico w₀.nassembly s.world.nassembly) →
        (KeysConsistent s ↔ (failedAids s.world.clog).length < 4294967296)) := by
  have hstart : Accounted C H (writeSide (Session.init cfg nEnvs depth ∅ ∅ finfos w₀))
      (writeSide (Session.init cfg nEnvs depth ∅ ∅ finfos w₀)) [] := accounted_start rfl
  obtain ⟨s, answers, es, draws, hrun, hwrites, -, hasked, -⟩ :=
    run_trace hstart.fitting hops hflush
  have hacc := hwrites.trace.accounted hstart
  rw [List.nil_append] at hacc
  refine ⟨s, answers, hrun, fun hdistinct => ?_⟩
  have hcount := hwrites.trace.counted hstart (counted_start rfl hlog fun i _ _ => CoqStore.find_empty _)
    hdistinct (Nat.le_refl _)
  rw [List.nil_append] at hcount
  apply keysConsistent_iff_of_counted rfl hacc hcount
  intro x hx
  obtain ⟨w, hw, hwanted⟩ := hasked x hx
  obtain ⟨b, hb, hif⟩ := Option.bind_eq_some_iff.mp hwanted
  split at hif
  · rw [← show b.bytes = x.data from congrArg Wanted.data (Option.some.inj hif)]
    exact hdata w hw b hb
  · cases hif

/-- One block is written, and the cache closed. -/
theorem keysConsistent_iff_simple :
    let H := numberedHost fun _ _ => allWorks
    let w : WriteQueueEntity := ⟨Vector.replicate 32 0, 0, some (CoqBuffer.ofBytes [1])⟩
    ∃ s answers, (Session.init config16 1 1 ∅ ∅ ∅ emptyWorld).run simple H
        [.enqueueWrite w, .iterateWrite, .close] = .ok (s, answers) ∧
      (KeysConsistent s ↔ (failedAids s.world.clog).length < 4294967296) := by
  intro H w
  have hops : ∀ op ∈ [Op.enqueueWrite w, .iterateWrite, .close], IsWriting op := by
    simp [IsWriting]
  have hflush := meets_flushesLate_of_not_mem (C := simple) (H := H)
    (Session.init config16 1 1 ∅ ∅ ∅ emptyWorld) [.enqueueWrite w, .iterateWrite, .close]
    (by simp)
  obtain ⟨s, answers, hrun, hiff⟩ := keysConsistent_iff simple H config16 1 1 ∅ emptyWorld rfl
    [.enqueueWrite w, .iterateWrite, .close] hops (by
      intro w' hw' b hb
      have hww : w' = w := by simpa [writeRequest] using hw'
      subst hww
      cases hb
      decide) hflush
  refine ⟨s, answers, hrun, hiff ((aidOf_numbered_injOn _).mono ?_)⟩
  have hle : s.world.nassembly ≤ 0 + 2 * 3 :=
    run_nassembly_le (accounted_start (C := simple) (H := H) rfl).fitting rfl hops hflush hrun
  exact fun i hi => Nat.lt_of_lt_of_le hi.2 (Nat.le_trans hle (by decide))

/-! ## A counter at its end -/

/-- A session whose `k` assemblies so far all failed, with an empty one to be filled next. -/
structure AfterFailures (C : Crypto) (H : Host) (k : ℕ) (s : Session cfg) : Prop where
  queue : s.cache.writequeue = []
  depth : 1 ≤ s.cache.nQueuesz
  keys : ∀ aid, CoqStore.find s.cache.keystore aid = none
  env : ∃ a, (s.ensureWriteenv C H).1 = ⟨some a, k % 4294967296⟩ ∧ Fits a ∧
    a.apos = headerLen cfg.nchunks

/-- One more block is written, and its assembly fails. -/
theorem AfterFailures.round (hC : C.HexLawful) (hopen : ∀ i cid, ((H.finalise i).io cid).fopen = false)
    {k : ℕ} {s : Session cfg} (h : AfterFailures C H k s) {fhash : Key256} {fpos : ℕ}
    {b : CoqBuffer .plain} (hb : b.bytes ≠ [])
    (hroom : headerLen cfg.nchunks + b.len ≤ dataEnd cfg.nchunks) :
    ∃ s' answers, s.run C H [.enqueueWrite ⟨fhash, fpos, some b⟩, .iterateWrite, .flush] =
        .ok (s', answers) ∧ AfterFailures C H (k + 1) s' ∧
      CoqFBlockStore.blocks s'.cache.fblockstore (C.toHex256 fhash) ≠ [] := by
  obtain ⟨hq, hdepth, hkeys, a, henv, hfit, hapos⟩ := h
  obtain ⟨a', hback, happ⟩ := backup_of_fits (C := C) (H := H) (e := ⟨some a, k % 4294967296⟩) rfl
    hfit hb (hapos ▸ hroom) (s.ensureWriteenv C H).2 (C.toHex256 fhash) fpos
  have hpos := List.length_pos_of_ne_nil hb
  have hgt : headerLen cfg.nchunks < a'.apos := by
    rw [happ.apos_eq]
    omega
  have hclosed : ¬ ChunksOpen C H a' (s.ensureWriteenv C H).2 := by
    intro ho
    have hone : 1 ∈ cfg.nchunks.sequence :=
      Nchunks.mem_sequence.mpr ⟨Nat.le_refl 1, Nat.le_trans (by decide) cfg.nchunks.min_le⟩
    exact Bool.false_ne_true ((hopen _ 1).symm.trans (ho.fopen 1 hone))
  obtain ⟨w', hfin⟩ := finalise_of_not_chunksOpen (e := ⟨some a', k % 4294967296⟩) hC rfl hgt hclosed
  -- the request is accepted, drained, and its assembly finalised
  set wreq : WriteQueueEntity := ⟨fhash, fpos, some b⟩ with hwreq
  have henq := enqueueWriteRequest_of_empty hq hdepth wreq
  set s₁ : Session cfg := ⟨{ s.cache with
    nWriteRequests := (s.cache.nWriteRequests + 1) % 4294967296
    writequeue := [wreq] }, s.world⟩ with hs₁
  have hensure₁ : s₁.ensureWriteenv C H = s.ensureWriteenv C H := rfl
  have hiter : ∃ s₂, s₁.iterateWriteQueue C H = .ok s₂ ∧ s₂.cache.writequeue = [] ∧
      s₂.cache.writeenv = some ⟨some a', k % 4294967296⟩ ∧ s₂.world = (s.ensureWriteenv C H).2 ∧
      s₂.cache.nQueuesz = s.cache.nQueuesz ∧ s₂.cache.keystore = s.cache.keystore ∧
      s₂.cache.fblockstore = CoqFBlockStore.add s.cache.fblockstore (C.toHex256 fhash)
        (blockRecord C a.aid a.apos fpos b.bytes) := by
    have hne : s₁.cache.writequeue ≠ [] := List.cons_ne_nil wreq []
    unfold Session.iterateWriteQueue
    rw [if_neg hne]
    set s₁' : Session cfg := ⟨{ s₁.cache with
      nIterateWrites := (s₁.cache.nIterateWrites + 1) % 4294967296
      writequeue := [] }, s₁.world⟩ with hs₁'
    have hensure' : s₁'.ensureWriteenv C H = s.ensureWriteenv C H :=
      (ensureWriteenv_congr rfl rfl).trans hensure₁
    rw [Session.runWriteRequests, Session.runWriteRequest, hensure', henv, hwreq]
    dsimp only
    rw [hback]
    exact ⟨_, rfl, rfl, rfl, rfl, rfl, rfl, rfl⟩
  obtain ⟨s₂, hiter, hq₂, henv₂, hw₂, hdepth₂, hkeys₂, hblocks₂⟩ := hiter
  have hflush : ∃ s₃, s₂.flush C H = .ok s₃ ∧ s₃.cache.writequeue = [] ∧
      s₃.cache.writeenv = some ⟨some (newAssembly C H cfg w'.nassembly), (k + 1) % 4294967296⟩ ∧
      s₃.cache.nQueuesz = s.cache.nQueuesz ∧ s₃.cache.keystore = s.cache.keystore ∧
      s₃.cache.fblockstore = s₂.cache.fblockstore := by
    unfold Session.flush CoqEnvironmentWritable.finaliseAndRecreateAssembly
    rw [henv₂, hw₂]
    dsimp only
    rw [hfin]
    refine ⟨_, rfl, hq₂, ?_, hdepth₂, hkeys₂, rfl⟩
    rw [recreateAssembly_eq, Nat.mod_add_mod]
  obtain ⟨s₃, hflush, hq₃, henv₃, hdepth₃, hkeys₃, hblocks₃⟩ := hflush
  refine ⟨s₃, [(.enqueueWrite wreq, .accepted true), (.iterateWrite, .done), (.flush, .done)], ?_,
    ⟨hq₃, by omega, fun aid => by rw [hkeys₃]; exact hkeys aid, newAssembly C H cfg w'.nassembly, ?_,
      fits_newAssembly _, rfl⟩, ?_⟩
  · simp only [Session.run, Session.step, henq, hiter, hflush, Except.map]
  · unfold Session.ensureWriteenv
    rw [henv₃]
  · rw [hblocks₃, hblocks₂, CoqFBlockStore.blocks_add, if_pos rfl]
    simp

/-- Any number of blocks is written, and all their assemblies fail. -/
theorem AfterFailures.rounds (hC : C.HexLawful) (hopen : ∀ i cid, ((H.finalise i).io cid).fopen = false)
    {s : Session cfg} (h : AfterFailures C H 0 s) {fhash : Key256} {fpos : ℕ}
    {b : CoqBuffer .plain} (hb : b.bytes ≠ [])
    (hroom : headerLen cfg.nchunks + b.len ≤ dataEnd cfg.nchunks) (n : ℕ) :
    ∃ s' answers, s.run C H (List.replicate n
        [Op.enqueueWrite ⟨fhash, fpos, some b⟩, .iterateWrite, .flush]).flatten =
        .ok (s', answers) ∧ AfterFailures C H n s' ∧
      (0 < n → CoqFBlockStore.blocks s'.cache.fblockstore (C.toHex256 fhash) ≠ []) := by
  induction n with
  | zero => exact ⟨s, [], rfl, h, fun hn => absurd hn (Nat.lt_irrefl 0)⟩
  | succ n ih =>
    obtain ⟨s₁, answers₁, hrun₁, h₁, -⟩ := ih
    obtain ⟨s₂, answers₂, hrun₂, h₂, hblocks⟩ := h₁.round hC hopen hb hroom
    refine ⟨s₂, answers₁ ++ answers₂, ?_, h₂, fun _ => hblocks⟩
    rw [List.replicate_succ', List.flatten_append, List.flatten_singleton]
    exact run_append hrun₁ hrun₂

/-- `close` drops the empty assembly. -/
theorem AfterFailures.close {k : ℕ} {s : Session cfg} (h : AfterFailures C H k s)
    (hk : k % 4294967296 = 0) :
    (writeSide (s.close C H)).current = none ∧ (s.close C H).nAssemblyFailed = 0 ∧
      (s.close C H).cache.keystore = s.cache.keystore ∧
      (s.close C H).cache.fblockstore = s.cache.fblockstore := by
  obtain ⟨-, -, -, a, henv, -, hapos⟩ := h
  unfold Session.ensureWriteenv at henv
  unfold Session.close
  cases he : s.cache.writeenv with
  | none => simp [writeSide, WriteSide.current, Session.nAssemblyFailed, he]
  | some e =>
    rw [he] at henv
    dsimp only at henv ⊢
    rw [henv, hk]
    unfold CoqEnvironmentWritable.finaliseAssembly
    dsimp only
    rw [if_pos (Nat.le_of_eq hapos)]
    exact ⟨rfl, rfl, rfl, rfl⟩

/-- `2^32` assemblies fail: none is counted after `close`, and the block has no key. -/
theorem keysConsistent_counterexample :
    let H := numberedHost fun _ _ => ⟨fun _ => true, false, 0, none⟩
    let ops := (List.replicate 4294967296
      [Op.enqueueWrite ⟨Vector.replicate 32 0, 0, some (CoqBuffer.ofBytes [1])⟩, .iterateWrite,
        .flush]).flatten ++ [.close]
    ∃ s answers, (Session.init config16 1 1 ∅ ∅ ∅ emptyWorld).run simple H ops = .ok (s, answers) ∧
      (writeSide s).current = none ∧ s.nAssemblyFailed = 0 ∧
      (∃ aid, BlockAid s aid ∧ CoqStore.find s.cache.keystore aid = none) ∧
      ¬ KeysConsistent s := by
  intro H ops
  have hstart : AfterFailures simple H 0 (Session.init config16 1 1 ∅ ∅ ∅ emptyWorld) :=
    ⟨rfl, Nat.le_refl 1, fun aid => CoqStore.find_empty aid, newAssembly simple H config16 0, rfl,
      fits_newAssembly 0, rfl⟩
  obtain ⟨s, answers, hrun, hafter, hblocks⟩ := hstart.rounds simple_lawful.hex (fun _ _ => rfl)
    (b := CoqBuffer.ofBytes [1]) (by decide)
    (by decide) 4294967296
  obtain ⟨hcurrent, hzero, hkeys, hfblocks⟩ := hafter.close (by decide)
  obtain ⟨bi, hbi⟩ := List.exists_mem_of_ne_nil _ (hblocks (by decide))
  have hblock : BlockAid (s.close simple H) bi.blockaid := ⟨_, bi, by rw [hfblocks]; exact hbi, rfl⟩
  have hnokey : CoqStore.find (s.close simple H).cache.keystore bi.blockaid = none := by
    rw [hkeys]
    exact hafter.keys _
  refine ⟨s.close simple H, answers ++ [(.close, .done)], run_append hrun rfl, hcurrent, hzero,
    ⟨_, hblock, hnokey⟩, fun hcons => ?_⟩
  have hkey := hcons.closed hcurrent hzero _ hblock
  rw [hnokey] at hkey
  cases hkey

end Elykseer.Analysis
