import Mathlib.Algebra.Order.BigOperators.Group.List
import Elykseer.Analysis.Placement
import Elykseer.Analysis.WriteBatches

/-!
# The assemblies of a backup run

A block that does not fit into the assembly goes to a new one as a whole, so an assembly
may be left with up to `blockSz - 1` bytes free.  The recorded blocks of a run are those of
its assemblies, one after the other, and all assemblies but the last are full up to that:
`backupRun_storage`.
-/

set_option autoImplicit false

namespace Elykseer.Analysis

open Elykseer.Model Elykseer.Foundation

variable {C : Crypto} {H : Host} {cfg : CoqConfiguration}

/-- The bytes of data an assembly has room for. -/
def capacity (n : Nchunks) : ℕ := dataEnd n - headerLen n

/-- The bytes of recorded blocks. -/
def recordedBytes (blocks : List (Bytes × BlockInformation)) : ℕ :=
  (blocks.map fun r => r.2.blocksize).sum

/-- The bytes of two lists of blocks. -/
theorem recordedBytes_append (blocks blocks' : List (Bytes × BlockInformation)) :
    recordedBytes (blocks ++ blocks') = recordedBytes blocks + recordedBytes blocks' := by
  rw [recordedBytes, List.map_append, List.sum_append]
  rfl

/-- The bytes of the blocks of several assemblies. -/
theorem recordedBytes_flatten (parts : List (List (Bytes × BlockInformation))) :
    recordedBytes parts.flatten = (parts.map recordedBytes).sum := by
  induction parts with
  | nil => rfl
  | cons part parts ih => rw [List.flatten_cons, recordedBytes_append, ih, List.map_cons, List.sum_cons]

/-- The block store after blocks have been recorded. -/
def recorded (fblocks : CoqFBlockStore) (blocks : List (Bytes × BlockInformation)) :
    CoqFBlockStore :=
  blocks.foldl (fun st r => CoqFBlockStore.add st r.1 r.2) fblocks

/-- Blocks are recorded one after the other. -/
theorem recorded_append (fblocks : CoqFBlockStore)
    (blocks blocks' : List (Bytes × BlockInformation)) :
    recorded fblocks (blocks ++ blocks') = recorded (recorded fblocks blocks) blocks' :=
  List.foldl_append

/-- The blocks of the `i`-th of `k` assemblies that are started from the draw `i₀` on. -/
structure HoldsPart (C : Crypto) (H : Host) (cfg : CoqConfiguration) (i₀ k i : ℕ)
    (part : List (Bytes × BlockInformation)) : Prop where
  aid : ∀ r ∈ part, r.2.blockaid = aidOf C H cfg (i₀ + i)
  nonempty : 0 < recordedBytes part
  fits : recordedBytes part ≤ capacity cfg.nchunks
  full : i + 1 < k → capacity cfg.nchunks < recordedBytes part + blockSz

/-- The blocks of the assemblies that have been left, and of the one that is being filled. -/
structure Distributed (C : Crypto) (H : Host) (cfg : CoqConfiguration) (i₀ : ℕ)
    (before : List (List (Bytes × BlockInformation))) (last : List (Bytes × BlockInformation)) :
    Prop where
  left : ∀ i part, before[i]? = some part → HoldsPart C H cfg i₀ (before.length + 1) i part
  aid : ∀ r ∈ last, r.2.blockaid = aidOf C H cfg (i₀ + before.length)
  fits : recordedBytes last ≤ capacity cfg.nchunks

/-- No block has been written. -/
theorem distributed_nil (C : Crypto) (H : Host) (cfg : CoqConfiguration) (i₀ : ℕ) :
    Distributed C H cfg i₀ [] [] :=
  ⟨by simp, by simp, Nat.zero_le _⟩

/-- A block fits into a new assembly. -/
theorem le_capacity (n : Nchunks) : blockSz ≤ capacity n := by
  have hsz : blockSz = 32768 := rfl
  have hh := headerLen_le n
  have hd := lt_dataEnd n
  unfold capacity
  omega

section Distributed

variable {i₀ : ℕ} {before : List (List (Bytes × BlockInformation))}
  {last : List (Bytes × BlockInformation)} {r : Bytes × BlockInformation}

/-- A block that goes to the assembly that is being filled. -/
theorem Distributed.grow (h : Distributed C H cfg i₀ before last)
    (haid : r.2.blockaid = aidOf C H cfg (i₀ + before.length))
    (hfits : recordedBytes last + r.2.blocksize ≤ capacity cfg.nchunks) :
    Distributed C H cfg i₀ before (last ++ [r]) where
  left := h.left
  aid r' hr' := by
    rcases List.mem_append.mp hr' with hr' | hr'
    · exact h.aid r' hr'
    · rw [List.mem_singleton.mp hr', haid]
  fits := by
    rw [recordedBytes_append]
    exact hfits

/-- A block that goes to a new assembly, because it does not fit into the last one. -/
theorem Distributed.roll (h : Distributed C H cfg i₀ before last)
    (haid : r.2.blockaid = aidOf C H cfg (i₀ + (before.length + 1)))
    (hsize : r.2.blocksize ≤ blockSz)
    (hfull : capacity cfg.nchunks < recordedBytes last + r.2.blocksize) :
    Distributed C H cfg i₀ (before ++ [last]) [r] where
  left i part hpart := by
    have hcap := le_capacity cfg.nchunks
    have hlen : (before ++ [last]).length = before.length + 1 := List.length_append
    rw [List.getElem?_append] at hpart
    split at hpart
    · next hi =>
      obtain ⟨hall, hne, hfits, hprev⟩ := h.left i part hpart
      exact ⟨hall, hne, hfits, fun _ => hprev (Nat.succ_lt_succ hi)⟩
    · -- the assembly that is left
      obtain ⟨hzero, rfl⟩ := List.getElem?_eq_some_iff.mp hpart
      obtain rfl : i = before.length := by
        rw [List.length_singleton] at hzero
        omega
      simp only [Nat.sub_self, List.getElem_cons_zero]
      exact ⟨h.aid, by omega, h.fits, fun _ => by omega⟩
  aid r' hr' := by
    rw [List.mem_singleton.mp hr', haid, List.length_append, List.length_singleton]
  fits := Nat.le_trans hsize (le_capacity cfg.nchunks)

/-- The assemblies at the end: the last one counts if a block has been written. -/
theorem Distributed.fills (h : Distributed C H cfg i₀ before last) (hne : 0 < recordedBytes last) (i : ℕ)
    (part : List (Bytes × BlockInformation)) (hpart : (before ++ [last])[i]? = some part) :
    HoldsPart C H cfg i₀ (before ++ [last]).length i part := by
  rw [List.length_append, List.length_singleton]
  rw [List.getElem?_append] at hpart
  split at hpart
  · exact h.left i part hpart
  · obtain ⟨hzero, rfl⟩ := List.getElem?_eq_some_iff.mp hpart
    obtain rfl : i = before.length := by
      rw [List.length_singleton] at hzero
      omega
    simp only [Nat.sub_self, List.getElem_cons_zero]
    exact ⟨h.aid, hne, h.fits, fun hlt => absurd hlt (Nat.lt_irrefl _)⟩

/-- Their bytes are at most what they have room for, and all but the last are full. -/
theorem Distributed.bounds (h : Distributed C H cfg i₀ before last) :
    recordedBytes (before ++ [last]).flatten ≤ (before ++ [last]).length * capacity cfg.nchunks ∧
      ((before ++ [last]).length - 1) * (capacity cfg.nchunks + 1 - blockSz) ≤
        recordedBytes (before ++ [last]).flatten := by
  have hall : ∀ b ∈ before.map recordedBytes,
      b ≤ capacity cfg.nchunks ∧ capacity cfg.nchunks + 1 - blockSz ≤ b := by
    intro b hb
    obtain ⟨part, hmem, rfl⟩ := List.mem_map.mp hb
    obtain ⟨i, hi⟩ := List.getElem?_of_mem hmem
    have hlt := (List.getElem?_eq_some_iff.mp hi).1
    have hfills := h.left i part hi
    have hfull := hfills.full (Nat.succ_lt_succ hlt)
    exact ⟨hfills.fits, by omega⟩
  have hle := List.sum_le_card_nsmul _ _ fun b hb => (hall b hb).1
  have hge := List.card_nsmul_le_sum _ _ fun b hb => (hall b hb).2
  have hlast := h.fits
  rw [List.length_map, Nat.nsmul_eq_mul] at hle hge
  rw [recordedBytes_flatten, List.map_append, List.sum_append, List.map_singleton,
    List.sum_singleton, List.length_append, List.length_singleton, Nat.add_sub_cancel, Nat.succ_mul]
  exact ⟨by omega, by omega⟩

end Distributed

/-- **One call** puts its block behind the last one, or into a new assembly if it does not fit. -/
theorem backup_distributed {i₀ : ℕ} {before : List (List (Bytes × BlockInformation))}
    {last : List (Bytes × BlockInformation)} (h : Distributed C H cfg i₀ before last)
    {e : CoqEnvironmentWritable cfg} {a : CoqAssemblyPlainWritable cfg} {w : World}
    (ha : e.assembly = some a)
    (hs : AtSlot C H a w ⟨i₀ + before.length, headerLen cfg.nchunks + recordedBytes last⟩)
    (call : CoqEnvironmentWritable.BackupCall) (hne : call.b.bytes ≠ [])
    (hsize : call.b.len ≤ blockSz) :
    ∃ e' w' kis a' r before' last', e.backup C H w call.fname call.fpos call.b call.b.len =
        .ok (e', w', [r], kis) ∧ e'.assembly = some a' ∧
      AtSlot C H a' w' ⟨i₀ + before'.length, headerLen cfg.nchunks + recordedBytes last'⟩ ∧
      Distributed C H cfg i₀ before' last' ∧ 0 < recordedBytes last' ∧ r.2.blocksize = call.b.len ∧
      (before' ++ [last']).flatten = (before ++ [last]).flatten ++ [r] := by
  have hcap : capacity cfg.nchunks = dataEnd cfg.nchunks - headerLen cfg.nchunks := rfl
  have hcapacity := le_capacity cfg.nchunks
  have hpos : 0 < call.b.len := List.length_pos_of_ne_nil hne
  obtain ⟨e', w', kis, a', hback, ha', hs', -⟩ := backup_place ha hs call hne
  by_cases hfit : headerLen cfg.nchunks + recordedBytes last + call.b.len ≤ dataEnd cfg.nchunks
  · rw [NextFit.place_of_fit hfit] at hback hs'
    set r : Bytes × BlockInformation := (call.fname, blockRecord C
      (aidOf C H cfg (i₀ + before.length)) (headerLen cfg.nchunks + recordedBytes last) call.fpos
      call.b.bytes)
    have hlen : r.2.blocksize = call.b.len := rfl
    have hstored : recordedBytes (last ++ [r]) = recordedBytes last + call.b.len :=
      recordedBytes_append last [r]
    refine ⟨e', w', kis, a', r, before, last ++ [r], hback, ha', ?_, h.grow rfl (by omega),
      by omega, hlen, by simp⟩
    rw [hstored, ← Nat.add_assoc]
    exact hs'
  · have hnew : headerLen cfg.nchunks + call.b.len ≤ dataEnd cfg.nchunks := by omega
    rw [NextFit.place_of_new hfit hnew] at hback hs'
    set r : Bytes × BlockInformation := (call.fname, blockRecord C
      (aidOf C H cfg (i₀ + before.length + 1)) (headerLen cfg.nchunks) call.fpos call.b.bytes)
    have hlen : r.2.blocksize = call.b.len := rfl
    have hstored : recordedBytes [r] = call.b.len := rfl
    refine ⟨e', w', kis, a', r, before ++ [last], [r], hback, ha', ?_, h.roll rfl (by omega)
      (by omega), by omega, hlen, by simp⟩
    rw [hstored, List.length_append]
    exact hs'

/-- The blocks of the assemblies that have been started since `w₀`. -/
structure Placed (C : Crypto) (H : Host) (w₀ : World) (fblocks₀ : CoqFBlockStore)
    (before : List (List (Bytes × BlockInformation))) (last : List (Bytes × BlockInformation))
    (s : Session cfg) : Prop where
  distributed : Distributed C H cfg w₀.nassembly before last
  fblockstore : s.cache.fblockstore = recorded fblocks₀ (before ++ [last]).flatten
  current : (before = [] ∧ last = [] ∧ s.cache.writeenv = none ∧
      s.world.nassembly = w₀.nassembly) ∨
    0 < recordedBytes last ∧ ∃ e a, s.cache.writeenv = some e ∧ e.assembly = some a ∧
      AtSlot C H a s.world
        ⟨w₀.nassembly + before.length, headerLen cfg.nchunks + recordedBytes last⟩

section Placed

variable {w₀ : World} {fblocks₀ : CoqFBlockStore}
  {before : List (List (Bytes × BlockInformation))} {last : List (Bytes × BlockInformation)}
  {s : Session cfg}

/-- **One request** places its block. -/
theorem Placed.runWriteRequest (h : Placed C H w₀ fblocks₀ before last s)
    {wreq : WriteQueueEntity} {b : CoqBuffer .plain} (hb : wreq.buffer = some b)
    (hne : b.bytes ≠ []) (hsize : b.len ≤ blockSz) :
    ∃ s' before' last', s.runWriteRequest C H wreq = .ok s' ∧
      Placed C H w₀ fblocks₀ before' last' s' ∧
      recordedBytes (before' ++ [last']).flatten =
        recordedBytes (before ++ [last]).flatten + b.len := by
  -- the environment the request is written to
  obtain ⟨e, a, w, hensure, ha, hs⟩ : ∃ e a w, s.ensureWriteenv C H = (e, w) ∧
      e.assembly = some a ∧ AtSlot C H a w
        ⟨w₀.nassembly + before.length, headerLen cfg.nchunks + recordedBytes last⟩ := by
    unfold Session.ensureWriteenv
    rcases h.current with ⟨rfl, rfl, henv, hnum⟩ | ⟨-, e, a, henv, ha, hs⟩
    · rw [henv]
      refine ⟨⟨some (newAssembly C H cfg s.world.nassembly), 0⟩, _, _, rfl, rfl, ?_⟩
      rw [← hnum]
      exact atSlot_newAssembly s.world
    · rw [henv]
      exact ⟨e, a, s.world, rfl, ha, hs⟩
  obtain ⟨e', w', kis, a', r, before', last', hback, ha', hs', hdistr, hlast, hlen, hflatten⟩ :=
    backup_distributed h.distributed ha hs ⟨C.toHex256 wreq.fhash, wreq.fpos, b⟩ hne hsize
  obtain ⟨s', hrun, henv', hw', hblocks⟩ : ∃ s', s.runWriteRequest C H wreq = .ok s' ∧
      s'.cache.writeenv = some e' ∧ s'.world = w' ∧
      s'.cache.fblockstore = recorded s.cache.fblockstore [r] := by
    unfold Session.runWriteRequest
    rw [hensure, hb]
    dsimp only at hback ⊢
    rw [hback]
    exact ⟨_, rfl, rfl, rfl, rfl⟩
  have htotal : recordedBytes (before' ++ [last']).flatten =
      recordedBytes (before ++ [last]).flatten + b.len := by
    rw [hflatten, recordedBytes_append]
    exact congrArg (_ + ·) hlen
  refine ⟨s', before', last', hrun, ⟨hdistr, ?_, Or.inr ⟨hlast, e', a', henv', ha', ?_⟩⟩, htotal⟩
  · rw [hblocks, h.fblockstore, hflatten, recorded_append]
  · rw [hw']
    exact hs'

/-- **The pieces of a file** are placed. -/
theorem Placed.runWriteRequests (h : Placed C H w₀ fblocks₀ before last s) (fhash : Key256)
    {ps : List (ℕ × Bytes)} (hps : ∀ p ∈ ps, p.2 ≠ [] ∧ p.2.length ≤ blockSz) :
    ∃ s' before' last', s.runWriteRequests C H (ps.map (pieceRequest fhash)) = .ok s' ∧
      Placed C H w₀ fblocks₀ before' last' s' ∧
      recordedBytes (before' ++ [last']).flatten =
        recordedBytes (before ++ [last]).flatten + (ps.map fun p => p.2.length).sum := by
  induction ps generalizing s before last with
  | nil => exact ⟨s, before, last, rfl, h, rfl⟩
  | cons p ps ih =>
    have hsz : blockSz = 32768 := rfl
    obtain ⟨hne, hp⟩ := hps p List.mem_cons_self
    have hbytes : (CoqBuffer.ofBytes p.2 : CoqBuffer .plain).bytes = p.2 :=
      CoqBuffer.bytes_ofBytes (by omega)
    have hlen : (CoqBuffer.ofBytes p.2 : CoqBuffer .plain).len = p.2.length :=
      congrArg List.length hbytes
    have hbuffer : (pieceRequest fhash p).buffer = some (CoqBuffer.ofBytes p.2) := rfl
    obtain ⟨s₁, before₁, last₁, hrun, hplaced, htotal⟩ :=
      h.runWriteRequest hbuffer (by rwa [hbytes]) (by rwa [hlen])
    obtain ⟨s₂, before₂, last₂, hrest, hplaced', htotal'⟩ :=
      ih hplaced fun q hq => hps q (List.mem_cons_of_mem p hq)
    refine ⟨s₂, before₂, last₂, ?_, hplaced', ?_⟩
    · rw [List.map_cons, Session.runWriteRequests, hrun]
      exact hrest
    · rw [htotal', htotal, hlen, List.map_cons, List.sum_cons, Nat.add_assoc]

end Placed

/-- The pieces that are read of a file are no longer than a block. -/
theorem length_le_of_mem_readPieces {f : SourceFile} {fsize fpos : ℕ} {p : ℕ × Bytes}
    (hp : p ∈ readPieces f fsize fpos) : p.2.length ≤ blockSz := by
  induction fpos using readPieces.induct fsize with
  | case1 fpos hlt ih =>
    rw [readPieces, if_pos hlt] at hp
    rcases List.mem_cons.mp hp with rfl | hp
    · exact Nat.le_trans (length_slice_le _ _ _)
        (Nat.le_trans (Nat.min_le_left _ _) (Nat.min_le_left _ _))
    · exact ih hp
  | case2 fpos hge =>
    rw [readPieces, if_neg hge] at hp
    cases hp

/-- The bytes of the files that were backed up. -/
def backedUpBytes (past : List (SourceFile × Option FileInformation)) : ℕ :=
  (past.map fun q => if q.2.isSome then q.1.content.length else 0).sum

/-- **A sequence of files** is placed. -/
theorem Placed.backupAllDirect {w₀ : World} {fblocks₀ : CoqFBlockStore}
    {before : List (List (Bytes × BlockInformation))} {last : List (Bytes × BlockInformation)}
    {s : Session cfg} (h : Placed C H w₀ fblocks₀ before last s) {files : List SourceFile}
    (hreads : ∀ f ∈ files, ReadsFull f) :
    ∃ s' ofis before' last', backupAllDirect C H s files = .ok (s', ofis) ∧
      Placed C H w₀ fblocks₀ before' last' s' ∧
      recordedBytes (before' ++ [last']).flatten =
        recordedBytes (before ++ [last]).flatten + backedUpBytes (files.zip ofis) := by
  induction files generalizing s before last with
  | nil => exact ⟨s, [], before, last, rfl, h, rfl⟩
  | cons f files ih =>
    have hfull := readPieces_tiles_zero (hreads f List.mem_cons_self)
    obtain ⟨s₁, before₁, last₁, hfile, hplaced, htotal⟩ : ∃ s₁ before₁ last₁,
        fileBackupDirect C H s f = .ok (s₁, backedUp C s f) ∧
        Placed C H w₀ fblocks₀ before₁ last₁ s₁ ∧ recordedBytes (before₁ ++ [last₁]).flatten =
          recordedBytes (before ++ [last]).flatten +
            if (backedUp C s f).isSome then f.content.length else 0 := by
      unfold fileBackupDirect
      cases hbacked : backedUp C s f with
      | none => exact ⟨s, before, last, rfl, h, rfl⟩
      | some fi =>
        have hsize := (backedUp_eq hbacked).2.1
        have hpieces : ∀ p ∈ readPieces f fi.fsize 0, p.2 ≠ [] ∧ p.2.length ≤ blockSz :=
          fun p hp => ⟨hfull.ne_nil p (hsize ▸ hp), length_le_of_mem_readPieces hp⟩
        obtain ⟨s₁, before₁, last₁, hrun, hplaced, htotal⟩ :=
          h.runWriteRequests (C.fromHex256 fi.fhash) hpieces
        refine ⟨s₁.addFInfo fi, before₁, last₁, ?_, ⟨hplaced.distributed, hplaced.fblockstore,
          hplaced.current⟩, ?_⟩
        · dsimp only
          rw [hrun]
        · rw [htotal, hsize, hfull.sum_length]
          rfl
    obtain ⟨s₂, ofis, before₂, last₂, hall, hplaced', htotal'⟩ :=
      ih hplaced fun g hg => hreads g (List.mem_cons_of_mem f hg)
    refine ⟨s₂, backedUp C s f :: ofis, before₂, last₂, ?_, hplaced', ?_⟩
    · rw [Analysis.backupAllDirect, hfile]
      dsimp only
      rw [hall]
    · rw [htotal', htotal, List.zip_cons_cons, backedUpBytes, backedUpBytes, List.map_cons,
        List.sum_cons, Nat.add_assoc]

/-- `close` starts no assembly and records no block. -/
theorem close_storage (s : Session cfg) :
    (s.close C H).world.nassembly = s.world.nassembly ∧
      (s.close C H).cache.fblockstore = s.cache.fblockstore := by
  unfold Session.close
  cases s.cache.writeenv with
  | none => exact ⟨rfl, rfl⟩
  | some e => exact ⟨(finalise_step (C := C) (H := H) e s.world).nassembly_eq, rfl⟩

/-- **The assemblies of a backup run.**  The blocks that are recorded are those of the assemblies that
are started, one after the other: each has the identifier of its assembly, all fit, and all but the
last assembly have at most `blockSz - 1` bytes free.  Together they have the bytes of the files that
are backed up. -/
theorem backupRun_storage (hC : C.HexLawful) (H : Host) (cfg : CoqConfiguration) (nEnvs depth : ℕ)
    (hdepth : 1 ≤ depth) (keys : CoqKeyStore) (fblocks : CoqFBlockStore) (finfos : CoqFInfoStore)
    (w : World) (files : List SourceFile) (hreads : ∀ f ∈ files, ReadsFull f) :
    ∃ s ofis, ∃ parts : List (List (Bytes × BlockInformation)),
      (Session.init cfg nEnvs depth keys fblocks finfos w).backupRun C H files = .ok (s, ofis) ∧
      s.world.nassembly = w.nassembly + parts.length ∧
      s.cache.fblockstore = recorded fblocks parts.flatten ∧
      (∀ i part, parts[i]? = some part → HoldsPart C H cfg w.nassembly parts.length i part) ∧
      recordedBytes parts.flatten = backedUpBytes (files.zip ofis) ∧
      (parts.length = 0 ↔ backedUpBytes (files.zip ofis) = 0) ∧
      backedUpBytes (files.zip ofis) ≤ parts.length * capacity cfg.nchunks ∧
      (parts.length - 1) * (capacity cfg.nchunks + 1 - blockSz) ≤
        backedUpBytes (files.zip ofis) := by
  obtain ⟨s, ofis, hrun, hdirect⟩ := backupRun_direct (H := H) hC
    (readyToBackup_init hdepth keys fblocks finfos w :
      ReadyToBackup (Session.init cfg nEnvs depth _ _ _ _)) files
  have hstart : Placed C H w fblocks [] []
      (unqueued (Session.init cfg nEnvs depth keys fblocks finfos w)) :=
    ⟨distributed_nil C H cfg _, rfl, Or.inl ⟨rfl, rfl, rfl, rfl⟩⟩
  obtain ⟨s₁, ofis₁, before, last, hall, hplaced, htotal⟩ := hstart.backupAllDirect hreads
  unfold backupRunDirect at hdirect
  rw [hall] at hdirect
  obtain ⟨hclose, rfl⟩ := Prod.mk.inj (Except.ok.inj hdirect)
  obtain ⟨hnum, hblocks⟩ := close_storage (C := C) (H := H) s₁
  rw [hclose] at hnum hblocks
  replace hnum : s.world.nassembly = s₁.world.nassembly := hnum
  replace hblocks : s.cache.fblockstore = s₁.cache.fblockstore := hblocks
  replace htotal : recordedBytes (before ++ [last]).flatten = backedUpBytes (files.zip ofis₁) :=
    htotal.trans (Nat.zero_add _)
  rcases hplaced.current with ⟨rfl, rfl, -, hnone⟩ | ⟨hpos, e, a, -, -, hs⟩
  · have hzero : backedUpBytes (files.zip ofis₁) = 0 := htotal.symm
    exact ⟨s, ofis₁, [], hrun, hnum.trans hnone, hblocks.trans hplaced.fblockstore, by simp,
      htotal, by simp [hzero], by simp [hzero], by simp⟩
  · obtain ⟨hcap, hwaste⟩ := hplaced.distributed.bounds
    have hlen : (before ++ [last]).length = before.length + 1 := List.length_append
    have hle : recordedBytes last ≤ recordedBytes (before ++ [last]).flatten := by
      rw [List.flatten_append, recordedBytes_append, List.flatten_singleton]
      exact Nat.le_add_left _ _
    rw [htotal] at hcap hwaste hle
    refine ⟨s, ofis₁, before ++ [last], hrun, ?_, hblocks.trans hplaced.fblockstore,
      hplaced.distributed.fills hpos, htotal, by omega, hcap, hwaste⟩
    rw [hnum, hs.nassembly_eq, hlen, Nat.add_assoc]

/-- What a run with one file says about it. -/
theorem backupRun_singleton (hC : C.HexLawful) {s s' : Session cfg} (h : ReadyToBackup s)
    {f : SourceFile} {ofis : List (Option FileInformation)}
    (hrun : s.backupRun C H [f] = .ok (s', ofis)) : ofis = [backedUp C s f] := by
  obtain ⟨s₁, hfile, -⟩ := fileBackup_direct (H := H) hC h f
  rw [Session.backupRun, Session.backupAll, hfile] at hrun
  exact (Prod.mk.inj (Except.ok.inj hrun)).2.symm

/-- A file that is one byte longer than an assembly is backed up into two, and the first of them is
full up to the length of a block. -/
theorem backupRun_storage_simple :
    let H := numberedHost fun _ _ => allWorks
    let size := capacity config16.nchunks + 1
    ∃ h, let f := plainFile (ascii "f") (List.replicate size 0) h
      ∃ s ofis, ∃ parts : List (List (Bytes × BlockInformation)),
        (Session.init config16 1 1 ∅ ∅ ∅ emptyWorld).backupRun simple H [f] = .ok (s, ofis) ∧
        backedUpBytes ([f].zip ofis) = size ∧ 2 ≤ parts.length ∧ s.world.nassembly = parts.length ∧
        ∀ part, parts[0]? = some part → capacity config16.nchunks < recordedBytes part + blockSz := by
  intro H size
  have hsize : (List.replicate size (0 : UInt8)).length = size := List.length_replicate
  have hlt : size < 9223372036854775808 := by decide
  refine ⟨by rw [hsize]; exact hlt, ?_⟩
  intro f
  obtain ⟨s, ofis, parts, hrun, hnum, -, hfills, -, -, hcap, -⟩ := backupRun_storage
    simple_lawful.hex H config16 1 1 (Nat.le_refl 1) ∅ ∅ ∅ emptyWorld [f] fun g hg => by
      rw [List.mem_singleton.mp hg]
      exact readsFull_plainFile _ _ _
  -- the file is not known, so it is backed up
  have hbytes : backedUpBytes ([f].zip ofis) = size := by
    have hready : ReadyToBackup (Session.init config16 1 1 ∅ ∅ ∅ emptyWorld) :=
      readyToBackup_init (Nat.le_refl 1) _ _ _ _
    have hnew : (backedUp simple (Session.init config16 1 1 ∅ ∅ ∅ emptyWorld) f).isSome = true :=
      rfl
    rw [backupRun_singleton simple_lawful.hex hready hrun, List.zip_cons_cons, List.zip_nil_left,
      backedUpBytes, List.map_singleton, List.sum_singleton, if_pos hnew]
    exact hsize
  rw [hbytes] at hcap
  have htwo : 2 ≤ parts.length := by
    by_contra hone
    have hmul := Nat.mul_le_mul_right (capacity config16.nchunks) (show parts.length ≤ 1 by omega)
    omega
  refine ⟨s, ofis, parts, hrun, hbytes, htwo, hnum.trans (Nat.zero_add _), fun part hpart => ?_⟩
  exact (hfills 0 part hpart).full (by omega)

end Elykseer.Analysis
