import Elykseer.Analysis.Archive

/-!
# Accepted writes

What is in the file-block store after a run of a writer that ends with a drain and with
`close`: `acceptedWrites_kept_iff`.  A drain that finds the environment closed loses its
blocks, as after `close` until the next `flush`: `acceptedWrites_counterexample`.
-/

set_option autoImplicit false

namespace Elykseer.Analysis

open Elykseer.Model Elykseer.Foundation

variable {C : Crypto} {H : Host} {cfg : CoqConfiguration}

/-! ## The blocks a session has added -/

/-- The blocks under a name that have been added since `s₀`. -/
def addedBlocks (s₀ s : Session cfg) (fname : Bytes) : List BlockInformation :=
  (CoqFBlockStore.blocks s.cache.fblockstore fname).drop
    (CoqFBlockStore.blocks s₀.cache.fblockstore fname).length

/-- The blocks added are the records of the ledger. -/
theorem addedBlocks_eq {s₀ s : Session cfg} {L : List Entry}
    (h : Ledger C (writeSide s₀) (writeSide s) L) (fname : Bytes) :
    (addedBlocks s₀ s fname).map unnumbered = recordsOf C L fname := by
  have hlen : (CoqFBlockStore.blocks s₀.cache.fblockstore fname).length =
      ((CoqFBlockStore.blocks (writeSide s₀).blocks fname).map unnumbered).length := by
    rw [List.length_map]
    rfl
  have hall := h fname
  unfold addedBlocks
  rw [List.map_drop, hlen]
  change ((CoqFBlockStore.blocks (writeSide s).blocks fname).map unnumbered).drop _ = _
  rw [hall, List.drop_left]

/-- What a block says about the bytes it holds. -/
def blockKey (bi : BlockInformation) : ℕ × ℕ × Key256 := (bi.filepos, bi.blocksize, bi.bchecksum)

/-- What is said about the bytes of a wanted block. -/
def Wanted.key (C : Crypto) (x : Wanted) : ℕ × ℕ × Key256 := (x.fpos, x.data.length, C.sha3 x.data)

/-- The records that are not blank are those of the blocks that are stored. -/
theorem recordsOf_nonempty (L : List Entry) (fname : Bytes) :
    ((recordsOf C L fname).filter fun bi => bi.blocksize ≠ 0).map blockKey =
      ((stored L).filter fun x => x.fname = fname).map (Wanted.key C) := by
  induction L with
  | nil => rfl
  | cons x L ih =>
    have hsplit : x :: L = [x] ++ L := rfl
    rw [hsplit, recordsOf_append, recordsOf_singleton, stored_append, List.filter_append,
      List.filter_append, List.map_append, List.map_append, ih]
    congr 1
    unfold stored
    by_cases hname : fname = x.fname
    · by_cases hd : x.data = []
      · have hsize : (unnumbered (x.record C)).blocksize = 0 := by
          rw [Entry.record, if_pos hd]
          rfl
        simp [hname, hsize, Entry.wanted, hd]
      · have hsize : (unnumbered (x.record C)).blocksize = x.data.length := by
          rw [Entry.record, if_neg hd]
          rfl
        have hkey : blockKey (unnumbered (x.record C)) = x.wanted.key C := by
          rw [Entry.record, if_neg hd]
          rfl
        have hw : x.wanted.data ≠ [] := hd
        have hwn : x.wanted.fname = x.fname := rfl
        simp [hname, hsize, hd, hkey, hw, hwn]
    · have hwn : x.wanted.fname ≠ fname := fun h => hname h.symm
      rw [if_neg hname]
      simp only [List.map_cons, List.map_nil]
      by_cases hd : x.wanted.data = [] <;> simp [hd, hwn]

/-- The added blocks are those of the requests `wreqs`, in order, and can be decrypted: under every
name the non-empty blocks have the positions, lengths and checksums that were asked for, and their
assemblies have keys. -/
structure KeepsWrites (C : Crypto) (s₀ s : Session cfg) (wreqs : List WriteQueueEntity) : Prop where
  blocks : ∀ fname, ((addedBlocks s₀ s fname).filter fun bi => bi.blocksize ≠ 0).map blockKey =
    ((required C cfg wreqs).filter fun x => x.fname = fname).map (Wanted.key C)
  keys : ∀ fname, ∀ bi ∈ addedBlocks s₀ s fname, bi.blocksize ≠ 0 →
    (CoqStore.find s.cache.keystore bi.blockaid).isSome = true

/-- A readable block has a key. -/
theorem Readable.isSome_key {keys : CoqKeyStore} {fs : FileSystem} {x : Entry}
    (h : Readable C cfg keys fs x) : (CoqStore.find keys x.aid).isSome = true := by
  obtain ⟨a, hload, -⟩ := h
  obtain ⟨ki, hki, -⟩ := Option.bind_eq_some_iff.mp hload
  rw [hki]
  rfl

/-- A recorded block that is not empty belongs to an entry. -/
theorem exists_entry_of_added {s₀ s : Session cfg} {L : List Entry}
    (h : Ledger C (writeSide s₀) (writeSide s) L) {fname : Bytes} {bi : BlockInformation}
    (hbi : bi ∈ addedBlocks s₀ s fname) (hsize : bi.blocksize ≠ 0) :
    ∃ x ∈ L, x.fname = fname ∧ x.data ≠ [] ∧ bi.blockaid = x.aid := by
  have hmem := List.mem_map_of_mem (f := unnumbered) hbi
  rw [addedBlocks_eq h, recordsOf, List.mem_map] at hmem
  obtain ⟨x, hx, heq⟩ := hmem
  obtain ⟨hxL, hname⟩ := List.mem_filter.mp hx
  have hd : x.data ≠ [] := by
    intro hd
    rw [Entry.record, if_pos hd] at heq
    exact hsize (congrArg BlockInformation.blocksize heq).symm
  refine ⟨x, hxL, of_decide_eq_true hname, hd, ?_⟩
  rw [Entry.record, if_neg hd] at heq
  exact (congrArg BlockInformation.blockaid heq).symm

/-- Lists whose parts under every name have the same length have the same length. -/
theorem length_eq_of_filter {l l' : List Wanted}
    (h : ∀ fname, (l.filter fun x => x.fname = fname).length =
      (l'.filter fun x => x.fname = fname).length) : l.length = l'.length := by
  have hperm : (l.map Wanted.fname).Perm (l'.map Wanted.fname) := by
    apply List.perm_iff_count.mpr
    intro fname
    have hname := h fname
    simp only [← List.countP_eq_length_filter] at hname
    simpa [List.count, List.countP_map, Function.comp_def, beq_eq_decide] using hname
  simpa using hperm.length_eq

/-! ## Runs that end with a drain and a close -/

/-- **No accepted write is lost** in a run of a writer that ends with a drain and `close`, when
nothing fails, if and only if no drain finds blocks to record but no assembly in its environment. -/
theorem acceptedWrites_kept_iff (C : Crypto) (H : Host) (cfg : CoqConfiguration)
    (nEnvs depth : ℕ) (keys₀ : CoqKeyStore) (fblocks₀ : CoqFBlockStore) (finfos : CoqFInfoStore)
    (w₀ : World) (ops : List Op) (hops : ∀ op ∈ ops, IsWriting op)
    (hflush : Meets C H FlushesLate (Session.init cfg nEnvs depth keys₀ fblocks₀ finfos w₀)
      (ops ++ [.iterateWrite, .close])) :
    let s₀ := Session.init cfg nEnvs depth keys₀ fblocks₀ finfos w₀
    ∃ s answers, s₀.run C H (ops ++ [.iterateWrite, .close]) = .ok (s, answers) ∧
      (Favourable C H cfg w₀ keys₀ s.world.nassembly →
        (KeepsWrites C s₀ s (acceptedWrites answers) ↔
          Meets C H (DrainsOpen C) s₀ (ops ++ [.iterateWrite, .close]))) := by
  intro s₀
  have hstart : Accounted C H (writeSide s₀) (writeSide s₀) [] := accounted_start rfl
  have hops' : ∀ op ∈ ops ++ [.iterateWrite, .close], IsWriting op := by
    intro op hop
    rcases List.mem_append.mp hop with hop | hop
    · exact hops op hop
    · rcases List.mem_cons.mp hop with rfl | hop
      · trivial
      · rw [List.mem_singleton.mp hop]
        trivial
  obtain ⟨s, answers, es, draws, hrun, hwrites, -, -, hkept⟩ :=
    run_trace hstart.fitting hops' hflush
  obtain ⟨hqueue, hclosed⟩ := run_ends hstart.fitting hops hflush.of_append hrun
  have hnone : required C cfg s.cache.writequeue = [] := by
    rw [hqueue]
    rfl
  have hempty : required C cfg s₀.cache.writequeue = [] := rfl
  rw [hnone, hempty, List.append_nil, List.nil_append] at hkept
  have hacc := hwrites.trace.accounted hstart
  rw [List.nil_append] at hacc
  have hrecords : ∀ fname, ((addedBlocks s₀ s fname).filter fun bi => bi.blocksize ≠ 0).map
      blockKey = ((stored es).filter fun x => x.fname = fname).map (Wanted.key C) := by
    intro fname
    have hblocks := recordsOf_nonempty (C := C) es fname
    rw [← addedBlocks_eq hacc.ledger, List.filter_map, List.map_map] at hblocks
    exact hblocks
  refine ⟨s, answers, hrun, fun hfav => ⟨fun hkeeps => ?_, fun hdrain => ?_⟩⟩
  · by_contra hlost
    have hlen := length_eq_of_filter (l := stored es) fun fname => by
        have := congrArg List.length ((hrecords fname).symm.trans (hkeeps.blocks fname))
        simpa using this
    exact Nat.ne_of_lt (hkept.fewer hlost) hlen
  · refine ⟨fun fname => ?_, fun fname bi hbi hsize => ?_⟩
    · rw [← hkept.all hdrain]
      exact hrecords fname
    · have harch := hwrites.trace.archived hfav hstart (archived_start hfav rfl) (Nat.le_refl _)
      rw [List.nil_append] at harch
      obtain ⟨x, hx, -, hd, haid⟩ := exists_entry_of_added hacc.ledger hbi hsize
      rw [haid]
      exact (harch.readable_of_closed hclosed hx hd).isSome_key

/-- A write, a drain, and `close`. -/
theorem acceptedWrites_kept_iff_simple :
    let H := numberedHost fun _ _ => allWorks
    let w : WriteQueueEntity := ⟨Vector.replicate 32 0, 0, some (CoqBuffer.ofBytes [1])⟩
    let s₀ := Session.init config16 1 1 ∅ ∅ ∅ emptyWorld
    ∃ s answers, s₀.run simple H [.enqueueWrite w, .iterateWrite, .close] = .ok (s, answers) ∧
      KeepsWrites simple s₀ s (acceptedWrites answers) := by
  intro H w s₀
  have hops : ∀ op ∈ [Op.enqueueWrite w], IsWriting op := by simp [IsWriting]
  have hops' : ∀ op ∈ [Op.enqueueWrite w, .iterateWrite, .close], IsWriting op := by
    simp [IsWriting]
  have hflush := meets_flushesLate_of_not_mem (C := simple) (H := H) s₀
    [.enqueueWrite w, .iterateWrite, .close] (by simp)
  have hdrain : Meets simple H (DrainsOpen simple) s₀
      [.enqueueWrite w, .iterateWrite, .close] := by
    refine ⟨fun h => (nomatch h), fun s₁ answer₁ hstep₁ => ⟨fun _ => Or.inl ?_,
      fun s₂ answer₂ _ => ⟨fun h => (nomatch h), fun _ _ _ => trivial⟩⟩⟩
    cases hstep₁
    rfl
  obtain ⟨s, answers, hrun, hiff⟩ := acceptedWrites_kept_iff simple H config16 1 1 ∅ ∅ ∅ emptyWorld
    [.enqueueWrite w] hops hflush
  have hle : s.world.nassembly ≤ 0 + 2 * 3 :=
    run_nassembly_le (accounted_start (C := simple) (H := H) rfl).fitting rfl hops' hflush hrun
  exact ⟨s, answers, hrun,
    (hiff (favourable_numbered (Nat.le_trans hle (by decide)))).mpr hdrain⟩

/-- **A write, a drain and `close`**: the block is recorded if the environment is open, and lost if
it is not. -/
theorem run_write_close {s : Session cfg} (hfit : (writeSide s).Fitting)
    (hqueue : s.cache.writequeue = []) (hdepth : 1 ≤ s.cache.nQueuesz) (w : WriteQueueEntity) :
    ∃ s' es, s.run C H [.enqueueWrite w, .iterateWrite, .close] =
        .ok (s', [(.enqueueWrite w, .accepted true), (.iterateWrite, .done), (.close, .done)]) ∧
      Writes C H s s' es 2 ∧ s'.cache.writequeue = [] ∧ (writeSide s').isOpen = false ∧
      es.map Entry.wanted =
        if (writeSide s).isOpen then (requestWanted C cfg w).toList else [] := by
  have henq := enqueueWriteRequest_of_empty hqueue hdepth w
  set s₁ : Session cfg := ⟨{ s.cache with
    nWriteRequests := (s.cache.nWriteRequests + 1) % 4294967296
    writequeue := [w] }, s.world⟩
  have hside : writeSide s₁ = writeSide s := rfl
  have hwrites : Writes C H s s₁ [] 0 := Writes.enqueue s _ _
  obtain ⟨s₂, es, hiter, hdrain, hq, henv, -, hwanted⟩ :=
    iterateWriteQueue_trace (C := C) (H := H) (s := s₁) hfit
  obtain ⟨hclose, hq', -, -⟩ := close_trace (C := C) (H := H) s₂
  refine ⟨s₂.close C H, es, run_cons (step_enqueueWrite henq)
    (run_cons (step_iterateWrite.mpr ⟨rfl, hiter⟩) (run_cons rfl rfl)), ?_, hq'.trans hq,
    isOpen_close (henv (Or.inr (List.cons_ne_nil _ _))), ?_⟩
  · have hall := hwrites.trans (hdrain.trans hclose)
    rwa [List.nil_append, List.append_nil] at hall
  · rw [hwanted, hside, filterMap_requestWanted_singleton]

/-- A write after `close` is accepted, drained and closed, and has no block. -/
theorem acceptedWrites_counterexample :
    let H := numberedHost fun _ _ => allWorks
    let w : WriteQueueEntity := ⟨Vector.replicate 32 0, 0, some (CoqBuffer.ofBytes [1])⟩
    let w' : WriteQueueEntity := ⟨Vector.replicate 32 1, 0, some (CoqBuffer.ofBytes [2])⟩
    let s₀ := Session.init config16 1 1 ∅ ∅ ∅ emptyWorld
    ∃ s answers, s₀.run simple H ([.enqueueWrite w, .iterateWrite, .close, .enqueueWrite w'] ++
        [.iterateWrite, .close]) = .ok (s, answers) ∧
      acceptedWrites answers = [w, w'] ∧
      Favourable simple H config16 emptyWorld ∅ s.world.nassembly ∧
      CoqFBlockStore.blocks s.cache.fblockstore (simple.toHex256 w'.fhash) = [] ∧
      ¬ KeepsWrites simple s₀ s (acceptedWrites answers) := by
  intro H w w' s₀
  have hstart : Accounted simple H (writeSide s₀) (writeSide s₀) [] := accounted_start rfl
  -- the first block is recorded
  obtain ⟨s, es, hrun, hwrites, hqueue, hclosed, hwanted⟩ :=
    run_write_close (C := simple) (H := H) hstart.fitting rfl (Nat.le_refl 1) w
  have hwanted' : es.map Entry.wanted = [⟨simple.toHex256 w.fhash, 0, [1]⟩] := hwanted
  -- the second one is lost
  have hdepth : s.cache.nQueuesz = 1 := hwrites.frame.nQueuesz
  obtain ⟨s', es', hrun', hwrites', -, -, hlost⟩ := run_write_close (C := simple) (H := H)
    (hwrites.trace.fitting hstart.fitting) hqueue (Nat.le_of_eq hdepth.symm) w'
  rw [hclosed, if_neg Bool.false_ne_true, List.map_eq_nil_iff] at hlost
  have hboth := hwrites.trans hwrites'
  rw [hlost, List.append_nil] at hboth
  have hdraws : s'.world.nassembly ≤ 0 + (2 + 2) := hboth.nassembly_le
  have hblocks : CoqFBlockStore.blocks s'.cache.fblockstore (simple.toHex256 w'.fhash) = [] := by
    have h := (hboth.trace.accounted hstart).ledger (simple.toHex256 w'.fhash)
    have hnone : (es.filter fun x => x.fname = simple.toHex256 w'.fhash) = [] := by
      apply List.filter_eq_nil_iff.mpr
      intro x hx
      have hmem := List.mem_map_of_mem (f := Entry.wanted) hx
      rw [hwanted', List.mem_singleton] at hmem
      have hname : x.fname = simple.toHex256 w.fhash := congrArg Wanted.fname hmem
      rw [hname, decide_eq_true_eq]
      exact fun heq => absurd (simple_lawful.hex.toHex256_injective heq) (by decide)
    rw [List.nil_append, recordsOf, hnone, List.map_nil, List.append_nil] at h
    exact List.map_eq_nil_iff.mp h
  have hruns := run_append hrun hrun'
  refine ⟨s', _, hruns, rfl,
    favourable_numbered (Nat.le_trans hdraws (by decide)), hblocks, fun hkeeps => ?_⟩
  -- but it is asked for
  have hroom : headerLen config16.nchunks + (CoqBuffer.ofBytes [2] : CoqBuffer .plain).len ≤
      dataEnd config16.nchunks := by decide
  have hwant : requestWanted simple config16 w' = some ⟨simple.toHex256 w'.fhash, 0, [2]⟩ :=
    requestWanted_of_room rfl hroom
  have hrequired : (⟨simple.toHex256 w'.fhash, 0, [2]⟩ : Wanted) ∈
      (required simple config16 [w, w']).filter fun x => x.fname = simple.toHex256 w'.fhash := by
    refine List.mem_filter.mpr ⟨List.mem_filter.mpr ⟨?_, by simp⟩, decide_eq_true rfl⟩
    exact List.mem_filterMap.mpr ⟨w', by simp, hwant⟩
  have hadded : addedBlocks s₀ s' (simple.toHex256 w'.fhash) = [] := by
    unfold addedBlocks
    rw [hblocks, List.drop_nil]
  have hmem := List.mem_map_of_mem (f := Wanted.key simple) hrequired
  have hkept := hkeeps.blocks (simple.toHex256 w'.fhash)
  rw [hadded] at hkept
  change [] = ((required simple config16 [w, w']).filter _).map _ at hkept
  rw [← hkept] at hmem
  exact absurd hmem List.not_mem_nil

end Elykseer.Analysis
