import Elykseer.Analysis.ReadFrame

/-!
# What the metrics count

`Tally` is what happens in a run, counted from the outside: requests that are accepted,
drains that find a request, results and buffers that are returned, misses of the read
cache that succeed.  `Tallied` relates it to the counters of the cache, which wrap
around; it is proved for one operation (`step_tallied`) and carried along a run
(`run_tallied`).

Two counters count something else.  `enqueue_read_request` increments `n_iterate_reads`,
and `run_write_requests` adds the length of a buffer to `backup_bytes` whether or not a
block of it has been recorded.
-/

set_option autoImplicit false

namespace Elykseer.Analysis

open Elykseer.Model Elykseer.Foundation

variable {C : Crypto} {H : Host} {cfg : CoqConfiguration}

/-! ## Counters that wrap around -/

/-- A counter below `m` is `n` before and `n'` after `k` increments. -/
def Counts (m n k n' : ℕ) : Prop := n < m → n' = (n + k) % m

/-- Without an increment the counter stays as it is. -/
theorem Counts.refl (m n : ℕ) : Counts m n 0 n := fun h => (Nat.mod_eq_of_lt h).symm

/-- Adding modulo `m` counts. -/
theorem Counts.inc (m n k : ℕ) : Counts m n k ((n + k) % m) := fun _ => rfl

/-- Counting twice counts the sum. -/
theorem Counts.trans {m n k n' k' n'' : ℕ} (h : Counts m n k n') (h' : Counts m n' k' n'') :
    Counts m n (k + k') n'' := by
  intro hn
  have hn' : n' < m := h hn ▸ Nat.mod_lt _ (Nat.lt_of_le_of_lt (Nat.zero_le n) hn)
  rw [h' hn', h hn, Nat.mod_add_mod, Nat.add_assoc]

/-! ## What happens -/

/-- What happens in a run. -/
@[ext]
structure Tally where
  /-- write requests that are accepted -/
  writeRequests : ℕ
  /-- read requests that are accepted -/
  readRequests : ℕ
  /-- drains of a non-empty write queue -/
  writeDrains : ℕ
  /-- drains of a non-empty read queue -/
  readDrains : ℕ
  /-- result entries of read requests -/
  results : ℕ
  /-- bytes of the buffers of results -/
  returned : ℕ
  /-- misses of the read cache that succeed -/
  recalled : ℕ
  /-- bytes of the buffers that are to be written when the write queue is drained -/
  handed : ℕ
  /-- those of them for which no block is recorded -/
  lost : ℕ

namespace Tally

instance : Zero Tally := ⟨⟨0, 0, 0, 0, 0, 0, 0, 0, 0⟩⟩

instance : Add Tally :=
  ⟨fun t u => ⟨t.writeRequests + u.writeRequests, t.readRequests + u.readRequests,
    t.writeDrains + u.writeDrains, t.readDrains + u.readDrains, t.results + u.results,
    t.returned + u.returned, t.recalled + u.recalled, t.handed + u.handed, t.lost + u.lost⟩⟩

end Tally

/-- The bytes of the buffers among some results. -/
def returnedBytes (rs : List ReadQueueResult) : ℕ := (rs.map fun r => r.rresult.elim 0 (·.len)).sum

/-- The assemblies that are recalled while requests for `aids` are run. -/
def recalledBy (C : Crypto) (s : Session cfg) (aids : List Bytes) : ℕ :=
  (attempts s.cache.nReadenvs (loads C s) s.cache.readenvs aids).countP
    fun aid => (loads C s aid).isSome

/-- The bytes of the buffer of a request. -/
def bufferBytes (wreq : WriteQueueEntity) : ℕ := wreq.buffer.elim 0 (·.len)

/-- The bytes of the buffer of a request that are not recorded: all of them if there is no assembly,
or none they fit into. -/
def unrecorded (C : Crypto) (cfg : CoqConfiguration) (isOpen : Bool) (wreq : WriteQueueEntity) : ℕ :=
  if isOpen = true ∧ (requestWanted C cfg wreq).isSome = true then 0 else bufferBytes wreq

/-- What an operation makes happen. -/
def happened (C : Crypto) (s : Session cfg) : Op → Answer → Tally
  | .enqueueRead _, .accepted true => { (0 : Tally) with readRequests := 1 }
  | .enqueueWrite _, .accepted true => { (0 : Tally) with writeRequests := 1 }
  | .iterateRead, .results rs =>
    { (0 : Tally) with
      readDrains := if s.cache.readqueue = [] then 0 else 1
      results := rs.length
      returned := returnedBytes rs
      recalled := recalledBy C s (s.cache.readqueue.map (·.aid)) }
  | .iterateWrite, _ =>
    { (0 : Tally) with
      writeDrains := if s.cache.writequeue = [] then 0 else 1
      handed := (s.cache.writequeue.map bufferBytes).sum
      lost := (s.cache.writequeue.map (unrecorded C cfg (writeSide s).isOpen)).sum }
  | _, _ => 0

/-- What happens in a run of operations. -/
def tally (C : Crypto) (H : Host) : Session cfg → List Op → Tally
  | _, [] => 0
  | s, op :: ops =>
    match s.step C H op with
    | .error _ => 0
    | .ok (s', answer) => happened C s op answer + tally C H s' ops

/-- The sum of the block sizes in a file-block store. -/
def storedBytes (s : CoqFBlockStore) : ℕ := (s.entries.map fun p => (p.2.map (·.blocksize)).sum).sum

/-- What happens between two states of a cache is what its counters say, up to two slips. -/
structure Tallied (c c' : CoqAssemblyCache cfg) (t : Tally) : Prop where
  nWriteRequests : Counts 4294967296 c.nWriteRequests t.writeRequests c'.nWriteRequests
  nReadRequests : Counts 4294967296 c.nReadRequests t.results c'.nReadRequests
  nIterateWrites : Counts 4294967296 c.nIterateWrites t.writeDrains c'.nIterateWrites
  nIterateReads : Counts 4294967296 c.nIterateReads (t.readDrains + t.readRequests) c'.nIterateReads
  backupBytes : Counts 18446744073709551616 c.backupBytes t.handed c'.backupBytes
  restoredBytes : Counts 18446744073709551616 c.restoredBytes t.returned c'.restoredBytes
  nAssemblyRecalled : Counts 4294967296 c.nAssemblyRecalled t.recalled c'.nAssemblyRecalled
  stored : storedBytes c'.fblockstore + t.lost = storedBytes c.fblockstore + t.handed

/-- Nothing happens between a state and itself. -/
theorem Tallied.refl (c : CoqAssemblyCache cfg) : Tallied c c 0 :=
  ⟨Counts.refl _ _, Counts.refl _ _, Counts.refl _ _, Counts.refl _ _, Counts.refl _ _,
    Counts.refl _ _, Counts.refl _ _, rfl⟩

/-- What happens in two steps is the sum of what happens in each. -/
theorem Tallied.trans {c c' c'' : CoqAssemblyCache cfg} {t u : Tally} (h : Tallied c c' t)
    (h' : Tallied c' c'' u) : Tallied c c'' (t + u) where
  nWriteRequests := h.nWriteRequests.trans h'.nWriteRequests
  nReadRequests := h.nReadRequests.trans h'.nReadRequests
  nIterateWrites := h.nIterateWrites.trans h'.nIterateWrites
  nIterateReads := by
    have hsum := h.nIterateReads.trans h'.nIterateReads
    rw [Nat.add_add_add_comm] at hsum
    exact hsum
  backupBytes := h.backupBytes.trans h'.backupBytes
  restoredBytes := h.restoredBytes.trans h'.restoredBytes
  nAssemblyRecalled := h.nAssemblyRecalled.trans h'.nAssemblyRecalled
  stored := by
    have h1 := h.stored
    have h2 := h'.stored
    change storedBytes c''.fblockstore + (t.lost + u.lost) =
      storedBytes c.fblockstore + (t.handed + u.handed)
    omega

/-- The read environments are not counted. -/
theorem Tallied.withReadenvs {c c' : CoqAssemblyCache cfg} {t : Tally} (h : Tallied c c' t)
    (envs : List (CoqEnvironmentReadable cfg)) : Tallied c { c' with readenvs := envs } t :=
  ⟨h.nWriteRequests, h.nReadRequests, h.nIterateWrites, h.nIterateReads, h.backupBytes,
    h.restoredBytes, h.nAssemblyRecalled, h.stored⟩

/-- Neither are the write environment and the keys. -/
theorem Tallied.withWriteenv {c c' : CoqAssemblyCache cfg} {t : Tally} (h : Tallied c c' t)
    (env : Option (CoqEnvironmentWritable cfg)) (keys : CoqKeyStore) (nFinalised : ℕ) :
    Tallied c { c' with
      writeenv := env
      nAssemblyFinalised := nFinalised
      keystore := keys } t :=
  ⟨h.nWriteRequests, h.nReadRequests, h.nIterateWrites, h.nIterateReads, h.backupBytes,
    h.restoredBytes, h.nAssemblyRecalled, h.stored⟩

/-! ## Reading -/

/-- What reading makes happen, besides the drain itself. -/
def readTally (rs : List ReadQueueResult) (recalled : ℕ) : Tally :=
  { (0 : Tally) with
    results := rs.length
    returned := returnedBytes rs
    recalled := recalled }

/-- The results of two drains, one after the other. -/
theorem readTally_add (rs rs' : List ReadQueueResult) (k k' : ℕ) :
    readTally rs k + readTally rs' k' = readTally (rs ++ rs') (k + k') := by
  have hreturned : returnedBytes (rs ++ rs') = returnedBytes rs + returnedBytes rs' := by
    simp [returnedBytes]
  apply Tally.ext
  case results => exact (List.length_append).symm
  case returned => exact hreturned.symm
  all_goals rfl

/-- A miss is counted if it succeeds. -/
theorem tryRestoreAssembly_tallied (hC : C.HexLawful) (s : Session cfg) (aid : Bytes) :
    Tallied s.cache (s.tryRestoreAssembly C H aid).1.cache
      (readTally [] (if (loads C s aid).isSome = true then 1 else 0)) := by
  have hsome : (s.tryRestoreAssembly C H aid).2.isSome = (loads C s aid).isSome := by
    rw [(tryRestoreAssembly_eq hC H s aid).1, Option.isSome_map]
  rw [← hsome]
  unfold Session.tryRestoreAssembly
  split
  · exact Tallied.refl s.cache
  · dsimp only
    split
    · exact ⟨Counts.refl _ _, Counts.refl _ _, Counts.refl _ _, Counts.refl _ _, Counts.refl _ _,
        Counts.refl _ _, Counts.inc _ _ _, rfl⟩
    · exact Tallied.refl s.cache

/-- An assembly is counted as loaded if it is not in a read environment and can be loaded.
-/
theorem ensureAssembly_tallied (hC : C.HexLawful) (s : Session cfg) (aid : Bytes) :
    Tallied s.cache (s.ensureAssembly C H aid).1.cache (readTally []
      ((if s.cache.readenvs.any (Session.matchAid aid) then [] else [aid]).countP
        fun aid => (loads C s aid).isSome)) := by
  unfold Session.ensureAssembly
  cases hfind : s.cache.readenvs.findIdx? (Session.matchAid aid) with
  | none =>
    have htry := tryRestoreAssembly_tallied (H := H) hC s aid
    rw [← List.findIdx?_isSome, hfind, Option.isSome_none, if_neg Bool.false_ne_true,
      List.countP_singleton]
    dsimp only
    split
    · exact htry
    · exact htry.withReadenvs _
  | some i =>
    obtain ⟨hi, -, -⟩ := List.findIdx?_eq_some_iff_getElem.mp hfind
    have hget : s.cache.readenvs[i]? = some s.cache.readenvs[i] := List.getElem?_eq_getElem hi
    rw [← List.findIdx?_isSome, hfind, Option.isSome_some, if_pos rfl]
    cases i with
    | zero => exact Tallied.refl s.cache
    | succ i =>
      simp only [hget]
      exact (Tallied.refl s.cache).withReadenvs _

/-- **Read requests**: every result entry is counted, with its bytes. -/
theorem runReadRequests_tallied (hC : C.HexLawful) (s : Session cfg)
    (results : List ReadQueueResult) (rreqs : List ReadQueueEntity) :
    ∃ s' rs, Session.runReadRequests C H s results rreqs = .ok (s', results ++ rs) ∧
      Tallied s.cache s'.cache (readTally rs (recalledBy C s (rreqs.map (·.aid)))) := by
  induction rreqs generalizing s results with
  | nil => exact ⟨s, [], by rw [List.append_nil]; rfl, Tallied.refl s.cache⟩
  | cons rreq rest ih =>
    have htally := ensureAssembly_tallied (H := H) hC s rreq.aid
    rw [recalledBy, List.map_cons, attempts, List.countP_append]
    cases hx : accessed s.cache.nReadenvs (loads C s) s.cache.readenvs rreq.aid with
    | none =>
      refine ⟨_, [], ?_, htally⟩
      rw [List.append_nil]
      exact runReadRequests_of_none hC hx results rest
    | some x =>
      obtain ⟨e, envs⟩ := x
      obtain ⟨s₁, b, hround, hro, -, henvs, hcache⟩ :=
        runReadRequests_of_some (H := H) hC hx results rest
      -- the entry and its bytes
      have hone : Tallied (s.ensureAssembly C H rreq.aid).1.cache s₁.cache
          (readTally [⟨rreq, b⟩] 0) := by
        have hbytes : returnedBytes [⟨rreq, b⟩] = b.elim 0 (·.len) := by simp [returnedBytes]
        rw [hcache]
        refine ⟨Counts.refl _ _, Counts.inc _ _ _, Counts.refl _ _, Counts.refl _ _,
          Counts.refl _ _, ?_, Counts.refl _ _, rfl⟩
        change Counts _ _ (returnedBytes [⟨rreq, b⟩]) _
        rw [hbytes]
        exact Counts.inc _ _ _
      obtain ⟨s', rs, hrun, htally'⟩ := ih s₁ (results ++ [⟨rreq, b⟩])
      refine ⟨s', ⟨rreq, b⟩ :: rs, ?_, ?_⟩
      · rw [hround, hrun, List.append_assoc]
        rfl
      · have hall := (htally.trans hone).trans htally'
        rw [readTally_add, readTally_add, recalledBy, attempts_readOnly hC hro henvs,
          hro.loads_eq hC] at hall
        exact hall

/-! ## Writing -/

/-- A block adds its size. -/
theorem storedBytes_add (s : CoqFBlockStore) (k : Bytes) (v : BlockInformation) :
    storedBytes (CoqFBlockStore.add s k v) = storedBytes s + v.blocksize := by
  unfold CoqFBlockStore.add CoqStore.add storedBytes
  cases hfind : CoqStore.find s k with
  | none =>
    have hmem : k ∉ s := AList.lookup_eq_none.mp hfind
    dsimp only
    rw [AList.entries_insert_of_notMem hmem]
    simp only [List.map_cons, List.map_nil, List.sum_cons, List.sum_nil]
    omega
  | some l =>
    have hmem : k ∈ s.entries.keys :=
      AList.mem_keys.mp (AList.lookup_isSome.mp (by rw [← CoqStore.find, hfind]; rfl))
    obtain ⟨l', es, es', -, hentries, herase⟩ := List.exists_of_kerase hmem
    obtain rfl : l = l' := by
      have hin : (⟨k, l'⟩ : Sigma fun _ : Bytes => List BlockInformation) ∈ s.entries := by
        rw [hentries]
        simp
      exact Option.some.inj (hfind.symm.trans ((List.mem_dlookup_iff s.nodupKeys).mpr hin))
    dsimp only
    rw [AList.entries_insert, herase, hentries]
    simp only [List.map_cons, List.map_append, List.sum_cons, List.sum_append, List.map_nil,
      List.sum_nil]
    omega

/-- The record of a block has the number of its bytes. -/
theorem blocksize_record (x : Entry) : (x.record C).blocksize = x.data.length := by
  unfold Entry.record
  split
  · next h =>
    rw [h]
    rfl
  · rfl

/-- A run of the write path adds the sizes of the blocks that it records. -/
theorem WriteTrace.storedBytes_eq {s s' : WriteSide cfg} {es : List Entry}
    (h : WriteTrace C H s es s') :
    storedBytes s'.blocks = storedBytes s.blocks + (es.map fun x => x.data.length).sum := by
  have hadd : ∀ (blocks : CoqFBlockStore) (x : Entry),
      storedBytes (CoqFBlockStore.add blocks x.fname (x.record C)) =
        storedBytes blocks + ([x].map fun x => x.data.length).sum := by
    intro blocks x
    rw [storedBytes_add, blocksize_record]
    simp
  refine Trace.invariant_start (I := fun s' L =>
    storedBytes s'.blocks = storedBytes s.blocks + (L.map fun x => x.data.length).sum)
    (fun {s₁ L es₁ s₂} hI hstep => ?_) h (by simp)
  rw [List.map_append, List.sum_append, ← Nat.add_assoc, ← hI]
  cases hstep with
  | append a a' nFailed w keys blocks fname fpos d =>
    exact hadd blocks ⟨fname, fpos, d, a.aid, a.apos⟩
  | blank a nFailed w keys blocks fname fpos => exact hadd blocks ⟨fname, fpos, [], [], 0⟩
  | create => rfl
  | finalise => rfl
  | recreate => rfl
  | quiet => rfl

/-- What writing makes happen, besides the drain itself. -/
def writeTally (C : Crypto) (cfg : CoqConfiguration) (isOpen : Bool)
    (wreqs : List WriteQueueEntity) : Tally :=
  { (0 : Tally) with
    handed := (wreqs.map bufferBytes).sum
    lost := (wreqs.map (unrecorded C cfg isOpen)).sum }

/-- Requests are tallied one by one. -/
theorem writeTally_cons (isOpen : Bool) (wreq : WriteQueueEntity) (wreqs : List WriteQueueEntity) :
    writeTally C cfg isOpen [wreq] + writeTally C cfg isOpen wreqs =
      writeTally C cfg isOpen (wreq :: wreqs) := rfl

/-- What is recorded of a request and what is not are its buffer. -/
theorem recorded_add_unrecorded {isOpen : Bool} {wreq : WriteQueueEntity} {es : List Entry}
    (h : es.map Entry.wanted = if isOpen then (requestWanted C cfg wreq).toList else []) :
    (es.map fun x => x.data.length).sum + unrecorded C cfg isOpen wreq = bufferBytes wreq := by
  have hsum : (es.map fun x => x.data.length).sum =
      ((es.map Entry.wanted).map fun x => x.data.length).sum := by
    rw [List.map_map]
    rfl
  rw [hsum, h]
  unfold unrecorded
  cases isOpen with
  | false => simp
  | true =>
    cases hwanted : requestWanted C cfg wreq with
    | none => simp
    | some x =>
      unfold requestWanted at hwanted
      obtain ⟨b, hb, hx⟩ := Option.bind_eq_some_iff.mp hwanted
      split at hx
      · cases hx
        simp [bufferBytes, hb, CoqBuffer.len]
      · cases hx

/-- **One write request**: the length of its buffer is counted, whether or not it is recorded. -/
theorem runWriteRequest_tallied {s : Session cfg} (hfit : (writeSide s).Fitting)
    (wreq : WriteQueueEntity) :
    ∃ s', s.runWriteRequest C H wreq = .ok s' ∧ (writeSide s').Fitting ∧
      (writeSide s').isOpen = (writeSide s).isOpen ∧
      Tallied s.cache s'.cache (writeTally C cfg (writeSide s).isOpen [wreq]) := by
  obtain ⟨s', es, hrun, hwrites, -, -, hopen, hwanted⟩ := runWriteRequest_trace (C := C) (H := H)
    hfit wreq
  refine ⟨s', hrun, hwrites.trace.fitting hfit, hopen, ?_⟩
  have hstored : storedBytes s'.cache.fblockstore = storedBytes s.cache.fblockstore +
      (es.map fun x => x.data.length).sum := hwrites.trace.storedBytes_eq
  have hsplit := recorded_add_unrecorded hwanted
  have hbytes : (writeTally C cfg (writeSide s).isOpen [wreq]).handed = bufferBytes wreq := by
    simp [writeTally]
  have hlost : (writeTally C cfg (writeSide s).isOpen [wreq]).lost =
      unrecorded C cfg (writeSide s).isOpen wreq := by simp [writeTally]
  have hlaw : storedBytes s'.cache.fblockstore +
      (writeTally C cfg (writeSide s).isOpen [wreq]).lost = storedBytes s.cache.fblockstore +
        (writeTally C cfg (writeSide s).isOpen [wreq]).handed := by
    rw [hbytes, hlost]
    omega
  unfold Session.runWriteRequest at hrun
  cases hbuf : wreq.buffer with
  | none =>
    have hempty : bufferBytes wreq = 0 := by
      rw [bufferBytes, hbuf]
      rfl
    rw [hbuf] at hrun
    cases hrun
    refine ⟨Counts.refl _ _, Counts.refl _ _, Counts.refl _ _, Counts.refl _ _, ?_,
      Counts.refl _ _, Counts.refl _ _, hlaw⟩
    rw [hbytes, hempty]
    exact Counts.refl _ _
  | some b =>
    have hlen : bufferBytes wreq = b.len := by
      rw [bufferBytes, hbuf]
      rfl
    rw [hbuf] at hrun
    dsimp only at hrun
    split at hrun
    · cases hrun
    · cases hrun
      refine ⟨Counts.refl _ _, Counts.refl _ _, Counts.refl _ _, Counts.refl _ _, ?_,
        Counts.refl _ _, Counts.refl _ _, hlaw⟩
      rw [hbytes, hlen]
      exact Counts.inc _ _ _

/-- **Write requests**, one after the other. -/
theorem runWriteRequests_tallied {s : Session cfg} (hfit : (writeSide s).Fitting)
    (wreqs : List WriteQueueEntity) :
    ∃ s', s.runWriteRequests C H wreqs = .ok s' ∧ (writeSide s').Fitting ∧
      Tallied s.cache s'.cache (writeTally C cfg (writeSide s).isOpen wreqs) := by
  induction wreqs generalizing s with
  | nil => exact ⟨s, rfl, hfit, Tallied.refl s.cache⟩
  | cons wreq wreqs ih =>
    obtain ⟨s₁, hrun₁, hfit₁, hopen, htally₁⟩ :=
      runWriteRequest_tallied (C := C) (H := H) hfit wreq
    obtain ⟨s₂, hrun₂, hfit₂, htally₂⟩ := ih hfit₁
    refine ⟨s₂, ?_, hfit₂, ?_⟩
    · rw [Session.runWriteRequests, hrun₁]
      exact hrun₂
    · rw [hopen] at htally₂
      rw [← writeTally_cons]
      exact htally₁.trans htally₂

/-! ## Operations -/

/-- A drain of the read queue. -/
theorem iterateReadQueue_tallied (hC : C.HexLawful) {s s' : Session cfg}
    {rs : List ReadQueueResult} (h : s.iterateReadQueue C H = .ok (s', rs)) :
    Tallied s.cache s'.cache (happened C s .iterateRead (.results rs)) := by
  unfold Session.iterateReadQueue at h
  by_cases hnil : s.cache.readqueue = []
  · rw [if_pos hnil] at h
    cases h
    have hnone : happened C s .iterateRead (.results []) = 0 := by
      unfold happened
      rw [if_pos hnil, hnil]
      rfl
    rw [hnone]
    exact Tallied.refl s.cache
  · rw [if_neg hnil] at h
    dsimp only at h
    set s₁ : Session cfg := ⟨{ s.cache with
      nIterateReads := (s.cache.nIterateReads + 1) % 4294967296
      readqueue := [] }, s.world⟩ with hs₁
    obtain ⟨s₂, rs₂, hrun, htally⟩ :=
      runReadRequests_tallied (H := H) hC s₁ [] s.cache.readqueue
    have hdrain : Tallied s.cache s₁.cache { (0 : Tally) with readDrains := 1 } :=
      ⟨Counts.refl _ _, Counts.refl _ _, Counts.refl _ _,
        Counts.inc 4294967296 s.cache.nIterateReads 1, Counts.refl _ _, Counts.refl _ _,
        Counts.refl _ _, rfl⟩
    rw [hrun, List.nil_append] at h
    cases h
    have hsum : happened C s .iterateRead (.results rs) =
        { (0 : Tally) with readDrains := 1 } +
          readTally rs (recalledBy C s₁ (s.cache.readqueue.map (·.aid))) := by
      unfold happened
      rw [if_neg hnil]
      apply Tally.ext
      case results => exact (Nat.zero_add _).symm
      case returned => exact (Nat.zero_add _).symm
      case recalled => exact (Nat.zero_add _).symm
      all_goals rfl
    rw [hsum]
    exact hdrain.trans htally

/-- A drain of the write queue. -/
theorem iterateWriteQueue_tallied {s s' : Session cfg} (hfit : (writeSide s).Fitting)
    (h : s.iterateWriteQueue C H = .ok s') :
    Tallied s.cache s'.cache (happened C s .iterateWrite .done) := by
  unfold Session.iterateWriteQueue at h
  by_cases hnil : s.cache.writequeue = []
  · rw [if_pos hnil] at h
    cases h
    have hnone : happened C s .iterateWrite .done = 0 := by
      unfold happened
      rw [if_pos hnil, hnil]
      rfl
    rw [hnone]
    exact Tallied.refl s.cache
  · rw [if_neg hnil] at h
    dsimp only at h
    set s₁ : Session cfg := ⟨{ s.cache with
      nIterateWrites := (s.cache.nIterateWrites + 1) % 4294967296
      writequeue := [] }, s.world⟩ with hs₁
    have hfit₁ : (writeSide s₁).Fitting := hfit
    obtain ⟨s₂, hrun, -, htally⟩ :=
      runWriteRequests_tallied (C := C) (H := H) hfit₁ s.cache.writequeue
    have hdrain : Tallied s.cache s₁.cache { (0 : Tally) with writeDrains := 1 } :=
      ⟨Counts.refl _ _, Counts.refl _ _, Counts.inc 4294967296 s.cache.nIterateWrites 1,
        Counts.refl _ _, Counts.refl _ _, Counts.refl _ _, Counts.refl _ _, rfl⟩
    rw [hrun] at h
    cases h
    have hsum : happened C s .iterateWrite .done = { (0 : Tally) with writeDrains := 1 } +
        writeTally C cfg (writeSide s).isOpen s.cache.writequeue := by
      unfold happened
      rw [if_neg hnil]
      apply Tally.ext
      case handed => exact (Nat.zero_add _).symm
      case lost => exact (Nat.zero_add _).symm
      all_goals rfl
    rw [hsum]
    exact hdrain.trans htally

/-- **One operation** makes the counters change by what it makes happen. -/
theorem step_tallied (hC : C.HexLawful) {s s' : Session cfg} (hfit : (writeSide s).Fitting)
    {op : Op} {answer : Answer} (h : s.step C H op = .ok (s', answer)) :
    Tallied s.cache s'.cache (happened C s op answer) := by
  cases op with
  | enqueueRead rqe =>
    simp only [Session.step, Session.enqueueReadRequest] at h
    by_cases hfull : s.cache.nQueuesz ≤ s.cache.readqueue.length
    · rw [if_pos hfull] at h
      cases h
      exact Tallied.refl s.cache
    · rw [if_neg hfull] at h
      cases h
      exact ⟨Counts.refl _ _, Counts.refl _ _, Counts.refl _ _,
        Counts.inc 4294967296 s.cache.nIterateReads 1, Counts.refl _ _, Counts.refl _ _,
        Counts.refl _ _, rfl⟩
  | enqueueWrite wqe =>
    simp only [Session.step, Session.enqueueWriteRequest] at h
    by_cases hfull : s.cache.nQueuesz ≤ s.cache.writequeue.length
    · rw [if_pos hfull] at h
      cases h
      exact Tallied.refl s.cache
    · rw [if_neg hfull] at h
      cases h
      exact ⟨Counts.inc 4294967296 s.cache.nWriteRequests 1, Counts.refl _ _, Counts.refl _ _,
        Counts.refl _ _, Counts.refl _ _, Counts.refl _ _, Counts.refl _ _, rfl⟩
  | iterateRead =>
    obtain ⟨rs, rfl, hiter⟩ := step_iterateRead.mp h
    exact iterateReadQueue_tallied hC hiter
  | iterateWrite =>
    obtain ⟨rfl, hiter⟩ := step_iterateWrite.mp h
    exact iterateWriteQueue_tallied hfit hiter
  | flush =>
    obtain ⟨rfl, hflush⟩ := step_flush.mp h
    unfold Session.flush at hflush
    cases henv : s.cache.writeenv with
    | none =>
      rw [henv] at hflush
      cases hflush
    | some e =>
      rw [henv] at hflush
      cases hflush
      exact (Tallied.refl s.cache).withWriteenv _ _ _
  | close =>
    simp only [Session.step, Session.close] at h
    cases henv : s.cache.writeenv with
    | none =>
      rw [henv] at h
      cases h
      exact Tallied.refl s.cache
    | some e =>
      rw [henv] at h
      cases h
      exact (Tallied.refl s.cache).withWriteenv _ _ _

/-- **A run** makes the counters change by what happens in it. -/
theorem run_tallied (hC : C.HexLawful) {s : Session cfg} (hfit : (writeSide s).Fitting)
    {ops : List Op} (hflush : Meets C H FlushesLate s ops) :
    ∃ s' answers, s.run C H ops = .ok (s', answers) ∧
      Tallied s.cache s'.cache (tally C H s ops) := by
  induction ops generalizing s with
  | nil => exact ⟨s, [], rfl, Tallied.refl s.cache⟩
  | cons op ops ih =>
    obtain ⟨hlate, hrest⟩ := hflush
    obtain ⟨s₁, answer, es, hstep, htrace, -⟩ := step_returns (H := H) hC hfit hlate
    obtain ⟨s', answers, hrun, htally⟩ := ih (htrace.fitting hfit) (hrest s₁ answer hstep)
    refine ⟨s', (op, answer) :: answers, run_cons hstep hrun, ?_⟩
    rw [tally, hstep]
    exact (step_tallied hC hfit hstep).trans htally

/-! ## Where the metrics go wrong -/

/-- A block of the buffer of a request is recorded, or there is nothing to record. -/
def RecordedWhole (cfg : CoqConfiguration) (isOpen : Bool) (wreq : WriteQueueEntity) : Prop :=
  bufferBytes wreq = 0 ∨
    isOpen = true ∧ headerLen cfg.nchunks + bufferBytes wreq ≤ dataEnd cfg.nchunks

/-- No read request is accepted, and the buffers that are to be written are recorded. -/
def CountedOnce (s : Session cfg) : Op → Prop
  | .enqueueRead _ => s.cache.nQueuesz ≤ s.cache.readqueue.length
  | .iterateWrite => ∀ wreq ∈ s.cache.writequeue, RecordedWhole cfg (writeSide s).isOpen wreq
  | _ => True

/-- No byte of a request is lost exactly when its buffer is recorded whole. -/
theorem unrecorded_eq_zero_iff (isOpen : Bool) (wreq : WriteQueueEntity) :
    unrecorded C cfg isOpen wreq = 0 ↔ RecordedWhole cfg isOpen wreq := by
  unfold unrecorded RecordedWhole requestWanted bufferBytes
  cases wreq.buffer with
  | none => simp
  | some b =>
    rw [Option.bind_some, Option.elim_some]
    by_cases hroom : headerLen cfg.nchunks + b.len ≤ dataEnd cfg.nchunks
    · rw [if_pos hroom]
      cases isOpen <;> simp [hroom]
    · rw [if_neg hroom]
      simp [hroom]

/-- The two slips of one operation. -/
theorem happened_slips_iff {s s' : Session cfg} {op : Op} {answer : Answer}
    (h : s.step C H op = .ok (s', answer)) :
    (happened C s op answer).readRequests = 0 ∧ (happened C s op answer).lost = 0 ↔
      CountedOnce s op := by
  cases op with
  | enqueueRead rqe =>
    simp only [Session.step, Session.enqueueReadRequest] at h
    unfold CountedOnce
    by_cases hfull : s.cache.nQueuesz ≤ s.cache.readqueue.length
    · rw [if_pos hfull] at h
      cases h
      exact ⟨fun _ => hfull, fun _ => ⟨rfl, rfl⟩⟩
    · rw [if_neg hfull] at h
      cases h
      exact ⟨fun hslips => absurd hslips.1 Nat.one_ne_zero, fun h => absurd h hfull⟩
  | enqueueWrite wqe =>
    simp only [Session.step] at h
    cases h
    cases (s.enqueueWriteRequest wqe).2 <;> exact ⟨fun _ => trivial, fun _ => ⟨rfl, rfl⟩⟩
  | iterateRead =>
    obtain ⟨rs, rfl, -⟩ := step_iterateRead.mp h
    exact ⟨fun _ => trivial, fun _ => ⟨rfl, rfl⟩⟩
  | iterateWrite =>
    have hlost : ((s.cache.writequeue.map (unrecorded C cfg (writeSide s).isOpen)).sum = 0) ↔
        CountedOnce s .iterateWrite := by
      rw [List.sum_eq_zero_iff_forall_eq_nat, CountedOnce, List.forall_mem_map]
      exact forall₂_congr fun wreq _ => unrecorded_eq_zero_iff _ wreq
    rw [← hlost]
    exact ⟨fun hslips => hslips.2, fun h => ⟨rfl, h⟩⟩
  | flush => exact ⟨fun _ => trivial, fun _ => ⟨rfl, rfl⟩⟩
  | close => exact ⟨fun _ => trivial, fun _ => ⟨rfl, rfl⟩⟩

/-- The two slips of a run. -/
theorem tally_slips_iff (hC : C.HexLawful) {s : Session cfg} (hfit : (writeSide s).Fitting)
    {ops : List Op} (hflush : Meets C H FlushesLate s ops) :
    (tally C H s ops).readRequests = 0 ∧ (tally C H s ops).lost = 0 ↔
      Meets C H CountedOnce s ops := by
  induction ops generalizing s with
  | nil => exact ⟨fun _ => trivial, fun _ => ⟨rfl, rfl⟩⟩
  | cons op ops ih =>
    obtain ⟨hlate, hrest⟩ := hflush
    obtain ⟨s₁, answer, es, hstep, htrace, -⟩ := step_returns (H := H) hC hfit hlate
    have hhere := happened_slips_iff hstep
    have hlater := ih (htrace.fitting hfit) (hrest s₁ answer hstep)
    rw [tally, hstep, meets_cons_iff hstep, ← hhere, ← hlater]
    change (happened C s op answer).readRequests + (tally C H s₁ ops).readRequests = 0 ∧
      (happened C s op answer).lost + (tally C H s₁ ops).lost = 0 ↔ _
    rw [Nat.add_eq_zero_iff, Nat.add_eq_zero_iff, and_and_and_comm]

/-! ## The metrics -/

/-- The counters can hold what happens. -/
structure Tally.Holdable (t : Tally) : Prop where
  writeRequests : t.writeRequests < 4294967296
  results : t.results < 4294967296
  writeDrains : t.writeDrains < 4294967296
  iterateReads : t.readDrains + t.readRequests < 4294967296
  recalled : t.recalled < 4294967296
  handed : t.handed < 18446744073709551616
  returned : t.returned < 18446744073709551616

/-- A value of the metrics is a number. -/
def Reports (s : Session cfg) (name : String) (n : ℕ) : Prop :=
  s.metrics.lookup (ascii name) = some (.count n)

/-- A value of the metrics is reported once. -/
theorem reports_inj {s : Session cfg} {name : String} {n n' : ℕ} (h : Reports s name n) :
    Reports s name n' ↔ n = n' := by
  unfold Reports at h ⊢
  rw [h]
  simp

/-- The metrics are what has happened, with the given numbers for the two that go wrong. -/
structure MetricsReport (s : Session cfg) (t : Tally) (iterateReads backupBytes : ℕ) : Prop where
  nWriteRequests : Reports s "n_write_requests" t.writeRequests
  nReadRequests : Reports s "n_read_requests" t.results
  nIterateWrites : Reports s "n_iterate_writes" t.writeDrains
  nIterateReads : Reports s "n_iterate_reads" iterateReads
  backupBytes : Reports s "backup_bytes" backupBytes
  restoredBytes : Reports s "restored_bytes" t.returned
  nAssemblyRecalled : Reports s "n_assembly_recalled" t.recalled

/-- The metrics account for what has happened. -/
def MetricsAccount (s : Session cfg) (t : Tally) : Prop :=
  MetricsReport s t t.readDrains (storedBytes s.cache.fblockstore)

/-- A counter that starts at 0 and does not wrap around. -/
theorem Counts.of_lt {m k n' : ℕ} (h : Counts m 0 k n') (hk : k < m) : n' = k := by
  rw [h (Nat.lt_of_le_of_lt (Nat.zero_le k) hk), Nat.zero_add, Nat.mod_eq_of_lt hk]

/-- **The metrics of a run**, with both slips. -/
theorem Tallied.reports {c : CoqAssemblyCache cfg} {s : Session cfg} {t : Tally}
    (h : Tallied c s.cache t) (ht : t.Holdable)
    (hfresh : ∃ nEnvs depth, c = CoqAssemblyCache.init cfg nEnvs depth ∅ ∅ ∅) :
    MetricsReport s t (t.readDrains + t.readRequests) (storedBytes s.cache.fblockstore + t.lost) := by
  obtain ⟨nEnvs, depth, rfl⟩ := hfresh
  have hcount : ∀ {name : String} {n n' : ℕ}, s.metrics.lookup (ascii name) = some (.count n') →
      n' = n → Reports s name n := fun hlookup heq => heq ▸ hlookup
  have hstored : storedBytes s.cache.fblockstore + t.lost = 0 + t.handed := h.stored
  rw [hstored, Nat.zero_add]
  exact ⟨hcount rfl (h.nWriteRequests.of_lt ht.writeRequests),
    hcount rfl (h.nReadRequests.of_lt ht.results),
    hcount rfl (h.nIterateWrites.of_lt ht.writeDrains),
    hcount rfl (h.nIterateReads.of_lt ht.iterateReads),
    hcount rfl (h.backupBytes.of_lt ht.handed),
    hcount rfl (h.restoredBytes.of_lt ht.returned),
    hcount rfl (h.nAssemblyRecalled.of_lt ht.recalled)⟩

/-- **The metrics account for a run** if and only if it accepts no read request, and every buffer
that is to be written is empty or gets its block.  Otherwise the read requests are counted as
drains, and the buffers without a block as backed up; the other metrics are right in any run. -/
theorem metrics_account_iff (hC : C.HexLawful) (H : Host) (cfg : CoqConfiguration)
    (nEnvs depth : ℕ) (w : World) {ops : List Op}
    (hflush : Meets C H FlushesLate (Session.init cfg nEnvs depth ∅ ∅ ∅ w) ops)
    (hholds : (tally C H (Session.init cfg nEnvs depth ∅ ∅ ∅ w) ops).Holdable) :
    let s₀ := Session.init cfg nEnvs depth ∅ ∅ ∅ w
    let t := tally C H s₀ ops
    ∃ s' answers, s₀.run C H ops = .ok (s', answers) ∧
      MetricsReport s' t (t.readDrains + t.readRequests)
        (storedBytes s'.cache.fblockstore + t.lost) ∧
      (MetricsAccount s' t ↔ Meets C H CountedOnce s₀ ops) := by
  intro s₀ t
  have hfit : (writeSide s₀).Fitting := fun a ha => by cases ha
  obtain ⟨s', answers, hrun, htally⟩ := run_tallied hC hfit hflush
  have hreport := htally.reports hholds ⟨nEnvs, depth, rfl⟩
  refine ⟨s', answers, hrun, hreport, ?_⟩
  rw [← tally_slips_iff hC hfit hflush]
  constructor
  · intro h
    have hreadRequests := (reports_inj hreport.nIterateReads).mp h.nIterateReads
    have hlost := (reports_inj hreport.backupBytes).mp h.backupBytes
    exact ⟨Nat.add_eq_left.mp hreadRequests, Nat.add_eq_left.mp hlost⟩
  · rintro ⟨hreadRequests, hlost⟩
    rw [hreadRequests, hlost] at hreport
    exact hreport

/-- A write and its drain are counted. -/
theorem metrics_account_iff_simple :
    let H := numberedHost fun _ _ => allWorks
    let wqe : WriteQueueEntity := ⟨Vector.replicate 32 0, 0, some (CoqBuffer.ofBytes [1])⟩
    let s₀ := Session.init config16 1 1 ∅ ∅ ∅ emptyWorld
    let ops := [Op.enqueueWrite wqe, .iterateWrite, .close]
    ∃ s' answers, s₀.run simple H ops = .ok (s', answers) ∧
      MetricsAccount s' (tally simple H s₀ ops) := by
  intro H wqe s₀ ops
  have hflush := meets_flushesLate_of_not_mem (C := simple) (H := H) s₀ ops (by simp [ops])
  obtain ⟨s₁, hstep₁, hqueue, henv⟩ : ∃ s₁,
      s₀.step simple H (.enqueueWrite wqe) = .ok (s₁, .accepted true) ∧
        s₁.cache.writequeue = [wqe] ∧ s₁.cache.writeenv = none := ⟨_, rfl, rfl, rfl⟩
  have hfit₁ : (writeSide s₁).Fitting := by
    intro a ha
    rw [WriteSide.current, writeSide, henv] at ha
    cases ha
  have hlate : FlushesLate s₁ .iterateWrite := by
    intro h
    cases h
  obtain ⟨s₂, answer, es, hstep₂, -, -⟩ := step_returns (H := H) simple_lawful.hex hfit₁ hlate
  have htally : tally simple H s₀ ops =
      happened simple s₀ (.enqueueWrite wqe) (.accepted true) +
        (happened simple s₁ .iterateWrite answer + 0) := by
    rw [tally, hstep₁]
    dsimp only
    rw [tally, hstep₂]
    rfl
  have hhanded : (happened simple s₁ .iterateWrite answer).handed = 1 := by
    change (s₁.cache.writequeue.map bufferBytes).sum = 1
    rw [hqueue]
    rfl
  have hdrains : (happened simple s₁ .iterateWrite answer).writeDrains = 1 := by
    change (if s₁.cache.writequeue = [] then 0 else 1) = 1
    rw [hqueue]
    rfl
  have hholds : (tally simple H s₀ ops).Holdable := by
    rw [htally]
    constructor
    case writeRequests => exact (by decide : 1 < 4294967296)
    case writeDrains =>
      change 0 + ((happened simple s₁ .iterateWrite answer).writeDrains + 0) < 4294967296
      rw [hdrains]
      decide
    case handed =>
      change 0 + ((happened simple s₁ .iterateWrite answer).handed + 0) < 18446744073709551616
      rw [hhanded]
      decide
    all_goals exact Nat.succ_pos _
  have hmeets : Meets simple H CountedOnce s₀ ops := by
    refine ⟨trivial, fun s answer hstep => ⟨?_, fun _ _ _ => ⟨trivial, fun _ _ _ => trivial⟩⟩⟩
    cases hstep
    intro wreq hwreq
    obtain rfl := List.mem_singleton.mp hwreq
    exact Or.inr ⟨rfl, by decide⟩
  obtain ⟨s', answers, hrun, -, hiff⟩ := metrics_account_iff simple_lawful.hex H config16 1 1
    emptyWorld hflush hholds
  exact ⟨s', answers, hrun, hiff.mpr hmeets⟩

/-- A read request that is accepted is counted as a drain. -/
theorem metrics_account_counterexample :
    let H := numberedHost fun _ _ => allWorks
    let s₀ := Session.init config16 1 1 ∅ ∅ ∅ emptyWorld
    ∃ s' answers, s₀.run simple H [.enqueueRead requestA] = .ok (s', answers) ∧
      (tally simple H s₀ [.enqueueRead requestA]).readDrains = 0 ∧
      Reports s' "n_iterate_reads" 1 ∧
      ¬ MetricsAccount s' (tally simple H s₀ [.enqueueRead requestA]) := by
  intro H s₀
  have hone : Reports (s₀.enqueueReadRequest requestA).1 "n_iterate_reads" 1 := rfl
  refine ⟨_, _, rfl, rfl, hone, fun h => ?_⟩
  exact absurd ((reports_inj hone).mp h.nIterateReads) Nat.one_ne_zero

end Elykseer.Analysis
