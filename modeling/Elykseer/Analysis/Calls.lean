import Elykseer.Analysis.CacheRuns
import Elykseer.Analysis.ReferenceCrypto

/-!
# Any sequence of calls

Reading never faults and changes no file (`iterateReadQueue_readOnly`), so that any
operation returns unless it is a `flush` without a write environment (`step_returns`).
There is a write environment from the first drain of a non-empty write queue on.
Hence a sequence of calls returns if and only if a request has been enqueued and drained
before every `flush`: `calls_return_iff`.
-/

set_option autoImplicit false

namespace Elykseer.Analysis

open Elykseer.Model Elykseer.Foundation

variable {C : Crypto} {H : Host} {cfg : CoqConfiguration}

/-! ## Reading -/

/-- Ensuring an assembly writes nothing. -/
theorem ensureAssembly_readOnly (hC : C.HexLawful) (s : Session cfg) (aid : Bytes) :
    ReadOnly s (s.ensureAssembly C H aid).1 := by
  unfold Session.ensureAssembly
  split
  · exact ReadOnly.refl s
  · split
    · exact ReadOnly.refl s
    · exact (ReadOnly.refl s).withReading _ _ _ _ _
  · obtain ⟨-, hro, -, -⟩ := tryRestoreAssembly_eq hC H s aid
    dsimp only
    split
    · exact hro
    · exact hro.withReading _ _ _ _ _

/-- Read requests never fault. -/
theorem runReadRequests_readOnly (hC : C.HexLawful) (s : Session cfg)
    (results : List ReadQueueResult) (rreqs : List ReadQueueEntity) :
    ∃ s' results', Session.runReadRequests C H s results rreqs = .ok (s', results') ∧
      ReadOnly s s' := by
  induction rreqs generalizing s results with
  | nil => exact ⟨s, results, rfl, ReadOnly.refl s⟩
  | cons rreq rest ih =>
    have hro := ensureAssembly_readOnly (H := H) hC s rreq.aid
    rw [Session.runReadRequests]
    dsimp only
    cases (s.ensureAssembly C H rreq.aid).2.bind (·.assembly) with
    | none => exact ⟨_, _, rfl, hro⟩
    | some a =>
      dsimp only
      rw [restore_eq]
      obtain ⟨s', results', hrun, hro'⟩ := ih _ _
      exact ⟨s', results', hrun, (hro.withReading _ _ _ _ _).trans hro'⟩

/-- Draining the read queue writes nothing and never faults. -/
theorem iterateReadQueue_readOnly (hC : C.HexLawful) (s : Session cfg) :
    ∃ s' results, s.iterateReadQueue C H = .ok (s', results) ∧ ReadOnly s s' := by
  unfold Session.iterateReadQueue
  split
  · exact ⟨s, [], rfl, ReadOnly.refl s⟩
  · obtain ⟨s', results, hrun, hro⟩ := runReadRequests_readOnly (H := H) hC
      (⟨{ s.cache with
        nIterateReads := (s.cache.nIterateReads + 1) % 4294967296
        readqueue := [] }, s.world⟩ : Session cfg) [] s.cache.readqueue
    exact ⟨s', results, hrun, ((ReadOnly.refl s).withReading _ _ _ _ _).trans hro⟩

/-! ## One operation -/

/-- The write queue and the write environment after an operation: `enqueue_write_request` adds a
request if there is room, a drain empties the queue and leaves an environment if there was a
request. -/
structure OpEffect (s : Session cfg) (op : Op) (s' : Session cfg) : Prop where
  nQueuesz : s'.cache.nQueuesz = s.cache.nQueuesz
  writequeue : s'.cache.writequeue ≠ [] ↔
    op ≠ .iterateWrite ∧ (s.cache.writequeue ≠ [] ∨
      (writeRequest op).isSome = true ∧ 1 ≤ s.cache.nQueuesz)
  writeenv : s'.cache.writeenv.isSome = true ↔ s.cache.writeenv.isSome = true ∨
    op = .iterateWrite ∧ s.cache.writequeue ≠ []

/-- **Every operation returns**, but for a `flush` without a write environment. -/
theorem step_returns (hC : C.HexLawful) {s : Session cfg} (hfit : (writeSide s).Fitting) {op : Op}
    (hflush : FlushesLate s op) :
    ∃ s' answer es, s.step C H op = .ok (s', answer) ∧
      WriteTrace C H (writeSide s) es (writeSide s') ∧ OpEffect s op s' := by
  cases op with
  | enqueueRead rqe =>
    refine ⟨_, _, [], rfl, ?_, ?_⟩
    · unfold Session.enqueueReadRequest
      split <;> exact Trace.refl _
    · unfold Session.enqueueReadRequest
      split <;> exact ⟨rfl, by simp [writeRequest], by simp⟩
  | enqueueWrite wqe =>
    refine ⟨_, _, [], rfl, ?_, ?_⟩
    · unfold Session.enqueueWriteRequest
      split <;> exact Trace.refl _
    · unfold Session.enqueueWriteRequest
      split
      · next hfull =>
        refine ⟨rfl, ?_, by simp⟩
        constructor
        · exact fun h => ⟨by simp, Or.inl h⟩
        · rintro ⟨-, h | ⟨-, hsz⟩⟩
          · exact h
          · exact List.ne_nil_of_length_pos (Nat.lt_of_lt_of_le hsz hfull)
      · next hroom =>
        exact ⟨rfl, by simp [writeRequest]; omega, by simp⟩
  | iterateRead =>
    obtain ⟨s', results, hiter, hro⟩ := iterateReadQueue_readOnly (H := H) hC s
    refine ⟨s', .results results, [], step_iterateRead.mpr ⟨_, rfl, hiter⟩, hro.trace, ?_⟩
    exact ⟨hro.nQueuesz, by simp [hro.writequeue, writeRequest], by simp [hro.writeenv]⟩
  | iterateWrite =>
    obtain ⟨s', es, hiter, hwrites, hq, henv, -⟩ := iterateWriteQueue_trace (C := C) (H := H) hfit
    refine ⟨s', .done, es, step_iterateWrite.mpr ⟨rfl, hiter⟩, hwrites.trace,
      hwrites.frame.nQueuesz, by simp [hq], fun hsome => ?_, fun h => henv (h.imp_right And.right)⟩
    by_cases hnil : s.cache.writequeue = []
    · rw [Session.iterateWriteQueue, if_pos hnil] at hiter
      cases hiter
      exact Or.inl hsome
    · exact Or.inr ⟨rfl, hnil⟩
  | flush =>
    obtain ⟨e, he⟩ := Option.isSome_iff_exists.mp (hflush rfl)
    obtain ⟨s', hrun, hwrites, hq, henv, -⟩ := flush_trace (C := C) (H := H) he
    exact ⟨s', .done, [], step_flush.mpr ⟨rfl, hrun⟩, hwrites.trace,
      hwrites.frame.nQueuesz, by simp [hq, writeRequest], by simp [henv, he]⟩
  | close =>
    obtain ⟨hwrites, hq, -, henv⟩ := close_trace (C := C) (H := H) s
    exact ⟨_, .done, [], rfl, hwrites.trace, hwrites.frame.nQueuesz, by simp [hq, writeRequest],
      by simp [henv]⟩

/-- A `flush` without a write environment dereferences a null pointer. -/
theorem step_flush_fault {s : Session cfg} (h : ¬ FlushesLate s .flush) :
    s.step C H .flush = .error .nullDereference := by
  have hnone : s.cache.writeenv = none := by
    simpa [FlushesLate] using h
  simp [Session.step, Session.flush, hnone, Except.map]

/-! ## Sequences of calls -/

/-- What a call does to the write queue and the write environment. -/
structure CallEffect (s : Session cfg) (c : Call) (s' : Session cfg) : Prop where
  nQueuesz : s'.cache.nQueuesz = s.cache.nQueuesz
  writequeue : s'.cache.writequeue ≠ [] ↔ c ≠ .op .iterateWrite ∧
    (s.cache.writequeue ≠ [] ∨ (∃ wqe, c = .op (.enqueueWrite wqe)) ∧ 1 ≤ s.cache.nQueuesz)
  writeenv : s'.cache.writeenv.isSome = true ↔ s.cache.writeenv.isSome = true ∨
    c = .op .iterateWrite ∧ s.cache.writequeue ≠ []

/-- The operations with a write request are those that enqueue one. -/
theorem writeRequest_isSome_iff (op : Op) :
    (writeRequest op).isSome = true ↔ ∃ wqe, op = .enqueueWrite wqe := by
  cases op <;> simp [writeRequest]

/-- Every call returns, but for a `flush` without a write environment. -/
theorem call_returns (hC : C.HexLawful) {s : Session cfg} (hfit : (writeSide s).Fitting) {c : Call}
    (hflush : c = .op .flush → s.cache.writeenv.isSome = true) :
    ∃ s' r es, s.call C H c = .ok (s', r) ∧ WriteTrace C H (writeSide s) es (writeSide s') ∧
      CallEffect s c s' := by
  cases c with
  | metrics => exact ⟨s, _, [], rfl, Trace.refl _, rfl, by simp, by simp⟩
  | op op =>
    obtain ⟨s', answer, es, hstep, htrace, heffect⟩ := step_returns (H := H) hC hfit
      fun hop => hflush (hop ▸ rfl)
    refine ⟨s', .answer answer, es, by rw [Session.call, hstep]; rfl, htrace,
      heffect.nQueuesz, ?_, ?_⟩
    · rw [heffect.writequeue, writeRequest_isSome_iff]
      simp only [ne_eq, Call.op.injEq]
    · rw [heffect.writeenv]
      simp only [ne_eq, Call.op.injEq]

/-- A write request, and later a drain. -/
def Drained (cs : List Call) : Prop :=
  ∃ wqe, [Call.op (.enqueueWrite wqe), Call.op .iterateWrite].Sublist cs

/-- A call in front matters if it enqueues a write request that is drained later. -/
theorem drained_cons_iff (c : Call) (cs : List Call) : Drained (c :: cs) ↔
    Drained cs ∨ (∃ wqe, c = .op (.enqueueWrite wqe)) ∧ Call.op .iterateWrite ∈ cs := by
  unfold Drained
  constructor
  · rintro ⟨wqe, h⟩
    rcases List.cons_sublist_cons'.mp h with hcs | ⟨heq, hcs⟩
    · exact Or.inl ⟨wqe, hcs⟩
    · exact Or.inr ⟨⟨wqe, heq.symm⟩, List.singleton_sublist.mp hcs⟩
  · rintro (⟨wqe, h⟩ | ⟨⟨wqe, rfl⟩, h⟩)
    · exact ⟨wqe, h.cons c⟩
    · exact ⟨wqe, (List.singleton_sublist.mpr h).cons_cons _⟩

/-- After the calls `cs` there is a write environment. -/
def Environed (s : Session cfg) (cs : List Call) : Prop :=
  s.cache.writeenv.isSome = true ∨
    s.cache.writequeue ≠ [] ∧ Call.op .iterateWrite ∈ cs ∨ 1 ≤ s.cache.nQueuesz ∧ Drained cs

/-- Without calls, the write environment has to be there. -/
theorem environed_nil_iff (s : Session cfg) : Environed s [] ↔ s.cache.writeenv.isSome = true := by
  simp [Environed, Drained]

/-- A call does what `Environed` expects of it. -/
theorem CallEffect.environed_iff {s s' : Session cfg} {c : Call} (h : CallEffect s c s')
    (cs : List Call) : Environed s' cs ↔ Environed s (c :: cs) := by
  unfold Environed
  rw [h.nQueuesz, h.writequeue, h.writeenv, drained_cons_iff, List.mem_cons]
  by_cases hiter : c = .op .iterateWrite
  · subst hiter
    simp
    tauto
  · have hne : Call.op .iterateWrite ≠ c := fun heq => hiter heq.symm
    simp only [hiter, hne, false_and, or_false, not_false_eq_true, ne_eq, true_and, false_or]
    tauto

/-- **A sequence of calls returns exactly if every `flush` finds a write environment**; otherwise
the null pointer is dereferenced. -/
theorem calls_cases (hC : C.HexLawful) {s : Session cfg} (hfit : (writeSide s).Fitting)
    (cs : List Call) :
    (∃ s' rs es, s.calls C H cs = .ok (s', rs) ∧
      WriteTrace C H (writeSide s) es (writeSide s') ∧
      ∀ pre post, cs = pre ++ .op .flush :: post → Environed s pre) ∨
    (s.calls C H cs = .error .nullDereference ∧
      ∃ pre post, cs = pre ++ .op .flush :: post ∧ ¬ Environed s pre) := by
  induction cs generalizing s with
  | nil => exact Or.inl ⟨s, [], [], rfl, Trace.refl _, by simp⟩
  | cons c cs ih =>
    by_cases hflush : c = .op .flush → s.cache.writeenv.isSome = true
    · obtain ⟨s₁, r, es₁, hcall, htrace₁, heffect⟩ := call_returns (H := H) hC hfit hflush
      rw [Session.calls, hcall]
      dsimp only
      rcases ih (htrace₁.fitting hfit) with
        ⟨s', rs, es, hrun, htrace, hall⟩ | ⟨hrun, pre, post, rfl, hnot⟩
      · rw [hrun]
        refine Or.inl ⟨s', r :: rs, es₁ ++ es, rfl, htrace₁.trans htrace, fun pre post heq => ?_⟩
        cases pre with
        | nil =>
          rw [List.nil_append, List.cons.injEq] at heq
          exact (environed_nil_iff s).mpr (hflush heq.1)
        | cons c' pre =>
          rw [List.cons_append, List.cons.injEq] at heq
          rw [← heq.1, ← heffect.environed_iff]
          exact hall pre post heq.2
      · rw [hrun]
        exact Or.inr ⟨rfl, c :: pre, post, rfl, fun h => hnot ((heffect.environed_iff pre).mpr h)⟩
    · rw [Classical.not_imp] at hflush
      obtain ⟨rfl, henv⟩ := hflush
      refine Or.inr ⟨?_, [], cs, rfl, fun h => henv ((environed_nil_iff s).mp h)⟩
      rw [Session.calls, Session.call, step_flush_fault fun h => henv (h rfl)]
      rfl

end Elykseer.Analysis
