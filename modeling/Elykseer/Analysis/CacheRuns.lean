import Elykseer.Analysis.Accounting

/-!
# Runs of write operations

A run of `enqueue_write_request`, `iterate_write_queue`, `flush` and `close` calls is a
run of the write path (`run_trace`).  As long as no drain finds the environment closed,
nothing is lost: what has been recorded and what is still in the queue are, in order,
what was in the queue and what has been accepted.
-/

set_option autoImplicit false

namespace Elykseer.Analysis

open Elykseer.Model Elykseer.Foundation

variable {C : Crypto} {H : Host} {cfg : CoqConfiguration}

/-! ## Operations and requests -/

/-- The operations of a writer. -/
def IsWriting : Op → Prop
  | .enqueueRead _ => False
  | .iterateRead => False
  | .enqueueWrite _ => True
  | .iterateWrite => True
  | .flush => True
  | .close => True

/-- The request an operation enqueues. -/
def writeRequest : Op → Option WriteQueueEntity
  | .enqueueWrite wqe => some wqe
  | _ => none

/-- The requests that were accepted, in order. -/
def acceptedWrites (answers : List (Op × Answer)) : List WriteQueueEntity :=
  answers.filterMap fun p =>
    match p with
    | (.enqueueWrite wqe, .accepted true) => some wqe
    | _ => none

/-- The non-empty blocks that requests want to be recorded. -/
def required (C : Crypto) (cfg : CoqConfiguration) (wreqs : List WriteQueueEntity) :
    List Wanted :=
  (wreqs.filterMap (requestWanted C cfg)).filter fun x => x.data ≠ []

/-- The non-empty blocks among the recorded ones. -/
def stored (es : List Entry) : List Wanted := (es.map Entry.wanted).filter fun x => x.data ≠ []

/-- What two lists of requests require, one after the other. -/
@[simp] theorem required_append (wreqs wreqs' : List WriteQueueEntity) :
    required C cfg (wreqs ++ wreqs') = required C cfg wreqs ++ required C cfg wreqs' := by
  simp [required, List.filterMap_append, List.filter_append]

/-- What is stored in two parts, one after the other. -/
@[simp] theorem stored_append (es es' : List Entry) : stored (es ++ es') = stored es ++ stored es' := by
  simp [stored, List.filter_append]

/-- All that was wanted is kept if `p`, and fewer than that if not. -/
structure KeptIff {α : Type*} (p : Prop) (kept wanted : List α) : Prop where
  all : p → kept = wanted
  fewer : ¬ p → kept.length < wanted.length

/-- Everything is kept when the condition holds. -/
theorem KeptIff.of_eq {α : Type*} {p : Prop} {kept wanted : List α} (hp : p)
    (h : kept = wanted) : KeptIff p kept wanted :=
  ⟨fun _ => h, fun hn => absurd hp hn⟩

/-- No more is kept than is wanted. -/
theorem KeptIff.length_le {α : Type*} {p : Prop} {kept wanted : List α}
    (h : KeptIff p kept wanted) : kept.length ≤ wanted.length := by
  by_cases hp : p
  · exact Nat.le_of_eq (congrArg List.length (h.all hp))
  · exact Nat.le_of_lt (h.fewer hp)

/-- What a first part leaves over is wanted of the second. -/
theorem KeptIff.trans {α : Type*} {p p' : Prop} {kept left wanted kept' left' wanted' : List α}
    (h : KeptIff p (kept ++ left) wanted) (h' : KeptIff p' (kept' ++ left') (left ++ wanted')) :
    KeptIff (p ∧ p') (kept ++ kept' ++ left') (wanted ++ wanted') where
  all := by
    rintro ⟨hp, hp'⟩
    rw [← h.all hp, List.append_assoc, h'.all hp', List.append_assoc]
  fewer := by
    intro hboth
    have hle := h.length_le
    have hle' := h'.length_le
    simp only [List.length_append] at hle hle' ⊢
    by_cases hp : p
    · have hlt := h'.fewer fun hp' => hboth ⟨hp, hp'⟩
      simp only [List.length_append] at hlt
      omega
    · have hlt := h.fewer hp
      simp only [List.length_append] at hlt
      omega

/-! ## One operation -/

/-- `cond` holds before every operation of a run. -/
def Meets (C : Crypto) (H : Host) (cond : Session cfg → Op → Prop) : Session cfg → List Op → Prop
  | _, [] => True
  | s, op :: ops => cond s op ∧ ∀ s' answer, s.step C H op = .ok (s', answer) → Meets C H cond s' ops

/-- A step whose outcome is known, and the run from there. -/
theorem meets_cons_iff {cond : Session cfg → Op → Prop} {s s' : Session cfg} {op : Op}
    {answer : Answer} (hstep : s.step C H op = .ok (s', answer)) (ops : List Op) :
    Meets C H cond s (op :: ops) ↔ cond s op ∧ Meets C H cond s' ops := by
  constructor
  · rintro ⟨hop, hops⟩
    exact ⟨hop, hops s' answer hstep⟩
  · rintro ⟨hop, hops⟩
    refine ⟨hop, fun s₁ answer₁ hstep₁ => ?_⟩
    cases hstep.symm.trans hstep₁
    exact hops

/-- `flush` is only called when there is a write environment. -/
def FlushesLate (s : Session cfg) (op : Op) : Prop :=
  op = .flush → s.cache.writeenv.isSome = true

/-- A drain finds the environment open, or no block to record. -/
def DrainsOpen (C : Crypto) (s : Session cfg) (op : Op) : Prop :=
  op = .iterateWrite →
    (writeSide s).isOpen = true ∨ required C cfg s.cache.writequeue = []

/-- An empty queue takes a request. -/
theorem enqueueWriteRequest_of_empty {s : Session cfg} (hq : s.cache.writequeue = [])
    (hdepth : 1 ≤ s.cache.nQueuesz) (w : WriteQueueEntity) :
    s.enqueueWriteRequest w = (⟨{ s.cache with
      nWriteRequests := (s.cache.nWriteRequests + 1) % 4294967296
      writequeue := [w] }, s.world⟩, true) := by
  unfold Session.enqueueWriteRequest
  rw [hq, List.length_nil, if_neg (Nat.not_le_of_lt hdepth)]
  rfl

/-- The step of enqueueing a write request. -/
theorem step_enqueueWrite {s s' : Session cfg} {w : WriteQueueEntity} {ok : Bool}
    (h : s.enqueueWriteRequest w = (s', ok)) :
    s.step C H (.enqueueWrite w) = .ok (s', .accepted ok) := by
  rw [Session.step, h]

/-- The step of draining the read queue. -/
theorem step_iterateRead {s s' : Session cfg} {answer : Answer} :
    s.step C H .iterateRead = .ok (s', answer) ↔
      ∃ rs, answer = .results rs ∧ s.iterateReadQueue C H = .ok (s', rs) := by
  rw [Session.step]
  cases s.iterateReadQueue C H with
  | error f => simp [Except.map]
  | ok r => simp [Except.map, Prod.ext_iff, and_comm, eq_comm]

/-- The step of draining the write queue. -/
theorem step_iterateWrite {s s' : Session cfg} {answer : Answer} :
    s.step C H .iterateWrite = .ok (s', answer) ↔
      answer = .done ∧ s.iterateWriteQueue C H = .ok s' := by
  rw [Session.step]
  cases s.iterateWriteQueue C H with
  | error f => simp [Except.map]
  | ok r => simp [Except.map, and_comm, eq_comm]

/-- The step of flushing. -/
theorem step_flush {s s' : Session cfg} {answer : Answer} :
    s.step C H .flush = .ok (s', answer) ↔ answer = .done ∧ s.flush C H = .ok s' := by
  rw [Session.step]
  cases s.flush C H with
  | error f => simp [Except.map]
  | ok r => simp [Except.map, and_comm, eq_comm]

/-- **One operation of a writer.** -/
theorem step_trace {s : Session cfg} (hfit : (writeSide s).Fitting) {op : Op} (hop : IsWriting op)
    (hflush : FlushesLate s op) :
    ∃ s' answer es draws, s.step C H op = .ok (s', answer) ∧ Writes C H s s' es draws ∧
      draws + 2 * s'.cache.writequeue.length ≤ 2 * s.cache.writequeue.length + 2 ∧
      (∀ x ∈ es, ∃ w ∈ s.cache.writequeue, requestWanted C cfg w = some x.wanted) ∧
      (∀ w ∈ s'.cache.writequeue, w ∈ s.cache.writequeue ∨ writeRequest op = some w) ∧
      KeptIff (DrainsOpen C s op) (stored es ++ required C cfg s'.cache.writequeue)
        (required C cfg s.cache.writequeue ++
          required C cfg (acceptedWrites [(op, answer)])) := by
  have hopen : ∀ op, op ≠ Op.iterateWrite → DrainsOpen C s op := fun op hne heq => absurd heq hne
  cases op with
  | enqueueRead rqe => exact hop.elim
  | iterateRead => exact hop.elim
  | enqueueWrite wqe =>
    refine ⟨_, _, [], 0, rfl, ?_⟩
    unfold Session.enqueueWriteRequest
    split
    · exact ⟨Writes.refl s, by simp, by simp, fun w hw => Or.inl hw,
        .of_eq (hopen _ (by simp)) (by simp [stored, required, acceptedWrites])⟩
    · refine ⟨Writes.enqueue s _ _,
        by simp only [List.length_append, List.length_singleton]; omega, by simp, fun w hw => ?_,
        .of_eq (hopen _ (by simp)) (by simp [stored, acceptedWrites])⟩
      rcases List.mem_append.mp hw with hw | hw
      · exact Or.inl hw
      · exact Or.inr (by rw [List.mem_singleton.mp hw]; rfl)
  | iterateWrite =>
    obtain ⟨s', es, hiter, hwrites, hq, -, -, hwanted⟩ :=
      iterateWriteQueue_trace (C := C) (H := H) hfit
    refine ⟨s', .done, es, _, step_iterateWrite.mpr ⟨rfl, hiter⟩, hwrites, by simp [hq],
      fun x hx => ?_, by simp [hq], fun hdrain => ?_, fun hdrain => ?_⟩
    · have hmem := List.mem_map_of_mem (f := Entry.wanted) hx
      rw [hwanted] at hmem
      split at hmem
      · exact List.mem_filterMap.mp hmem
      · cases hmem
    · have hstored : stored es = required C cfg s.cache.writequeue := by
        unfold stored
        rw [hwanted]
        rcases hdrain rfl with hopen | hnone
        · rw [if_pos hopen]
          rfl
        · split
          · rfl
          · exact hnone.symm
      rw [hstored, hq]
      simp [required, acceptedWrites]
    · -- the blocks in the queue are lost
      simp only [DrainsOpen, forall_const, not_or, Bool.not_eq_true] at hdrain
      have hnone : es = [] := by
        rw [hdrain.1, if_neg Bool.false_ne_true, List.map_eq_nil_iff] at hwanted
        exact hwanted
      have hpos := List.length_pos_of_ne_nil hdrain.2
      rw [hnone, hq]
      simpa [stored, required, acceptedWrites] using hpos
  | flush =>
    obtain ⟨e, he⟩ := Option.isSome_iff_exists.mp (hflush rfl)
    obtain ⟨s', hflush', hwrites, hq, -, -⟩ := flush_trace (C := C) (H := H) he
    exact ⟨s', .done, [], 1, step_flush.mpr ⟨rfl, hflush'⟩, hwrites,
      by rw [hq]; omega, by simp, fun w hw => Or.inl (hq ▸ hw),
      .of_eq (hopen _ (by simp)) (by simp [stored, required, acceptedWrites, hq])⟩
  | close =>
    obtain ⟨hwrites, hq, -, -⟩ := close_trace (C := C) (H := H) s
    exact ⟨_, .done, [], 0, rfl, hwrites, by rw [hq]; omega, by simp,
      fun w hw => Or.inl (hq ▸ hw),
      .of_eq (hopen _ (by simp)) (by simp [stored, required, acceptedWrites, hq])⟩

/-! ## Whole runs -/

/-- A step whose outcome is known, and the run from there, are a run. -/
theorem run_cons {s s' s'' : Session cfg} {op : Op} {ops : List Op} {answer : Answer}
    {answers : List (Op × Answer)} (h : s.step C H op = .ok (s', answer))
    (h' : s'.run C H ops = .ok (s'', answers)) :
    s.run C H (op :: ops) = .ok (s'', (op, answer) :: answers) := by
  rw [Session.run, h]
  dsimp only
  rw [h']

/-- **A run of a writer** does not fault; only what was asked for is recorded; and every accepted
block is recorded or still in the queue if and only if no drain finds the environment closed. -/
theorem run_trace {s : Session cfg} (hfit : (writeSide s).Fitting) {ops : List Op}
    (hops : ∀ op ∈ ops, IsWriting op) (hflush : Meets C H FlushesLate s ops) :
    ∃ s' answers es draws, s.run C H ops = .ok (s', answers) ∧ Writes C H s s' es draws ∧
      draws + 2 * s'.cache.writequeue.length ≤ 2 * s.cache.writequeue.length + 2 * ops.length ∧
      (∀ x ∈ es, ∃ w ∈ s.cache.writequeue ++ ops.filterMap writeRequest,
        requestWanted C cfg w = some x.wanted) ∧
      KeptIff (Meets C H (DrainsOpen C) s ops) (stored es ++ required C cfg s'.cache.writequeue)
        (required C cfg s.cache.writequeue ++ required C cfg (acceptedWrites answers)) := by
  induction ops generalizing s with
  | nil =>
    exact ⟨s, [], [], 0, rfl, Writes.refl s, by simp, by simp,
      .of_eq trivial (by simp [stored, required, acceptedWrites])⟩
  | cons op ops ih =>
    obtain ⟨hcond, hrest⟩ := hflush
    obtain ⟨s₁, answer, es₁, m, hstep, hwrites₁, hdraws₁, hasked₁, hqueue, hkept₁⟩ :=
      step_trace (C := C) (H := H) hfit (hops op (by simp)) hcond
    obtain ⟨s₂, answers, es₂, n, hrun, hwrites₂, hdraws₂, hasked₂, hkept₂⟩ :=
      ih (hwrites₁.trace.fitting hfit) (fun op hop => hops op (by simp [hop])) (hrest s₁ answer hstep)
    have hsplit : acceptedWrites ((op, answer) :: answers) =
        acceptedWrites [(op, answer)] ++ acceptedWrites answers := by
      unfold acceptedWrites
      rw [← List.filterMap_append]
      rfl
    refine ⟨s₂, (op, answer) :: answers, es₁ ++ es₂, m + n, run_cons hstep hrun,
      hwrites₁.trans hwrites₂, by rw [List.length_cons]; omega, fun x hx => ?_, ?_⟩
    · rcases List.mem_append.mp hx with hx | hx
      · obtain ⟨w, hw, hwanted⟩ := hasked₁ x hx
        exact ⟨w, List.mem_append_left _ hw, hwanted⟩
      · obtain ⟨w, hw, hwanted⟩ := hasked₂ x hx
        refine ⟨w, ?_, hwanted⟩
        rw [List.filterMap_cons]
        rcases List.mem_append.mp hw with hw | hw
        · rcases hqueue w hw with hw | hw
          · exact List.mem_append_left _ hw
          · rw [hw]
            exact List.mem_append_right _ List.mem_cons_self
        · cases writeRequest op with
          | none => exact List.mem_append_right _ hw
          | some w' => exact List.mem_append_right _ (List.mem_cons_of_mem _ hw)
    · rw [meets_cons_iff hstep, hsplit, required_append, stored_append, ← List.append_assoc]
      exact hkept₁.trans hkept₂

/-- A run draws at most one assembly for each operation. -/
theorem run_nassembly_le {s s' : Session cfg} (hfit : (writeSide s).Fitting)
    (hqueue : s.cache.writequeue = []) {ops : List Op} (hops : ∀ op ∈ ops, IsWriting op)
    (hflush : Meets C H FlushesLate s ops) {answers : List (Op × Answer)}
    (hrun : s.run C H ops = .ok (s', answers)) :
    s'.world.nassembly ≤ s.world.nassembly + 2 * ops.length := by
  obtain ⟨s₁, answers₁, es, draws, hrun₁, hwrites, hdraws, -⟩ := run_trace hfit hops hflush
  cases hrun.symm.trans hrun₁
  have hle := hwrites.nassembly_le
  rw [hqueue, List.length_nil] at hdraws
  omega

/-- A run of two lists of operations is a run of the first and one of the second. -/
theorem run_append_eq (s : Session cfg) (ops ops' : List Op) :
    s.run C H (ops ++ ops') = (s.run C H ops).bind fun r =>
      (r.1.run C H ops').map fun r' => (r'.1, r.2 ++ r'.2) := by
  induction ops generalizing s with
  | nil =>
    change s.run C H ops' = (s.run C H ops').map fun r' => (r'.1, r'.2)
    cases s.run C H ops' <;> rfl
  | cons op ops ih =>
    rw [List.cons_append, Session.run, Session.run]
    cases s.step C H op with
    | error f => rfl
    | ok r =>
      dsimp only
      rw [ih]
      cases r.1.run C H ops with
      | error f => rfl
      | ok r₁ =>
        dsimp only [Except.bind]
        cases r₁.1.run C H ops' <;> rfl

/-- Two runs, the second from where the first ends, are a run. -/
theorem run_append {s s' s'' : Session cfg} {ops ops' : List Op} {answers answers' : List (Op × Answer)}
    (h : s.run C H ops = .ok (s', answers)) (h' : s'.run C H ops' = .ok (s'', answers')) :
    s.run C H (ops ++ ops') = .ok (s'', answers ++ answers') := by
  rw [run_append_eq, h]
  dsimp only [Except.bind]
  rw [h']
  rfl

/-- A run can be cut anywhere. -/
theorem run_append_inv {s s'' : Session cfg} {ops ops' : List Op} {answers : List (Op × Answer)}
    (h : s.run C H (ops ++ ops') = .ok (s'', answers)) :
    ∃ s' answers₁ answers₂, s.run C H ops = .ok (s', answers₁) ∧
      s'.run C H ops' = .ok (s'', answers₂) ∧ answers = answers₁ ++ answers₂ := by
  rw [run_append_eq] at h
  cases hrun : s.run C H ops with
  | error f =>
    rw [hrun] at h
    cases h
  | ok r =>
    rw [hrun] at h
    dsimp only [Except.bind] at h
    cases hrun' : r.1.run C H ops' with
    | error f =>
      rw [hrun'] at h
      cases h
    | ok r' =>
      rw [hrun'] at h
      cases h
      exact ⟨r.1, r.2, r'.2, rfl, hrun', rfl⟩

/-- A condition met in a run is met in its first part. -/
theorem Meets.of_append {cond : Session cfg → Op → Prop} {s : Session cfg} {ops ops' : List Op}
    (h : Meets C H cond s (ops ++ ops')) : Meets C H cond s ops := by
  induction ops generalizing s with
  | nil => trivial
  | cons op ops ih => exact ⟨h.1, fun s' answer hstep => ih (h.2 s' answer hstep)⟩

/-- After a last drain and `close` nothing is in the queue, and there is no assembly. -/
theorem run_ends {s s' : Session cfg} (hfit : (writeSide s).Fitting) {ops : List Op}
    (hops : ∀ op ∈ ops, IsWriting op) (hflush : Meets C H FlushesLate s ops)
    {answers : List (Op × Answer)}
    (hrun : s.run C H (ops ++ [.iterateWrite, .close]) = .ok (s', answers)) :
    s'.cache.writequeue = [] ∧ (writeSide s').current = none := by
  obtain ⟨s₁, answers₁, answers₂, hrun₁, hrun₂, -⟩ := run_append_inv hrun
  obtain ⟨s₁', answers₁', es, draws, hrun₁', hwrites, -⟩ := run_trace hfit hops hflush
  cases hrun₁.symm.trans hrun₁'
  obtain ⟨s₂, es₂, hiter, -, hq, -⟩ :=
    iterateWriteQueue_trace (C := C) (H := H) (hwrites.trace.fitting hfit)
  simp only [Session.run, Session.step, hiter, Except.map, Except.ok.injEq, Prod.mk.injEq] at hrun₂
  obtain ⟨-, hqueue, hclosed, -⟩ := close_trace (C := C) (H := H) s₂
  rw [← hrun₂.1]
  exact ⟨hqueue.trans hq, hclosed⟩

/-- Without a `flush` nothing is asked of a run. -/
theorem meets_flushesLate_of_not_mem (s : Session cfg) (ops : List Op) (h : Op.flush ∉ ops) :
    Meets C H FlushesLate s ops := by
  induction ops generalizing s with
  | nil => trivial
  | cons op ops ih =>
    rw [List.mem_cons, not_or] at h
    exact ⟨fun heq => absurd heq.symm h.1, fun s' _ _ => ih s' h.2⟩

end Elykseer.Analysis
