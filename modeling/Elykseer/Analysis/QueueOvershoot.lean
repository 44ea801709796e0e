import Mathlib.Algebra.Order.BigOperators.Group.Finset
import Elykseer.Analysis.SharedQueues

/-!
# How far a queue can overshoot

A caller that has passed the size test pushes its request even if the queue has been
filled in the meantime.  There is at most one such request for each caller, so `m`
callers never have more than `n_queuesz + m - 1` requests in a queue, and for every
number of callers and every size there is a schedule with that many:
`sharedQueues_overshoot`.
-/

set_option autoImplicit false

namespace Elykseer.Analysis

open Elykseer.Model Elykseer.Foundation

variable {cfg : CoqConfiguration} {ι : Type} [DecidableEq ι]

/-- Whether a caller is about to push to a queue, as a number. -/
def pushing (d : Side) (phase : Phase) : ℕ := if pushesTo phase = some d then 1 else 0

/-- A caller is about to push at most once. -/
theorem pushing_le_one (d : Side) (phase : Phase) : pushing d phase ≤ 1 := by
  unfold pushing
  split <;> omega

section Bound

variable [Fintype ι]

/-- The number of callers that are about to push to a queue. -/
def pushers (d : Side) (s : SharedCache ι cfg) : ℕ :=
  ∑ i, pushing d (s.callers i).phase

/-- A step of `i` only changes where `i` is. -/
theorem pushers_put (d : Side) (s : SharedCache ι cfg) (i : ι) (cache : CoqAssemblyCache cfg)
    (phase : Phase) (todo : List QueueCall) :
    pushers d (s.put i cache phase todo) + pushing d (s.callers i).phase =
      pushers d s + pushing d phase := by
  have hother : ∑ j ∈ Finset.univ.erase i,
      pushing d ((s.put i cache phase todo).callers j).phase =
        ∑ j ∈ Finset.univ.erase i, pushing d (s.callers j).phase := by
    apply Finset.sum_congr rfl
    intro j hj
    have hne := Finset.ne_of_mem_erase hj
    simp only [SharedCache.put, Function.update_of_ne hne]
  have hself : ((s.put i cache phase todo).callers i).phase = phase := by
    simp only [SharedCache.put, Function.update_self]
  unfold pushers
  rw [← Finset.add_sum_erase _ _ (Finset.mem_univ i), hother, hself,
    ← Finset.add_sum_erase Finset.univ (fun j => pushing d (s.callers j).phase)
      (Finset.mem_univ i)]
  omega

omit [DecidableEq ι] in
/-- A caller is about to push at most one request. -/
theorem pushers_le (d : Side) (s : SharedCache ι cfg) : pushers d s ≤ Fintype.card ι := by
  calc pushers d s ≤ ∑ _i : ι, 1 := Finset.sum_le_sum fun i _ => pushing_le_one d _
    _ = Fintype.card ι := by simp

/-- The requests in a queue and those about to be pushed. -/
def Overshoots (s : SharedCache ι cfg) : Prop :=
  ∀ d : Side, d.queued s.cache + pushers d s < s.cache.nQueuesz + Fintype.card ι

/-- A step that neither adds a request nor lets one pass the test. -/
theorem Overshoots.put {s : SharedCache ι cfg} (h : Overshoots s) (i : ι)
    {cache : CoqAssemblyCache cfg} {phase : Phase} (todo : List QueueCall)
    (hsize : cache.nQueuesz = s.cache.nQueuesz)
    (hstep : ∀ d : Side, d.queued cache + pushing d phase ≤
      d.queued s.cache + pushing d (s.callers i).phase) :
    Overshoots (s.put i cache phase todo) := by
  intro d
  have hput := pushers_put d s i cache phase todo
  have hbefore := h d
  have hone := hstep d
  change d.queued cache + pushers d (s.put i cache phase todo) < cache.nQueuesz + _
  omega

/-- A request that passes the test finds the queue below its size. -/
theorem Overshoots.test {s : SharedCache ι cfg} (h : Overshoots s) {i : ι} {phase : Phase}
    (todo : List QueueCall) (hbetween : (s.callers i).phase = .between)
    (hroom : ∀ d : Side, pushesTo phase = some d → d.queued s.cache < s.cache.nQueuesz) :
    Overshoots (s.put i s.cache phase todo) := by
  intro d
  have hput := pushers_put d s i s.cache phase todo
  have hle := pushers_le d (s.put i s.cache phase todo)
  rw [hbetween] at hput
  change d.queued s.cache + pushers d (s.put i s.cache phase todo) < s.cache.nQueuesz + _
  by_cases hpush : pushesTo phase = some d
  · have hlt := hroom d hpush
    omega
  · have hzero : pushing d phase = 0 := if_neg hpush
    have hbefore := h d
    omega

/-- **Every step keeps the bound.** -/
theorem Overshoots.step {s : SharedCache ι cfg} (h : Overshoots s) (i : ι) :
    Overshoots (s.step i).1 := by
  have hmoves := step_moves s i
  generalize (s.step i).1 = s' at hmoves ⊢
  cases hmoves with
  | idle => exact h
  | test phase todo hbetween hroom => exact h.test todo hbetween hroom
  | push d cache todo hpush hsize hmine hother =>
    refine h.put i todo hsize fun d' => ?_
    -- the caller is about to push before, and its request is in the queue after
    by_cases hd : d' = d
    · have hone : pushing d (s.callers i).phase = 1 := if_pos hpush
      rw [hd, hmine, hone]
      exact Nat.le_refl _
    · rw [hother d' hd]
      exact Nat.add_le_add_left (Nat.zero_le _) _
  | take cache todo _ hsize hqueued =>
    exact h.put i todo hsize fun d => Nat.add_le_add (hqueued d) (Nat.zero_le _)

/-- The bound holds after any schedule. -/
theorem Overshoots.run {s : SharedCache ι cfg} (h : Overshoots s) (schedule : List ι) :
    Overshoots (s.run schedule).1 := by
  induction schedule generalizing s with
  | nil => exact h
  | cons i schedule ih => exact ih (h.step i)

omit [DecidableEq ι] in
/-- The bound holds at first. -/
theorem overshoots_start [Nonempty ι] (nEnvs : ℕ) (depth : ℕ) (keys : CoqKeyStore)
    (fblocks : CoqFBlockStore) (finfos : CoqFInfoStore) (programs : ι → List QueueCall) :
    Overshoots (SharedCache.start (CoqAssemblyCache.init cfg nEnvs depth keys fblocks finfos)
      programs) := by
  intro d
  have hcard : 0 < Fintype.card ι := Fintype.card_pos
  cases d <;> simp [Side.queued, pushers, pushing, pushesTo, SharedCache.start,
    CoqAssemblyCache.init] <;> omega

end Bound

/-! ## The bound is reached -/

/-- A request for one of the queues. -/
inductive Request
  | read (rqe : ReadQueueEntity)
  | write (wqe : WriteQueueEntity)

namespace Request

/-- The queue it is for. -/
def side : Request → Side
  | read _ => .read
  | write _ => .write

/-- The call that enqueues it. -/
def call : Request → QueueCall
  | read rqe => .enqueueRead rqe
  | write wqe => .enqueueWrite wqe

/-- Where a caller is that is about to push it. -/
def phase : Request → Phase
  | read rqe => .pushRead rqe
  | write wqe => .pushWrite wqe

end Request

section Reached

variable {q : Request} {s : SharedCache ι cfg}

/-- With room in the queue the request passes the test. -/
theorem step_test {i : ι} {todo : List QueueCall}
    (hcaller : s.callers i = ⟨.between, q.call :: todo⟩)
    (hroom : q.side.queued s.cache < s.cache.nQueuesz) :
    (s.step i).1 = s.put i s.cache q.phase todo := by
  unfold SharedCache.step
  cases q with
  | read rqe =>
    have hfull : s.cache.isReadqueueFull = false := decide_eq_false (Nat.not_le.mpr hroom)
    simp [hcaller, Request.call, Request.phase, hfull]
  | write wqe =>
    have hfull : s.cache.isWritequeueFull = false := decide_eq_false (Nat.not_le.mpr hroom)
    simp [hcaller, Request.call, Request.phase, hfull]

/-- Behind the test it is pushed, whatever is in the queue. -/
theorem step_push {i : ι} {todo : List QueueCall} (hcaller : s.callers i = ⟨q.phase, todo⟩) :
    ∃ cache, (s.step i).1 = s.put i cache .between todo ∧
      q.side.queued cache = q.side.queued s.cache + 1 ∧ cache.nQueuesz = s.cache.nQueuesz := by
  unfold SharedCache.step
  cases q with
  | read rqe =>
    refine ⟨s.cache.pushRead rqe, ?_, ?_, rfl⟩
    · simp [hcaller, Request.phase]
    · simp [Request.side, Side.queued, CoqAssemblyCache.pushRead]
  | write wqe =>
    refine ⟨s.cache.pushWrite wqe, ?_, ?_, rfl⟩
    · simp [hcaller, Request.phase]
    · simp [Request.side, Side.queued, CoqAssemblyCache.pushWrite]

/-- One caller fills the queue. -/
theorem run_fill (i : ι) (k : ℕ) {todo : List QueueCall}
    (hcaller : s.callers i = ⟨.between, List.replicate k q.call ++ todo⟩)
    (hroom : q.side.queued s.cache + k ≤ s.cache.nQueuesz) :
    let s' := (s.run (List.replicate k [i, i]).flatten).1
    s'.callers i = ⟨.between, todo⟩ ∧ (∀ j ≠ i, s'.callers j = s.callers j) ∧
      q.side.queued s'.cache = q.side.queued s.cache + k ∧
      s'.cache.nQueuesz = s.cache.nQueuesz := by
  induction k generalizing s with
  | zero => exact ⟨hcaller, fun _ _ => rfl, rfl, rfl⟩
  | succ k ih =>
    have htest : (s.step i).1 =
        s.put i s.cache q.phase (List.replicate k q.call ++ todo) := step_test hcaller (by omega)
    have hphase := callers_put_self s i s.cache q.phase (List.replicate k q.call ++ todo)
    obtain ⟨cache, hpush, hqueued, hsize⟩ := step_push hphase
    have htwo : (s.run (List.replicate (k + 1) [i, i]).flatten).1 =
        ((((s.step i).1.step i).1).run (List.replicate k [i, i]).flatten).1 := rfl
    intro s'
    have hs' : s' = (((s.put i s.cache q.phase (List.replicate k q.call ++ todo)).put i cache
        .between (List.replicate k q.call ++ todo)).run (List.replicate k [i, i]).flatten).1 := by
      rw [← hpush, ← htest]
      exact htwo
    change q.side.queued cache = q.side.queued s.cache + 1 at hqueued
    change cache.nQueuesz = s.cache.nQueuesz at hsize
    obtain ⟨hself, hother, hlen, hsize'⟩ := ih (callers_put_self _ i cache _ _) (by
      change q.side.queued cache + k ≤ cache.nQueuesz
      omega)
    rw [← hs'] at hself hother hlen hsize'
    refine ⟨hself, fun j hj => ?_, ?_, hsize'.trans hsize⟩
    · rw [hother j hj, callers_put_of_ne _ hj, callers_put_of_ne _ hj]
    · change _ = q.side.queued cache + k at hlen
      omega

/-- Any number of callers pass the test of a queue with room for one. -/
theorem run_test {l : List ι} (hl : l.Nodup)
    (hcallers : ∀ i ∈ l, s.callers i = ⟨.between, [q.call]⟩)
    (hroom : q.side.queued s.cache < s.cache.nQueuesz) :
    let s' := (s.run l).1
    s'.cache = s.cache ∧ (∀ i ∈ l, s'.callers i = ⟨q.phase, []⟩) ∧
      ∀ j ∉ l, s'.callers j = s.callers j := by
  induction l generalizing s with
  | nil => exact ⟨rfl, by simp, fun _ _ => rfl⟩
  | cons i l ih =>
    obtain ⟨hi, hl⟩ := List.nodup_cons.mp hl
    have htest := step_test (hcallers i List.mem_cons_self) hroom
    have hne : ∀ j ∈ l, j ≠ i := fun j hj h => hi (h ▸ hj)
    obtain ⟨hcache, hin, hout⟩ := ih (s := s.put i s.cache q.phase []) hl
      (fun j hj => (callers_put_of_ne _ (hne j hj) _ _ _).trans
        (hcallers j (List.mem_cons_of_mem i hj))) hroom
    rw [← htest] at hcache hin hout
    have hstay : (s.step i).1.cache = s.cache := by rw [htest]; rfl
    refine ⟨hcache.trans hstay, fun j hj => ?_, fun j hj => ?_⟩
    · rcases List.mem_cons.mp hj with rfl | hj
      · exact (hout j hi).trans (by rw [htest, callers_put_self])
      · exact hin j hj
    · rw [List.mem_cons, not_or] at hj
      exact (hout j hj.2).trans (by rw [htest, callers_put_of_ne _ hj.1])

/-- All of them push. -/
theorem run_push {l : List ι} (hl : l.Nodup) (hcallers : ∀ i ∈ l, s.callers i = ⟨q.phase, []⟩) :
    q.side.queued (s.run l).1.cache = q.side.queued s.cache + l.length := by
  induction l generalizing s with
  | nil => rfl
  | cons i l ih =>
    obtain ⟨hi, hl⟩ := List.nodup_cons.mp hl
    obtain ⟨cache, hpush, hqueued, -⟩ := step_push (hcallers i List.mem_cons_self)
    have hne : ∀ j ∈ l, j ≠ i := fun j hj h => hi (h ▸ hj)
    have hrest := ih (s := s.put i cache .between []) hl fun j hj =>
      (callers_put_of_ne _ (hne j hj) _ _ _).trans (hcallers j (List.mem_cons_of_mem i hj))
    rw [← hpush] at hrest
    have hone : q.side.queued (s.step i).1.cache = q.side.queued s.cache + 1 := by
      rw [hpush]
      exact hqueued
    change q.side.queued ((s.step i).1.run l).1.cache = _
    rw [hrest, hone, List.length_cons]
    omega

end Reached

/-- **The exact overshoot.**  For `m ≥ 1` callers and queues of at least one request, no schedule
puts more than `n_queuesz + m - 1` requests into a queue, and each queue reaches that number under
some schedule. -/
theorem sharedQueues_overshoot [Fintype ι] [Nonempty ι] (cfg : CoqConfiguration)
    (nEnvs depth : ℕ) (hdepth : 1 ≤ depth) (keys : CoqKeyStore) (fblocks : CoqFBlockStore)
    (finfos : CoqFInfoStore) :
    let run := fun (programs : ι → List QueueCall) schedule =>
      (SharedCache.start (CoqAssemblyCache.init cfg nEnvs depth keys fblocks finfos)
        programs).run schedule
    (∀ programs schedule (d : Side),
      d.queued (run programs schedule).1.cache + 1 ≤ depth + Fintype.card ι) ∧
    ∀ q : Request, ∃ programs schedule,
      q.side.queued (run programs schedule).1.cache + 1 = depth + Fintype.card ι := by
  intro run
  constructor
  · intro programs schedule d
    have hstart := @overshoots_start cfg ι _ _ nEnvs depth keys fblocks finfos programs
    have hsize := (run_traces (SharedCache.start
      (CoqAssemblyCache.init cfg nEnvs depth keys fblocks finfos) programs) schedule).1
    have hbound := hstart.run schedule d
    rw [hsize] at hbound
    change _ < depth + _ at hbound
    change d.queued ((SharedCache.start _ programs).run schedule).1.cache + 1 ≤ _
    omega
  · intro q
    -- one caller fills the queue up to one request, then all pass the test, then all push
    obtain ⟨i₀⟩ := ‹Nonempty ι›
    obtain ⟨k, rfl⟩ : ∃ k, depth = k + 1 := ⟨depth - 1, by omega⟩
    set programs : ι → List QueueCall :=
      Function.update (fun _ => [q.call]) i₀ (List.replicate k q.call ++ [q.call]) with hprograms
    set s := SharedCache.start (CoqAssemblyCache.init cfg nEnvs (k + 1) keys fblocks finfos)
      programs with hs
    have hempty : q.side.queued s.cache = 0 := by cases q <;> rfl
    have hsize : s.cache.nQueuesz = k + 1 := rfl
    have hfill := @run_fill _ _ _ q s i₀ k [q.call]
      (by simp [hs, SharedCache.start, hprograms]) (by omega)
    dsimp only at hfill
    set s₁ := (s.run (List.replicate k [i₀, i₀]).flatten).1 with hs₁
    obtain ⟨hself, hother, hlen₁, hsize₁⟩ := hfill
    have hcallers : ∀ i ∈ Finset.univ.toList, s₁.callers i = ⟨.between, [q.call]⟩ := by
      intro i _
      by_cases hi : i = i₀
      · rw [hi, hself]
      · rw [hother i hi]
        simp [hs, SharedCache.start, hprograms, hi]
    have htest := run_test (s := s₁) (q := q) (Finset.nodup_toList _) hcallers (by omega)
    dsimp only at htest
    set s₂ := (s₁.run (Finset.univ.toList : List ι)).1 with hs₂
    obtain ⟨hcache, hphases, -⟩ := htest
    have hlen := run_push (s := s₂) (q := q) (Finset.nodup_toList _) hphases
    refine ⟨programs, (List.replicate k [i₀, i₀]).flatten ++
      (Finset.univ.toList ++ Finset.univ.toList), ?_⟩
    change q.side.queued (s.run _).1.cache + 1 = _
    rw [schedule_append, schedule_append, ← hs₁, ← hs₂, hlen, hcache, Finset.length_toList,
      Finset.card_univ]
    omega

/-- Two callers with queues for one request: two of them, never three. -/
theorem sharedQueues_overshoot_simple :
    ∃ (programs : Bool → List QueueCall) (schedule : List Bool),
      ((SharedCache.start (CoqAssemblyCache.init config16 1 1 ∅ ∅ ∅) programs).run
        schedule).1.cache.writequeue.length = 2 := by
  obtain ⟨-, hreached⟩ := @sharedQueues_overshoot Bool _ _ _ config16 1 1 (Nat.le_refl 1) ∅ ∅ ∅
  obtain ⟨programs, schedule, hlen⟩ := hreached (.write ⟨Vector.replicate 32 0, 0, none⟩)
  exact ⟨programs, schedule, Nat.succ.inj hlen⟩

end Elykseer.Analysis
