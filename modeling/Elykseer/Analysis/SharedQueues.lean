import Elykseer.Analysis.ReferenceCrypto
import Elykseer.Model.SharedCache

/-!
# The queues under interleaving

Whatever the schedule, every request that is pushed is taken once, in order, or still in
its queue.  The size of a queue is tested before the lock is taken, so that a push may
find a queue full that had room when it was tested.  The queues stay within `n_queuesz` in
every schedule in which nobody pushes to a queue between the test and the push of another
caller, and a push in between for the last place is one too many: `sharedQueues_bounded`.
-/

set_option autoImplicit false

namespace Elykseer.Analysis

open Elykseer.Model Elykseer.Foundation

variable {C : Crypto} {H : Host} {cfg : CoqConfiguration} {ι : Type} [DecidableEq ι]

/-! ## Calls without interleaving -/

/-- Enqueueing a read request is the size test and then the push. -/
theorem enqueueReadRequest_eq (s : Session cfg) (rqe : ReadQueueEntity) :
    s.enqueueReadRequest rqe = if s.cache.isReadqueueFull then (s, false)
      else (⟨s.cache.pushRead rqe, s.world⟩, true) := by
  unfold Session.enqueueReadRequest CoqAssemblyCache.isReadqueueFull
  simp only [decide_eq_true_eq]
  rfl

/-- Enqueueing a write request is the size test and then the push. -/
theorem enqueueWriteRequest_eq (s : Session cfg) (wqe : WriteQueueEntity) :
    s.enqueueWriteRequest wqe = if s.cache.isWritequeueFull then (s, false)
      else (⟨s.cache.pushWrite wqe, s.world⟩, true) := by
  unfold Session.enqueueWriteRequest CoqAssemblyCache.isWritequeueFull
  simp only [decide_eq_true_eq]
  rfl

/-- Draining the read queue takes all requests and then runs them. -/
theorem iterateReadQueue_eq_takeReads (s : Session cfg) :
    s.iterateReadQueue C H = if s.cache.readqueue = [] then .ok (s, [])
      else Session.runReadRequests C H ⟨s.cache.takeReads.1, s.world⟩ [] s.cache.takeReads.2 := rfl

/-- Draining the write queue takes all requests and then runs them. -/
theorem iterateWriteQueue_eq_takeWrites (s : Session cfg) :
    s.iterateWriteQueue C H = if s.cache.writequeue = [] then .ok s
      else Session.runWriteRequests C H ⟨s.cache.takeWrites.1, s.world⟩ s.cache.takeWrites.2 := rfl

/-! ## One step -/

/-- What happens to the read queue. -/
def readEvents (es : List QueueEvent) : List (SharedQueue.Event ReadQueueEntity) :=
  es.filterMap fun
    | .read e => some e
    | .write _ => none

/-- What happens to the write queue. -/
def writeEvents (es : List QueueEvent) : List (SharedQueue.Event WriteQueueEntity) :=
  es.filterMap fun
    | .read _ => none
    | .write e => some e

/-- The events of the read queue, in two parts. -/
@[simp] theorem readEvents_append (es es' : List QueueEvent) :
    readEvents (es ++ es') = readEvents es ++ readEvents es' :=
  List.filterMap_append

/-- The events of the write queue, in two parts. -/
@[simp] theorem writeEvents_append (es es' : List QueueEvent) :
    writeEvents (es ++ es') = writeEvents es ++ writeEvents es' :=
  List.filterMap_append

/-- One of the two queues. -/
inductive Side
  | read
  | write
  deriving DecidableEq

/-- The number of requests in a queue. -/
def Side.queued (d : Side) (c : CoqAssemblyCache cfg) : ℕ :=
  match d with
  | .read => c.readqueue.length
  | .write => c.writequeue.length

/-- The queue a caller is about to push to, because it has passed its test. -/
def pushesTo : Phase → Option Side
  | .between => none
  | .pushRead _ => some .read
  | .pushWrite _ => some .write
  | .takeWrites => none

/-- A push to the read queue adds one request. -/
theorem queued_pushRead (c : CoqAssemblyCache cfg) (rqe : ReadQueueEntity) :
    Side.read.queued (c.pushRead rqe) = Side.read.queued c + 1 := by
  simp [Side.queued, CoqAssemblyCache.pushRead]

/-- A push to the write queue adds one request. -/
theorem queued_pushWrite (c : CoqAssemblyCache cfg) (wqe : WriteQueueEntity) :
    Side.write.queued (c.pushWrite wqe) = Side.write.queued c + 1 := by
  simp [Side.queued, CoqAssemblyCache.pushWrite]

/-- Where the caller is that has made a step. -/
theorem callers_put_self (s : SharedCache ι cfg) (i : ι) (cache : CoqAssemblyCache cfg)
    (phase : Phase) (todo : List QueueCall) :
    (s.put i cache phase todo).callers i = ⟨phase, todo⟩ :=
  Function.update_self i _ _

/-- The others are where they were. -/
theorem callers_put_of_ne (s : SharedCache ι cfg) {i j : ι} (h : j ≠ i)
    (cache : CoqAssemblyCache cfg) (phase : Phase) (todo : List QueueCall) :
    (s.put i cache phase todo).callers j = s.callers j :=
  Function.update_of_ne h _ _

/-- What a step does to the queues. -/
structure StepEffect (s s' : SharedCache ι cfg) (es : List QueueEvent) : Prop where
  nQueuesz : s'.cache.nQueuesz = s.cache.nQueuesz
  readqueue : SharedQueue.Step s.cache.readqueue (readEvents es) s'.cache.readqueue
  writequeue : SharedQueue.Step s.cache.writequeue (writeEvents es) s'.cache.writequeue

/-- **Every step of a caller is a step of each queue.** -/
theorem step_effect (s : SharedCache ι cfg) (i : ι) : StepEffect s (s.step i).1 (s.step i).2 := by
  unfold SharedCache.step
  -- a step that leaves the queues alone
  have hstay : ∀ phase' todo', StepEffect s (s.put i s.cache phase' todo') [] :=
    fun phase' todo' => ⟨rfl, .stay _, .stay _⟩
  rcases s.callers i with ⟨phase, todo⟩
  cases phase with
  | pushRead rqe => exact ⟨rfl, .push _ rqe, .stay _⟩
  | pushWrite wqe => exact ⟨rfl, .stay _, .push _ wqe⟩
  | takeWrites => exact ⟨rfl, .stay _, .take _⟩
  | between =>
    cases todo with
    | nil => exact ⟨rfl, .stay _, .stay _⟩
    | cons call todo =>
      cases call with
      | enqueueRead rqe => exact hstay _ todo
      | enqueueWrite wqe => exact hstay _ todo
      | iterateWrite => exact hstay _ todo
      | iterateRead =>
        dsimp only
        split
        · exact hstay _ todo
        · exact ⟨rfl, .take _, .stay _⟩

/-- What a step of `i` does to the lengths of the queues and to where `i` is. -/
inductive Moves (s : SharedCache ι cfg) (i : ι) : SharedCache ι cfg → Prop
  /-- there is no call left -/
  | idle (hphase : pushesTo (s.callers i).phase = none) : Moves s i s
  /-- a request is pushed behind the test -/
  | push (d : Side) (cache : CoqAssemblyCache cfg) (todo : List QueueCall)
      (hpush : pushesTo (s.callers i).phase = some d)
      (hsize : cache.nQueuesz = s.cache.nQueuesz)
      (hmine : d.queued cache = d.queued s.cache + 1)
      (hother : ∀ d', d' ≠ d → d'.queued cache = d'.queued s.cache) :
      Moves s i (s.put i cache .between todo)
  /-- a test is made, and passed only if there is room -/
  | test (phase : Phase) (todo : List QueueCall) (hbetween : (s.callers i).phase = .between)
      (hroom : ∀ d, pushesTo phase = some d → d.queued s.cache < s.cache.nQueuesz) :
      Moves s i (s.put i s.cache phase todo)
  /-- the requests of a queue are taken -/
  | take (cache : CoqAssemblyCache cfg) (todo : List QueueCall)
      (hphase : pushesTo (s.callers i).phase = none)
      (hsize : cache.nQueuesz = s.cache.nQueuesz)
      (hqueued : ∀ d : Side, d.queued cache ≤ d.queued s.cache) :
      Moves s i (s.put i cache .between todo)

/-- **Every step is one of these.** -/
theorem step_moves (s : SharedCache ι cfg) (i : ι) : Moves s i (s.step i).1 := by
  unfold SharedCache.step
  rcases hcaller : s.callers i with ⟨phase, todo⟩
  have hphase : (s.callers i).phase = phase := by rw [hcaller]
  cases phase with
  | pushRead rqe =>
    refine .push .read _ todo (by rw [hphase]; rfl) rfl (queued_pushRead _ _) fun d hd => ?_
    cases d with
    | read => exact absurd rfl hd
    | write => rfl
  | pushWrite wqe =>
    refine .push .write _ todo (by rw [hphase]; rfl) rfl (queued_pushWrite _ _) fun d hd => ?_
    cases d with
    | read => rfl
    | write => exact absurd rfl hd
  | takeWrites =>
    refine .take _ todo (by rw [hphase]; rfl) rfl fun d => ?_
    cases d with
    | read => exact Nat.le_refl _
    | write => exact Nat.zero_le _
  | between =>
    cases todo with
    | nil => exact .idle (by rw [hphase]; rfl)
    | cons call todo =>
      cases call with
      | enqueueRead rqe =>
        refine .test _ todo hphase fun d hd => ?_
        split at hd
        · cases hd
        · next hroom =>
          obtain rfl : Side.read = d := Option.some.inj hd
          exact Nat.not_le.mp fun hfull => hroom (decide_eq_true hfull)
      | enqueueWrite wqe =>
        refine .test _ todo hphase fun d hd => ?_
        split at hd
        · cases hd
        · next hroom =>
          obtain rfl : Side.write = d := Option.some.inj hd
          exact Nat.not_le.mp fun hfull => hroom (decide_eq_true hfull)
      | iterateWrite =>
        refine .test _ todo hphase fun d hd => ?_
        split at hd <;> cases hd
      | iterateRead =>
        dsimp only
        split
        · exact .test .between todo hphase fun d hd => by cases hd
        · refine .take _ todo (by rw [hphase]; rfl) rfl fun d => ?_
          cases d with
          | read => exact Nat.zero_le _
          | write => exact Nat.le_refl _

/-! ## Nobody is overtaken -/

/-- The step of `i` overtakes nobody: it does not push to a queue for which another caller is between
its test and its push. -/
def OvertakesNobody (s : SharedCache ι cfg) (i : ι) : Prop :=
  ∀ d, pushesTo (s.callers i).phase = some d →
    ∀ j, j ≠ i → pushesTo (s.callers j).phase ≠ some d

/-- In no step of the schedule a caller is overtaken. -/
def NoOvertaking : SharedCache ι cfg → List ι → Prop
  | _, [] => True
  | s, i :: schedule => OvertakesNobody s i ∧ NoOvertaking (s.step i).1 schedule

/-- Neither queue holds more than `n_queuesz` requests. -/
def Bounded (c : CoqAssemblyCache cfg) : Prop := ∀ d : Side, d.queued c ≤ c.nQueuesz

/-- The queues are bounded, and there is room for each caller that has passed its test. -/
structure HasRoom (s : SharedCache ι cfg) : Prop where
  bounded : Bounded s.cache
  room : ∀ d i, pushesTo (s.callers i).phase = some d → d.queued s.cache < s.cache.nQueuesz

/-- A step that adds no request, and lets one pass the test only if there is room for it. -/
theorem HasRoom.put {s : SharedCache ι cfg} (h : HasRoom s) (i : ι) {cache : CoqAssemblyCache cfg}
    {phase : Phase} (todo : List QueueCall) (hsize : cache.nQueuesz = s.cache.nQueuesz)
    (hqueued : ∀ d : Side, d.queued cache ≤ d.queued s.cache)
    (hphase : ∀ d, pushesTo phase = some d → d.queued s.cache < s.cache.nQueuesz) :
    HasRoom (s.put i cache phase todo) := by
  refine ⟨fun d => ?_, fun d j hj => ?_⟩
  · change d.queued cache ≤ cache.nQueuesz
    rw [hsize]
    exact Nat.le_trans (hqueued d) (h.bounded d)
  · change d.queued cache < cache.nQueuesz
    rw [hsize]
    refine Nat.lt_of_le_of_lt (hqueued d) ?_
    by_cases hji : j = i
    · rw [hji, callers_put_self] at hj
      exact hphase d hj
    · rw [callers_put_of_ne s hji] at hj
      exact h.room d j hj

/-- A push that overtakes nobody. -/
theorem HasRoom.push {s : SharedCache ι cfg} (h : HasRoom s) {i : ι} (halone : OvertakesNobody s i)
    {d : Side} (hpush : pushesTo (s.callers i).phase = some d) {cache : CoqAssemblyCache cfg}
    (todo : List QueueCall) (hsize : cache.nQueuesz = s.cache.nQueuesz)
    (hmine : d.queued cache = d.queued s.cache + 1)
    (hother : ∀ d', d' ≠ d → d'.queued cache = d'.queued s.cache) :
    HasRoom (s.put i cache .between todo) := by
  refine ⟨fun d' => ?_, fun d' j hj => ?_⟩
  · change d'.queued cache ≤ cache.nQueuesz
    rw [hsize]
    by_cases hd : d' = d
    · rw [hd, hmine]
      exact h.room d i hpush
    · rw [hother d' hd]
      exact h.bounded d'
  · change d'.queued cache < cache.nQueuesz
    by_cases hji : j = i
    · rw [hji, callers_put_self] at hj
      cases hj
    · rw [callers_put_of_ne s hji] at hj
      have hd : d' ≠ d := fun heq => halone d hpush j hji (heq ▸ hj)
      rw [hsize, hother d' hd]
      exact h.room d' j hj

/-- **A step that overtakes nobody keeps the room.** -/
theorem HasRoom.step {s : SharedCache ι cfg} (h : HasRoom s) {i : ι} (halone : OvertakesNobody s i) :
    HasRoom (s.step i).1 := by
  have hmoves := step_moves s i
  generalize (s.step i).1 = s' at hmoves ⊢
  cases hmoves with
  | idle => exact h
  | push d cache todo hpush hsize hmine hother => exact h.push halone hpush todo hsize hmine hother
  | test phase todo _ hroom => exact h.put i todo rfl (fun _ => Nat.le_refl _) hroom
  | take cache todo _ hsize hqueued => exact h.put i todo hsize hqueued fun d hd => by cases hd

/-- A push adds one request, and moves nobody else. -/
theorem step_pushes {s : SharedCache ι cfg} {i : ι} {d : Side}
    (hpush : pushesTo (s.callers i).phase = some d) :
    d.queued (s.step i).1.cache = d.queued s.cache + 1 ∧
      ∀ j, j ≠ i → (s.step i).1.callers j = s.callers j := by
  have hmoves := step_moves s i
  generalize (s.step i).1 = s' at hmoves ⊢
  cases hmoves with
  | idle hphase => cases hphase.symm.trans hpush
  | test phase todo hbetween _ =>
    rw [hbetween] at hpush
    cases hpush
  | take cache todo hphase _ _ => cases hphase.symm.trans hpush
  | push d' cache todo hpush' _ hmine _ =>
    obtain rfl := Option.some.inj (hpush'.symm.trans hpush)
    exact ⟨hmine, fun j hj => callers_put_of_ne s hj _ _ _⟩

/-! ## Schedules -/

/-- A schedule in two parts is run one part after the other. -/
theorem schedule_append (s : SharedCache ι cfg) (schedule schedule' : List ι) :
    s.run (schedule ++ schedule') =
      (((s.run schedule).1.run schedule').1,
        (s.run schedule).2 ++ ((s.run schedule).1.run schedule').2) := by
  induction schedule generalizing s with
  | nil => rfl
  | cons i schedule ih =>
    simp only [List.cons_append, SharedCache.run, ih, List.append_assoc]

/-- A schedule with one more step is the schedule and then the step. -/
theorem run_concat (s : SharedCache ι cfg) (schedule : List ι) (i : ι) :
    s.run (schedule ++ [i]) =
      (((s.run schedule).1.step i).1, (s.run schedule).2 ++ ((s.run schedule).1.step i).2) := by
  rw [schedule_append]
  simp only [SharedCache.run, List.append_nil]

/-- **A schedule is a run of each queue.** -/
theorem run_traces (s : SharedCache ι cfg) (schedule : List ι) :
    (s.run schedule).1.cache.nQueuesz = s.cache.nQueuesz ∧
    Trace SharedQueue.Step s.cache.readqueue (readEvents (s.run schedule).2)
      (s.run schedule).1.cache.readqueue ∧
    Trace SharedQueue.Step s.cache.writequeue (writeEvents (s.run schedule).2)
      (s.run schedule).1.cache.writequeue := by
  induction schedule using List.reverseRecOn with
  | nil => exact ⟨rfl, Trace.refl _, Trace.refl _⟩
  | append_singleton schedule i ih =>
    obtain ⟨hsz, hread, hwrite⟩ := ih
    have heffect := step_effect (s.run schedule).1 i
    rw [run_concat]
    refine ⟨heffect.nQueuesz.trans hsz, ?_, ?_⟩
    · rw [readEvents_append]
      exact hread.tail heffect.readqueue
    · rw [writeEvents_append]
      exact hwrite.tail heffect.writequeue

/-- In a schedule without overtaking the queues are bounded, also before its end. -/
theorem NoOvertaking.bounded {s : SharedCache ι cfg} {schedule : List ι}
    (h : NoOvertaking s schedule) (hs : HasRoom s) {pre : List ι} (hpre : pre <+: schedule) :
    Bounded (s.run pre).1.cache := by
  induction schedule generalizing s pre with
  | nil =>
    rw [List.prefix_nil.mp hpre]
    exact hs.bounded
  | cons i schedule ih =>
    rcases List.prefix_cons_iff.mp hpre with rfl | ⟨pre', rfl, hpre'⟩
    · exact hs.bounded
    · exact ih h.2 (hs.step h.1) hpre'

/-- Overtaking for the last place makes the queue too long. -/
theorem queued_of_overtaken {s : SharedCache ι cfg} {i j : ι} (hij : i ≠ j) {d : Side}
    (hi : pushesTo (s.callers i).phase = some d) (hj : pushesTo (s.callers j).phase = some d) :
    d.queued (s.run [j, i]).1.cache = d.queued s.cache + 2 := by
  obtain ⟨hfirst, hothers⟩ := step_pushes hj
  have hi' : pushesTo ((s.step j).1.callers i).phase = some d := by rw [hothers i hij, hi]
  have hsecond := (step_pushes hi').1
  change d.queued ((s.step j).1.step i).1.cache = _
  rw [hsecond, hfirst]

/-- **The queues under interleaving**, for any number of callers and any schedule: every accepted
request is handed to one drain, in push order, or still in its queue.  If nobody pushes to a queue
between the test and the push of another caller, no queue ever holds more than `n_queuesz` requests.
If somebody does, and takes the last place, the queue holds one request more as soon as the other
caller goes on. -/
theorem sharedQueues_bounded (cfg : CoqConfiguration) (nEnvs depth : ℕ) (keys : CoqKeyStore)
    (fblocks : CoqFBlockStore) (finfos : CoqFInfoStore) (programs : ι → List QueueCall)
    (schedule : List ι) :
    let s₀ := SharedCache.start (CoqAssemblyCache.init cfg nEnvs depth keys fblocks finfos) programs
    let s := s₀.run schedule
    SharedQueue.pushes (readEvents s.2) =
        (SharedQueue.takes (readEvents s.2)).flatten ++ s.1.cache.readqueue ∧
      SharedQueue.pushes (writeEvents s.2) =
        (SharedQueue.takes (writeEvents s.2)).flatten ++ s.1.cache.writequeue ∧
      (NoOvertaking s₀ schedule → ∀ pre, pre <+: schedule → Bounded (s₀.run pre).1.cache) ∧
      ∀ i j, i ≠ j → ∀ d : Side, pushesTo (s.1.callers i).phase = some d →
        pushesTo (s.1.callers j).phase = some d → d.queued s.1.cache + 1 = depth →
        d.queued (s₀.run (schedule ++ [j, i])).1.cache = depth + 1 := by
  intro s₀ s
  obtain ⟨-, hread, hwrite⟩ := run_traces s₀ schedule
  refine ⟨SharedQueue.pushes_eq hread, SharedQueue.pushes_eq hwrite, fun hno pre hpre => ?_,
    fun i j hij d hi hj hlast => ?_⟩
  · refine hno.bounded ⟨fun d => ?_, fun d i hi => ?_⟩ hpre
    · cases d <;> exact Nat.zero_le _
    · cases hi
  · rw [schedule_append]
    have htwo := queued_of_overtaken hij hi hj
    change d.queued (s.1.run [j, i]).1.cache = depth + 1
    omega

/-- Two callers, one after the other, with queues for one request: the second is turned away. -/
theorem sharedQueues_bounded_simple :
    let wqe : WriteQueueEntity := ⟨Vector.replicate 32 0, 0, none⟩
    let s₀ := SharedCache.start (CoqAssemblyCache.init config16 1 1 ∅ ∅ ∅)
      fun _ : Bool => [.enqueueWrite wqe]
    ∀ pre, pre <+: [true, true, false, false] → Bounded (s₀.run pre).1.cache := by
  intro wqe s₀
  have halone : NoOvertaking s₀ [true, true, false, false] := by
    refine ⟨?_, ?_, ?_, ?_, trivial⟩
    · rintro d ⟨⟩
    · -- the other caller has not begun
      intro d _ j hj
      obtain rfl : j = false := by simpa using hj
      rintro ⟨⟩
    · rintro d ⟨⟩
    · rintro d ⟨⟩
  exact (sharedQueues_bounded config16 1 1 ∅ ∅ ∅ _ _).2.2.1 halone

/-- Two callers pass the test of a queue for one request before one of them pushes. -/
theorem sharedQueues_counterexample :
    let wqe : WriteQueueEntity := ⟨Vector.replicate 32 0, 0, none⟩
    let s := (SharedCache.start (CoqAssemblyCache.init config16 1 1 ∅ ∅ ∅)
      fun _ : Bool => [.enqueueWrite wqe]).run [true, false, true, false]
    ¬ Bounded s.1.cache := by
  intro wqe s h
  exact absurd (h .write) (by decide)

end Elykseer.Analysis
