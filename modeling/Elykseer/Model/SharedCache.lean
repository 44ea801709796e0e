import Mathlib.Logic.Function.Basic
import Elykseer.Foundation.SharedQueue
import Elykseer.Model.AssemblyCache

/-!
# A cache with several callers

The queues of one cache under any number of callers.  A call is made of steps:
`enqueue_read_request` and `enqueue_write_request` test the size of the queue without
the lock and push with it, `iterate_write_queue` tests for an empty queue without the
lock and takes the queue with it, `iterate_read_queue` does both with the lock.  A
schedule says who makes the next step.  What the requests taken do to the rest of the
cache is left out; it does not touch the queues.
-/

set_option autoImplicit false

namespace Elykseer.Model

open Elykseer.Foundation

variable {cfg : CoqConfiguration}

namespace CoqAssemblyCache

/-- The size test of `enqueue_read_request`. -/
def isReadqueueFull (c : CoqAssemblyCache cfg) : Bool := c.nQueuesz ≤ c.readqueue.length

/-- The push of `enqueue_read_request`. -/
def pushRead (c : CoqAssemblyCache cfg) (rqe : ReadQueueEntity) : CoqAssemblyCache cfg :=
  { c with
    nIterateReads := (c.nIterateReads + 1) % 4294967296
    readqueue := c.readqueue ++ [rqe] }

/-- The copy and clear of `iterate_read_queue`. -/
def takeReads (c : CoqAssemblyCache cfg) : CoqAssemblyCache cfg × List ReadQueueEntity :=
  ({ c with
    nIterateReads := (c.nIterateReads + 1) % 4294967296
    readqueue := [] }, c.readqueue)

/-- The size test of `enqueue_write_request`. -/
def isWritequeueFull (c : CoqAssemblyCache cfg) : Bool := c.nQueuesz ≤ c.writequeue.length

/-- The push of `enqueue_write_request`. -/
def pushWrite (c : CoqAssemblyCache cfg) (wqe : WriteQueueEntity) : CoqAssemblyCache cfg :=
  { c with
    nWriteRequests := (c.nWriteRequests + 1) % 4294967296
    writequeue := c.writequeue ++ [wqe] }

/-- The copy and clear of `iterate_write_queue`. -/
def takeWrites (c : CoqAssemblyCache cfg) : CoqAssemblyCache cfg × List WriteQueueEntity :=
  ({ c with
    nIterateWrites := (c.nIterateWrites + 1) % 4294967296
    writequeue := [] }, c.writequeue)

end CoqAssemblyCache

/-- A call that uses a queue. -/
inductive QueueCall
  | enqueueRead (rqe : ReadQueueEntity)
  | enqueueWrite (wqe : WriteQueueEntity)
  | iterateRead
  | iterateWrite

/-- Where a caller is: between two calls, or inside of one behind its test. -/
inductive Phase
  | between
  | pushRead (rqe : ReadQueueEntity)
  | pushWrite (wqe : WriteQueueEntity)
  | takeWrites

/-- A caller, with the calls it is going to make. -/
structure Caller where
  phase : Phase
  todo : List QueueCall

/-- What happens to the queues; an `enqueue` returns true exactly if it pushes. -/
inductive QueueEvent
  | read (e : SharedQueue.Event ReadQueueEntity)
  | write (e : SharedQueue.Event WriteQueueEntity)

/-- A cache and its callers. -/
structure SharedCache (ι : Type) (cfg : CoqConfiguration) where
  cache : CoqAssemblyCache cfg
  callers : ι → Caller

namespace SharedCache

variable {ι : Type} [DecidableEq ι]

/-- Nobody has made a step yet. -/
def start (cache : CoqAssemblyCache cfg) (programs : ι → List QueueCall) : SharedCache ι cfg :=
  ⟨cache, fun i => ⟨.between, programs i⟩⟩

/-- The cache after a step of `i`, and where `i` is then. -/
def put (s : SharedCache ι cfg) (i : ι) (cache : CoqAssemblyCache cfg) (phase : Phase)
    (todo : List QueueCall) : SharedCache ι cfg :=
  ⟨cache, Function.update s.callers i ⟨phase, todo⟩⟩

/-- The next step of caller `i`. -/
def step (s : SharedCache ι cfg) (i : ι) : SharedCache ι cfg × List QueueEvent :=
  match s.callers i with
  | ⟨.pushRead rqe, todo⟩ =>
    (s.put i (s.cache.pushRead rqe) .between todo, [.read (.pushed rqe)])
  | ⟨.pushWrite wqe, todo⟩ =>
    (s.put i (s.cache.pushWrite wqe) .between todo, [.write (.pushed wqe)])
  | ⟨.takeWrites, todo⟩ =>
    (s.put i s.cache.takeWrites.1 .between todo, [.write (.taken s.cache.takeWrites.2)])
  | ⟨.between, []⟩ => (s, [])
  | ⟨.between, .enqueueRead rqe :: todo⟩ =>
    (s.put i s.cache (if s.cache.isReadqueueFull then .between else .pushRead rqe) todo, [])
  | ⟨.between, .enqueueWrite wqe :: todo⟩ =>
    (s.put i s.cache (if s.cache.isWritequeueFull then .between else .pushWrite wqe) todo, [])
  | ⟨.between, .iterateRead :: todo⟩ =>
    if s.cache.readqueue = [] then (s.put i s.cache .between todo, [])
    else (s.put i s.cache.takeReads.1 .between todo, [.read (.taken s.cache.takeReads.2)])
  | ⟨.between, .iterateWrite :: todo⟩ =>
    (s.put i s.cache (if s.cache.writequeue = [] then .between else .takeWrites) todo, [])

/-- The steps of a schedule, and what happens to the queues. -/
def run (s : SharedCache ι cfg) : List ι → SharedCache ι cfg × List QueueEvent
  | [] => (s, [])
  | i :: schedule =>
    let r := s.step i
    let r' := run r.1 schedule
    (r'.1, r.2 ++ r'.2)

end SharedCache

end Elykseer.Model
