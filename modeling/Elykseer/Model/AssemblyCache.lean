import Elykseer.Model.Environment
import Elykseer.Model.Store

/-!
# The assembly cache

Read environments, at most one write environment, the two bounded queues and the three
stores, which are registered right after construction.  The numbers of environments and
of queue entries are positive `int`s.

A `Session` is a cache together with the world its operations change.  `Op` lists the
operations a caller has, and `run` performs a sequence of them.
-/

set_option autoImplicit false

namespace Elykseer.Model

variable {cfg : CoqConfiguration}

/-- `ReadQueueEntity` -/
structure ReadQueueEntity where
  aid : Bytes
  apos : ℕ
  rlen : ℕ
  fpos : ℕ
  chksum : Key256
  deriving DecidableEq

/-- The block a read request asks for. -/
def ReadQueueEntity.block (rreq : ReadQueueEntity) : BlockInformation :=
  ⟨1, rreq.chksum, rreq.rlen, 0, rreq.aid, rreq.apos⟩

/-- `ReadQueueResult`; no buffer if the block failed its checksum -/
structure ReadQueueResult where
  readrequest : ReadQueueEntity
  rresult : Option (CoqBuffer .plain)

/-- `WriteQueueEntity` -/
structure WriteQueueEntity where
  fhash : Key256
  fpos : ℕ
  buffer : Option (CoqBuffer .plain)

/-- `CoqAssemblyCache` -/
structure CoqAssemblyCache (cfg : CoqConfiguration) where
  readenvs : List (CoqEnvironmentReadable cfg)
  nReadenvs : ℕ
  writeenv : Option (CoqEnvironmentWritable cfg)
  /-- an `int` that the size tests convert to `size_t`; here the converted value -/
  nQueuesz : ℕ
  readqueue : List ReadQueueEntity
  writequeue : List WriteQueueEntity
  keystore : CoqKeyStore
  fblockstore : CoqFBlockStore
  finfostore : CoqFInfoStore
  backupBytes : ℕ
  restoredBytes : ℕ
  nReadRequests : ℕ
  nWriteRequests : ℕ
  nIterateReads : ℕ
  nIterateWrites : ℕ
  nAssemblyFinalised : ℕ
  nAssemblyRecalled : ℕ

/-- `CoqAssemblyCache(c, n_envs, depth)` with the stores registered -/
def CoqAssemblyCache.init (cfg : CoqConfiguration) (nEnvs depth : ℕ) (keys : CoqKeyStore)
    (fblocks : CoqFBlockStore) (finfos : CoqFInfoStore) : CoqAssemblyCache cfg where
  readenvs := []
  nReadenvs := nEnvs
  writeenv := none
  nQueuesz := depth
  readqueue := []
  writequeue := []
  keystore := keys
  fblockstore := fblocks
  finfostore := finfos
  backupBytes := 0
  restoredBytes := 0
  nReadRequests := 0
  nWriteRequests := 0
  nIterateReads := 0
  nIterateWrites := 0
  nAssemblyFinalised := 0
  nAssemblyRecalled := 0

/-- A cache and the world around it. -/
structure Session (cfg : CoqConfiguration) where
  cache : CoqAssemblyCache cfg
  world : World

namespace Session

/-- A new cache in a world. -/
def init (cfg : CoqConfiguration) (nEnvs depth : ℕ) (keys : CoqKeyStore)
    (fblocks : CoqFBlockStore) (finfos : CoqFInfoStore) (w : World) : Session cfg :=
  ⟨CoqAssemblyCache.init cfg nEnvs depth keys fblocks finfos, w⟩

/-! ## Reading -/

/-- `try_restore_assembly(sel_aid)` -/
def tryRestoreAssembly (C : Crypto) (H : Host) (s : Session cfg) (selAid : Bytes) :
    Session cfg × Option (CoqEnvironmentReadable cfg) :=
  match CoqStore.find s.cache.keystore selAid with
  | none => (s, none)
  | some ki =>
    let r := (CoqEnvironmentReadable.init cfg).restoreAssembly C H s.world selAid ki
    if r.2.2 then
      (⟨{ s.cache with nAssemblyRecalled := (s.cache.nAssemblyRecalled + 1) % 4294967296 },
        r.2.1⟩, some r.1)
    else (⟨s.cache, r.2.1⟩, none)

/-- `match_aid` -/
def matchAid (selAid : Bytes) (e : CoqEnvironmentReadable cfg) : Bool :=
  match e.assembly with
  | none => false
  | some a => a.aid = selAid

/-- `ensure_assembly(sel_aid)` -/
def ensureAssembly (C : Crypto) (H : Host) (s : Session cfg) (selAid : Bytes) :
    Session cfg × Option (CoqEnvironmentReadable cfg) :=
  match s.cache.readenvs.findIdx? (matchAid selAid) with
  | some 0 => (s, s.cache.readenvs.head?)
  | some i =>
    match s.cache.readenvs[i]? with
    | none => (s, none)
    | some found =>
      (⟨{ s.cache with readenvs := found :: s.cache.readenvs.eraseIdx i }, s.world⟩, some found)
  | none =>
    let r := s.tryRestoreAssembly C H selAid
    match r.2 with
    | none => (r.1, none)
    | some env =>
      let old := r.1.cache.readenvs
      let kept := if r.1.cache.nReadenvs ≤ old.length ∧ old ≠ [] then old.dropLast else old
      (⟨{ r.1.cache with readenvs := env :: kept }, r.1.world⟩, some env)

/-- `enqueue_read_request(rqe)` -/
def enqueueReadRequest (s : Session cfg) (rqe : ReadQueueEntity) : Session cfg × Bool :=
  if s.cache.nQueuesz ≤ s.cache.readqueue.length then (s, false)
  else
    (⟨{ s.cache with
        nIterateReads := (s.cache.nIterateReads + 1) % 4294967296
        readqueue := s.cache.readqueue ++ [rqe] }, s.world⟩, true)

/-- `run_read_requests(rreqs)`, with the results so far -/
def runReadRequests (C : Crypto) (H : Host) :
    Session cfg → List ReadQueueResult → List ReadQueueEntity →
      Except Fault (Session cfg × List ReadQueueResult)
  | s, results, [] => .ok (s, results)
  | s, results, rreq :: rest =>
    let r := s.ensureAssembly C H rreq.aid
    match r.2.bind (·.assembly) with
    | none => .ok (r.1, results)
    | some a =>
      match a.restore C rreq.block with
      | .error f => .error f
      | .ok rresult =>
        let cache := { r.1.cache with
          restoredBytes := (r.1.cache.restoredBytes + (rresult.elim 0 (·.len))) %
            18446744073709551616
          nReadRequests := (r.1.cache.nReadRequests + 1) % 4294967296 }
        runReadRequests C H ⟨cache, r.1.world⟩ (results ++ [⟨rreq, rresult⟩]) rest

/-- `iterate_read_queue()` -/
def iterateReadQueue (C : Crypto) (H : Host) (s : Session cfg) :
    Except Fault (Session cfg × List ReadQueueResult) :=
  if s.cache.readqueue = [] then .ok (s, [])
  else
    let cache := { s.cache with
      nIterateReads := (s.cache.nIterateReads + 1) % 4294967296
      readqueue := [] }
    runReadRequests C H ⟨cache, s.world⟩ [] s.cache.readqueue

/-! ## Writing -/

/-- `enqueue_write_request(wqe)` -/
def enqueueWriteRequest (s : Session cfg) (wqe : WriteQueueEntity) : Session cfg × Bool :=
  if s.cache.nQueuesz ≤ s.cache.writequeue.length then (s, false)
  else
    (⟨{ s.cache with
        nWriteRequests := (s.cache.nWriteRequests + 1) % 4294967296
        writequeue := s.cache.writequeue ++ [wqe] }, s.world⟩, true)

/-- The write environment, made with a new assembly if there is none. -/
def ensureWriteenv (C : Crypto) (H : Host) (s : Session cfg) :
    CoqEnvironmentWritable cfg × World :=
  match s.cache.writeenv with
  | none => (CoqEnvironmentWritable.init cfg).recreateAssembly C H s.world
  | some e => (e, s.world)

/-- One round of `run_write_requests`. -/
def runWriteRequest (C : Crypto) (H : Host) (s : Session cfg) (wreq : WriteQueueEntity) :
    Except Fault (Session cfg) :=
  let ew := s.ensureWriteenv C H
  match wreq.buffer with
  | none => .ok ⟨{ s.cache with writeenv := some ew.1 }, ew.2⟩
  | some b =>
    match ew.1.backup C H ew.2 (C.toHex256 wreq.fhash) wreq.fpos b b.len with
    | .error f => .error f
    | .ok (e, w, fbs, kis) =>
      .ok ⟨{ s.cache with
          writeenv := some e
          fblockstore := fbs.foldl (fun st fb => CoqFBlockStore.add st fb.1 fb.2)
            s.cache.fblockstore
          keystore := kis.foldl (fun st ki => CoqKeyStore.add st ki.1 ki.2) s.cache.keystore
          backupBytes := (s.cache.backupBytes + b.len) % 18446744073709551616 }, w⟩

/-- `run_write_requests(wreqs)` -/
def runWriteRequests (C : Crypto) (H : Host) :
    Session cfg → List WriteQueueEntity → Except Fault (Session cfg)
  | s, [] => .ok s
  | s, wreq :: rest =>
    match s.runWriteRequest C H wreq with
    | .error f => .error f
    | .ok s' => runWriteRequests C H s' rest

/-- `iterate_write_queue()` -/
def iterateWriteQueue (C : Crypto) (H : Host) (s : Session cfg) : Except Fault (Session cfg) :=
  if s.cache.writequeue = [] then .ok s
  else
    let cache := { s.cache with
      nIterateWrites := (s.cache.nIterateWrites + 1) % 4294967296
      writequeue := [] }
    runWriteRequests C H ⟨cache, s.world⟩ s.cache.writequeue

/-- The key store after a finalised assembly. -/
def addKey (keys : CoqKeyStore) (okey : Option (Bytes × KeyInformation)) : CoqKeyStore :=
  match okey with
  | none => keys
  | some k => CoqKeyStore.add keys k.1 k.2

/-- `flush()`; without a write environment the null pointer is dereferenced. -/
def flush (C : Crypto) (H : Host) (s : Session cfg) : Except Fault (Session cfg) :=
  match s.cache.writeenv with
  | none => .error .nullDereference
  | some e =>
    let r := e.finaliseAndRecreateAssembly C H s.world
    .ok ⟨{ s.cache with
        writeenv := some r.1
        nAssemblyFinalised := (s.cache.nAssemblyFinalised + 1) % 4294967296
        keystore := addKey s.cache.keystore r.2.2 }, r.2.1⟩

/-- `close()` -/
def close (C : Crypto) (H : Host) (s : Session cfg) : Session cfg :=
  match s.cache.writeenv with
  | none => s
  | some e =>
    let r := e.finaliseAssembly C H s.world
    ⟨{ s.cache with
        writeenv := some r.1
        nAssemblyFinalised := (s.cache.nAssemblyFinalised + 1) % 4294967296
        keystore := addKey s.cache.keystore r.2.2 }, r.2.1⟩

/-- `n_assembly_failed` of `metrics()` -/
def nAssemblyFailed (s : Session cfg) : ℕ :=
  match s.cache.writeenv with
  | none => 0
  | some e => e.nFailed

/-! ## Metrics -/

/-- A value of `metrics()`. -/
inductive Metric
  | count (n : ℕ)
  | text (t : Bytes)
  deriving DecidableEq

/-- Identifiers, comma separated and in brackets. -/
def aidList (aids : List Bytes) : Bytes := ascii "[" ++ (ascii ", ").intercalate aids ++ ascii "]"

/-- `metrics()` -/
def metrics (s : Session cfg) : List (Bytes × Metric) :=
  [(ascii "backup_bytes", .count s.cache.backupBytes),
    (ascii "restored_bytes", .count s.cache.restoredBytes),
    (ascii "n_read_requests", .count s.cache.nReadRequests),
    (ascii "n_write_requests", .count s.cache.nWriteRequests),
    (ascii "n_iterate_reads", .count s.cache.nIterateReads),
    (ascii "n_iterate_writes", .count s.cache.nIterateWrites),
    (ascii "n_read_environments", .count (s.cache.readenvs.length % 4294967296)),
    (ascii "n_write_environments", .count (if s.cache.writeenv.isSome then 1 else 0)),
    (ascii "n_assembly_finalised", .count s.cache.nAssemblyFinalised),
    (ascii "n_assembly_failed", .count s.nAssemblyFailed),
    (ascii "n_assembly_recalled", .count s.cache.nAssemblyRecalled),
    (ascii "len_read_queue", .count (s.cache.readqueue.length % 4294967296)),
    (ascii "len_write_queue", .count (s.cache.writequeue.length % 4294967296)),
    (ascii "read_aid_list", .text (aidList
      (s.cache.readenvs.filterMap fun e => e.assembly.map (·.aid)))),
    (ascii "write_aid_list", .text (aidList
      ((s.cache.writeenv.bind (·.assembly)).toList.map (·.aid))))]

end Session

/-! ## Sequences of operations -/

/-- An operation of the cache. -/
inductive Op
  | enqueueRead (rqe : ReadQueueEntity)
  | enqueueWrite (wqe : WriteQueueEntity)
  | iterateRead
  | iterateWrite
  | flush
  | close

/-- What an operation returns. -/
inductive Answer
  | accepted (ok : Bool)
  | results (rs : List ReadQueueResult)
  | done

namespace Session

/-- One operation. -/
def step (C : Crypto) (H : Host) (s : Session cfg) : Op → Except Fault (Session cfg × Answer)
  | .enqueueRead rqe =>
    let r := s.enqueueReadRequest rqe
    .ok (r.1, .accepted r.2)
  | .enqueueWrite wqe =>
    let r := s.enqueueWriteRequest wqe
    .ok (r.1, .accepted r.2)
  | .iterateRead => (s.iterateReadQueue C H).map fun r => (r.1, .results r.2)
  | .iterateWrite => (s.iterateWriteQueue C H).map fun s' => (s', .done)
  | .flush => (s.flush C H).map fun s' => (s', .done)
  | .close => .ok (s.close C H, .done)

/-- A sequence of operations, each with its answer. -/
def run (C : Crypto) (H : Host) :
    Session cfg → List Op → Except Fault (Session cfg × List (Op × Answer))
  | s, [] => .ok (s, [])
  | s, op :: ops =>
    match s.step C H op with
    | .error f => .error f
    | .ok (s', answer) =>
      match run C H s' ops with
      | .error f => .error f
      | .ok (s'', answers) => .ok (s'', (op, answer) :: answers)

end Session

/-- A call of a cache: an operation, or a look at the metrics. -/
inductive Call
  | op (op : Op)
  | metrics

/-- What a call returns. -/
inductive Returned
  | answer (a : Answer)
  | metrics (m : List (Bytes × Session.Metric))

namespace Session

/-- One call. -/
def call (C : Crypto) (H : Host) (s : Session cfg) : Call → Except Fault (Session cfg × Returned)
  | .op op => (s.step C H op).map fun r => (r.1, .answer r.2)
  | .metrics => .ok (s, .metrics s.metrics)

/-- A sequence of calls, with what each returns. -/
def calls (C : Crypto) (H : Host) :
    Session cfg → List Call → Except Fault (Session cfg × List Returned)
  | s, [] => .ok (s, [])
  | s, c :: cs =>
    match s.call C H c with
    | .error f => .error f
    | .ok (s', r) =>
      match calls C H s' cs with
      | .error f => .error f
      | .ok (s'', rs) => .ok (s'', r :: rs)

end Session

end Elykseer.Model
