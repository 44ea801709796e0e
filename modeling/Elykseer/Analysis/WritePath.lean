import Elykseer.Analysis.ReadCache
import Elykseer.Foundation.Trace

/-!
# The write path

`WriteSide` is what writing works on: the write environment, the world, the keys and the
blocks.  `WriteStep` lists its transitions, each with the blocks it records; every
operation of a session is a run of them (`runWriteRequests_trace`, `flush_trace`,
`close_trace`, and `ReadOnly.trace` for reading).  Invariants of the write path are
proved for `WriteStep`, once.

A request records its block if the environment is open, that is, absent or with an
assembly; else it is lost (`runWriteRequest_trace`).
-/

set_option autoImplicit false

namespace Elykseer.Analysis

open Elykseer.Model Elykseer.Foundation

variable {C : Crypto} {H : Host} {cfg : CoqConfiguration}

/-- A block that has been recorded: under which name, for which bytes at which file position, and
where they lie. -/
structure Entry where
  fname : Bytes
  fpos : ℕ
  data : Bytes
  aid : Bytes
  apos : ℕ

/-- A block without the place where it lies. -/
structure Wanted where
  fname : Bytes
  fpos : ℕ
  data : Bytes
  deriving DecidableEq

/-- What was wanted when the block was recorded. -/
def Entry.wanted (x : Entry) : Wanted := ⟨x.fname, x.fpos, x.data⟩

/-- The record of a block; an empty one has the blank record. -/
def Entry.record (C : Crypto) (x : Entry) : BlockInformation :=
  if x.data = [] then { BlockInformation.blank C with filepos := x.fpos }
  else blockRecord C x.aid x.apos x.fpos x.data

/-- What writing works on. -/
structure WriteSide (cfg : CoqConfiguration) where
  env : Option (CoqEnvironmentWritable cfg)
  world : World
  keys : CoqKeyStore
  blocks : CoqFBlockStore

/-- The write side of a session. -/
def writeSide (s : Session cfg) : WriteSide cfg :=
  ⟨s.cache.writeenv, s.world, s.cache.keystore, s.cache.fblockstore⟩

/-- The assembly that is being filled. -/
def WriteSide.current (s : WriteSide cfg) : Option (CoqAssemblyPlainWritable cfg) :=
  s.env.bind (·.assembly)

/-- The write environment is absent or has an assembly. -/
def WriteSide.isOpen (s : WriteSide cfg) : Bool := s.env.all fun e => e.assembly.isSome

/-- The assembly that is being filled has its next position in the data area. -/
def WriteSide.Fitting (s : WriteSide cfg) : Prop := ∀ a, s.current = some a → Fits a

/-- The transitions of the write path. -/
inductive WriteStep (C : Crypto) (H : Host) :
    WriteSide cfg → List Entry → WriteSide cfg → Prop
  /-- an environment is made, with a new assembly -/
  | create (w : World) (keys : CoqKeyStore) (blocks : CoqFBlockStore) :
      WriteStep C H ⟨none, w, keys, blocks⟩ []
        ⟨some ⟨some (newAssembly C H cfg w.nassembly), 0⟩,
          { w with nassembly := w.nassembly + 1 }, keys, blocks⟩
  /-- a block is written to the assembly and recorded -/
  | append (a a' : CoqAssemblyPlainWritable cfg) (nFailed : ℕ) (w : World) (keys : CoqKeyStore)
      (blocks : CoqFBlockStore) (fname : Bytes) (fpos : ℕ) (d : Bytes) (hd : d ≠ [])
      (hroom : a.apos + d.length ≤ dataEnd cfg.nchunks) (happ : Appended a a' d) :
      WriteStep C H ⟨some ⟨some a, nFailed⟩, w, keys, blocks⟩ [⟨fname, fpos, d, a.aid, a.apos⟩]
        ⟨some ⟨some a', nFailed⟩, w, keys,
          CoqFBlockStore.add blocks fname (Entry.record C ⟨fname, fpos, d, a.aid, a.apos⟩)⟩
  /-- an empty block is recorded -/
  | blank (a : CoqAssemblyPlainWritable cfg) (nFailed : ℕ) (w : World) (keys : CoqKeyStore)
      (blocks : CoqFBlockStore) (fname : Bytes) (fpos : ℕ) :
      WriteStep C H ⟨some ⟨some a, nFailed⟩, w, keys, blocks⟩ [⟨fname, fpos, [], [], 0⟩]
        ⟨some ⟨some a, nFailed⟩, w, keys,
          CoqFBlockStore.add blocks fname (Entry.record C ⟨fname, fpos, [], [], 0⟩)⟩
  /-- the assembly is finalised, and its key added -/
  | finalise (e e' : CoqEnvironmentWritable cfg) (w w' : World) (keys : CoqKeyStore)
      (blocks : CoqFBlockStore) (okey : Option (Bytes × KeyInformation))
      (h : FinaliseStep C H e w e' w' okey) :
      WriteStep C H ⟨some e, w, keys, blocks⟩ []
        ⟨some e', w', Session.addKey keys okey, blocks⟩
  /-- a new assembly where there is none -/
  | recreate (nFailed : ℕ) (w : World) (keys : CoqKeyStore) (blocks : CoqFBlockStore) :
      WriteStep C H ⟨some ⟨none, nFailed⟩, w, keys, blocks⟩ []
        ⟨some ⟨some (newAssembly C H cfg w.nassembly), nFailed⟩,
          { w with nassembly := w.nassembly + 1 }, keys, blocks⟩
  /-- the world changes, but no file and no count -/
  | quiet (env : Option (CoqEnvironmentWritable cfg)) (w w' : World) (keys : CoqKeyStore)
      (blocks : CoqFBlockStore) (h : World.ReadOnly w w') :
      WriteStep C H ⟨env, w, keys, blocks⟩ [] ⟨env, w', keys, blocks⟩

/-- A run of the write path. -/
abbrev WriteTrace (C : Crypto) (H : Host) :
    WriteSide cfg → List Entry → WriteSide cfg → Prop :=
  Trace (WriteStep C H)

/-! ## What every transition does -/

/-- No draw of an assembly is taken back. -/
theorem WriteStep.nassembly_le {s s' : WriteSide cfg} {es : List Entry}
    (h : WriteStep C H s es s') : s.world.nassembly ≤ s'.world.nassembly := by
  cases h with
  | finalise e e' w w' keys blocks okey h => exact Nat.le_of_eq h.nassembly_eq.symm
  | quiet env w w' keys blocks h => exact Nat.le_of_eq h.nassembly.symm
  | create w => exact Nat.le_succ _
  | recreate nFailed w => exact Nat.le_succ _
  | append => exact Nat.le_refl _
  | blank => exact Nat.le_refl _

/-- No draw for an encryption is taken back. -/
theorem WriteStep.nfinalise_le {s s' : WriteSide cfg} {es : List Entry}
    (h : WriteStep C H s es s') : s.world.nfinalise ≤ s'.world.nfinalise := by
  cases h with
  | finalise e e' w w' keys blocks okey h =>
    cases h with
    | absent => exact Nat.le_refl _
    | empty => exact Nat.le_refl _
    | failed => exact Nat.le_succ _
    | archived => exact Nat.le_succ _
  | quiet env w w' keys blocks h => exact Nat.le_of_eq h.nfinalise.symm
  | create => exact Nat.le_refl _
  | append => exact Nat.le_refl _
  | blank => exact Nat.le_refl _
  | recreate => exact Nat.le_refl _

/-- The assembly that is filled after a transition: the one before, perhaps with one more block, or
a new one. -/
inductive Filling (C : Crypto) (H : Host) (s s' : WriteSide cfg)
    (a' : CoqAssemblyPlainWritable cfg) : List Entry → Prop
  | same {es : List Entry} (h : s.current = some a')
      (hnum : s'.world.nassembly = s.world.nassembly) (hes : ∀ x ∈ es, x.data = []) :
      Filling C H s s' a' es
  | longer (a : CoqAssemblyPlainWritable cfg) (h : s.current = some a)
      (hnum : s'.world.nassembly = s.world.nassembly) (fname : Bytes) (fpos : ℕ) (d : Bytes)
      (hd : d ≠ []) (hroom : a.apos + d.length ≤ dataEnd cfg.nchunks) (happ : Appended a a' d) :
      Filling C H s s' a' [⟨fname, fpos, d, a.aid, a.apos⟩]
  | fresh (h : s.current = none) (hnum : s'.world.nassembly = s.world.nassembly + 1)
      (ha' : a' = newAssembly C H cfg s.world.nassembly) : Filling C H s s' a' []

/-- The assembly after a step is a new one, or the one from before with the blocks of the
step. -/
theorem WriteStep.filling {s s' : WriteSide cfg} {es : List Entry} (h : WriteStep C H s es s')
    {a' : CoqAssemblyPlainWritable cfg} (ha' : s'.current = some a') : Filling C H s s' a' es := by
  cases h with
  | create w keys blocks =>
    cases ha'
    exact .fresh rfl rfl rfl
  | append a a₁ nFailed w keys blocks fname fpos d hd hroom happ =>
    cases ha'
    refine .longer a ?_ ?_ fname fpos d hd hroom happ <;> rfl
  | blank a nFailed w keys blocks fname fpos =>
    refine .same ha' rfl fun x hx => ?_
    rw [List.mem_singleton.mp hx]
  | finalise e e' w w' keys blocks okey h =>
    have hsome : e'.assembly = some a' := ha'
    rw [h.assembly_eq] at hsome
    cases hsome
  | recreate nFailed w keys blocks =>
    cases ha'
    exact .fresh rfl rfl rfl
  | quiet env w w' keys blocks h => exact .same ha' h.nassembly (by simp)

/-- A step keeps the next position in the data area. -/
theorem WriteStep.fitting {s s' : WriteSide cfg} {es : List Entry} (h : WriteStep C H s es s')
    (hfit : s.Fitting) : s'.Fitting := by
  intro a' ha'
  cases h.filling ha' with
  | same ha => exact hfit a' ha
  | longer a ha hnum fname fpos d hd hroom happ => exact (hfit a ha).appended happ hroom
  | fresh hnone hnum heq =>
    rw [heq]
    exact fits_newAssembly s.world.nassembly

/-- A sequence of steps keeps the next position in the data area. -/
theorem WriteTrace.fitting {s s' : WriteSide cfg} {es : List Entry} (h : WriteTrace C H s es s')
    (hfit : s.Fitting) : s'.Fitting :=
  Trace.invariant_start (I := fun s _ => s.Fitting) (fun hI hs => hs.fitting hI) h hfit

/-- While an assembly is filled, no key, no file and no failure is new. -/
theorem WriteStep.undisturbed {s s' : WriteSide cfg} {es : List Entry} (h : WriteStep C H s es s')
    {a' : CoqAssemblyPlainWritable cfg} (ha' : s'.current = some a') :
    s'.keys = s.keys ∧ s'.world.fs.files = s.world.fs.files ∧
      failedAids s'.world.clog = failedAids s.world.clog := by
  cases h with
  | create => exact ⟨rfl, rfl, rfl⟩
  | append => exact ⟨rfl, rfl, rfl⟩
  | blank => exact ⟨rfl, rfl, rfl⟩
  | recreate => exact ⟨rfl, rfl, rfl⟩
  | quiet env w w' keys blocks h => exact ⟨rfl, h.files, h.failed⟩
  | finalise e e' w w' keys blocks okey h =>
    have hsome : e'.assembly = some a' := ha'
    rw [h.assembly_eq] at hsome
    cases hsome

/-- An assembly that is no longer filled has been finalised. -/
theorem WriteStep.finalised {s s' : WriteSide cfg} {es : List Entry} (h : WriteStep C H s es s')
    {a : CoqAssemblyPlainWritable cfg} (ha : s.current = some a) (hnone : s'.current = none) :
    ∃ e e' okey, e.assembly = some a ∧ FinaliseStep C H e s.world e' s'.world okey ∧
      s'.keys = Session.addKey s.keys okey := by
  cases h with
  | create => cases hnone
  | append => cases hnone
  | blank => cases hnone
  | recreate => cases hnone
  | quiet => exact absurd (ha.symm.trans hnone) (Option.some_ne_none a)
  | finalise e e' w w' keys blocks okey h => exact ⟨e, e', okey, ha, h, rfl⟩

/-- A key that is there stays. -/
theorem find_addKey_of_isSome {keys : CoqKeyStore} {k : Bytes}
    (h : (CoqStore.find keys k).isSome = true) (okey : Option (Bytes × KeyInformation)) :
    CoqStore.find (Session.addKey keys okey) k = CoqStore.find keys k := by
  cases okey with
  | none => rfl
  | some key =>
    obtain ⟨v, hv⟩ := Option.isSome_iff_exists.mp h
    rw [Session.addKey, CoqKeyStore.find_add]
    split
    · next heq => rw [← heq, hv]; rfl
    · rfl

/-- No key changes, and only the assembly that is being filled gets one. -/
theorem WriteStep.find_keys {s s' : WriteSide cfg} {es : List Entry} (h : WriteStep C H s es s')
    {k : Bytes} (hk : (∀ a, s.current = some a → k ≠ a.aid) ∨
      (CoqStore.find s.keys k).isSome = true) :
    CoqStore.find s'.keys k = CoqStore.find s.keys k := by
  cases h with
  | finalise e e' w w' keys blocks okey h =>
    cases h with
    | absent => rfl
    | empty => rfl
    | failed => rfl
    | archived a ha =>
      rcases hk with hne | hsome
      · change CoqStore.find (CoqKeyStore.add keys a.aid _) k = _
        rw [CoqKeyStore.find_add, if_neg (hne a ha)]
      · exact find_addKey_of_isSome hsome _
  | create => rfl
  | append => rfl
  | blank => rfl
  | recreate => rfl
  | quiet => rfl

/-- No file changes, and only the chunks of the assembly that is being filled are new. -/
theorem WriteStep.files_eq (hC : C.HexLawful) {s s' : WriteSide cfg} {es : List Entry}
    (h : WriteStep C H s es s') {p : Path}
    (hp : (∀ a, s.current = some a → ∀ cid ∈ cfg.nchunks.sequence, p ≠ chunkFile C cfg a.aid cid) ∨
      (s.world.fs.files p).isSome = true) : s'.world.fs.files p = s.world.fs.files p := by
  have hextract : ∀ {a : CoqAssemblyPlainWritable cfg} {ki : KeyInformation}
      {enc : CoqAssemblyEncrypted cfg} (io : ℕ → ChunkIO), s.current = some a →
      a.finish.encrypt C ki = some enc →
      (enc.extract C io s.world.fs).1.files p = s.world.fs.files p := by
    intro a ki enc io ha henc
    refine extract_keeps hC s.world.fs (hp.imp_left fun hne cid hcid => ?_)
    rw [aid_encrypt henc]
    exact hne a ha cid hcid
  cases h with
  | finalise e e' w w' keys blocks okey h =>
    cases h with
    | absent => rfl
    | empty => rfl
    | archived a ha hapos enc henc => exact hextract _ ha henc
    | failed a ha hapos fs line hfail =>
      cases hfail with
      | encrypt => rfl
      | extract enc henc => exact hextract _ ha henc
  | create => rfl
  | append => rfl
  | blank => rfl
  | recreate => rfl
  | quiet env w w' keys blocks h => rw [h.files]

/-- A step changes and removes no existing file. -/
theorem WriteStep.extends (hC : C.HexLawful) {s s' : WriteSide cfg} {es : List Entry}
    (h : WriteStep C H s es s') : Extends s.world.fs s'.world.fs :=
  fun _ hp => h.files_eq hC (Or.inr hp)

/-! ## Writing requests -/

/-- The block a request wants to be recorded, if it has one that fits into an assembly. -/
def requestWanted (C : Crypto) (cfg : CoqConfiguration) (wreq : WriteQueueEntity) :
    Option Wanted :=
  wreq.buffer.bind fun b =>
    if headerLen cfg.nchunks + b.len ≤ dataEnd cfg.nchunks then
      some ⟨C.toHex256 wreq.fhash, wreq.fpos, b.bytes⟩
    else none

/-- A request whose block has room in an empty assembly is wanted. -/
theorem requestWanted_of_room {wreq : WriteQueueEntity} {b : CoqBuffer .plain}
    (hb : wreq.buffer = some b) (hroom : headerLen cfg.nchunks + b.len ≤ dataEnd cfg.nchunks) :
    requestWanted C cfg wreq = some ⟨C.toHex256 wreq.fhash, wreq.fpos, b.bytes⟩ := by
  unfold requestWanted
  rw [hb, Option.bind_some, if_pos hroom]

/-- A list of one request wants what the request wants. -/
theorem filterMap_requestWanted_singleton (wreq : WriteQueueEntity) :
    [wreq].filterMap (requestWanted C cfg) = (requestWanted C cfg wreq).toList := by
  rw [List.filterMap_cons, List.filterMap_nil]
  cases requestWanted C cfg wreq <;> rfl

/-- A block that fits is recorded if there is an assembly. -/
theorem BackupStep.trace {e e' : CoqEnvironmentWritable cfg} {w w' : World} {fname : Bytes}
    {fpos : ℕ} {b : CoqBuffer .plain} {fbs : RelFnameFblocks} {kis : RelAidKeys}
    (h : BackupStep C H e w fname fpos b e' w' fbs kis)
    (hfit : ∀ a, e.assembly = some a → Fits a) (keys : CoqKeyStore) (blocks : CoqFBlockStore) :
    ∃ es, WriteTrace C H ⟨some e, w, keys, blocks⟩ es
        ⟨some e', w', kis.foldl (fun st ki => CoqKeyStore.add st ki.1 ki.2) keys,
          fbs.foldl (fun st fb => CoqFBlockStore.add st fb.1 fb.2) blocks⟩ ∧
      e'.assembly.isSome = e.assembly.isSome ∧
      es.map Entry.wanted =
        if e.assembly.isSome = true ∧ headerLen cfg.nchunks + b.len ≤ dataEnd cfg.nchunks then
          [⟨fname, fpos, b.bytes⟩]
        else [] := by
  have hlen : b.len = b.bytes.length := rfl
  have hkeys : ∀ okey : Option (Bytes × KeyInformation),
      okey.toList.foldl (fun st ki => CoqKeyStore.add st ki.1 ki.2) keys =
        Session.addKey keys okey := by
    intro okey
    cases okey <;> rfl
  obtain ⟨oa, nFailed⟩ := e
  cases h with
  | idle h =>
    have hnone : oa = none := h
    subst hnone
    exact ⟨[], Trace.refl _, rfl, by simp⟩
  | blank a h hb =>
    have ha : oa = some a := h
    subst ha
    have hle := lt_dataEnd cfg.nchunks
    have hhead := headerLen_le cfg.nchunks
    refine ⟨_, Trace.single (.blank a nFailed w keys blocks fname fpos), rfl, ?_⟩
    rw [if_pos ⟨rfl, by rw [hlen, hb, List.length_nil]; omega⟩, hb]
    rfl
  | fits a a' h hb hroom happ =>
    have ha : oa = some a := h
    subst ha
    have hhead := (hfit a rfl).header_le
    have hrecord : Entry.record C ⟨fname, fpos, b.bytes, a.aid, a.apos⟩ =
        blockRecord C a.aid a.apos fpos b.bytes := if_neg hb
    have htrace := Trace.single (WriteStep.append (C := C) (H := H) a a' nFailed w keys blocks
      fname fpos b.bytes hb hroom happ)
    rw [hrecord] at htrace
    refine ⟨_, htrace, rfl, ?_⟩
    rw [if_pos ⟨rfl, by omega⟩]
    rfl
  | rolled a h hb hfull e₁ w₁ okey hfin a' hroom happ =>
    have ha : oa = some a := h
    subst ha
    obtain ⟨oa₁, nFailed₁⟩ := e₁
    have hnone : oa₁ = none := hfin.assembly_eq
    subst hnone
    have hnum := hfin.nassembly_eq
    have hrecord : Entry.record C ⟨fname, fpos, b.bytes, aidOf C H cfg w.nassembly,
        headerLen cfg.nchunks⟩ =
        blockRecord C (aidOf C H cfg w.nassembly) (headerLen cfg.nchunks) fpos b.bytes := if_neg hb
    have htrace := ((Trace.single (WriteStep.finalise _ _ w w₁ keys blocks okey hfin)).trans_silent
      (Trace.single (.recreate nFailed₁ w₁ (Session.addKey keys okey) blocks))).silent_trans
      (Trace.single (.append _ a' nFailed₁ _ (Session.addKey keys okey) blocks fname fpos b.bytes
        hb (by rw [hnum]; exact hroom) (by rw [hnum]; exact happ)))
    simp only [hnum, aid_newAssembly, apos_newAssembly, hrecord] at htrace
    rw [hkeys]
    refine ⟨_, htrace, rfl, ?_⟩
    rw [if_pos ⟨rfl, hroom⟩]
    rfl
  | refused a h hb hfull e₁ w₁ okey hfin hbig =>
    have ha : oa = some a := h
    subst ha
    obtain ⟨oa₁, nFailed₁⟩ := e₁
    have hnone : oa₁ = none := hfin.assembly_eq
    subst hnone
    have hnum := hfin.nassembly_eq
    have htrace := ((Trace.single (WriteStep.finalise _ _ w w₁ keys blocks okey hfin)).trans_silent
      (Trace.single (.recreate nFailed₁ w₁ (Session.addKey keys okey) blocks))).trans_silent
      (Trace.single (.quiet _ _ { w₁ with
          nassembly := w₁.nassembly + 1, clog := w₁.clog ++ [.doesNotFit b.len] } _ _
        ⟨rfl, rfl, rfl, by simp [failedAids, LogLine.failedAid]⟩))
    simp only [hnum] at htrace
    rw [hkeys]
    refine ⟨_, htrace, rfl, ?_⟩
    rw [if_neg (by omega)]
    rfl

/-- What writing leaves as it is. -/
structure WriteFrame (s s' : Session cfg) : Prop where
  readenvs : s'.cache.readenvs = s.cache.readenvs
  nReadenvs : s'.cache.nReadenvs = s.cache.nReadenvs
  nQueuesz : s'.cache.nQueuesz = s.cache.nQueuesz
  readqueue : s'.cache.readqueue = s.cache.readqueue
  finfostore : s'.cache.finfostore = s.cache.finfostore

/-- Nothing has changed at first. -/
theorem WriteFrame.refl (s : Session cfg) : WriteFrame s s := ⟨rfl, rfl, rfl, rfl, rfl⟩

/-- What two pieces of a run leave as it is, the whole leaves as it is. -/
theorem WriteFrame.trans {s s' s'' : Session cfg} (h : WriteFrame s s') (h' : WriteFrame s' s'') :
    WriteFrame s s'' :=
  ⟨h'.readenvs.trans h.readenvs, h'.nReadenvs.trans h.nReadenvs, h'.nQueuesz.trans h.nQueuesz,
    h'.readqueue.trans h.readqueue, h'.finfostore.trans h.finfostore⟩

/-- A session writes: it records the blocks `es`, and draws at most `draws` assemblies. -/
structure Writes (C : Crypto) (H : Host) (s s' : Session cfg) (es : List Entry) (draws : ℕ) :
    Prop where
  trace : WriteTrace C H (writeSide s) es (writeSide s')
  frame : WriteFrame s s'
  nassembly_le : s'.world.nassembly ≤ s.world.nassembly + draws

/-- Nothing is written and nothing drawn at first. -/
theorem Writes.refl (s : Session cfg) : Writes C H s s [] 0 :=
  ⟨Trace.refl _, WriteFrame.refl s, Nat.le_refl _⟩

/-- Enqueueing a request records nothing. -/
theorem Writes.enqueue (s : Session cfg) (nWriteRequests : ℕ)
    (writequeue : List WriteQueueEntity) :
    Writes C H s ⟨{ s.cache with
      nWriteRequests := nWriteRequests
      writequeue := writequeue }, s.world⟩ [] 0 :=
  ⟨Trace.refl _, ⟨rfl, rfl, rfl, rfl, rfl⟩, Nat.le_refl _⟩

/-- Writing twice writes the blocks of both, with the draws of both. -/
theorem Writes.trans {s s' s'' : Session cfg} {es es' : List Entry} {m n : ℕ}
    (h : Writes C H s s' es m) (h' : Writes C H s' s'' es' n) :
    Writes C H s s'' (es ++ es') (m + n) where
  trace := h.trace.trans h'.trace
  frame := h.frame.trans h'.frame
  nassembly_le := by
    have h1 := h.nassembly_le
    have h2 := h'.nassembly_le
    omega

/-- Backing up a block draws at most one assembly. -/
theorem BackupStep.nassembly_le {e e' : CoqEnvironmentWritable cfg} {w w' : World} {fname : Bytes}
    {fpos : ℕ} {b : CoqBuffer .plain} {fbs : RelFnameFblocks} {kis : RelAidKeys}
    (h : BackupStep C H e w fname fpos b e' w' fbs kis) : w'.nassembly ≤ w.nassembly + 1 := by
  cases h with
  | idle h => exact Nat.le_succ _
  | blank => exact Nat.le_succ _
  | fits => exact Nat.le_succ _
  | rolled => exact Nat.le_refl _
  | refused => exact Nat.le_refl _

/-- Making sure of a write environment draws at most one assembly and records nothing. -/
theorem ensureWriteenv_trace (s : Session cfg) :
    WriteTrace C H (writeSide s) []
      ⟨some (s.ensureWriteenv C H).1, (s.ensureWriteenv C H).2, s.cache.keystore,
        s.cache.fblockstore⟩ ∧
    (s.ensureWriteenv C H).1.assembly.isSome = (writeSide s).isOpen ∧
    (s.ensureWriteenv C H).2.nassembly ≤ s.world.nassembly + 1 := by
  unfold Session.ensureWriteenv writeSide WriteSide.isOpen
  cases henv : s.cache.writeenv with
  | none => exact ⟨Trace.single (.create s.world _ _), rfl, Nat.le_refl _⟩
  | some e => exact ⟨Trace.refl _, rfl, Nat.le_succ _⟩

/-- Only the write environment and the world matter. -/
theorem ensureWriteenv_congr {s s' : Session cfg} (henv : s'.cache.writeenv = s.cache.writeenv)
    (hw : s'.world = s.world) : s'.ensureWriteenv C H = s.ensureWriteenv C H := by
  unfold Session.ensureWriteenv
  rw [henv, hw]

/-- **One request**: it never faults, and its block is recorded if the environment is open. -/
theorem runWriteRequest_trace {s : Session cfg} (hfit : (writeSide s).Fitting)
    (wreq : WriteQueueEntity) :
    ∃ s' es, s.runWriteRequest C H wreq = .ok s' ∧ Writes C H s s' es 2 ∧
      s'.cache.writequeue = s.cache.writequeue ∧ s'.cache.writeenv.isSome = true ∧
      (writeSide s').isOpen = (writeSide s).isOpen ∧
      es.map Entry.wanted =
        if (writeSide s).isOpen then (requestWanted C cfg wreq).toList else [] := by
  obtain ⟨hensure, hopen, hnum⟩ := ensureWriteenv_trace (C := C) (H := H) s
  have hfit' := hensure.fitting hfit
  unfold Session.runWriteRequest
  generalize s.ensureWriteenv C H = ew at hensure hopen hnum hfit' ⊢
  obtain ⟨e, w⟩ := ew
  dsimp only at hensure hopen hnum hfit' ⊢
  cases hbuf : wreq.buffer with
  | none =>
    refine ⟨_, [], rfl, ⟨hensure, ⟨rfl, rfl, rfl, rfl, rfl⟩, Nat.le_succ_of_le hnum⟩, rfl, rfl,
      hopen, ?_⟩
    simp [requestWanted, hbuf]
  | some b =>
    have hfite : ∀ a, e.assembly = some a → Fits a := hfit'
    obtain ⟨e', w', fbs, kis, hback, hstep⟩ := backup_step (C := C) (H := H) hfite w
      (C.toHex256 wreq.fhash) wreq.fpos b
    obtain ⟨es, htrace, hsome, hwanted⟩ := hstep.trace hfite s.cache.keystore s.cache.fblockstore
    dsimp only
    rw [hback]
    refine ⟨_, es, rfl, ⟨hensure.silent_trans htrace, ⟨rfl, rfl, rfl, rfl, rfl⟩,
      Nat.le_trans hstep.nassembly_le (Nat.succ_le_succ hnum)⟩, rfl, rfl, hsome.trans hopen, ?_⟩
    rw [hwanted, hopen]
    unfold requestWanted
    rw [hbuf, Option.bind_some]
    cases (writeSide s).isOpen with
    | false => simp
    | true =>
      simp only [true_and, if_true]
      split <;> rfl

/-- Running requests writes what they want, if there is an assembly at all. -/
theorem runWriteRequests_trace {s : Session cfg} (hfit : (writeSide s).Fitting)
    (wreqs : List WriteQueueEntity) :
    ∃ s' es, s.runWriteRequests C H wreqs = .ok s' ∧ Writes C H s s' es (2 * wreqs.length) ∧
      s'.cache.writequeue = s.cache.writequeue ∧
      (s.cache.writeenv.isSome = true ∨ wreqs ≠ [] → s'.cache.writeenv.isSome = true) ∧
      (writeSide s').isOpen = (writeSide s).isOpen ∧
      es.map Entry.wanted =
        if (writeSide s).isOpen then wreqs.filterMap (requestWanted C cfg) else [] := by
  induction wreqs generalizing s with
  | nil =>
    exact ⟨s, [], rfl, Writes.refl s, rfl, fun h => h.resolve_right (fun hne => hne rfl), rfl,
      by simp⟩
  | cons wreq wreqs ih =>
    obtain ⟨s₁, es₁, hrun₁, hwrites₁, hq₁, henv₁, hopen₁, hwanted₁⟩ :=
      runWriteRequest_trace (C := C) (H := H) hfit wreq
    obtain ⟨s₂, es₂, hrun₂, hwrites₂, hq₂, henv₂, hopen₂, hwanted₂⟩ :=
      ih (hwrites₁.trace.fitting hfit)
    have hlen : 2 + 2 * wreqs.length = 2 * (wreq :: wreqs).length := by
      rw [List.length_cons]
      omega
    refine ⟨s₂, es₁ ++ es₂, ?_, hlen ▸ hwrites₁.trans hwrites₂, hq₂.trans hq₁,
      fun _ => henv₂ (Or.inl henv₁), hopen₂.trans hopen₁, ?_⟩
    · rw [Session.runWriteRequests, hrun₁]
      exact hrun₂
    · rw [List.map_append, hwanted₁, hwanted₂, hopen₁, List.filterMap_cons]
      cases (writeSide s).isOpen with
      | false => simp
      | true =>
        simp only [if_true]
        cases requestWanted C cfg wreq <;> rfl

/-- **A drain** records the blocks of all requests if the environment is open, and loses them if
it is not. -/
theorem iterateWriteQueue_trace {s : Session cfg} (hfit : (writeSide s).Fitting) :
    ∃ s' es, s.iterateWriteQueue C H = .ok s' ∧
      Writes C H s s' es (2 * s.cache.writequeue.length) ∧
      s'.cache.writequeue = [] ∧
      (s.cache.writeenv.isSome = true ∨ s.cache.writequeue ≠ [] →
        s'.cache.writeenv.isSome = true) ∧
      (writeSide s').isOpen = (writeSide s).isOpen ∧
      es.map Entry.wanted = if (writeSide s).isOpen then
        s.cache.writequeue.filterMap (requestWanted C cfg) else [] := by
  unfold Session.iterateWriteQueue
  split
  · next hnil =>
    exact ⟨s, [], rfl, hnil ▸ Writes.refl s, hnil,
      fun h => h.resolve_right (fun hne => hne hnil), rfl, by simp [hnil]⟩
  · obtain ⟨s', es, hrun, ⟨htrace, hframe, hnum⟩, hq, henv, hopen, hwanted⟩ :=
      runWriteRequests_trace (C := C) (H := H) (s := ⟨{ s.cache with
        nIterateWrites := (s.cache.nIterateWrites + 1) % 4294967296
        writequeue := [] }, s.world⟩) hfit s.cache.writequeue
    exact ⟨s', es, hrun, ⟨htrace, ⟨hframe.readenvs, hframe.nReadenvs, hframe.nQueuesz,
      hframe.readqueue, hframe.finfostore⟩, hnum⟩, hq, henv, hopen, hwanted⟩

/-! ## The other operations -/

/-- `flush` finalises the assembly and makes a new one. -/
theorem flush_trace {s : Session cfg} {e : CoqEnvironmentWritable cfg}
    (he : s.cache.writeenv = some e) :
    ∃ s', s.flush C H = .ok s' ∧ Writes C H s s' [] 1 ∧
      s'.cache.writequeue = s.cache.writequeue ∧ s'.cache.writeenv.isSome = true ∧
      (writeSide s').isOpen = true := by
  have hfin := finalise_step (C := C) (H := H) e s.world
  unfold Session.flush CoqEnvironmentWritable.finaliseAndRecreateAssembly
  rw [he]
  dsimp only
  generalize e.finaliseAssembly C H s.world = r at hfin ⊢
  obtain ⟨⟨oa₁, nFailed₁⟩, w₁, okey⟩ := r
  have hnone : oa₁ = none := hfin.assembly_eq
  subst hnone
  have htrace := (Trace.single (WriteStep.finalise e _ s.world w₁ s.cache.keystore
    s.cache.fblockstore okey hfin)).trans_silent (Trace.single (.recreate nFailed₁ w₁ _ _))
  refine ⟨_, rfl, ⟨?_, ⟨rfl, rfl, rfl, rfl, rfl⟩, Nat.succ_le_succ (Nat.le_of_eq hfin.nassembly_eq)⟩,
    rfl, rfl, rfl⟩
  unfold writeSide
  rw [he]
  exact htrace

/-- `close` finalises the assembly and leaves none. -/
theorem close_trace (s : Session cfg) :
    Writes C H s (s.close C H) [] 0 ∧
      (s.close C H).cache.writequeue = s.cache.writequeue ∧
      (writeSide (s.close C H)).current = none ∧
      ((s.close C H).cache.writeenv.isSome = s.cache.writeenv.isSome) := by
  unfold Session.close
  cases he : s.cache.writeenv with
  | none => exact ⟨Writes.refl s, rfl, by simp [writeSide, WriteSide.current, he], by simp [he]⟩
  | some e =>
    have hfin := finalise_step (C := C) (H := H) e s.world
    dsimp only
    generalize e.finaliseAssembly C H s.world = r at hfin ⊢
    obtain ⟨e₁, w₁, okey⟩ := r
    refine ⟨⟨?_, ⟨rfl, rfl, rfl, rfl, rfl⟩, Nat.le_of_eq hfin.nassembly_eq⟩, rfl,
      hfin.assembly_eq, rfl⟩
    unfold writeSide
    rw [he]
    exact Trace.single (.finalise e e₁ s.world w₁ s.cache.keystore s.cache.fblockstore okey hfin)

/-- After `close` an environment that is there is not open. -/
theorem isOpen_close {s : Session cfg} (h : s.cache.writeenv.isSome = true) :
    (writeSide (s.close C H)).isOpen = false := by
  obtain ⟨-, -, hcurrent, henv⟩ := close_trace (C := C) (H := H) s
  rw [h] at henv
  obtain ⟨e, he⟩ := Option.isSome_iff_exists.mp henv
  have hnone : e.assembly = none := by
    simpa [writeSide, WriteSide.current, he] using hcurrent
  simp [writeSide, WriteSide.isOpen, he, hnone]

/-- Reading is no writing. -/
theorem ReadOnly.trace {s s' : Session cfg} (h : ReadOnly s s') :
    WriteTrace C H (writeSide s) [] (writeSide s') := by
  unfold writeSide
  rw [h.writeenv, h.keystore, h.fblockstore]
  exact Trace.single (.quiet _ _ _ _ _ h.world)

end Elykseer.Analysis
