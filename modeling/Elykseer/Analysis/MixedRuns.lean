import Elykseer.Analysis.AcceptedWrites
import Elykseer.Analysis.Calls
import Elykseer.Analysis.RoundTrip

/-!
# Reading while writing

One cache writes blocks and reads them back, in any order.  Keys are added for new
assemblies and never replaced, and chunk files are never replaced either, so what can be
loaded is loaded again later and the read environments are never stale: in every run a
read returns what the keys and the chunk files hold at that moment, and once it returns a
block it returns the same block for good (`run_readsStore`).

A recorded block is readable as soon as its assembly is finalised.  Until then its
assembly has no key, and the read returns nothing.  It never returns other bytes:
`run_readsBack`.
-/

set_option autoImplicit false

namespace Elykseer.Analysis

open Elykseer.Model Elykseer.Foundation

variable {C : Crypto} {H : Host} {cfg : CoqConfiguration}

/-! ## What can be loaded -/

/-- What could be loaded is loaded again. -/
def LoadsGrow (C : Crypto) (s s' : Session cfg) : Prop :=
  ∀ aid a, loads C s aid = some a → loads C s' aid = some a

/-- Nothing is lost at first. -/
theorem LoadsGrow.refl (s : Session cfg) : LoadsGrow C s s := fun _ _ h => h

/-- Two steps that lose nothing are one. -/
theorem LoadsGrow.trans {s s' s'' : Session cfg} (h : LoadsGrow C s s')
    (h' : LoadsGrow C s' s'') : LoadsGrow C s s'' := fun aid a ha => h' aid a (h aid a ha)

/-- An assembly with a key keeps it, and its chunk files. -/
theorem WriteStep.load_grows (hC : C.HexLawful) {s s' : WriteSide cfg} {es : List Entry}
    (h : WriteStep C H s es s') {aid : Bytes} {a : CoqAssemblyPlainFull cfg}
    (ha : load C cfg s.keys s.world.fs aid = some a) :
    load C cfg s'.keys s'.world.fs aid = some a := by
  obtain ⟨ki, hki, hread⟩ := Option.bind_eq_some_iff.mp ha
  have hkey : CoqStore.find s'.keys aid = some ki := by
    rw [h.find_keys (.inr (by rw [hki]; rfl)), hki]
  exact Option.bind_eq_some_iff.mpr ⟨ki, hkey, readAssembly_extends hC (h.extends hC) hread⟩

/-- Writing loses no assembly that could be loaded. -/
theorem WriteTrace.load_grows (hC : C.HexLawful) {s s' : WriteSide cfg} {es : List Entry}
    (h : WriteTrace C H s es s') {aid : Bytes} {a : CoqAssemblyPlainFull cfg}
    (ha : load C cfg s.keys s.world.fs aid = some a) :
    load C cfg s'.keys s'.world.fs aid = some a := by
  induction h with
  | refl => exact ha
  | tail _ hstep ih => exact hstep.load_grows hC ih

/-- A block that is restored is restored again. -/
theorem LoadsGrow.restoreAlone {s s' : Session cfg} (h : LoadsGrow C s s')
    {bi : BlockInformation} {b : CoqBuffer .plain} (hb : restoreAlone C s bi = some b) :
    Elykseer.Analysis.restoreAlone C s' bi = some b := by
  rw [restoreAlone_eq] at hb ⊢
  obtain ⟨a, ha, hin⟩ := Option.bind_eq_some_iff.mp hb
  exact Option.bind_eq_some_iff.mpr ⟨a, h _ _ ha, hin⟩

/-! ## The read environments -/

/-- The block a read request asks for, with its position in the file. -/
def requestInfo (rqe : ReadQueueEntity) : BlockInformation :=
  ⟨1, rqe.chksum, rqe.rlen, rqe.fpos, rqe.aid, rqe.apos⟩

/-- Every read request is the request of a block information. -/
theorem map_requestInfo (q : List ReadQueueEntity) :
    (q.map requestInfo).map BlockInformation.request = q := by
  rw [List.map_map]
  exact List.map_id q

/-- The read environments hold what can be loaded. -/
structure Coherent (C : Crypto) (s : Session cfg) : Prop where
  caches : ∃ l, Caches C s l
  nReadenvs : 1 ≤ s.cache.nReadenvs
  depth : s.cache.readqueue ≠ [] → 1 ≤ s.cache.nQueuesz
  fitting : (writeSide s).Fitting

/-- A new session is coherent. -/
theorem coherent_init {nEnvs : ℕ} (hn : 1 ≤ nEnvs) (depth : ℕ) (keys : CoqKeyStore)
    (fblocks : CoqFBlockStore) (finfos : CoqFInfoStore) (w : World) :
    Coherent C (Session.init cfg nEnvs depth keys fblocks finfos w) where
  caches := ⟨[], rfl, Lru.valid_nil _ _ _⟩
  nReadenvs := hn
  depth h := absurd rfl h
  fitting a ha := by cases ha

/-- Writing leaves the read environments alone, and they stay valid. -/
theorem Coherent.writes (hC : C.HexLawful) {s s' : Session cfg} (h : Coherent C s)
    {es : List Entry} {draws : ℕ} (hw : Writes C H s s' es draws) :
    Coherent C s' ∧ LoadsGrow C s s' := by
  have hgrow : LoadsGrow C s s' := fun aid a ha => hw.trace.load_grows hC ha
  obtain ⟨l, henvs, hvalid⟩ := h.caches
  refine ⟨⟨⟨l, hw.frame.readenvs.trans henvs, ?_⟩, ?_, fun hq => ?_, hw.trace.fitting h.fitting⟩, hgrow⟩
  · rw [hw.frame.nReadenvs]
    exact hvalid.mono hgrow
  · rw [hw.frame.nReadenvs]
    exact h.nReadenvs
  · rw [hw.frame.nQueuesz]
    rw [hw.frame.readqueue] at hq
    exact h.depth hq

/-- A coherent session with a queue is ready to read blocks. -/
theorem Coherent.ready {s : Session cfg} (h : Coherent C s) (hdepth : 1 ≤ s.cache.nQueuesz) :
    Ready C s :=
  ⟨h.caches, h.nReadenvs, hdepth⟩

/-- A drain returns what the store holds. -/
theorem Coherent.iterateReadQueue (hC : C.HexLawful) (H : Host) {s : Session cfg}
    (h : Coherent C s) {q : List BlockInformation}
    (hq : s.cache.readqueue = q.map BlockInformation.request) :
    ∃ s', s.iterateReadQueue C H = .ok (s', batchResults C s q) ∧ Coherent C s' ∧
      LoadsGrow C s s' ∧ s'.cache.readqueue = [] := by
  by_cases hnil : s.cache.readqueue = []
  · have hqnil : q = [] := List.map_eq_nil_iff.mp (hq.symm.trans hnil)
    subst hqnil
    refine ⟨s, ?_, h, LoadsGrow.refl s, hnil⟩
    rw [Session.iterateReadQueue, if_pos hnil]
    rfl
  · obtain ⟨s', hrun, hready, hro, hempty⟩ := iterateReadQueue_eq hC (h.ready (h.depth hnil)) hq
    have hgrow : LoadsGrow C s s' := by
      intro aid a ha
      rw [hro.loads_eq hC]
      exact ha
    have htrace : WriteTrace C H (writeSide s) [] (writeSide s') := hro.trace
    exact ⟨s', hrun, ⟨hready.caches, hready.nReadenvs, fun _ => hready.nQueuesz,
      htrace.fitting h.fitting⟩, hgrow, hempty⟩

/-! ## Whole runs -/

/-- What happens between two states of a run that has accepted some write requests. -/
structure Progress (C : Crypto) (H : Host) (s s' : Session cfg) (wreqs : List WriteQueueEntity) :
    Prop where
  coherent : Coherent C s'
  grows : LoadsGrow C s s'
  trace : ∃ es, WriteTrace C H (writeSide s) es (writeSide s') ∧
    ∀ x ∈ es, ∃ w ∈ s.cache.writequeue ++ wreqs, requestWanted C cfg w = some x.wanted
  queue : ∀ w ∈ s'.cache.writequeue, w ∈ s.cache.writequeue ++ wreqs
  nReadenvs : s'.cache.nReadenvs = s.cache.nReadenvs

/-- There is no progress at first. -/
theorem Progress.refl {s : Session cfg} (h : Coherent C s) : Progress C H s s [] where
  coherent := h
  grows := LoadsGrow.refl s
  trace := ⟨[], Trace.refl _, by simp⟩
  queue w hw := List.mem_append_left _ hw
  nReadenvs := rfl

/-- Progress in two parts of a run is progress in the whole. -/
theorem Progress.trans {s s' s'' : Session cfg} {wreqs wreqs' : List WriteQueueEntity}
    (h : Progress C H s s' wreqs) (h' : Progress C H s' s'' wreqs') :
    Progress C H s s'' (wreqs ++ wreqs') := by
  have hqueue : ∀ w ∈ s'.cache.writequeue ++ wreqs',
      w ∈ s.cache.writequeue ++ (wreqs ++ wreqs') := by
    intro w hw
    rw [← List.append_assoc]
    rcases List.mem_append.mp hw with hw | hw
    · exact List.mem_append_left _ (h.queue w hw)
    · exact List.mem_append_right _ hw
  obtain ⟨es, htrace, hes⟩ := h.trace
  obtain ⟨es', htrace', hes'⟩ := h'.trace
  refine ⟨h'.coherent, h.grows.trans h'.grows, ⟨es ++ es', htrace.trans htrace', fun x hx => ?_⟩,
    fun w hw => hqueue w (h'.queue w hw), h'.nReadenvs.trans h.nReadenvs⟩
  rcases List.mem_append.mp hx with hx | hx
  · obtain ⟨w, hw, hwanted⟩ := hes x hx
    exact ⟨w, by rw [← List.append_assoc]; exact List.mem_append_left _ hw, hwanted⟩
  · obtain ⟨w, hw, hwanted⟩ := hes' x hx
    exact ⟨w, hqueue w hw, hwanted⟩

/-- An operation of the writer. -/
theorem Coherent.writing (hC : C.HexLawful) {s s' : Session cfg} (h : Coherent C s) {op : Op}
    (hop : IsWriting op) {answer : Answer} (hstep : s.step C H op = .ok (s', answer))
    (hqueue : ∀ w ∈ s'.cache.writequeue, w ∈ s.cache.writequeue ++ acceptedWrites [(op, answer)]) :
    Progress C H s s' (acceptedWrites [(op, answer)]) := by
  have hflush : FlushesLate s op := by
    rintro rfl
    by_contra hnone
    rw [step_flush_fault fun hlate => hnone (hlate rfl)] at hstep
    cases hstep
  obtain ⟨s₁, answer₁, es, draws, hstep₁, hw, -, hes, -, -⟩ :=
    step_trace (C := C) (H := H) h.fitting hop hflush
  rw [hstep₁, Except.ok.injEq, Prod.mk.injEq] at hstep
  obtain ⟨rfl, rfl⟩ := hstep
  obtain ⟨hcoh, hgrow⟩ := h.writes hC hw
  refine ⟨hcoh, hgrow, ⟨es, hw.trace, fun x hx => ?_⟩, hqueue, hw.frame.nReadenvs⟩
  obtain ⟨w, hmem, hwanted⟩ := hes x hx
  exact ⟨w, List.mem_append_left _ hmem, hwanted⟩

/-- **One operation of a run.** -/
theorem step_progress (hC : C.HexLawful) {s s' : Session cfg} (h : Coherent C s) {op : Op}
    {answer : Answer} (hstep : s.step C H op = .ok (s', answer)) :
    Progress C H s s' (acceptedWrites [(op, answer)]) := by
  cases op with
  | enqueueRead rqe =>
    obtain ⟨rfl, rfl⟩ := Prod.mk.inj (Except.ok.inj hstep)
    unfold Session.enqueueReadRequest
    split
    · exact Progress.refl h
    · next hroom =>
      refine ⟨⟨h.caches, h.nReadenvs, fun _ => ?_, h.fitting⟩, LoadsGrow.refl s,
        ⟨[], Trace.refl _, by simp⟩, fun w hw => List.mem_append_left _ hw, rfl⟩
      dsimp only
      omega
  | iterateRead =>
    obtain ⟨rs, rfl, hiter⟩ := step_iterateRead.mp hstep
    obtain ⟨s₁, hiter₁, hcoh, hgrow, -⟩ := h.iterateReadQueue hC H (map_requestInfo _).symm
    obtain ⟨s₂, rs₂, hiter₂, hro⟩ := iterateReadQueue_readOnly (H := H) hC s
    rw [hiter, Except.ok.injEq, Prod.mk.injEq] at hiter₁ hiter₂
    obtain ⟨rfl, -⟩ := hiter₁
    obtain ⟨rfl, -⟩ := hiter₂
    refine ⟨hcoh, hgrow, ⟨[], hro.trace, by simp⟩, fun w hw => ?_, hro.nReadenvs⟩
    rw [hro.writequeue] at hw
    exact List.mem_append_left _ hw
  | enqueueWrite wqe =>
    refine h.writing hC (by trivial) hstep ?_
    obtain ⟨rfl, rfl⟩ := Prod.mk.inj (Except.ok.inj hstep)
    unfold Session.enqueueWriteRequest
    split
    · exact fun w hw => List.mem_append_left _ hw
    · exact fun w hw => hw
  | iterateWrite =>
    refine h.writing hC (by trivial) hstep ?_
    obtain ⟨rfl, hiter⟩ := step_iterateWrite.mp hstep
    obtain ⟨s₁, es, hiter₁, -, hempty, -⟩ := iterateWriteQueue_trace (C := C) (H := H) h.fitting
    obtain rfl := Except.ok.inj (hiter.symm.trans hiter₁)
    simp [hempty]
  | flush =>
    refine h.writing hC (by trivial) hstep ?_
    obtain ⟨rfl, hflush⟩ := step_flush.mp hstep
    cases henv : s.cache.writeenv with
    | none =>
      rw [Session.flush, henv] at hflush
      cases hflush
    | some e =>
      obtain ⟨s₁, hflush₁, -, hqueue, -⟩ := flush_trace (C := C) (H := H) henv
      obtain rfl := Except.ok.inj (hflush.symm.trans hflush₁)
      rw [hqueue]
      exact fun w hw => List.mem_append_left _ hw
  | close =>
    refine h.writing hC (by trivial) hstep ?_
    obtain ⟨rfl, rfl⟩ := Prod.mk.inj (Except.ok.inj hstep)
    rw [(close_trace s).2.1]
    exact fun w hw => List.mem_append_left _ hw

/-- A run is its first step and the run from there. -/
theorem run_cons_inv {s s'' : Session cfg} {op : Op} {ops : List Op}
    {answers : List (Op × Answer)} (h : s.run C H (op :: ops) = .ok (s'', answers)) :
    ∃ s' answer rest, s.step C H op = .ok (s', answer) ∧ s'.run C H ops = .ok (s'', rest) ∧
      answers = (op, answer) :: rest := by
  rw [Session.run] at h
  cases hstep : s.step C H op with
  | error f =>
    rw [hstep] at h
    cases h
  | ok r =>
    rw [hstep] at h
    dsimp only at h
    cases hrun : r.1.run C H ops with
    | error f =>
      rw [hrun] at h
      cases h
    | ok r' =>
      rw [hrun] at h
      cases h
      exact ⟨r.1, r.2, r'.2, rfl, hrun, rfl⟩

/-- A run makes progress with the writes it has accepted. -/
theorem run_progress (hC : C.HexLawful) {s s' : Session cfg} (h : Coherent C s) {ops : List Op}
    {answers : List (Op × Answer)} (hrun : s.run C H ops = .ok (s', answers)) :
    Progress C H s s' (acceptedWrites answers) := by
  induction ops generalizing s answers with
  | nil =>
    obtain ⟨rfl, rfl⟩ := Prod.mk.inj (Except.ok.inj hrun)
    exact Progress.refl h
  | cons op ops ih =>
    obtain ⟨s₁, answer, rest, hstep, hrest, rfl⟩ := run_cons_inv hrun
    have hone := step_progress hC h hstep
    have hall : acceptedWrites ((op, answer) :: rest) =
        acceptedWrites [(op, answer)] ++ acceptedWrites rest := by
      unfold acceptedWrites
      rw [← List.filterMap_append, List.singleton_append]
    rw [hall]
    exact hone.trans (ih hone.coherent hrest)

/-- The assembly that is being written. -/
def openAid (s : Session cfg) : Option Bytes := (writeSide s).current.map (·.aid)

/-- A recorded block that is not empty, with the write request it came from. -/
structure Requested (C : Crypto) (cfg : CoqConfiguration) (wreqs : List WriteQueueEntity)
    (L : List Entry) (fname : Bytes) (bi : BlockInformation) (x : Entry) : Prop where
  mem : x ∈ L
  nonempty : x.data ≠ []
  record : unnumbered bi = unnumbered (x.record C)
  request : ∃ w ∈ wreqs, requestWanted C cfg w = some ⟨fname, bi.filepos, x.data⟩

/-- Each block added since `s₀` comes from an accepted write, if it is not empty. -/
theorem exists_requested {s₀ s : Session cfg} {L : List Entry} {wreqs : List WriteQueueEntity}
    (h : Ledger C (writeSide s₀) (writeSide s) L)
    (hL : ∀ x ∈ L, ∃ w ∈ wreqs, requestWanted C cfg w = some x.wanted) {fname : Bytes}
    {bi : BlockInformation} (hbi : bi ∈ addedBlocks s₀ s fname) (hsize : bi.blocksize ≠ 0) :
    ∃ x, Requested C cfg wreqs L fname bi x := by
  have hmem := List.mem_map_of_mem (f := unnumbered) hbi
  rw [addedBlocks_eq h] at hmem
  obtain ⟨x, hx, hname, hrec⟩ := mem_recordsOf.mp hmem
  have hd : x.data ≠ [] := by
    intro hd
    rw [Entry.record, if_pos hd] at hrec
    exact hsize (congrArg BlockInformation.blocksize hrec).symm
  have hpos : bi.filepos = x.fpos := by
    rw [Entry.record, if_neg hd] at hrec
    exact (congrArg BlockInformation.filepos hrec).symm
  obtain ⟨w, hw, hwanted⟩ := hL x hx
  refine ⟨x, hx, hd, hrec.symm, w, hw, ?_⟩
  rw [hwanted, Entry.wanted, hname, hpos]

section Archived

variable {w₀ : World} {N : ℕ} {s : Session cfg} {L : List Entry} {wreqs : List WriteQueueEntity}
  {fname : Bytes} {bi : BlockInformation} {x : Entry}

/-- The record of a block names its assembly. -/
theorem Requested.aid_eq (ho : Requested C cfg wreqs L fname bi x) : bi.blockaid = x.aid :=
  (congrArg BlockInformation.blockaid ho.record).trans (aid_record ho.nonempty)

/-- The open assembly has no key yet, and all others have been archived. -/
theorem Archived.read (h : Archived C H w₀ N (writeSide s) L)
    (ho : Requested C cfg wreqs L fname bi x) :
    (restoreAlone C s bi).map CoqBuffer.bytes =
      if openAid s = some bi.blockaid then none else some x.data := by
  rw [ho.aid_eq]
  split
  · next hopen =>
    obtain ⟨a, ha, haid⟩ := Option.map_eq_some_iff.mp hopen
    have hkey : CoqStore.find s.cache.keystore a.aid = none := (h.unsealed a ha).1
    have hload : loads C s bi.blockaid = none := by
      rw [loads, load, ho.aid_eq, ← haid, hkey, Option.bind_none]
    rw [restoreAlone_eq, hload]
    rfl
  · next hopen =>
    rcases h.readable x ho.mem ho.nonempty with ⟨a, ha, hin⟩ | hread
    · exact absurd (Option.map_eq_some_iff.mpr ⟨a, ha, hin.aid_eq⟩) hopen
    · obtain ⟨-, b, hb, hbytes⟩ := restoreAlone_of_readable ho.nonempty hread ho.record
      rw [hb, Option.map_some, hbytes]

/-- Nothing is recorded for an assembly without blocks. -/
theorem Archived.openAid_ne (h : Archived C H w₀ N (writeSide s) L)
    (ho : Requested C cfg wreqs L fname bi x)
    (hfresh : ∀ a, (writeSide s).current = some a → a.apos = headerLen cfg.nchunks) :
    openAid s ≠ some bi.blockaid := by
  rw [ho.aid_eq]
  intro hopen
  obtain ⟨a, ha, haid⟩ := Option.map_eq_some_iff.mp hopen
  rcases h.readable x ho.mem ho.nonempty with ⟨a', ha', hin⟩ | hread
  · have hlt := hin.headerLen_lt ho.nonempty
    rw [hfresh a' ha'] at hlt
    exact absurd hlt (Nat.lt_irrefl _)
  · have hkey := hread.isSome_key
    rw [← haid, (h.unsealed a ha).1] at hkey
    cases hkey

end Archived

/-- After `flush` or `close` no block is in the open assembly. -/
theorem step_fresh {s s' : Session cfg} {op : Op} (hop : op = .flush ∨ op = .close)
    {answer : Answer} (hstep : s.step C H op = .ok (s', answer)) :
    ∀ a, (writeSide s').current = some a → a.apos = headerLen cfg.nchunks := by
  intro a ha
  rcases hop with rfl | rfl
  · obtain ⟨rfl, hflush⟩ := step_flush.mp hstep
    cases henv : s.cache.writeenv with
    | none =>
      rw [Session.flush, henv] at hflush
      cases hflush
    | some e =>
      rw [Session.flush, henv] at hflush
      obtain rfl := Except.ok.inj hflush
      obtain rfl := Option.some.inj ha
      rfl
  · obtain ⟨rfl, -⟩ := Prod.mk.inj (Except.ok.inj hstep)
    rw [(close_trace s).2.2.1] at ha
    cases ha

/-- **What was written is read back.**  In every run of one cache in which the operating system
does its work, each recorded block that is not empty comes from an accepted write request.  Read
back it gives the data of that request, or nothing as long as its assembly is being written, which
it never is after `flush` or `close`. -/
theorem run_readsBack (C : Crypto) (H : Host) (cfg : CoqConfiguration) (nEnvs depth : ℕ)
    (hn : 1 ≤ nEnvs) (keys : CoqKeyStore) (fblocks : CoqFBlockStore) (finfos : CoqFInfoStore)
    (w : World) (ops : List Op) (s : Session cfg) (answers : List (Op × Answer))
    (hrun : (Session.init cfg nEnvs depth keys fblocks finfos w).run C H ops = .ok (s, answers))
    (hfav : Favourable C H cfg w keys s.world.nassembly) :
    let s₀ := Session.init cfg nEnvs depth keys fblocks finfos w
    (∀ fname, ∀ bi ∈ addedBlocks s₀ s fname, bi.blocksize ≠ 0 →
        ∃ wreq ∈ acceptedWrites answers, ∃ data,
          requestWanted C cfg wreq = some ⟨fname, bi.filepos, data⟩ ∧
          (restoreAlone C s bi).map CoqBuffer.bytes =
            (if openAid s = some bi.blockaid then none else some data) ∧
          (ops.getLast? = some .flush ∨ ops.getLast? = some .close →
            openAid s ≠ some bi.blockaid)) ∧
      ∀ q : List BlockInformation, s.cache.readqueue = q.map BlockInformation.request →
        (∀ bi ∈ q, bi.blocksize ≠ 0 ∧ openAid s ≠ some bi.blockaid ∧
          ∃ fname, bi ∈ addedBlocks s₀ s fname) →
        ∃ s', s.step C H .iterateRead =
          .ok (s', .results (q.map fun bi => ⟨bi.request, restoreAlone C s bi⟩)) := by
  intro s₀
  have hC := hfav.lawful.hex
  have hp := run_progress hC (coherent_init hn depth keys fblocks finfos w) hrun
  obtain ⟨es, htrace, hes⟩ := hp.trace
  have hacc : Accounted C H (writeSide s₀) (writeSide s) ([] ++ es) :=
    htrace.accounted (accounted_start rfl)
  have harch : Archived C H w s.world.nassembly (writeSide s) ([] ++ es) :=
    htrace.archived hfav (accounted_start rfl) (archived_start hfav rfl) (Nat.le_refl _)
  have hblock : ∀ fname, ∀ bi ∈ addedBlocks s₀ s fname, bi.blocksize ≠ 0 →
      ∃ x, Requested C cfg (acceptedWrites answers) ([] ++ es) fname bi x :=
    fun fname bi hbi hsize => exists_requested hacc.ledger hes hbi hsize
  refine ⟨fun fname bi hbi hsize => ?_, fun q hq hall => ?_⟩
  · obtain ⟨x, ho⟩ := hblock fname bi hbi hsize
    obtain ⟨wreq, hmem, hwanted⟩ := ho.request
    refine ⟨wreq, hmem, x.data, hwanted, harch.read ho, fun hlast => harch.openAid_ne ho ?_⟩
    -- the last operation has left an assembly without blocks, or none
    have hsplit : ∃ ops' op, ops = ops' ++ [op] ∧ (op = .flush ∨ op = .close) := by
      rcases hlast with hlast | hlast
      · exact ⟨ops.dropLast, _, (List.dropLast_append_getLast? _ hlast).symm, .inl rfl⟩
      · exact ⟨ops.dropLast, _, (List.dropLast_append_getLast? _ hlast).symm, .inr rfl⟩
    obtain ⟨ops', op, rfl, hop⟩ := hsplit
    obtain ⟨s₁, before, after, -, hlast', -⟩ := run_append_inv hrun
    obtain ⟨s₂, answer, rest, hstep, hnil, -⟩ := run_cons_inv hlast'
    obtain ⟨rfl, -⟩ := Prod.mk.inj (Except.ok.inj hnil)
    exact step_fresh hop hstep
  · obtain ⟨s', hiter, -⟩ := hp.coherent.iterateReadQueue hC H hq
    have hloads : ∀ bi ∈ q, (loads C s bi.blockaid).isSome = true := by
      intro bi hbi
      obtain ⟨hsize, hopen, fname, hmem⟩ := hall bi hbi
      obtain ⟨x, ho⟩ := hblock fname bi hmem hsize
      have hread := harch.read ho
      rw [if_neg hopen, restoreAlone_eq] at hread
      obtain ⟨b, hb, -⟩ := Option.map_eq_some_iff.mp hread
      obtain ⟨a, ha, -⟩ := Option.bind_eq_some_iff.mp hb
      rw [ha]
      rfl
    have hbatch : batchResults C s q = q.map fun bi => ⟨bi.request, restoreAlone C s bi⟩ := by
      rw [batchResults, List.takeWhile_eq_self_iff.mpr hloads]
    exact ⟨s', step_iterateRead.mpr ⟨_, rfl, hbatch ▸ hiter⟩⟩

/-- A block of one byte is written, and read back after `close`. -/
theorem run_readsBack_simple :
    let H := numberedHost fun _ _ => allWorks
    let w : WriteQueueEntity := ⟨Vector.replicate 32 0, 0, some (CoqBuffer.ofBytes [1])⟩
    let s₀ := Session.init config16 1 1 ∅ ∅ ∅ emptyWorld
    ∃ s answers, s₀.run simple H [.enqueueWrite w, .iterateWrite, .close] = .ok (s, answers) ∧
      ∃ bi ∈ addedBlocks s₀ s (simple.toHex256 w.fhash),
        (restoreAlone simple s bi).map CoqBuffer.bytes = some [1] := by
  intro H w s₀
  have hstart : Accounted simple H (writeSide s₀) (writeSide s₀) [] := accounted_start rfl
  obtain ⟨s, es, hrun, hwrites, -, -, hwanted⟩ :=
    run_write_close (C := simple) (H := H) hstart.fitting rfl (Nat.le_refl 1) w
  have hroom : headerLen config16.nchunks + (CoqBuffer.ofBytes [1] : CoqBuffer .plain).len ≤
      dataEnd config16.nchunks := by decide
  have hwant : requestWanted simple config16 w = some ⟨simple.toHex256 w.fhash, 0, [1]⟩ :=
    requestWanted_of_room rfl hroom
  have hes : es.map Entry.wanted = [⟨simple.toHex256 w.fhash, 0, [1]⟩] := hwanted
  have hdraws : s.world.nassembly ≤ 0 + 2 := hwrites.nassembly_le
  -- the block is recorded
  obtain ⟨x, rfl, hx⟩ := List.map_eq_singleton_iff.mp hes
  have hname : x.fname = simple.toHex256 w.fhash := congrArg Wanted.fname hx
  have hdata : x.data = [1] := congrArg Wanted.data hx
  have hadded := addedBlocks_eq (hwrites.trace.accounted hstart).ledger (simple.toHex256 w.fhash)
  rw [List.nil_append, recordsOf_singleton, if_pos hname.symm] at hadded
  obtain ⟨bi, hbi, hrec⟩ := List.map_eq_singleton_iff.mp hadded
  have hsize : bi.blocksize ≠ 0 := by
    rw [Entry.record, if_neg (by simp [hdata])] at hrec
    have hlen : bi.blocksize = x.data.length := congrArg BlockInformation.blocksize hrec
    simp [hlen, hdata]
  have hmem : bi ∈ addedBlocks s₀ s (simple.toHex256 w.fhash) := by
    rw [hbi]
    exact List.mem_singleton_self bi
  obtain ⟨wreq, hwreq, data, hreq, hread, hclosed⟩ := (run_readsBack simple H config16 1 1
    (Nat.le_refl 1) ∅ ∅ ∅ emptyWorld _ _ _ hrun (favourable_numbered
      (Nat.le_trans hdraws (by decide)))).1 (simple.toHex256 w.fhash) bi hmem hsize
  obtain rfl : wreq = w := List.mem_singleton.mp hwreq
  rw [if_neg (hclosed (.inr rfl))] at hread
  rw [hwant, Option.some.injEq, Wanted.mk.injEq] at hreq
  exact ⟨s, _, hrun, bi, hmem, by rw [hread, ← hreq.2.2]⟩

end Elykseer.Analysis
