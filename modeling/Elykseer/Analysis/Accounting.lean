import Elykseer.Analysis.WritePath

/-!
# Blocks, keys and failures

`Accounted` relates a state of the write path to the blocks recorded so far, for any
library and any answers of the operating system: every block is in the assembly that is
being filled, or has a key, or its assembly was reported as failed.  With distinct
draws the failed assemblies are counted one by one (`Counted`).
-/

set_option autoImplicit false

namespace Elykseer.Analysis

open Elykseer.Model Elykseer.Foundation

variable {C : Crypto} {H : Host} {cfg : CoqConfiguration}

/-- A block without its number in the list. -/
def unnumbered (bi : BlockInformation) : BlockInformation := { bi with blockid := 0 }

/-- The record of a block that is not empty names its assembly. -/
theorem aid_record {x : Entry} (hx : x.data ≠ []) : (unnumbered (x.record C)).blockaid = x.aid := by
  rw [Entry.record, if_neg hx]
  rfl

/-- The blocks of a name among the recorded ones. -/
def recordsOf (C : Crypto) (L : List Entry) (fname : Bytes) : List BlockInformation :=
  (L.filter fun x => x.fname = fname).map fun x => unnumbered (x.record C)

/-- The records under a name, in two parts. -/
theorem recordsOf_append (L L' : List Entry) (fname : Bytes) :
    recordsOf C (L ++ L') fname = recordsOf C L fname ++ recordsOf C L' fname := by
  simp [recordsOf, List.filter_append]

/-- One block has a record under its own name only. -/
theorem recordsOf_singleton (x : Entry) (fname : Bytes) :
    recordsOf C [x] fname = if fname = x.fname then [unnumbered (x.record C)] else [] := by
  unfold recordsOf
  by_cases h : x.fname = fname
  · simp [h]
  · simp [h, Ne.symm h]

/-- The records under a name are those of the blocks with that name. -/
theorem mem_recordsOf {L : List Entry} {fname : Bytes} {bi : BlockInformation} :
    bi ∈ recordsOf C L fname ↔ ∃ x ∈ L, x.fname = fname ∧ unnumbered (x.record C) = bi := by
  simp [recordsOf, and_assoc]

/-- All blocks of a list under their common name. -/
theorem recordsOf_eq_map {L : List Entry} {fname : Bytes} (h : ∀ x ∈ L, x.fname = fname) :
    recordsOf C L fname = L.map fun x => unnumbered (x.record C) := by
  unfold recordsOf
  rw [List.filter_eq_self.mpr fun x hx => decide_eq_true (h x hx)]

/-- Without a block of that name there is no record under it. -/
theorem recordsOf_eq_nil {L : List Entry} {fname : Bytes} (h : ∀ x ∈ L, x.fname ≠ fname) :
    recordsOf C L fname = [] := by
  unfold recordsOf
  rw [List.filter_eq_nil_iff.mpr fun x hx => by simpa using h x hx, List.map_nil]

/-- The blocks recorded since `s₀` are behind those that were there. -/
def Ledger (C : Crypto) (s₀ s : WriteSide cfg) (L : List Entry) : Prop :=
  ∀ fname, (CoqFBlockStore.blocks s.blocks fname).map unnumbered =
    (CoqFBlockStore.blocks s₀.blocks fname).map unnumbered ++ recordsOf C L fname

/-- Recording a block adds it to the ledger. -/
theorem Ledger.add {s₀ s s' : WriteSide cfg} {L : List Entry} (h : Ledger C s₀ s L) (x : Entry)
    (hs' : s'.blocks = CoqFBlockStore.add s.blocks x.fname (x.record C)) :
    Ledger C s₀ s' (L ++ [x]) := by
  intro fname
  rw [hs', CoqFBlockStore.blocks_add, recordsOf_append, recordsOf_singleton, ← List.append_assoc,
    ← h fname]
  split
  · next heq => rw [heq, List.map_append]; rfl
  · rw [List.append_nil]

/-- A step adds the blocks it records to the ledger. -/
theorem Ledger.step {s₀ s s' : WriteSide cfg} {L es : List Entry} (h : Ledger C s₀ s L)
    (hstep : WriteStep C H s es s') : Ledger C s₀ s' (L ++ es) := by
  cases hstep with
  | append a a' nFailed w keys blocks fname fpos d =>
    exact h.add ⟨fname, fpos, d, a.aid, a.apos⟩ rfl
  | blank a nFailed w keys blocks fname fpos => exact h.add ⟨fname, fpos, [], [], 0⟩ rfl
  | create => rwa [List.append_nil]
  | finalise => rwa [List.append_nil]
  | recreate => rwa [List.append_nil]
  | quiet => rwa [List.append_nil]

/-- A block under a name that had none comes from an entry. -/
theorem Ledger.exists_entry {s₀ s : WriteSide cfg} {L : List Entry} (h : Ledger C s₀ s L)
    (fname : Bytes) (hnone : CoqFBlockStore.blocks s₀.blocks fname = []) {bi : BlockInformation}
    (hbi : bi ∈ CoqFBlockStore.blocks s.blocks fname) :
    ∃ x ∈ L, x.fname = fname ∧ unnumbered bi = unnumbered (x.record C) := by
  have hmem := List.mem_map_of_mem (f := unnumbered) hbi
  rw [h fname, hnone, List.map_nil, List.nil_append, mem_recordsOf] at hmem
  obtain ⟨x, hx, hname, hrecord⟩ := hmem
  exact ⟨x, hx, hname, hrecord.symm⟩

/-- The ledger is empty at first. -/
theorem ledger_refl (s : WriteSide cfg) : Ledger C s s [] := fun fname => by simp [recordsOf]

/-- What a run records is behind what was there. -/
theorem WriteTrace.ledger {s₀ s s' : WriteSide cfg} {L es : List Entry}
    (h : WriteTrace C H s es s') (hs : Ledger C s₀ s L) : Ledger C s₀ s' (L ++ es) :=
  Trace.invariant (fun hI hstep => hI.step hstep) h hs

/-- A run that records nothing under a name leaves its list alone. -/
theorem WriteTrace.find_blocks {s s' : WriteSide cfg} {es : List Entry} (h : WriteTrace C H s es s')
    {fname : Bytes} (hes : ∀ x ∈ es, x.fname ≠ fname) :
    CoqStore.find s'.blocks fname = CoqStore.find s.blocks fname := by
  have hadd : ∀ (blocks : CoqFBlockStore) (k : Bytes) (bi : BlockInformation), k ≠ fname →
      CoqStore.find (CoqFBlockStore.add blocks k bi) fname = CoqStore.find blocks fname := by
    intro blocks k bi hne
    unfold CoqFBlockStore.add
    split <;> rw [CoqStore.find_add, if_neg hne.symm]
  have hrun := Trace.invariant_start (I := fun s' L => (∀ x ∈ L, x.fname ≠ fname) →
    CoqStore.find s'.blocks fname = CoqStore.find s.blocks fname)
    (fun {s₁ L es₁ s₂} hI hstep hL => by
      have hold := hI fun x hx => hL x (List.mem_append_left _ hx)
      cases hstep with
      | append a a' nFailed w keys blocks k fpos d =>
        exact (hadd _ _ _ (hL ⟨k, fpos, d, a.aid, a.apos⟩ (by simp))).trans hold
      | blank a nFailed w keys blocks k fpos =>
        exact (hadd _ _ _ (hL ⟨k, fpos, [], [], 0⟩ (by simp))).trans hold
      | create => exact hold
      | finalise => exact hold
      | recreate => exact hold
      | quiet => exact hold) h fun _ => rfl
  exact hrun hes

/-- A block lies in an assembly that is being filled, in front of its next position. -/
structure InAssembly (a : CoqAssemblyPlainWritable cfg) (x : Entry) : Prop where
  aid_eq : a.aid = x.aid
  behind : x.apos + x.data.length ≤ a.apos
  holds : Holds cfg.nchunks a.buffer.bytes x.apos x.data

/-- Every block since `s₀` is accounted for. -/
structure Accounted (C : Crypto) (H : Host) (s₀ s : WriteSide cfg) (L : List Entry) : Prop where
  fitting : s.Fitting
  ledger : Ledger C s₀ s L
  nassembly_le : s₀.world.nassembly ≤ s.world.nassembly
  current : ∀ a, s.current = some a → ∃ i, s.world.nassembly = i + 1 ∧
    s₀.world.nassembly ≤ i ∧ a.aid = aidOf C H cfg i
  drawn : ∀ x ∈ L, x.data ≠ [] → ∃ i, s₀.world.nassembly ≤ i ∧ i < s.world.nassembly ∧
    x.aid = aidOf C H cfg i
  status : ∀ x ∈ L, x.data ≠ [] → (∃ a, s.current = some a ∧ InAssembly a x) ∨
    (CoqStore.find s.keys x.aid).isSome = true ∨ x.aid ∈ failedAids s.world.clog

/-- Nothing has to be accounted for at first. -/
theorem accounted_start {s₀ : WriteSide cfg} (h : s₀.env = none) : Accounted C H s₀ s₀ [] where
  fitting a ha := by simp [WriteSide.current, h] at ha
  ledger := ledger_refl s₀
  nassembly_le := Nat.le_refl _
  current a ha := by simp [WriteSide.current, h] at ha
  drawn := by simp
  status := by simp

/-- The assembly that could not be archived is reported. -/
theorem ArchiveFailure.failedAids_eq {a : CoqAssemblyPlainWritable cfg} {w : World}
    {fs : FileSystem} {line : LogLine} (h : ArchiveFailure C H a w fs line) :
    failedAids [line] = [a.aid] := by
  cases h <;> rfl

/-- The failures a write environment has counted. -/
def WriteSide.nFailed (s : WriteSide cfg) : ℕ := s.env.elim 0 (·.nFailed)

/-- A transition reports no failure, or that of the assembly that was being filled, which gets no
key. -/
theorem WriteStep.failures {s s' : WriteSide cfg} {es : List Entry} (h : WriteStep C H s es s') :
    (failedAids s'.world.clog = failedAids s.world.clog ∧ s'.nFailed = s.nFailed) ∨
      ∃ a, s.current = some a ∧ s'.current = none ∧ headerLen cfg.nchunks < a.apos ∧
        s'.keys = s.keys ∧ failedAids s'.world.clog = failedAids s.world.clog ++ [a.aid] ∧
        s'.nFailed = (s.nFailed + 1) % 4294967296 := by
  cases h with
  | finalise e e' w w' keys blocks okey h =>
    cases h with
    | absent => exact Or.inl ⟨rfl, rfl⟩
    | empty => exact Or.inl ⟨rfl, rfl⟩
    | archived => exact Or.inl ⟨rfl, rfl⟩
    | failed a ha hapos fs line hfail =>
      refine Or.inr ⟨a, ha, rfl, hapos, rfl, ?_, rfl⟩
      change failedAids (w.clog ++ [line]) = _
      rw [failedAids_append, hfail.failedAids_eq]
  | quiet env w w' keys blocks h => exact Or.inl ⟨h.failed, rfl⟩
  | create => exact Or.inl ⟨rfl, rfl⟩
  | append => exact Or.inl ⟨rfl, rfl⟩
  | blank => exact Or.inl ⟨rfl, rfl⟩
  | recreate => exact Or.inl ⟨rfl, rfl⟩

/-- A failure stays in the log. -/
theorem mem_failedAids_of_step {s s' : WriteSide cfg} {es : List Entry}
    (h : WriteStep C H s es s') (aid : Bytes) (hmem : aid ∈ failedAids s.world.clog) :
    aid ∈ failedAids s'.world.clog := by
  rcases h.failures with ⟨heq, -⟩ | ⟨a, -, -, -, -, heq, -⟩
  · rwa [heq]
  · rw [heq]
    exact List.mem_append_left _ hmem

/-- An assembly with a block is archived with a key or reported as failed. -/
theorem FinaliseStep.status {e e' : CoqEnvironmentWritable cfg} {w w' : World}
    {okey : Option (Bytes × KeyInformation)} (h : FinaliseStep C H e w e' w' okey)
    {a : CoqAssemblyPlainWritable cfg} (ha : e.assembly = some a)
    (hapos : headerLen cfg.nchunks < a.apos) (keys : CoqKeyStore) :
    (CoqStore.find (Session.addKey keys okey) a.aid).isSome = true ∨
      a.aid ∈ failedAids w'.clog := by
  cases h with
  | absent h => cases ha.symm.trans h
  | empty a₁ h hle =>
    cases ha.symm.trans h
    omega
  | failed a₁ h _ fs line hfail =>
    cases ha.symm.trans h
    right
    change a.aid ∈ failedAids (w.clog ++ [line])
    rw [failedAids_append, hfail.failedAids_eq]
    simp
  | archived a₁ h =>
    cases ha.symm.trans h
    left
    rw [Session.addKey, CoqKeyStore.find_add, if_pos rfl]
    rfl

/-- An assembly with a block that is not empty is filled beyond its header. -/
theorem InAssembly.headerLen_lt {a : CoqAssemblyPlainWritable cfg} {x : Entry}
    (h : InAssembly a x) (hx : x.data ≠ []) : headerLen cfg.nchunks < a.apos := by
  have h1 := h.holds.header_le
  have h2 := h.behind
  have h3 := List.length_pos_of_ne_nil hx
  omega

/-- A block stays where it is when another one is appended. -/
theorem InAssembly.appended {a a' : CoqAssemblyPlainWritable cfg} {x : Entry} {d : Bytes}
    (h : InAssembly a x) (happ : Appended a a' d) : InAssembly a' x where
  aid_eq := happ.aid_eq.trans h.aid_eq
  behind := by
    rw [happ.apos_eq]
    exact Nat.le_trans h.behind (Nat.le_add_right _ _)
  holds := h.holds.appended h.behind happ

/-- A new block is in the assembly that is being filled. -/
theorem WriteStep.inAssembly {s s' : WriteSide cfg} {es : List Entry} (h : WriteStep C H s es s')
    (hfit : s.Fitting) {x : Entry} (hx : x ∈ es) (hd : x.data ≠ []) :
    ∃ a, s'.current = some a ∧ InAssembly a x := by
  cases h with
  | append a a' nFailed w keys blocks fname fpos d hne hroom happ =>
    rw [List.mem_singleton.mp hx]
    exact ⟨a', rfl, happ.aid_eq, Nat.le_of_eq happ.apos_eq.symm,
      holds_appended (hfit a rfl) happ hroom⟩
  | blank =>
    rw [List.mem_singleton.mp hx] at hd
    exact absurd rfl hd
  | create => cases hx
  | finalise => cases hx
  | recreate => cases hx
  | quiet => cases hx

/-- **A block stays in the assembly that is being filled** until this is finalised; `P` and `P'` are
what is known of the other blocks before and after the transition. -/
theorem WriteStep.inAssembly_or {s s' : WriteSide cfg} {L es : List Entry}
    (h : WriteStep C H s es s') (hfit : s.Fitting) {P P' : Entry → Prop}
    (hL : ∀ x ∈ L, x.data ≠ [] → (∃ a, s.current = some a ∧ InAssembly a x) ∨ P x)
    (hkeep : ∀ x, P x → P' x)
    (hfinal : ∀ a x, s.current = some a → s'.current = none → InAssembly a x → x.data ≠ [] → P' x) :
    ∀ x ∈ L ++ es, x.data ≠ [] → (∃ a, s'.current = some a ∧ InAssembly a x) ∨ P' x := by
  intro x hx hd
  rcases List.mem_append.mp hx with hx | hx
  · rcases hL x hx hd with ⟨a, ha, hin⟩ | hP
    · cases hcurrent : s'.current with
      | none => exact Or.inr (hfinal a x ha hcurrent hin hd)
      | some a' =>
        left
        cases h.filling hcurrent with
        | same hsame =>
          cases ha.symm.trans hsame
          exact ⟨a, rfl, hin⟩
        | longer a₁ ha₁ hnum fname fpos d hne hroom happ =>
          cases ha.symm.trans ha₁
          exact ⟨a', rfl, hin.appended happ⟩
        | fresh hnone => cases ha.symm.trans hnone
    · exact Or.inr (hkeep x hP)
  · exact Or.inl (h.inAssembly hfit hx hd)

/-- **Every transition accounts for its blocks.** -/
theorem Accounted.step {s₀ s s' : WriteSide cfg} {L es : List Entry} (h : Accounted C H s₀ s L)
    (hstep : WriteStep C H s es s') : Accounted C H s₀ s' (L ++ es) := by
  have hcurrent : ∀ a, s'.current = some a → ∃ i, s'.world.nassembly = i + 1 ∧
      s₀.world.nassembly ≤ i ∧ a.aid = aidOf C H cfg i := by
    intro a' ha'
    cases hstep.filling ha' with
    | same ha hnum =>
      obtain ⟨i, hi, hrest⟩ := h.current a' ha
      exact ⟨i, hnum.trans hi, hrest⟩
    | longer a ha hnum fname fpos d hd hroom happ =>
      obtain ⟨i, hi, hi₀, haid⟩ := h.current a ha
      exact ⟨i, hnum.trans hi, hi₀, happ.aid_eq.trans haid⟩
    | fresh hnone hnum heq =>
      rw [heq]
      exact ⟨s.world.nassembly, hnum, h.nassembly_le, rfl⟩
  refine ⟨hstep.fitting h.fitting, h.ledger.step hstep,
    Nat.le_trans h.nassembly_le hstep.nassembly_le, hcurrent, fun x hx hd => ?_,
    hstep.inAssembly_or h.fitting h.status ?_ ?_⟩
  · rcases List.mem_append.mp hx with hx | hx
    · obtain ⟨i, h1, h2, h3⟩ := h.drawn x hx hd
      exact ⟨i, h1, Nat.lt_of_lt_of_le h2 hstep.nassembly_le, h3⟩
    · obtain ⟨a, ha, hin⟩ := hstep.inAssembly h.fitting hx hd
      obtain ⟨i, hi, hi₀, haid⟩ := hcurrent a ha
      exact ⟨i, hi₀, hi ▸ Nat.lt_succ_self i, hin.aid_eq.symm.trans haid⟩
  · rintro x (hkey | hfailed)
    · left
      rwa [hstep.find_keys (Or.inr hkey)]
    · exact Or.inr (mem_failedAids_of_step hstep _ hfailed)
  · intro a x ha hnone hin hd
    obtain ⟨e, e', okey, he, hfin, hkeys⟩ := hstep.finalised ha hnone
    rw [hkeys, ← hin.aid_eq]
    exact hfin.status he (hin.headerLen_lt hd) s.keys

/-- **Every run accounts for its blocks.** -/
theorem WriteTrace.accounted {s₀ s s' : WriteSide cfg} {L es : List Entry}
    (h : WriteTrace C H s es s') (hs : Accounted C H s₀ s L) : Accounted C H s₀ s' (L ++ es) :=
  Trace.invariant (fun hI hstep => hI.step hstep) h hs

/-- The keys that are new since `s₀` are those of assemblies drawn since. -/
def Keyed (C : Crypto) (H : Host) (s₀ s : WriteSide cfg) : Prop :=
  ∀ aid ki, CoqStore.find s.keys aid = some ki → CoqStore.find s₀.keys aid = some ki ∨
    (∃ i, s₀.world.nassembly ≤ i ∧ i < s.world.nassembly ∧ aid = aidOf C H cfg i) ∧
      ki.version = formatVersion

/-- **Every transition adds at most the key of its assembly.** -/
theorem Keyed.step {s₀ s s' : WriteSide cfg} {L es : List Entry} (h : Keyed C H s₀ s)
    (hacc : Accounted C H s₀ s L) (hstep : WriteStep C H s es s') : Keyed C H s₀ s' := by
  have hle := hstep.nassembly_le
  -- the keys that were there
  have hold : ∀ aid ki, CoqStore.find s.keys aid = some ki → CoqStore.find s₀.keys aid = some ki ∨
      (∃ i, s₀.world.nassembly ≤ i ∧ i < s'.world.nassembly ∧ aid = aidOf C H cfg i) ∧
        ki.version = formatVersion := by
    intro aid ki hki
    refine (h aid ki hki).imp_right fun hnew => ⟨?_, hnew.2⟩
    obtain ⟨i, hi₀, hi, haid⟩ := hnew.1
    exact ⟨i, hi₀, Nat.lt_of_lt_of_le hi hle, haid⟩
  cases hstep with
  | finalise e e' w w' keys blocks okey hfin =>
    cases hfin with
    | archived a ha hapos enc henc hall =>
      intro aid ki hki
      change CoqStore.find (CoqKeyStore.add keys a.aid _) aid = some ki at hki
      rw [CoqKeyStore.find_add] at hki
      split at hki
      · next haid =>
        obtain ⟨i, hi, hi₀, hcur⟩ := hacc.current a ha
        have hi' : w.nassembly = i + 1 := hi
        cases hkey : CoqStore.find keys a.aid with
        | none =>
          rw [hkey, Option.getD_none, Option.some.injEq] at hki
          refine Or.inr ⟨⟨i, hi₀, hi' ▸ Nat.lt_succ_self i, haid.trans hcur⟩, ?_⟩
          rw [← hki]
          rfl
        | some ki' =>
          rw [hkey, Option.getD_some, Option.some.injEq] at hki
          exact hold aid ki (by rw [haid, ← hki]; exact hkey)
      · exact hold aid ki hki
    | absent => exact hold
    | empty => exact hold
    | failed => exact hold
  | create => exact hold
  | append => exact hold
  | blank => exact hold
  | recreate => exact hold
  | quiet => exact hold

/-- **Every run adds keys of its assemblies only.** -/
theorem WriteTrace.keyed {s₀ s : WriteSide cfg} {es : List Entry} (h : WriteTrace C H s₀ es s)
    (henv : s₀.env = none) : Keyed C H s₀ s :=
  (Trace.invariant_start (I := fun s L => Accounted C H s₀ s L ∧ Keyed C H s₀ s)
    (fun hI hstep => ⟨hI.1.step hstep, hI.2.step hI.1 hstep⟩) h
    ⟨accounted_start henv, fun _ _ hki => Or.inl hki⟩).2

/-! ## Counting the failures -/

/-- The failed assemblies since `s₀` are counted, if the draws below `N` are distinct. -/
structure Counted (C : Crypto) (H : Host) (N : ℕ) (s : WriteSide cfg) (L : List Entry) : Prop where
  filled : ∀ a, s.current = some a → headerLen cfg.nchunks < a.apos →
    ∃ x ∈ L, x.data ≠ [] ∧ x.aid = a.aid
  unsealed : ∀ a, s.current = some a →
    CoqStore.find s.keys a.aid = none ∧ a.aid ∉ failedAids s.world.clog
  undrawn : ∀ i, s.world.nassembly ≤ i → i < N →
    CoqStore.find s.keys (aidOf C H cfg i) = none
  failed : ∀ aid ∈ failedAids s.world.clog,
    (∃ x ∈ L, x.data ≠ [] ∧ x.aid = aid) ∧ CoqStore.find s.keys aid = none
  nodup : (failedAids s.world.clog).Nodup
  count : s.nFailed = (failedAids s.world.clog).length % 4294967296
  absent : s.env = none → failedAids s.world.clog = []

/-- No assembly has failed at first. -/
theorem counted_start {s₀ : WriteSide cfg} {N : ℕ} (henv : s₀.env = none)
    (hlog : failedAids s₀.world.clog = [])
    (hkeys : ∀ i, s₀.world.nassembly ≤ i → i < N →
      CoqStore.find s₀.keys (aidOf C H cfg i) = none) : Counted C H N s₀ [] where
  filled a ha := by simp [WriteSide.current, henv] at ha
  unsealed a ha := by simp [WriteSide.current, henv] at ha
  undrawn := hkeys
  failed := by simp [hlog]
  nodup := by simp [hlog]
  count := by simp [WriteSide.nFailed, henv, hlog]
  absent _ := hlog

/-- No step takes the write environment away. -/
theorem WriteStep.env_eq_none {s s' : WriteSide cfg} {es : List Entry} (h : WriteStep C H s es s')
    (hnone : s'.env = none) : s.env = none := by
  cases h with
  | quiet => exact hnone
  | create => cases hnone
  | append => cases hnone
  | blank => cases hnone
  | finalise => cases hnone
  | recreate => cases hnone

/-- **Every transition counts its failures.** -/
theorem Counted.step {s₀ s s' : WriteSide cfg} {L es : List Entry} {N : ℕ}
    (h : Counted C H N s L) (hacc : Accounted C H s₀ s L)
    (hdistinct : Set.InjOn (aidOf C H cfg) (Set.Ico s₀.world.nassembly N))
    (hstep : WriteStep C H s es s') (hN : s'.world.nassembly ≤ N) :
    Counted C H N s' (L ++ es) := by
  have hle := hstep.nassembly_le
  have hwiden : ∀ {aid : Bytes}, (∃ x ∈ L, x.data ≠ [] ∧ x.aid = aid) →
      ∃ x ∈ L ++ es, x.data ≠ [] ∧ x.aid = aid :=
    fun ⟨x, hx, hrest⟩ => ⟨x, List.mem_append_left _ hx, hrest⟩
  -- the assembly that is being filled is the last one that was drawn
  have hne : ∀ i, s'.world.nassembly ≤ i → i < N → ∀ a, s.current = some a →
      aidOf C H cfg i ≠ a.aid := by
    intro i hi hiN a ha heq
    obtain ⟨j, hj, hj₀, haid⟩ := hacc.current a ha
    have := hdistinct ⟨by omega, hiN⟩ ⟨hj₀, by omega⟩ (heq.trans haid)
    omega
  have hold : ∀ aid ∈ failedAids s.world.clog, (∃ x ∈ L ++ es, x.data ≠ [] ∧ x.aid = aid) ∧
      CoqStore.find s'.keys aid = none := by
    intro aid haid
    obtain ⟨hentry, hkey⟩ := h.failed aid haid
    have hother : ∀ a, s.current = some a → aid ≠ a.aid :=
      fun a ha heq => (h.unsealed a ha).2 (heq ▸ haid)
    exact ⟨hwiden hentry, (hstep.find_keys (Or.inl hother)).trans hkey⟩
  have hfilled : ∀ a, s'.current = some a → headerLen cfg.nchunks < a.apos →
      ∃ x ∈ L ++ es, x.data ≠ [] ∧ x.aid = a.aid := by
    intro a' ha' hapos
    cases hstep.filling ha' with
    | same ha => exact hwiden (h.filled a' ha hapos)
    | longer a ha hnum fname fpos d hd hroom happ =>
      exact ⟨_, List.mem_append_right _ (List.mem_singleton_self _), hd, happ.aid_eq.symm⟩
    | fresh hnone hnum heq =>
      rw [heq, apos_newAssembly] at hapos
      exact absurd hapos (Nat.lt_irrefl _)
  have hunsealed : ∀ a, s'.current = some a →
      CoqStore.find s'.keys a.aid = none ∧ a.aid ∉ failedAids s'.world.clog := by
    intro a' ha'
    obtain ⟨hkeys, -, hfailed⟩ := hstep.undisturbed ha'
    rw [hkeys, hfailed]
    cases hstep.filling ha' with
    | same ha => exact h.unsealed a' ha
    | longer a ha hnum fname fpos d hd hroom happ =>
      rw [happ.aid_eq]
      exact h.unsealed a ha
    | fresh hnone hnum heq =>
      have hlt : s.world.nassembly < N := by omega
      rw [heq, aid_newAssembly]
      refine ⟨h.undrawn _ (Nat.le_refl _) hlt, fun hmem => ?_⟩
      -- the failed assemblies were drawn before
      obtain ⟨⟨x, hx, hd, haid⟩, -⟩ := h.failed _ hmem
      obtain ⟨i, hi₀, hi, hxi⟩ := hacc.drawn x hx hd
      have := hdistinct ⟨hi₀, by omega⟩ ⟨hacc.nassembly_le, hlt⟩ (hxi.symm.trans haid)
      omega
  have hundrawn : ∀ i, s'.world.nassembly ≤ i → i < N →
      CoqStore.find s'.keys (aidOf C H cfg i) = none := by
    intro i hi hiN
    rw [hstep.find_keys (Or.inl (hne i hi hiN))]
    exact h.undrawn i (Nat.le_trans hle hi) hiN
  have hcount := h.count
  rcases hstep.failures with ⟨hlog, hnum⟩ | ⟨a, ha, -, hapos, hkeys, hlog, hnum⟩
  · refine ⟨hfilled, hunsealed, hundrawn, ?_, ?_, ?_, fun hnone => ?_⟩
    · rwa [hlog]
    · rw [hlog]
      exact h.nodup
    · rw [hlog, hnum, hcount]
    · rw [hlog]
      exact h.absent (hstep.env_eq_none hnone)
  · obtain ⟨hunkeyed, hnot⟩ := h.unsealed a ha
    refine ⟨hfilled, hunsealed, hundrawn, ?_, ?_, ?_, fun hnone => ?_⟩
    · intro aid haid
      rw [hlog, List.mem_append, List.mem_singleton] at haid
      rcases haid with haid | rfl
      · exact hold aid haid
      · exact ⟨hwiden (h.filled a ha hapos), hkeys ▸ hunkeyed⟩
    · rw [hlog]
      refine List.nodup_append.mpr ⟨h.nodup, List.nodup_singleton _, ?_⟩
      intro x hx y hy heq
      exact hnot (by rw [← List.mem_singleton.mp hy, ← heq]; exact hx)
    · rw [hlog, hnum, hcount, List.length_append, List.length_singleton, Nat.mod_add_mod]
    · rw [WriteSide.current, hstep.env_eq_none hnone] at ha
      cases ha

/-- **Every run counts its failures.** -/
theorem WriteTrace.counted {s₀ s s' : WriteSide cfg} {L es : List Entry} {N : ℕ}
    (h : WriteTrace C H s es s') (hacc : Accounted C H s₀ s L) (hs : Counted C H N s L)
    (hdistinct : Set.InjOn (aidOf C H cfg) (Set.Ico s₀.world.nassembly N))
    (hN : s'.world.nassembly ≤ N) : Counted C H N s' (L ++ es) := by
  have hrun := Trace.invariant
    (I := fun s L => Accounted C H s₀ s L ∧ (s.world.nassembly ≤ N → Counted C H N s L))
    (fun hI hstep => ⟨hI.1.step hstep, fun hle =>
      (hI.2 (Nat.le_trans hstep.nassembly_le hle)).step hI.1 hdistinct hstep hle⟩)
    h ⟨hacc, fun _ => hs⟩
  exact hrun.2 hN

end Elykseer.Analysis
