import Elykseer.Analysis.CacheRuns
import Elykseer.Analysis.Finalise

/-!
# Nothing fails

When every answer of the operating system is favourable and every draw is new, no
assembly fails, and every block is in the assembly that is being filled or can be read
back from the chunk files with its key (`Archived`).
-/

set_option autoImplicit false

namespace Elykseer.Analysis

open Elykseer.Model Elykseer.Foundation

variable {C : Crypto} {H : Host} {cfg : CoqConfiguration} {w₀ : World} {keys₀ : CoqKeyStore} {N : ℕ}

/-- From `w₀` on, and for the assemblies up to the `N`-th: the library is lawful, the draws are
distinct and new, no two chunks share a file, and all chunks are written. -/
structure Favourable (C : Crypto) (H : Host) (cfg : CoqConfiguration) (w₀ : World)
    (keys₀ : CoqKeyStore) (N : ℕ) : Prop where
  lawful : C.Lawful
  distinct : Set.InjOn (aidOf C H cfg) (Set.Ico w₀.nassembly N)
  noCollision : C.NoCollision
    (chunkInputs cfg (Set.image (aidOf C H cfg) (Set.Ico w₀.nassembly N)))
  absent : ∀ i ∈ Set.Ico w₀.nassembly N, ∀ cid ∈ cfg.nchunks.sequence,
    w₀.fs.files (chunkFile C cfg (aidOf C H cfg i) cid) = none
  unkeyed : ∀ i ∈ Set.Ico w₀.nassembly N, CoqStore.find keys₀ (aidOf C H cfg i) = none
  mkdir : ∀ i, w₀.nfinalise ≤ i → ∀ cid ∈ cfg.nchunks.sequence, ∀ p,
    ((H.finalise i).io cid).mkdir p = true
  fopen : ∀ i, w₀.nfinalise ≤ i → ∀ cid ∈ cfg.nchunks.sequence, ((H.finalise i).io cid).fopen = true
  kept : ∀ i, w₀.nfinalise ≤ i → ∀ cid ∈ cfg.nchunks.sequence,
    ((H.finalise i).io cid).kept chunksize = chunksize

/-- Identifiers have 64 characters. -/
theorem length_aidOf (hC : C.HexLawful) (i : ℕ) : (aidOf C H cfg i).length = 64 := hC.length256 _

/-- Two assemblies share a chunk file only if they are the same. -/
theorem Favourable.chunkFile_ne (h : Favourable C H cfg w₀ keys₀ N) {i j : ℕ}
    (hi : i ∈ Set.Ico w₀.nassembly N) (hj : j ∈ Set.Ico w₀.nassembly N) (hne : i ≠ j) {cid cid' : ℕ}
    (hcid : cid ∈ cfg.nchunks.sequence) (hcid' : cid' ∈ cfg.nchunks.sequence) :
    chunkFile C cfg (aidOf C H cfg i) cid ≠ chunkFile C cfg (aidOf C H cfg j) cid' := by
  intro heq
  have hinj := chunkFile_injective h.lawful.hex h.noCollision (Set.mem_image_of_mem _ hi)
    (Set.mem_image_of_mem _ hj) (length_aidOf h.lawful.hex i) (length_aidOf h.lawful.hex j) hcid
    hcid' heq
  exact hne (h.distinct hi hj hinj.1)

/-- What is favourable stays so for some of the assemblies, with the keys and files of a later
world. -/
theorem Favourable.narrow (h : Favourable C H cfg w₀ keys₀ N) {w : World} {keys : CoqKeyStore} {M : ℕ}
    (hdrawn : w₀.nassembly ≤ w.nassembly) (hM : M ≤ N) (hfinal : w₀.nfinalise ≤ w.nfinalise)
    (hnew : ∀ i ∈ Set.Ico w.nassembly M, CoqStore.find keys (aidOf C H cfg i) = none ∧
      ∀ cid ∈ cfg.nchunks.sequence, w.fs.files (chunkFile C cfg (aidOf C H cfg i) cid) = none) :
    Favourable C H cfg w keys M := by
  have hsub : Set.Ico w.nassembly M ⊆ Set.Ico w₀.nassembly N := Set.Ico_subset_Ico hdrawn hM
  refine ⟨h.lawful, h.distinct.mono hsub, h.noCollision.mono ?_, fun i hi => (hnew i hi).2,
    fun i hi => (hnew i hi).1, fun i hi => h.mkdir i (Nat.le_trans hfinal hi),
    fun i hi => h.fopen i (Nat.le_trans hfinal hi), fun i hi => h.kept i (Nat.le_trans hfinal hi)⟩
  rintro m ⟨aid, haid, cid, hcid, rfl⟩
  exact ⟨aid, Set.image_mono hsub haid, cid, hcid, rfl⟩

/-- A block can be read back with the keys and files that are there. -/
def Readable (C : Crypto) (cfg : CoqConfiguration) (keys : CoqKeyStore) (fs : FileSystem)
    (x : Entry) : Prop :=
  ∃ a, load C cfg keys fs x.aid = some a ∧ Holds cfg.nchunks a.buffer.bytes x.apos x.data

/-- A block stays readable with more keys and more files. -/
theorem Readable.mono (hC : C.HexLawful) {keys keys' : CoqKeyStore} {fs fs' : FileSystem} {x : Entry}
    (h : Readable C cfg keys fs x)
    (hkeys : ∀ ki, CoqStore.find keys x.aid = some ki → CoqStore.find keys' x.aid = some ki)
    (hext : Extends fs fs') : Readable C cfg keys' fs' x := by
  obtain ⟨a, hload, hholds⟩ := h
  obtain ⟨ki, hki, hread⟩ := Option.bind_eq_some_iff.mp hload
  refine ⟨a, ?_, hholds⟩
  unfold load
  rw [hkeys ki hki]
  exact readAssembly_extends hC hext hread

/-- Nothing has failed, and every block is in the current assembly or readable. -/
structure Archived (C : Crypto) (H : Host) (w₀ : World) (N : ℕ) (s : WriteSide cfg)
    (L : List Entry) : Prop where
  unfailed : failedAids s.world.clog = failedAids w₀.clog
  nfinalise_le : w₀.nfinalise ≤ s.world.nfinalise
  undrawn : ∀ i, s.world.nassembly ≤ i → i < N →
    CoqStore.find s.keys (aidOf C H cfg i) = none ∧
    ∀ cid ∈ cfg.nchunks.sequence, s.world.fs.files (chunkFile C cfg (aidOf C H cfg i) cid) = none
  unsealed : ∀ a, s.current = some a → CoqStore.find s.keys a.aid = none ∧
    ∀ cid ∈ cfg.nchunks.sequence, s.world.fs.files (chunkFile C cfg a.aid cid) = none
  readable : ∀ x ∈ L, x.data ≠ [] → (∃ a, s.current = some a ∧ InAssembly a x) ∨
    Readable C cfg s.keys s.world.fs x

/-- Nothing has to be archived at first. -/
theorem archived_start {s₀ : WriteSide cfg} (h : Favourable C H cfg s₀.world s₀.keys N)
    (henv : s₀.env = none) : Archived C H s₀.world N s₀ [] where
  unfailed := rfl
  nfinalise_le := Nat.le_refl _
  undrawn i hi hiN := ⟨h.unkeyed i ⟨hi, hiN⟩, h.absent i ⟨hi, hiN⟩⟩
  unsealed a ha := by simp [WriteSide.current, henv] at ha
  readable := by simp

/-- An assembly with a block is archived, with the block in it. -/
theorem Favourable.archives (h : Favourable C H cfg w₀ keys₀ N) {i : ℕ}
    (hi : i ∈ Set.Ico w₀.nassembly N) {a : CoqAssemblyPlainWritable cfg}
    (haid : a.aid = aidOf C H cfg i) {w : World} (hle : w₀.nfinalise ≤ w.nfinalise)
    (habsent : ∀ cid ∈ cfg.nchunks.sequence, w.fs.files (chunkFile C cfg a.aid cid) = none)
    {enc : CoqAssemblyEncrypted cfg}
    (henc : a.finish.encrypt C (KeyInformation.draw cfg (H.finalise w.nfinalise)) = some enc) :
    let r := enc.extract C (H.finalise w.nfinalise).io w.fs
    r.2 = assemblysize cfg.nchunks ∧
      ∃ a', readAssembly C cfg r.1 a.aid (KeyInformation.draw cfg (H.finalise w.nfinalise)) =
          some a' ∧
        ∀ p < assemblysize cfg.nchunks - tagLen, a'.buffer.bytes[p]? = a.buffer.bytes[p]? := by
  intro r
  have hinfo : enc.info.aid = a.aid := aid_encrypt henc
  have hopen : AllOpen C cfg enc.info.aid (H.finalise w.nfinalise).io w.fs
      cfg.nchunks.sequence := by
    rw [hinfo]
    refine allOpen_of_absent h.lawful.hex h.noCollision ⟨i, hi, haid.symm⟩ ?_ habsent
      (h.mkdir _ hle) (h.fopen _ hle)
    rw [haid]
    exact length_aidOf h.lawful.hex i
  refine ⟨(extract_eq_iff h.lawful.hex w.fs).mpr hopen, ?_⟩
  apply readAssembly_of_chunks h.lawful (a := a.finish) (supported_draw _) henc
  intro cid hcid
  have hfile := extract_files (a := enc) h.lawful.hex hopen hcid
  rw [hinfo, h.kept _ hle cid hcid, List.take_of_length_le] at hfile
  · exact hfile
  · exact Nat.le_of_eq (length_chunkSlice enc.len_eq hcid)

/-- Nothing fails: an assembly with a block is finalised with a key, and can be read back. -/
theorem Favourable.finalises (h : Favourable C H cfg w₀ keys₀ N) {i : ℕ}
    (hi : i ∈ Set.Ico w₀.nassembly N) {a : CoqAssemblyPlainWritable cfg}
    (haid : a.aid = aidOf C H cfg i) {e e' : CoqEnvironmentWritable cfg} {w w' : World}
    {okey : Option (Bytes × KeyInformation)} (hfin : FinaliseStep C H e w e' w' okey)
    (ha : e.assembly = some a) (hapos : headerLen cfg.nchunks < a.apos)
    (hle : w₀.nfinalise ≤ w.nfinalise)
    (habsent : ∀ cid ∈ cfg.nchunks.sequence, w.fs.files (chunkFile C cfg a.aid cid) = none) :
    failedAids w'.clog = failedAids w.clog ∧ ∃ ki, okey = some (a.aid, ki) ∧
      ∃ a', readAssembly C cfg w'.fs a.aid ki = some a' ∧
        ∀ p < assemblysize cfg.nchunks - tagLen, a'.buffer.bytes[p]? = a.buffer.bytes[p]? := by
  cases hfin with
  | absent hnone => cases ha.symm.trans hnone
  | empty a₁ ha₁ hempty =>
    cases ha.symm.trans ha₁
    omega
  | failed a₁ ha₁ hapos₁ fs line hfail =>
    cases ha.symm.trans ha₁
    cases hfail with
    | encrypt henc =>
      obtain ⟨enc, henc'⟩ := encrypt_isSome h.lawful.gcm a.finish
        (KeyInformation.draw cfg (H.finalise w.nfinalise))
      cases henc.symm.trans henc'
    | extract enc henc hshort => exact absurd (h.archives hi haid hle habsent henc).1 hshort
  | archived a₁ ha₁ hapos₁ enc henc hall =>
    cases ha.symm.trans ha₁
    exact ⟨rfl, _, rfl, (h.archives hi haid hle habsent henc).2⟩

/-- **Every transition keeps its blocks readable.** -/
theorem Archived.step {s₀ s s' : WriteSide cfg} {L es : List Entry}
    (h : Archived C H s₀.world N s L) (hfav : Favourable C H cfg s₀.world s₀.keys N)
    (hacc : Accounted C H s₀ s L) (hstep : WriteStep C H s es s') (hN : s'.world.nassembly ≤ N) :
    Archived C H s₀.world N s' (L ++ es) := by
  have hC := hfav.lawful.hex
  have hle := hstep.nassembly_le
  -- the assembly that is being filled is the last one that was drawn
  have hlast : ∀ a, s.current = some a → ∃ j ∈ Set.Ico s₀.world.nassembly N,
      s.world.nassembly = j + 1 ∧ a.aid = aidOf C H cfg j := by
    intro a ha
    obtain ⟨j, hj, hj₀, haid⟩ := hacc.current a ha
    exact ⟨j, ⟨hj₀, by omega⟩, hj, haid⟩
  -- what finalising it does
  have hfinal : ∀ a, s.current = some a → s'.current = none → headerLen cfg.nchunks < a.apos →
      failedAids s'.world.clog = failedAids s.world.clog ∧ ∃ ki,
        s'.keys = Session.addKey s.keys (some (a.aid, ki)) ∧
        ∃ a', readAssembly C cfg s'.world.fs a.aid ki = some a' ∧
          ∀ p < assemblysize cfg.nchunks - tagLen, a'.buffer.bytes[p]? = a.buffer.bytes[p]? := by
    intro a ha hnone hapos
    obtain ⟨e, e', okey, he, hfin, hkeys⟩ := hstep.finalised ha hnone
    obtain ⟨j, hj, -, haid⟩ := hlast a ha
    obtain ⟨hlog, ki, rfl, hread⟩ :=
      hfav.finalises hj haid hfin he hapos h.nfinalise_le (h.unsealed a ha).2
    exact ⟨hlog, ki, hkeys, hread⟩
  refine ⟨?_, Nat.le_trans h.nfinalise_le hstep.nfinalise_le, fun i hi hiN => ?_, fun a' ha' => ?_,
    hstep.inAssembly_or hacc.fitting h.readable ?_ ?_⟩
  · rcases hstep.failures with ⟨hlog, -⟩ | ⟨a, ha, hnone, hapos, -, -, -⟩
    · exact hlog.trans h.unfailed
    · exact (hfinal a ha hnone hapos).1.trans h.unfailed
  · -- the key and the files of an assembly that is still to be drawn
    obtain ⟨hkey, hfiles⟩ := h.undrawn i (Nat.le_trans hle hi) hiN
    have hmem : i ∈ Set.Ico s₀.world.nassembly N :=
      ⟨Nat.le_trans hacc.nassembly_le (Nat.le_trans hle hi), hiN⟩
    constructor
    · refine (hstep.find_keys (Or.inl fun a ha heq => ?_)).trans hkey
      obtain ⟨j, hj, hnum, haid⟩ := hlast a ha
      have := hfav.distinct hmem hj (heq.trans haid)
      omega
    · intro cid hcid
      refine (hstep.files_eq hC (Or.inl fun a ha cid' hcid' => ?_)).trans (hfiles cid hcid)
      obtain ⟨j, hj, hnum, haid⟩ := hlast a ha
      rw [haid]
      exact hfav.chunkFile_ne hmem hj (by omega) hcid hcid'
  · obtain ⟨hkeys, hfiles, -⟩ := hstep.undisturbed ha'
    rw [hkeys, hfiles]
    cases hstep.filling ha' with
    | same ha => exact h.unsealed a' ha
    | longer a ha hnum fname fpos d hd hroom happ =>
      rw [happ.aid_eq]
      exact h.unsealed a ha
    | fresh hnone hnum heq =>
      rw [heq, aid_newAssembly]
      exact h.undrawn _ (Nat.le_refl _) (by omega)
  · intro x hread
    refine hread.mono hC (fun ki hki => ?_) (hstep.extends hC)
    exact (hstep.find_keys (Or.inr (by rw [hki]; rfl))).trans hki
  · intro a x ha hnone hin hd
    obtain ⟨-, ki, hkeys, a', hread, hbytes⟩ := hfinal a ha hnone (hin.headerLen_lt hd)
    refine ⟨a', ?_, hin.holds.congr hbytes⟩
    unfold load
    rw [hkeys, ← hin.aid_eq, Session.addKey, CoqKeyStore.find_add, if_pos rfl,
      (h.unsealed a ha).1]
    exact hread

/-- **Every run keeps its blocks readable.** -/
theorem WriteTrace.archived {s₀ s s' : WriteSide cfg} {L es : List Entry}
    (h : WriteTrace C H s es s') (hfav : Favourable C H cfg s₀.world s₀.keys N)
    (hacc : Accounted C H s₀ s L) (hs : Archived C H s₀.world N s L)
    (hN : s'.world.nassembly ≤ N) : Archived C H s₀.world N s' (L ++ es) := by
  have hrun := Trace.invariant
    (I := fun s L => Accounted C H s₀ s L ∧ (s.world.nassembly ≤ N → Archived C H s₀.world N s L))
    (fun hI hstep => ⟨hI.1.step hstep, fun hle =>
      (hI.2 (Nat.le_trans hstep.nassembly_le hle)).step hfav hI.1 hstep hle⟩)
    h ⟨hacc, fun _ => hs⟩
  exact hrun.2 hN

/-- Without a current assembly every block can be read back. -/
theorem Archived.readable_of_closed {s : WriteSide cfg} {L : List Entry}
    (h : Archived C H w₀ N s L) (hclosed : s.current = none) {x : Entry} (hx : x ∈ L)
    (hd : x.data ≠ []) : Readable C cfg s.keys s.world.fs x := by
  rcases h.readable x hx hd with ⟨a, ha, -⟩ | hread
  · rw [hclosed] at ha
    cases ha
  · exact hread

/-- Numbered draws in an empty chunk directory, when everything works. -/
theorem favourable_numbered {N : ℕ} (hN : N ≤ 18446744073709551616) :
    Favourable simple (numberedHost fun _ _ => allWorks) config16 emptyWorld ∅ N := by
  have hsub : Set.Ico emptyWorld.nassembly N ⊆ Set.Iio 18446744073709551616 :=
    fun i hi => Nat.lt_of_lt_of_le hi.2 hN
  refine ⟨simple_lawful, (aidOf_numbered_injOn _).mono hsub, ?_, fun _ _ _ _ => rfl,
    fun _ _ => CoqStore.find_empty _, fun _ _ _ _ _ => rfl, fun _ _ _ _ => rfl, fun _ _ _ _ => ?_⟩
  · refine Set.InjOn.mono ?_ (noCollision_numbered fun _ _ => allWorks)
    rintro m ⟨aid, haid, cid, hcid, rfl⟩
    exact ⟨aid, Set.image_mono hsub haid, cid, hcid, rfl⟩
  · change min (min chunksize chunksize) chunksize = chunksize
    rw [Nat.min_self, Nat.min_self]

end Elykseer.Analysis
