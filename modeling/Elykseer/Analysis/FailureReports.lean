import Elykseer.Analysis.KeysConsistent
import Elykseer.Analysis.TamperEvidence
import Elykseer.Model.ToolRuns

/-!
# Failures are reported

While files are backed up the operating system may refuse directories and chunk files,
chunk files may be there already, files may be read in part: only what is written to a
chunk file that could be opened must stay in it.  Then no block is lost in silence.
After `close()` each recorded block is read back with the bytes of its file, or its
assembly was reported as failed and has no key (`Reported`), and the exit status of
`LXRbackup` tells whether there is such an assembly: `backupRun_exitStatus`.
-/

set_option autoImplicit false

namespace Elykseer.Analysis

open Elykseer.Model Elykseer.Foundation

variable {C : Crypto} {H : Host} {cfg : CoqConfiguration} {w₀ : World} {N : ℕ}

/-- From `w₀` on, and for the assemblies up to the `N`-th: the library is lawful, the draws are
distinct, and a chunk file that can be opened keeps all its bytes. -/
structure KeepsBytes (C : Crypto) (H : Host) (cfg : CoqConfiguration) (w₀ : World) (N : ℕ) :
    Prop where
  lawful : C.Lawful
  distinct : Set.InjOn (aidOf C H cfg) (Set.Ico w₀.nassembly N)
  kept : ∀ i, w₀.nfinalise ≤ i → ∀ cid ∈ cfg.nchunks.sequence,
    ((H.finalise i).io cid).fopen = true → ((H.finalise i).io cid).kept chunksize = chunksize

/-- An assembly that has been extracted can be read back, with the block in it. -/
theorem KeepsBytes.archives (h : KeepsBytes C H cfg w₀ N) {a : CoqAssemblyPlainWritable cfg}
    {w : World} (hle : w₀.nfinalise ≤ w.nfinalise) {enc : CoqAssemblyEncrypted cfg}
    (henc : a.finish.encrypt C (KeyInformation.draw cfg (H.finalise w.nfinalise)) = some enc)
    (hall : (enc.extract C (H.finalise w.nfinalise).io w.fs).2 = assemblysize cfg.nchunks) :
    ∃ a', readAssembly C cfg (enc.extract C (H.finalise w.nfinalise).io w.fs).1 a.aid
        (KeyInformation.draw cfg (H.finalise w.nfinalise)) = some a' ∧
      ∀ p < assemblysize cfg.nchunks - tagLen, a'.buffer.bytes[p]? = a.buffer.bytes[p]? := by
  have hinfo : enc.info.aid = a.aid := aid_encrypt henc
  have hopen := (extract_eq_iff h.lawful.hex w.fs).mp hall
  apply readAssembly_of_chunks h.lawful (a := a.finish) (supported_draw _) henc
  intro cid hcid
  have hfile := extract_files (a := enc) h.lawful.hex hopen hcid
  rw [hinfo, h.kept _ hle cid hcid (hopen.fopen cid hcid), List.take_of_length_le] at hfile
  · exact hfile
  · exact Nat.le_of_eq (length_chunkSlice enc.len_eq hcid)

/-- Every block is in the current assembly, or readable, or its assembly was reported as failed. -/
structure Reported (C : Crypto) (w₀ : World) (s : WriteSide cfg) (L : List Entry) : Prop where
  nfinalise_le : w₀.nfinalise ≤ s.world.nfinalise
  status : ∀ x ∈ L, x.data ≠ [] → (∃ a, s.current = some a ∧ InAssembly a x) ∨
    (Readable C cfg s.keys s.world.fs x ∨ x.aid ∈ failedAids s.world.clog)

/-- Nothing has to be reported at first. -/
theorem reported_start (s₀ : WriteSide cfg) : Reported C s₀.world s₀ [] :=
  ⟨Nat.le_refl _, by simp⟩

/-- **Every transition reports what it loses.** -/
theorem Reported.step {s₀ s s' : WriteSide cfg} {L es : List Entry}
    (h : Reported C s₀.world s L) (hkeeps : KeepsBytes C H cfg s₀.world N)
    (hfit : s.Fitting) (hcount : Counted C H N s L) (hstep : WriteStep C H s es s') :
    Reported C s₀.world s' (L ++ es) := by
  have hC := hkeeps.lawful.hex
  refine ⟨Nat.le_trans h.nfinalise_le hstep.nfinalise_le,
    hstep.inAssembly_or hfit h.status ?_ ?_⟩
  · rintro x (hread | hfailed)
    · refine .inl (hread.mono hC (fun ki hki => ?_) (hstep.extends hC))
      exact (hstep.find_keys (.inr (by rw [hki]; rfl))).trans hki
    · exact .inr (mem_failedAids_of_step hstep _ hfailed)
  · -- the assembly of the block is finalised
    intro a x ha hnone hin hd
    obtain ⟨e, e', okey, he, hfin, hkeys⟩ := hstep.finalised ha hnone
    have hnokey := (hcount.unsealed a ha).1
    revert hkeys
    generalize s'.keys = keys'
    generalize s'.world = w' at hfin
    intro hkeys
    have hapos := hin.headerLen_lt hd
    rw [← hin.aid_eq]
    cases hfin with
    | absent habsent => cases he.symm.trans habsent
    | empty a₁ ha₁ hempty =>
      cases he.symm.trans ha₁
      omega
    | failed a₁ ha₁ hapos₁ fs line hfail =>
      cases he.symm.trans ha₁
      right
      change a.aid ∈ failedAids (s.world.clog ++ [line])
      rw [failedAids_append, hfail.failedAids_eq]
      simp
    | archived a₁ ha₁ hapos₁ enc henc hall =>
      cases he.symm.trans ha₁
      left
      obtain ⟨a', hread, hbytes⟩ := hkeeps.archives h.nfinalise_le henc hall
      refine ⟨a', ?_, hin.holds.congr hbytes⟩
      unfold load
      rw [hkeys, ← hin.aid_eq, Session.addKey, CoqKeyStore.find_add, if_pos rfl, hnokey]
      exact hread

/-- **Every run reports what it loses.** -/
theorem WriteTrace.reported {s₀ s s' : WriteSide cfg} {L es : List Entry}
    (h : WriteTrace C H s es s') (hkeeps : KeepsBytes C H cfg s₀.world N)
    (hacc : Accounted C H s₀ s L) (hcount : Counted C H N s L) (hs : Reported C s₀.world s L)
    (hN : s'.world.nassembly ≤ N) : Reported C s₀.world s' (L ++ es) := by
  have hrun := Trace.invariant
    (I := fun s L => Accounted C H s₀ s L ∧ (s.world.nassembly ≤ N →
      Counted C H N s L ∧ Reported C s₀.world s L))
    (fun hI hstep => ⟨hI.1.step hstep, fun hle => by
      obtain ⟨hcounted, hreported⟩ := hI.2 (Nat.le_trans hstep.nassembly_le hle)
      exact ⟨hcounted.step hI.1 hkeeps.distinct hstep hle,
        hreported.step hkeeps hI.1.fitting hcounted hstep⟩⟩)
    h ⟨hacc, fun _ => ⟨hcount, hs⟩⟩
  exact (hrun.2 hN).2

/-! ## A backup run -/

/-- A block whose assembly has no key is not restored. -/
theorem restoreAlone_of_no_key {s : Session cfg} {bi : BlockInformation}
    (h : CoqStore.find s.cache.keystore bi.blockaid = none) : restoreAlone C s bi = none := by
  rw [restoreAlone_eq, loads, load, h]
  rfl

/-- What is left of a backup run after `close()`: every block that is not empty is a piece of a
file, and is read back as such unless its assembly was reported as failed. -/
structure Outcome (C : Crypto) (files : List SourceFile) (s : Session cfg) : Prop where
  blocks : ∀ fname, ∀ bi ∈ CoqFBlockStore.blocks s.cache.fblockstore fname, bi.blocksize ≠ 0 →
    ∃ f ∈ files, fname = fileHash C f.name cfg.myId ∧
      bi.filepos + bi.blocksize ≤ f.content.length ∧
      (restoreAlone C s bi).map CoqBuffer.bytes =
        if bi.blockaid ∈ failedAids s.world.clog then none
        else some (Overlay.slice f.content bi.filepos bi.blocksize)
  failed : ∀ aid ∈ failedAids s.world.clog, ∃ fname,
    ∃ bi ∈ CoqFBlockStore.blocks s.cache.fblockstore fname, bi.blocksize ≠ 0 ∧ bi.blockaid = aid
  count : s.nAssemblyFailed = (failedAids s.world.clog).length % 4294967296

/-- The outcome of a run, from what is reported and counted. -/
theorem outcome_of_reported {s : Session cfg} {files : List SourceFile} {s₀ : WriteSide cfg}
    {L : List Entry} (hblocks : s₀.blocks = ∅) (hledger : Ledger C s₀ (writeSide s) L)
    (hclosed : (writeSide s).current = none) (hreported : Reported C w₀ (writeSide s) L)
    (hcount : Counted C H N (writeSide s) L)
    (hfrom : ∀ x ∈ L, ∃ f ∈ files, x.fname = fileHash C f.name cfg.myId ∧
      x.data = Overlay.slice f.content x.fpos x.data.length) : Outcome C files s := by
  have hnone : ∀ fname, CoqFBlockStore.blocks s₀.blocks fname = [] := by
    intro fname
    rw [hblocks]
    rfl
  refine ⟨fun fname bi hbi hsize => ?_, fun aid haid => ?_, ?_⟩
  · have hmem := List.mem_map_of_mem (f := unnumbered) hbi
    have hall : (CoqFBlockStore.blocks s.cache.fblockstore fname).map unnumbered =
        recordsOf C L fname := by
      have h := hledger fname
      rwa [hnone, List.map_nil, List.nil_append] at h
    rw [hall, mem_recordsOf] at hmem
    obtain ⟨x, hx, rfl, hrec⟩ := hmem
    have hd : x.data ≠ [] := by
      intro hd
      rw [Entry.record, if_pos hd] at hrec
      exact hsize (congrArg BlockInformation.blocksize hrec).symm
    have haid : bi.blockaid = x.aid :=
      (congrArg BlockInformation.blockaid hrec.symm).trans (aid_record hd)
    have hrec' := hrec
    rw [Entry.record, if_neg hd] at hrec'
    have hpos : x.fpos = bi.filepos := congrArg BlockInformation.filepos hrec'
    have hlen : x.data.length = bi.blocksize := congrArg BlockInformation.blocksize hrec'
    obtain ⟨f, hf, hname, hslice⟩ := hfrom x hx
    have hinside : bi.filepos + bi.blocksize ≤ f.content.length := by
      have hslice' := congrArg List.length hslice
      rw [Overlay.slice, List.length_take, List.length_drop] at hslice'
      omega
    refine ⟨f, hf, hname, hinside, ?_⟩
    rw [haid]
    split
    · next hfailed =>
      have hkey : CoqStore.find s.cache.keystore x.aid = none := (hcount.failed x.aid hfailed).2
      rw [restoreAlone_of_no_key (haid ▸ hkey)]
      rfl
    · next hfailed =>
      rcases hreported.status x hx hd with ⟨a, ha, -⟩ | hread | hfailed'
      · rw [hclosed] at ha
        cases ha
      · obtain ⟨-, b, hb, hbytes⟩ := restoreAlone_of_readable hd hread hrec.symm
        rw [hb, Option.map_some, hbytes, ← hpos, ← hlen, ← hslice]
      · exact absurd hfailed' hfailed
  · obtain ⟨⟨x, hx, hd, rfl⟩, -⟩ := hcount.failed aid haid
    have hmem : unnumbered (x.record C) ∈ recordsOf C L x.fname := mem_recordsOf.mpr ⟨x, hx, rfl, rfl⟩
    have hall := hledger x.fname
    rw [hnone, List.map_nil, List.nil_append] at hall
    rw [← hall, List.mem_map] at hmem
    obtain ⟨bi, hbi, hrec⟩ := hmem
    refine ⟨x.fname, bi, hbi, ?_, ?_⟩
    · rw [Entry.record, if_neg hd] at hrec
      have hlen : bi.blocksize = x.data.length := congrArg BlockInformation.blocksize hrec
      rw [hlen]
      exact fun hzero => hd (List.eq_nil_of_length_eq_zero hzero)
    · exact (congrArg BlockInformation.blockaid hrec).trans (aid_record hd)
  · rw [nAssemblyFailed_eq]
    exact hcount.count

/-- With both documents written, the exit status tells whether an assembly failed. -/
theorem backupStatus_eq_zero {s : Session cfg}
    (hcount : s.nAssemblyFailed = (failedAids s.world.clog).length % 4294967296)
    (hlt : (failedAids s.world.clog).length < 4294967296) :
    backupStatus true true s = 0 ↔ failedAids s.world.clog = [] := by
  rw [Nat.mod_eq_of_lt hlt] at hcount
  unfold backupStatus
  rw [hcount]
  cases failedAids s.world.clog <;> simp

/-- **The outcome of every backup run.** -/
theorem backupRun_outcome (hC : C.HexLawful) (H : Host) (nEnvs : ℕ) {depth : ℕ} (hdepth : 1 ≤ depth)
    (finfos₀ : CoqFInfoStore) {w₀ : World} (hlog : failedAids w₀.clog = [])
    (files : List SourceFile) :
    ∃ s ofis, (Session.init cfg nEnvs depth ∅ ∅ finfos₀ w₀).backupRun C H files = .ok (s, ofis) ∧
      (KeepsBytes C H cfg w₀ s.world.nassembly → Outcome C files s) := by
  set s₀ : Session cfg := Session.init cfg nEnvs depth ∅ ∅ finfos₀ w₀ with hs₀
  have hready : ReadyToBackup s₀ := readyToBackup_init hdepth ∅ ∅ finfos₀ w₀
  obtain ⟨s, es, ofis, hrun, hlen, htrace, hclosed, -, hinv⟩ := backupRun_trace (H := H) hC hready files
  refine ⟨s, ofis, hrun, fun hkeeps => ?_⟩
  have hstart : Accounted C H (writeSide s₀) (writeSide s₀) [] := accounted_start rfl
  have hcounted₀ : Counted C H s.world.nassembly (writeSide s₀) [] :=
    counted_start rfl hlog fun i _ _ => CoqStore.find_empty _
  have hacc := htrace.accounted hstart
  have hcount := htrace.counted hstart hcounted₀ hkeeps.distinct (Nat.le_refl _)
  have hreported := htrace.reported hkeeps hstart hcounted₀ (reported_start _) (Nat.le_refl _)
  rw [List.nil_append] at hacc hcount hreported
  have hfrom := hinv _ _ fromFiles_preserves (fun _ _ _ h => h)
    (meetsAll_of_forall s₀ fun _ _ => trivial) (by simp [FromFiles])
  apply outcome_of_reported rfl hacc.ledger hclosed hreported hcount
  intro x hx
  obtain ⟨q, hq, hname, hslice⟩ := hfrom x hx
  exact ⟨q.1, (List.of_mem_zip hq).1, hname, hslice⟩

/-- The exit status is 0 exactly if nothing is lost. -/
theorem Outcome.backupStatus_iff {files : List SourceFile} {s : Session cfg}
    (h : Outcome C files s) (hlt : (failedAids s.world.clog).length < 4294967296) :
    backupStatus true true s = 0 ↔ ∀ fname,
      ∀ bi ∈ CoqFBlockStore.blocks s.cache.fblockstore fname, bi.blocksize ≠ 0 →
        (restoreAlone C s bi).isSome = true := by
  rw [backupStatus_eq_zero h.count hlt]
  constructor
  · intro hnil fname bi hbi hsize
    obtain ⟨f, -, -, -, hread⟩ := h.blocks fname bi hbi hsize
    rw [hnil, if_neg List.not_mem_nil] at hread
    obtain ⟨b, hb, -⟩ := Option.map_eq_some_iff.mp hread
    rw [hb]
    rfl
  · intro hall
    by_contra hne
    obtain ⟨aid, haid⟩ := List.exists_mem_of_ne_nil _ hne
    obtain ⟨fname, bi, hbi, hsize, rfl⟩ := h.failed aid haid
    obtain ⟨f, -, -, -, hread⟩ := h.blocks fname bi hbi hsize
    rw [if_pos haid, Option.map_eq_none_iff] at hread
    have hsome := hall fname bi hbi hsize
    rw [hread] at hsome
    cases hsome

/-- **The exit status of `LXRbackup` tells the truth.**  Whatever the operating system refuses
while files are backed up with empty key and block stores: each recorded block that is not empty is
read back with the bytes of its file at its position, or its assembly was reported as failed; each
assembly reported as failed has such a block; and, below `2^32` failures, the exit status is 0
exactly if all recorded blocks that are not empty are read back. -/
theorem backupRun_exitStatus (hC : C.HexLawful) (H : Host) (cfg : CoqConfiguration)
    (nEnvs depth : ℕ) (hdepth : 1 ≤ depth) (finfos₀ : CoqFInfoStore) (w₀ : World)
    (hlog : failedAids w₀.clog = []) (files : List SourceFile) :
    ∃ s ofis, (Session.init cfg nEnvs depth ∅ ∅ finfos₀ w₀).backupRun C H files = .ok (s, ofis) ∧
      (KeepsBytes C H cfg w₀ s.world.nassembly → Outcome C files s ∧
        ((failedAids s.world.clog).length < 4294967296 →
          (backupStatus true true s = 0 ↔ ∀ fname,
            ∀ bi ∈ CoqFBlockStore.blocks s.cache.fblockstore fname, bi.blocksize ≠ 0 →
              (restoreAlone C s bi).isSome = true))) := by
  obtain ⟨s, ofis, hrun, houtcome⟩ := backupRun_outcome hC H nEnvs hdepth finfos₀ hlog files
  exact ⟨s, ofis, hrun, fun hkeeps =>
    ⟨houtcome hkeeps, (houtcome hkeeps).backupStatus_iff⟩⟩

/-- A small file, and no chunk file can be opened. -/
theorem backupRun_exitStatus_simple :
    let H := numberedHost fun _ _ => ⟨fun _ => true, false, 0, none⟩
    let f := plainFile (ascii "f") [1] (by decide)
    ∃ s ofis, (Session.init config16 1 1 ∅ ∅ ∅ emptyWorld).backupRun simple H [f] = .ok (s, ofis) ∧
      Outcome simple [f] s := by
  intro H f
  obtain ⟨s, ofis, hrun, hrest⟩ := backupRun_exitStatus simple_lawful.hex H config16 1 1
    (Nat.le_refl 1) ∅ emptyWorld rfl [f]
  obtain ⟨s', es, ofis', hrun', -, -, -, hnum, -⟩ := backupRun_trace (H := H) simple_lawful.hex
    (@readyToBackup_init config16 1 1 (Nat.le_refl 1) ∅ ∅ ∅ emptyWorld) [f]
  obtain ⟨rfl, -⟩ := Prod.mk.inj (Except.ok.inj (hrun.symm.trans hrun'))
  have hpieces := length_readPieces_le (f := f) (by decide)
  have hle : s.world.nassembly ≤ 0 + 2 * ((readPieces f f.content.length 0).length + 0) := hnum
  have hkeeps : KeepsBytes simple H config16 emptyWorld s.world.nassembly := by
    refine ⟨simple_lawful, ?_, fun i _ cid _ hopen => ?_⟩
    · exact (aidOf_numbered_injOn _).mono fun i hi => Nat.lt_of_lt_of_le hi.2 (by omega)
    · cases hopen
  exact ⟨s, ofis, hrun, (hrest hkeeps).1⟩

end Elykseer.Analysis
