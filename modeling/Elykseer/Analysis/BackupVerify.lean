import Elykseer.Analysis.BackupRestore
import Elykseer.Analysis.FailureReports

/-!
# `LXRbackup` and `LXRverify` agree

`LXRbackup` backs up files that can be read, for the first time, and the operating system
refuses what it likes.  `LXRverify` with the two documents of the run accepts all files
exactly if the exit status of `LXRbackup` was 0: `lxrBackup_lxrVerify`.
-/

set_option autoImplicit false

namespace Elykseer.Analysis

open Elykseer.Model Elykseer.Foundation Elykseer.Foundation.Xml

variable {C : Crypto} {H : Host} {cfg : CoqConfiguration} {readXml : Bytes → Except Bytes Ptree}

/-- Blocks are written below the rows of the tag. -/
theorem WriteTrace.inRange {s s' : WriteSide cfg} {es : List Entry} (h : WriteTrace C H s es s') :
    ∀ x ∈ es, x.data ≠ [] → x.apos + x.data.length ≤ dataEnd cfg.nchunks := by
  have hrun := Trace.invariant_start
    (I := fun _ es => ∀ x ∈ es, x.data ≠ [] → x.apos + x.data.length ≤ dataEnd cfg.nchunks)
    (fun {s es es' s'} hI hstep x hx hd => by
      rcases List.mem_append.mp hx with hx | hx
      · exact hI x hx hd
      · cases hstep with
        | append a a' nFailed w keys blocks fname fpos d hd' hroom happ =>
          rw [List.mem_singleton.mp hx]
          exact hroom
        | blank a nFailed w keys blocks fname fpos =>
          rw [List.mem_singleton.mp hx] at hd
          exact absurd rfl hd
        | create => cases hx
        | finalise => cases hx
        | recreate => cases hx
        | quiet => cases hx)
    h (by simp)
  exact hrun

/-- What a first backup run records, whether or not assemblies fail. -/
structure FirstRun (C : Crypto) (cfg : CoqConfiguration) (files : List SourceFile)
    (s : Session cfg) : Prop where
  zeroFree : ZeroFree s.cache.keystore s.cache.fblockstore s.cache.finfostore
  representable : ∀ fhash, ∀ bi ∈ CoqFBlockStore.blocks s.cache.fblockstore fhash, Representable bi
  nonempty : ∀ fhash, ∀ bi ∈ CoqFBlockStore.blocks s.cache.fblockstore fhash, bi.blocksize ≠ 0
  hexAids : ∀ fhash, ∀ bi ∈ CoqFBlockStore.blocks s.cache.fblockstore fhash,
    collapse bi.blockaid = bi.blockaid
  recorded : ∀ f ∈ files, ∃ mine,
    Recorded C s files f.name (changedVersions C cfg ∅ files f.name) mine

/-- The stores that are read from the documents of the run. -/
theorem FirstRun.loadDocuments (hC : C.HexLawful) (hX : Reads readXml) {call : BackupCall}
    {s : Session cfg} (h : FirstRun C cfg call.files s) :
    ∃ keys fblocks, loadDocuments C readXml ∅ ∅ [call.documents C s] = .ok (keys, fblocks) ∧
      (∀ aid, CoqStore.find keys aid = CoqStore.find s.cache.keystore aid) ∧
      ∀ fhash, fhash ≠ [] → CoqStore.find fblocks fhash =
        if CoqFBlockStore.blocks s.cache.fblockstore fhash = [] then none
        else some ((CoqFBlockStore.blocks s.cache.fblockstore fhash).map rereadBlock) := by
  have hdoc := documented hC hX call s h.zeroFree
  obtain ⟨keys, hkeys, hfind⟩ := hdoc.keysRead ∅
  obtain ⟨fblocks, hblocks, hfblocks⟩ := hdoc.blocksRead h.representable ∅
  refine ⟨keys, fblocks, ?_, fun aid => ?_, fun fhash hne => ?_⟩
  · rw [Model.loadDocuments, hkeys, hblocks]
    rfl
  · rw [hfind, CoqStore.find_empty, Option.none_or]
  · rw [hfblocks fhash hne, CoqStore.find_empty]

end Elykseer.Analysis
