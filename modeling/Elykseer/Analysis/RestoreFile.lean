import Elykseer.Analysis.RestoreLoop

/-!
# Restored and verified files

The counters and the output file of the two loops (`RestoreTracks`, `VerifyTracks`), and
what follows for a whole file: `restoreFile_matchesNaive_iff`.
-/

set_option autoImplicit false

namespace Elykseer.Analysis

open Elykseer.Model Elykseer.Foundation

variable {C : Crypto} {H : Host} {cfg : CoqConfiguration}

/-! ## The restore loop -/

/-- The state of the restore loop after counting the blocks `bs` and writing the pieces `ps`. -/
structure RestoreTracks (st : RestoreState) (bs : List BlockInformation)
    (ps : List (ℕ × Bytes)) : Prop where
  content : st.tgt.content = Overlay.overlay 0 ps
  nExpected : st.nExpected = (bs.map (·.blocksize)).sum % 18446744073709551616
  nRestored : st.nRestored = (ps.map (·.2.length)).sum % 18446744073709551616
  nBlocks : st.nBlocks = bs.length % 4294967296
  nBlocksOk : st.nBlocksOk = ps.length % 4294967296

/-- Nothing is expected and nothing written at first. -/
theorem restoreTracks_init : RestoreTracks RestoreState.init [] [] := ⟨rfl, rfl, rfl, rfl, rfl⟩

/-- One more block is expected. -/
theorem RestoreTracks.expect {st : RestoreState} {bs : List BlockInformation}
    {ps : List (ℕ × Bytes)} (h : RestoreTracks st bs ps) (bi : BlockInformation) :
    RestoreTracks (st.expect bi) (bs ++ [bi]) ps where
  content := h.content
  nExpected := by
    simp only [RestoreState.expect, h.nExpected, List.map_append, List.map_cons, List.map_nil,
      List.sum_append, List.sum_singleton]
    omega
  nRestored := h.nRestored
  nBlocks := by
    simp only [RestoreState.expect, h.nBlocks, List.length_append, List.length_singleton]
    omega
  nBlocksOk := h.nBlocksOk

/-- A whole buffer is handed to `fwrite`. -/
theorem fileoutSzPos_whole {s : EncryptionState} (b : CoqBuffer s) :
    b.fileoutSzPos 0 (i32 b.len) = ((b.len : ℤ), b.bytes) := by
  have hlt : b.len < 2147483648 := b.len_lt
  have hu : u32 ((b.len : ℤ) + 0) = b.len := by
    rw [add_zero]
    exact u32_natCast (by omega)
  unfold CoqBuffer.fileoutSzPos
  rw [i32_of_lt hlt, hu]
  by_cases hb : b.len = 0
  · have hnil : b.bytes = [] := List.length_eq_zero_iff.mp hb
    rw [if_pos (by omega), hb, hnil]
    rfl
  · rw [if_neg (by omega), if_neg (by omega)]
    simp [Overlay.slice, CoqBuffer.len]

/-- The overlay with one more piece is the overlay, and then the piece written over it. -/
theorem overlay_concat (ps : List (ℕ × Bytes)) (p : ℕ × Bytes) :
    Overlay.overlay 0 (ps ++ [p]) = Overlay.writeAt 0 (Overlay.overlay 0 ps) p.1 p.2 := by
  rw [Overlay.overlay, Overlay.overlayOn_append]
  rfl

/-- A block that got a buffer is written at its position and counted. -/
theorem RestoreTracks.processResult {st : RestoreState} {bs : List BlockInformation}
    {ps : List (ℕ × Bytes)} (h : RestoreTracks st bs ps) {bi : BlockInformation}
    (hpos : bi.filepos < 9223372036854775808) (b : CoqBuffer .plain) :
    RestoreTracks (st.processResult ⟨bi.request, some b⟩) bs (ps ++ [(bi.filepos, b.bytes)]) := by
  have hlt : b.len < 2147483648 := b.len_lt
  unfold RestoreState.processResult
  dsimp only
  rw [fileoutSzPos_whole, i32_of_lt hlt, if_pos rfl]
  refine ⟨?_, h.nExpected, ?_, h.nBlocks, ?_⟩
  · have hseek : st.tgt.fseek bi.request.fpos = { st.tgt with pos := bi.filepos } := if_pos hpos
    rw [hseek, overlay_concat, ← h.content]
    rfl
  · simp only [h.nRestored, Int.toNat_natCast, List.map_append, List.map_cons, List.map_nil,
      List.sum_append, List.sum_singleton, CoqBuffer.len]
    omega
  · simp only [h.nBlocksOk, List.length_append, List.length_singleton]
    omega

/-- A batch writes its pieces. -/
theorem RestoreTracks.processReadBlocks {s : Session cfg} {st : RestoreState}
    {bs : List BlockInformation} {ps : List (ℕ × Bytes)} (h : RestoreTracks st bs ps)
    {q : List BlockInformation} (hpos : ∀ bi ∈ q, bi.filepos < 9223372036854775808) :
    RestoreTracks (st.processReadBlocks (batchResults C s q)) bs
      (ps ++ batchPieces C s q) := by
  unfold RestoreState.processReadBlocks batchResults batchPieces
  have hsub := (List.takeWhile_sublist (l := q) fun bi => (loads C s bi.blockaid).isSome).subset
  generalize q.takeWhile (fun bi => (loads C s bi.blockaid).isSome) = answered at hsub ⊢
  induction answered generalizing st ps with
  | nil => simpa using h
  | cons bi answered ih =>
    rw [List.map_cons, List.foldl_cons, List.filterMap_cons]
    cases hb : restoreAlone C s bi with
    | none => exact ih h fun b hb => hsub (List.mem_cons_of_mem _ hb)
    | some b =>
      have := ih (h.processResult (hpos bi (hsub (by simp))) b)
        fun b hb => hsub (List.mem_cons_of_mem _ hb)
      rwa [List.append_assoc, List.singleton_append] at this

/-! ## The verify loop -/

/-- The state of the verify loop after counting the blocks `bs` and verifying the pieces `ps`. -/
structure VerifyTracks (st : VerifyState) (bs : List BlockInformation)
    (ps : List (ℕ × Bytes)) : Prop where
  nBlocks : st.nBlocks = bs.length % 4294967296
  nBlocksOk : st.nBlocksOk = ps.length % 4294967296

/-- Nothing is expected and nothing counted at first. -/
theorem verifyTracks_init : VerifyTracks VerifyState.init [] [] := ⟨rfl, rfl⟩

/-- One more block is expected. -/
theorem VerifyTracks.expect {st : VerifyState} {bs : List BlockInformation}
    {ps : List (ℕ × Bytes)} (h : VerifyTracks st bs ps) (bi : BlockInformation) :
    VerifyTracks st.expect (bs ++ [bi]) ps where
  nBlocks := by
    simp only [VerifyState.expect, h.nBlocks, List.length_append, List.length_singleton]
    omega
  nBlocksOk := h.nBlocksOk

/-- A block that got a buffer has the checksum of its record. -/
theorem VerifyTracks.processResult {s : Session cfg} {st : VerifyState}
    {bs : List BlockInformation} {ps : List (ℕ × Bytes)} (h : VerifyTracks st bs ps)
    {bi : BlockInformation} {b : CoqBuffer .plain} (hb : restoreAlone C s bi = some b) :
    VerifyTracks (st.processResult C ⟨bi.request, some b⟩) bs
      (ps ++ [(bi.filepos, b.bytes)]) := by
  obtain ⟨hlen, hpos, hsum⟩ := restoreAlone_spec hb
  have hne : b.bytes ≠ [] := by
    intro hnil
    rw [CoqBuffer.len, hnil, List.length_nil] at hlen
    omega
  have hsum' : C.toHex256 (C.sha3 b.bytes) = C.toHex256 bi.request.chksum := hsum
  unfold VerifyState.processResult
  dsimp only
  rw [CoqBuffer.calcChecksum, calcChecksum_eq C hne]
  dsimp only
  rw [if_pos hsum']
  refine ⟨h.nBlocks, ?_⟩
  simp only [h.nBlocksOk, List.length_append, List.length_singleton]
  omega

/-- The results of a batch add its pieces to those counted. -/
theorem VerifyTracks.processReadBlocks {s : Session cfg} {st : VerifyState}
    {bs : List BlockInformation} {ps : List (ℕ × Bytes)} (h : VerifyTracks st bs ps)
    (q : List BlockInformation) :
    VerifyTracks (st.processReadBlocks C (batchResults C s q)) bs
      (ps ++ batchPieces C s q) := by
  unfold VerifyState.processReadBlocks batchResults batchPieces
  generalize q.takeWhile (fun bi => (loads C s bi.blockaid).isSome) = answered
  induction answered generalizing st ps with
  | nil => simpa using h
  | cons bi answered ih =>
    rw [List.map_cons, List.foldl_cons, List.filterMap_cons]
    cases hb : restoreAlone C s bi with
    | none => exact ih h
    | some b =>
      have := ih (h.processResult hb)
      rwa [List.append_assoc, List.singleton_append] at this

/-! ## Whole files -/

/-- A new file is kept with what the loop wrote, or removed. -/
theorem restoreFile_eq (hC : C.HexLawful) {s : Session cfg} (h : Ready C s)
    (hq : s.cache.readqueue = []) {out : Path → Option Bytes} {fp : Path}
    (fbs : List BlockInformation) (hpos : ∀ bi ∈ fbs, bi.filepos < 9223372036854775808)
    (hnew : out fp = none) :
    ∃ s' st, RestoreTracks st fbs (filePieces C s s.cache.nQueuesz [] fbs) ∧
      s.restoreFile C H out fp fbs =
        .ok (s', Function.update out fp (if st.isOk then some st.tgt.content else none),
          st.isOk) ∧
      Ready C s' ∧ ReadOnly s s' ∧ s'.cache.readqueue = [] := by
  obtain ⟨s', st, hloop, hready, hro, hq', hst⟩ := readBlocks_tracks (H := H) hC
    (T := RestoreTracks) (P := fun bi => bi.filepos < 9223372036854775808)
    (fun st bs ps bi h => h.expect bi) (fun st bs ps q hP h => h.processReadBlocks hP)
    (ReadOnly.refl s) h (q := []) [] [] hq (by simpa using hpos)
    restoreTracks_init
  refine ⟨s', st, hst, ?_, hready, hro, hq'⟩
  unfold Session.restoreFile
  rw [hnew, if_neg (by simp), hloop]
  dsimp only
  cases st.isOk <;> rfl

/-- Verifying a file counts the blocks and the pieces of the file. -/
theorem verifyFile_eq (hC : C.HexLawful) {s : Session cfg} (h : Ready C s)
    (hq : s.cache.readqueue = []) (fbs : List BlockInformation) :
    ∃ s' st, VerifyTracks st fbs (filePieces C s s.cache.nQueuesz [] fbs) ∧
      s.verifyFile C H fbs = .ok (s', st.isOk) ∧
      Ready C s' ∧ ReadOnly s s' ∧ s'.cache.readqueue = [] := by
  obtain ⟨s', st, hloop, hready, hro, hq', hst⟩ := readBlocks_tracks (H := H) hC
    (T := VerifyTracks) (P := fun _ => True)
    (fun st bs ps bi h => h.expect bi) (fun st bs ps q _ h => h.processReadBlocks q)
    (ReadOnly.refl s) h (q := []) [] [] hq (fun _ _ => trivial) verifyTracks_init
  refine ⟨s', st, hst, ?_, hready, hro, hq'⟩
  unfold Session.verifyFile
  rw [hloop]

/-- A session without read environments is ready to read blocks. -/
theorem ready_fresh {s : Session cfg} (hfresh : s.cache.readenvs = [])
    (hn : 1 ≤ s.cache.nReadenvs) (hd : 1 ≤ s.cache.nQueuesz) : Ready C s :=
  ⟨⟨[], by rw [hfresh]; rfl, Lru.valid_nil _ _ _⟩, hn, hd⟩

/-- Reading does not change the pieces of a file. -/
theorem ReadOnly.filePieces_eq (hC : C.HexLawful) {s s' : Session cfg} (h : ReadOnly s s')
    (depth : ℕ) (fbs : List BlockInformation) :
    filePieces C s' depth [] fbs = filePieces C s depth [] fbs := by
  have hbatch : batchPieces C s' = batchPieces C s := by
    funext q
    simp only [batchPieces, h.loads_eq hC, h.restoreAlone_eq hC]
  simp only [filePieces, hbatch]

/-- The two 32-bit counters agree exactly if `2^32` divides the number of missing blocks. -/
theorem counters_eq_iff (s : Session cfg) (fbs : List BlockInformation) :
    (filePieces C s s.cache.nQueuesz [] fbs).length % 4294967296 = fbs.length % 4294967296 ↔
      4294967296 ∣ missing C s fbs := by
  have h1 := length_filePieces_le (C := C) s s.cache.nQueuesz fbs
  have h2 := List.countP_le_length (p := fun bi => (restoreAlone C s bi).isSome) (l := fbs)
  unfold missing
  omega

/-- The pieces of a file whose blocks can all be restored have the recorded lengths. -/
theorem sum_naivePieces {s : Session cfg} {fbs : List BlockInformation}
    (h : ∀ bi ∈ fbs, (restoreAlone C s bi).isSome = true) :
    ((naivePieces C s fbs).map (·.2.length)).sum = (fbs.map (·.blocksize)).sum := by
  induction fbs with
  | nil => rfl
  | cons bi fbs ih =>
    obtain ⟨b, hb⟩ := Option.isSome_iff_exists.mp (h bi (by simp))
    have hlen : b.bytes.length = bi.blocksize := (restoreAlone_spec hb).1
    have hrest := ih fun b hb => h b (List.mem_cons_of_mem _ hb)
    unfold naivePieces at hrest ⊢
    rw [List.filterMap_cons, hb, Option.map_some, List.map_cons, List.map_cons, List.sum_cons,
      List.sum_cons, hrest, hlen]

/-- If no block is missing, the file is kept with the bytes of all blocks. -/
theorem RestoreTracks.complete {s : Session cfg} {fbs : List BlockInformation} {st : RestoreState}
    (hst : RestoreTracks st fbs (filePieces C s s.cache.nQueuesz [] fbs))
    (hzero : missing C s fbs = 0) :
    st.isOk = true ∧ st.tgt.content = Overlay.overlay 0 (naivePieces C s fbs) := by
  have hpieces := filePieces_eq s s.cache.nQueuesz ((missing_eq_zero_iff s fbs).mp hzero)
  have hcount := (counters_eq_iff s fbs).mpr (hzero ▸ Nat.dvd_zero _)
  refine ⟨?_, by rw [hst.content, hpieces]⟩
  unfold RestoreState.isOk
  rw [Bool.and_eq_true, decide_eq_true_eq, decide_eq_true_eq, hst.nBlocks, hst.nBlocksOk,
    hst.nRestored, hst.nExpected]
  refine ⟨hcount, ?_⟩
  rw [hpieces, sum_naivePieces ((missing_eq_zero_iff s fbs).mp hzero)]

/-- With less than `2^32` blocks the counters tell whether one is missing. -/
theorem RestoreTracks.isOk_iff {s : Session cfg} {fbs : List BlockInformation} {st : RestoreState}
    (hst : RestoreTracks st fbs (filePieces C s s.cache.nQueuesz [] fbs))
    (hcount : fbs.length < 4294967296) :
    st.isOk = true ↔ ∀ bi ∈ fbs, (restoreAlone C s bi).isSome = true := by
  rw [← missing_eq_zero_iff]
  have hle : missing C s fbs ≤ fbs.length := Nat.sub_le _ _
  refine ⟨fun hok => ?_, fun hzero => (hst.complete hzero).1⟩
  unfold RestoreState.isOk at hok
  rw [Bool.and_eq_true, decide_eq_true_eq, hst.nBlocks, hst.nBlocksOk, counters_eq_iff] at hok
  exact Nat.eq_zero_of_dvd_of_lt hok.1 (by omega)

/-- A new file of which no block is missing is restored with the bytes of all blocks. -/
theorem restoreFile_complete (hC : C.HexLawful) {s : Session cfg} (h : Ready C s)
    (hq : s.cache.readqueue = []) {out : Path → Option Bytes} {fp : Path}
    {fbs : List BlockInformation} (hpos : ∀ bi ∈ fbs, bi.filepos < 9223372036854775808)
    (hnew : out fp = none) (hall : ∀ bi ∈ fbs, (restoreAlone C s bi).isSome = true) :
    ∃ s', s.restoreFile C H out fp fbs =
      .ok (s', Function.update out fp (some (Overlay.overlay 0 (naivePieces C s fbs))), true) := by
  obtain ⟨s', st, hst, hfile, -⟩ := restoreFile_eq (H := H) hC h hq fbs hpos hnew
  obtain ⟨hok, hcontent⟩ := hst.complete ((missing_eq_zero_iff s fbs).mpr hall)
  refine ⟨s', ?_⟩
  rw [hfile, hok, if_pos rfl, hcontent]

end Elykseer.Analysis
