import Elykseer.Analysis.Chunks
import Elykseer.Model.Environment

/-!
# Reading assemblies back

`recall` succeeds exactly if every chunk file has at least `chunksize` bytes, and its
buffer is made of the first `chunksize` bytes of each (`recall_spec`).  It depends on
nothing but the files (`recall_congr`), so that what a readable environment restores is
a function of the files and the key: `readAssembly`.

An encrypted assembly whose chunks are all on file is read back with every byte in
front of the tag (`readAssembly_of_chunks`).
-/

set_option autoImplicit false

namespace Elykseer.Analysis

open Elykseer.Model Elykseer.Foundation

variable {C : Crypto} {cfg : CoqConfiguration} {aid : Bytes}

/-- What a chunk file contributes, if it is long enough. -/
def chunkContent (C : Crypto) (cfg : CoqConfiguration) (aid : Bytes)
    (files : Path → Option Bytes) (cid : ℕ) : Option Bytes :=
  match files (chunkFile C cfg aid cid) with
  | none => none
  | some d => if chunksize ≤ d.length then some (d.take chunksize) else none

/-- The content of a chunk is that of its file, if this is as long as a chunk. -/
theorem chunkContent_eq_some {files : Path → Option Bytes} {cid : ℕ} {d : Bytes}
    (hfile : files (chunkFile C cfg aid cid) = some d) (hlen : d.length = chunksize) :
    chunkContent C cfg aid files cid = some d := by
  unfold chunkContent
  rw [hfile]
  dsimp only
  rw [if_pos (Nat.le_of_eq hlen.symm), List.take_of_length_le (Nat.le_of_eq hlen)]

/-- Reading a chunk file into its part of the buffer. -/
theorem fileinSzPos_chunk {s : EncryptionState} {b : CoqBuffer s}
    (hlen : b.len = assemblysize cfg.nchunks) {cid : ℕ} (h : cid ∈ cfg.nchunks.sequence)
    (content : Bytes) :
    (b.fileinSzPos (chunksize * (cid - 1) : ℕ) chunksize content).1 =
        ((content.take chunksize).length : ℤ) ∧
    (b.fileinSzPos (chunksize * (cid - 1) : ℕ) chunksize content).2.bytes =
      Overlay.overwrite b.bytes (chunksize * (cid - 1)) (content.take chunksize) := by
  have hrange := chunk_range h
  have hsize := assemblysize_lt cfg.nchunks
  have hc : chunksize = 262144 := rfl
  have hlen' : b.bytes.length = assemblysize cfg.nchunks := hlen
  have htake : (content.take chunksize).length ≤ chunksize := List.length_take_le _ _
  have hfit : ((chunksize * (cid - 1) : ℕ) : ℤ).toNat +
      (content.take (chunksize : ℤ).toNat).length ≤ b.bytes.length := by
    rw [Int.toNat_natCast, Int.toNat_natCast]
    omega
  unfold CoqBuffer.fileinSzPos
  rw [if_neg (by omega), u32_chunk h, if_neg (by omega)]
  dsimp only
  rw [dif_pos hfit]
  exact ⟨rfl, rfl⟩

section Recall

variable {mkdir : Path → Bool}

/-- One round reads the file of the chunk, if there is one. -/
theorem recallChunk_cases (aid : Bytes) (mkdir : Path → Bool) (hC : C.HexLawful)
    (acc : CoqAssemblyEncrypted.Recalling cfg.nchunks) (cid : ℕ) :
    (CoqAssemblyEncrypted.recallChunk C cfg aid mkdir acc cid).fs.files = acc.fs.files ∧
    match acc.fs.files (chunkFile C cfg aid cid) with
    | none =>
      (CoqAssemblyEncrypted.recallChunk C cfg aid mkdir acc cid).buffer = acc.buffer ∧
      (CoqAssemblyEncrypted.recallChunk C cfg aid mkdir acc cid).nread = acc.nread
    | some content =>
      let r := acc.buffer.fileinSzPos (chunksize * (cid - 1) : ℕ) chunksize content
      (CoqAssemblyEncrypted.recallChunk C cfg aid mkdir acc cid).buffer = r.2 ∧
      (CoqAssemblyEncrypted.recallChunk C cfg aid mkdir acc cid).nread =
        if r.1 = chunksize then acc.nread + r.1.toNat else acc.nread := by
  unfold CoqAssemblyEncrypted.recallChunk
  rw [chunkPath_eq hC]
  have hfiles : (acc.fs.createDirectories (dirOf C cfg aid cid) mkdir).1.files = acc.fs.files := rfl
  cases hmade : (acc.fs.createDirectories (dirOf C cfg aid cid) mkdir).2 with
  | false =>
    cases hfile : acc.fs.files (chunkFile C cfg aid cid) with
    | none => exact ⟨rfl, rfl, rfl⟩
    | some content =>
      -- a file only exists in an existing directory
      have hdir := acc.fs.parent (chunkFile C cfg aid cid) (by rw [hfile]; rfl)
      rw [dropLast_chunkFile, ← List.take_length (l := dirOf C cfg aid cid)] at hdir
      have hpos : 0 < (dirOf C cfg aid cid).length := by rw [length_dirOf]; decide
      have hlevels := congrArg Prod.snd (makeLevels_of_dir mkdir hpos hdir)
      rw [FileSystem.createDirectories, hlevels] at hmade
      cases hmade
  | true =>
    rw [if_pos rfl]
    dsimp only
    rw [hfiles]
    cases hfile : acc.fs.files (chunkFile C cfg aid cid) with
    | none => exact ⟨hfiles, rfl, rfl⟩
    | some content => exact ⟨hfiles, rfl, rfl⟩

/-- Writing a whole chunk. -/
theorem chunkSlice_overwrite_self {bytes d : Bytes} {cid : ℕ}
    (hfit : chunksize * (cid - 1) + chunksize ≤ bytes.length) (hd : d.length = chunksize) :
    chunkSlice (Overlay.overwrite bytes (chunksize * (cid - 1)) d) cid = d := by
  apply List.ext_getElem?
  intro i
  unfold chunkSlice
  rw [Overlay.getElem?_slice, Overlay.getElem?_overwrite (by omega)]
  by_cases hi : i < chunksize
  · rw [if_pos hi, if_pos (by omega), Nat.add_sub_cancel_left]
  · rw [if_neg hi, List.getElem?_eq_none (by omega)]

/-- Writing to one chunk leaves the others alone. -/
theorem chunkSlice_overwrite_of_ne {bytes d : Bytes} {cid cid' : ℕ} (h1 : 1 ≤ cid)
    (h1' : 1 ≤ cid') (hne : cid ≠ cid')
    (hfit : chunksize * (cid' - 1) + chunksize ≤ bytes.length) (hd : d.length ≤ chunksize) :
    chunkSlice (Overlay.overwrite bytes (chunksize * (cid' - 1)) d) cid =
      chunkSlice bytes cid := by
  apply List.ext_getElem?
  intro i
  unfold chunkSlice
  rw [Overlay.getElem?_slice, Overlay.getElem?_slice, Overlay.getElem?_overwrite (by omega)]
  by_cases hi : i < chunksize
  · have hout : ¬ (chunksize * (cid' - 1) ≤ chunksize * (cid - 1) + i ∧
        chunksize * (cid - 1) + i < chunksize * (cid' - 1) + d.length) := by
      rw [chunksize_eq] at *
      omega
    rw [if_pos hi, if_pos hi, if_neg hout]
  · rw [if_neg hi, if_neg hi]

/-- What is read of one chunk: its content if the file is long enough, and no other chunk. -/
theorem recallChunk_step (aid : Bytes) (mkdir : Path → Bool) (hC : C.HexLawful)
    (acc : CoqAssemblyEncrypted.Recalling cfg.nchunks) {cid : ℕ} (hcid : cid ∈ cfg.nchunks.sequence) :
    let r := CoqAssemblyEncrypted.recallChunk C cfg aid mkdir acc cid
    r.fs.files = acc.fs.files ∧
    r.nread = acc.nread +
      (if (chunkContent C cfg aid acc.fs.files cid).isSome = true then chunksize else 0) ∧
    (∀ d, chunkContent C cfg aid acc.fs.files cid = some d → chunkSlice r.buffer.bytes cid = d) ∧
    ∀ cid', 1 ≤ cid' → cid' ≠ cid →
      chunkSlice r.buffer.bytes cid' = chunkSlice acc.buffer.bytes cid' := by
  have hrange := chunk_range hcid
  have hlen : acc.buffer.bytes.length = assemblysize cfg.nchunks := acc.len_eq
  have hpos : 1 ≤ cid := (Nchunks.mem_sequence.mp hcid).1
  obtain ⟨hf, hstep⟩ := recallChunk_cases aid mkdir hC acc cid
  intro r
  cases hfile : acc.fs.files (chunkFile C cfg aid cid) with
  | none =>
    have hcontent : chunkContent C cfg aid acc.fs.files cid = none := by
      unfold chunkContent
      rw [hfile]
    rw [hfile] at hstep
    dsimp only at hstep
    rw [hcontent]
    refine ⟨hf, hstep.2, fun d hd => ?_, fun cid' _ _ => by rw [hstep.1]⟩
    cases hd
  | some content =>
    have hcontent : chunkContent C cfg aid acc.fs.files cid =
        if chunksize ≤ content.length then some (content.take chunksize) else none := by
      unfold chunkContent
      rw [hfile]
    rw [hfile] at hstep
    dsimp only at hstep
    obtain ⟨hval, hbuf⟩ := fileinSzPos_chunk acc.len_eq hcid content
    rw [hval] at hstep
    have hbytes : r.buffer.bytes = Overlay.overwrite acc.buffer.bytes (chunksize * (cid - 1))
        (content.take chunksize) := (congrArg CoqBuffer.bytes hstep.1).trans hbuf
    have htake : (content.take chunksize).length ≤ chunksize := List.length_take_le _ _
    rw [hcontent]
    refine ⟨hf, ?_, fun d hd => ?_, fun cid' h1 hne => ?_⟩
    · rw [hstep.2]
      by_cases hlong : chunksize ≤ content.length
      · rw [if_pos hlong, List.length_take, Nat.min_eq_left hlong, if_pos rfl,
          Int.toNat_natCast]
        rfl
      · have hshort : (content.take chunksize).length = content.length := by
          rw [List.length_take]
          omega
        rw [if_neg hlong, hshort, if_neg (by omega)]
        rfl
    · split at hd
      · next hlong =>
        cases hd
        rw [hbytes]
        exact chunkSlice_overwrite_self (by omega)
          (by rw [List.length_take, Nat.min_eq_left hlong])
      · cases hd
    · rw [hbytes]
      exact chunkSlice_overwrite_of_ne h1 hpos hne (by omega) htake

/-- What has been read after the first `k` chunks. -/
theorem recall_fold (aid : Bytes) (mkdir : Path → Bool) (hC : C.HexLawful) (fs : FileSystem)
    {k : ℕ} (hk : k ≤ cfg.nchunks.u)
    (init : CoqAssemblyEncrypted.Recalling cfg.nchunks) (hfs : init.fs = fs)
    (hinit : init.nread = 0) :
    let r := (List.range' 1 k).foldl (CoqAssemblyEncrypted.recallChunk C cfg aid mkdir) init
    r.fs.files = fs.files ∧
    r.nread = chunksize *
      (List.range' 1 k).countP (fun cid => (chunkContent C cfg aid fs.files cid).isSome) ∧
    ∀ cid, 1 ≤ cid → cid ≤ k → ∀ d, chunkContent C cfg aid fs.files cid = some d →
      chunkSlice r.buffer.bytes cid = d := by
  induction k with
  | zero => exact ⟨by simp [hfs], by simp [hinit], fun cid h1 h2 => by omega⟩
  | succ k ih =>
    obtain ⟨hfiles, hread, hslices⟩ := ih (by omega)
    set acc := (List.range' 1 k).foldl (CoqAssemblyEncrypted.recallChunk C cfg aid mkdir) init
    have hseq : 1 + k ∈ cfg.nchunks.sequence := Nchunks.mem_sequence.mpr (by omega)
    obtain ⟨hf, hnread, hself, hother⟩ := recallChunk_step aid mkdir hC acc hseq
    rw [hfiles] at hf hnread hself
    rw [List.range'_1_concat, List.foldl_append, List.foldl_cons, List.foldl_nil,
      List.countP_append, List.countP_singleton]
    refine ⟨hf, ?_, fun cid h1 h2 d hd => ?_⟩
    · rw [hnread, hread, Nat.mul_add]
      split <;> simp
    · rcases Nat.lt_or_ge cid (1 + k) with hlt | hge
      · rw [hother cid h1 (Nat.ne_of_lt hlt)]
        exact hslices cid h1 (by omega) d hd
      · obtain rfl : cid = 1 + k := by omega
        exact hself d hd

/-- **`recall` succeeds exactly if every chunk file is long enough**, and then the chunks are the
first `chunksize` bytes of the chunk files.  It changes no file. -/
theorem recall_spec (aid : Bytes) (mkdir : Path → Bool) (hC : C.HexLawful) (fs : FileSystem) :
    let r := CoqAssemblyEncrypted.recall C cfg aid mkdir fs
    r.1.files = fs.files ∧
    (r.2.isSome = true ↔
      ∀ cid ∈ cfg.nchunks.sequence, (chunkContent C cfg aid fs.files cid).isSome = true) ∧
    ∀ a, r.2 = some a → a.info = ⟨cfg.nchunks, assemblysize cfg.nchunks, aid⟩ ∧
      ∀ cid ∈ cfg.nchunks.sequence, ∀ d, chunkContent C cfg aid fs.files cid = some d →
        chunkSlice a.buffer.bytes cid = d := by
  obtain ⟨hfiles, hread, hslices⟩ := recall_fold aid mkdir hC fs (Nat.le_refl cfg.nchunks.u)
    ⟨fs, CoqBuffer.create (assemblysize cfg.nchunks), 0,
      CoqBuffer.len_create (assemblysize_lt _)⟩ rfl rfl
  have hpos : 0 < chunksize := by decide
  have hiff : chunksize * (List.range' 1 cfg.nchunks.u).countP
      (fun cid => (chunkContent C cfg aid fs.files cid).isSome) = assemblysize cfg.nchunks ↔
      ∀ cid ∈ cfg.nchunks.sequence, (chunkContent C cfg aid fs.files cid).isSome = true := by
    rw [assemblysize, Nat.mul_right_inj (by omega)]
    have hcount := List.countP_eq_length (l := cfg.nchunks.sequence)
      (p := fun cid => (chunkContent C cfg aid fs.files cid).isSome)
    rw [length_sequence] at hcount
    exact hcount
  intro r
  refine ⟨hfiles, ?_, fun a ha => ?_⟩
  · rw [← hiff, ← hread]
    change (if _ then some _ else none).isSome = true ↔ _
    split
    · next h => exact ⟨fun _ => h, fun _ => rfl⟩
    · next h => exact ⟨fun h' => absurd h' Bool.false_ne_true, fun h' => absurd h' h⟩
  · change (if _ then some _ else none) = some a at ha
    split at ha
    · next h =>
      cases ha
      refine ⟨congrArg (fun n => (⟨cfg.nchunks, n, aid⟩ : AssemblyInformation)) h, fun cid hcid => ?_⟩
      obtain ⟨h1, h2⟩ := Nchunks.mem_sequence.mp hcid
      exact hslices cid h1 h2
    · cases ha

/-- `recall` changes no file. -/
theorem recall_files (hC : C.HexLawful) (fs : FileSystem) :
    (CoqAssemblyEncrypted.recall C cfg aid mkdir fs).1.files = fs.files :=
  (recall_spec aid mkdir hC fs).1

/-- An assembly is recalled when all its chunks have content. -/
theorem recall_isSome_iff (mkdir : Path → Bool) (hC : C.HexLawful) (fs : FileSystem) :
    (CoqAssemblyEncrypted.recall C cfg aid mkdir fs).2.isSome = true ↔
      ∀ cid ∈ cfg.nchunks.sequence, (chunkContent C cfg aid fs.files cid).isSome = true :=
  (recall_spec aid mkdir hC fs).2.1

/-- The chunks of a recalled assembly are the first `chunksize` bytes of the chunk files. -/
theorem recall_chunk (hC : C.HexLawful) {fs : FileSystem} {a : CoqAssemblyEncrypted cfg}
    (h : (CoqAssemblyEncrypted.recall C cfg aid mkdir fs).2 = some a) :
    a.info = ⟨cfg.nchunks, assemblysize cfg.nchunks, aid⟩ ∧ ∀ cid ∈ cfg.nchunks.sequence, ∀ d,
      chunkContent C cfg aid fs.files cid = some d → chunkSlice a.buffer.bytes cid = d :=
  (recall_spec aid mkdir hC fs).2.2 a h

/-- The assembly recalled is the one asked for. -/
theorem recall_aid (hC : C.HexLawful) {fs : FileSystem} {a : CoqAssemblyEncrypted cfg}
    (h : (CoqAssemblyEncrypted.recall C cfg aid mkdir fs).2 = some a) : a.info.aid = aid := by
  rw [(recall_chunk hC h).1]

/-- Two buffers of whole chunks are equal when their chunks are. -/
theorem eq_of_chunkSlice_eq {bytes bytes' : Bytes}
    (hlen : bytes.length = assemblysize cfg.nchunks)
    (hlen' : bytes'.length = assemblysize cfg.nchunks)
    (h : ∀ cid ∈ cfg.nchunks.sequence, chunkSlice bytes cid = chunkSlice bytes' cid) :
    bytes = bytes' := by
  have hc : chunksize = 262144 := rfl
  apply List.ext_getElem?
  intro p
  by_cases hp : p < assemblysize cfg.nchunks
  · have hdiv : p / chunksize < cfg.nchunks.u := Nat.div_lt_of_lt_mul hp
    have hcid : p / chunksize + 1 ∈ cfg.nchunks.sequence :=
      Nchunks.mem_sequence.mpr ⟨Nat.le_add_left 1 _, hdiv⟩
    have hcell := congrArg (fun l : Bytes => l[p % chunksize]?) (h _ hcid)
    have hmod : p % chunksize < chunksize := Nat.mod_lt _ (by omega)
    simp only [chunkSlice, Overlay.getElem?_slice, if_pos hmod, Nat.add_sub_cancel,
      Nat.div_add_mod] at hcell
    exact hcell
  · rw [List.getElem?_eq_none (by omega), List.getElem?_eq_none (by omega)]

/-- Assemblies with the same description and the same bytes are equal. -/
theorem assembly_ext {a a' : CoqAssemblyEncrypted cfg} (hinfo : a.info = a'.info)
    (hbuffer : a.buffer = a'.buffer) : a = a' := by
  cases a
  cases a'
  cases hinfo
  cases hbuffer
  rfl

/-- What is read of the chunks of an assembly is the same: the first `chunksize` bytes of each. -/
def SameChunks (C : Crypto) (cfg : CoqConfiguration) (aid : Bytes)
    (files files' : Path → Option Bytes) : Prop :=
  ∀ cid ∈ cfg.nchunks.sequence,
    chunkContent C cfg aid files cid = chunkContent C cfg aid files' cid

/-- What is recalled depends on what is read of the chunks. -/
theorem recall_sameChunks (hC : C.HexLawful) {mkdir' : Path → Bool} {fs fs' : FileSystem}
    (hcontent : SameChunks C cfg aid fs.files fs'.files) :
    (CoqAssemblyEncrypted.recall C cfg aid mkdir fs).2 =
      (CoqAssemblyEncrypted.recall C cfg aid mkdir' fs').2 := by
  obtain ⟨-, hsome, hread⟩ := recall_spec (C := C) aid mkdir hC fs
  obtain ⟨-, hsome', hread'⟩ := recall_spec (C := C) aid mkdir' hC fs'
  have hiff := hsome.trans ((forall₂_congr fun cid hcid => by rw [hcontent cid hcid]).trans hsome'.symm)
  cases hrec : (CoqAssemblyEncrypted.recall C cfg aid mkdir fs).2 with
  | none =>
    rw [hrec] at hiff
    exact (Option.not_isSome_iff_eq_none.mp fun h' => absurd (hiff.mpr h') Bool.false_ne_true).symm
  | some a =>
    obtain ⟨a', ha'⟩ := Option.isSome_iff_exists.mp (hiff.mp (by rw [hrec]; rfl))
    obtain ⟨hinfo, hslices⟩ := hread a hrec
    obtain ⟨hinfo', hslices'⟩ := hread' a' ha'
    rw [ha', Option.some.injEq]
    apply assembly_ext (hinfo.trans hinfo'.symm)
    apply CoqBuffer.ext
    apply eq_of_chunkSlice_eq a.len_eq a'.len_eq
    intro cid hcid
    -- every chunk was read from its file
    obtain ⟨d, hd⟩ := Option.isSome_iff_exists.mp (hsome.mp (by rw [hrec]; rfl) cid hcid)
    rw [hslices cid hcid d hd, hslices' cid hcid d (hcontent cid hcid ▸ hd)]

/-- `recall` depends on nothing but the chunk files. -/
theorem recall_congr (hC : C.HexLawful) {mkdir' : Path → Bool} {fs fs' : FileSystem}
    (h : ∀ cid ∈ cfg.nchunks.sequence,
      fs.files (chunkFile C cfg aid cid) = fs'.files (chunkFile C cfg aid cid)) :
    (CoqAssemblyEncrypted.recall C cfg aid mkdir fs).2 =
      (CoqAssemblyEncrypted.recall C cfg aid mkdir' fs').2 := by
  apply recall_sameChunks hC
  intro cid hcid
  unfold chunkContent
  rw [h cid hcid]

end Recall

/-- A recalled assembly is recalled with the same bytes when files are added. -/
theorem recall_extends (hC : C.HexLawful) {fs fs' : FileSystem} (hext : Extends fs fs')
    {mkdir : Path → Bool} {e : CoqAssemblyEncrypted cfg}
    (h : (CoqAssemblyEncrypted.recall C cfg aid mkdir fs).2 = some e) :
    (CoqAssemblyEncrypted.recall C cfg aid mkdir fs').2 = some e := by
  rw [← h]
  refine recall_congr hC fun cid hcid => hext _ ?_
  have hall := (recall_isSome_iff _ hC fs).mp (by rw [h]; rfl) cid hcid
  unfold chunkContent at hall
  cases hfile : fs.files (chunkFile C cfg aid cid) with
  | none => rw [hfile] at hall; cases hall
  | some d => rfl

/-- An assembly all of whose chunks are on file is recalled. -/
theorem recall_of_files (hC : C.HexLawful) {fs : FileSystem} {a : CoqAssemblyEncrypted cfg}
    (mkdir : Path → Bool) (hfiles : ∀ cid ∈ cfg.nchunks.sequence,
      fs.files (chunkFile C cfg a.info.aid cid) = some (chunkSlice a.buffer.bytes cid)) :
    ∃ e, (CoqAssemblyEncrypted.recall C cfg a.info.aid mkdir fs).2 = some e ∧
      e.buffer = a.buffer := by
  have hcontent : ∀ cid ∈ cfg.nchunks.sequence,
      chunkContent C cfg a.info.aid fs.files cid = some (chunkSlice a.buffer.bytes cid) :=
    fun cid hcid => chunkContent_eq_some (hfiles cid hcid) (length_chunkSlice a.len_eq hcid)
  obtain ⟨e, he⟩ := Option.isSome_iff_exists.mp
    ((recall_isSome_iff mkdir hC fs).mpr fun cid hcid => by
      rw [hcontent cid hcid]; rfl)
  refine ⟨e, he, CoqBuffer.ext (eq_of_chunkSlice_eq e.len_eq a.len_eq fun cid hcid => ?_)⟩
  exact (recall_chunk hC he).2 cid hcid _ (hcontent cid hcid)

/-! ## What a readable environment restores -/

/-- The assembly a readable environment restores, as a function of the files and the key. -/
def readAssembly (C : Crypto) (cfg : CoqConfiguration) (fs : FileSystem) (aid : Bytes)
    (ki : KeyInformation) : Option (CoqAssemblyPlainFull cfg) :=
  if supportedFormat ki.version then
    (CoqAssemblyEncrypted.recall C cfg aid (fun _ => false) fs).2.bind fun a => a.decrypt C ki
  else none

/-- Reading an assembly depends on its chunk files only. -/
theorem readAssembly_congr (hC : C.HexLawful) {fs fs' : FileSystem} (ki : KeyInformation)
    (h : ∀ cid ∈ cfg.nchunks.sequence,
      fs.files (chunkFile C cfg aid cid) = fs'.files (chunkFile C cfg aid cid)) :
    readAssembly C cfg fs aid ki = readAssembly C cfg fs' aid ki := by
  unfold readAssembly
  rw [recall_congr hC h]

/-- An assembly that can be read stays readable when files are added. -/
theorem readAssembly_extends (hC : C.HexLawful) {fs fs' : FileSystem}
    (hext : Extends fs fs') {ki : KeyInformation} {a : CoqAssemblyPlainFull cfg}
    (h : readAssembly C cfg fs aid ki = some a) :
    readAssembly C cfg fs' aid ki = some a := by
  unfold readAssembly at h ⊢
  split at h
  · next hv =>
    obtain ⟨enc, henc, hdec⟩ := Option.bind_eq_some_iff.mp h
    rw [if_pos hv, recall_extends hC hext henc, Option.bind_some, hdec]
  · cases h

/-- A readable environment restores what `readAssembly` says. -/
theorem restoreAssembly_eq (hC : C.HexLawful) (H : Host) (e : CoqEnvironmentReadable cfg)
    (w : World) (aid : Bytes) (ki : KeyInformation) :
    (e.restoreAssembly C H w aid ki).1 =
        (match readAssembly C cfg w.fs aid ki with
          | none => e
          | some a => ⟨some a⟩) ∧
      (e.restoreAssembly C H w aid ki).2.2 = (readAssembly C cfg w.fs aid ki).isSome := by
  unfold CoqEnvironmentReadable.restoreAssembly readAssembly
  split
  · rw [recall_congr hC fun cid _ => rfl]
    dsimp only
    cases (CoqAssemblyEncrypted.recall C cfg aid H.mkdir w.fs).2.bind fun a => a.decrypt C ki with
    | none => exact ⟨rfl, rfl⟩
    | some a => exact ⟨rfl, rfl⟩
  · exact ⟨rfl, rfl⟩

/-- What reading changes of the world: no file, and no failure is reported. -/
structure World.ReadOnly (w w' : World) : Prop where
  files : w'.fs.files = w.fs.files
  nassembly : w'.nassembly = w.nassembly
  nfinalise : w'.nfinalise = w.nfinalise
  failed : failedAids w'.clog = failedAids w.clog

/-- Restoring an assembly changes no file and draws nothing. -/
theorem restoreAssembly_readOnly (hC : C.HexLawful) (H : Host) (e : CoqEnvironmentReadable cfg)
    (w : World) (aid : Bytes) (ki : KeyInformation) :
    World.ReadOnly w (e.restoreAssembly C H w aid ki).2.1 := by
  unfold CoqEnvironmentReadable.restoreAssembly
  split
  · dsimp only
    split
    · exact ⟨recall_files hC w.fs, rfl, rfl, rfl⟩
    · exact ⟨recall_files hC w.fs, rfl, rfl, rfl⟩
  · exact ⟨rfl, rfl, rfl, by simp [failedAids, LogLine.failedAid]⟩

/-- Decrypting keeps the identifier. -/
theorem decrypt_aid {a : CoqAssemblyEncrypted cfg} {ki : KeyInformation}
    {a' : CoqAssemblyPlainFull cfg} (h : a.decrypt C ki = some a') : a'.aid = a.info.aid := by
  unfold CoqAssemblyEncrypted.decrypt at h
  dsimp only at h
  split at h
  · cases h
    rfl
  · cases h

/-- A restored assembly has the identifier that was asked for. -/
theorem readAssembly_aid (hC : C.HexLawful) {fs : FileSystem} {ki : KeyInformation}
    {a : CoqAssemblyPlainFull cfg} (h : readAssembly C cfg fs aid ki = some a) : a.aid = aid := by
  unfold readAssembly at h
  split at h
  · obtain ⟨enc, henc, hdec⟩ := Option.bind_eq_some_iff.mp h
    rw [decrypt_aid hdec, recall_aid hC henc]
  · cases h

/-- An encrypted assembly whose chunks are on file is read back as it is decrypted. -/
theorem readAssembly_of_files (hC : C.HexLawful) {fs : FileSystem} (ki : KeyInformation)
    (hv : supportedFormat ki.version = true) {enc : CoqAssemblyEncrypted cfg}
    (hfiles : ∀ cid ∈ cfg.nchunks.sequence,
      fs.files (chunkFile C cfg enc.info.aid cid) = some (chunkSlice enc.buffer.bytes cid))
    {p : Bytes}
    (hdec : CoqBuffer.decryptBuffer C ki.ivec ki.pkey enc.info.aid enc.buffer.bytes = (true, p)) :
    ∃ a', readAssembly C cfg fs enc.info.aid ki = some a' ∧ a'.buffer.bytes = p := by
  obtain ⟨e, he, hbuffer⟩ := recall_of_files hC (fun _ => false) hfiles
  have hdec' : CoqBuffer.decryptBuffer C ki.ivec ki.pkey e.info.aid e.buffer.bytes = (true, p) := by
    rw [recall_aid hC he, hbuffer, hdec]
  unfold readAssembly
  rw [if_pos hv, he, Option.bind_some]
  unfold CoqAssemblyEncrypted.decrypt
  dsimp only
  rw [if_pos (by rw [hdec'])]
  exact ⟨_, rfl, congrArg Prod.snd hdec'⟩

/-- Encrypting keeps the description. -/
theorem encrypt_info {a : CoqAssemblyPlainFull cfg} {ki : KeyInformation}
    {enc : CoqAssemblyEncrypted cfg} (h : a.encrypt C ki = some enc) : enc.info = a.info := by
  unfold CoqAssemblyPlainFull.encrypt at h
  split at h
  · cases h
  · cases h
    rfl

/-- The encrypted assembly has the identifier of the one that was filled. -/
theorem aid_encrypt {a : CoqAssemblyPlainWritable cfg} {ki : KeyInformation}
    {enc : CoqAssemblyEncrypted cfg} (h : a.finish.encrypt C ki = some enc) :
    enc.info.aid = a.aid := by
  rw [encrypt_info h]
  rfl

/-- An encrypted assembly holds the encrypted buffer. -/
theorem encrypt_bytes {a : CoqAssemblyPlainFull cfg} {ki : KeyInformation}
    {enc : CoqAssemblyEncrypted cfg} (h : a.encrypt C ki = some enc) :
    CoqBuffer.encryptBuffer C ki.ivec ki.pkey a.info.aid a.buffer.bytes =
      some enc.buffer.bytes := by
  unfold CoqAssemblyPlainFull.encrypt at h
  split at h
  · cases h
  · next c hc =>
    cases h
    exact hc

/-- The buffer of an encrypted assembly is decrypted, up to the bytes of the tag. -/
theorem decryptBuffer_of_encrypt (hC : C.GcmLawful) {a : CoqAssemblyPlainFull cfg}
    {ki : KeyInformation} {enc : CoqAssemblyEncrypted cfg} (henc : a.encrypt C ki = some enc) :
    ∃ p, CoqBuffer.decryptBuffer C ki.ivec ki.pkey enc.info.aid enc.buffer.bytes = (true, p) ∧
      ∀ q < assemblysize cfg.nchunks - tagLen, p[q]? = a.buffer.bytes[q]? := by
  have hlen : a.buffer.bytes.length = assemblysize cfg.nchunks := a.len_eq
  have hsize := tagLen_le_assemblysize cfg.nchunks
  obtain ⟨c, p, hcenc, hdec, hp⟩ := decryptBuffer_encryptBuffer hC ki.ivec ki.pkey a.info.aid
    (b := a.buffer.bytes) (by omega)
  obtain rfl : enc.buffer.bytes = c := Option.some.inj ((encrypt_bytes henc).symm.trans hcenc)
  rw [← encrypt_info henc] at hdec
  exact ⟨p, hdec, fun q hq => hp q (by omega)⟩

/-- **An encrypted assembly whose chunks are on file is read back**, up to the bytes of the tag. -/
theorem readAssembly_of_chunks (hC : C.Lawful) {fs : FileSystem} {a : CoqAssemblyPlainFull cfg}
    {ki : KeyInformation} (hv : supportedFormat ki.version = true)
    {enc : CoqAssemblyEncrypted cfg} (henc : a.encrypt C ki = some enc)
    (hfiles : ∀ cid ∈ cfg.nchunks.sequence,
      fs.files (chunkFile C cfg a.aid cid) = some (chunkSlice enc.buffer.bytes cid)) :
    ∃ a', readAssembly C cfg fs a.aid ki = some a' ∧
      ∀ p < assemblysize cfg.nchunks - tagLen,
        a'.buffer.bytes[p]? = a.buffer.bytes[p]? := by
  have haid : enc.info.aid = a.info.aid := by rw [encrypt_info henc]
  obtain ⟨p, hdec, hp⟩ := decryptBuffer_of_encrypt hC.gcm henc
  change ∀ cid ∈ cfg.nchunks.sequence, fs.files (chunkFile C cfg a.info.aid cid) = _ at hfiles
  rw [← haid] at hfiles
  obtain ⟨a', hread, ha'⟩ := readAssembly_of_files hC.hex ki hv hfiles hdec
  rw [haid] at hread
  refine ⟨a', hread, fun q hq => ?_⟩
  rw [ha']
  exact hp q hq

end Elykseer.Analysis
