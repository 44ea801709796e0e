import Mathlib.Data.List.Nodup
import Elykseer.Analysis.Layout
import Elykseer.Analysis.Cipher

/-!
# Chunk files

What `extract` leaves in the chunk directory.

`extract` reports all bytes as written exactly when every chunk file can be opened
(`extract_eq_iff`); then each file holds what the operating system kept of its chunk
(`extract_files`).  No existing file is changed (`extract_keeps`).
-/

set_option autoImplicit false

namespace Elykseer.Analysis

open Elykseer.Model Elykseer.Foundation

variable {C : Crypto} {cfg : CoqConfiguration} {aid : Bytes}

/-! ## Paths -/

/-- The directory of a chunk. -/
def dirOf (C : Crypto) (cfg : CoqConfiguration) (aid : Bytes) (cid : ℕ) : Path :=
  chunkDir cfg (chunkIdentifier C cfg.myId aid cid)

/-- A chunk file lies in the directory of its chunk. -/
theorem dropLast_chunkFile (cid : ℕ) :
    (chunkFile C cfg aid cid).dropLast = dirOf C cfg aid cid := by
  unfold chunkFile dirOf
  exact List.dropLast_concat

/-- The directory of a chunk is three levels deep. -/
theorem length_dirOf (cid : ℕ) : (dirOf C cfg aid cid).length = 3 := rfl

/-- `toString10` is read back digit by digit. -/
theorem ofDigits_toString10 (n : ℕ) :
    Nat.ofDigits 10 ((toString10 n).reverse.map fun b => b.toNat - 48) = n := by
  unfold toString10
  split
  · next h => simp [h]
  · rw [List.reverse_reverse, List.map_map]
    have hdigits : (Nat.digits 10 n).map ((fun b : UInt8 => b.toNat - 48) ∘
        fun d => 48 + d.toUInt8) = Nat.digits 10 n := by
      conv_rhs => rw [← List.map_id (Nat.digits 10 n)]
      apply List.map_congr_left
      intro d hd
      have hlt : d < 10 := Nat.digits_lt_base (by decide) hd
      simp only [Function.comp_apply, id_eq, UInt8.toNat_add, Nat.toUInt8,
        UInt8.toNat_ofNat']
      have h48 : (48 : UInt8).toNat = 48 := rfl
      rw [h48]
      omega
    rw [hdigits, Nat.ofDigits_digits]

/-- Different numbers are printed differently. -/
theorem toString10_injective : Function.Injective toString10 := by
  intro m n h
  rw [← ofDigits_toString10 m, ← ofDigits_toString10 n, h]

/-- Different chunks have different inputs to the hash. -/
theorem chunkIdInput_injective {myId aid aid' : Bytes} {cid cid' : ℕ} (hlen : aid.length = 64)
    (hlen' : aid'.length = 64)
    (h : chunkIdInput myId aid cid = chunkIdInput myId aid' cid') : aid = aid' ∧ cid = cid' := by
  unfold chunkIdInput at h
  rw [List.append_assoc, List.append_assoc] at h
  obtain ⟨hnum, haid⟩ := List.append_inj' (List.append_cancel_left h) (hlen.trans hlen'.symm)
  exact ⟨haid, toString10_injective hnum⟩

/-- The strings that are hashed to the identifiers of the chunks of some assemblies. -/
def chunkInputs (cfg : CoqConfiguration) (aids : Set Bytes) : Set Bytes :=
  {m | ∃ aid ∈ aids, ∃ cid ∈ cfg.nchunks.sequence, m = chunkIdInput cfg.myId aid cid}

/-- Two chunks share a file exactly if the hashes of their strings are the same. -/
theorem chunkFile_eq_iff (hC : C.HexLawful) {aid' : Bytes} {cid cid' : ℕ} :
    chunkFile C cfg aid cid = chunkFile C cfg aid' cid' ↔
      C.sha3 (chunkIdInput cfg.myId aid cid) = C.sha3 (chunkIdInput cfg.myId aid' cid') := by
  constructor
  · intro h
    have hname : chunkIdentifier C cfg.myId aid cid ++ ascii ".lxr" =
        chunkIdentifier C cfg.myId aid' cid' ++ ascii ".lxr" := by
      have := congrArg List.getLast? h
      simp only [chunkFile, List.getLast?_concat, Option.some.injEq] at this
      exact this
    exact hC.toHex256_injective (List.append_cancel_right hname)
  · intro h
    unfold chunkFile chunkIdentifier
    rw [h]

/-- **No two chunks share a file**, unless their identifiers collide. -/
theorem chunkFile_injective (hC : C.HexLawful) {aids : Set Bytes}
    (hcoll : C.NoCollision (chunkInputs cfg aids)) {aid' : Bytes} (haid : aid ∈ aids)
    (haid' : aid' ∈ aids) (hlen : aid.length = 64) (hlen' : aid'.length = 64) {cid cid' : ℕ}
    (hcid : cid ∈ cfg.nchunks.sequence) (hcid' : cid' ∈ cfg.nchunks.sequence)
    (h : chunkFile C cfg aid cid = chunkFile C cfg aid' cid') : aid = aid' ∧ cid = cid' := by
  have hhash := (chunkFile_eq_iff hC).mp h
  exact chunkIdInput_injective hlen hlen'
    (hcoll ⟨aid, haid, cid, hcid, rfl⟩ ⟨aid', haid', cid', hcid', rfl⟩ hhash)

/-- `chunk_path` with a hash of the right length. -/
theorem chunkPath_eq (hC : C.HexLawful) (cid : ℕ) (mkdir : Path → Bool) (fs : FileSystem) :
    chunkPath C cfg cid aid mkdir fs =
      ((fs.createDirectories (dirOf C cfg aid cid) mkdir).1,
        if (fs.createDirectories (dirOf C cfg aid cid) mkdir).2 then
          some (chunkFile C cfg aid cid) else none) := by
  have hlen : (chunkIdentifier C cfg.myId aid cid).length = 64 := hC.length256 _
  unfold chunkPath
  dsimp only
  rw [if_neg (by simp [hlen])]
  rfl

/-- Nothing is to be made if the directory exists. -/
theorem makeLevels_of_dir (mkdir : Path → Bool) {dirs : Path → Bool} {p : Path} {k : ℕ}
    (hk : 0 < k) (h : dirs (p.take k) = true) : makeLevels mkdir dirs p k = (dirs, true) := by
  obtain ⟨k, rfl⟩ := Nat.exists_eq_add_of_lt hk
  rw [Nat.zero_add] at h ⊢
  rw [makeLevels, if_pos h]

/-- After a success all the levels are there. -/
theorem makeLevels_self {mkdir dirs : Path → Bool} {p : Path} {k : ℕ} (hk : 0 < k)
    (h : (makeLevels mkdir dirs p k).2 = true) :
    (makeLevels mkdir dirs p k).1 (p.take k) = true := by
  obtain ⟨k, rfl⟩ := Nat.exists_eq_add_of_lt hk
  rw [Nat.zero_add] at h ⊢
  rw [makeLevels] at h ⊢
  split at h
  · next hdir =>
    rw [if_pos hdir]
    exact hdir
  · next hdir =>
    dsimp only at h ⊢
    rw [if_neg hdir]
    split at h
    · next hmade =>
      rw [if_pos hmade]
      exact Function.update_self ..
    · cases h

/-- If every directory can be made, so can all the levels. -/
theorem makeLevels_of_forall {mkdir : Path → Bool} (h : ∀ q, mkdir q = true) (dirs : Path → Bool)
    (p : Path) (k : ℕ) : (makeLevels mkdir dirs p k).2 = true := by
  induction k with
  | zero => rfl
  | succ k ih =>
    rw [makeLevels]
    split
    · rfl
    · dsimp only
      rw [ih, h, Bool.and_self, if_pos rfl]

/-! ## Writing the chunks -/

section Extract

variable {a : CoqAssemblyEncrypted cfg} {io : ℕ → ChunkIO}

/-- The part of a buffer that goes into a chunk. -/
def chunkSlice (bytes : Bytes) (cid : ℕ) : Bytes :=
  Overlay.slice bytes (chunksize * (cid - 1)) chunksize

/-- The directories there are when the ones of a chunk have been looked for. -/
def dirsOfChunk (C : Crypto) (cfg : CoqConfiguration) (aid : Bytes) (io : ℕ → ChunkIO)
    (dirs : Path → Bool) (cid : ℕ) : (Path → Bool) × Bool :=
  makeLevels (io cid).mkdir dirs (dirOf C cfg aid cid) (dirOf C cfg aid cid).length

/-- The file of a chunk can be opened for writing: it does not exist, and its directories exist or
can be made. -/
def Openable (C : Crypto) (cfg : CoqConfiguration) (aid : Bytes) (io : ℕ → ChunkIO)
    (fs : FileSystem) (cid : ℕ) : Prop :=
  (dirsOfChunk C cfg aid io fs.dirs cid).2 = true ∧
    fs.files (chunkFile C cfg aid cid) = none ∧ (io cid).fopen = true

/-- Each chunk lies inside the assembly. -/
theorem chunk_range {cid : ℕ} (h : cid ∈ cfg.nchunks.sequence) :
    chunksize * (cid - 1) + chunksize ≤ assemblysize cfg.nchunks := by
  obtain ⟨h1, h2⟩ := Nchunks.mem_sequence.mp h
  calc chunksize * (cid - 1) + chunksize = chunksize * (cid - 1 + 1) := by rw [Nat.mul_succ]
    _ ≤ chunksize * cfg.nchunks.u := Nat.mul_le_mul_left _ (by omega)

/-- The slice of each chunk is as long as a chunk. -/
theorem length_chunkSlice {bytes : Bytes} (hlen : bytes.length = assemblysize cfg.nchunks)
    {cid : ℕ} (h : cid ∈ cfg.nchunks.sequence) : (chunkSlice bytes cid).length = chunksize :=
  Overlay.length_slice (hlen ▸ chunk_range h)

/-- The end of a chunk in 32 bits. -/
theorem u32_chunk {cid : ℕ} (h : cid ∈ cfg.nchunks.sequence) :
    u32 ((chunksize : ℤ) + (chunksize * (cid - 1) : ℕ)) = chunksize + chunksize * (cid - 1) := by
  have hrange := chunk_range h
  have hsize := assemblysize_lt cfg.nchunks
  rw [← Nat.cast_add]
  exact u32_natCast (by omega)

/-- Writing a chunk writes its slice, and reports all of it. -/
theorem fileoutSzPos_chunk {s : EncryptionState} {b : CoqBuffer s}
    (hlen : b.len = assemblysize cfg.nchunks) {cid : ℕ} (h : cid ∈ cfg.nchunks.sequence) :
    b.fileoutSzPos (chunksize * (cid - 1) : ℕ) chunksize =
      ((chunksize : ℤ), chunkSlice b.bytes cid) := by
  have hrange := chunk_range h
  have hsize := assemblysize_lt cfg.nchunks
  have hc : chunksize = 262144 := rfl
  unfold CoqBuffer.fileoutSzPos
  rw [if_neg (by omega), u32_chunk h, if_neg (by omega), Int.toNat_natCast, Int.toNat_natCast]
  rfl

/-- A chunk file that can be opened is written. -/
theorem extractChunk_of_openable (hC : C.HexLawful) {acc : FileSystem × ℕ} {cid : ℕ}
    (hcid : cid ∈ cfg.nchunks.sequence)
    (h : Openable C cfg a.info.aid io acc.1 cid) :
    (CoqAssemblyEncrypted.extractChunk C a io acc cid).2 = acc.2 + chunksize ∧
    (CoqAssemblyEncrypted.extractChunk C a io acc cid).1.files =
      Function.update acc.1.files (chunkFile C cfg a.info.aid cid)
        (some ((chunkSlice a.buffer.bytes cid).take ((io cid).kept chunksize))) := by
  obtain ⟨hdir, hfile, hopen⟩ := h
  have hmade : (acc.1.createDirectories (dirOf C cfg a.info.aid cid) (io cid).mkdir).2 = true := hdir
  have hself : (acc.1.createDirectories (dirOf C cfg a.info.aid cid) (io cid).mkdir).1.dirs
      (dirOf C cfg a.info.aid cid) = true := by
    have hpos : 0 < (dirOf C cfg a.info.aid cid).length := by rw [length_dirOf]; decide
    have h := makeLevels_self hpos hdir
    rwa [List.take_length] at h
  have hfiles : (acc.1.createDirectories (dirOf C cfg a.info.aid cid) (io cid).mkdir).1.files =
      acc.1.files := rfl
  unfold CoqAssemblyEncrypted.extractChunk
  rw [chunkPath_eq hC, hmade, if_pos rfl]
  dsimp only
  rw [hfiles, hfile, if_neg (by simp),
    dif_pos ⟨by rw [dropLast_chunkFile]; exact hself, hopen⟩, fileoutSzPos_chunk a.len_eq hcid]
  dsimp only
  rw [if_pos rfl, Int.toNat_natCast, length_chunkSlice a.len_eq hcid]
  exact ⟨rfl, rfl⟩

/-- A chunk file that cannot be opened is left out. -/
theorem extractChunk_of_not_openable (hC : C.HexLawful) {acc : FileSystem × ℕ} {cid : ℕ}
    (h : ¬ Openable C cfg a.info.aid io acc.1 cid) :
    (CoqAssemblyEncrypted.extractChunk C a io acc cid).2 = acc.2 ∧
    (CoqAssemblyEncrypted.extractChunk C a io acc cid).1.files = acc.1.files := by
  have hfiles : (acc.1.createDirectories (dirOf C cfg a.info.aid cid) (io cid).mkdir).1.files =
      acc.1.files := rfl
  unfold CoqAssemblyEncrypted.extractChunk
  rw [chunkPath_eq hC]
  cases hmade : (acc.1.createDirectories (dirOf C cfg a.info.aid cid) (io cid).mkdir).2 with
  | false => exact ⟨rfl, rfl⟩
  | true =>
    rw [if_pos rfl]
    dsimp only
    rw [hfiles]
    cases hfile : acc.1.files (chunkFile C cfg a.info.aid cid) with
    | some d => exact ⟨rfl, rfl⟩
    | none =>
      have hopen : ¬ (io cid).fopen = true := fun ho => h ⟨hmade, hfile, ho⟩
      rw [if_neg (by simp), dif_neg (fun hh => hopen hh.2)]
      exact ⟨rfl, rfl⟩

/-- The directories after one chunk. -/
theorem dirs_extractChunk (hC : C.HexLawful) (acc : FileSystem × ℕ) (cid : ℕ) :
    (CoqAssemblyEncrypted.extractChunk C a io acc cid).1.dirs =
      (dirsOfChunk C cfg a.info.aid io acc.1.dirs cid).1 := by
  unfold CoqAssemblyEncrypted.extractChunk
  rw [chunkPath_eq hC]
  cases (acc.1.createDirectories (dirOf C cfg a.info.aid cid) (io cid).mkdir).2 with
  | false => rfl
  | true =>
    rw [if_pos rfl]
    dsimp only
    split
    · rfl
    · split <;> rfl

/-- Every chunk file of a list can be opened, one after the other: each is absent, no two of them
are the same, and the directories of each exist or are made for this chunk or an earlier one. -/
structure AllOpen (C : Crypto) (cfg : CoqConfiguration) (aid : Bytes) (io : ℕ → ChunkIO)
    (fs : FileSystem) (cids : List ℕ) : Prop where
  dirs : ∀ pre cid post, cids = pre ++ cid :: post → (dirsOfChunk C cfg aid io
    (pre.foldl (fun dirs c => (dirsOfChunk C cfg aid io dirs c).1) fs.dirs) cid).2 = true
  absent : ∀ cid ∈ cids, fs.files (chunkFile C cfg aid cid) = none
  distinct : (cids.map (chunkFile C cfg aid)).Nodup
  fopen : ∀ cid ∈ cids, (io cid).fopen = true

/-- With no chunks left, all have been opened. -/
theorem allOpen_nil (fs : FileSystem) : AllOpen C cfg aid io fs [] :=
  ⟨by simp, by simp, by simp, by simp⟩

/-- The first chunk can be opened, and the others after it has been written. -/
theorem allOpen_cons_iff (hC : C.HexLawful) {acc : FileSystem × ℕ} {cid : ℕ} {cids : List ℕ}
    (hcid : cid ∈ cfg.nchunks.sequence) :
    AllOpen C cfg a.info.aid io acc.1 (cid :: cids) ↔
      Openable C cfg a.info.aid io acc.1 cid ∧
      AllOpen C cfg a.info.aid io (CoqAssemblyEncrypted.extractChunk C a io acc cid).1 cids := by
  have hdirs : (CoqAssemblyEncrypted.extractChunk C a io acc cid).1.dirs =
      (dirsOfChunk C cfg a.info.aid io acc.1.dirs cid).1 := dirs_extractChunk hC acc cid
  constructor
  · intro h
    have hopen : Openable C cfg a.info.aid io acc.1 cid :=
      ⟨h.dirs [] cid cids rfl, h.absent cid (by simp), h.fopen cid (by simp)⟩
    have hnodup := h.distinct
    rw [List.map_cons, List.nodup_cons] at hnodup
    refine ⟨hopen, ⟨?_, ?_, hnodup.2, fun c hc => h.fopen c (by simp [hc])⟩⟩
    · intro pre c post heq
      rw [hdirs]
      exact h.dirs (cid :: pre) c post (by rw [heq]; rfl)
    · intro c hc
      have hne : chunkFile C cfg a.info.aid c ≠ chunkFile C cfg a.info.aid cid := fun heq =>
        hnodup.1 (heq ▸ List.mem_map_of_mem hc)
      rw [(extractChunk_of_openable hC hcid hopen).2, Function.update_of_ne hne]
      exact h.absent c (by simp [hc])
  · rintro ⟨hopen, h⟩
    have hfiles := (extractChunk_of_openable hC hcid hopen).2
    have hne : ∀ c ∈ cids, chunkFile C cfg a.info.aid c ≠ chunkFile C cfg a.info.aid cid := by
      intro c hc heq
      have := h.absent c hc
      rw [hfiles, heq, Function.update_self] at this
      cases this
    refine ⟨?_, ?_, ?_, ?_⟩
    · intro pre c post heq
      cases pre with
      | nil =>
        rw [List.nil_append, List.cons.injEq] at heq
        rw [← heq.1]
        exact hopen.1
      | cons c₀ pre =>
        rw [List.cons_append, List.cons.injEq] at heq
        have hlater := h.dirs pre c post heq.2
        rwa [hdirs, heq.1] at hlater
    · intro c hc
      rcases List.mem_cons.mp hc with rfl | hc
      · exact hopen.2.1
      · have := h.absent c hc
        rwa [hfiles, Function.update_of_ne (hne c hc)] at this
    · rw [List.map_cons, List.nodup_cons]
      refine ⟨fun hmem => ?_, h.distinct⟩
      obtain ⟨c, hc, heq⟩ := List.mem_map.mp hmem
      exact hne c hc heq
    · intro c hc
      rcases List.mem_cons.mp hc with rfl | hc
      · exact hopen.2.2
      · exact h.fopen c hc

/-- All bytes are reported as written exactly when all chunk files can be opened. -/
theorem extract_fold (io : ℕ → ChunkIO) (hC : C.HexLawful) {cids : List ℕ}
    (hcids : ∀ cid ∈ cids, cid ∈ cfg.nchunks.sequence) (acc : FileSystem × ℕ) :
    (cids.foldl (CoqAssemblyEncrypted.extractChunk C a io) acc).2 ≤
        acc.2 + chunksize * cids.length ∧
    ((cids.foldl (CoqAssemblyEncrypted.extractChunk C a io) acc).2 =
        acc.2 + chunksize * cids.length ↔
      AllOpen C cfg a.info.aid io acc.1 cids) := by
  have hpos : 0 < chunksize := by decide
  induction cids generalizing acc with
  | nil => exact ⟨Nat.le_refl _, ⟨fun _ => allOpen_nil _, fun _ => rfl⟩⟩
  | cons cid cids ih =>
    have hcid := hcids cid (by simp)
    obtain ⟨hle, hiff⟩ := ih (fun c hc => hcids c (by simp [hc]))
      (CoqAssemblyEncrypted.extractChunk C a io acc cid)
    rw [List.foldl_cons, allOpen_cons_iff hC hcid, ← hiff, List.length_cons, Nat.mul_succ]
    by_cases hopen : Openable C cfg a.info.aid io acc.1 cid
    · rw [(extractChunk_of_openable hC hcid hopen).1] at hle ⊢
      refine ⟨by omega, ?_⟩
      constructor
      · intro h
        exact ⟨hopen, by omega⟩
      · rintro ⟨-, h⟩
        omega
    · rw [(extractChunk_of_not_openable hC hopen).1] at hle ⊢
      refine ⟨by omega, ?_⟩
      constructor
      · intro h
        omega
      · rintro ⟨h, -⟩
        exact absurd h hopen

/-- There are as many chunk numbers as chunks. -/
theorem length_sequence (n : Nchunks) : n.sequence.length = n.u := List.length_range'

/-- The chunk files of a new identifier can be opened if the operating system agrees. -/
theorem allOpen_of_absent (hC : C.HexLawful) {fs : FileSystem} {aids : Set Bytes}
    (hcoll : C.NoCollision (chunkInputs cfg aids)) (haid : aid ∈ aids) (hlen : aid.length = 64)
    (habsent : ∀ cid ∈ cfg.nchunks.sequence, fs.files (chunkFile C cfg aid cid) = none)
    (hmkdir : ∀ cid ∈ cfg.nchunks.sequence, ∀ p, (io cid).mkdir p = true)
    (hfopen : ∀ cid ∈ cfg.nchunks.sequence, (io cid).fopen = true) :
    AllOpen C cfg aid io fs cfg.nchunks.sequence where
  dirs pre cid post h := makeLevels_of_forall (hmkdir cid (by rw [h]; simp)) _ _ _
  absent := habsent
  distinct := by
    refine List.Nodup.map_on (fun cid hcid cid' hcid' h => ?_) List.nodup_range'
    exact (chunkFile_injective hC hcoll haid haid hlen hlen hcid hcid' h).2
  fopen := hfopen

/-- **`extract` reports success exactly when all chunk files can be opened.** -/
theorem extract_eq_iff (hC : C.HexLawful) (fs : FileSystem) :
    (a.extract C io fs).2 = assemblysize cfg.nchunks ↔
      AllOpen C cfg a.info.aid io fs cfg.nchunks.sequence := by
  have h := (extract_fold (a := a) io hC (fun cid hcid => hcid) (fs, 0)).2
  rw [length_sequence, Nat.zero_add] at h
  unfold CoqAssemblyEncrypted.extract
  rw [a.nchunks_eq]
  exact h

/-- Files that are none of the chunk files stay as they are, and so do existing ones. -/
theorem extract_fold_keeps (hC : C.HexLawful) {cids : List ℕ}
    (hcids : ∀ cid ∈ cids, cid ∈ cfg.nchunks.sequence) (acc : FileSystem × ℕ) {p : Path}
    (hp : p ∉ cids.map (chunkFile C cfg a.info.aid) ∨ (acc.1.files p).isSome = true) :
    (cids.foldl (CoqAssemblyEncrypted.extractChunk C a io) acc).1.files p = acc.1.files p := by
  induction cids generalizing acc with
  | nil => rfl
  | cons cid cids ih =>
    have hcid := hcids cid (by simp)
    have hstep : (CoqAssemblyEncrypted.extractChunk C a io acc cid).1.files p =
        acc.1.files p := by
      by_cases hopen : Openable C cfg a.info.aid io acc.1 cid
      · rw [(extractChunk_of_openable hC hcid hopen).2, Function.update_of_ne]
        rintro rfl
        rcases hp with hp | hp
        · simp at hp
        · rw [hopen.2.1] at hp
          cases hp
      · rw [(extractChunk_of_not_openable hC hopen).2]
    rw [List.foldl_cons, ih (fun c hc => hcids c (by simp [hc])) _ ?_, hstep]
    rw [hstep]
    exact hp.imp_left fun h => by rw [List.map_cons, List.mem_cons, not_or] at h; exact h.2

/-- **The chunk directory is append-only**: `extract` changes no file that exists and none that
is not one of its chunks. -/
theorem extract_keeps (hC : C.HexLawful) (fs : FileSystem) {p : Path}
    (hp : (∀ cid ∈ cfg.nchunks.sequence, p ≠ chunkFile C cfg a.info.aid cid) ∨
      (fs.files p).isSome = true) :
    (a.extract C io fs).1.files p = fs.files p := by
  unfold CoqAssemblyEncrypted.extract
  rw [a.nchunks_eq]
  refine extract_fold_keeps hC (fun cid hcid => hcid) (fs, 0) (hp.imp_left fun h hmem => ?_)
  obtain ⟨cid, hcid, heq⟩ := List.mem_map.mp hmem
  exact h cid hcid heq.symm

/-- No existing file is changed or removed. -/
def Extends (fs fs' : FileSystem) : Prop :=
  ∀ p, (fs.files p).isSome = true → fs'.files p = fs.files p

/-- Nothing changed, nothing lost. -/
theorem Extends.refl (fs : FileSystem) : Extends fs fs := fun _ _ => rfl

/-- Two steps that keep the existing files are one. -/
theorem Extends.trans {fs fs' fs'' : FileSystem} (h : Extends fs fs') (h' : Extends fs' fs'') :
    Extends fs fs'' := by
  intro p hp
  rw [h' p (by rw [h p hp]; exact hp), h p hp]

/-- Extracting an assembly changes and removes no existing file. -/
theorem extract_extends (io : ℕ → ChunkIO) (hC : C.HexLawful) (fs : FileSystem) :
    Extends fs (a.extract C io fs).1 :=
  fun _ hp => extract_keeps hC fs (Or.inr hp)

/-- Each chunk file that is opened holds what was kept of its slice. -/
theorem extract_fold_files (hC : C.HexLawful) {cids : List ℕ}
    (hcids : ∀ cid ∈ cids, cid ∈ cfg.nchunks.sequence) (acc : FileSystem × ℕ)
    (h : AllOpen C cfg a.info.aid io acc.1 cids) {cid : ℕ} (hmem : cid ∈ cids) :
    (cids.foldl (CoqAssemblyEncrypted.extractChunk C a io) acc).1.files
        (chunkFile C cfg a.info.aid cid) =
      some ((chunkSlice a.buffer.bytes cid).take ((io cid).kept chunksize)) := by
  induction cids generalizing acc with
  | nil => cases hmem
  | cons cid₀ cids ih =>
    have hcid₀ := hcids cid₀ (by simp)
    have hcids' : ∀ c ∈ cids, c ∈ cfg.nchunks.sequence := fun c hc => hcids c (by simp [hc])
    obtain ⟨hopen, hrest⟩ := (allOpen_cons_iff hC hcid₀).mp h
    rw [List.foldl_cons]
    rcases List.mem_cons.mp hmem with rfl | hmem
    · have hfile := (extractChunk_of_openable (a := a) hC hcid₀ hopen).2
      rw [extract_fold_keeps hC hcids', hfile, Function.update_self]
      rw [hfile, Function.update_self]
      exact Or.inr rfl
    · exact ih hcids' _ hrest hmem

/-- If all chunk files can be opened, each holds what was kept of its chunk. -/
theorem extract_files (hC : C.HexLawful) {fs : FileSystem}
    (h : AllOpen C cfg a.info.aid io fs cfg.nchunks.sequence) {cid : ℕ}
    (hcid : cid ∈ cfg.nchunks.sequence) :
    (a.extract C io fs).1.files (chunkFile C cfg a.info.aid cid) =
      some ((chunkSlice a.buffer.bytes cid).take ((io cid).kept chunksize)) := by
  unfold CoqAssemblyEncrypted.extract
  rw [a.nchunks_eq]
  exact extract_fold_files hC (fun cid hcid => hcid) (fs, 0) h hcid

end Extract

end Elykseer.Analysis
