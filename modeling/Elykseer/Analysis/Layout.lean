import Elykseer.Model.Assembly

/-!
# Writing blocks to an assembly and reading them back

The data area of an assembly is `[headerLen, dataEnd)` in logical positions; `idx2apos`
stripes it over the chunks and keeps it off the tag.  `backup_eq` says what a block
that fits does to the assembly, cell by cell; `restore_eq` says what `restore` returns
for any record.  Together they give a block back after any later blocks
(`Holds.backup`, `restore_of_holds`).
-/

set_option autoImplicit false

namespace Elykseer.Analysis

open Elykseer.Model Elykseer.Foundation

variable {cfg : CoqConfiguration} {n : Nchunks}

/-! ## Logical positions -/

/-- The end of the data area: the rows of the tag are left out. -/
def dataEnd (n : Nchunks) : ℕ := (chunksize - tagLen) * n.u

/-- The layout of an assembly is striping. -/
theorem idx2apos_eq_stripe (i : ℕ) (n : Nchunks) :
    idx2apos i n = Striping.stripe n.u chunksize i := rfl

/-- The data area and the tag rows make up the assembly. -/
theorem dataEnd_add_tag (n : Nchunks) : dataEnd n + tagLen * n.u = assemblysize n := by
  unfold dataEnd assemblysize
  rw [← Nat.add_mul]
  rfl

/-- The data area lies in the assembly. -/
theorem dataEnd_le (n : Nchunks) : dataEnd n ≤ assemblysize n := by
  rw [← dataEnd_add_tag]
  exact Nat.le_add_right _ _

/-- The header has at most 128 bytes. -/
theorem headerLen_le (n : Nchunks) : headerLen n ≤ 128 := Nat.min_le_right _ _

/-- Any assembly has room for more than 4 million bytes. -/
theorem lt_dataEnd (n : Nchunks) : 4000000 < dataEnd n := by
  have := n.min_le
  unfold dataEnd
  rw [chunksize_eq, tagLen_eq]
  omega

/-- The tag fits into the assembly. -/
theorem tagLen_le_assemblysize (n : Nchunks) : tagLen ≤ assemblysize n :=
  Nat.le_trans (Nat.le_trans (by decide) (Nat.le_of_lt (lt_dataEnd n))) (dataEnd_le n)

/-- Assemblies of different numbers of chunks have different sizes. -/
theorem assemblysize_injective : Function.Injective assemblysize := by
  intro n n' h
  have hu : n.u = n'.u := Nat.eq_of_mul_eq_mul_left (by decide) h
  cases n
  cases n'
  cases hu
  rfl

/-- Indices inside the assembly go to positions inside it. -/
theorem idx2apos_lt {i : ℕ} (hi : i < assemblysize n) : idx2apos i n < assemblysize n := by
  rw [assemblysize, Nat.mul_comm] at hi ⊢
  rw [idx2apos_eq_stripe]
  exact Striping.stripe_lt hi

/-- Different indices inside the assembly go to different positions. -/
theorem idx2apos_inj {i j : ℕ} (hi : i < assemblysize n) (hj : j < assemblysize n)
    (h : idx2apos i n = idx2apos j n) : i = j := by
  rw [assemblysize, Nat.mul_comm] at hi hj
  rw [idx2apos_eq_stripe, idx2apos_eq_stripe] at h
  exact Striping.stripe_injOn n.u chunksize hi hj h

/-- The data area stays off the last `tagLen` bytes. -/
theorem idx2apos_lt_of_lt_dataEnd {i : ℕ} (hi : i < dataEnd n) :
    idx2apos i n < assemblysize n - tagLen := by
  rw [idx2apos_eq_stripe, assemblysize, Nat.mul_comm]
  exact Striping.stripe_lt_of_lt_rows hi

/-- An index inside the assembly is inside one of its columns. -/
theorem lt_columns {i : ℕ} (hi : i < assemblysize n) : i < n.u * chunksize := by
  rwa [Nat.mul_comm]

/-- The 32-bit arithmetic of the code does not overflow. -/
theorem toNat_idx2apos32 {i : ℕ} (hi : i < assemblysize n) :
    (idx2apos32 (UInt32.ofNat i) (UInt32.ofNat n.u)).toNat = idx2apos i n := by
  have hsize := assemblysize_lt n
  have hmax := n.le_max
  have hlt := idx2apos_lt hi
  have hcell : idx2apos i n = i % n.u * 262144 + i / n.u := by
    rw [idx2apos, chunksize_eq, Nat.mul_comm]
  have hi32 : (UInt32.ofNat i).toNat = i := UInt32.toNat_ofNat_of_lt' (by
    show i < 4294967296
    omega)
  have hn32 : (UInt32.ofNat n.u).toNat = n.u := UInt32.toNat_ofNat_of_lt' (by
    show n.u < 4294967296
    omega)
  have hchunk32 : (UInt32.ofNat chunksize).toNat = 262144 := rfl
  unfold idx2apos32
  rw [UInt32.toNat_add, UInt32.toNat_mul, UInt32.toNat_mod, UInt32.toNat_div, hi32, hn32,
    hchunk32, Nat.mod_add_mod, hcell]
  apply Nat.mod_eq_of_lt
  rw [← hcell]
  omega

/-- How many bytes of a run of `k` logical positions from `pos` on lie in the chunk `c`. -/
def chunkShare (n : Nchunks) (pos k c : ℕ) : ℕ :=
  Nat.count (fun i => idx2apos (pos + i) n / chunksize = c) k

/-- The share of a chunk is the share of a column. -/
theorem chunkShare_eq {pos k : ℕ} (hk : pos + k ≤ assemblysize n) (c : ℕ) :
    chunkShare n pos k c = Striping.columnShare n.u pos k c := by
  unfold chunkShare Striping.columnShare
  rw [Nat.count_eq_card_filter_range, Nat.count_eq_card_filter_range]
  congr 1
  apply Finset.filter_congr
  intro i hi
  have hlt : pos + i < assemblysize n := by
    have := Finset.mem_range.mp hi
    omega
  rw [idx2apos_eq_stripe, Striping.stripe_div (lt_columns hlt)]

/-- The layout of assemblies of `n` chunks is a bijection that keeps the tag rows apart and uses
the chunks evenly. -/
structure StripedLayout (n : Nchunks) : Prop where
  bijective : Set.BijOn (fun i => idx2apos i n) (Set.Iio (assemblysize n))
    (Set.Iio (assemblysize n))
  chunk : ∀ i < assemblysize n, idx2apos i n / chunksize = i % n.u
  offset : ∀ i < assemblysize n, idx2apos i n % chunksize = i / n.u
  no_overflow : ∀ i < assemblysize n, i % n.u * chunksize + i / n.u < 4294967296 ∧
    (idx2apos32 (UInt32.ofNat i) (UInt32.ofNat n.u)).toNat = idx2apos i n
  data_iff : ∀ i < assemblysize n,
    i < dataEnd n ↔ idx2apos i n % chunksize < chunksize - tagLen
  tag_apart : ∀ i < dataEnd n, idx2apos i n < assemblysize n - tagLen
  even : ∀ pos k, pos + k ≤ assemblysize n → ∀ c < n.u, ∀ c' < n.u,
    chunkShare n pos k c ≤ chunkShare n pos k c' + 1

/-- **Striping is a bijection that keeps the tag rows apart.** -/
theorem idx2apos_striped (n : Nchunks) : StripedLayout n where
  bijective := by
    rw [assemblysize, Nat.mul_comm]
    exact Striping.stripe_bijOn n.u chunksize
  chunk i hi := Striping.stripe_div (lt_columns hi)
  offset i hi := Striping.stripe_mod (lt_columns hi)
  no_overflow i hi := by
    have hsize := assemblysize_lt n
    have hlt := idx2apos_lt hi
    rw [idx2apos, Nat.mul_comm] at hlt
    exact ⟨by omega, toNat_idx2apos32 hi⟩
  data_iff i hi := by
    rw [idx2apos_eq_stripe, Striping.stripe_mod (lt_columns hi)]
    exact Striping.stripe_row_lt (Striping.columns_pos (lt_columns hi))
  tag_apart i hi := idx2apos_lt_of_lt_dataEnd hi
  even pos k hk c hc c' hc' := by
    rw [chunkShare_eq hk, chunkShare_eq hk]
    exact Striping.columnShare_le hc hc' pos k

/-- The byte of an assembly at a logical position. -/
def logicalAt (n : Nchunks) (bytes : Bytes) (i : ℕ) : Option UInt8 := bytes[idx2apos i n]?

/-- The bytes at the logical positions `[pos, pos + sz)`. -/
def logicalSlice (n : Nchunks) (bytes : Bytes) (pos sz : ℕ) : Bytes :=
  (List.range sz).map fun i => bytes.getD (idx2apos (pos + i) n) 0

/-- A logical slice has the length asked for. -/
@[simp] theorem length_logicalSlice (bytes : Bytes) (pos sz : ℕ) :
    (logicalSlice n bytes pos sz).length = sz := by
  simp [logicalSlice]

/-- A slice is determined by the bytes at its logical positions. -/
theorem logicalSlice_eq {bytes d : Bytes} {pos : ℕ}
    (h : ∀ i < d.length, logicalAt n bytes (pos + i) = d[i]?) :
    logicalSlice n bytes pos d.length = d := by
  apply List.ext_getElem (length_logicalSlice _ _ _)
  intro i h1 h2
  have hi := h i h2
  unfold logicalAt at hi
  rw [List.getElem?_eq_getElem h2] at hi
  simp [logicalSlice, List.getD_eq_getElem?_getD, hi]

/-! ## Writing -/

/-- Access inside the buffer gives the byte there. -/
theorem at'_of_lt {s : EncryptionState} {b : CoqBuffer s} {i : ℕ} (hi : i < b.len) :
    b.at' i = .ok (b.bytes.get ⟨i, hi⟩) := by
  unfold CoqBuffer.at'
  rw [List.getElem?_eq_getElem hi]
  rfl

/-- Setting a byte inside the buffer changes that byte only. -/
theorem setAt_of_lt {s : EncryptionState} {b : CoqBuffer s} {i : ℕ} (hi : i < b.len)
    (v : UInt8) : ∃ b', b.setAt i v = .ok b' ∧ b'.bytes = b.bytes.set i v := by
  unfold CoqBuffer.setAt
  rw [if_pos hi]
  exact ⟨_, rfl, rfl⟩

/-- The write loop copies the rest of the block to its logical positions and changes nothing
else. -/
theorem writeLoop_spec (b : CoqBuffer .plain) {buf : CoqBuffer .plain} (offset aposn k i : ℕ)
    (hlen : buf.len = assemblysize n) (hb : offset + i + k ≤ b.len)
    (hfit : aposn + i + k ≤ assemblysize n) :
    (CoqAssemblyPlainWritable.writeLoop n b offset aposn k i buf).2 = .ok () ∧
    ∀ l < assemblysize n,
      logicalAt n (CoqAssemblyPlainWritable.writeLoop n b offset aposn k i buf).1.bytes l =
        if aposn + i ≤ l ∧ l < aposn + i + k then b.bytes[offset + (l - aposn)]?
        else logicalAt n buf.bytes l := by
  have hsize := assemblysize_lt n
  have hblen : b.len < 2147483648 := b.len_lt
  induction k generalizing i buf with
  | zero =>
    refine ⟨by rw [CoqAssemblyPlainWritable.writeLoop], fun l hl => ?_⟩
    rw [CoqAssemblyPlainWritable.writeLoop, if_neg (by omega)]
  | succ k ih =>
    have hi : offset + i < b.len := by omega
    have hcell : idx2apos (i + aposn) n < buf.len := by
      rw [hlen]
      exact idx2apos_lt (by omega)
    obtain ⟨buf', hset, hbytes⟩ := setAt_of_lt hcell (b.bytes.get ⟨offset + i, hi⟩)
    have hlen' : buf'.len = assemblysize n := (CoqBuffer.len_setAt hset).trans hlen
    have hloop : CoqAssemblyPlainWritable.writeLoop n b offset aposn (k + 1) i buf =
        CoqAssemblyPlainWritable.writeLoop n b offset aposn k (i + 1) buf' := by
      rw [CoqAssemblyPlainWritable.writeLoop, Nat.add_comm i offset, Nat.mod_eq_of_lt (by omega),
        Nat.mod_eq_of_lt (by omega), at'_of_lt hi]
      dsimp only
      rw [hset]
    rw [hloop]
    obtain ⟨hok, hcells⟩ := ih (i + 1) hlen' (by omega) (by omega)
    refine ⟨hok, fun l hl => ?_⟩
    rw [hcells l hl]
    unfold logicalAt
    rw [hbytes]
    by_cases hl0 : l = aposn + i
    · subst hl0
      rw [if_neg (by omega), if_pos (by omega), Nat.add_comm aposn i,
        List.getElem?_set_self hcell, Nat.add_sub_cancel, List.getElem?_eq_getElem hi]
      rfl
    · have hne : idx2apos (i + aposn) n ≠ idx2apos l n := by
        intro heq
        exact hl0 (by have := idx2apos_inj (by omega) hl heq; omega)
      rw [List.getElem?_set_ne hne]
      by_cases hin : aposn + i ≤ l ∧ l < aposn + i + (k + 1)
      · rw [if_pos hin, if_pos (by omega)]
      · rw [if_neg hin, if_neg (by omega)]

/-- A writable assembly whose next position lies in the data area. -/
structure Fits (a : CoqAssemblyPlainWritable cfg) : Prop where
  header_le : headerLen cfg.nchunks ≤ a.apos
  le_dataEnd : a.apos ≤ dataEnd cfg.nchunks

/-- A new assembly fits. -/
theorem fits_create (C : Crypto) (cfg : CoqConfiguration) (d : AssemblyDraw) :
    Fits (CoqAssemblyPlainWritable.create C cfg d) := by
  have h1 := headerLen_le cfg.nchunks
  have h2 := lt_dataEnd cfg.nchunks
  exact ⟨Nat.le_refl _, show headerLen cfg.nchunks ≤ _ by omega⟩

/-- The free space is the rest of the data area. -/
theorem afree_eq (a : CoqAssemblyPlainWritable cfg) :
    a.afree = (dataEnd cfg.nchunks - a.apos : ℕ) := by
  have h1 := dataEnd_add_tag cfg.nchunks
  unfold CoqAssemblyPlainWritable.afree
  unfold CoqAssemblyPlainWritable.apos at *
  rw [a.nchunks_eq]
  omega

/-- `writable a` with the block `d` behind its last one is `a'`. -/
structure Appended (a a' : CoqAssemblyPlainWritable cfg) (d : Bytes) : Prop where
  aid_eq : a'.aid = a.aid
  apos_eq : a'.apos = a.apos + d.length
  cells : ∀ l < assemblysize cfg.nchunks, logicalAt cfg.nchunks a'.buffer.bytes l =
    if a.apos ≤ l ∧ l < a.apos + d.length then d[l - a.apos]?
    else logicalAt cfg.nchunks a.buffer.bytes l

/-- The record of a block. -/
def blockRecord (C : Crypto) (aid : Bytes) (apos fpos : ℕ) (d : Bytes) : BlockInformation :=
  ⟨1, C.sha3 d, d.length, fpos, aid, apos⟩

/-- The checksum of a range that lies in the buffer. -/
theorem calcChecksumRange_eq (C : Crypto) {s : EncryptionState} {b : CoqBuffer s}
    (hb : b.bytes ≠ []) {offset dlen : ℕ} (h : offset + dlen ≤ b.len) :
    b.calcChecksumRange C (i32 offset) (i32 dlen) =
      .ok (some (C.sha3 (Overlay.slice b.bytes offset dlen))) := by
  have hlen : b.len < 2147483648 := b.len_lt
  have h1 : u32 ((dlen : ℤ) + (offset : ℤ)) = dlen + offset := by
    rw [← Nat.cast_add]
    exact u32_natCast (by omega)
  unfold CoqBuffer.calcChecksumRange
  rw [i32_of_lt (by omega), i32_of_lt (by omega), h1, if_pos ⟨hb, by omega⟩]
  unfold CoqBuffer.range?
  rw [if_pos ⟨by omega, by omega, by omega⟩]
  rfl

/-- Data placed at the start is its own slice. -/
theorem slice_self (d : Bytes) : Overlay.slice d 0 d.length = d := by
  rw [Overlay.slice, List.drop_zero, List.take_length]

/-- The checksum over a whole buffer is the hash of its bytes. -/
theorem calcChecksum_eq (C : Crypto) {s : EncryptionState} {b : CoqBuffer s} (hb : b.bytes ≠ []) :
    b.calcChecksumRange C 0 (i32 b.len) = .ok (some (C.sha3 b.bytes)) := by
  have h := calcChecksumRange_eq C hb (show 0 + b.len ≤ b.len by omega)
  rwa [CoqBuffer.len, slice_self] at h

/-- **A part of a buffer for which the assembly has bytes left is written** behind the last block,
and its record is returned. -/
theorem backup_range (C : Crypto) {a : CoqAssemblyPlainWritable cfg} {b : CoqBuffer .plain}
    (hb : b.bytes ≠ []) {offset dlen : ℕ} (hrange : offset + dlen ≤ b.len)
    (hroom : a.apos + dlen ≤ assemblysize cfg.nchunks) :
    ∃ a', a.backup C b offset dlen =
        (a', .ok (blockRecord C a.aid a.apos 0 (Overlay.slice b.bytes offset dlen))) ∧
      Appended a a' (Overlay.slice b.bytes offset dlen) := by
  have hsize := assemblysize_lt cfg.nchunks
  have hblen : b.len < 2147483648 := b.len_lt
  have hapos : a.info.apos = a.apos := rfl
  have hlen : (Overlay.slice b.bytes offset dlen).length = dlen := Overlay.length_slice hrange
  have h1 : (dlen + offset) % 4294967296 = dlen + offset := Nat.mod_eq_of_lt (by omega)
  have h2 : (a.info.apos + dlen) % 4294967296 = a.info.apos + dlen :=
    Nat.mod_eq_of_lt (by omega)
  obtain ⟨hok, hcells⟩ := writeLoop_spec (n := cfg.nchunks) b offset a.info.apos dlen 0 a.len_eq
    (by omega) (by omega)
  unfold CoqAssemblyPlainWritable.backup
  dsimp only
  rw [h1, if_neg (by omega), h2, if_neg (by omega), calcChecksumRange_eq C hb hrange]
  dsimp only
  rw [hok, blockRecord, hlen]
  refine ⟨_, rfl, rfl, congrArg (a.info.apos + ·) hlen.symm, fun l hl => ?_⟩
  rw [hlen]
  apply (hcells l hl).trans
  rw [hapos, Nat.add_zero]
  by_cases hin : a.apos ≤ l ∧ l < a.apos + dlen
  · rw [if_pos hin, if_pos hin, Overlay.getElem?_slice, if_pos (by omega)]
  · rw [if_neg hin, if_neg hin]

/-- **A block that fits is written** behind the last one, and its record is returned. -/
theorem backup_eq (C : Crypto) {a : CoqAssemblyPlainWritable cfg} {b : CoqBuffer .plain}
    (hb : b.bytes ≠ [])
    (hroom : a.apos + b.len ≤ dataEnd cfg.nchunks) :
    ∃ a', a.backup C b 0 b.len = (a', .ok (blockRecord C a.aid a.apos 0 b.bytes)) ∧
      Appended a a' b.bytes := by
  have hend := dataEnd_le cfg.nchunks
  have h := backup_range C hb (show 0 + b.len ≤ b.len by omega) (Nat.le_trans hroom hend)
  rwa [CoqBuffer.len, slice_self] at h

/-- An empty block gets the blank record and leaves the assembly alone. -/
theorem backup_empty (C : Crypto) {a : CoqAssemblyPlainWritable cfg} (hfit : Fits a)
    {b : CoqBuffer .plain} (hb : b.bytes = []) :
    a.backup C b 0 b.len = (a, .ok (BlockInformation.blank C)) := by
  have hlen : b.len = 0 := by rw [CoqBuffer.len, hb]; rfl
  have hsize := assemblysize_lt cfg.nchunks
  have hend := dataEnd_le cfg.nchunks
  have h1 := hfit.le_dataEnd
  have hapos : a.info.apos = a.apos := rfl
  unfold CoqAssemblyPlainWritable.backup
  dsimp only
  rw [hlen, if_neg (by omega), if_neg (by omega)]
  unfold CoqBuffer.calcChecksumRange
  simp [hb]

/-- An assembly still fits after a block for which there was room. -/
theorem Fits.appended {a a' : CoqAssemblyPlainWritable cfg} {d : Bytes} (h : Fits a)
    (happ : Appended a a' d) (hroom : a.apos + d.length ≤ dataEnd cfg.nchunks) : Fits a' := by
  have h1 := h.header_le
  constructor
  · rw [happ.apos_eq]
    omega
  · rwa [happ.apos_eq]

/-! ## Reading -/

/-- A block lies in an assembly at a logical position. -/
structure Holds (n : Nchunks) (bytes : Bytes) (pos : ℕ) (d : Bytes) : Prop where
  header_le : headerLen n ≤ pos
  le_dataEnd : pos + d.length ≤ dataEnd n
  cells : ∀ i < d.length, logicalAt n bytes (pos + i) = d[i]?

/-- The block just written is there. -/
theorem holds_appended {a a' : CoqAssemblyPlainWritable cfg} {d : Bytes} (h : Fits a)
    (happ : Appended a a' d) (hroom : a.apos + d.length ≤ dataEnd cfg.nchunks) :
    Holds cfg.nchunks a'.buffer.bytes a.apos d := by
  have hend := dataEnd_le cfg.nchunks
  refine ⟨h.header_le, hroom, fun i hi => ?_⟩
  rw [happ.cells _ (by omega), if_pos (by omega), Nat.add_sub_cancel_left]

/-- A block in front of the next position is still there after one more block. -/
theorem Holds.appended {a a' : CoqAssemblyPlainWritable cfg} {d d' : Bytes} {pos : ℕ}
    (h : Holds cfg.nchunks a.buffer.bytes pos d') (hpos : pos + d'.length ≤ a.apos)
    (happ : Appended a a' d) : Holds cfg.nchunks a'.buffer.bytes pos d' := by
  have hend := dataEnd_le cfg.nchunks
  have h2 := h.le_dataEnd
  refine ⟨h.header_le, h.le_dataEnd, fun i hi => ?_⟩
  rw [happ.cells _ (by omega), if_neg (by omega)]
  exact h.cells i hi

/-- A block only depends on the bytes in front of the tag. -/
theorem Holds.congr {bytes bytes' d : Bytes} {pos : ℕ} (h : Holds n bytes pos d)
    (heq : ∀ p < assemblysize n - tagLen, bytes'[p]? = bytes[p]?) : Holds n bytes' pos d := by
  have h2 := h.le_dataEnd
  refine ⟨h.header_le, h.le_dataEnd, fun i hi => ?_⟩
  rw [← h.cells i hi]
  exact heq _ (idx2apos_lt_of_lt_dataEnd (by omega))

/-- The restore loop copies the rest of the block from its logical positions. -/
theorem restoreLoop_spec (a : CoqAssemblyPlainFull cfg) (pos k idx : ℕ) (b : CoqBuffer .plain)
    (hb : idx + k ≤ b.len) (hfit : pos + idx + k ≤ assemblysize cfg.nchunks) :
    ∃ b', a.restoreLoop pos k idx b = .ok b' ∧ b'.len = b.len ∧
      ∀ j < b.len, b'.bytes[j]? =
        if idx ≤ j ∧ j < idx + k then logicalAt cfg.nchunks a.buffer.bytes (pos + j)
        else b.bytes[j]? := by
  have hsize := assemblysize_lt cfg.nchunks
  induction k generalizing idx b with
  | zero =>
    refine ⟨b, by rw [CoqAssemblyPlainFull.restoreLoop], rfl, fun j _ => ?_⟩
    rw [if_neg (by omega)]
  | succ k ih =>
    have hcell : idx2apos (pos + idx) cfg.nchunks < a.buffer.len := by
      rw [a.len_eq]
      exact idx2apos_lt (by omega)
    obtain ⟨b₁, hset, hbytes⟩ := setAt_of_lt (show idx < b.len by omega)
      (a.buffer.bytes.get ⟨idx2apos (pos + idx) cfg.nchunks, hcell⟩)
    have hlen₁ : b₁.len = b.len := CoqBuffer.len_setAt hset
    obtain ⟨b', hloop, hlen', hcells⟩ := ih (idx + 1) b₁ (by omega) (by omega)
    refine ⟨b', ?_, hlen'.trans hlen₁, fun j hj => ?_⟩
    · rw [CoqAssemblyPlainFull.restoreLoop, Nat.mod_eq_of_lt (by omega), Nat.add_comm idx pos,
        at'_of_lt hcell]
      dsimp only
      rw [hset]
      exact hloop
    · rw [hcells j (by omega), hbytes]
      by_cases hj0 : j = idx
      · subst hj0
        rw [if_neg (by omega), if_pos (by omega), List.getElem?_set_self (show j < _ from hj),
          logicalAt, List.getElem?_eq_getElem hcell]
        rfl
      · rw [List.getElem?_set_ne (Ne.symm hj0)]
        by_cases hin : idx ≤ j ∧ j < idx + (k + 1)
        · rw [if_pos hin, if_pos (by omega)]
        · rw [if_neg hin, if_neg (by omega)]

/-- Whether `restore` gives a block back. -/
def Restorable (C : Crypto) (n : Nchunks) (bytes : Bytes) (bi : BlockInformation) : Prop :=
  1 ≤ bi.blocksize ∧ bi.blockapos + bi.blocksize ≤ assemblysize n ∧
    C.toHex256 (C.sha3 (logicalSlice n bytes bi.blockapos bi.blocksize)) =
      C.toHex256 bi.bchecksum

instance (C : Crypto) (n : Nchunks) (bytes : Bytes) (bi : BlockInformation) :
    Decidable (Restorable C n bytes bi) :=
  inferInstanceAs (Decidable (_ ∧ _ ∧ _))

/-- **`restore` of any record**: it never faults, and returns the bytes at the logical positions
of the block if these exist and have the checksum. -/
theorem restore_eq (C : Crypto) (a : CoqAssemblyPlainFull cfg) (bi : BlockInformation) :
    a.restore C bi = .ok
      (if Restorable C cfg.nchunks a.buffer.bytes bi then
        some (CoqBuffer.ofBytes
          (logicalSlice cfg.nchunks a.buffer.bytes bi.blockapos bi.blocksize))
      else none) := by
  have hsize := assemblysize_lt cfg.nchunks
  unfold CoqAssemblyPlainFull.restore
  by_cases hrange :
      bi.blocksize = 0 ∨ assemblysize cfg.nchunks < bi.blockapos + bi.blocksize
  · rw [if_pos hrange, if_neg (by unfold Restorable; omega)]
  · have hlen : (CoqBuffer.create bi.blocksize : CoqBuffer .plain).len = bi.blocksize :=
      CoqBuffer.len_create (by omega)
    obtain ⟨b, hloop, hblen, hcells⟩ := restoreLoop_spec a bi.blockapos bi.blocksize 0
      (CoqBuffer.create bi.blocksize) (by omega) (by omega)
    rw [hlen] at hblen hcells
    have hbytes : logicalSlice cfg.nchunks a.buffer.bytes bi.blockapos bi.blocksize = b.bytes := by
      have hbb : b.bytes.length = bi.blocksize := hblen
      rw [← hbb]
      apply logicalSlice_eq
      intro i hi
      rw [hcells i (by omega), if_pos (by omega)]
    have hne : b.bytes ≠ [] := by
      have hbb : b.bytes.length = bi.blocksize := hblen
      intro hnil
      rw [hnil, List.length_nil] at hbb
      omega
    have hof : CoqBuffer.ofBytes b.bytes = b := by
      apply CoqBuffer.ext
      exact CoqBuffer.bytes_ofBytes b.len_lt
    rw [if_neg hrange, hloop]
    dsimp only
    rw [CoqBuffer.calcChecksum, calcChecksum_eq C hne]
    dsimp only
    have hiff : Restorable C cfg.nchunks a.buffer.bytes bi ↔
        C.toHex256 (C.sha3 b.bytes) = C.toHex256 bi.bchecksum := by
      unfold Restorable
      rw [hbytes]
      exact ⟨fun h => h.2.2, fun h => ⟨by omega, by omega, h⟩⟩
    rw [hbytes, hof]
    congr 1
    by_cases hsum : C.toHex256 (C.sha3 b.bytes) = C.toHex256 bi.bchecksum
    · rw [if_pos hsum, if_pos (hiff.mpr hsum)]
    · rw [if_neg hsum, if_neg (fun h => hsum (hiff.mp h))]

/-- **A block that is there is restored.** -/
theorem restore_of_holds (C : Crypto) {a : CoqAssemblyPlainFull cfg} {bi : BlockInformation}
    {d : Bytes} (hd : d ≠ []) (hsz : bi.blocksize = d.length) (hsum : bi.bchecksum = C.sha3 d)
    (h : Holds cfg.nchunks a.buffer.bytes bi.blockapos d) :
    a.restore C bi = .ok (some (CoqBuffer.ofBytes d)) := by
  have hend := dataEnd_le cfg.nchunks
  have h2 := h.le_dataEnd
  have hpos := List.length_pos_of_ne_nil hd
  have hslice := logicalSlice_eq h.cells
  rw [restore_eq, if_pos, hsz, hslice]
  refine ⟨by omega, by omega, ?_⟩
  rw [hsz, hslice, hsum]

end Elykseer.Analysis
