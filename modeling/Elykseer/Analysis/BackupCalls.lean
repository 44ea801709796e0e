import Elykseer.Analysis.Finalise

/-!
# Blocks of an assembly

`restore` of any record, `backup` of any part of a buffer with 32-bit arguments, and what
sequences of calls leave in the assembly.  A call is refused, writes its part of the buffer
behind the last block, or reads outside of the buffer because the sum of its arguments wraps
around (`backup_outcome`); so a run of calls appends what it accepts (`BackupRun.appended`).
The second check lets a block reach the rows of the tag, and the header at the first
physical positions is not what the first logical positions reserve:
`backup_meets_iff`, `header_preserved_iff`.
-/

set_option autoImplicit false

namespace Elykseer.Analysis

open Elykseer.Model Elykseer.Foundation

variable {C : Crypto} {cfg : CoqConfiguration}

/-! ## New assemblies -/

/-- The random byte drawn for position `i` of the header. -/
def headerByte (d : AssemblyDraw) (i : ℕ) : UInt8 := (d.header (i / 32)).toList.getD (i % 32) 0

/-- The bytes of a new assembly: random ones at the physical positions of the header, and zeros. -/
theorem getElem?_headerBuffer (d : AssemblyDraw) (n : Nchunks) (i : ℕ) :
    (CoqAssemblyPlainWritable.headerBuffer d n)[i]? =
      if i < headerLen n then some (headerByte d i)
      else if i < assemblysize n then some 0 else none := by
  have hfold : ∀ k ≤ assemblysize n,
      ((List.range k).foldl (fun bs j => bs.set j (headerByte d j))
        (List.replicate (assemblysize n) (0 : UInt8)))[i]? =
        if i < k then some (headerByte d i)
        else if i < assemblysize n then some 0 else none := by
    intro k hk
    induction k with
    | zero => simp [List.getElem?_replicate]
    | succ k ih =>
      have hlen : ∀ (l : List ℕ) (bs : Bytes),
          (l.foldl (fun bs j => bs.set j (headerByte d j)) bs).length = bs.length := by
        intro l
        induction l with
        | nil => exact fun bs => rfl
        | cons j l ih =>
          intro bs
          rw [List.foldl_cons, ih, List.length_set]
      rw [List.range_succ, List.foldl_append, List.foldl_cons, List.foldl_nil]
      by_cases hik : k = i
      · subst hik
        rw [List.getElem?_set_self (by rw [hlen, List.length_replicate]; omega),
          if_pos (by omega)]
      · rw [List.getElem?_set_ne hik, ih (by omega)]
        by_cases hlt : i < k
        · rw [if_pos hlt, if_pos (show i < k + 1 by omega)]
        · rw [if_neg hlt, if_neg (show ¬ i < k + 1 by omega)]
  have h1 := headerLen_le n
  have h2 := lt_dataEnd n
  have h3 := dataEnd_le n
  exact hfold (headerLen n) (by omega)

/-! ## Restoring any record -/

/-- The cells of a slice of logical positions that exist. -/
theorem getElem?_logicalSlice {n : Nchunks} {bytes : Bytes} {pos sz i : ℕ} (hi : i < sz)
    (hcell : idx2apos (pos + i) n < bytes.length) :
    (logicalSlice n bytes pos sz)[i]? = bytes[idx2apos (pos + i) n]? := by
  simp [logicalSlice, hi, List.getD_eq_getElem?_getD, List.getElem?_eq_getElem hcell]

/-- **Restoring a block is sound for any record**: no exception, a buffer exactly if the positions
exist and have the checksum, and then the bytes at these positions. -/
theorem restore_sound (hC : C.HexLawful) (a : CoqAssemblyPlainFull cfg) (bi : BlockInformation) :
    ∃ r, a.restore C bi = .ok r ∧
      (r.isSome = true ↔ 1 ≤ bi.blocksize ∧
        bi.blockapos + bi.blocksize ≤ cfg.nchunks.u * chunksize ∧
        C.sha3 (logicalSlice cfg.nchunks a.buffer.bytes bi.blockapos bi.blocksize) =
          bi.bchecksum) ∧
      ∀ b ∈ r, b.len = bi.blocksize ∧ ∀ i < bi.blocksize, ∃ v,
        b.bytes[i]? = some v ∧
        a.buffer.bytes[idx2apos (bi.blockapos + i) cfg.nchunks]? = some v := by
  have hsize := assemblysize_lt cfg.nchunks
  have hcomm : cfg.nchunks.u * chunksize = assemblysize cfg.nchunks := Nat.mul_comm _ _
  have hiff : Restorable C cfg.nchunks a.buffer.bytes bi ↔ 1 ≤ bi.blocksize ∧
      bi.blockapos + bi.blocksize ≤ cfg.nchunks.u * chunksize ∧
      C.sha3 (logicalSlice cfg.nchunks a.buffer.bytes bi.blockapos bi.blocksize) =
        bi.bchecksum := by
    unfold Restorable
    rw [hcomm, hC.toHex256_injective.eq_iff]
  refine ⟨_, restore_eq C a bi, ?_, ?_⟩
  · rw [← hiff]
    by_cases h : Restorable C cfg.nchunks a.buffer.bytes bi
    · simp [h]
    · simp [h]
  · intro b hb
    by_cases h : Restorable C cfg.nchunks a.buffer.bytes bi
    · rw [if_pos h] at hb
      obtain ⟨hpos, hfit, -⟩ := h
      obtain rfl := Option.some.inj hb
      have hlen : (logicalSlice cfg.nchunks a.buffer.bytes bi.blockapos bi.blocksize).length <
          2147483648 := by
        rw [length_logicalSlice]
        omega
      constructor
      · rw [CoqBuffer.len, CoqBuffer.bytes_ofBytes hlen, length_logicalSlice]
      · intro i hi
        have hcell : idx2apos (bi.blockapos + i) cfg.nchunks < a.buffer.bytes.length := by
          have hlt := idx2apos_lt (n := cfg.nchunks) (i := bi.blockapos + i) (by omega)
          exact hlt.trans_eq a.len_eq.symm
        rw [CoqBuffer.bytes_ofBytes hlen, getElem?_logicalSlice hi hcell,
          List.getElem?_eq_getElem hcell]
        exact ⟨_, rfl, rfl⟩
    · rw [if_neg h] at hb
      cases hb

/-- A zero byte of a new assembly. -/
theorem restore_sound_simple :
    let a := (CoqAssemblyPlainWritable.create simple config16 (numberedDraw 0)).finish
    ∃ b, a.restore simple ⟨1, simple.sha3 [0], 1, 0, [], 5⟩ = .ok (some b) ∧ b.len = 1 := by
  intro a
  obtain ⟨r, hr, hiff, hbytes⟩ := restore_sound simple_lawful.hex a
    ⟨1, simple.sha3 [0], 1, 0, [], 5⟩
  have hcell : a.buffer.bytes[idx2apos 5 config16.nchunks]? = some 0 :=
    getElem?_headerBuffer (numberedDraw 0) config16.nchunks _
  have hslice : logicalSlice config16.nchunks a.buffer.bytes 5 1 = [0] := by
    apply logicalSlice_eq (d := [0])
    intro i hi
    obtain rfl : i = 0 := Nat.lt_one_iff.mp hi
    exact hcell
  obtain ⟨b, rfl⟩ := Option.isSome_iff_exists.mp
    (hiff.mpr ⟨Nat.le_refl 1, by decide, by rw [hslice]⟩)
  exact ⟨b, hr, (hbytes b rfl).1⟩

/-! ## Calls of `backup` -/

/-- The arguments pass the first check only because their sum wraps around. -/
def SumWraps (a : CoqAssemblyPlainWritable cfg) (b : CoqBuffer .plain) (offset dlen : ℕ) : Prop :=
  b.bytes ≠ [] ∧ 4294967296 ≤ offset + dlen ∧ (dlen + offset) % 4294967296 ≤ b.len ∧
    (a.apos + dlen) % 4294967296 ≤ assemblysize cfg.nchunks

/-- The block ends in the rows of the tag. -/
def ReachesTagRows (a : CoqAssemblyPlainWritable cfg) (b : CoqBuffer .plain) (offset dlen : ℕ) :
    Prop :=
  offset + dlen ≤ b.len ∧ dataEnd cfg.nchunks < a.apos + dlen ∧
    a.apos + dlen ≤ assemblysize cfg.nchunks

/-- What a call of `backup` does. -/
inductive BackupOutcome (C : Crypto) (a : CoqAssemblyPlainWritable cfg) (b : CoqBuffer .plain)
    (offset dlen : ℕ) : CoqAssemblyPlainWritable cfg × Except Fault BlockInformation → Prop
  | refused (h : b.len < (dlen + offset) % 4294967296 ∨
        assemblysize cfg.nchunks < (a.apos + dlen) % 4294967296 ∨ b.bytes = []) :
      BackupOutcome C a b offset dlen (a, .ok (BlockInformation.blank C))
  | written (a' : CoqAssemblyPlainWritable cfg) (hrange : offset + dlen ≤ b.len)
      (hroom : a.apos + dlen ≤ assemblysize cfg.nchunks)
      (happ : Appended a a' (Overlay.slice b.bytes offset dlen)) :
      BackupOutcome C a b offset dlen
        (a', .ok (blockRecord C a.aid a.apos 0 (Overlay.slice b.bytes offset dlen)))
  | outside (h : SumWraps a b offset dlen) :
      BackupOutcome C a b offset dlen (a, .error .outOfBounds)

/-- The sum of two `uint32_t` is the same after their conversion to `int`. -/
theorem u32_i32_add (x y : ℕ) : u32 (i32 x + i32 y) = (x + y) % 4294967296 := by
  unfold u32 i32
  split <;> split <;> omega

/-- The range of arguments whose sum wraps around lies outside of the buffer. -/
theorem calcChecksumRange_of_wraps {b : CoqBuffer .plain} (hb : b.bytes ≠ []) {offset dlen : ℕ}
    (hoffset : offset < 4294967296) (hdlen : dlen < 4294967296)
    (hwrap : 4294967296 ≤ offset + dlen) (hlen : (dlen + offset) % 4294967296 ≤ b.len) :
    b.calcChecksumRange C (i32 offset) (i32 dlen) = .error .outOfBounds := by
  have hrange : ¬ (0 ≤ i32 offset ∧ 0 ≤ i32 dlen ∧ i32 offset + i32 dlen ≤ b.len) := by
    rintro ⟨h1, h2, -⟩
    unfold i32 at h1 h2
    split at h1 <;> split at h2 <;> omega
  unfold CoqBuffer.calcChecksumRange
  rw [u32_i32_add, if_pos ⟨hb, hlen⟩, CoqBuffer.range?, if_neg hrange]

/-- A call is refused, or written, or reads outside of the buffer. -/
theorem backup_outcome (C : Crypto) {a : CoqAssemblyPlainWritable cfg}
    (ha : a.apos ≤ assemblysize cfg.nchunks) (b : CoqBuffer .plain) {offset dlen : ℕ}
    (hoffset : offset < 4294967296) (hdlen : dlen < 4294967296) :
    BackupOutcome C a b offset dlen (a.backup C b offset dlen) := by
  have hsize := assemblysize_lt cfg.nchunks
  have hblen : b.len < 2147483648 := b.len_lt
  have hapos : a.info.apos = a.apos := rfl
  by_cases hguard : b.len < (dlen + offset) % 4294967296 ∨
      assemblysize cfg.nchunks < (a.info.apos + dlen) % 4294967296 ∨ b.bytes = []
  · have hrefused : a.backup C b offset dlen = (a, .ok (BlockInformation.blank C)) := by
      unfold CoqAssemblyPlainWritable.backup
      dsimp only
      by_cases h1 : b.len < (dlen + offset) % 4294967296
      · rw [if_pos h1]
      · rw [if_neg h1]
        by_cases h2 : assemblysize cfg.nchunks < (a.info.apos + dlen) % 4294967296
        · rw [if_pos h2]
        · rw [if_neg h2, CoqBuffer.calcChecksumRange, if_neg]
          rintro ⟨hne, -⟩
          exact (hguard.resolve_left h1).elim h2 hne
    rw [hrefused]
    exact .refused hguard
  · have hlen : (dlen + offset) % 4294967296 ≤ b.len := by omega
    have hroom : (a.info.apos + dlen) % 4294967296 ≤ assemblysize cfg.nchunks := by omega
    have hne : b.bytes ≠ [] := fun h => hguard (.inr (.inr h))
    by_cases hwrap : 4294967296 ≤ offset + dlen
    · have hfault : a.backup C b offset dlen = (a, .error .outOfBounds) := by
        unfold CoqAssemblyPlainWritable.backup
        dsimp only
        rw [if_neg (by omega), if_neg (by omega),
          calcChecksumRange_of_wraps hne hoffset hdlen hwrap hlen]
      rw [hfault]
      exact .outside ⟨hne, hwrap, hlen, hroom⟩
    · have hrange : offset + dlen ≤ b.len := by omega
      have hroom' : a.apos + dlen ≤ assemblysize cfg.nchunks := by omega
      obtain ⟨a', hback, happ⟩ := backup_range C hne hrange hroom'
      rw [hback]
      exact .written a' hrange hroom' happ

/-- Calls of `backup` with any arguments, none of which reads outside of the buffer, and the bytes
they accept. -/
inductive BackupRun (C : Crypto) (a : CoqAssemblyPlainWritable cfg) :
    Bytes → CoqAssemblyPlainWritable cfg → Prop
  | nil : BackupRun C a [] a
  | call {data : Bytes} {a' : CoqAssemblyPlainWritable cfg} {bi : BlockInformation}
      (run : BackupRun C a data a') (b : CoqBuffer .plain) {offset dlen : ℕ}
      (hoffset : offset < 4294967296) (hdlen : dlen < 4294967296)
      (hok : (a'.backup C b offset dlen).2 = .ok bi) :
      BackupRun C a (data ++ Overlay.slice b.bytes offset bi.blocksize)
        (a'.backup C b offset dlen).1

/-- Nothing is appended. -/
theorem Appended.refl (a : CoqAssemblyPlainWritable cfg) : Appended a a [] where
  aid_eq := rfl
  apos_eq := rfl
  cells l _ := by rw [if_neg (by rw [List.length_nil]; omega)]

/-- Two blocks behind each other are one. -/
theorem Appended.trans {a a' a'' : CoqAssemblyPlainWritable cfg} {d d' : Bytes}
    (h : Appended a a' d) (h' : Appended a' a'' d') : Appended a a'' (d ++ d') where
  aid_eq := h'.aid_eq.trans h.aid_eq
  apos_eq := by rw [h'.apos_eq, h.apos_eq, List.length_append, Nat.add_assoc]
  cells l hl := by
    rw [h'.cells l hl, h.cells l hl, h.apos_eq, List.length_append]
    by_cases hsecond : a.apos + d.length ≤ l ∧ l < a.apos + d.length + d'.length
    · rw [if_pos hsecond, if_pos (by omega), List.getElem?_append_right (by omega)]
      congr 1
      omega
    · rw [if_neg hsecond]
      by_cases hfirst : a.apos ≤ l ∧ l < a.apos + d.length
      · rw [if_pos hfirst, if_pos (by omega), List.getElem?_append_left (by omega)]
      · rw [if_neg hfirst, if_neg (by omega)]

/-- What one call accepts is appended. -/
theorem backup_appended {a : CoqAssemblyPlainWritable cfg}
    (ha : a.apos ≤ assemblysize cfg.nchunks) (b : CoqBuffer .plain) {offset dlen : ℕ}
    (hoffset : offset < 4294967296) (hdlen : dlen < 4294967296) {bi : BlockInformation}
    (hok : (a.backup C b offset dlen).2 = .ok bi) :
    Appended a (a.backup C b offset dlen).1 (Overlay.slice b.bytes offset bi.blocksize) ∧
      (a.backup C b offset dlen).1.apos ≤ assemblysize cfg.nchunks := by
  have hout := backup_outcome C ha b hoffset hdlen
  generalize a.backup C b offset dlen = r at hout hok
  cases hout with
  | refused h =>
    cases hok
    exact ⟨Appended.refl a, ha⟩
  | written a' hrange hroom happ =>
    cases hok
    have hlen : (Overlay.slice b.bytes offset dlen).length = dlen := Overlay.length_slice hrange
    refine ⟨?_, ?_⟩
    · rw [blockRecord, hlen]
      exact happ
    · rw [happ.apos_eq, hlen]
      exact hroom
  | outside h => cases hok

/-- **A run of calls appends what it accepts.** -/
theorem BackupRun.appended {a a' : CoqAssemblyPlainWritable cfg} {data : Bytes}
    (hrun : BackupRun C a data a') (ha : a.apos ≤ assemblysize cfg.nchunks) :
    Appended a a' data ∧ a'.apos ≤ assemblysize cfg.nchunks := by
  induction hrun with
  | nil => exact ⟨Appended.refl a, ha⟩
  | call run b hoffset hdlen hok ih =>
    obtain ⟨happ, hroom⟩ := backup_appended ih.2 b hoffset hdlen hok
    exact ⟨ih.1.trans happ, hroom⟩

/-- A new assembly has its next position inside. -/
theorem apos_create_le (C : Crypto) (cfg : CoqConfiguration) (d : AssemblyDraw) :
    (CoqAssemblyPlainWritable.create C cfg d).apos ≤ assemblysize cfg.nchunks :=
  Nat.le_trans (fits_create C cfg d).le_dataEnd (dataEnd_le cfg.nchunks)

/-! ## What is accepted survives -/

/-- An assembly is decrypted as it was before its encryption, up to the bytes of the tag. -/
theorem encrypt_decrypt (hC : C.GcmLawful) (a : CoqAssemblyPlainFull cfg) (ki : KeyInformation) :
    ∃ enc a', a.encrypt C ki = some enc ∧ enc.decrypt C ki = some a' ∧
      ∀ p < assemblysize cfg.nchunks - tagLen, a'.buffer.bytes[p]? = a.buffer.bytes[p]? := by
  obtain ⟨enc, henc⟩ := encrypt_isSome hC a ki
  obtain ⟨p, hdec, hp⟩ := decryptBuffer_of_encrypt hC henc
  refine ⟨enc, ?_⟩
  unfold CoqAssemblyEncrypted.decrypt
  dsimp only
  rw [if_pos (by rw [hdec])]
  refine ⟨_, henc, rfl, fun q hq => ?_⟩
  have hbytes : (CoqBuffer.decryptBuffer C ki.ivec ki.pkey enc.info.aid enc.buffer.bytes).2 = p := by
    rw [hdec]
  rw [← hp q hq, ← hbytes]

/-- The block of the record is read back from the assembly after `finish`, `encrypt` and
`decrypt`. -/
def Survives (C : Crypto) (a : CoqAssemblyPlainWritable cfg) (bi : BlockInformation) (d : Bytes) :
    Prop :=
  ∀ ki, ∃ enc full b, a.finish.encrypt C ki = some enc ∧ enc.decrypt C ki = some full ∧
    full.restore C bi = .ok (some b) ∧ b.bytes = d

/-- A block in the data area survives. -/
theorem survives_of_holds (hC : C.GcmLawful) {a : CoqAssemblyPlainWritable cfg}
    {bi : BlockInformation} {d : Bytes} (hd : d ≠ []) (hsz : bi.blocksize = d.length)
    (hsum : bi.bchecksum = C.sha3 d)
    (h : Holds cfg.nchunks a.buffer.bytes bi.blockapos d) : Survives C a bi d := by
  intro ki
  have hsize := assemblysize_lt cfg.nchunks
  have hend := dataEnd_le cfg.nchunks
  have hfit := h.le_dataEnd
  obtain ⟨enc, full, henc, hdec, hcells⟩ := encrypt_decrypt hC a.finish ki
  have hrestore := restore_of_holds C hd hsz hsum (h.congr hcells)
  exact ⟨enc, full, _, henc, hdec, hrestore, CoqBuffer.bytes_ofBytes (by omega)⟩

/-- What is expected of a call of `backup` with `dlen ≥ 1`: it returns a block exactly if the part of
the buffer exists and the assembly has room for it in front of the tag, a block it returns
survives, and otherwise nothing changes. -/
structure BackupMeets (C : Crypto) (a : CoqAssemblyPlainWritable cfg) (b : CoqBuffer .plain)
    (offset dlen : ℕ) : Prop where
  returns : ∃ bi, (a.backup C b offset dlen).2 = .ok bi
  accepts_iff : (∃ bi, (a.backup C b offset dlen).2 = .ok bi ∧ 1 ≤ bi.blocksize) ↔
    offset + dlen ≤ b.len ∧ a.apos + dlen ≤ dataEnd cfg.nchunks
  survives : ∀ bi, (a.backup C b offset dlen).2 = .ok bi → 1 ≤ bi.blocksize →
    ∀ data a', BackupRun C (a.backup C b offset dlen).1 data a' →
      Survives C a' bi (Overlay.slice b.bytes offset dlen)
  frame : (∀ bi, (a.backup C b offset dlen).2 = .ok bi → bi.blocksize = 0) →
    (a.backup C b offset dlen).1 = a

/-- A refused call does what is expected, if the block has no room. -/
theorem backupMeets_of_refused {a : CoqAssemblyPlainWritable cfg} {b : CoqBuffer .plain}
    {offset dlen : ℕ} (hback : a.backup C b offset dlen = (a, .ok (BlockInformation.blank C)))
    (hroom : ¬ (offset + dlen ≤ b.len ∧ a.apos + dlen ≤ dataEnd cfg.nchunks)) :
    BackupMeets C a b offset dlen := by
  have hzero : (BlockInformation.blank C).blocksize = 0 := rfl
  constructor <;> rw [hback]
  · exact ⟨_, rfl⟩
  · refine ⟨?_, fun h => absurd h hroom⟩
    rintro ⟨bi, hbi, hsz⟩
    cases hbi
    omega
  · intro bi hbi hsz
    cases hbi
    omega
  · intro _
    rfl

/-- A call that writes in front of the tag does what is expected. -/
theorem backupMeets_of_written (hC : C.GcmLawful) {a a' : CoqAssemblyPlainWritable cfg}
    (hheader : headerLen cfg.nchunks ≤ a.apos) {b : CoqBuffer .plain} {offset dlen : ℕ}
    (hpos : 1 ≤ dlen)
    (hback : a.backup C b offset dlen =
      (a', .ok (blockRecord C a.aid a.apos 0 (Overlay.slice b.bytes offset dlen))))
    (hrange : offset + dlen ≤ b.len) (hroom : a.apos + dlen ≤ dataEnd cfg.nchunks)
    (happ : Appended a a' (Overlay.slice b.bytes offset dlen)) : BackupMeets C a b offset dlen := by
  have hend := dataEnd_le cfg.nchunks
  have hlen : (Overlay.slice b.bytes offset dlen).length = dlen := Overlay.length_slice hrange
  have hsz : (blockRecord C a.aid a.apos 0 (Overlay.slice b.bytes offset dlen)).blocksize = dlen :=
    hlen
  have hne : Overlay.slice b.bytes offset dlen ≠ [] := by
    apply List.ne_nil_of_length_pos
    omega
  have hapos : a'.apos = a.apos + dlen := by rw [happ.apos_eq, hlen]
  constructor <;> rw [hback]
  · exact ⟨_, rfl⟩
  · exact ⟨fun _ => ⟨hrange, hroom⟩, fun _ => ⟨_, rfl, by omega⟩⟩
  · intro bi hbi _ data a'' hrun
    cases hbi
    obtain ⟨hlater, -⟩ := hrun.appended (by rw [hapos]; omega)
    have hholds := holds_appended ⟨hheader, by omega⟩ happ (by rw [hlen]; exact hroom)
    apply survives_of_holds hC hne rfl rfl
    exact hholds.appended (Nat.le_of_eq happ.apos_eq.symm) hlater
  · intro h
    have := h _ rfl
    omega

/-- A call does what is expected unless its arguments wrap around or the block reaches the tag. -/
theorem backupMeets_iff (hC : C.GcmLawful) {a : CoqAssemblyPlainWritable cfg}
    (hheader : headerLen cfg.nchunks ≤ a.apos) (ha : a.apos ≤ assemblysize cfg.nchunks)
    (b : CoqBuffer .plain) {offset dlen : ℕ} (hoffset : offset < 4294967296)
    (hdlen : dlen < 4294967296) (hpos : 1 ≤ dlen) :
    BackupMeets C a b offset dlen ↔
      ¬ SumWraps a b offset dlen ∧ ¬ ReachesTagRows a b offset dlen := by
  have hsize := assemblysize_lt cfg.nchunks
  have hend := dataEnd_le cfg.nchunks
  have hblen : b.len < 2147483648 := b.len_lt
  have hout := backup_outcome C ha b hoffset hdlen
  generalize hback : a.backup C b offset dlen = r at hout
  cases hout with
  | refused h =>
    have hnil : b.bytes = [] → b.len = 0 := fun h => by rw [CoqBuffer.len, h]; rfl
    refine iff_of_true (backupMeets_of_refused hback ?_) ⟨?_, ?_⟩
    · rintro ⟨h1, h2⟩
      rcases h with h | h | h
      · omega
      · omega
      · have := hnil h
        omega
    · rintro ⟨hne, -, h1, h2⟩
      rcases h with h | h | h
      · omega
      · omega
      · exact hne h
    · rintro ⟨h1, -, h2⟩
      rcases h with h | h | h
      · omega
      · omega
      · have := hnil h
        omega
  | written a' hrange hroom happ =>
    have hwraps : ¬ SumWraps a b offset dlen := fun h => by
      have := h.2.1
      omega
    constructor
    · intro h
      obtain ⟨-, hfit⟩ := h.accepts_iff.mp (by
        rw [hback]
        exact ⟨_, rfl, by rw [blockRecord, Overlay.length_slice hrange]; exact hpos⟩)
      exact ⟨hwraps, fun h => by have := h.2.1; omega⟩
    · rintro ⟨-, htag⟩
      have hfit : a.apos + dlen ≤ dataEnd cfg.nchunks := by
        by_contra hlt
        exact htag ⟨hrange, by omega, hroom⟩
      exact backupMeets_of_written hC hheader hpos hback hrange hfit happ
  | outside h =>
    refine iff_of_false (fun hmeets => ?_) fun hno => hno.1 h
    obtain ⟨bi, hbi⟩ := hmeets.returns
    rw [hback] at hbi
    cases hbi

/-- A run of one call with the whole of a buffer. -/
theorem backupRun_one (C : Crypto) (cfg : CoqConfiguration) (draw : AssemblyDraw)
    {b : CoqBuffer .plain} (hb : b.bytes ≠ [])
    (hroom : headerLen cfg.nchunks + b.len ≤ dataEnd cfg.nchunks) :
    ∃ a, BackupRun C (CoqAssemblyPlainWritable.create C cfg draw) b.bytes a := by
  have hlen : b.len < 2147483648 := b.len_lt
  obtain ⟨a, hback, -⟩ := backup_eq C (a := CoqAssemblyPlainWritable.create C cfg draw) hb hroom
  have hrun := BackupRun.call (C := C) (a := CoqAssemblyPlainWritable.create C cfg draw) .nil b
    (show 0 < 4294967296 by decide) (show b.len < 4294967296 by omega) (by rw [hback])
  rw [List.nil_append, blockRecord, slice_self] at hrun
  exact ⟨_, hrun⟩

/-- **What `backup` accepts survives, and what it refuses leaves no trace**, in every assembly
reached by calls of `backup`, if and only if the sum of the arguments does not wrap around and the
block does not reach the rows of the tag. -/
theorem backup_meets_iff (hC : C.GcmLawful) {draw : AssemblyDraw} {data : Bytes}
    {a : CoqAssemblyPlainWritable cfg}
    (hrun : BackupRun C (CoqAssemblyPlainWritable.create C cfg draw) data a)
    (b : CoqBuffer .plain) {offset dlen : ℕ} (hoffset : offset < 4294967296)
    (hdlen : dlen < 4294967296) (hpos : 1 ≤ dlen) :
    BackupMeets C a b offset dlen ↔
      ¬ SumWraps a b offset dlen ∧ ¬ ReachesTagRows a b offset dlen := by
  obtain ⟨happ, ha⟩ := hrun.appended (apos_create_le C cfg draw)
  have hheader : headerLen cfg.nchunks ≤ a.apos := by
    rw [happ.apos_eq]
    exact Nat.le_add_right _ _
  exact backupMeets_iff hC hheader ha b hoffset hdlen hpos

/-- The last two of three bytes, behind a block of three bytes that is there already. -/
theorem backup_meets_iff_simple :
    ∃ a, BackupRun simple (CoqAssemblyPlainWritable.create simple config16 (numberedDraw 0))
        (CoqBuffer.ofBytes [7, 8, 9] : CoqBuffer .plain).bytes a ∧ a.apos = 3 ∧
      BackupMeets simple a (CoqBuffer.ofBytes [1, 2, 3]) 1 2 := by
  obtain ⟨a, hrun⟩ := backupRun_one simple config16 (numberedDraw 0)
    (b := CoqBuffer.ofBytes [7, 8, 9]) (by decide) (by decide)
  have hapos : a.apos = 3 :=
    (hrun.appended (apos_create_le simple config16 (numberedDraw 0))).1.apos_eq
  refine ⟨a, hrun, hapos, ?_⟩
  apply (backup_meets_iff simple_lawful.gcm hrun (CoqBuffer.ofBytes [1, 2, 3]) (by decide)
    (by decide) (by decide)).mpr
  constructor
  · rintro ⟨-, h, -⟩
    exact absurd h (by decide)
  · rintro ⟨-, h, -⟩
    rw [hapos] at h
    exact absurd h (by decide)

/-- A block of 4194304 bytes is accepted by a new assembly that has 4194048 bytes in front of the
tag; and two bytes at offset `2^32 - 1` are looked for outside of a buffer of two bytes. -/
theorem backup_counterexample :
    let a := CoqAssemblyPlainWritable.create simple config16 (numberedDraw 0)
    ¬ BackupMeets simple a (CoqBuffer.create 4194304) 0 4194304 ∧
      ¬ BackupMeets simple a (CoqBuffer.ofBytes [1, 2]) 4294967295 2 := by
  intro a
  have hiff := fun (b : CoqBuffer .plain) {offset dlen : ℕ} (hoffset : offset < 4294967296)
      (hdlen : dlen < 4294967296) =>
    backupMeets_iff simple_lawful.gcm (Nat.le_refl a.apos)
      (apos_create_le simple config16 (numberedDraw 0)) b hoffset hdlen
  constructor
  · intro h
    apply ((hiff _ (by decide) (by decide) (by decide)).mp h).2
    refine ⟨?_, by decide, by decide⟩
    rw [CoqBuffer.len_create (by decide)]
  · intro h
    apply ((hiff _ (by decide) (by decide) (by decide)).mp h).1
    exact ⟨by decide, by decide, by decide, by decide⟩

/-! ## The random header -/

/-- What is expected of the header: a new assembly has random bytes exactly at the first physical
positions and reserves as many bytes, and in the finished one they are still there. -/
structure HeaderPreserved (C : Crypto) (cfg : CoqConfiguration) (draw : AssemblyDraw)
    (a : CoqAssemblyPlainWritable cfg) : Prop where
  apos_eq : (CoqAssemblyPlainWritable.create C cfg draw).apos = headerLen cfg.nchunks
  placed : ∀ i < assemblysize cfg.nchunks,
    (CoqAssemblyPlainWritable.create C cfg draw).buffer.bytes[i]? =
      some (if i < headerLen cfg.nchunks then headerByte draw i else 0)
  kept : ∀ i < headerLen cfg.nchunks, a.finish.buffer.bytes[i]? = some (headerByte draw i)

/-- The first physical positions are the logical positions of the first chunk. -/
theorem idx2apos_first (n : Nchunks) (k : ℕ) : idx2apos (n.u * k) n = k := by
  have hmin := n.min_le
  rw [idx2apos, Nat.mul_mod_right, Nat.mul_div_cancel_left k (by omega), Nat.mul_zero,
    Nat.zero_add]

/-- The header is kept if and only if what is written over it has the same bytes. -/
theorem headerPreserved_iff {draw : AssemblyDraw} {data : Bytes}
    {a : CoqAssemblyPlainWritable cfg}
    (happ : Appended (CoqAssemblyPlainWritable.create C cfg draw) a data) :
    HeaderPreserved C cfg draw a ↔ ∀ k, 1 ≤ k → k < headerLen cfg.nchunks → ∀ v,
      data[cfg.nchunks.u * k - headerLen cfg.nchunks]? = some v → v = headerByte draw k := by
  have hmin := cfg.nchunks.min_le
  have hmax := cfg.nchunks.le_max
  have hheader : headerLen cfg.nchunks ≤ cfg.nchunks.u - 16 := Nat.min_le_left _ _
  have hle := headerLen_le cfg.nchunks
  have hend := dataEnd_le cfg.nchunks
  have hlt := lt_dataEnd cfg.nchunks
  have hcell : ∀ k < headerLen cfg.nchunks, a.finish.buffer.bytes[k]? =
      if headerLen cfg.nchunks ≤ cfg.nchunks.u * k ∧
          cfg.nchunks.u * k < headerLen cfg.nchunks + data.length then
        data[cfg.nchunks.u * k - headerLen cfg.nchunks]?
      else some (headerByte draw k) := by
    intro k hk
    have hsmall : cfg.nchunks.u * k ≤ 256 * 128 := Nat.mul_le_mul hmax (by omega)
    have h := happ.cells (cfg.nchunks.u * k) (by omega)
    unfold logicalAt at h
    rw [idx2apos_first] at h
    apply h.trans
    have hnew : (CoqAssemblyPlainWritable.create C cfg draw).buffer.bytes[k]? =
        some (headerByte draw k) :=
      (getElem?_headerBuffer draw cfg.nchunks k).trans (if_pos hk)
    rw [hnew]
    rfl
  constructor
  · intro h k hk1 hk v hv
    have hkept := h.kept k hk
    have hge : cfg.nchunks.u * 1 ≤ cfg.nchunks.u * k := Nat.mul_le_mul_left _ hk1
    have hdata := (List.getElem?_eq_some_iff.mp hv).1
    rw [hcell k hk, if_pos (by omega), hv] at hkept
    exact Option.some.inj hkept
  · intro h
    refine ⟨rfl, fun i hi => ?_, fun k hk => ?_⟩
    · refine (getElem?_headerBuffer draw cfg.nchunks i).trans ?_
      by_cases hik : i < headerLen cfg.nchunks
      · rw [if_pos hik, if_pos hik]
      · rw [if_neg hik, if_pos hi, if_neg hik]
    · rw [hcell k hk]
      by_cases hin : headerLen cfg.nchunks ≤ cfg.nchunks.u * k ∧
          cfg.nchunks.u * k < headerLen cfg.nchunks + data.length
      · have hk1 : 1 ≤ k := by
          by_contra h0
          obtain rfl : k = 0 := by omega
          omega
        have hdata : cfg.nchunks.u * k - headerLen cfg.nchunks < data.length := by omega
        rw [if_pos hin, List.getElem?_eq_getElem hdata,
          h k hk1 hk _ (List.getElem?_eq_getElem hdata)]
      · rw [if_neg hin]

/-- **The random header is preserved** by a sequence of calls of `backup` if and only if every
accepted byte at a logical position `n * k`, for `k` in the header, is the random byte it is
written over. -/
theorem header_preserved_iff {draw : AssemblyDraw} {data : Bytes}
    {a : CoqAssemblyPlainWritable cfg}
    (hrun : BackupRun C (CoqAssemblyPlainWritable.create C cfg draw) data a) :
    HeaderPreserved C cfg draw a ↔ ∀ k, 1 ≤ k → k < headerLen cfg.nchunks → ∀ v,
      data[cfg.nchunks.u * k - headerLen cfg.nchunks]? = some v → v = headerByte draw k :=
  headerPreserved_iff (hrun.appended (apos_create_le C cfg draw)).1

/-- A configuration of 18 chunks, where the header has two bytes. -/
def config18 : CoqConfiguration := { config16 with nchunks := ⟨18, by decide, by decide⟩ }

/-- Seventeen bytes like those of the header. -/
theorem header_preserved_iff_simple :
    ∃ a, BackupRun simple (CoqAssemblyPlainWritable.create simple config18 (numberedDraw 0))
        (CoqBuffer.ofBytes (List.replicate 17 0) : CoqBuffer .plain).bytes a ∧
      HeaderPreserved simple config18 (numberedDraw 0) a := by
  obtain ⟨a, hrun⟩ := backupRun_one simple config18 (numberedDraw 0)
    (b := CoqBuffer.ofBytes (List.replicate 17 0)) (by decide) (by decide)
  refine ⟨a, hrun, (header_preserved_iff hrun).mpr ?_⟩
  intro k hk1 hk v hv
  change k < 2 at hk
  obtain rfl : k = 1 := by omega
  exact (Option.some.inj hv).symm

/-- Seventeen bytes, the last of which is written over the second byte of the header. -/
theorem header_counterexample :
    ∃ a, BackupRun simple (CoqAssemblyPlainWritable.create simple config18 (numberedDraw 0))
        (CoqBuffer.ofBytes (List.replicate 16 0 ++ [1]) : CoqBuffer .plain).bytes a ∧
      ¬ HeaderPreserved simple config18 (numberedDraw 0) a := by
  obtain ⟨a, hrun⟩ := backupRun_one simple config18 (numberedDraw 0)
    (b := CoqBuffer.ofBytes (List.replicate 16 0 ++ [1])) (by decide) (by decide)
  refine ⟨a, hrun, fun h => ?_⟩
  have happ := (hrun.appended (apos_create_le simple config18 (numberedDraw 0))).1
  have h1 := (headerPreserved_iff happ).mp h 1 (by decide) (by decide) 1 (by decide)
  exact absurd h1 (by decide)

end Elykseer.Analysis
