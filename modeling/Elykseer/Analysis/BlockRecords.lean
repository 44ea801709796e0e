import Elykseer.Analysis.BackupCalls

/-!
# The records a write environment hands out

`CoqEnvironmentWritable::backup` writes the first `dlen` bytes of a buffer to the assembly that
is there, or to a new one if they do not fit (`backup_into`), and returns the record it gets
from the assembly, whatever that is.  For `dlen ≥ 1` the record is restorable
(`backupInto_records`); for `dlen = 0` it is the blank record, or one of size 0, and `restore`
refuses both (`not_survives_of_size`): `records_restorable_iff`.
-/

set_option autoImplicit false

namespace Elykseer.Analysis

open Elykseer.Model Elykseer.Foundation

variable {C : Crypto} {H : Host} {cfg : CoqConfiguration}

/-! ## Reachable environments -/

/-- The states of a write environment, whose assembly is a public member. -/
inductive EnvReachable (C : Crypto) : CoqEnvironmentWritable cfg → Prop
  | init : EnvReachable C (CoqEnvironmentWritable.init cfg)
  | recreate {e : CoqEnvironmentWritable cfg} (H : Host) (w : World) (h : EnvReachable C e) :
      EnvReachable C (e.recreateAssembly C H w).1
  | finalise {e : CoqEnvironmentWritable cfg} (H : Host) (w : World) (h : EnvReachable C e) :
      EnvReachable C (e.finaliseAssembly C H w).1
  | finaliseAndRecreate {e : CoqEnvironmentWritable cfg} (H : Host) (w : World)
      (h : EnvReachable C e) : EnvReachable C (e.finaliseAndRecreateAssembly C H w).1
  | backup {e e' : CoqEnvironmentWritable cfg} {w' : World} {fbs : RelFnameFblocks}
      {kis : RelAidKeys} (H : Host) (w : World) (fname : Bytes) (fpos : ℕ) (b : CoqBuffer .plain)
      (dlen : ℕ) (h : EnvReachable C e)
      (hok : e.backup C H w fname fpos b dlen = .ok (e', w', fbs, kis)) : EnvReachable C e'
  | written {e : CoqEnvironmentWritable cfg} {a a' : CoqAssemblyPlainWritable cfg} {data : Bytes}
      (h : EnvReachable C e) (ha : e.assembly = some a) (hrun : BackupRun C a data a') :
      EnvReachable C { e with assembly := some a' }

/-- The next position of an assembly lies behind the header. -/
structure InRange (a : CoqAssemblyPlainWritable cfg) : Prop where
  header_le : headerLen cfg.nchunks ≤ a.apos
  le_size : a.apos ≤ assemblysize cfg.nchunks

/-- A new assembly has its next position behind its header. -/
theorem inRange_newAssembly (i : ℕ) : InRange (newAssembly C H cfg i) :=
  ⟨(fits_newAssembly i).header_le, Nat.le_trans (fits_newAssembly i).le_dataEnd (dataEnd_le _)⟩

/-- The next position stays in range after a block for which there was room. -/
theorem InRange.appended {a a' : CoqAssemblyPlainWritable cfg} {d : Bytes} (h : InRange a)
    (happ : Appended a a' d) (hroom : a'.apos ≤ assemblysize cfg.nchunks) : InRange a' := by
  have h1 := h.header_le
  refine ⟨?_, hroom⟩
  rw [happ.apos_eq]
  omega

/-- A call of `backup` with a part that exists goes to the assembly that is there, or to a new
one. -/
theorem backup_into {e : CoqEnvironmentWritable cfg} {a : CoqAssemblyPlainWritable cfg}
    (h : e.assembly = some a) (ha : InRange a) (w : World) (fname : Bytes) (fpos : ℕ)
    {b : CoqBuffer .plain} {dlen : ℕ} (hdlen : dlen ≤ b.len) :
    ∃ (e₁ : CoqEnvironmentWritable cfg) (w₁ : World) (kis : RelAidKeys)
      (a₁ : CoqAssemblyPlainWritable cfg), e₁.assembly = some a₁ ∧ InRange a₁ ∧
      e.backup C H w fname fpos b dlen = e₁.backupInto C w₁ kis fname fpos b dlen := by
  unfold CoqEnvironmentWritable.backup
  rw [h]
  dsimp only
  rw [if_neg (by omega)]
  by_cases hfull : a.afree < i32 dlen
  · rw [if_pos hfull]
    exact ⟨_, _, _, newAssembly C H cfg _, rfl, inRange_newAssembly _, rfl⟩
  · rw [if_neg hfull]
    exact ⟨e, w, [], a, h, ha, rfl⟩

/-- The outcomes of the part of `backup` behind the rollover. -/
theorem backupInto_cases {e : CoqEnvironmentWritable cfg} {a : CoqAssemblyPlainWritable cfg}
    (h : e.assembly = some a) (w : World) (kis : RelAidKeys) (fname : Bytes) (fpos : ℕ)
    (b : CoqBuffer .plain) (dlen : ℕ) :
    (a.afree < i32 dlen ∧ e.backupInto C w kis fname fpos b dlen =
      .ok (e, { w with clog := w.clog ++ [.doesNotFit dlen] }, [], kis)) ∨
    (¬ a.afree < i32 dlen ∧ ∃ f, (a.backup C b 0 dlen).2 = .error f ∧
      e.backupInto C w kis fname fpos b dlen = .error f) ∨
    (¬ a.afree < i32 dlen ∧ ∃ bi, (a.backup C b 0 dlen).2 = .ok bi ∧
      e.backupInto C w kis fname fpos b dlen =
        .ok ({ e with assembly := some (a.backup C b 0 dlen).1 }, w,
          [(fname, { bi with filepos := fpos })], kis)) := by
  unfold CoqEnvironmentWritable.backupInto
  rw [h]
  dsimp only
  by_cases hfull : a.afree < i32 dlen
  · rw [if_pos hfull]
    exact .inl ⟨hfull, rfl⟩
  · rw [if_neg hfull]
    cases hback : (a.backup C b 0 dlen).2 with
    | error f => exact .inr (.inl ⟨hfull, f, rfl, rfl⟩)
    | ok bi => exact .inr (.inr ⟨hfull, bi, rfl, rfl⟩)

/-- The assembly of a reachable environment has its next position behind the header. -/
theorem EnvReachable.inRange {e : CoqEnvironmentWritable cfg} (h : EnvReachable C e) :
    ∀ a, e.assembly = some a → InRange a := by
  induction h with
  | init => intro a ha; cases ha
  | recreate H w h ih =>
    intro a ha
    cases ha
    exact inRange_newAssembly _
  | finalise H w h ih =>
    intro a ha
    cases (finalise_step _ w).assembly_eq.symm.trans ha
  | finaliseAndRecreate H w h ih =>
    intro a ha
    cases ha
    exact inRange_newAssembly _
  | @backup e e' w' fbs kis H w fname fpos b dlen h hok ih =>
    intro a' ha'
    cases hassembly : e.assembly with
    | none =>
      rw [CoqEnvironmentWritable.backup, hassembly] at hok
      cases hok
      exact ih a' ha'
    | some a =>
      by_cases hdlen : dlen ≤ b.len
      · obtain ⟨e₁, w₁, kis₁, a₁, ha₁, hrange, hinto⟩ := backup_into (C := C) (H := H) hassembly
          (ih a hassembly) w fname fpos hdlen
        rw [hinto] at hok
        rcases backupInto_cases (C := C) ha₁ w₁ kis₁ fname fpos b dlen with
          ⟨-, hcase⟩ | ⟨-, f, -, hcase⟩ | ⟨-, bi, hbi, hcase⟩
        · rw [hcase] at hok
          cases hok
          cases ha₁.symm.trans ha'
          exact hrange
        · rw [hcase] at hok
          cases hok
        · rw [hcase] at hok
          cases hok
          cases ha'
          have hlen : b.len < 2147483648 := b.len_lt
          obtain ⟨happ, hroom⟩ := backup_appended hrange.le_size b (by decide) (by omega) hbi
          exact hrange.appended happ hroom
      · rw [CoqEnvironmentWritable.backup, hassembly] at hok
        dsimp only at hok
        rw [if_pos (by omega)] at hok
        cases hok
        exact ih a' ha'
  | written h ha hrun ih =>
    intro a' ha'
    cases ha'
    obtain ⟨happ, hroom⟩ := hrun.appended (ih _ ha).le_size
    exact (ih _ ha).appended happ hroom

/-! ## Restorable records -/

/-- An assembly that was archived and is restored from the chunk files `finalise_assembly` left. -/
structure ArchivedAndRestored (C : Crypto) (H : Host) (a : CoqAssemblyPlainWritable cfg)
    (full : CoqAssemblyPlainFull cfg) : Prop where
  exists_restore : ∃ (e : CoqEnvironmentWritable cfg) (w w₁ : World) (aid : Bytes)
    (ki : KeyInformation) (er : CoqEnvironmentReadable cfg),
    e.assembly = some a ∧ (e.finaliseAssembly C H w).2.2 = some (aid, ki) ∧
    (∀ cid ∈ cfg.nchunks.sequence, w₁.fs.files (chunkFile C cfg aid cid) =
      (e.finaliseAssembly C H w).2.1.fs.files (chunkFile C cfg aid cid)) ∧
    (er.restoreAssembly C H w₁ aid ki).2.2 = true ∧
    (er.restoreAssembly C H w₁ aid ki).1.assembly = some full

/-- What is expected of a record for the bytes `d` after the call that returned it: it names the
assembly that is there, ends at its next position, and after any further blocks gives the bytes
back, from the decrypted assembly and from the chunk files. -/
structure RestorableRecord (C : Crypto) (a : CoqAssemblyPlainWritable cfg) (dlen : ℕ) (d : Bytes)
    (bi : BlockInformation) : Prop where
  aid_eq : bi.blockaid = a.aid
  size_eq : bi.blocksize = dlen
  apos_eq : bi.blockapos + bi.blocksize = a.apos
  survives : ∀ data a', BackupRun C a data a' → Survives C a' bi d
  restored : ∀ data a', BackupRun C a data a' → ∀ H full, ArchivedAndRestored C H a' full →
    ∃ b, full.restore C bi = .ok (some b) ∧ b.bytes = d

/-- `backup` returns, and every entry has a restorable record. -/
def RecordsRestorable (C : Crypto) (H : Host) (e : CoqEnvironmentWritable cfg) (w : World)
    (fname : Bytes) (fpos : ℕ) (b : CoqBuffer .plain) (dlen : ℕ) : Prop :=
  ∃ e' w' fbs kis, e.backup C H w fname fpos b dlen = .ok (e', w', fbs, kis) ∧
    ∀ x ∈ fbs, ∃ a, e'.assembly = some a ∧ RestorableRecord C a dlen (b.bytes.take dlen) x.2

/-- An assembly restored from its chunk files has the bytes it had, up to those of the tag. -/
theorem ArchivedAndRestored.cells (hC : C.Lawful) {a : CoqAssemblyPlainWritable cfg}
    {full : CoqAssemblyPlainFull cfg} (h : ArchivedAndRestored C H a full) :
    ∀ p < assemblysize cfg.nchunks - tagLen,
      full.buffer.bytes[p]? = a.buffer.bytes[p]? := by
  obtain ⟨e, w, w₁, aid, ki, er, ha, hkey, hfiles, hok, hfull⟩ := h.exists_restore
  have hstep := finalise_step (C := C) (H := H) e w
  generalize e.finaliseAssembly C H w = r at hkey hfiles hstep
  obtain ⟨e₁, w₂, okey⟩ := r
  dsimp only at hkey hfiles hstep
  cases hstep with
  | absent => cases hkey
  | empty => cases hkey
  | failed => cases hkey
  | archived a₁ ha₁ hapos enc henc hall =>
    cases ha.symm.trans ha₁
    cases hkey
    obtain ⟨hread, hsome⟩ := restoreAssembly_eq hC.hex H er w₁ a.aid
      (KeyInformation.draw cfg (H.finalise w.nfinalise))
    rw [hok] at hsome
    obtain ⟨full', hfull'⟩ := Option.isSome_iff_exists.mp hsome.symm
    rw [hfull'] at hread
    dsimp only at hread
    rw [hread] at hfull
    obtain rfl : full' = full := Option.some.inj hfull
    -- what was kept of the chunk files is all of them, since they are long enough
    have haid : enc.info.aid = a.aid := aid_encrypt henc
    have hwhole : ∀ cid ∈ cfg.nchunks.sequence, w₁.fs.files (chunkFile C cfg a.aid cid) =
        some (chunkSlice enc.buffer.bytes cid) := by
      intro cid hcid
      have hfile := extract_files (a := enc) hC.hex ((extract_eq_iff hC.hex w.fs).mp hall) hcid
      rw [haid] at hfile
      have hcontent : (chunkContent C cfg a.aid w₁.fs.files cid).isSome = true := by
        unfold readAssembly at hfull'
        rw [if_pos (supported_draw _)] at hfull'
        obtain ⟨enc', henc', -⟩ := Option.bind_eq_some_iff.mp hfull'
        exact (recall_isSome_iff _ hC.hex w₁.fs).mp (by rw [henc']; rfl) cid hcid
      unfold chunkContent at hcontent
      rw [hfiles cid hcid, hfile] at hcontent ⊢
      dsimp only at hcontent
      have hlen : (chunkSlice enc.buffer.bytes cid).length = chunksize :=
        length_chunkSlice enc.len_eq hcid
      rw [List.length_take, hlen] at hcontent
      split at hcontent
      · next hle => rw [List.take_of_length_le (by omega)]
      · cases hcontent
    obtain ⟨full₁, hread₁, hcells⟩ := readAssembly_of_chunks hC (a := a.finish)
      (supported_draw _) henc hwhole
    cases hfull'.symm.trans hread₁
    exact hcells

/-- The record of a block in the data area is restorable. -/
theorem restorableRecord_of_holds (hC : C.Lawful) {a : CoqAssemblyPlainWritable cfg}
    {bi : BlockInformation} {d : Bytes} (hd : d ≠ []) (haid : bi.blockaid = a.aid)
    (hsz : bi.blocksize = d.length) (hapos : bi.blockapos + bi.blocksize = a.apos)
    (hsum : bi.bchecksum = C.sha3 d) (h : Holds cfg.nchunks a.buffer.bytes bi.blockapos d) :
    RestorableRecord C a d.length d bi := by
  have hend := dataEnd_le cfg.nchunks
  have hfit := h.le_dataEnd
  have hsize := assemblysize_lt cfg.nchunks
  have hlater : ∀ data a', BackupRun C a data a' →
      Holds cfg.nchunks a'.buffer.bytes bi.blockapos d := by
    intro data a' hrun
    exact h.appended (by omega) (hrun.appended (by omega)).1
  refine ⟨haid, hsz, hapos, fun data a' hrun => ?_, fun data a' hrun H full hres => ?_⟩
  · exact survives_of_holds hC.gcm hd hsz hsum (hlater data a' hrun)
  · have hrestore := restore_of_holds C hd hsz hsum
      ((hlater data a' hrun).congr (hres.cells hC))
    exact ⟨_, hrestore, CoqBuffer.bytes_ofBytes (by omega)⟩

/-- A record of size 0 is not restored. -/
theorem not_survives_of_size {a : CoqAssemblyPlainWritable cfg} {bi : BlockInformation}
    (h : bi.blocksize = 0) (d : Bytes) : ¬ Survives C a bi d := by
  intro hsurvives
  obtain ⟨enc, full, b, -, -, hrestore, -⟩ := hsurvives
    ⟨Vector.replicate 16 0, Vector.replicate 32 0, cfg.nchunks, []⟩
  rw [restore_eq, if_neg] at hrestore
  · cases hrestore
  · rintro ⟨hpos, -⟩
    omega

/-- A part of at least one byte gets a restorable record, or none. -/
theorem backupInto_records (hC : C.Lawful) {e : CoqEnvironmentWritable cfg}
    {a : CoqAssemblyPlainWritable cfg} (h : e.assembly = some a) (ha : InRange a) (w : World)
    (kis : RelAidKeys) (fname : Bytes) (fpos : ℕ) {b : CoqBuffer .plain} {dlen : ℕ}
    (hpos : 1 ≤ dlen) (hdlen : dlen ≤ b.len) :
    ∃ e' w' fbs kis', e.backupInto C w kis fname fpos b dlen = .ok (e', w', fbs, kis') ∧
      ∀ x ∈ fbs, ∃ a', e'.assembly = some a' ∧
        RestorableRecord C a' dlen (b.bytes.take dlen) x.2 := by
  have hlen : b.len < 2147483648 := b.len_lt
  have hend := dataEnd_le cfg.nchunks
  have htake : (b.bytes.take dlen).length = dlen := List.length_take_of_le hdlen
  have hne : b.bytes.take dlen ≠ [] := by
    apply List.ne_nil_of_length_pos
    omega
  have hb : b.bytes ≠ [] := by
    intro hnil
    rw [hnil] at hne
    exact hne List.take_nil
  have hfree : ¬ a.afree < i32 dlen → a.apos + dlen ≤ dataEnd cfg.nchunks := by
    intro hroom
    rw [afree_eq, i32_of_lt (by omega)] at hroom
    omega
  rcases backupInto_cases (C := C) h w kis fname fpos b dlen with
    ⟨-, hcase⟩ | ⟨hroom, f, hf, -⟩ | ⟨hroom, bi, hbi, hcase⟩
  · exact ⟨_, _, _, _, hcase, fun x hx => by cases hx⟩
  · have hfit := hfree hroom
    obtain ⟨a', hback, -⟩ := backup_range C hb (show 0 + dlen ≤ b.len by omega)
      (Nat.le_trans hfit hend)
    rw [hback] at hf
    cases hf
  · have hfit := hfree hroom
    obtain ⟨a', hback, happ⟩ := backup_range C hb (show 0 + dlen ≤ b.len by omega)
      (Nat.le_trans hfit hend)
    change Appended a a' (b.bytes.take dlen) at happ
    rw [hback] at hbi hcase
    cases hbi
    refine ⟨_, _, _, _, hcase, fun x hx => ⟨a', rfl, ?_⟩⟩
    obtain rfl := List.mem_singleton.mp hx
    have hholds := holds_appended ⟨ha.header_le, by omega⟩ happ (by rw [htake]; exact hfit)
    have hrecord : RestorableRecord C a' (b.bytes.take dlen).length (b.bytes.take dlen)
        (blockRecord C a.aid a.apos fpos (b.bytes.take dlen)) :=
      restorableRecord_of_holds hC hne happ.aid_eq.symm rfl happ.apos_eq.symm rfl hholds
    rw [htake] at hrecord
    exact hrecord

/-- Nothing gets a record of size 0. -/
theorem backupInto_zero {e : CoqEnvironmentWritable cfg} {a : CoqAssemblyPlainWritable cfg}
    (h : e.assembly = some a) (ha : InRange a) (w : World) (kis : RelAidKeys) (fname : Bytes)
    (fpos : ℕ) (b : CoqBuffer .plain) :
    ∃ e' w' x kis', e.backupInto C w kis fname fpos b 0 = .ok (e', w', [x], kis') ∧
      x.2.blocksize = 0 := by
  have hout := backup_outcome C ha.le_size b (show 0 < 4294967296 by decide)
    (show 0 < 4294967296 by decide)
  rcases backupInto_cases (C := C) h w kis fname fpos b 0 with
    ⟨hroom, -⟩ | ⟨-, f, hf, -⟩ | ⟨-, bi, hbi, hcase⟩
  · rw [afree_eq, i32_of_lt (by decide)] at hroom
    omega
  · generalize a.backup C b 0 0 = r at hout hf
    cases hout with
    | refused => cases hf
    | written => cases hf
    | outside h =>
      have := h.2.1
      omega
  · refine ⟨_, _, _, _, hcase, ?_⟩
    generalize a.backup C b 0 0 = r at hout hbi
    cases hout with
    | refused => cases hbi; rfl
    | written => cases hbi; rfl
    | outside => cases hbi

/-- Whether the records of a call are restorable. -/
theorem recordsRestorable_iff (hC : C.Lawful) {e : CoqEnvironmentWritable cfg}
    (hrange : ∀ a, e.assembly = some a → InRange a) (w : World) (fname : Bytes) (fpos : ℕ)
    {b : CoqBuffer .plain} {dlen : ℕ} (hdlen : dlen ≤ b.len) :
    RecordsRestorable C H e w fname fpos b dlen ↔ 1 ≤ dlen ∨ e.assembly = none := by
  cases ha : e.assembly with
  | none =>
    refine iff_of_true ⟨e, w, [], [], ?_, fun x hx => by cases hx⟩ (.inr rfl)
    rw [CoqEnvironmentWritable.backup, ha]
  | some a =>
    obtain ⟨e₁, w₁, kis, a₁, ha₁, hrange₁, hinto⟩ := backup_into (C := C) (H := H) ha (hrange a ha)
      w fname fpos hdlen
    unfold RecordsRestorable
    rw [hinto]
    by_cases hpos : 1 ≤ dlen
    · exact iff_of_true (backupInto_records hC ha₁ hrange₁ w₁ kis fname fpos hpos hdlen)
        (.inl hpos)
    · obtain rfl : dlen = 0 := by omega
      obtain ⟨e', w', x, kis', hcase, hsize⟩ := backupInto_zero (C := C) ha₁ hrange₁ w₁ kis fname
        fpos b
      refine iff_of_false ?_ (by simp)
      rintro ⟨e₂, w₂, fbs, kis₂, hok, hrecords⟩
      cases hcase.symm.trans hok
      obtain ⟨a', -, hrecord⟩ := hrecords x (List.mem_singleton_self x)
      exact not_survives_of_size hsize _ (hrecord.survives [] a' .nil)

/-- **Every block record handed out is restorable** if and only if at least one byte is asked for,
or the environment has no assembly and hands out none. -/
theorem records_restorable_iff (hC : C.Lawful) (H : Host) {e : CoqEnvironmentWritable cfg}
    (he : EnvReachable C e) (w : World) (fname : Bytes) (fpos : ℕ) {b : CoqBuffer .plain}
    {dlen : ℕ} (hdlen : dlen ≤ b.len) :
    RecordsRestorable C H e w fname fpos b dlen ↔ 1 ≤ dlen ∨ e.assembly = none :=
  recordsRestorable_iff hC he.inRange w fname fpos hdlen

/-- The first byte of a buffer, in a new assembly. -/
theorem records_restorable_iff_simple :
    let H := numberedHost fun _ _ => allWorks
    RecordsRestorable simple H
      ((CoqEnvironmentWritable.init config16).recreateAssembly simple H emptyWorld).1 emptyWorld
      (ascii "f") 0 (CoqBuffer.ofBytes [1, 2]) 1 :=
  (records_restorable_iff simple_lawful _ (.recreate _ _ .init) emptyWorld (ascii "f") 0
    (by decide)).mpr (.inl (Nat.le_refl 1))

/-- An empty buffer gets the blank record. -/
theorem records_counterexample :
    let H := numberedHost fun _ _ => allWorks
    let e := ((CoqEnvironmentWritable.init config16).recreateAssembly simple H emptyWorld).1
    EnvReachable simple e ∧
      ¬ RecordsRestorable simple H e emptyWorld (ascii "f") 0 CoqBuffer.null 0 := by
  intro H e
  have he : EnvReachable simple e := .recreate H emptyWorld .init
  refine ⟨he, fun h => ?_⟩
  rcases (recordsRestorable_iff simple_lawful he.inRange emptyWorld (ascii "f") 0
    (b := CoqBuffer.null) (Nat.le_refl 0)).mp h with hpos | hnone
  · omega
  · cases hnone

end Elykseer.Analysis
