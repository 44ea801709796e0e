import Elykseer.Analysis.Recall

/-!
# What the operations of a write environment can do

`FinaliseStep` and `BackupStep` list the outcomes of `finalise_assembly` and of `backup`,
with the conditions under which each occurs; `finalise_step` and `backup_step` say that
there are no others, and that `backup` never faults.  Every invariant of the write path
is derived from these two.
-/

set_option autoImplicit false

namespace Elykseer.Analysis

open Elykseer.Model Elykseer.Foundation

variable {C : Crypto} {H : Host} {cfg : CoqConfiguration}

/-- The identifier of the `i`-th assembly. -/
def aidOf (C : Crypto) (H : Host) (cfg : CoqConfiguration) (i : ℕ) : Bytes :=
  mkAid C cfg.myId (C.toHex256 (H.assembly i).aid)

/-- The `i`-th assembly when it is new. -/
def newAssembly (C : Crypto) (H : Host) (cfg : CoqConfiguration) (i : ℕ) :
    CoqAssemblyPlainWritable cfg :=
  CoqAssemblyPlainWritable.create C cfg (H.assembly i)

/-- The identifier of a new assembly. -/
theorem aid_newAssembly (i : ℕ) : (newAssembly C H cfg i).aid = aidOf C H cfg i := rfl

/-- A new assembly is filled from the end of its header. -/
theorem apos_newAssembly (i : ℕ) : (newAssembly C H cfg i).apos = headerLen cfg.nchunks := rfl

/-- A new assembly fits. -/
theorem fits_newAssembly (i : ℕ) : Fits (newAssembly C H cfg i) := fits_create C cfg _

/-- Why an assembly was not archived: it could not be encrypted, or not all of it was reported as
written. -/
inductive ArchiveFailure (C : Crypto) (H : Host) (a : CoqAssemblyPlainWritable cfg) (w : World) :
    FileSystem → LogLine → Prop
  | encrypt (henc : a.finish.encrypt C (KeyInformation.draw cfg (H.finalise w.nfinalise)) = none) :
      ArchiveFailure C H a w w.fs (.failedToEncrypt a.aid)
  | extract (enc : CoqAssemblyEncrypted cfg)
      (henc : a.finish.encrypt C (KeyInformation.draw cfg (H.finalise w.nfinalise)) = some enc)
      (hshort : (enc.extract C (H.finalise w.nfinalise).io w.fs).2 ≠ assemblysize cfg.nchunks) :
      ArchiveFailure C H a w (enc.extract C (H.finalise w.nfinalise).io w.fs).1
        (.failedToExtract a.aid (enc.extract C (H.finalise w.nfinalise).io w.fs).2)

/-- The outcomes of `finalise_assembly`. -/
inductive FinaliseStep (C : Crypto) (H : Host) (e : CoqEnvironmentWritable cfg) (w : World) :
    CoqEnvironmentWritable cfg → World → Option (Bytes × KeyInformation) → Prop
  | absent (h : e.assembly = none) : FinaliseStep C H e w e w none
  | empty (a : CoqAssemblyPlainWritable cfg) (h : e.assembly = some a)
      (hapos : a.apos ≤ headerLen cfg.nchunks) : FinaliseStep C H e w ⟨none, e.nFailed⟩ w none
  | failed (a : CoqAssemblyPlainWritable cfg) (h : e.assembly = some a)
      (hapos : headerLen cfg.nchunks < a.apos) (fs : FileSystem) (line : LogLine)
      (hfail : ArchiveFailure C H a w fs line) :
      FinaliseStep C H e w ⟨none, (e.nFailed + 1) % 4294967296⟩
        ⟨fs, w.nassembly, w.nfinalise + 1, w.clog ++ [line]⟩ none
  | archived (a : CoqAssemblyPlainWritable cfg) (h : e.assembly = some a)
      (hapos : headerLen cfg.nchunks < a.apos) (enc : CoqAssemblyEncrypted cfg)
      (henc : a.finish.encrypt C (KeyInformation.draw cfg (H.finalise w.nfinalise)) = some enc)
      (hall : (enc.extract C (H.finalise w.nfinalise).io w.fs).2 = assemblysize cfg.nchunks) :
      FinaliseStep C H e w ⟨none, e.nFailed⟩
        ⟨(enc.extract C (H.finalise w.nfinalise).io w.fs).1, w.nassembly, w.nfinalise + 1, w.clog⟩
        (some (a.aid, KeyInformation.draw cfg (H.finalise w.nfinalise)))

/-- `finalise_assembly` has no other outcomes. -/
theorem finalise_step (e : CoqEnvironmentWritable cfg) (w : World) :
    FinaliseStep C H e w (e.finaliseAssembly C H w).1 (e.finaliseAssembly C H w).2.1
      (e.finaliseAssembly C H w).2.2 := by
  unfold CoqEnvironmentWritable.finaliseAssembly
  cases h : e.assembly with
  | none => exact .absent h
  | some a =>
    dsimp only
    by_cases hapos : a.apos ≤ headerLen cfg.nchunks
    · rw [if_pos hapos]
      exact .empty a h hapos
    · rw [if_neg hapos]
      cases henc : a.finish.encrypt C (KeyInformation.draw cfg (H.finalise w.nfinalise)) with
      | none => exact .failed a h (Nat.lt_of_not_le hapos) _ _ (.encrypt henc)
      | some enc =>
        dsimp only
        by_cases hall : (enc.extract C (H.finalise w.nfinalise).io w.fs).2 =
            assemblysize cfg.nchunks
        · rw [if_neg (not_not_intro hall)]
          exact .archived a h (Nat.lt_of_not_le hapos) enc henc hall
        · rw [if_pos hall]
          exact .failed a h (Nat.lt_of_not_le hapos) _ _ (.extract enc henc hall)

/-- After `finalise_assembly` there is no assembly. -/
theorem FinaliseStep.assembly_eq {e e' : CoqEnvironmentWritable cfg} {w w' : World}
    {okey : Option (Bytes × KeyInformation)} (h : FinaliseStep C H e w e' w' okey) :
    e'.assembly = none := by
  cases h with
  | absent h => exact h
  | empty => rfl
  | failed => rfl
  | archived => rfl

/-- `finalise_assembly` creates no assembly. -/
theorem FinaliseStep.nassembly_eq {e e' : CoqEnvironmentWritable cfg} {w w' : World}
    {okey : Option (Bytes × KeyInformation)} (h : FinaliseStep C H e w e' w' okey) :
    w'.nassembly = w.nassembly := by
  cases h <;> rfl

/-- The environment and the world after `recreate_assembly`. -/
theorem recreateAssembly_eq (e : CoqEnvironmentWritable cfg) (w : World) :
    e.recreateAssembly C H w =
      (⟨some (newAssembly C H cfg w.nassembly), e.nFailed⟩,
        { w with nassembly := w.nassembly + 1 }) := rfl

/-- The outcomes of `backup` for a whole buffer. -/
inductive BackupStep (C : Crypto) (H : Host) (e : CoqEnvironmentWritable cfg) (w : World)
    (fname : Bytes) (fpos : ℕ) (b : CoqBuffer .plain) :
    CoqEnvironmentWritable cfg → World → RelFnameFblocks → RelAidKeys → Prop
  | idle (h : e.assembly = none) : BackupStep C H e w fname fpos b e w [] []
  | blank (a : CoqAssemblyPlainWritable cfg) (h : e.assembly = some a) (hb : b.bytes = []) :
      BackupStep C H e w fname fpos b ⟨some a, e.nFailed⟩ w
        [(fname, { BlockInformation.blank C with filepos := fpos })] []
  | fits (a a' : CoqAssemblyPlainWritable cfg) (h : e.assembly = some a) (hb : b.bytes ≠ [])
      (hroom : a.apos + b.len ≤ dataEnd cfg.nchunks) (happ : Appended a a' b.bytes) :
      BackupStep C H e w fname fpos b ⟨some a', e.nFailed⟩ w
        [(fname, blockRecord C a.aid a.apos fpos b.bytes)] []
  | rolled (a : CoqAssemblyPlainWritable cfg) (h : e.assembly = some a) (hb : b.bytes ≠ [])
      (hfull : dataEnd cfg.nchunks < a.apos + b.len) (e₁ : CoqEnvironmentWritable cfg) (w₁ : World)
      (okey : Option (Bytes × KeyInformation)) (hfin : FinaliseStep C H e w e₁ w₁ okey)
      (a' : CoqAssemblyPlainWritable cfg) (hroom : headerLen cfg.nchunks + b.len ≤ dataEnd cfg.nchunks)
      (happ : Appended (newAssembly C H cfg w.nassembly) a' b.bytes) :
      BackupStep C H e w fname fpos b ⟨some a', e₁.nFailed⟩
        { w₁ with nassembly := w.nassembly + 1 }
        [(fname, blockRecord C (aidOf C H cfg w.nassembly) (headerLen cfg.nchunks) fpos b.bytes)]
        okey.toList
  | refused (a : CoqAssemblyPlainWritable cfg) (h : e.assembly = some a) (hb : b.bytes ≠ [])
      (hfull : dataEnd cfg.nchunks < a.apos + b.len) (e₁ : CoqEnvironmentWritable cfg) (w₁ : World)
      (okey : Option (Bytes × KeyInformation)) (hfin : FinaliseStep C H e w e₁ w₁ okey)
      (hbig : dataEnd cfg.nchunks < headerLen cfg.nchunks + b.len) :
      BackupStep C H e w fname fpos b
        ⟨some (newAssembly C H cfg w.nassembly), e₁.nFailed⟩
        { w₁ with nassembly := w.nassembly + 1, clog := w₁.clog ++ [.doesNotFit b.len] }
        [] okey.toList

/-- `afree` against the length of a buffer. -/
theorem afree_lt_iff {a : CoqAssemblyPlainWritable cfg} (hfit : Fits a) (b : CoqBuffer .plain) :
    a.afree < i32 b.len ↔ dataEnd cfg.nchunks < a.apos + b.len := by
  have hle := hfit.le_dataEnd
  have hlen : b.len = b.bytes.length := rfl
  rw [afree_eq, hlen, i32_of_lt b.len_lt]
  omega

/-- A block that fits goes into the assembly that is there. -/
theorem backupInto_fits {e : CoqEnvironmentWritable cfg} {a : CoqAssemblyPlainWritable cfg}
    (h : e.assembly = some a) (hfit : Fits a) {b : CoqBuffer .plain} (hb : b.bytes ≠ [])
    (hroom : a.apos + b.len ≤ dataEnd cfg.nchunks) (w : World) (kis : RelAidKeys) (fname : Bytes)
    (fpos : ℕ) :
    ∃ a', Appended a a' b.bytes ∧
      e.backupInto C w kis fname fpos b b.len =
        .ok (⟨some a', e.nFailed⟩, w, [(fname, blockRecord C a.aid a.apos fpos b.bytes)], kis) := by
  obtain ⟨a', hback, happ⟩ := backup_eq C hb hroom
  refine ⟨a', happ, ?_⟩
  unfold CoqEnvironmentWritable.backupInto
  rw [h]
  dsimp only
  rw [if_neg (by rw [afree_lt_iff hfit]; omega), hback]
  rfl

/-- **`backup` never faults**, and has no other outcomes. -/
theorem backup_step {e : CoqEnvironmentWritable cfg}
    (hfit : ∀ a, e.assembly = some a → Fits a) (w : World) (fname : Bytes) (fpos : ℕ)
    (b : CoqBuffer .plain) :
    ∃ e' w' fbs kis, e.backup C H w fname fpos b b.len = .ok (e', w', fbs, kis) ∧
      BackupStep C H e w fname fpos b e' w' fbs kis := by
  unfold CoqEnvironmentWritable.backup
  cases h : e.assembly with
  | none => exact ⟨_, _, _, _, rfl, .idle h⟩
  | some a =>
    have hfita := hfit a h
    dsimp only
    rw [if_neg (Nat.lt_irrefl _)]
    by_cases hb : b.bytes = []
    · have hlen : b.len = 0 := by rw [CoqBuffer.len, hb]; rfl
      have hroom : ¬ a.afree < i32 b.len := by
        have := hfita.le_dataEnd
        rw [afree_lt_iff hfita]
        omega
      rw [if_neg hroom]
      unfold CoqEnvironmentWritable.backupInto
      rw [h]
      dsimp only
      rw [if_neg hroom, backup_empty C hfita hb]
      exact ⟨_, _, _, _, rfl, .blank a h hb⟩
    · by_cases hroom : a.apos + b.len ≤ dataEnd cfg.nchunks
      · obtain ⟨a', happ, hinto⟩ := backupInto_fits (C := C) h hfita hb hroom w [] fname fpos
        rw [if_neg (by rw [afree_lt_iff hfita]; omega), hinto]
        exact ⟨_, _, _, _, rfl, .fits a a' h hb hroom happ⟩
      · have hfull := Nat.lt_of_not_le hroom
        rw [if_pos ((afree_lt_iff hfita b).mpr hfull)]
        have hfin := finalise_step (C := C) (H := H) e w
        unfold CoqEnvironmentWritable.finaliseAndRecreateAssembly
        dsimp only
        generalize e.finaliseAssembly C H w = r at hfin ⊢
        obtain ⟨e₁, w₁, okey⟩ := r
        dsimp only at hfin ⊢
        rw [recreateAssembly_eq]
        dsimp only
        have hnum := hfin.nassembly_eq
        have hfit₁ : Fits (newAssembly C H cfg w₁.nassembly) := fits_newAssembly w₁.nassembly
        by_cases hroom₁ : headerLen cfg.nchunks + b.len ≤ dataEnd cfg.nchunks
        · obtain ⟨a', happ, hinto⟩ := backupInto_fits (C := C)
            (e := ⟨some (newAssembly C H cfg w₁.nassembly), e₁.nFailed⟩) rfl hfit₁ hb hroom₁
            { w₁ with nassembly := w₁.nassembly + 1 } okey.toList fname fpos
          rw [hinto, hnum]
          rw [hnum] at happ
          exact ⟨_, _, _, _, rfl, .rolled a h hb hfull e₁ w₁ okey hfin a' hroom₁ happ⟩
        · have hbig := Nat.lt_of_not_le hroom₁
          unfold CoqEnvironmentWritable.backupInto
          dsimp only
          rw [if_pos ((afree_lt_iff hfit₁ b).mpr hbig), hnum]
          exact ⟨_, _, _, _, rfl, .refused a h hb hfull e₁ w₁ okey hfin hbig⟩

/-- A block that fits is returned with its record. -/
theorem backup_of_fits {e : CoqEnvironmentWritable cfg} {a : CoqAssemblyPlainWritable cfg}
    (ha : e.assembly = some a) (hfit : Fits a) {b : CoqBuffer .plain} (hb : b.bytes ≠ [])
    (hroom : a.apos + b.len ≤ dataEnd cfg.nchunks) (w : World) (fname : Bytes) (fpos : ℕ) :
    ∃ a', e.backup C H w fname fpos b b.len =
        .ok (⟨some a', e.nFailed⟩, w, [(fname, blockRecord C a.aid a.apos fpos b.bytes)], []) ∧
      Appended a a' b.bytes := by
  obtain ⟨a', happ, hinto⟩ := backupInto_fits (C := C) ha hfit hb hroom w [] fname fpos
  refine ⟨a', ?_, happ⟩
  unfold CoqEnvironmentWritable.backup
  rw [ha]
  dsimp only
  rw [if_neg (Nat.lt_irrefl _), if_neg (by rw [afree_lt_iff hfit]; omega), hinto]

end Elykseer.Analysis
