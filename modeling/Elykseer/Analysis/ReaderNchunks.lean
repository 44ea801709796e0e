import Elykseer.Analysis.Accounting
import Elykseer.Analysis.AuthenticatedEncryption
import Elykseer.Analysis.ChunkStore

/-!
# Reading with another number of chunks

The key record of an assembly says how many chunks it has, but `recall` takes the number
from the configuration of the reader.  With fewer chunks the ciphertext is cut off, with
more it is too long, and in neither case is it what has been encrypted.  An assembly is
restored if and only if the reader is configured with the number of chunks it was
written with: `restoreAssembly_nchunks_iff`.
-/

set_option autoImplicit false

namespace Elykseer.Analysis

open Elykseer.Model Elykseer.Foundation

variable {C : Crypto} {G : Gcm} {Q : Set GcmMessage} {cfg : CoqConfiguration}

/-- The configuration of a reader that differs in the number of chunks at most. -/
def reader (cfg : CoqConfiguration) (n : Nchunks) : CoqConfiguration := { cfg with nchunks := n }

/-- An assembly that was written and encrypted, with its chunks on file. -/
structure Written (C : Crypto) (Q : Set GcmMessage) (a : CoqAssemblyPlainWritable cfg)
    (d : FinaliseDraw) (enc : CoqAssemblyEncrypted cfg) (fs : FileSystem) : Prop where
  encrypt_eq : a.finish.encrypt C (KeyInformation.draw cfg d) = some enc
  encrypted : messageOf d.ivec d.pkey a.aid a.buffer.bytes ∈ Q
  files : ∀ cid ∈ cfg.nchunks.sequence,
    fs.files (chunkFile C cfg a.aid cid) = some (chunkSlice enc.buffer.bytes cid)

/-- What is written is the sealed assembly. -/
theorem Written.bytes_eq {a : CoqAssemblyPlainWritable cfg} {d : FinaliseDraw}
    {enc : CoqAssemblyEncrypted cfg} {fs : FileSystem} (h : Written C Q a d enc fs)
    (hC : C.Ideal G Q) :
    enc.info.aid = a.aid ∧
      enc.buffer.bytes = sealedBuffer G (messageOf d.ivec d.pkey a.aid a.buffer.bytes) := by
  obtain ⟨encAt, decAt, hcomp⟩ := hC.computes
  have hlen : a.buffer.bytes.length = assemblysize cfg.nchunks := a.len_eq
  have hsize := tagLen_le_assemblysize cfg.nchunks
  have hbytes := encrypt_bytes h.encrypt_eq
  refine ⟨aid_encrypt h.encrypt_eq, ?_⟩
  exact Option.some.inj (hbytes.symm.trans
    (encryptBuffer_eq hcomp d.ivec d.pkey a.info.aid (b := a.buffer.bytes) (by omega)))

/-- With the number of chunks it was written with, every recorded block is restored. -/
theorem restoreAssembly_of_written (hhex : C.HexLawful) (hC : C.Ideal G Q) (H : Host)
    {a : CoqAssemblyPlainWritable cfg} {d : FinaliseDraw} {enc : CoqAssemblyEncrypted cfg}
    {w : World} (h : Written C Q a d enc w.fs) :
    let r := (CoqEnvironmentReadable.init cfg).restoreAssembly C H w a.aid
      (KeyInformation.draw cfg d)
    r.2.2 = true ∧ ∃ a', r.1.assembly = some a' ∧ ∀ x, InAssembly a x → x.data ≠ [] →
      a'.restore C (x.record C) = .ok (some (CoqBuffer.ofBytes x.data)) := by
  intro r
  obtain ⟨encAt, decAt, hcomp⟩ := hC.computes
  obtain ⟨haid, hbytes⟩ := h.bytes_eq hC
  have hlen : a.buffer.bytes.length = assemblysize cfg.nchunks := a.len_eq
  have hdec := decryptBuffer_sealedBuffer hcomp (q := messageOf d.ivec d.pkey a.aid a.buffer.bytes)
    ⟨_, h.encrypted, rfl⟩ rfl
  have hfiles := h.files
  rw [← hbytes] at hdec
  rw [← haid] at hfiles
  obtain ⟨a', hread, ha'⟩ := readAssembly_of_files hhex (KeyInformation.draw cfg d) rfl hfiles
    (by rw [haid]; exact hdec)
  rw [haid] at hread
  obtain ⟨henv, hok⟩ := restoreAssembly_eq hhex H (CoqEnvironmentReadable.init cfg) w a.aid
    (KeyInformation.draw cfg d)
  rw [hread] at henv hok
  refine ⟨hok, a', by rw [henv], fun x hx hd => ?_⟩
  -- every byte in front of the tag is there
  have hcells : ∀ p < assemblysize cfg.nchunks - tagLen, a'.buffer.bytes[p]? = a.buffer.bytes[p]? := by
    intro p hp
    rw [ha', List.getElem?_append_left]
    · exact List.getElem?_take_of_lt (by omega)
    · rw [messageOf, List.length_take]
      omega
  rw [Entry.record, if_neg hd]
  exact restore_of_holds C hd rfl rfl (hx.holds.congr hcells)

/-- A reader with another number of chunks restores nothing. -/
theorem restoreAssembly_other (hhex : C.HexLawful) (hC : C.Ideal G Q) (H : Host)
    {a : CoqAssemblyPlainWritable cfg} {d : FinaliseDraw} {enc : CoqAssemblyEncrypted cfg}
    {w : World} (h : Written C Q a d enc w.fs) {n : Nchunks} (hn : n ≠ cfg.nchunks) :
    ((CoqEnvironmentReadable.init (reader cfg n)).restoreAssembly C H w a.aid
      (KeyInformation.draw cfg d)).2.2 = false := by
  obtain ⟨-, hok⟩ := restoreAssembly_eq hhex H (CoqEnvironmentReadable.init (reader cfg n)) w
    a.aid (KeyInformation.draw cfg d)
  rw [hok, ← Bool.not_eq_true]
  intro hsome
  obtain ⟨a', hread⟩ := Option.isSome_iff_exists.mp hsome
  unfold readAssembly at hread
  split at hread
  · obtain ⟨e, hrec, hdec⟩ := Option.bind_eq_some_iff.mp hread
    -- what is recalled was encrypted with this key and nonce, hence it is the assembly
    have hopen : (e.buffer.decrypt C d.ivec d.pkey e.info.aid).isSome = true := by
      rw [isSome_decrypt]
      unfold CoqAssemblyEncrypted.decrypt at hdec
      dsimp only at hdec
      split at hdec
      · next hopen => exact hopen
      · cases hdec
    obtain ⟨q, hq, hkey, hnonce, -, hbytes⟩ := (decrypt_isSome_iff hC _ _ _ _).mp hopen
    obtain rfl := hC.nonces _ h.encrypted q hq hkey hnonce
    have hlen : e.buffer.bytes.length = assemblysize n := e.len_eq
    have hlen' : enc.buffer.bytes.length = assemblysize cfg.nchunks := enc.len_eq
    rw [← hbytes, ← (h.bytes_eq hC).2, hlen'] at hlen
    exact hn (assemblysize_injective hlen.symm)
  · cases hread

/-- **An archive is read with the number of chunks of the reader**: the assembly is restored, with
all its blocks, if and only if this is the number it was written with. -/
theorem restoreAssembly_nchunks_iff (hhex : C.HexLawful) (hC : C.Ideal G Q) (H : Host)
    (a : CoqAssemblyPlainWritable cfg) (d : FinaliseDraw) (enc : CoqAssemblyEncrypted cfg)
    (w : World) (h : Written C Q a d enc w.fs) (n : Nchunks) :
    let ki := KeyInformation.draw cfg d
    let r := (CoqEnvironmentReadable.init (reader cfg n)).restoreAssembly C H w a.aid ki
    ki.localnchunks = cfg.nchunks ∧
      ((r.2.2 = true ∧ ∃ a', r.1.assembly = some a' ∧ ∀ x, InAssembly a x → x.data ≠ [] →
          a'.restore C (x.record C) = .ok (some (CoqBuffer.ofBytes x.data))) ↔
        n = cfg.nchunks) := by
  refine ⟨rfl, ?_⟩
  by_cases hn : n = cfg.nchunks
  · subst hn
    exact iff_of_true (restoreAssembly_of_written hhex hC H h) rfl
  · refine iff_of_false (fun hok => ?_) hn
    rw [restoreAssembly_other hhex hC H h hn] at hok
    exact absurd hok.1 Bool.false_ne_true

/-! ## A sample -/

/-- A new assembly of `n` chunks. -/
def sampleAssembly (n : Nchunks) : CoqAssemblyPlainWritable (reader config16 n) :=
  newAssembly simple (numberedHost fun _ _ => allWorks) (reader config16 n) 0

/-- The key and the answers of the operating system while it is written. -/
def sampleDraw : FinaliseDraw := ⟨Vector.replicate 16 0, Vector.replicate 32 0, fun _ => allWorks⟩

/-- What is encrypted. -/
def sampleMessage (n : Nchunks) : GcmMessage :=
  messageOf sampleDraw.ivec sampleDraw.pkey (sampleAssembly n).aid (sampleAssembly n).buffer.bytes

/-- A keystream and a tag of zeros. -/
def sampleGcm : Gcm := ⟨fun _ _ _ => 0, fun _ _ _ _ => Vector.replicate 16 0⟩

/-- The ideal library after this encryption. -/
def sampleLibrary (n : Nchunks) : Crypto := idealReference sampleGcm simpleHash [sampleMessage n]

/-- The sample library seals the sample message only. -/
theorem sampleLibrary_ideal (n : Nchunks) : (sampleLibrary n).Ideal sampleGcm {sampleMessage n} :=
  idealReference_ideal sampleGcm simpleHash (sampleMessage n)

/-- The sample library prints and reads keys as documented. -/
theorem sampleLibrary_hexLawful (n : Nchunks) : (sampleLibrary n).HexLawful :=
  idealReference_hexLawful sampleGcm simpleHash [sampleMessage n]

/-- The reader names assemblies as the writer does. -/
theorem aidOf_reader (H : Host) (n : Nchunks) (i : ℕ) :
    aidOf C H (reader cfg n) i = aidOf C H cfg i := rfl

/-- The identifier of the sample assembly does not depend on the number of chunks. -/
theorem aid_sample (n : Nchunks) : (sampleAssembly n).aid =
    aidOf simple (numberedHost fun _ _ => allWorks) config16 0 := by
  rw [sampleAssembly, aid_newAssembly, aidOf_reader]

/-- The identifier of the sample assembly has 64 characters. -/
theorem length_aid_sample (n : Nchunks) : (sampleAssembly n).aid.length = 64 := by
  rw [aid_sample]
  exact length_aidOf simple_lawful.hex 0

/-- The chunks of the sample assembly have different names. -/
theorem noCollision_sample {n : Nchunks} (hn : n.u < 100) : (sampleLibrary n).NoCollision
    (chunkInputs (reader config16 n) {(sampleAssembly n).aid}) := by
  have hsub : chunkInputs (reader config16 n) {(sampleAssembly n).aid} ⊆
      chunkInputs { config16 with nchunks := n } (Set.image
        (aidOf simple (numberedHost fun _ _ => allWorks) config16)
        (Set.Iio 18446744073709551616)) := by
    rintro m ⟨aid, hmem, cid, hcid, rfl⟩
    refine ⟨aid, ⟨0, Set.mem_Iio.mpr (Nat.zero_lt_succ _), ?_⟩, cid, hcid, rfl⟩
    rw [Set.mem_singleton_iff.mp hmem, aid_sample]
  exact Set.InjOn.mono hsub (noCollision_numbered_of_lt (fun _ _ => allWorks) hn)

/-- The sample is written to an empty directory. -/
theorem exists_written {n : Nchunks} (hn : n.u < 100) : ∃ enc fs,
    Written (sampleLibrary n) {sampleMessage n} (sampleAssembly n) sampleDraw enc fs := by
  have hhex := sampleLibrary_hexLawful n
  obtain ⟨encAt, decAt, hcomp⟩ := (sampleLibrary_ideal n).computes
  obtain ⟨enc, henc⟩ := exists_encrypt hcomp (sampleAssembly n).finish
    (KeyInformation.draw (reader config16 n) sampleDraw)
  have haid : enc.info.aid = (sampleAssembly n).aid := aid_encrypt henc
  obtain ⟨-, hfiles⟩ := extract_of_absent (a := enc) hhex emptyWorld.fs
    (workingIO_allWorks _) (by rw [haid]; exact length_aid_sample n)
    (by rw [haid]; exact noCollision_sample hn) fun _ _ => rfl
  rw [haid] at hfiles
  exact ⟨enc, _, henc, rfl, hfiles⟩

/-- 17 chunks -/
def chunks17 : Nchunks := ⟨17, by decide, by decide⟩

/-- An assembly of 17 chunks is restored with 17 chunks. -/
theorem restoreAssembly_nchunks_iff_simple :
    ∃ enc fs, Written (sampleLibrary chunks17) {sampleMessage chunks17} (sampleAssembly chunks17)
      sampleDraw enc fs ∧
    ∃ a', ((CoqEnvironmentReadable.init (reader (reader config16 chunks17) chunks17)).restoreAssembly
      (sampleLibrary chunks17) (numberedHost fun _ _ => allWorks) { emptyWorld with fs := fs }
      (sampleAssembly chunks17).aid
      (KeyInformation.draw (reader config16 chunks17) sampleDraw)).1.assembly = some a' := by
  obtain ⟨enc, fs, h⟩ := exists_written (n := chunks17) (by decide)
  obtain ⟨-, hiff⟩ := restoreAssembly_nchunks_iff (sampleLibrary_hexLawful _)
    (sampleLibrary_ideal _) (numberedHost fun _ _ => allWorks) _ _ enc
    { emptyWorld with fs := fs } h chunks17
  obtain ⟨-, a', ha', -⟩ := hiff.mpr rfl
  exact ⟨enc, fs, h, a', ha'⟩

/-- An assembly of 17 chunks is not restored with the 16 chunks of `LXRverify`. -/
theorem restoreAssembly_counterexample :
    ∃ enc fs, Written (sampleLibrary chunks17) {sampleMessage chunks17} (sampleAssembly chunks17)
      sampleDraw enc fs ∧
    ((CoqEnvironmentReadable.init (reader (reader config16 chunks17)
        config16.nchunks)).restoreAssembly
      (sampleLibrary chunks17) (numberedHost fun _ _ => allWorks) { emptyWorld with fs := fs }
      (sampleAssembly chunks17).aid
      (KeyInformation.draw (reader config16 chunks17) sampleDraw)).2.2 = false := by
  obtain ⟨enc, fs, h⟩ := exists_written (n := chunks17) (by decide)
  refine ⟨enc, fs, h, ?_⟩
  exact restoreAssembly_other (sampleLibrary_hexLawful _) (sampleLibrary_ideal _) _
    (w := { emptyWorld with fs := fs }) h fun heq => absurd (congrArg Nchunks.u heq) (by decide)

end Elykseer.Analysis
