import Elykseer.Model.Assembly

/-!
# Environments

A writable environment holds the assembly that is being filled, if there is one, and
counts the assemblies that failed to be encrypted or extracted.  A readable
environment holds a decrypted assembly, if it has been restored.
-/

set_option autoImplicit false

namespace Elykseer.Model

open Elykseer.Foundation

variable {cfg : CoqConfiguration}

/-- `CoqEnvironment::rel_fname_fblocks` -/
abbrev RelFnameFblocks := List (Bytes × BlockInformation)

/-- `CoqEnvironment::rel_aid_keys` -/
abbrev RelAidKeys := List (Bytes × KeyInformation)

/-- `CoqEnvironmentWritable` -/
structure CoqEnvironmentWritable (cfg : CoqConfiguration) where
  assembly : Option (CoqAssemblyPlainWritable cfg)
  nFailed : ℕ

/-- `CoqEnvironmentReadable` -/
structure CoqEnvironmentReadable (cfg : CoqConfiguration) where
  assembly : Option (CoqAssemblyPlainFull cfg)

namespace CoqEnvironmentWritable

/-- `CoqEnvironmentWritable(c)` -/
def init (cfg : CoqConfiguration) : CoqEnvironmentWritable cfg := ⟨none, 0⟩

/-- `recreate_assembly()` -/
def recreateAssembly (C : Crypto) (H : Host) (e : CoqEnvironmentWritable cfg) (w : World) :
    CoqEnvironmentWritable cfg × World :=
  ({ e with assembly := some (CoqAssemblyPlainWritable.create C cfg (H.assembly w.nassembly)) },
    { w with nassembly := w.nassembly + 1 })

/-- `finalise_assembly()` -/
def finaliseAssembly (C : Crypto) (H : Host) (e : CoqEnvironmentWritable cfg) (w : World) :
    CoqEnvironmentWritable cfg × World × Option (Bytes × KeyInformation) :=
  match e.assembly with
  | none => (e, w, none)
  | some a =>
    if a.apos ≤ headerLen cfg.nchunks then ({ e with assembly := none }, w, none)
    else
      let d := H.finalise w.nfinalise
      let w' := { w with nfinalise := w.nfinalise + 1 }
      let ki := KeyInformation.draw cfg d
      let failed : CoqEnvironmentWritable cfg := ⟨none, (e.nFailed + 1) % 4294967296⟩
      match a.finish.encrypt C ki with
      | none => (failed, { w' with clog := w.clog ++ [.failedToEncrypt a.aid] }, none)
      | some enc =>
        let r := enc.extract C d.io w.fs
        if r.2 ≠ assemblysize cfg.nchunks then
          (failed, { w' with fs := r.1, clog := w.clog ++ [.failedToExtract a.aid r.2] }, none)
        else ({ e with assembly := none }, { w' with fs := r.1 }, some (a.aid, ki))

/-- `finalise_and_recreate_assembly()` -/
def finaliseAndRecreateAssembly (C : Crypto) (H : Host) (e : CoqEnvironmentWritable cfg)
    (w : World) : CoqEnvironmentWritable cfg × World × Option (Bytes × KeyInformation) :=
  let r := e.finaliseAssembly C H w
  let r' := r.1.recreateAssembly C H r.2.1
  (r'.1, r'.2, r.2.2)

/-- The part of `backup` behind the rollover: the block is refused or written to the
assembly that is there now. -/
def backupInto (C : Crypto) (e : CoqEnvironmentWritable cfg) (w : World) (kis : RelAidKeys)
    (fname : Bytes) (fpos : ℕ) (b : CoqBuffer .plain) (dlen : ℕ) :
    Except Fault (CoqEnvironmentWritable cfg × World × RelFnameFblocks × RelAidKeys) :=
  match e.assembly with
  | none => .error .nullDereference
  | some a =>
    if a.afree < i32 dlen then
      .ok (e, { w with clog := w.clog ++ [.doesNotFit dlen] }, [], kis)
    else
      let r := a.backup C b 0 dlen
      match r.2 with
      | .error f => .error f
      | .ok bi =>
        .ok ({ e with assembly := some r.1 }, w, [(fname, { bi with filepos := fpos })], kis)

/-- `backup(fname, fpos, b, dlen)` -/
def backup (C : Crypto) (H : Host) (e : CoqEnvironmentWritable cfg) (w : World) (fname : Bytes)
    (fpos : ℕ) (b : CoqBuffer .plain) (dlen : ℕ) :
    Except Fault (CoqEnvironmentWritable cfg × World × RelFnameFblocks × RelAidKeys) :=
  match e.assembly with
  | none => .ok (e, w, [], [])
  | some a =>
    if b.len < dlen then .ok (e, w, [], [])
    else if a.afree < i32 dlen then
      let r := e.finaliseAndRecreateAssembly C H w
      r.1.backupInto C r.2.1 r.2.2.toList fname fpos b dlen
    else e.backupInto C w [] fname fpos b dlen

/-- A call of `backup` with the whole of a buffer. -/
structure BackupCall where
  fname : Bytes
  fpos : ℕ
  b : CoqBuffer .plain

/-- A sequence of `backup` calls, with what each returns. -/
def backups (C : Crypto) (H : Host) :
    CoqEnvironmentWritable cfg → World → List BackupCall →
      Except Fault (CoqEnvironmentWritable cfg × World × List (RelFnameFblocks × RelAidKeys))
  | e, w, [] => .ok (e, w, [])
  | e, w, call :: rest =>
    match e.backup C H w call.fname call.fpos call.b call.b.len with
    | .error f => .error f
    | .ok (e', w', fbs, kis) =>
      match backups C H e' w' rest with
      | .error f => .error f
      | .ok (e'', w'', rs) => .ok (e'', w'', (fbs, kis) :: rs)

end CoqEnvironmentWritable

namespace CoqEnvironmentReadable

/-- `CoqEnvironmentReadable(c)` -/
def init (cfg : CoqConfiguration) : CoqEnvironmentReadable cfg := ⟨none⟩

/-- `restore_assembly(aid, ki)` -/
def restoreAssembly (C : Crypto) (H : Host) (e : CoqEnvironmentReadable cfg) (w : World)
    (aid : Bytes) (ki : KeyInformation) : CoqEnvironmentReadable cfg × World × Bool :=
  if supportedFormat ki.version then
    let r := CoqAssemblyEncrypted.recall C cfg aid H.mkdir w.fs
    match r.2.bind fun a => a.decrypt C ki with
    | none => (e, { w with fs := r.1 }, false)
    | some a => (⟨some a⟩, { w with fs := r.1 }, true)
  else (e, { w with clog := w.clog ++ [.unsupportedFormat aid ki.version] }, false)

end CoqEnvironmentReadable

end Elykseer.Model
