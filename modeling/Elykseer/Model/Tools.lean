import Elykseer.Model.Document
import Elykseer.Model.Restore

/-!
# The tools

`LXRbackup` backs up files with empty key and block stores, and with the file
information of an earlier run if it is given the files document of that run; it writes
a keys document and a files document.  `LXRrestore` reads any number of such documents,
one after the other, and restores files.  That the documents are encrypted with GnuPG
is left out.
-/

set_option autoImplicit false

namespace Elykseer.Model

open Elykseer.Foundation Elykseer.Foundation.Xml

variable {cfg : CoqConfiguration}

/-- How a tool ends early. -/
inductive Exit
  | fault (f : Fault)
  /-- `output_error()` -/
  | outputError
  deriving DecidableEq, Repr

/-- The documents of a backup run. -/
structure Documents where
  keys : Bytes
  files : Bytes

/-- A call of `LXRbackup`: the size of its cache, the files in the order they are backed up, and
what only shows in the documents. -/
structure BackupCall where
  nEnvs : ℕ
  depth : ℕ
  depth_pos : 1 ≤ depth
  files : List SourceFile
  keysOrigin : Origin
  filesOrigin : Origin
  keysOrder : HashOrder
  finfosOrder : HashOrder
  fblocksOrder : HashOrder

/-- `add_ref_dbfi(store, p)`, with the content of the file `p` -/
def addRefDbfi (C : Crypto) (readXml : Bytes → Except Bytes Ptree) (store : CoqFInfoStore)
    (p : Bytes) : Except Exit CoqFInfoStore :=
  let r := CoqFInfoStore.inStream C readXml store p
  if r.ok then .ok r.store else .error .outputError

/-- The file information `LXRbackup` starts with, from the files document it refers to. -/
def refFInfos (C : Crypto) (readXml : Bytes → Except Bytes Ptree) (ref : Option Bytes) :
    Except Exit CoqFInfoStore :=
  match ref with
  | none => .ok ∅
  | some p => addRefDbfi C readXml ∅ p

/-- The documents of the stores after a run. -/
def BackupCall.documents (C : Crypto) (call : BackupCall) (s : Session cfg) : Documents where
  keys := CoqKeyStore.outStream C call.keysOrigin call.keysOrder s.cache.keystore
  files := filesStream C call.filesOrigin call.finfosOrder call.fblocksOrder s.cache.finfostore
    s.cache.fblockstore

/-- `LXRbackup` -/
def lxrBackup (C : Crypto) (H : Host) (readXml : Bytes → Except Bytes Ptree)
    (cfg : CoqConfiguration) (w : World) (ref : Option Bytes) (call : BackupCall) :
    Except Exit (World × Documents) :=
  match refFInfos C readXml ref with
  | .error e => .error e
  | .ok finfos =>
    match (Session.init cfg call.nEnvs call.depth ∅ ∅ finfos w).backupRun C H call.files with
    | .error f => .error (.fault f)
    | .ok (s, _) => .ok (s.world, call.documents C s)

/-- A chain of backup runs, each of which refers to the files document of the one before. -/
def backupChain (C : Crypto) (H : Host) (readXml : Bytes → Except Bytes Ptree)
    (cfg : CoqConfiguration) :
    World → Option Bytes → List BackupCall → Except Exit (World × List Documents)
  | w, _, [] => .ok (w, [])
  | w, ref, call :: calls =>
    match lxrBackup C H readXml cfg w ref call with
    | .error e => .error e
    | .ok (w', docs) =>
      match backupChain C H readXml cfg w' (some docs.files) calls with
      | .error e => .error e
      | .ok (w'', rest) => .ok (w'', docs :: rest)

/-- A backup run, and the number of the earlier run whose files document it refers to. -/
structure PlannedRun where
  call : BackupCall
  ref : Option ℕ

/-- One more run, after runs that wrote the documents `st.2`. -/
def planStep (C : Crypto) (H : Host) (readXml : Bytes → Except Bytes Ptree)
    (cfg : CoqConfiguration) (st : World × List Documents) (r : PlannedRun) :
    Except Exit (World × List Documents) :=
  match lxrBackup C H readXml cfg st.1 ((r.ref.bind (st.2[·]?)).map (·.files)) r.call with
  | .error e => .error e
  | .ok (w', docs) => .ok (w', st.2 ++ [docs])

/-- Backup runs, each of which refers to the files document of any run before it, or of none. -/
def backupPlan (C : Crypto) (H : Host) (readXml : Bytes → Except Bytes Ptree)
    (cfg : CoqConfiguration) (w : World) (plan : List PlannedRun) :
    Except Exit (World × List Documents) :=
  plan.foldlM (planStep C H readXml cfg) (w, [])

/-- `add_dbfb_path(db, fp)`, with the content of the file `fp` -/
def addDbfbPath (C : Crypto) (readXml : Bytes → Except Bytes Ptree) (db : CoqFBlockStore)
    (fp : Bytes) : Except Exit CoqFBlockStore :=
  let r := CoqFBlockStore.inStream C readXml db fp
  if r.ok then .ok r.store else .error .outputError

/-- `add_dbkey_path(db, fp)`, with the content of the file `fp` -/
def addDbkeyPath (C : Crypto) (readXml : Bytes → Except Bytes Ptree) (db : CoqKeyStore)
    (fp : Bytes) : Except Exit CoqKeyStore :=
  let r := CoqKeyStore.inStream C readXml db fp
  if r.ok then .ok r.store else .error .outputError

/-- `LXRrestore` reads the documents of several runs, in order, into its stores. -/
def loadDocuments (C : Crypto) (readXml : Bytes → Except Bytes Ptree) :
    CoqKeyStore → CoqFBlockStore → List Documents → Except Exit (CoqKeyStore × CoqFBlockStore)
  | keys, fblocks, [] => .ok (keys, fblocks)
  | keys, fblocks, docs :: rest =>
    match addDbkeyPath C readXml keys docs.keys, addDbfbPath C readXml fblocks docs.files with
    | .ok keys', .ok fblocks' => loadDocuments C readXml keys' fblocks' rest
    | .error e, _ => .error e
    | _, .error e => .error e

end Elykseer.Model
