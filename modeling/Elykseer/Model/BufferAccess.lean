import Elykseer.Model.Buffer

/-!
# The accesses of `CoqBuffer`

The operations of `CoqBuffer::pimpl` that copy memory, with every access to a range of
bytes checked: an access that leaves the buffer is the fault `outOfBounds`.  A `CoqBuffer`
is a pointer to its bytes, which is null after `encrypt` or `decrypt` has moved them
away; the forwarding functions look at the pointer, except those of `at`.
-/

set_option autoImplicit false

namespace Elykseer.Model

open Elykseer.Foundation

namespace CoqBuffer

variable {s t : EncryptionState}

/-- Reads `sz` bytes at `_buffer + pos`. -/
def readAt (b : CoqBuffer s) (pos sz : ℤ) : Except Fault Bytes :=
  match b.range? pos sz with
  | some d => .ok d
  | none => .error .outOfBounds

/-- Writes the bytes `d` at `_buffer + pos`. -/
def writeAt (b : CoqBuffer s) (pos : ℤ) (d : Bytes) : Except Fault (CoqBuffer s) :=
  if h : 0 ≤ pos ∧ pos.toNat + d.length ≤ b.bytes.length then
    .ok ⟨Overlay.overwrite b.bytes pos.toNat d, by
      rw [Overlay.length_overwrite h.2]; exact b.len_lt⟩
  else .error .outOfBounds

/-- `target.len()` -/
def lenOf (p : Option (CoqBuffer s)) : ℕ :=
  match p with
  | none => 0
  | some b => b.len

/-- `pimpl::copy_sz_pos(pos0, sz, target, pos1)`: the value returned and the target afterwards. -/
def copySzPos (b : CoqBuffer s) (pos0 sz : ℤ) (target : Option (CoqBuffer t)) (pos1 : ℤ) :
    Except Fault (ℤ × Option (CoqBuffer t)) :=
  if sz < 1 ∨ pos0 < 0 ∨ pos1 < 0 then .ok (0, target)
  else if b.len < u32 (sz + pos0) then .ok (-1, target)
  else if lenOf target < u32 (sz + pos1) then .ok (-2, target)
  else
    match target with
    | none => .ok (0, none)
    | some c =>
      if c.bytes = [] then .ok (0, some c)
      else
        (b.readAt pos0 sz).bind fun d =>
        (c.writeAt pos1 d).map fun c' => (sz, some c')

/-- `pimpl::fileout_sz_pos(pos, sz, fstr)`: the value returned and the bytes handed to `fwrite`. -/
def fileoutSzPos' (b : CoqBuffer s) (pos sz : ℤ) : Except Fault (ℤ × Bytes) :=
  if sz < 1 ∨ pos < 0 then .ok (0, [])
  else if b.len < u32 (sz + pos) then .ok (-1, [])
  else (b.readAt pos sz).map fun d => (sz, d)

/-- `pimpl::filein_sz_pos(pos, sz, fstr)` on a file with the given content; all of the range has to
be there, also if the file is shorter. -/
def fileinSzPos' (b : CoqBuffer s) (pos sz : ℤ) (content : Bytes) : Except Fault (ℤ × CoqBuffer s) :=
  if sz < 1 ∨ pos < 0 then .ok (0, b)
  else if b.len < u32 (sz + pos) then .ok (-1, b)
  else
    (b.readAt pos sz).bind fun _ =>
    (b.writeAt pos (content.take sz.toNat)).map fun b' => ((content.take sz.toNat).length, b')

/-- `pimpl::to_buffer(n, b)`: the value returned and the bytes copied. -/
def toBuffer (b : CoqBuffer s) (n : ℤ) : Except Fault (ℤ × Bytes) :=
  if b.len < u32 n then .ok (-1, [])
  else (b.readAt 0 n).map fun d => (n, d)

end CoqBuffer

/-! ## Calls -/

/-- What a call returns. -/
inductive BufferResult
  | byte (v : UInt8)
  | done
  | checksum (k : Option Key256)
  | value (v : ℤ)

/-- An empty result or a value that is not positive says that nothing was done. -/
def BufferResult.Refused : BufferResult → Prop
  | byte _ => False
  | done => False
  | checksum k => k = none
  | value v => v ≤ 0

/-- The calls of a buffer that access its memory, with the arguments as they are in the code; a
`FILE *` or `char *` may be null. -/
inductive BufferCall
  | at' (idx : UInt32)
  | setAt (idx : UInt32) (v : UInt8)
  | calcChecksum (offset dlen : Int32)
  | copySzPos (pos0 sz pos1 : Int32)
  | fileoutSzPos (pos sz : Int32) (fstr : Option Unit)
  | fileinSzPos (pos sz : Int32) (fstr : Option Bytes)
  | toBuffer (n : Int32) (b : Option Unit)

namespace BufferCall

variable {s t : EncryptionState}

/-- The forwarding functions of `CoqBuffer`: the buffer and the target afterwards, and the result
of the call. -/
def run (C : Crypto) (p : Option (CoqBuffer s)) (target : Option (CoqBuffer t)) :
    BufferCall → (Option (CoqBuffer s) × Option (CoqBuffer t)) × Except Fault BufferResult
  | at' idx =>
    match p with
    | none => ((p, target), .error .nullDereference)
    | some b => ((p, target), (b.at' idx.toNat).map .byte)
  | setAt idx v =>
    match p with
    | none => ((p, target), .error .nullDereference)
    | some b =>
      match b.setAt idx.toNat v with
      | .error f => ((p, target), .error f)
      | .ok b' => ((some b', target), .ok .done)
  | calcChecksum offset dlen =>
    match p with
    | none => ((p, target), .ok (.checksum none))
    | some b => ((p, target), (b.calcChecksumRange C offset.toInt dlen.toInt).map .checksum)
  | copySzPos pos0 sz pos1 =>
    match p with
    | none => ((p, target), .ok (.value (-1)))
    | some b =>
      match b.copySzPos pos0.toInt sz.toInt target pos1.toInt with
      | .error f => ((p, target), .error f)
      | .ok (v, target') => ((p, target'), .ok (.value v))
  | fileoutSzPos pos sz fstr =>
    match p, fstr with
    | some b, some _ =>
      ((p, target), (b.fileoutSzPos' pos.toInt sz.toInt).map fun r => .value r.1)
    | _, _ => ((p, target), .ok (.value (-1)))
  | fileinSzPos pos sz fstr =>
    match p, fstr with
    | some b, some content =>
      match b.fileinSzPos' pos.toInt sz.toInt content with
      | .error f => ((p, target), .error f)
      | .ok (v, b') => ((some b', target), .ok (.value v))
    | _, _ => ((p, target), .ok (.value (-1)))
  | toBuffer n dest =>
    match p, dest with
    | some b, some _ => ((p, target), (b.toBuffer n.toInt).map fun r => .value r.1)
    | _, _ => ((p, target), .ok (.value (-1)))

end BufferCall

end Elykseer.Model
