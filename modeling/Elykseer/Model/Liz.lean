import Elykseer.Model.Buffer

/-!
# The texts of the program

The name, the version and the licence are kept as Base64, and decoded through a buffer on
the stack.  The buffer is not initialised: what is in it is a parameter.
-/

set_option autoImplicit false

namespace Elykseer.Model

/-- `_ch2idx`: one more than the value of an ASCII character, 0 if it has none -/
def ch2idx : List UInt8 := [
   0,  0,  0,  0,   0,  0,  0,  0,   0,  0,  0,  0,   0,  0,  0,  0,
   0,  0,  0,  0,   0,  0,  0,  0,   0,  0,  0,  0,   0,  0,  0,  0,
   0,  0,  0,  0,   0,  0,  0,  0,   0,  0,  0, 63,   0,  0,  0, 64,
  53, 54, 55, 56,  57, 58, 59, 60,  61, 62,  0,  0,   0,  1,  0,  0,
   0,  1,  2,  3,   4,  5,  6,  7,   8,  9, 10, 11,  12, 13, 14, 15,
  16, 17, 18, 19,  20, 21, 22, 23,  24, 25, 26,  0,   0,  0,  0,  0,
   0, 27, 28, 29,  30, 31, 32, 33,  34, 35, 36, 37,  38, 39, 40, 41,
  42, 43, 44, 45,  46, 47, 48, 49,  50, 51, 52,  0,   0,  0,  0,  0]

/-- `translate_ch2idx(in)`; the table ends at 128. -/
def translateCh2idx (c : UInt8) : Except Fault UInt8 :=
  match ch2idx[c.toNat]? with
  | none => .error .outOfBounds
  | some out => .ok (if out = 0 then 0 else out - 1)

/-- `buf` of `_decodeb64`, shifted before each of its characters; the first time it is 0. -/
def shiftIn : UInt32 → List UInt8 → Except Fault UInt32
  | buf, [] => .ok buf
  | buf, c :: cs =>
    match translateCh2idx c with
    | .error f => .error f
    | .ok v => shiftIn ((buf <<< 6) ||| v.toUInt32) cs

/-- The three bytes that are written at `writeout`. -/
def writeWord (outp : Bytes) (writeout : ℕ) (buf : UInt32) : Bytes :=
  ((outp.set (writeout + 2) (buf &&& 0xff).toUInt8).set (writeout + 1)
    ((buf >>> 8) &&& 0xff).toUInt8).set writeout ((buf >>> 8 >>> 8) &&& 0xff).toUInt8

/-- The loop of `_decodeb64`, on what is left of the text: `readin`, `writeout` and `outp`. -/
def decodeLoop (olen : ℕ) : ℕ → ℕ → Bytes → Bytes → Except Fault (ℕ × ℕ × Bytes)
  | readin, writeout, outp, a :: b :: c :: d :: rest =>
    if writeout + 3 ≤ olen then
      match shiftIn 0 [a, b, c, d] with
      | .error f => .error f
      | .ok buf =>
        decodeLoop olen (readin + 4)
          (writeout + 3 - (if c = 61 then 1 else 0) - (if d = 61 then 1 else 0))
          (writeWord outp writeout buf) rest
    else .ok (readin, writeout, outp)
  | readin, writeout, outp, _ => .ok (readin, writeout, outp)

/-- `_decodeb64(inp, ilen, outp, olen, nout)`: what it returns, `nout` and `outp` -/
def decodeInto (inp outp : Bytes) (olen : ℕ) : Except Fault (ℕ × ℕ × Bytes) :=
  decodeLoop olen 0 0 outp inp

/-- `BUFFSIZE` -/
def buffSize : ℕ := 1200

/-- The loop of `decodeb64`, with `res` so far and what is left of the text. -/
def decodeRest (buf res : Bytes) (rest : Bytes) : Except Fault Bytes :=
  if rest = [] then .ok res
  else
    match decodeInto rest buf buffSize with
    | .error f => .error f
    | .ok (lastread, nout, buf') =>
      if lastread = 0 then .ok res
      else decodeRest buf' (if 0 < nout then res ++ buf'.take nout else res) (rest.drop lastread)
termination_by rest.length
decreasing_by
  have hpos := List.length_pos_of_ne_nil ‹¬rest = []›
  rw [List.length_drop]
  omega

/-- `decodeb64(_enc)`; the size of the text is converted to `int`. -/
def decodeb64 (buf enc : Bytes) : Except Fault Bytes :=
  decodeRest buf [] (enc.take (i32 (enc.length % 4294967296)).toNat)

end Elykseer.Model
