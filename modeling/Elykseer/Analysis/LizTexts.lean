import Elykseer.Foundation.Base64
import Elykseer.Model.Document
import Elykseer.Model.Liz

/-!
# Decoding the texts

The decoder goes through a buffer of 1200 bytes, again and again until the text is read.
Neither the size of the buffer nor what is in it can be seen in the result: it is the
Base64 decoding of the text (`decodeb64_eq`).  The table of the values has 128 entries
only, so characters beyond ASCII are looked up outside of it.
-/

set_option autoImplicit false

namespace Elykseer.Analysis

open Elykseer.Model Elykseer.Foundation

/-! ## Characters -/

/-- The value of a character; 0 for those that have none, and for `=`. -/
def charValue (c : UInt8) : ℕ := ((ch2idx[c.toNat]?).getD 0).toNat - 1

/-- The value of a digit is looked up in the table. -/
theorem charValue_digit : ∀ d < 64, charValue (Base64.digit d) = d := by decide

/-- Digits are ASCII characters. -/
theorem digit_lt : ∀ d < 64, Base64.digit d < 128 := by decide

/-- The padding character counts as zero. -/
theorem charValue_pad : charValue Base64.pad = 0 := rfl

/-- No entry of the table is above 64. -/
theorem ch2idx_le : ∀ x ∈ ch2idx, x.toNat ≤ 64 := by decide +kernel

/-- The value of a character has six bits. -/
theorem charValue_lt (c : UInt8) : charValue c < 64 := by
  unfold charValue
  cases hfind : ch2idx[c.toNat]? with
  | none => decide
  | some x =>
    have hx := ch2idx_le x (List.mem_of_getElem? hfind)
    rw [Option.getD_some]
    omega

/-- ASCII characters are looked up in the table, others are out of its bounds. -/
theorem translateCh2idx_eq (c : UInt8) : translateCh2idx c =
    if c < 128 then .ok (charValue c).toUInt8 else .error .outOfBounds := by
  unfold translateCh2idx charValue
  by_cases hc : c < 128
  · have hlt : c.toNat < ch2idx.length := UInt8.lt_iff_toNat_lt.mp hc
    rw [if_pos hc, List.getElem?_eq_getElem hlt, Option.getD_some]
    dsimp only
    split
    · next hzero =>
      rw [hzero]
      rfl
    · next hne =>
      have hpos : 1 ≤ ch2idx[c.toNat] := by
        rw [UInt8.le_iff_toNat_le]
        exact Nat.pos_of_ne_zero fun h0 => hne (UInt8.toNat_inj.mp h0)
      have hsub : (ch2idx[c.toNat] - 1).toNat = ch2idx[c.toNat].toNat - 1 :=
        UInt8.toNat_sub_of_le _ _ hpos
      rw [← hsub]
      exact congrArg Except.ok UInt8.ofNat_toNat.symm
  · have hge : ch2idx.length ≤ c.toNat := Nat.not_lt.mp fun h => hc (UInt8.lt_iff_toNat_lt.mpr h)
    rw [if_neg hc, List.getElem?_eq_none hge]

/-! ## Four characters -/

/-- Shifting in a value of six bits does not overflow below `2^26`. -/
theorem toNat_shiftLeft_or {buf : UInt32} {v : ℕ} (hbuf : buf.toNat < 67108864) (hv : v < 64) :
    ((buf <<< 6) ||| v.toUInt8.toUInt32).toNat = buf.toNat * 64 + v := by
  have hsmall : v.toUInt8.toUInt32.toNat = v := by
    rw [UInt8.toNat_toUInt32]
    exact UInt8.toNat_ofNat'.trans (Nat.mod_eq_of_lt (by omega))
  have hshift : (buf <<< 6).toNat = buf.toNat <<< 6 := by
    rw [UInt32.toNat_shiftLeft]
    change buf.toNat <<< 6 % 4294967296 = buf.toNat <<< 6
    rw [Nat.shiftLeft_eq]
    omega
  rw [UInt32.toNat_or, hsmall, hshift, ← Nat.shiftLeft_add_eq_or_of_lt hv, Nat.shiftLeft_eq]

/-- The number that the characters `cs` add to `n`. -/
def number (n : ℕ) (cs : Bytes) : ℕ := cs.foldl (fun n c => n * 64 + charValue c) n

/-- Up to four characters fit into `buf`. -/
theorem shiftIn_eq {buf : UInt32} {k : ℕ} {cs : Bytes} (hbuf : buf.toNat < 64 ^ k)
    (hk : k + cs.length ≤ 4) (hcs : ∀ c ∈ cs, c < 128) :
    ∃ buf', shiftIn buf cs = .ok buf' ∧ buf'.toNat = number buf.toNat cs := by
  induction cs generalizing buf k with
  | nil => exact ⟨buf, rfl, rfl⟩
  | cons c cs ih =>
    have hv := charValue_lt c
    rw [List.length_cons] at hk
    have hpow : 64 ^ k ≤ 64 ^ 3 := Nat.pow_le_pow_right (by omega) (by omega)
    have hroom : buf.toNat < 67108864 := by omega
    have hstep := toNat_shiftLeft_or hroom hv
    have hnext : ((buf <<< 6) ||| (charValue c).toUInt8.toUInt32).toNat < 64 ^ (k + 1) := by
      rw [hstep, Nat.pow_succ]
      omega
    obtain ⟨buf', hshift, hnat⟩ := ih hnext (by omega) fun c hc => hcs c (List.mem_cons_of_mem _ hc)
    rw [hstep] at hnat
    refine ⟨buf', ?_, hnat⟩
    rw [shiftIn, translateCh2idx_eq, if_pos (hcs c List.mem_cons_self)]
    exact hshift

/-- The number in `buf` after four characters. -/
theorem shiftIn_four {a b c d : UInt8} (h : [a, b, c, d].all (· < 128) = true) :
    ∃ buf, shiftIn 0 [a, b, c, d] = .ok buf ∧ buf.toNat = Base64.word charValue a b c d := by
  have hzero : (0 : UInt32).toNat < 64 ^ 0 := Nat.zero_lt_one
  have hlen : 0 + [a, b, c, d].length ≤ 4 := Nat.le_refl 4
  obtain ⟨buf, hshift, hnat⟩ := shiftIn_eq hzero hlen fun x hx =>
    of_decide_eq_true (List.all_eq_true.mp h x hx)
  refine ⟨buf, hshift, hnat.trans ?_⟩
  change (((0 * 64 + charValue a) * 64 + charValue b) * 64 + charValue c) * 64 + charValue d =
    Base64.word charValue a b c d
  rw [Base64.word, Nat.zero_mul, Nat.zero_add]

/-- A character that is not ASCII is a fault. -/
theorem shiftIn_error {buf : UInt32} {cs : Bytes} (hcs : ¬ cs.all (· < 128) = true) :
    shiftIn buf cs = .error .outOfBounds := by
  induction cs generalizing buf with
  | nil => exact absurd rfl hcs
  | cons c cs ih =>
    rw [shiftIn, translateCh2idx_eq]
    by_cases hc : c < 128
    · rw [if_pos hc]
      exact ih fun hall => hcs (by rw [List.all_cons, hall, decide_eq_true hc]; rfl)
    · rw [if_neg hc]

/-- What the three writes leave in the buffer. -/
theorem writeWord_eq {outp : Bytes} {writeout : ℕ} (h : writeout + 3 ≤ outp.length) (buf : UInt32) :
    writeWord outp writeout buf =
      outp.take writeout ++ Base64.wordBytes buf.toNat ++ outp.drop (writeout + 3) := by
  have hbyte : ∀ x : UInt32, (x &&& 0xff).toUInt8 = x.toNat.toUInt8 := by
    intro x
    rw [← UInt8.toNat_inj, UInt32.toNat_toUInt8, UInt32.toNat_and]
    change (x.toNat &&& 2 ^ 8 - 1) % 2 ^ 8 = x.toNat.toUInt8.toNat
    rw [Nat.and_two_pow_sub_one_eq_mod, Nat.mod_mod]
    exact UInt8.toNat_ofNat'.symm
  have hshift : ∀ x : UInt32, (x >>> 8).toNat = x.toNat / 256 := by
    intro x
    rw [UInt32.toNat_shiftRight]
    exact Nat.shiftRight_eq_div_pow x.toNat 8
  obtain ⟨b, c, d, rest, hdrop⟩ : ∃ b c d rest, outp.drop writeout = b :: c :: d :: rest := by
    have hlen : 3 ≤ (outp.drop writeout).length := by
      rw [List.length_drop]
      omega
    rcases hd : outp.drop writeout with _ | ⟨b, _ | ⟨c, _ | ⟨d, rest⟩⟩⟩
    · simp [hd] at hlen
    · simp [hd] at hlen
    · simp [hd] at hlen
    · exact ⟨b, c, d, rest, rfl⟩
  have hrest : outp.drop (writeout + 3) = rest := by
    rw [← List.drop_drop, hdrop]
    rfl
  have hlen : (outp.take writeout).length = writeout := by
    rw [List.length_take]
    omega
  have hset : ∀ (t : Bytes) (i : ℕ) (x : UInt8), (outp.take writeout ++ t).set (writeout + i) x =
      outp.take writeout ++ t.set i x := by
    intro t i x
    rw [List.set_append_right _ _ (by omega), hlen, Nat.add_sub_cancel_left]
  have h0 := hset (b :: c :: d :: rest)
  rw [← hdrop, List.take_append_drop, hdrop] at h0
  rw [writeWord, h0, hset, hrest]
  have hlast := hset (((b :: c :: d :: rest).set 2 (buf &&& 0xff).toUInt8).set 1
    ((buf >>> 8) &&& 0xff).toUInt8) 0
  rw [Nat.add_zero] at hlast
  rw [hlast, hbyte, hbyte, hbyte, hshift, hshift, hshift, Nat.div_div_eq_div_mul,
    List.append_assoc]
  rfl

/-! ## The loops -/

/-- The decoding of a text that is looked up four characters at a time. -/
def decodeText : Bytes → Except Fault Bytes
  | a :: b :: c :: d :: rest =>
    if [a, b, c, d].all (· < 128) then
      (decodeText rest).map
        ((Base64.wordBytes (Base64.word charValue a b c d)).take (Base64.kept c d) ++ ·)
    else .error .outOfBounds
  | _ => .ok []

/-- A text without four characters in front has less than four. -/
theorem length_lt_four {text : Bytes}
    (h : ∀ a b c d rest, text = a :: b :: c :: d :: rest → False) :
    text.length < 4 := by
  rcases text with _ | ⟨a, _ | ⟨b, _ | ⟨c, _ | ⟨d, rest⟩⟩⟩⟩
  · simp
  · simp
  · simp
  · simp
  · exact absurd rfl (h a b c d rest)

/-- Less than four characters are dropped. -/
theorem decodeText_short {text : Bytes} (h : text.length < 4) : decodeText text = .ok [] := by
  match text with
  | [] | [_] | [_, _] | [_, _, _] => rfl
  | _ :: _ :: _ :: _ :: _ =>
    simp only [List.length_cons] at h
    omega

/-- The loop stops at less than four characters. -/
theorem decodeLoop_short {text : Bytes} (h : text.length < 4) (olen readin writeout : ℕ)
    (outp : Bytes) : decodeLoop olen readin writeout outp text = .ok (readin, writeout, outp) := by
  match text with
  | [] | [_] | [_, _] | [_, _, _] => rfl
  | _ :: _ :: _ :: _ :: _ =>
    simp only [List.length_cons] at h
    omega

/-- The buffer after four characters. -/
theorem take_writeWord {outp : Bytes} {writeout : ℕ} (h : writeout + 3 ≤ outp.length)
    (buf : UInt32) (c d : UInt8) :
    (writeWord outp writeout buf).length = outp.length ∧
      (writeWord outp writeout buf).take (writeout + Base64.kept c d) =
        outp.take writeout ++ (Base64.wordBytes buf.toNat).take (Base64.kept c d) := by
  have hlen : (outp.take writeout).length = writeout := by
    rw [List.length_take]
    omega
  have hkept : Base64.kept c d ≤ (Base64.wordBytes buf.toNat).length := Base64.kept_le c d
  rw [writeWord_eq h]
  constructor
  · rw [List.length_append, List.length_append, hlen, List.length_drop]
    change writeout + 3 + (outp.length - (writeout + 3)) = outp.length
    omega
  · rw [List.append_assoc, List.take_append, hlen, Nat.add_sub_cancel_left,
      List.take_of_length_le (by omega), List.take_append_of_le_length hkept]

/-- Putting something in front twice is doing so once. -/
theorem map_append_map (as bs : Bytes) (r : Except Fault Bytes) :
    (r.map (bs ++ ·)).map (as ++ ·) = r.map (as ++ bs ++ ·) := by
  cases r with
  | error f => rfl
  | ok cs => exact congrArg Except.ok (List.append_assoc as bs cs).symm

/-- What a filling of the buffer, which held `out` before, leaves to do: the text from `k` on,
unless it stops at once, with less than four characters or no room. -/
def Fills (olen : ℕ) (text out : Bytes) (readin writeout : ℕ) :
    Except Fault (ℕ × ℕ × Bytes) → Prop
  | .error f => f = .outOfBounds ∧ decodeText text = .error .outOfBounds
  | .ok (readin', writeout', outp') => ∃ k new, readin' = readin + k ∧ outp'.length = olen ∧
      outp'.take writeout' = out ++ new ∧
      decodeText text = (decodeText (text.drop k)).map (new ++ ·) ∧
      (k = 0 → text.length < 4 ∨ olen < writeout + 3)

/-- The loop may stop without reading when there is no text or no room left. -/
theorem Fills.stop {olen : ℕ} {text outp : Bytes} {readin writeout : ℕ} (houtp : outp.length = olen)
    (hwhy : text.length < 4 ∨ olen < writeout + 3) :
    Fills olen text (outp.take writeout) readin writeout (.ok (readin, writeout, outp)) := by
  refine ⟨0, [], rfl, houtp, (List.append_nil _).symm, ?_, fun _ => hwhy⟩
  rw [List.drop_zero]
  cases decodeText text <;> rfl

/-- **One filling of the buffer.** -/
theorem decodeLoop_fills (olen : ℕ) (text : Bytes) (readin writeout : ℕ) (outp : Bytes)
    (houtp : outp.length = olen) :
    Fills olen text (outp.take writeout) readin writeout
      (decodeLoop olen readin writeout outp text) := by
  induction text using decodeText.induct generalizing readin writeout outp with
  | case1 a b c d rest hascii ih =>
    rw [decodeLoop]
    by_cases hroom : writeout + 3 ≤ olen
    · obtain ⟨buf, hshift, hnat⟩ := shiftIn_four hascii
      obtain ⟨hlen, htake⟩ := take_writeWord (houtp ▸ hroom) buf c d
      have hkept : writeout + 3 - (if c = 61 then 1 else 0) - (if d = 61 then 1 else 0) =
          writeout + Base64.kept c d := by
        unfold Base64.kept Base64.pad
        split <;> split <;> omega
      rw [if_pos hroom, hshift, hkept]
      dsimp only
      have hrest := ih (readin + 4) (writeout + Base64.kept c d) (writeWord outp writeout buf)
        (hlen.trans houtp)
      rw [htake, hnat] at hrest
      cases hloop : decodeLoop olen (readin + 4) (writeout + Base64.kept c d)
          (writeWord outp writeout buf) rest with
      | error f =>
        rw [hloop] at hrest
        obtain ⟨rfl, herror⟩ := hrest
        refine ⟨rfl, ?_⟩
        rw [decodeText, if_pos hascii, herror]
        rfl
      | ok r =>
        rw [hloop] at hrest
        obtain ⟨k, new, hread, hlen', htake', htext, -⟩ := hrest
        refine ⟨k + 4, (Base64.wordBytes (Base64.word charValue a b c d)).take (Base64.kept c d) ++
          new, ?_, hlen', ?_, ?_, fun h => by omega⟩
        · rw [hread]
          omega
        · rw [htake', List.append_assoc]
        · rw [decodeText, if_pos hascii, htext]
          exact map_append_map _ _ _
    · rw [if_neg hroom]
      exact Fills.stop houtp (.inr (by omega))
  | case2 a b c d rest hascii =>
    rw [decodeLoop]
    by_cases hroom : writeout + 3 ≤ olen
    · rw [if_pos hroom, shiftIn_error hascii]
      exact ⟨rfl, by rw [decodeText, if_neg hascii]⟩
    · rw [if_neg hroom]
      exact Fills.stop houtp (.inr (by omega))
  | case3 text hshort =>
    have hlt := length_lt_four hshort
    rw [decodeLoop_short hlt]
    exact Fills.stop houtp (.inl hlt)

/-- **The loop over the buffer** decodes the text, whatever is in the buffer. -/
theorem decodeRest_eq (buf res rest : Bytes) (hbuf : buf.length = buffSize) :
    decodeRest buf res rest = (decodeText rest).map (res ++ ·) := by
  induction hn : rest.length using Nat.strong_induction_on generalizing buf res rest with
  | _ n ih =>
    subst hn
    rw [decodeRest]
    by_cases hnil : rest = []
    · rw [if_pos hnil, hnil]
      exact congrArg Except.ok (List.append_nil res).symm
    rw [if_neg hnil]
    have hfills := decodeLoop_fills buffSize rest 0 0 buf hbuf
    cases hloop : decodeInto rest buf buffSize with
    | error f =>
      rw [show decodeLoop buffSize 0 0 buf rest = .error f from hloop] at hfills
      obtain ⟨rfl, herror⟩ := hfills
      rw [herror]
      rfl
    | ok r =>
      obtain ⟨lastread, nout, buf'⟩ := r
      rw [show decodeLoop buffSize 0 0 buf rest = .ok (lastread, nout, buf') from hloop] at hfills
      obtain ⟨k, new, hread, hlen, htake, htext, hstop⟩ := hfills
      rw [Nat.zero_add] at hread
      subst hread
      dsimp only
      by_cases hzero : lastread = 0
      · rw [if_pos hzero]
        rcases hstop hzero with hshort | hfull
        · rw [decodeText_short hshort]
          exact congrArg Except.ok (List.append_nil res).symm
        · exact absurd hfull (by decide)
      · have hres : (if 0 < nout then res ++ buf'.take nout else res) = res ++ new := by
          rw [List.take_zero, List.nil_append] at htake
          split
          · rw [htake]
          · next hnout =>
            rw [Nat.eq_zero_of_not_pos hnout, List.take_zero] at htake
            rw [← htake, List.append_nil]
        have hpos := List.length_pos_of_ne_nil hnil
        rw [if_neg hzero, hres, htext, map_append_map]
        exact ih _ (by rw [List.length_drop]; omega) buf' _ _ hlen rfl

/-- The characters that are looked up: all but up to three at the end. -/
def lookedUp (text : Bytes) : Bytes := text.take (text.length / 4 * 4)

/-- Four characters in front are looked up, and then those of the rest. -/
theorem lookedUp_cons (a b c d : UInt8) (rest : Bytes) :
    lookedUp (a :: b :: c :: d :: rest) = [a, b, c, d] ++ lookedUp rest := by
  have hlen : (a :: b :: c :: d :: rest).length / 4 * 4 = rest.length / 4 * 4 + 4 := by
    simp only [List.length_cons]
    omega
  rw [lookedUp, hlen]
  rfl

/-- The text is decoded if all characters that are looked up are ASCII. -/
theorem decodeText_eq (text : Bytes) :
    decodeText text =
      if (lookedUp text).all (· < 128) then .ok (Base64.decode charValue text)
      else .error .outOfBounds := by
  induction text using decodeText.induct with
  | case1 a b c d rest hascii ih =>
    rw [decodeText, if_pos hascii, ih, lookedUp_cons, List.all_append, hascii, Bool.true_and,
      Base64.decode]
    split <;> rfl
  | case2 a b c d rest hascii =>
    rw [decodeText, if_neg hascii, lookedUp_cons, List.all_append,
      Bool.eq_false_of_not_eq_true hascii]
    rfl
  | case3 text hshort =>
    have hlt : text.length < 4 := length_lt_four hshort
    have hnone : lookedUp text = [] := by
      rw [lookedUp, Nat.div_eq_of_lt hlt]
      rfl
    rw [decodeText_short hlt, hnone, List.all_nil, if_pos rfl]
    rcases text with _ | ⟨a, _ | ⟨b, _ | ⟨c, _ | ⟨d, rest⟩⟩⟩⟩
    · rfl
    · rfl
    · rfl
    · rfl
    · exact absurd rfl (hshort a b c d rest)

/-- Decoding through a buffer is decoding the text. -/
theorem decodeb64_eq_decodeText {buf enc : Bytes} (hbuf : buf.length = buffSize)
    (henc : enc.length < 2147483648) : decodeb64 buf enc = decodeText enc := by
  have htake : enc.take (i32 (enc.length % 4294967296)).toNat = enc := by
    rw [Nat.mod_eq_of_lt (by omega), i32_of_lt henc, Int.toNat_natCast, List.take_length]
  rw [decodeb64, htake, decodeRest_eq buf [] enc hbuf]
  cases decodeText enc <;> rfl

/-- Decoding what was encoded gives the bytes back. -/
theorem decodeText_encode (bs : Bytes) : decodeText (Base64.encode bs) = .ok bs := by
  have hascii : (lookedUp (Base64.encode bs)).all (· < 128) = true := by
    refine List.all_eq_true.mpr fun c hc => decide_eq_true ?_
    rcases Base64.mem_encode (List.mem_of_mem_take hc) with rfl | ⟨d, hd, rfl⟩
    · decide
    · exact digit_lt d hd
  rw [decodeText_eq, if_pos hascii, Base64.decode_encode charValue_digit charValue_pad]

/-- `Liz::name()` -/
theorem decodeb64_name {buf : Bytes} (hbuf : buf.length = buffSize) :
    decodeb64 buf (ascii "TFhS") = .ok lizName := by
  have hname : ascii "TFhS" = Base64.encode lizName := by decide +kernel
  rw [decodeb64_eq_decodeText hbuf (by decide), hname, decodeText_encode]

/-- `Liz::version()` -/
theorem decodeb64_version {buf : Bytes} (hbuf : buf.length = buffSize) :
    decodeb64 buf (ascii "VmVyc2lvbiA1LjAuMA==") = .ok lizVersion := by
  have hversion : ascii "VmVyc2lvbiA1LjAuMA==" = Base64.encode lizVersion := by decide +kernel
  rw [decodeb64_eq_decodeText hbuf (by decide), hversion, decodeText_encode]

/-! ## Results -/

/-- **The buffer cannot be seen.**  Whatever is in it, a text is decoded as Base64, without up to
three characters at the end, unless one of the others is not ASCII: then the table is read outside
of its bounds. -/
theorem decodeb64_eq (buf enc : Bytes) (hbuf : buf.length = buffSize)
    (henc : enc.length < 2147483648) :
    decodeb64 buf enc =
      if (lookedUp enc).all (· < 128) then .ok (Base64.decode charValue enc)
      else .error .outOfBounds := by
  rw [decodeb64_eq_decodeText hbuf henc, decodeText_eq]

/-- A text of 2001 characters, which fills the buffer once and overwrites a part of it. -/
theorem decodeb64_eq_simple :
    decodeb64 (List.replicate buffSize 7)
        ((List.replicate 500 (ascii "TFhS")).flatten ++ ascii "!") =
      .ok (List.replicate 500 (ascii "LXR")).flatten :=
  (decodeb64_eq _ _ List.length_replicate (by decide +kernel)).trans (by decide +kernel)

/-- **Round trip.**  Of any length, what was encoded is decoded again. -/
theorem decodeb64_encode (buf bs : Bytes) (hbuf : buf.length = buffSize)
    (hlen : (Base64.encode bs).length < 2147483648) :
    decodeb64 buf (Base64.encode bs) = .ok bs := by
  rw [decodeb64_eq_decodeText hbuf hlen, decodeText_encode]

/-- A text of 13 characters is encoded and decoded again. -/
theorem decodeb64_encode_simple :
    decodeb64 (List.replicate buffSize 0) (Base64.encode (ascii "Version 5.0.0")) =
      .ok (ascii "Version 5.0.0") :=
  decodeb64_encode _ _ List.length_replicate (by decide)

end Elykseer.Analysis
