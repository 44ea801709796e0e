import Mathlib.Algebra.Ring.Nat
import Mathlib.Data.List.Basic
import Mathlib.Data.List.Induction
import Mathlib.Data.List.TakeDrop

/-!
# Writing pieces into a buffer and into a file

`overwrite` replaces a run of cells of a buffer of fixed length; `writeAt` is the
write of a file that grows when written past its end, the gap being filled with a
given element; `overlay` performs a list of such writes in order.

Pieces that tile a content one after the other (`Tiles`) write exactly that content
over whatever the file held before (`overlayOn_tiles`).  Several contents written on
top of each other leave the last one if and only if none of the earlier ones is
longer (`stack_concat_eq_iff`).
-/

set_option autoImplicit false

namespace Elykseer.Foundation.Overlay

variable {α : Type*}

/-! ## Buffers of fixed length -/

/-- The `len` cells from `pos` on, fewer at the end of the list. -/
def slice (l : List α) (pos len : ℕ) : List α := (l.drop pos).take len

/-- Replace the cells from `pos` on by `d`. -/
def overwrite (l : List α) (pos : ℕ) (d : List α) : List α :=
  l.take pos ++ d ++ l.drop (pos + d.length)

/-- A slice inside the list has the requested length. -/
theorem length_slice {l : List α} {pos len : ℕ} (h : pos + len ≤ l.length) :
    (slice l pos len).length = len := by
  simp only [slice, List.length_take, List.length_drop]
  omega

/-- The cells of a slice. -/
theorem getElem?_slice (l : List α) (pos len i : ℕ) :
    (slice l pos len)[i]? = if i < len then l[pos + i]? else none := by
  unfold slice
  split
  · next h => rw [List.getElem?_take_of_lt h, List.getElem?_drop]
  · next h => rw [List.getElem?_take_eq_none (by omega)]

/-- Overwriting inside the buffer keeps its length. -/
theorem length_overwrite {l d : List α} {pos : ℕ} (h : pos + d.length ≤ l.length) :
    (overwrite l pos d).length = l.length := by
  simp only [overwrite, List.length_append, List.length_take, List.length_drop]
  omega

/-- The cells of an overwritten buffer: the new run, and the old cells around it. -/
theorem getElem?_overwrite {l d : List α} {pos : ℕ} (h : pos + d.length ≤ l.length) (i : ℕ) :
    (overwrite l pos d)[i]? =
      if pos ≤ i ∧ i < pos + d.length then d[i - pos]? else l[i]? := by
  have htake : (l.take pos).length = pos := by
    rw [List.length_take]
    omega
  unfold overwrite
  split
  · next hi =>
    rw [List.append_assoc, List.getElem?_append_right (by omega), htake,
      List.getElem?_append_left (by omega)]
  · next hi =>
    by_cases hlt : i < pos
    · rw [List.append_assoc, List.getElem?_append_left (by omega),
        List.getElem?_take_of_lt hlt]
    · rw [List.getElem?_append_right (by simp only [List.length_append]; omega),
        List.getElem?_drop]
      congr 1
      simp only [List.length_append]
      omega

/-! ## Files that grow -/

/-- Write `d` at `pos` into a file; a gap before `pos` is filled with `zero`, and an
empty write leaves the file as it is. -/
def writeAt (zero : α) (f : List α) (pos : ℕ) (d : List α) : List α :=
  if d = [] then f
  else (f ++ List.replicate (pos - f.length) zero).take pos ++ d ++ f.drop (pos + d.length)

/-- Perform a list of writes in order. -/
def overlayOn (zero : α) (f : List α) (ps : List (ℕ × List α)) : List α :=
  ps.foldl (fun f p => writeAt zero f p.1 p.2) f

/-- The content of a new file after a list of writes. -/
def overlay (zero : α) (ps : List (ℕ × List α)) : List α := overlayOn zero [] ps

/-- Without pieces nothing is written. -/
@[simp] theorem overlayOn_nil (zero : α) (f : List α) : overlayOn zero f [] = f := rfl

/-- The first piece is written first. -/
@[simp] theorem overlayOn_cons (zero : α) (f : List α) (p : ℕ × List α)
    (ps : List (ℕ × List α)) :
    overlayOn zero f (p :: ps) = overlayOn zero (writeAt zero f p.1 p.2) ps := rfl

/-- Two lists of writes, one after the other. -/
theorem overlayOn_append (zero : α) (f : List α) (ps qs : List (ℕ × List α)) :
    overlayOn zero f (ps ++ qs) = overlayOn zero (overlayOn zero f ps) qs := by
  simp [overlayOn, List.foldl_append]

/-- A write that starts inside the file replaces its run and keeps the rest. -/
theorem writeAt_of_le (zero : α) {f d : List α} {pos : ℕ} (hpos : pos ≤ f.length) :
    writeAt zero f pos d = overwrite f pos d := by
  unfold writeAt overwrite
  split
  · next hd => simp [hd]
  · rw [show pos - f.length = 0 by omega]
    simp

/-- Something is there after writing something. -/
theorem length_writeAt_pos (zero : α) (f : List α) (pos : ℕ) {d : List α} (hd : d ≠ []) :
    0 < (writeAt zero f pos d).length := by
  have hlen := List.length_pos_of_ne_nil hd
  rw [writeAt, if_neg hd, List.length_append, List.length_append]
  omega

/-- Only no writes leave a new file empty, if none is empty itself. -/
theorem overlay_eq_nil_iff (zero : α) {ps : List (ℕ × List α)} (hps : ∀ p ∈ ps, p.2 ≠ []) :
    overlay zero ps = [] ↔ ps = [] := by
  refine ⟨fun h => ?_, fun h => by rw [h]; rfl⟩
  rcases List.eq_nil_or_concat ps with rfl | ⟨qs, p, rfl⟩
  · rfl
  · rw [List.concat_eq_append] at h hps
    rw [overlay, overlayOn_append, overlayOn_cons, overlayOn_nil] at h
    have hpos := length_writeAt_pos zero (overlayOn zero [] qs) p.1 (hps p (by simp))
    rw [h] at hpos
    cases hpos

/-! ## Pieces that tile a content -/

/-- `Tiles pos ps c`: the pieces `ps`, all non-empty, lie back to back from `pos` on and
carry the content `c`. -/
inductive Tiles : ℕ → List (ℕ × List α) → List α → Prop
  | nil (pos : ℕ) : Tiles pos [] []
  | cons (pos : ℕ) (d : List α) {ps : List (ℕ × List α)} {c : List α} (hd : d ≠ [])
      (rest : Tiles (pos + d.length) ps c) : Tiles pos ((pos, d) :: ps) (d ++ c)

/-- Writing the tiles of a content replaces exactly the run the content covers. -/
theorem overlayOn_tiles (zero : α) {pos : ℕ} {ps : List (ℕ × List α)} {c : List α}
    (h : Tiles pos ps c) (f : List α) (hpos : pos ≤ f.length) :
    overlayOn zero f ps = overwrite f pos c := by
  induction h generalizing f with
  | nil pos => simp [overwrite]
  | cons pos d hd rest ih =>
    rw [overlayOn_cons, writeAt_of_le zero hpos]
    have htake : (f.take pos).length = pos := by
      rw [List.length_take]
      omega
    have hlen : pos + d.length ≤ (overwrite f pos d).length := by
      simp only [overwrite, List.length_append, htake]
      omega
    rw [ih _ hlen]
    have hfront : (overwrite f pos d).take (pos + d.length) = f.take pos ++ d := by
      unfold overwrite
      rw [List.take_left' (by simp only [List.length_append, htake])]
    have hback : ∀ k, (overwrite f pos d).drop (pos + d.length + k) =
        f.drop (pos + (d.length + k)) := by
      intro k
      unfold overwrite
      rw [← List.drop_drop, List.drop_left' (by simp only [List.length_append, htake]),
        List.drop_drop, Nat.add_assoc]
    unfold overwrite at hfront hback ⊢
    rw [hfront, hback, List.length_append, List.append_assoc (f.take pos)]

/-- The pieces of a tiling are non-empty. -/
theorem Tiles.ne_nil {pos : ℕ} {ps : List (ℕ × List α)} {c : List α} (h : Tiles pos ps c) :
    ∀ p ∈ ps, p.2 ≠ [] := by
  induction h with
  | nil pos => simp
  | cons pos d hd rest ih =>
    intro p hp
    rcases List.mem_cons.mp hp with rfl | hp
    · exact hd
    · exact ih p hp

/-- The pieces of a tiling are as long as the content together. -/
theorem Tiles.sum_length {pos : ℕ} {ps : List (ℕ × List α)} {c : List α} (h : Tiles pos ps c) :
    (ps.map fun p => p.2.length).sum = c.length := by
  induction h with
  | nil pos => rfl
  | cons pos d hd rest ih => rw [List.map_cons, List.sum_cons, ih, List.length_append]

/-! ## Contents on top of each other -/

/-- The file after writing the contents `vs` from its start on, one after the other. -/
def stack (vs : List (List α)) : List α := vs.foldl (fun f c => overwrite f 0 c) []

/-- Writing a content from the start keeps what lies behind it. -/
theorem overwrite_zero (f c : List α) : overwrite f 0 c = c ++ f.drop c.length := by
  simp [overwrite]

/-- One more content on top. -/
theorem stack_concat (vs : List (List α)) (c : List α) :
    stack (vs ++ [c]) = c ++ (stack vs).drop c.length := by
  simp [stack, List.foldl_append, overwrite_zero]

/-- One content stacked is this content. -/
theorem stack_singleton (c : List α) : stack [c] = c := by
  rw [← List.nil_append [c], stack_concat, show stack ([] : List (List α)) = [] from rfl,
    List.drop_nil, List.append_nil]

/-- The stacked file is no longer than a bound exactly when none of the contents is. -/
theorem length_stack_le_iff (vs : List (List α)) (m : ℕ) :
    (stack vs).length ≤ m ↔ ∀ v ∈ vs, v.length ≤ m := by
  induction vs using List.reverseRecOn with
  | nil => simp [stack]
  | append_singleton vs c ih =>
    rw [stack_concat]
    simp only [List.length_append, List.length_drop, List.mem_append, List.mem_singleton]
    constructor
    · intro h v hv
      rcases hv with hv | rfl
      · exact ih.mp (by omega) v hv
      · omega
    · intro h
      have h1 := ih.mpr fun v hv => h v (Or.inl hv)
      have h2 := h c (Or.inr rfl)
      omega

/-- The last content is what the file holds if and only if no earlier one is longer. -/
theorem stack_concat_eq_iff (vs : List (List α)) (c : List α) :
    stack (vs ++ [c]) = c ↔ ∀ v ∈ vs, v.length ≤ c.length := by
  rw [stack_concat, ← length_stack_le_iff]
  constructor
  · intro h
    have := congrArg List.length h
    simp only [List.length_append, List.length_drop] at this
    omega
  · intro h
    rw [List.drop_eq_nil_of_le h, List.append_nil]

end Elykseer.Foundation.Overlay
