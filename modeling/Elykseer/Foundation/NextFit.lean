import Mathlib.Data.List.Basic
import Mathlib.Data.List.Pairwise

/-!
# Next-fit placement

Items of given lengths go into bins that offer the positions `[lo, hi)`.  An item is
placed right behind its predecessor if it fits there, else at the start of the next
bin; an item that fits into no bin is refused, after the next bin has been opened.

`placeAll` gives the slot of every item and the next free slot.  Slots of one bin lie
back to back (`contiguous_placeAll`), hence are disjoint (`pairwise_placeAll`), and
every slot lies inside `[lo, hi)` (`bounds_placeAll`).
-/

set_option autoImplicit false

namespace Elykseer.Foundation.NextFit

/-- A position in a bin; bins are numbered in the order they are opened. -/
structure Slot where
  bin : ℕ
  pos : ℕ
  deriving DecidableEq, Repr

/-- Place one item of length `len`, the next free slot being `s`: the item's slot, if it
is not refused, and the next free slot behind it. -/
def place (lo hi : ℕ) (s : Slot) (len : ℕ) : Option Slot × Slot :=
  if s.pos + len ≤ hi then (some s, ⟨s.bin, s.pos + len⟩)
  else if lo + len ≤ hi then (some ⟨s.bin + 1, lo⟩, ⟨s.bin + 1, lo + len⟩)
  else (none, ⟨s.bin + 1, lo⟩)

/-- Place items in order. -/
def placeAll (lo hi : ℕ) : Slot → List ℕ → List (Option Slot) × Slot
  | s, [] => ([], s)
  | s, len :: rest =>
    let first := place lo hi s len
    let others := placeAll lo hi first.2 rest
    (first.1 :: others.1, others.2)

/-- The placed items in order, each with its slot and its length. -/
def placed (lo hi : ℕ) (s : Slot) (lens : List ℕ) : List (Slot × ℕ) :=
  ((placeAll lo hi s lens).1.zip lens).filterMap fun p => p.1.map fun slot => (slot, p.2)

/-- Intervals that lie back to back from `start` on. -/
def Contiguous : ℕ → List (ℕ × ℕ) → Prop
  | _, [] => True
  | start, p :: rest => p.1 = start ∧ Contiguous (start + p.2) rest

/-- The intervals that a list of placed items occupies in one bin. -/
def inBin (b : ℕ) (ps : List (Slot × ℕ)) : List (ℕ × ℕ) :=
  (ps.filter fun p => p.1.bin = b).map fun p => (p.1.pos, p.2)

section Lemmas

variable {lo hi : ℕ}

/-- Nothing is placed. -/
@[simp] theorem placed_nil (s : Slot) : placed lo hi s [] = [] := rfl

/-- The placed items of a longer list. -/
theorem placed_cons (s : Slot) (len : ℕ) (rest : List ℕ) :
    placed lo hi s (len :: rest) =
      ((place lo hi s len).1.map fun slot => (slot, len)).toList ++
        placed lo hi (place lo hi s len).2 rest := by
  unfold placed
  rw [placeAll]
  cases (place lo hi s len).1 <;> simp

/-- Every item gets an answer. -/
theorem length_placeAll (s : Slot) (lens : List ℕ) :
    (placeAll lo hi s lens).1.length = lens.length := by
  induction lens generalizing s with
  | nil => rfl
  | cons len rest ih => simp [placeAll, ih]

/-- An item that fits behind its predecessor. -/
theorem place_of_fit {s : Slot} {len : ℕ} (h : s.pos + len ≤ hi) :
    place lo hi s len = (some s, ⟨s.bin, s.pos + len⟩) := by
  rw [place, if_pos h]

/-- An item that only fits into a new bin. -/
theorem place_of_new {s : Slot} {len : ℕ} (h : ¬ s.pos + len ≤ hi) (hnew : lo + len ≤ hi) :
    place lo hi s len = (some ⟨s.bin + 1, lo⟩, ⟨s.bin + 1, lo + len⟩) := by
  rw [place, if_neg h, if_pos hnew]

/-- An item that fits into no bin. -/
theorem place_of_none {s : Slot} {len : ℕ} (h : ¬ s.pos + len ≤ hi) (hnew : ¬ lo + len ≤ hi) :
    place lo hi s len = (none, ⟨s.bin + 1, lo⟩) := by
  rw [place, if_neg h, if_neg hnew]

/-- The three outcomes of placing an item. -/
theorem place_cases (lo hi : ℕ) (s : Slot) (len : ℕ) :
    (s.pos + len ≤ hi ∧ place lo hi s len = (some s, ⟨s.bin, s.pos + len⟩)) ∨
    (lo + len ≤ hi ∧ place lo hi s len = (some ⟨s.bin + 1, lo⟩, ⟨s.bin + 1, lo + len⟩)) ∨
    (¬ lo + len ≤ hi ∧ place lo hi s len = (none, ⟨s.bin + 1, lo⟩)) := by
  by_cases h : s.pos + len ≤ hi
  · exact Or.inl ⟨h, place_of_fit h⟩
  · by_cases hnew : lo + len ≤ hi
    · exact Or.inr (Or.inl ⟨hnew, place_of_new h hnew⟩)
    · exact Or.inr (Or.inr ⟨hnew, place_of_none h hnew⟩)

/-- A slot whose position lies between the bounds of a bin. -/
def Within (lo hi : ℕ) (s : Slot) : Prop := lo ≤ s.pos ∧ s.pos ≤ hi

/-- The next free slot stays between the bounds of a bin. -/
theorem within_place (hlo : lo ≤ hi) {s : Slot} (hs : Within lo hi s) (len : ℕ) :
    Within lo hi (place lo hi s len).2 := by
  obtain ⟨hl, hh⟩ := hs
  rcases place_cases lo hi s len with ⟨h, he⟩ | ⟨h, he⟩ | ⟨h, he⟩ <;> rw [he] <;>
    exact ⟨by dsimp only; omega, by dsimp only; omega⟩

/-- The next free slot never goes back to an earlier bin. -/
theorem bin_le_place (lo hi : ℕ) (s : Slot) (len : ℕ) : s.bin ≤ (place lo hi s len).2.bin := by
  rcases place_cases lo hi s len with ⟨h, he⟩ | ⟨h, he⟩ | ⟨h, he⟩ <;> rw [he] <;> dsimp only <;>
    omega

/-- A new bin is opened exactly if the item does not fit behind its predecessor. -/
theorem bin_place (lo hi : ℕ) (s : Slot) (len : ℕ) :
    (place lo hi s len).2.bin = if hi < s.pos + len then s.bin + 1 else s.bin := by
  by_cases h : s.pos + len ≤ hi
  · rw [place_of_fit h, if_neg (Nat.not_lt_of_le h)]
  · rw [if_pos (Nat.lt_of_not_le h)]
    by_cases hnew : lo + len ≤ hi
    · rw [place_of_new h hnew]
    · rw [place_of_none h hnew]

/-- An item is refused exactly if it fits into no bin. -/
theorem place_eq_none_iff {s : Slot} (hs : Within lo hi s) (len : ℕ) :
    (place lo hi s len).1 = none ↔ hi < lo + len := by
  obtain ⟨hl, -⟩ := hs
  rcases place_cases lo hi s len with ⟨h, he⟩ | ⟨h, he⟩ | ⟨h, he⟩
  · rw [he]
    exact ⟨fun hnone => (Option.some_ne_none _ hnone).elim, fun hbig => by omega⟩
  · rw [he]
    exact ⟨fun hnone => (Option.some_ne_none _ hnone).elim, fun hbig => by omega⟩
  · rw [he]
    exact ⟨fun _ => Nat.lt_of_not_le h, fun _ => rfl⟩

/-- A placed item lies inside the bounds of a bin, in the current bin or a later one. -/
theorem place_slot {s : Slot} (hs : Within lo hi s) {len : ℕ} {slot : Slot}
    (h : (place lo hi s len).1 = some slot) :
    lo ≤ slot.pos ∧ slot.pos + len ≤ hi ∧ s.bin ≤ slot.bin := by
  rcases place_cases lo hi s len with ⟨hfit, he⟩ | ⟨hfit, he⟩ | ⟨hfit, he⟩ <;> rw [he] at h
  · cases h
    exact ⟨hs.1, hfit, Nat.le_refl _⟩
  · cases h
    exact ⟨Nat.le_refl _, hfit, Nat.le_succ _⟩
  · cases h

/-- Every placed item lies inside `[lo, hi)` of a bin that is not an earlier one. -/
theorem bounds_placeAll (hlo : lo ≤ hi) {s : Slot} (hs : Within lo hi s) (lens : List ℕ) :
    ∀ p ∈ placed lo hi s lens, lo ≤ p.1.pos ∧ p.1.pos + p.2 ≤ hi ∧ s.bin ≤ p.1.bin := by
  induction lens generalizing s with
  | nil => simp
  | cons len rest ih =>
    intro p hp
    rw [placed_cons, List.mem_append] at hp
    rcases hp with hp | hp
    · cases hslot : (place lo hi s len).1 with
      | none => simp [hslot] at hp
      | some slot =>
        simp only [hslot, Option.map_some, Option.toList_some, List.mem_singleton] at hp
        subst hp
        exact place_slot hs hslot
    · have h := ih (within_place hlo hs len) p hp
      exact ⟨h.1, h.2.1, Nat.le_trans (bin_le_place lo hi s len) h.2.2⟩

/-- The intervals of a bin before the current one: there are none. -/
theorem inBin_of_lt (hlo : lo ≤ hi) {s : Slot} (hs : Within lo hi s) (lens : List ℕ) {b : ℕ}
    (hb : b < s.bin) : inBin b (placed lo hi s lens) = [] := by
  unfold inBin
  rw [List.map_eq_nil_iff, List.filter_eq_nil_iff]
  intro p hp
  have h := bounds_placeAll hlo hs lens p hp
  simp only [decide_eq_true_eq]
  omega

/-- The intervals of a bin, from the first item on. -/
theorem inBin_placed_cons (s : Slot) (len : ℕ) (rest : List ℕ) (b : ℕ) :
    inBin b (placed lo hi s (len :: rest)) =
      inBin b ((place lo hi s len).1.map fun slot => (slot, len)).toList ++
        inBin b (placed lo hi (place lo hi s len).2 rest) := by
  rw [placed_cons, inBin, List.filter_append, List.map_append]
  rfl

/-- **Back to back**: in every bin the intervals follow each other without a gap, from the
next free slot in the current bin and from `lo` in every later one. -/
theorem contiguous_placeAll (hlo : lo ≤ hi) {s : Slot} (hs : Within lo hi s) (lens : List ℕ)
    (b : ℕ) (hb : s.bin ≤ b) :
    Contiguous (if b = s.bin then s.pos else lo) (inBin b (placed lo hi s lens)) := by
  induction lens generalizing s with
  | nil => simp [inBin, Contiguous]
  | cons len rest ih =>
    have hs' := within_place hlo hs len
    rw [inBin_placed_cons]
    rcases place_cases lo hi s len with ⟨hfit, he⟩ | ⟨hfit, he⟩ | ⟨hfit, he⟩ <;>
      rw [he] at hs' ⊢
    · have hrest := ih hs' hb
      by_cases hbin : b = s.bin
      · subst hbin
        simpa [inBin, Contiguous] using hrest
      · simpa [inBin, hbin, Ne.symm hbin] using hrest
    · by_cases hbin : b = s.bin
      · rw [hbin, inBin_of_lt hlo hs' rest (Nat.lt_succ_self s.bin)]
        simp [inBin, Contiguous]
      · have hrest := ih hs' (show s.bin + 1 ≤ b by omega)
        by_cases hnext : b = s.bin + 1
        · subst hnext
          simpa [inBin, Contiguous] using hrest
        · simpa [inBin, hbin, hnext, Ne.symm hnext] using hrest
    · by_cases hbin : b = s.bin
      · rw [hbin, inBin_of_lt hlo hs' rest (Nat.lt_succ_self s.bin)]
        simp [inBin, Contiguous]
      · have hrest := ih hs' (show s.bin + 1 ≤ b by omega)
        by_cases hnext : b = s.bin + 1
        · subst hnext
          simpa [inBin] using hrest
        · simpa [inBin, hbin, hnext] using hrest

/-- An item placed in the current bin lies behind the next free slot. -/
theorem pos_le_of_bin_eq (hlo : lo ≤ hi) {s : Slot} (hs : Within lo hi s) (lens : List ℕ) :
    ∀ p ∈ placed lo hi s lens, p.1.bin = s.bin → s.pos ≤ p.1.pos := by
  induction lens generalizing s with
  | nil => simp
  | cons len rest ih =>
    intro p hp hbin
    have hs' := within_place hlo hs len
    rw [placed_cons, List.mem_append] at hp
    rcases place_cases lo hi s len with ⟨hfit, he⟩ | ⟨hfit, he⟩ | ⟨hfit, he⟩ <;>
      rw [he] at hs' hp <;> rcases hp with hp | hp
    · simp only [Option.map_some, Option.toList_some, List.mem_singleton] at hp
      exact Nat.le_of_eq (hp ▸ rfl)
    · exact Nat.le_trans (Nat.le_add_right _ _) (ih hs' p hp hbin)
    · simp only [Option.map_some, Option.toList_some, List.mem_singleton] at hp
      simp [hp] at hbin
    · exact absurd ((bounds_placeAll hlo hs' rest p hp).2.2) (by dsimp only; omega)
    · simp at hp
    · exact absurd ((bounds_placeAll hlo hs' rest p hp).2.2) (by dsimp only; omega)

/-- Items placed later in the same bin lie behind the earlier ones. -/
theorem pairwise_placeAll (hlo : lo ≤ hi) {s : Slot} (hs : Within lo hi s) (lens : List ℕ) :
    (placed lo hi s lens).Pairwise fun p q => p.1.bin = q.1.bin → p.1.pos + p.2 ≤ q.1.pos := by
  induction lens generalizing s with
  | nil => simp
  | cons len rest ih =>
    have hs' := within_place hlo hs len
    have hbehind := pos_le_of_bin_eq hlo hs' rest
    rw [placed_cons]
    rcases place_cases lo hi s len with ⟨hfit, he⟩ | ⟨hfit, he⟩ | ⟨hfit, he⟩ <;>
      rw [he] at hs' hbehind ⊢
    · exact List.pairwise_cons.mpr ⟨fun q hq hbin => hbehind q hq hbin.symm, ih hs'⟩
    · exact List.pairwise_cons.mpr ⟨fun q hq hbin => hbehind q hq hbin.symm, ih hs'⟩
    · exact ih hs'

/-- One more item is placed behind the others. -/
theorem placeAll_concat (s : Slot) (lens : List ℕ) (len : ℕ) :
    placeAll lo hi s (lens ++ [len]) =
      ((placeAll lo hi s lens).1 ++ [(place lo hi (placeAll lo hi s lens).2 len).1],
        (place lo hi (placeAll lo hi s lens).2 len).2) := by
  induction lens generalizing s with
  | nil => rfl
  | cons len' rest ih =>
    rw [List.cons_append, placeAll, placeAll]
    dsimp only
    rw [ih]
    rfl

/-- No earlier bin is used again. -/
theorem bin_le_placeAll (s : Slot) (lens : List ℕ) : s.bin ≤ (placeAll lo hi s lens).2.bin := by
  induction lens generalizing s with
  | nil => exact Nat.le_refl _
  | cons len rest ih => exact Nat.le_trans (bin_le_place lo hi s len) (ih _)

/-- No item is placed in a bin behind the last one. -/
theorem placed_bin_le (s : Slot) (lens : List ℕ) :
    ∀ p ∈ placed lo hi s lens, p.1.bin ≤ (placeAll lo hi s lens).2.bin := by
  induction lens generalizing s with
  | nil => simp
  | cons len rest ih =>
    intro p hp
    rw [placed_cons, List.mem_append] at hp
    rw [placeAll]
    rcases hp with hp | hp
    · refine Nat.le_trans ?_ (bin_le_placeAll _ rest)
      rcases place_cases lo hi s len with ⟨-, he⟩ | ⟨-, he⟩ | ⟨-, he⟩ <;> rw [he] at hp ⊢
      · simp only [Option.map_some, Option.toList_some, List.mem_singleton] at hp
        exact Nat.le_of_eq (hp ▸ rfl)
      · simp only [Option.map_some, Option.toList_some, List.mem_singleton] at hp
        exact Nat.le_of_eq (hp ▸ rfl)
      · simp at hp
    · exact ih _ p hp

end Lemmas

end Elykseer.Foundation.NextFit
