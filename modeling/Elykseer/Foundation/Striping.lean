import Mathlib.Data.Int.CardIntervalMod
import Mathlib.Data.Nat.Basic
import Mathlib.Data.Nat.Count
import Mathlib.Data.Set.Function
import Mathlib.Tactic.Ring

/-!
# Striping a linear space over columns

`stripe n c` lays out `n * c` logical positions over `n` columns of `c` rows:
position `i` goes to row `i / n` of column `i % n`, and the columns are stored one
after the other.  The layout is its own inverse with the roles of rows and columns
exchanged (`stripe_stripe`), so no two positions share a cell (`stripe_injOn`) and no
cell is left out (`stripe_bijOn`).  A run of positions goes to all columns alike, up to
one cell (`columnShare_le`).
A logical position below `(c - t) * n` never reaches the last `t` cells of any
column (`stripe_row_lt`), hence not the last `t` cells of the whole space
(`stripe_lt_of_lt_rows`).
-/

set_option autoImplicit false

namespace Elykseer.Foundation.Striping

/-- The cell of logical position `i`: column `i % n`, row `i / n`, columns of `c` rows. -/
def stripe (n c i : ℕ) : ℕ := c * (i % n) + i / n

/-- A position of the space has its row inside the column. -/
theorem row_lt {n c i : ℕ} (hi : i < n * c) : i / n < c :=
  Nat.div_lt_of_lt_mul hi

/-- The space is empty unless there is a column. -/
theorem columns_pos {n c i : ℕ} (hi : i < n * c) : 0 < n :=
  Nat.pos_of_mul_pos_right (Nat.zero_lt_of_lt hi)

/-- The column of a striped position. -/
theorem stripe_div {n c i : ℕ} (hi : i < n * c) : stripe n c i / c = i % n := by
  have hrow := row_lt hi
  have hc : 0 < c := Nat.zero_lt_of_lt hrow
  rw [stripe, Nat.mul_add_div hc, Nat.div_eq_of_lt hrow, Nat.add_zero]

/-- The row of a striped position. -/
theorem stripe_mod {n c i : ℕ} (hi : i < n * c) : stripe n c i % c = i / n := by
  rw [stripe, Nat.mul_add_mod, Nat.mod_eq_of_lt (row_lt hi)]

/-- Striping stays inside the space. -/
theorem stripe_lt {n c i : ℕ} (hi : i < n * c) : stripe n c i < n * c := by
  have hrow := row_lt hi
  have hcol : i % n + 1 ≤ n := Nat.mod_lt i (columns_pos hi)
  calc stripe n c i < c * (i % n) + c := by unfold stripe; omega
    _ = (i % n + 1) * c := by ring
    _ ≤ n * c := Nat.mul_le_mul_right c hcol

/-- Striping back over the rows recovers the logical position. -/
theorem stripe_stripe {n c i : ℕ} (hi : i < n * c) : stripe c n (stripe n c i) = i := by
  rw [stripe, stripe_mod hi, stripe_div hi]
  exact Nat.div_add_mod i n

/-- Two logical positions of the space never share a cell. -/
theorem stripe_injOn (n c : ℕ) : Set.InjOn (stripe n c) (Set.Iio (n * c)) := by
  intro i hi j hj h
  rw [← stripe_stripe hi, ← stripe_stripe hj, h]

/-- Striping is a permutation of the space. -/
theorem stripe_bijOn (n c : ℕ) :
    Set.BijOn (stripe n c) (Set.Iio (n * c)) (Set.Iio (n * c)) := by
  refine ⟨fun i hi => stripe_lt hi, stripe_injOn n c, fun j hj => ?_⟩
  have hj' : j < c * n := by
    rw [Nat.mul_comm]
    exact hj
  have hlt : stripe c n j < n * c := by
    rw [Nat.mul_comm]
    exact stripe_lt hj'
  exact ⟨stripe c n j, hlt, stripe_stripe hj'⟩

/-! ## Runs of positions -/

/-- How many of the `k` positions from `pos` on go to column `j`. -/
def columnShare (n pos k j : ℕ) : ℕ := Nat.count (fun i => (pos + i) % n = j) k

/-- The positions of column `j` up to a bound: one for each full row, and one of the last row. -/
theorem count_column {n j : ℕ} (hj : j < n) (b : ℕ) :
    Nat.count (fun i => i % n = j) b = b / n + if j < b % n then 1 else 0 := by
  have hcount := Nat.count_modEq_card b (Nat.zero_lt_of_lt hj) j
  rw [Nat.mod_eq_of_lt hj] at hcount
  rw [← hcount]
  unfold Nat.ModEq
  simp only [Nat.mod_eq_of_lt hj]

/-- A run fills column `j` as two runs from the start of the space differ. -/
theorem columnShare_add {n j : ℕ} (pos k : ℕ) :
    Nat.count (fun i => i % n = j) pos + columnShare n pos k j =
      Nat.count (fun i => i % n = j) (pos + k) := by
  rw [Nat.count_add]
  rfl

/-- **A run of positions is spread evenly**: no column gets two more cells than another one. -/
theorem columnShare_le {n j j' : ℕ} (hj : j < n) (hj' : j' < n) (pos k : ℕ) :
    columnShare n pos k j ≤ columnShare n pos k j' + 1 := by
  have h := columnShare_add (n := n) (j := j) pos k
  have h' := columnShare_add (n := n) (j := j') pos k
  rw [count_column hj, count_column hj] at h
  rw [count_column hj', count_column hj'] at h'
  split_ifs at h h' <;> omega

/-! ## Rows left out -/

/-- The rows below `c - t` are exactly the positions below `(c - t) * n`. -/
theorem stripe_row_lt {n c i t : ℕ} (hn : 0 < n) :
    i < (c - t) * n ↔ i / n < c - t :=
  (Nat.div_lt_iff_lt_mul hn).symm

/-- A position of the first `c - t` rows stays off the last `t` cells of the space. -/
theorem stripe_lt_of_lt_rows {n c i t : ℕ} (hi : i < (c - t) * n) :
    stripe n c i < n * c - t := by
  have hn : 0 < n := by
    rcases Nat.eq_zero_or_pos n with h | h
    · simp [h] at hi
    · exact h
  have hrow : i / n < c - t := (stripe_row_lt hn).mp hi
  have hcol : i % n + 1 ≤ n := Nat.mod_lt i hn
  have hspan : c * (i % n) + c ≤ n * c := by
    calc c * (i % n) + c = (i % n + 1) * c := by ring
      _ ≤ n * c := Nat.mul_le_mul_right c hcol
  unfold stripe
  generalize i / n = row at hrow ⊢
  omega

end Elykseer.Foundation.Striping
