import Mathlib.Data.List.Basic
import Mathlib.Data.List.Induction
import Mathlib.Data.List.Nodup
import Mathlib.Data.List.Perm.Basic

/-!
# A least recently used cache over a loader

A cache of at most `n` entries in front of a loader `load`: an access to a key first
looks for an entry with that key and moves it to the front; otherwise it loads one,
puts it in front and keeps the first `n` entries.  A failing load changes nothing.

In a valid cache (`Valid`: bounded, distinct keys, every entry what the loader gives
for its key) an access returns what the loader returns (`access_result`), the cache
stays valid (`access_valid`), and after any history of accesses the keys are the `n`
most recently used ones, most recent first (`keys_accesses`).
-/

set_option autoImplicit false

namespace Elykseer.Foundation.Lru

variable {κ ε : Type*} [DecidableEq κ]

/-- Put a key in front, dropping its older occurrences. -/
def touch (r : List κ) (k : κ) : List κ := k :: r.filter (· ≠ k)

/-- The keys loaded successfully in a history, most recently used first. -/
def recency (load : κ → Option ε) (hist : List κ) : List κ :=
  hist.foldl (fun r k => if (load k).isSome then touch r k else r) []

/-- One access to a cache of capacity `n`. -/
def access (key : ε → κ) (n : ℕ) (load : κ → Option ε) (l : List ε) (k : κ) :
    Option ε × List ε :=
  match l.find? (fun e => key e = k) with
  | some e => (some e, e :: l.filter (fun e' => key e' ≠ k))
  | none =>
    match load k with
    | none => (none, l)
    | some e => (some e, (e :: l).take n)

/-- A history of accesses, keeping the cache only. -/
def accesses (key : ε → κ) (n : ℕ) (load : κ → Option ε) (l : List ε) (hist : List κ) :
    List ε :=
  hist.foldl (fun l k => (access key n load l k).2) l

/-- What a cache keeps: at most `n` entries, distinct keys, each entry loaded by its key. -/
structure Valid (key : ε → κ) (n : ℕ) (load : κ → Option ε) (l : List ε) : Prop where
  bounded : l.length ≤ n
  distinct : (l.map key).Nodup
  loaded : ∀ e ∈ l, load (key e) = some e

section Access

variable {key : ε → κ} {n : ℕ} {load : κ → Option ε} {l : List ε}

omit [DecidableEq κ] in
/-- The empty cache is valid. -/
theorem valid_nil (key : ε → κ) (n : ℕ) (load : κ → Option ε) : Valid key n load [] :=
  ⟨Nat.zero_le n, List.nodup_nil, by simp⟩

omit [DecidableEq κ] in
/-- What is cached stays valid when more can be loaded. -/
theorem Valid.mono (h : Valid key n load l) {load' : κ → Option ε}
    (hload : ∀ k e, load k = some e → load' k = some e) : Valid key n load' l where
  bounded := h.bounded
  distinct := h.distinct
  loaded e he := hload _ _ (h.loaded e he)

/-- Looking a key up in a valid cache gives an entry the loader gives for it. -/
theorem Valid.find?_eq (h : Valid key n load l) {k : κ} {e : ε}
    (hf : l.find? (fun e => key e = k) = some e) : e ∈ l ∧ key e = k ∧ load k = some e := by
  have hmem := List.mem_of_find?_eq_some hf
  have hkey : key e = k := by simpa using List.find?_some hf
  exact ⟨hmem, hkey, hkey ▸ h.loaded e hmem⟩

/-- A key that is looked up in vain is none of the cached ones. -/
theorem find?_eq_none_iff {k : κ} :
    l.find? (fun e => key e = k) = none ↔ k ∉ l.map key := by
  simp only [List.find?_eq_none, decide_eq_true_eq, List.mem_map, not_exists, not_and]

/-- **Transparency**: an access to a valid cache returns what the loader returns. -/
theorem access_result (h : Valid key n load l) (k : κ) :
    (access key n load l k).1 = load k := by
  unfold access
  split
  · next e hf => exact (h.find?_eq hf).2.2.symm
  · split <;> simp_all

/-- An access that fails leaves the cache as it was. -/
theorem access_of_none (h : Valid key n load l) {k : κ} (hk : load k = none) :
    (access key n load l k).2 = l := by
  unfold access
  split
  · next e hf => exact absurd (h.find?_eq hf).2.2 (by simp [hk])
  · simp [hk]

/-- A hit only moves the entry to the front. -/
theorem access_of_hit (h : Valid key n load l) {k : κ} {e : ε} (he : load k = some e)
    (hk : k ∈ l.map key) :
    (access key n load l k).2 = e :: l.filter (fun e' => key e' ≠ k) := by
  unfold access
  split
  · next e' hf =>
    have heq : e' = e := Option.some.inj ((h.find?_eq hf).2.2.symm.trans he)
    rw [heq]
  · next hf => exact absurd hk (find?_eq_none_iff.mp hf)

/-- A successful miss puts the new entry in front and keeps the first `n` entries. -/
theorem access_of_miss {k : κ} {e : ε} (he : load k = some e) (hk : k ∉ l.map key) :
    (access key n load l k).2 = (e :: l).take n := by
  unfold access
  rw [find?_eq_none_iff.mpr hk]
  simp [he]

/-- In a full cache a successful miss evicts the last entry; else it evicts nothing. -/
theorem access_of_miss_evicts (h : Valid key n load l) (hn : 0 < n) {k : κ} {e : ε}
    (he : load k = some e) (hk : k ∉ l.map key) :
    (access key n load l k).2 = e :: if l.length = n then l.dropLast else l := by
  have hb := h.bounded
  rw [access_of_miss he hk]
  obtain ⟨m, rfl⟩ : ∃ m, n = m + 1 := ⟨n - 1, by omega⟩
  rw [List.take_succ_cons]
  by_cases hfull : l.length = m + 1
  · rw [if_pos hfull, List.dropLast_eq_take, hfull, Nat.add_sub_cancel]
  · rw [if_neg hfull, List.take_of_length_le (by omega)]

/-- The keys left after dropping one key. -/
theorem map_filter_key (k : κ) :
    (l.filter (fun e' => key e' ≠ k)).map key = (l.map key).filter (· ≠ k) := by
  rw [List.filter_map]
  rfl

/-- Dropping a key that no entry has drops nothing. -/
theorem filter_key_eq_self {k : κ} (hk : k ∉ l.map key) :
    l.filter (fun e' => key e' ≠ k) = l := by
  rw [List.filter_eq_self]
  intro e he
  have hne : key e ≠ k := fun heq => hk (heq ▸ List.mem_map_of_mem he)
  simpa using hne

/-- A hit on the entry in front changes nothing. -/
theorem access_of_front {e : ε} (h : Valid key n load (e :: l)) :
    (access key n load (e :: l) (key e)).2 = e :: l := by
  have hdistinct := h.distinct
  rw [List.map_cons, List.nodup_cons] at hdistinct
  rw [access_of_hit h (h.loaded e List.mem_cons_self) List.mem_cons_self,
    List.filter_cons_of_neg (by simp), filter_key_eq_self hdistinct.1]

/-- Dropping a key that occurs in a list makes it shorter. -/
theorem length_filter_ne_lt {r : List κ} {k : κ} (hk : k ∈ r) :
    (r.filter (· ≠ k)).length < r.length := by
  rw [List.length_filter_lt_length_iff_exists]
  exact ⟨k, hk, by simp⟩

/-- Erasing the entry at an index is dropping its key. -/
theorem eraseIdx_eq_filter (hl : (l.map key).Nodup) {i : ℕ} {e : ε}
    (hi : l[i]? = some e) : l.eraseIdx i = l.filter (fun e' => key e' ≠ key e) := by
  induction l generalizing i with
  | nil => simp at hi
  | cons e₀ l ih =>
    rw [List.map_cons, List.nodup_cons] at hl
    cases i with
    | zero =>
      simp only [List.getElem?_cons_zero, Option.some.injEq] at hi
      subst hi
      rw [List.eraseIdx_cons_zero, List.filter_cons_of_neg (by simp), filter_key_eq_self hl.1]
    | succ i =>
      rw [List.getElem?_cons_succ] at hi
      have hne : key e₀ ≠ key e := fun heq =>
        hl.1 (heq ▸ List.mem_map_of_mem (List.mem_of_getElem? hi))
      rw [List.eraseIdx_cons_succ, ih hl.2 hi, List.filter_cons_of_pos (by simpa using hne)]

/-- A hit keeps the entries. -/
theorem access_perm_of_hit (h : Valid key n load l) {k : κ} (hk : k ∈ l.map key) :
    (access key n load l k).2.Perm l := by
  obtain ⟨e, he, rfl⟩ := List.mem_map.mp hk
  obtain ⟨i, hi⟩ := List.getElem?_of_mem he
  rw [access_of_hit h (h.loaded e he) hk, ← eraseIdx_eq_filter h.distinct hi]
  obtain ⟨hlt, rfl⟩ := List.getElem?_eq_some_iff.mp hi
  exact List.getElem_cons_eraseIdx_perm hlt

/-- An access keeps a valid cache valid. -/
theorem access_valid (h : Valid key n load l) (hload : ∀ k e, load k = some e → key e = k)
    (k : κ) : Valid key n load (access key n load l k).2 := by
  cases hk : load k with
  | none => rwa [access_of_none h hk]
  | some e =>
    have hkey := hload k e hk
    by_cases hmem : k ∈ l.map key
    · rw [access_of_hit h hk hmem]
      refine ⟨?_, ?_, ?_⟩
      · have hlt := length_filter_ne_lt hmem
        rw [← map_filter_key, List.length_map, List.length_map] at hlt
        have := h.bounded
        simp only [List.length_cons]
        omega
      · rw [List.map_cons, hkey, map_filter_key]
        exact List.nodup_cons.mpr ⟨by simp, h.distinct.filter _⟩
      · intro e' he'
        rcases List.mem_cons.mp he' with rfl | he'
        · rwa [hkey]
        · exact h.loaded e' (List.mem_of_mem_filter he')
    · rw [access_of_miss hk hmem]
      have hsub := List.take_sublist n (e :: l)
      refine ⟨by rw [List.length_take]; omega, ?_, ?_⟩
      · apply (List.Sublist.map key hsub).nodup
        rw [List.map_cons, hkey]
        exact List.nodup_cons.mpr ⟨hmem, h.distinct⟩
      · intro e' he'
        rcases List.mem_cons.mp (hsub.subset he') with rfl | he'
        · rwa [hkey]
        · exact h.loaded e' he'

end Access

/-! ## The keys are the most recently used ones -/

section Recency

variable {key : ε → κ} {n : ℕ} {load : κ → Option ε}

/-- One more access in a history. -/
theorem recency_concat (load : κ → Option ε) (hist : List κ) (k : κ) :
    recency load (hist ++ [k]) =
      if (load k).isSome then touch (recency load hist) k else recency load hist := by
  simp [recency, List.foldl_append]

/-- The recency list has no repetitions. -/
theorem nodup_recency (load : κ → Option ε) (hist : List κ) :
    (recency load hist).Nodup := by
  induction hist using List.reverseRecOn with
  | nil => exact List.nodup_nil
  | append_singleton hist k ih =>
    rw [recency_concat]
    split
    · exact List.nodup_cons.mpr ⟨by simp, ih.filter _⟩
    · exact ih

/-- Touching a key among the first `n` permutes these. -/
theorem take_touch_of_mem {r : List κ} {k : κ} (hr : r.Nodup) (hk : k ∈ r.take n) :
    (touch r k).take n = k :: (r.take n).filter (· ≠ k) := by
  induction r generalizing n with
  | nil => simp at hk
  | cons a r ih =>
    obtain ⟨m, rfl⟩ : ∃ m, n = m + 1 := by
      cases n with
      | zero => simp at hk
      | succ m => exact ⟨m, rfl⟩
    rw [List.nodup_cons] at hr
    by_cases hak : a = k
    · subst hak
      have hfil : r.filter (· ≠ a) = r :=
        List.filter_eq_self.mpr fun x hx => by
          simpa using fun hxa : x = a => hr.1 (hxa ▸ hx)
      have hfil' : (r.take m).filter (· ≠ a) = r.take m :=
        List.filter_eq_self.mpr fun x hx => by
          simpa using fun hxa : x = a => hr.1 (hxa ▸ List.mem_of_mem_take hx)
      rw [touch, List.filter_cons_of_neg (by simp), List.take_succ_cons, List.take_succ_cons,
        List.filter_cons_of_neg (by simp), hfil, hfil']
    · have hk' : k ∈ r.take m := by
        rw [List.take_succ_cons] at hk
        exact (List.mem_cons.mp hk).resolve_left fun h => hak h.symm
      have hm : 0 < m := by
        cases m with
        | zero => simp at hk'
        | succ m => omega
      obtain ⟨m', rfl⟩ : ∃ m', m = m' + 1 := ⟨m - 1, by omega⟩
      have hih := ih hr.2 hk'
      simp only [touch, List.take_succ_cons, List.cons.injEq, true_and] at hih ⊢
      rw [List.filter_cons_of_pos (by simpa using hak),
        List.filter_cons_of_pos (by simpa using hak), List.take_succ_cons, hih]

/-- Touching a key outside the first `n` pushes the last of these out. -/
theorem take_touch_of_not_mem {r : List κ} {k : κ} (hk : k ∉ r.take n) :
    (touch r k).take n = (k :: r.take n).take n := by
  have hgen : ∀ (m : ℕ) (r : List κ), k ∉ r.take m → ∀ j ≤ m,
      (r.filter (· ≠ k)).take j = r.take j := by
    intro m r
    induction r generalizing m with
    | nil => simp
    | cons a r ih =>
      intro hm j hj
      cases j with
      | zero => simp
      | succ j =>
        obtain ⟨m', rfl⟩ : ∃ m', m = m' + 1 := ⟨m - 1, by omega⟩
        rw [List.take_succ_cons, List.mem_cons, not_or] at hm
        rw [List.filter_cons_of_pos (by simpa using fun h : a = k => hm.1 h.symm),
          List.take_succ_cons, List.take_succ_cons, ih m' hm.2 j (by omega)]
  cases n with
  | zero => simp
  | succ m =>
    rw [touch, List.take_succ_cons, List.take_succ_cons, hgen (m + 1) r hk m (by omega),
      List.take_take, Nat.min_eq_left (by omega)]

/-- A valid cache stays valid over a history. -/
theorem accesses_valid (hload : ∀ k e, load k = some e → key e = k) {l : List ε}
    (h : Valid key n load l) (hist : List κ) :
    Valid key n load (accesses key n load l hist) := by
  induction hist generalizing l with
  | nil => exact h
  | cons k hist ih => exact ih (access_valid h hload k)

/-- **Recency**: after a history, an initially empty cache holds the `n` most recently
used keys, most recent first. -/
theorem keys_accesses (hload : ∀ k e, load k = some e → key e = k) (hist : List κ) :
    (accesses key n load [] hist).map key = (recency load hist).take n := by
  induction hist using List.reverseRecOn with
  | nil => simp [accesses, recency]
  | append_singleton hist k ih =>
    have hv := accesses_valid (l := []) (n := n) hload (valid_nil key n load) hist
    have hstep : accesses key n load [] (hist ++ [k]) =
        (access key n load (accesses key n load [] hist) k).2 := by
      simp [accesses, List.foldl_append]
    rw [hstep, recency_concat]
    cases hk : load k with
    | none => simpa [access_of_none hv hk] using ih
    | some e =>
      have hkey := hload k e hk
      simp only [Option.isSome_some, if_true]
      by_cases hmem : k ∈ (accesses key n load [] hist).map key
      · rw [access_of_hit hv hk hmem, List.map_cons, hkey, map_filter_key, ih,
          take_touch_of_mem (nodup_recency load hist) (ih ▸ hmem)]
      · rw [access_of_miss hk hmem, List.map_take, List.map_cons, hkey, ih,
          take_touch_of_not_mem (ih ▸ hmem)]

end Recency

end Elykseer.Foundation.Lru
