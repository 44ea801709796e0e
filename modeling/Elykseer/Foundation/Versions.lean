import Mathlib.Data.List.Induction
import Elykseer.Foundation.Overlay

/-!
# Versions that change

A sequence of versions of which only those are kept whose key differs from the key of
the version before.  If the key tells the versions apart, the last one kept is the last
of all, and nothing is lost when there was no version before.
-/

set_option autoImplicit false

namespace Elykseer.Foundation.Versions

variable {α β : Type*} {key : α → β}

/-- The key of the last version, or the one before the first. -/
def lastKey (key : α → β) (prev : Option β) (vs : List α) : Option β :=
  (vs.getLast?.map key).or prev

/-- The last version has the last key. -/
@[simp] theorem lastKey_concat (prev : Option β) (vs : List α) (v : α) :
    lastKey key prev (vs ++ [v]) = some (key v) := by
  simp [lastKey]

/-- The last key does not depend on what was before the first version. -/
theorem lastKey_cons (prev : Option β) (v : α) (vs : List α) :
    lastKey key prev (v :: vs) = lastKey key (some (key v)) vs := by
  unfold lastKey
  cases vs with
  | nil => rfl
  | cons w vs => simp [List.getLast?_eq_some_getLast]

/-- The last key, in two parts. -/
theorem lastKey_append (prev : Option β) (vs us : List α) :
    lastKey key prev (vs ++ us) = lastKey key (lastKey key prev vs) us := by
  induction vs generalizing prev with
  | nil => rfl
  | cons v vs ih => rw [List.cons_append, lastKey_cons, lastKey_cons, ih]

variable [DecidableEq β]

/-- The versions whose key differs from the one before, `prev` being the key before the first. -/
def changes (key : α → β) : Option β → List α → List α
  | _, [] => []
  | prev, v :: vs =>
    if prev = some (key v) then changes key (some (key v)) vs
    else v :: changes key (some (key v)) vs

/-- One more version is kept if its key differs from the last one. -/
theorem changes_concat (prev : Option β) (vs : List α) (v : α) :
    changes key prev (vs ++ [v]) =
      changes key prev vs ++ if lastKey key prev vs = some (key v) then [] else [v] := by
  induction vs generalizing prev with
  | nil =>
    change (if prev = some (key v) then [] else [v]) = _
    rfl
  | cons w vs ih =>
    rw [List.cons_append, changes, changes, lastKey_cons, ih]
    split <;> rfl

/-- The changes are some of the versions. -/
theorem changes_subset (prev : Option β) (vs : List α) : changes key prev vs ⊆ vs := by
  induction vs generalizing prev with
  | nil => exact List.Subset.refl _
  | cons v vs ih =>
    rw [changes]
    split
    · exact List.subset_cons_of_subset _ (ih _)
    · exact List.cons_subset_cons _ (ih _)

/-- If nothing was there before, every version is kept at its first occurrence. -/
theorem subset_changes_none {vs : List α} (hkey : ∀ v ∈ vs, ∀ w ∈ vs, key v = key w → v = w) :
    vs ⊆ changes key none vs := by
  induction vs using List.reverseRecOn with
  | nil => exact List.Subset.refl _
  | append_singleton vs v ih =>
    have hvs := ih fun a ha b hb =>
      hkey a (List.mem_append_left _ ha) b (List.mem_append_left _ hb)
    rw [changes_concat]
    intro w hw
    rcases List.mem_append.mp hw with hw | hw
    · exact List.mem_append_left _ (hvs hw)
    · rw [List.mem_singleton.mp hw]
      split
      · next hlast =>
        obtain ⟨u, hu, hku⟩ : ∃ u, vs.getLast? = some u ∧ key u = key v := by
          unfold lastKey at hlast
          rwa [Option.or_none, Option.map_eq_some_iff] at hlast
        have hmem := List.mem_of_getLast? hu
        have huv := hkey u (List.mem_append_left _ hmem) v (by simp) hku
        exact List.mem_append_left _ (hvs (huv ▸ hmem))
      · exact List.mem_append_right _ (List.mem_singleton_self _)

/-- The last version kept is the last of all. -/
theorem changes_eq_concat {prev : Option β} {vs : List α} {v : α}
    (hkey : ∀ u ∈ vs, key u = key v → u = v) (hne : changes key prev (vs ++ [v]) ≠ []) :
    ∃ us, changes key prev (vs ++ [v]) = us ++ [v] := by
  induction vs using List.reverseRecOn with
  | nil =>
    rw [changes_concat] at hne ⊢
    split
    · next h => rw [if_pos h] at hne; exact absurd rfl hne
    · exact ⟨_, rfl⟩
  | append_singleton vs u ih =>
    rw [changes_concat] at hne ⊢
    split
    · next h =>
      rw [lastKey_concat, Option.some.injEq] at h
      rw [lastKey_concat, if_pos (congrArg some h), List.append_nil] at hne
      have huv := hkey u (by simp) h
      subst huv
      obtain ⟨us, hus⟩ := ih (fun w hw => hkey w (List.mem_append_left _ hw)) hne
      exact ⟨us, by rw [List.append_nil, hus]⟩
    · exact ⟨_, rfl⟩

/-- Of versions that are all alike one is kept, or none. -/
theorem changes_replicate (prev : Option β) (n : ℕ) (v : α) :
    changes key prev (List.replicate (n + 1) v) = if prev = some (key v) then [] else [v] := by
  induction n with
  | zero =>
    change (if prev = some (key v) then [] else [v]) = _
    rfl
  | succ n ih =>
    have hlast : lastKey key prev (List.replicate (n + 1) v) = some (key v) := by
      rw [List.replicate_succ', lastKey_concat]
    rw [List.replicate_succ', changes_concat, ih, if_pos hlast, List.append_nil]

/-! ## The newest version of a kind -/

/-- The newest version with `p`. -/
def newest (p : α → Bool) (vs : List α) : Option α := (vs.filter p).getLast?

/-- Versions that do not qualify leave the newest one as it is. -/
theorem newest_append_of_forall_not {p : α → Bool} (vs : List α) {us : List α}
    (h : ∀ u ∈ us, p u = false) : newest p (vs ++ us) = newest p vs := by
  have hnil : us.filter p = [] := List.filter_eq_nil_iff.mpr fun u hu => by simp [h u hu]
  rw [newest, List.filter_append, hnil, List.append_nil]
  rfl

/-- A version that qualifies is the newest. -/
theorem newest_concat {p : α → Bool} (vs : List α) {v : α} (h : p v = true) :
    newest p (vs ++ [v]) = some v := by
  simp [newest, h]

/-- There is no newest version exactly when none qualifies. -/
theorem newest_eq_none_iff {p : α → Bool} {vs : List α} :
    newest p vs = none ↔ ∀ v ∈ vs, p v = false := by
  simp [newest]

/-- The newest version is one of those that qualify. -/
theorem newest_mem {p : α → Bool} {vs : List α} {v : α} (h : newest p vs = some v) :
    v ∈ vs ∧ p v = true := List.mem_filter.mp (List.mem_of_getLast? h)

end Elykseer.Foundation.Versions
