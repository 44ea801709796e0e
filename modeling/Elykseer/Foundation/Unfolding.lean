import Mathlib.Data.List.Basic
import Mathlib.Data.List.Nodup
import Mathlib.Data.Set.Card

/-!
# Unfolding a graph

A graph whose edges carry labels is unfolded from a node by following the labels.
`walks` lists the label sequences of an unfolding in preorder, down to a depth.  The
sequences are different from each other even where the nodes are not; a graph with
finitely many nodes in which different sequences lead to different nodes is exhausted at
the depth of their number (`length_lt_ncard`).
-/

set_option autoImplicit false

namespace Elykseer.Foundation.Unfolding

variable {γ ι : Type} (labels : γ → List ι) (child : γ → ι → γ)

/-- The labels can be followed from `p`. -/
def Follows : γ → List ι → Prop
  | _, [] => True
  | p, n :: ns => n ∈ labels p ∧ Follows (child p n) ns

/-- The label sequences that can be followed from `p`, shorter than the depth, in preorder. -/
def walks : ℕ → γ → List (List ι)
  | 0, _ => []
  | depth + 1, p => [] :: (labels p).flatMap fun n => (walks depth (child p n)).map (n :: ·)

variable {labels child} {p : γ} {ns ms : List ι} {depth : ℕ}

/-- A walk in two parts follows the labels in each. -/
theorem follows_append :
    Follows labels child p (ns ++ ms) ↔
      Follows labels child p ns ∧ Follows labels child (ns.foldl child p) ms := by
  induction ns generalizing p with
  | nil => simp [Follows]
  | cons n ns ih => simp [Follows, ih, and_assoc]

/-- The walks are those below the depth that follow the labels. -/
theorem mem_walks : ns ∈ walks labels child depth p ↔
    ns.length < depth ∧ Follows labels child p ns := by
  induction depth generalizing p ns with
  | zero => simp [walks]
  | succ depth ih =>
    cases ns with
    | nil => simp [walks, Follows]
    | cons n ns =>
      simp only [walks, List.mem_cons, reduceCtorEq, List.mem_flatMap, List.mem_map, false_or,
        List.cons.injEq, ih, List.length_cons, Nat.add_lt_add_iff_right, Follows]
      constructor
      · rintro ⟨m, hm, ms, ⟨hlen, hfollows⟩, rfl, rfl⟩
        exact ⟨hlen, hm, hfollows⟩
      · rintro ⟨hlen, hn, hfollows⟩
        exact ⟨n, hn, ns, ⟨hlen, hfollows⟩, rfl, rfl⟩

/-- Each walk is met once if no labels are repeated. -/
theorem walks_nodup (hlabels : ∀ q, (labels q).Nodup) : (walks labels child depth p).Nodup := by
  induction depth generalizing p with
  | zero => exact List.nodup_nil
  | succ depth ih =>
    refine List.nodup_cons.mpr ⟨by simp, List.nodup_flatMap.mpr ⟨fun n _ => ?_, ?_⟩⟩
    · exact ih.map (List.cons_injective)
    · refine (hlabels p).imp fun {n m} hne => ?_
      rw [Function.onFun, List.disjoint_left]
      intro ns hns hms
      obtain ⟨ns', -, rfl⟩ := List.mem_map.mp hns
      obtain ⟨ms', -, h⟩ := List.mem_map.mp hms
      exact hne (List.cons.inj h).1.symm

/-- One step of a fold along the walks. -/
theorem foldl_walks_succ {σ : Type} (visit : σ → List ι → σ) (s : σ) :
    (walks labels child (depth + 1) p).foldl visit s =
      (labels p).foldl (fun s n =>
        (walks labels child depth (child p n)).foldl (fun s ns => visit s (n :: ns)) s)
        (visit s []) := by
  simp only [walks, List.foldl_cons, List.foldl_flatMap, List.foldl_map]

/-- Where different sequences lead to different nodes, none is as long as there are nodes. -/
theorem length_lt_ncard {β : Type} {nodes : Set β} (hfin : nodes.Finite) (node : List ι → β)
    (hmem : ∀ ns, Follows labels child p ns → node ns ∈ nodes)
    (hinj : ∀ ns ms, Follows labels child p ns → Follows labels child p ms →
      node ns = node ms → ns = ms)
    (h : Follows labels child p ns) : ns.length < nodes.ncard := by
  have hpre : ∀ i, Follows labels child p (ns.take i) := fun i => by
    rw [← List.take_append_drop i ns] at h
    exact (follows_append.mp h).1
  have hcard : (Finset.range (ns.length + 1) : Set ℕ).ncard ≤ nodes.ncard := by
    refine Set.ncard_le_ncard_of_injOn (fun i => node (ns.take i)) (fun i _ => hmem _ (hpre i))
      ?_ hfin
    intro i hi j hj hij
    have hlen := congrArg List.length (hinj _ _ (hpre i) (hpre j) hij)
    simp only [Finset.coe_range, Set.mem_Iio] at hi hj
    rw [List.length_take, List.length_take] at hlen
    omega
  rw [Set.ncard_coe_finset, Finset.card_range] at hcard
  omega

end Elykseer.Foundation.Unfolding
