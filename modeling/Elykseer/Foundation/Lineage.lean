import Mathlib.Data.List.Forall2
import Mathlib.Data.List.Induction

/-!
# Lineages

A sequence of nodes, each of which may continue an earlier one.  The lineage of a node
are the indices of the nodes that lead to it, the first one first.  What is accumulated from node
to node, and what is made of the nodes on the way, can be found along the lineage:
`made_lineage`.
-/

set_option autoImplicit false

namespace Elykseer.Foundation.Lineage

variable {α β ν : Type*}

/-! ## Choosing from a list -/

/-- The elements with the indices `is`, in this order. -/
def choose (is : List ℕ) (xs : List α) : List α := is.filterMap (xs[·]?)

/-- Choosing by two lists of indices, one after the other. -/
theorem choose_append_indices (is js : List ℕ) (xs : List α) :
    choose (is ++ js) xs = choose is xs ++ choose js xs := List.filterMap_append

/-- More elements make no difference. -/
theorem choose_append {is : List ℕ} {xs : List α} (h : ∀ i ∈ is, i < xs.length) (ys : List α) :
    choose is (xs ++ ys) = choose is xs := by
  apply List.filterMap_congr
  intro i hi
  exact List.getElem?_append_left (h i hi)

/-- The last element is chosen by its index. -/
theorem choose_last (xs : List α) (x : α) : choose [xs.length] (xs ++ [x]) = [x] := by
  simp [choose]

/-- Related lists are related at each index. -/
theorem rel_getElem? {R : α → β → Prop} {xs : List α} {ys : List β} (h : List.Forall₂ R xs ys)
    (i : ℕ) : Option.Rel R xs[i]? ys[i]? := by
  by_cases hi : i < xs.length
  · have hi' : i < ys.length := h.length_eq ▸ hi
    rw [List.getElem?_eq_getElem hi, List.getElem?_eq_getElem hi']
    exact .some (h.get hi hi')
  · have hi' : ¬ i < ys.length := h.length_eq ▸ hi
    rw [List.getElem?_eq_none (Nat.not_lt.mp hi), List.getElem?_eq_none (Nat.not_lt.mp hi')]
    exact .none

/-- What is chosen from related lists is related. -/
theorem forall₂_choose {R : α → β → Prop} {xs : List α} {ys : List β} (h : List.Forall₂ R xs ys)
    (is : List ℕ) : List.Forall₂ R (choose is xs) (choose is ys) := by
  induction is with
  | nil => exact .nil
  | cons i is ih =>
    have hi := rel_getElem? h i
    rw [choose, choose, List.filterMap_cons, List.filterMap_cons]
    cases hx : xs[i]? <;> cases hy : ys[i]? <;> rw [hx, hy] at hi <;> cases hi
    · exact ih
    · next hrel => exact .cons hrel ih

/-! ## Nodes that continue earlier ones -/

/-- What belongs to the node that is continued, if there is one. -/
def parent (i? : Option ℕ) (xs : List α) : Option α := i?.bind (xs[·]?)

/-- Related lists have related parents. -/
theorem rel_parent {R : α → β → Prop} {xs : List α} {ys : List β} (h : List.Forall₂ R xs ys)
    (i? : Option ℕ) : Option.Rel R (parent i? xs) (parent i? ys) := by
  cases i? with
  | none => exact .none
  | some i => exact rel_getElem? h i

variable (continues : ν → Option ℕ)

/-- What is accumulated by `g` from node to node, starting with `a`. -/
def accumulate (g : α → ν → α) (a : α) (nodes : List ν) : List α :=
  nodes.foldl (fun xs n => xs ++ [g ((parent (continues n) xs).getD a) n]) []

/-- What `f` makes of each node and of what has been accumulated before it. -/
def made (g : α → ν → α) (a : α) (f : α → ν → β) (nodes : List ν) : List β :=
  (nodes.foldl (fun st n => (st.1 ++ [g ((parent (continues n) st.1).getD a) n],
    st.2 ++ [f ((parent (continues n) st.1).getD a) n])) (([] : List α), ([] : List β))).2

/-- The indices of the nodes that lead to each node. -/
def lineages (nodes : List ν) : List (List ℕ) :=
  nodes.foldl (fun ls n => ls ++ [(parent (continues n) ls).getD [] ++ [ls.length]]) []

/-- What the last node accumulates. -/
theorem accumulate_concat (g : α → ν → α) (a : α) (nodes : List ν) (n : ν) :
    accumulate continues g a (nodes ++ [n]) = accumulate continues g a nodes ++
      [g ((parent (continues n) (accumulate continues g a nodes)).getD a) n] := by
  rw [accumulate, List.foldl_concat]
  rfl

/-- What is made of the last node. -/
theorem made_concat (g : α → ν → α) (a : α) (f : α → ν → β) (nodes : List ν) (n : ν) :
    made continues g a f (nodes ++ [n]) = made continues g a f nodes ++
      [f ((parent (continues n) (accumulate continues g a nodes)).getD a) n] := by
  have hfst : ∀ (nodes : List ν) (xs : List α) (bs : List β),
      (nodes.foldl (fun st n => (st.1 ++ [g ((parent (continues n) st.1).getD a) n],
        st.2 ++ [f ((parent (continues n) st.1).getD a) n])) (xs, bs)).1 =
      nodes.foldl (fun xs n => xs ++ [g ((parent (continues n) xs).getD a) n]) xs := by
    intro nodes
    induction nodes with
    | nil => exact fun _ _ => rfl
    | cons n nodes ih => exact fun xs bs => ih _ _
  rw [made, List.foldl_concat, hfst]
  rfl

/-- The lineage of the last node is that of its parent, and then the node itself. -/
theorem lineages_concat (nodes : List ν) (n : ν) :
    lineages continues (nodes ++ [n]) = lineages continues nodes ++
      [(parent (continues n) (lineages continues nodes)).getD [] ++
        [(lineages continues nodes).length]] := by
  rw [lineages, List.foldl_concat]
  rfl

variable {continues}

/-- Every node has a lineage. -/
theorem length_lineages (nodes : List ν) : (lineages continues nodes).length = nodes.length := by
  induction nodes using List.reverseRecOn with
  | nil => rfl
  | append_singleton nodes n ih =>
    rw [lineages_concat, List.length_append, List.length_append, ih]
    rfl

/-- Something is made of every node. -/
theorem length_made (g : α → ν → α) (a : α) (f : α → ν → β) (nodes : List ν) :
    (made continues g a f nodes).length = nodes.length := by
  induction nodes using List.reverseRecOn with
  | nil => rfl
  | append_singleton nodes n ih =>
    rw [made_concat, List.length_append, List.length_append, ih]
    rfl

/-- If a node is made into itself, the nodes are made. -/
theorem made_self (g : α → ν → α) (a : α) (nodes : List ν) :
    made continues g a (fun _ n => n) nodes = nodes := by
  induction nodes using List.reverseRecOn with
  | nil => rfl
  | append_singleton nodes n ih => rw [made_concat, ih]

/-- A value that is accumulated up to a node came from `g`. -/
theorem accumulate_induction {g : α → ν → α} {a : α} {P : α → Prop} {nodes : List ν} (hstart : P a)
    (hstep : ∀ x, P x → ∀ n ∈ nodes, P (g x n)) : ∀ x ∈ accumulate continues g a nodes, P x := by
  induction nodes using List.reverseRecOn with
  | nil => simp [accumulate]
  | append_singleton nodes n ih =>
    have hold := ih fun x hx m hm => hstep x hx m (List.mem_append_left _ hm)
    intro x hx
    rw [accumulate_concat, List.mem_append, List.mem_singleton] at hx
    rcases hx with hx | rfl
    · exact hold x hx
    apply hstep _ _ n (by simp)
    cases hp : parent (continues n) (accumulate continues g a nodes) with
    | none => exact hstart
    | some y =>
      obtain ⟨j, -, hj⟩ := Option.bind_eq_some_iff.mp hp
      exact hold y (List.mem_of_getElem? hj)

/-- The indices in a lineage are those of nodes. -/
theorem lt_of_mem_lineages {nodes : List ν} {l : List ℕ} (hl : l ∈ lineages continues nodes) {i : ℕ}
    (hi : i ∈ l) : i < nodes.length := by
  induction nodes using List.reverseRecOn generalizing l i with
  | nil => cases hl
  | append_singleton nodes n ih =>
    rw [List.length_append, List.length_singleton]
    rw [lineages_concat, List.mem_append, List.mem_singleton] at hl
    rcases hl with hl | rfl
    · exact Nat.lt_succ_of_lt (ih hl hi)
    rcases List.mem_append.mp hi with hi | hi
    · cases hp : parent (continues n) (lineages continues nodes) with
      | none =>
        rw [hp] at hi
        cases hi
      | some l' =>
        rw [hp, Option.getD_some] at hi
        obtain ⟨j, -, hj⟩ := Option.bind_eq_some_iff.mp hp
        exact Nat.lt_succ_of_lt (ih (List.mem_of_getElem? hj) hi)
    · rw [List.mem_singleton.mp hi, length_lineages]
      exact Nat.lt_succ_self _

/-- **Along the lineage.**  What relates the nodes of a lineage to what is accumulated holds for
each node if each step keeps it. -/
theorem made_lineage {g : α → ν → α} {a : α} {f : α → ν → β} {P : List β → α → Prop}
    {nodes : List ν} (hstart : P [] a)
    (hstep : ∀ bs x, P bs x → ∀ n ∈ nodes, P (bs ++ [f x n]) (g x n)) :
    List.Forall₂ (fun l x => P (choose l (made continues g a f nodes)) x)
      (lineages continues nodes) (accumulate continues g a nodes) := by
  induction nodes using List.reverseRecOn with
  | nil => exact .nil
  | append_singleton nodes n ih =>
    have hold := ih fun bs x h m hm => hstep bs x h m (List.mem_append_left _ hm)
    have hlt : ∀ l ∈ lineages continues nodes, ∀ i ∈ l,
        i < (made continues g a f nodes).length := by
      intro l hl i hi
      rw [length_made]
      exact lt_of_mem_lineages hl hi
    rw [lineages_concat, accumulate_concat, made_concat]
    apply List.rel_append
    · refine ((List.forall₂_and_left _ _).mpr ⟨hlt, hold⟩).imp ?_
      rintro l x ⟨hl, h⟩
      rwa [choose_append hl]
    · refine .cons ?_ .nil
      have hlen : (lineages continues nodes).length = (made continues g a f nodes).length := by
        rw [length_lineages, length_made]
      rw [choose_append_indices, hlen, choose_last]
      apply hstep _ _ _ n (by simp)
      have hrel := rel_parent hold (continues n)
      cases hl : parent (continues n) (lineages continues nodes) with
      | none =>
        cases hx : parent (continues n) (accumulate continues g a nodes) with
        | none => exact hstart
        | some x =>
          rw [hl, hx] at hrel
          cases hrel
      | some l =>
        cases hx : parent (continues n) (accumulate continues g a nodes) with
        | none =>
          rw [hl, hx] at hrel
          cases hrel
        | some x =>
          rw [hl, hx] at hrel
          obtain ⟨j, -, hj⟩ := Option.bind_eq_some_iff.mp hl
          cases hrel with
          | some h =>
            rw [Option.getD_some, Option.getD_some,
              choose_append (hlt l (List.mem_of_getElem? hj))]
            exact h

end Elykseer.Foundation.Lineage
