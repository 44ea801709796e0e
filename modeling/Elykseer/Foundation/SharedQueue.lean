import Elykseer.Foundation.Trace

/-!
# A queue that is taken as a whole

What is pushed to a queue and what is taken from it, whoever does it: in every run the
elements pushed are, in order, the elements taken and those that are still in the queue
(`pushes_eq`).
-/

set_option autoImplicit false

namespace Elykseer.Foundation.SharedQueue

variable {α : Type}

/-- What happens to a queue. -/
inductive Event (α : Type)
  | pushed (a : α)
  | taken (as : List α)

/-- The elements that are pushed, in order. -/
def pushes (es : List (Event α)) : List α :=
  es.filterMap fun
    | .pushed a => some a
    | .taken _ => none

/-- The contents that are taken, in order. -/
def takes (es : List (Event α)) : List (List α) :=
  es.filterMap fun
    | .pushed _ => none
    | .taken as => some as

/-- What is pushed, in two parts. -/
@[simp] theorem pushes_append (es es' : List (Event α)) : pushes (es ++ es') = pushes es ++ pushes es' :=
  List.filterMap_append

/-- What is taken, in two parts. -/
@[simp] theorem takes_append (es es' : List (Event α)) : takes (es ++ es') = takes es ++ takes es' :=
  List.filterMap_append

/-- An element is pushed, the queue is taken, or nothing happens to it. -/
inductive Step : List α → List (Event α) → List α → Prop
  | push (q : List α) (a : α) : Step q [.pushed a] (q ++ [a])
  | take (q : List α) : Step q [.taken q] []
  | stay (q : List α) : Step q [] q

/-- What was there and what is pushed is what is taken and what is left. -/
theorem Step.pushes_eq {q q' : List α} {es : List (Event α)} (h : Step q es q') :
    q ++ pushes es = (takes es).flatten ++ q' := by
  cases h <;> simp [pushes, takes]

/-- **Everything that is pushed is taken once, in order**, or still in the queue. -/
theorem pushes_eq {q q' : List α} {es : List (Event α)} (h : Trace Step q es q') :
    q ++ pushes es = (takes es).flatten ++ q' := by
  have hrun := Trace.invariant_start
    (I := fun q' es => q ++ pushes es = (takes es).flatten ++ q')
    (fun {s es es' s'} hI hstep => by
      rw [pushes_append, takes_append, List.flatten_append, ← List.append_assoc, hI,
        List.append_assoc, hstep.pushes_eq, List.append_assoc])
    h (by simp [pushes, takes])
  exact hrun

end Elykseer.Foundation.SharedQueue
