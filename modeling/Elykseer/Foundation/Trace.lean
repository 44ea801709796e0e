import Mathlib.Data.List.Basic

/-!
# Runs that emit

A transition that emits a list of events, and its runs, which emit the events of their
transitions in order.  An invariant relates a state to all that has been emitted so far;
`Trace.invariant` is the induction over a run.
-/

set_option autoImplicit false

namespace Elykseer.Foundation

variable {σ ε : Type*}

/-- The runs of a transition relation, with what they emit. -/
inductive Trace (step : σ → List ε → σ → Prop) : σ → List ε → σ → Prop
  | refl (s : σ) : Trace step s [] s
  | tail {s s' s'' : σ} {es es' : List ε} (h : Trace step s es s') (hstep : step s' es' s'') :
      Trace step s (es ++ es') s''

namespace Trace

variable {step : σ → List ε → σ → Prop}

/-- One step is a trace. -/
theorem single {s s' : σ} {es : List ε} (h : step s es s') : Trace step s es s' :=
  tail (refl s) h

/-- Two traces, the second from where the first ends, are one. -/
theorem trans {s s' s'' : σ} {es es' : List ε} (h : Trace step s es s')
    (h' : Trace step s' es' s'') : Trace step s (es ++ es') s'' := by
  induction h' with
  | refl => rwa [List.append_nil]
  | tail h' hstep ih =>
    rw [← List.append_assoc]
    exact tail ih hstep

/-- A run followed by a run that emits nothing. -/
theorem trans_silent {s s' s'' : σ} {es : List ε} (h : Trace step s es s')
    (h' : Trace step s' [] s'') : Trace step s es s'' := by
  simpa using h.trans h'

/-- A run that emits nothing followed by a run. -/
theorem silent_trans {s s' s'' : σ} {es : List ε} (h : Trace step s [] s')
    (h' : Trace step s' es s'') : Trace step s es s'' :=
  h.trans h'

/-- What every transition preserves, holds at the end of every run. -/
theorem invariant {I : σ → List ε → Prop}
    (hstep : ∀ {s es es' s'}, I s es → step s es' s' → I s' (es ++ es')) {s s' : σ}
    {es₀ es : List ε} (h : Trace step s es s') (h₀ : I s es₀) : I s' (es₀ ++ es) := by
  induction h with
  | refl => rwa [List.append_nil]
  | tail h hlast ih =>
    rw [← List.append_assoc]
    exact hstep ih hlast

/-- What holds at the start and is preserved, holds at the end. -/
theorem invariant_start {I : σ → List ε → Prop}
    (hstep : ∀ {s es es' s'}, I s es → step s es' s' → I s' (es ++ es')) {s s' : σ}
    {es : List ε} (h : Trace step s es s') (h₀ : I s []) : I s' es :=
  invariant hstep h h₀

end Trace

end Elykseer.Foundation
