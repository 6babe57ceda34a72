import Mathlib.Data.List.Basic
import Mathlib.Data.Nat.Notation

/-!
# Runs of a transition system

A system that takes one step after the other, each of them an action of one of its parties, is a
relation between a state, an action and the next state. `Trace step s xs t` is a run from `s` to
`t`; its list has the actions with the states that they are made from. An invariant holds in all
states of a run (`Trace.invariant`), so what it says about one step holds of every step of the run
(`Trace.forall_step`).
-/

namespace Miscellany

/-- The steps of a run with the states that they are made from. -/
inductive Trace {σ α : Type*} (step : σ → α → σ → Prop) (s : σ) : List (σ × α) → σ → Prop where
  | nil : Trace step s [] s
  | snoc {xs : List (σ × α)} {t u : σ} {a : α} (hrun : Trace step s xs t) (hstep : step t a u) :
      Trace step s (xs ++ [(t, a)]) u

namespace Trace

variable {σ α : Type*} {step : σ → α → σ → Prop} {s t : σ} {xs : List (σ × α)} {I : σ → Prop}

/-- What every step keeps holds at the end of a run. -/
theorem invariant (hrun : Trace step s xs t) (hs : I s)
    (hstep : ∀ u a v, I u → step u a v → I v) : I t := by
  induction hrun with
  | nil => exact hs
  | snoc hrun h ih => exact hstep _ _ _ ih h

/-- Every step of a run is made from a state with the invariant. -/
theorem forall_step (hrun : Trace step s xs t) (hs : I s)
    (hstep : ∀ u a v, I u → step u a v → I v) : ∀ x ∈ xs, I x.1 ∧ ∃ v, step x.1 x.2 v := by
  induction hrun with
  | nil => exact List.forall_mem_nil _
  | @snoc xs t u a hrun h ih =>
      refine List.forall_mem_append.2 ⟨ih, List.forall_mem_singleton.2 ⟨?_, u, h⟩⟩
      exact hrun.invariant hs hstep

end Trace

end Miscellany
