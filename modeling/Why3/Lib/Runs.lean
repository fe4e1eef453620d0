import Mathlib.Tactic

/-!
# Runs of a transition function

A partial transition function on states, and the runs whose steps all meet a
condition on the state before the step and the action.
-/

namespace Runs

variable {σ α : Type} {step : σ → α → Option σ} {ok : σ → α → Prop}

inductive Run (step : σ → α → Option σ) (ok : σ → α → Prop) (s : σ) : σ → Prop
  | refl : Run step ok s s
  | tail {t u : σ} {a : α} : Run step ok s t → ok t a → step t a = some u → Run step ok s u

/-- An invariant that one step keeps is kept by every run. -/
theorem Run.invariant {P : σ → Prop} (hstep : ∀ s a t, P s → ok s a → step s a = some t → P t)
    {s t : σ} (h : Run step ok s t) (hs : P s) : P t := by
  induction h with
  | refl => exact hs
  | tail _ hok hst ih => exact hstep _ _ _ ih hok hst

theorem Run.trans {s t u : σ} (h : Run step ok s t) (h' : Run step ok t u) : Run step ok s u := by
  induction h' with
  | refl => exact h
  | tail _ hok hst ih => exact ih.tail hok hst

theorem Run.single {s t : σ} {a : α} (hok : ok s a) (h : step s a = some t) : Run step ok s t :=
  Run.refl.tail hok h

end Runs
