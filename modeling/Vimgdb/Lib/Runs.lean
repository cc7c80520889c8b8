import Mathlib.Algebra.BigOperators.Group.Finset.Basic
import Mathlib.Tactic.Common

/-!
# Runs of a labelled step relation

A system is a relation `step : σ → ε → σ → Prop`; a run is a finite sequence of its steps.

* `Run step s es t`: the events `es`, in order, lead from `s` to `t`.
* `Run.invariant`: what every step keeps holds at the end of every run.
* `Run.mono`: a run of a relation is a run of every weaker one.
* `Run.guarded_iff`: two ways of restricting the steps allow the same runs, when they agree on
  every state that satisfies an invariant.
* `Run.length_le`: a measure that every step lowers bounds the length of a run.
* `sum_update_add`: such a measure is often a sum over the threads of a system.
* `Reachable step init s`: some run leads from an initial state to `s`.
-/

namespace Runs

variable {σ ε : Type*} {step step' : σ → ε → σ → Prop}

/-! ## Runs -/

/-- The events `es`, taken in order, lead from `s` to `t`. -/
inductive Run (step : σ → ε → σ → Prop) (s : σ) : List ε → σ → Prop
  | nil : Run step s [] s
  | snoc {t u : σ} {es : List ε} {e : ε} :
      Run step s es t → step t e u → Run step s (es ++ [e]) u

/-- What holds at the start and is kept by every step holds before each of them. -/
theorem Run.strengthen {I : σ → Prop} {s t : σ} {es : List ε} (hrun : Run step s es t)
    (hinit : I s) (hkeep : ∀ t e u, I t → step t e u → I u) :
    Run (fun s e t => I s ∧ step s e t) s es t ∧ I t := by
  induction hrun with
  | nil => exact ⟨Run.nil, hinit⟩
  | snoc _ hstep ih => exact ⟨Run.snoc ih.1 ⟨ih.2, hstep⟩, hkeep _ _ _ ih.2 hstep⟩

/-- What holds at the start and is kept by every step holds at the end. -/
theorem Run.invariant {I : σ → Prop} {s t : σ} {es : List ε} (hrun : Run step s es t)
    (hinit : I s) (hkeep : ∀ t e u, I t → step t e u → I u) : I t := by
  induction hrun with
  | nil => exact hinit
  | snoc _ hstep ih => exact hkeep _ _ _ ih hstep

/-- A run of a relation is a run of every weaker relation. -/
theorem Run.mono (h : ∀ s e t, step s e t → step' s e t) {s t : σ} {es : List ε}
    (hrun : Run step s es t) : Run step' s es t := by
  induction hrun with
  | nil => exact Run.nil
  | snoc _ hstep ih => exact Run.snoc ih (h _ _ _ hstep)

/-- Runs compose. -/
theorem Run.append {s t u : σ} {es es' : List ε} (h : Run step s es t) (h' : Run step t es' u) :
    Run step s (es ++ es') u := by
  induction h' with
  | nil => simpa using h
  | snoc _ hstep ih =>
      rw [← List.append_assoc]
      exact Run.snoc ih hstep

/-- A step before a run. -/
theorem Run.head {s t u : σ} {e : ε} {es : List ε} (hstep : step s e t) (h : Run step t es u) :
    Run step s (e :: es) u :=
  (Run.nil.snoc hstep).append h

/-- Two restrictions of one relation have the same runs when they agree on the steps taken
from states satisfying an invariant which the second one keeps. -/
theorem Run.guarded_iff {I : σ → Prop} {g g' : σ → ε → σ → Prop} {s : σ} (hinit : I s)
    (hkeep : ∀ t e u, I t → step t e u → g' t e u → I u)
    (hiff : ∀ t e u, I t → step t e u → (g t e u ↔ g' t e u)) (es : List ε) (t : σ) :
    Run (fun s e t => step s e t ∧ g s e t) s es t ↔
      Run (fun s e t => step s e t ∧ g' s e t) s es t := by
  have hinv : ∀ {es t}, Run (fun s e t => step s e t ∧ g' s e t) s es t → I t := fun hrun =>
    hrun.invariant hinit fun t e u ht hstep => hkeep t e u ht hstep.1 hstep.2
  constructor
  · intro hrun
    induction hrun with
    | nil => exact Run.nil
    | snoc _ hstep ih =>
        exact Run.snoc ih ⟨hstep.1, (hiff _ _ _ (hinv ih) hstep.1).mp hstep.2⟩
  · intro hrun
    induction hrun with
    | nil => exact Run.nil
    | snoc hrun hstep ih =>
        exact Run.snoc ih ⟨hstep.1, (hiff _ _ _ (hinv hrun) hstep.1).mpr hstep.2⟩

/-- A measure that every step lowers bounds the number of steps. -/
theorem Run.length_le {μ : σ → Nat} (hlower : ∀ s e t, step s e t → μ t < μ s) {s t : σ}
    {es : List ε} (hrun : Run step s es t) : es.length + μ t ≤ μ s := by
  induction hrun with
  | nil => simp
  | snoc _ hstep ih =>
      have hlt := hlower _ _ _ hstep
      rw [List.length_append, List.length_singleton]
      omega

/-- When one thread moves, a sum over all threads changes by what is counted for that thread. -/
theorem sum_update_add {T P : Type*} [Fintype T] [DecidableEq T] (w : P → Nat) (f : T → P) (t : T)
    (p : P) : ∑ u, w (Function.update f t p u) + w (f t) = ∑ u, w (f u) + w p := by
  have hrest : ∑ u ∈ Finset.univ.erase t, w (Function.update f t p u) =
      ∑ u ∈ Finset.univ.erase t, w (f u) := by
    apply Finset.sum_congr rfl
    intro u hu
    rw [Function.update_of_ne (Finset.ne_of_mem_erase hu)]
  rw [← Finset.add_sum_erase Finset.univ _ (Finset.mem_univ t), hrest, Function.update_self,
    ← Finset.add_sum_erase Finset.univ (fun u => w (f u)) (Finset.mem_univ t)]
  omega

/-! ## Reachable states -/

/-- Some run leads from an initial state to `s`. -/
def Reachable (step : σ → ε → σ → Prop) (init : σ → Prop) (s : σ) : Prop :=
  ∃ s₀ es, init s₀ ∧ Run step s₀ es s

/-- An inductive invariant holds in every reachable state. -/
theorem Reachable.invariant {init I : σ → Prop} {s : σ} (h : Reachable step init s)
    (hinit : ∀ s, init s → I s) (hkeep : ∀ t e u, I t → step t e u → I u) : I s := by
  obtain ⟨s₀, es, hs₀, hrun⟩ := h
  exact hrun.invariant (hinit s₀ hs₀) hkeep

end Runs
