import CommServer.Transition.System
import Mathlib.Logic.Relation

/-!
# Refinement — a system seen from outside

A system is seen through `view`, a function of its state and of the run that led there.  It refines a
relation `R` between views when each of its steps is a step of `R`, or is not seen at all.

* `Refines`           : the simulation, step by step;
* `Refines.run`       : a run is seen as a sequence of steps of `R`;
* `Refines.invariant` : what `R` preserves holds of every view.
-/

namespace CommServer
namespace Transition

variable {σ α τ : Type}

/-- Every step of a run from `s₀` is seen as a step of `R`, or not at all. -/
def Refines (step : σ → α → Option σ) (s₀ : σ) (view : List α → σ → τ) (R : τ → τ → Prop) : Prop :=
  ∀ as s a s', exec step s₀ as = some s → step s a = some s' →
    Relation.ReflGen R (view as s) (view (as ++ [a]) s')

namespace Refines

variable {step : σ → α → Option σ} {s₀ s t : σ} {view : List α → σ → τ} {R : τ → τ → Prop}
  {as bs : List α}

theorem run (h : Refines step s₀ view R) (hs : exec step s₀ as = some s)
    (ht : exec step s bs = some t) : Relation.ReflTransGen R (view as s) (view (as ++ bs) t) := by
  refine exec_induct_run (I := fun bs t => Relation.ReflTransGen R (view as s) (view (as ++ bs) t))
    ?_ ?_ ht
  · rw [List.append_nil]
  · intro bs t a t' hbs hseen hstep
    have hrun : exec step s₀ (as ++ bs) = some t := (exec_append hs).trans hbs
    have hone := h (as ++ bs) t a t' hrun hstep
    rw [List.append_assoc] at hone
    exact hseen.trans hone.to_reflTransGen

/-- What no step of `R` leaves is left by no run. -/
theorem invariant (h : Refines step s₀ view R) {P : τ → Prop} (hR : ∀ x y, P x → R x y → P y)
    (hs : exec step s₀ as = some s) (ht : exec step s bs = some t) (hP : P (view as s)) :
    P (view (as ++ bs) t) := by
  have hall : ∀ y, Relation.ReflTransGen R (view as s) y → P y := by
    intro y hseen
    induction hseen with
    | refl => exact hP
    | tail _ hone ih => exact hR _ _ ih hone
  exact hall _ (h.run hs ht)

end Refines

end Transition
end CommServer
