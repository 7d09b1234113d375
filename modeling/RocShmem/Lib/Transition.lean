import Mathlib.Logic.Relation

/-!
# Transition Systems

A system given by a start state and a step relation, and the states it can
reach. The relation says what one atomic step of one of the system's parties
can do; reachability is any number of steps, so a fact about every reachable
state is a fact about every interleaving of the parties.

Safety is proved by an inductive invariant: a property of states that holds
at the start and that every step keeps holds in every reachable state
(`Reachable.invariant`).

## Main definitions

* `Reachable`: The states reachable from a start state.

## Theorems

* `Reachable.invariant`: The invariant rule.
-/

namespace Transition

variable {σ : Type}

/-- The states reachable from `init` by any number of steps. -/
def Reachable (step : σ → σ → Prop) (init : σ) : σ → Prop :=
  Relation.ReflTransGen step init

namespace Reachable

variable {step : σ → σ → Prop} {init : σ}

theorem refl : Reachable step init init := Relation.ReflTransGen.refl

theorem tail {s s' : σ} (h : Reachable step init s) (hs : step s s') : Reachable step init s' :=
  Relation.ReflTransGen.tail h hs

/-- The invariant rule: what holds at the start and is kept by every step
    from a reachable state holds in every reachable state. -/
theorem invariant {I : σ → Prop} (hinit : I init)
    (hstep : ∀ s s', Reachable step init s → I s → step s s' → I s')
    {s : σ} (h : Reachable step init s) : I s := by
  induction h with
  | refl => exact hinit
  | tail hreach hs ih => exact hstep _ _ hreach ih hs

end Reachable

end Transition
