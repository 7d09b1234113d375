import Mathlib.Logic.Function.Basic
import Mathlib.Logic.Relation

/-!
# Programs Interleaved with an Environment

A thread runs a program, a list of actions, against components that also
move on their own. Each action is a step of the thread's own relation
`act a`; between two actions, and after the last, any number of
environment steps `env` may happen. `Runs1` is such a run on one component.

`Runs` is a run on a family of components indexed by `ι`, each action
addressed to one of them, and each environment step taken by one of them.
The components share nothing, so a run of the family is, on each component,
a run of the actions addressed to it (`Runs.proj`). A fact about what one
component's actions achieve then holds in the family whatever the other
components do in between.

## Main definitions

* `Runs1`: A run of a program on one component.
* `Runs`: A run of a program on a family of components.
* `onComponent`: The actions of a program addressed to one component.

## Theorems

* `Runs1.cons_inv`: A run of an action and a program: environment steps,
  the action, then the rest.
* `Runs.proj`: A run of the family is a run of each component.
-/

namespace Interleave

variable {σ α : Type} (env : σ → σ → Prop) (act : α → σ → σ → Prop)

/-- The program runs from the first state to the second, with environment
    steps anywhere. -/
inductive Runs1 : List α → σ → σ → Prop where
  | done (s : σ) : Runs1 [] s s
  | env {prog : List α} {s s₁ s' : σ} : env s s₁ → Runs1 prog s₁ s' → Runs1 prog s s'
  | act {a : α} {prog : List α} {s s₁ s' : σ} :
      act a s s₁ → Runs1 prog s₁ s' → Runs1 (a :: prog) s s'

variable {env act}

namespace Runs1

/-- A run of an action and a program takes environment steps, then the
    action, then runs the program. -/
theorem cons_inv {a : α} {prog : List α} {s s' : σ} (h : Runs1 env act (a :: prog) s s') :
    ∃ s₁ s₂, Relation.ReflTransGen env s s₁ ∧ act a s₁ s₂ ∧ Runs1 env act prog s₂ s' := by
  generalize hprog : a :: prog = l at h
  induction h with
  | done s => cases hprog
  | env henv _ ih =>
    obtain ⟨s₁, s₂, henvs, hact, hrun⟩ := ih hprog
    exact ⟨s₁, s₂, Relation.ReflTransGen.head henv henvs, hact, hrun⟩
  | @act b rest s s₁ s' hact hrun _ =>
    obtain ⟨rfl, rfl⟩ := List.cons_eq_cons.mp hprog
    exact ⟨s, s₁, Relation.ReflTransGen.refl, hact, hrun⟩

/-- A run of the empty program is environment steps only. -/
theorem nil_inv {s s' : σ} (h : Runs1 env act [] s s') : Relation.ReflTransGen env s s' := by
  generalize hprog : ([] : List α) = l at h
  induction h with
  | done s => exact Relation.ReflTransGen.refl
  | env henv _ ih => exact Relation.ReflTransGen.head henv (ih hprog)
  | act _ _ _ => cases hprog

end Runs1

variable {ι : Type} [DecidableEq ι]

variable (env act) in
/-- The program runs the family of components from the first states to the
    second; each action, and each environment step, is taken by one
    component. -/
inductive Runs : List (ι × α) → (ι → σ) → (ι → σ) → Prop where
  | done (f : ι → σ) : Runs [] f f
  | env {prog : List (ι × α)} {f g : ι → σ} {s₁ : σ} (i : ι) :
      env (f i) s₁ → Runs prog (Function.update f i s₁) g → Runs prog f g
  | act {a : α} {prog : List (ι × α)} {f g : ι → σ} {s₁ : σ} (i : ι) :
      act a (f i) s₁ → Runs prog (Function.update f i s₁) g → Runs ((i, a) :: prog) f g

/-- The actions of a program addressed to component `i`, in order. -/
def onComponent (i : ι) (prog : List (ι × α)) : List α :=
  prog.filterMap fun p => if p.1 = i then some p.2 else none

@[simp] theorem onComponent_nil (i : ι) : onComponent i ([] : List (ι × α)) = [] := rfl

theorem onComponent_cons (i j : ι) (a : α) (prog : List (ι × α)) :
    onComponent i ((j, a) :: prog) = if j = i then a :: onComponent i prog
      else onComponent i prog := by
  by_cases hj : j = i <;> simp [onComponent, hj]

/-- On each component, a run of the family is a run of the actions
    addressed to it. -/
theorem Runs.proj {prog : List (ι × α)} {f g : ι → σ} (h : Runs env act prog f g) (i : ι) :
    Runs1 env act (onComponent i prog) (f i) (g i) := by
  -- induction on the run; a step of another component leaves `i` as it is
  induction h with
  | done f => exact .done (f i)
  | @env prog f g s₁ j henv _ ih =>
    by_cases hj : j = i
    · subst hj
      rw [Function.update_self] at ih
      exact .env henv ih
    · rwa [Function.update_of_ne (Ne.symm hj)] at ih
  | @act a prog f g s₁ j hact _ ih =>
    rw [onComponent_cons]
    by_cases hj : j = i
    · subst hj
      rw [Function.update_self] at ih
      rw [if_pos rfl]
      exact .act hact ih
    · rw [Function.update_of_ne (Ne.symm hj)] at ih
      rwa [if_neg hj]

end Interleave
