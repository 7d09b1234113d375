import Mathlib.Logic.Function.Basic
import Mathlib.Data.List.Basic

/-!
# Rounds of Copies

Many collective algorithms only move data between their synchronisations:
every PE copies cells, its own or other PEs', into cells, its own or other
PEs', and the next round starts when all of them are done. This module
describes such a round as a list of moves, each a destination cell and a
source cell, run one after another over a memory that maps cells to values.

A list of moves is `Simultaneous` when no move reads a cell that a move
writes, and any two moves onto one cell copy the same source. Then the
order of the moves does not matter, so neither does the interleaving of the
PEs of a round nor of the threads of a PE: after the moves every written
cell holds what its source held before them (`applyMoves_of_mem`) and every
other cell is unchanged (`applyMoves_of_not_mem`). Rounds run by a list of
PEs in lock step, each PE its own moves, are a fold over the rounds
(`lockStep`). Most rounds are a loop run by every PE, with a guard on each
iteration (`loopMoves`), or nested loops; a round is then described by its
iterations (`Iterates`), and the conditions are checked iteration by
iteration (`Iterates.simultaneous`).

## Main definitions

* `Move`: One copy, from a source cell into a destination cell.
* `applyMoves`: Moves run one after another.
* `Simultaneous`: Moves that act as one simultaneous assignment.
* `loopMoves`: The moves of a guarded loop.
* `Iterates`: A round's moves, described by its iterations.
* `lockStep`: Rounds of moves, every PE of a list running its moves of a
  round before the next round starts.

## Theorems

* `applyMoves_of_not_mem`: A cell no move writes keeps its value.
* `applyMoves_of_mem`: Under `Simultaneous`, a written cell gets its
  source's value from before the moves.
* `Iterates.simultaneous`, `Iterates.applyMoves_of_mem`,
  `Iterates.applyMoves_of_not_mem`: The same, for a round given by its
  iterations.
* `lockStep_append`: Rounds split in two.
-/

namespace CopyRound

variable {C α : Type}

/-- One copy: cell `dst` gets what cell `src` holds. -/
structure Move (C : Type) where
  dst : C
  src : C
deriving DecidableEq, Repr

/-- Moves that act as one simultaneous assignment: no move reads a cell a
    move writes, and moves onto one cell copy one source. -/
structure Simultaneous (mvs : List (Move C)) : Prop where
  dst_ne_src : ∀ mv ∈ mvs, ∀ mv' ∈ mvs, mv.dst ≠ mv'.src
  src_eq_of_dst_eq : ∀ mv ∈ mvs, ∀ mv' ∈ mvs, mv.dst = mv'.dst → mv.src = mv'.src

theorem Simultaneous.of_cons {mv : Move C} {mvs : List (Move C)}
    (h : Simultaneous (mv :: mvs)) : Simultaneous mvs :=
  ⟨fun a ha b hb => h.dst_ne_src a (List.mem_cons_of_mem _ ha) b (List.mem_cons_of_mem _ hb),
    fun a ha b hb => h.src_eq_of_dst_eq a (List.mem_cons_of_mem _ ha) b
      (List.mem_cons_of_mem _ hb)⟩

variable [DecidableEq C]

/-- The moves run one after another over the memory `m`. -/
def applyMoves (m : C → α) (mvs : List (Move C)) : C → α :=
  mvs.foldl (fun m mv => Function.update m mv.dst (m mv.src)) m

@[simp] theorem applyMoves_nil (m : C → α) : applyMoves m [] = m := rfl

@[simp] theorem applyMoves_cons (m : C → α) (mv : Move C) (mvs : List (Move C)) :
    applyMoves m (mv :: mvs) = applyMoves (Function.update m mv.dst (m mv.src)) mvs := rfl

/-- A cell no move writes keeps its value. -/
theorem applyMoves_of_not_mem {c : C} {mvs : List (Move C)} (h : ∀ mv ∈ mvs, mv.dst ≠ c)
    (m : C → α) : applyMoves m mvs c = m c := by
  induction mvs generalizing m with
  | nil => rfl
  | cons mv mvs ih =>
    rw [applyMoves_cons, ih (fun mv' hmv' => h mv' (List.mem_cons_of_mem _ hmv')),
      Function.update_of_ne (h mv List.mem_cons_self).symm]

/-- Under `Simultaneous`, a written cell ends up with the value its source
    held before the moves, whichever of the moves onto it runs last. -/
theorem applyMoves_of_mem {mvs : List (Move C)} (h : Simultaneous mvs) {mv : Move C}
    (hmv : mv ∈ mvs) (m : C → α) : applyMoves m mvs mv.dst = m mv.src := by
  induction mvs generalizing m mv with
  | nil => exact absurd hmv List.not_mem_nil
  | cons mv₀ mvs ih =>
    rw [applyMoves_cons]
    by_cases hlater : ∃ mv' ∈ mvs, mv'.dst = mv.dst
    · -- a later move onto the cell copies the same source, which the first
      -- move did not write
      obtain ⟨mv', hmv', hdst⟩ := hlater
      have hmem' : mv' ∈ mv₀ :: mvs := List.mem_cons_of_mem _ hmv'
      rw [← hdst, ih h.of_cons hmv', h.src_eq_of_dst_eq mv' hmem' mv hmv hdst,
        Function.update_of_ne (h.dst_ne_src mv₀ List.mem_cons_self mv hmv).symm]
    · -- no later move writes the cell, so the move is the first one
      have hnot : ∀ mv' ∈ mvs, mv'.dst ≠ mv.dst := fun mv' hmv' hdst => hlater ⟨mv', hmv', hdst⟩
      have hfirst : mv = mv₀ := by
        rcases List.mem_cons.1 hmv with rfl | hin
        · rfl
        · exact absurd rfl (hnot mv hin)
      rw [applyMoves_of_not_mem hnot, hfirst, Function.update_self]

/-! ## Loops of moves -/

/-- The moves of a loop `for (i = 0; i < n; i++) if (guard(i)) move(i)`. -/
def loopMoves (n : Nat) (guard : Nat → Bool) (move : Nat → Move C) : List (Move C) :=
  (List.range n).filterMap fun i => if guard i then some (move i) else none

omit [DecidableEq C] in
theorem mem_loopMoves {n : Nat} {guard : Nat → Bool} {move : Nat → Move C} {mv : Move C} :
    mv ∈ loopMoves n guard move ↔ ∃ i < n, guard i = true ∧ move i = mv := by
  simp only [loopMoves, List.mem_filterMap, List.mem_range, Option.ite_none_right_eq_some,
    Option.some.injEq]

section Rounds

/-! A round is described by its iterations: the moves of PE `p` are
`move p x` for the iterations `x` with `it p x`, whether they come from one
loop, from nested loops or from a loop of library calls. -/

variable {ι : Type} {P : Nat} {blk : Nat → List (Move C)} {it : Nat → ι → Prop}
  {move : Nat → ι → Move C}

/-- The moves of PE `p` are `move p x` for the iterations `x` with `it p x`. -/
def Iterates (blk : Nat → List (Move C)) (it : Nat → ι → Prop) (move : Nat → ι → Move C) :
    Prop :=
  ∀ p mv, mv ∈ blk p ↔ ∃ x, it p x ∧ move p x = mv

omit [DecidableEq C] in
theorem Iterates.mem_flatMap (h : Iterates blk it move) {mv : Move C} :
    mv ∈ (List.range P).flatMap blk ↔ ∃ p < P, ∃ x, it p x ∧ move p x = mv := by
  simp only [List.mem_flatMap, List.mem_range]
  exact exists_congr fun p => and_congr_right fun _ => h p mv

omit [DecidableEq C] in
/-- A round acts simultaneously when no iteration reads a cell an iteration
    writes, and iterations writing one cell read one cell. -/
theorem Iterates.simultaneous (h : Iterates blk it move)
    (hsrc : ∀ p < P, ∀ x, it p x → ∀ p' < P, ∀ x', it p' x' →
      (move p x).dst ≠ (move p' x').src)
    (hdst : ∀ p < P, ∀ x, it p x → ∀ p' < P, ∀ x', it p' x' →
      (move p x).dst = (move p' x').dst → (move p x).src = (move p' x').src) :
    Simultaneous ((List.range P).flatMap blk) := by
  constructor
  · intro mv hmv mv' hmv'
    obtain ⟨p, hp, x, hx, rfl⟩ := h.mem_flatMap.1 hmv
    obtain ⟨p', hp', x', hx', rfl⟩ := h.mem_flatMap.1 hmv'
    exact hsrc p hp x hx p' hp' x' hx'
  · intro mv hmv mv' hmv'
    obtain ⟨p, hp, x, hx, rfl⟩ := h.mem_flatMap.1 hmv
    obtain ⟨p', hp', x', hx', rfl⟩ := h.mem_flatMap.1 hmv'
    exact hdst p hp x hx p' hp' x' hx'

/-- Under `Simultaneous`, the cell an iteration writes gets what its source
    held before the round. -/
theorem Iterates.applyMoves_of_mem (h : Iterates blk it move)
    (hsim : Simultaneous ((List.range P).flatMap blk)) {p : Nat} {x : ι} (hp : p < P)
    (hx : it p x) (m : C → α) :
    applyMoves m ((List.range P).flatMap blk) (move p x).dst = m (move p x).src :=
  CopyRound.applyMoves_of_mem hsim (h.mem_flatMap.2 ⟨p, hp, x, hx, rfl⟩) m

/-- A cell that no iteration of the round writes keeps its value. -/
theorem Iterates.applyMoves_of_not_mem (h : Iterates blk it move) {c : C}
    (hc : ∀ p < P, ∀ x, it p x → (move p x).dst ≠ c) (m : C → α) :
    applyMoves m ((List.range P).flatMap blk) c = m c := by
  refine CopyRound.applyMoves_of_not_mem (fun mv hmv => ?_) m
  obtain ⟨p, hp, x, hx, rfl⟩ := h.mem_flatMap.1 hmv
  exact hc p hp x hx

end Rounds

/-! ## Rounds in lock step -/

/-- Rounds in lock step: in each round every PE of `ps`, in order, runs its
    moves of the round. -/
def lockStep (ps : List Nat) (rounds : List (Nat → List (Move C))) (m : C → α) : C → α :=
  rounds.foldl (fun m blk => applyMoves m (ps.flatMap blk)) m

@[simp] theorem lockStep_nil (ps : List Nat) (m : C → α) : lockStep ps [] m = m := rfl

@[simp] theorem lockStep_cons (ps : List Nat) (blk : Nat → List (Move C))
    (rounds : List (Nat → List (Move C))) (m : C → α) :
    lockStep ps (blk :: rounds) m = lockStep ps rounds (applyMoves m (ps.flatMap blk)) := rfl

theorem lockStep_append (ps : List Nat) (r₁ r₂ : List (Nat → List (Move C))) (m : C → α) :
    lockStep ps (r₁ ++ r₂) m = lockStep ps r₂ (lockStep ps r₁ m) :=
  List.foldl_append

end CopyRound
