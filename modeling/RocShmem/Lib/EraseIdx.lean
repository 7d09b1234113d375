import Mathlib.Data.List.Perm.Basic

/-!
# Erasing Several Positions of a List

Erasing a position of a list shifts every later element down by one, so
erasing several positions one after another in an arbitrary order may hit
elements other than the ones that were at those positions. Erasing them
from the highest position down does not: every erase leaves the lower
positions where they were, and the list loses exactly the elements that
were at the erased positions at the start (`perm_foldl_eraseIdx`). Sorting
distinct positions with a `≥` comparison gives such an order
(`pairwise_gt_mergeSort`).

## Theorems

* `perm_foldl_eraseIdx`: Erasing from the highest position down removes the
  elements at those positions.
* `pairwise_gt_mergeSort`: Distinct numbers sorted by `≥` go strictly down.
-/

namespace EraseIdx

variable {α : Type}

/-- Erasing the positions `is`, highest first, removes exactly the elements
    that were at those positions. -/
theorem perm_foldl_eraseIdx (l : List α) {is : List Nat} (hdesc : is.Pairwise (· > ·))
    (hlt : ∀ i ∈ is, i < l.length) :
    l.Perm (is.foldl (fun l i => l.eraseIdx i) l ++ is.filterMap fun i => l[i]?) := by
  induction is generalizing l with
  | nil => simp
  | cons i is ih =>
      rw [List.pairwise_cons] at hdesc
      have hi := hlt i List.mem_cons_self
      -- The lower positions still hold what they held before `i` was erased.
      have hlt' : ∀ j ∈ is, j < (l.eraseIdx i).length := by
        intro j hj
        have := hdesc.1 j hj
        rw [List.length_eraseIdx_of_lt hi]
        omega
      have hget : (is.filterMap fun j => (l.eraseIdx i)[j]?) = is.filterMap fun j => l[j]? :=
        List.filterMap_congr fun j hj => by rw [List.getElem?_eraseIdx_of_lt (hdesc.1 j hj)]
      rw [List.foldl_cons, List.filterMap_cons_some (List.getElem?_eq_getElem hi)]
      calc List.Perm l (l[i] :: l.eraseIdx i) := (List.getElem_cons_eraseIdx_perm hi).symm
        List.Perm _ (l[i] :: (is.foldl (fun l i => l.eraseIdx i) (l.eraseIdx i) ++
              is.filterMap fun j => l[j]?)) := by
            rw [← hget]
            exact (ih _ hdesc.2 hlt').cons _
        List.Perm _ _ := List.perm_middle.symm

/-- Distinct numbers sorted by `≥` are strictly decreasing. -/
theorem pairwise_gt_mergeSort {is : List Nat} (hnodup : is.Nodup) :
    (is.mergeSort fun a b => decide (b ≤ a)).Pairwise (· > ·) := by
  have hsorted := @List.pairwise_mergeSort Nat (fun a b => decide (b ≤ a))
    (fun a b c hab hbc => by simp only [decide_eq_true_eq] at *; omega)
    (fun a b => by simp only [Bool.or_eq_true, decide_eq_true_eq]; omega) is
  have hnd := (List.mergeSort_perm is fun a b => decide (b ≤ a)).nodup_iff.mpr hnodup
  exact (hsorted.and hnd).imp fun ⟨hle, hne⟩ => by
    simp only [decide_eq_true_eq] at hle
    omega

end EraseIdx
