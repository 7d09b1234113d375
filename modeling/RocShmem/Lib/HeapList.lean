import Mathlib.Data.List.Basic

/-!
# Linked Lists in a Heap

Nodes sit at addresses of a heap, and each has a `next` pointer that is an
address or null (`none`). `Path next p xs q` says that starting at the
pointer `p` and following `next`, one visits the nodes `xs` in order and then
arrives at `q`. A list that ends at null is `Path next p xs none`: the walk
from `p` is finite, so it does not cycle, and its nodes are determined by
`p` (`Path.unique`).

A path through `xs ++ ys` is a path through `xs` to the first node of `ys`
followed by a path through `ys` (`Path.append`, `Path.split`), and a path
only depends on the `next` fields of its own nodes (`Path.frame`). These are
the three rules that the operations on a list (push at the front, pop at the
front, link at the tail) are proved with.

## Main definitions

* `Path`: The nodes visited between two pointers.

## Theorems

* `Path.append`, `Path.split`: Paths join and split at any node.
* `Path.frame`: Nodes off the path do not matter.
* `Path.unique`: The nodes reached from a pointer to null are determined.
* `Path.snoc_iff`: The last node of a path.
-/

namespace HeapList

variable {ι : Type}

/-- Following `next` from `p` visits the nodes `xs`, in order, and then
    reaches `q`. -/
inductive Path (next : ι → Option ι) : Option ι → List ι → Option ι → Prop where
  | nil (p : Option ι) : Path next p [] p
  | cons {a : ι} {xs : List ι} {q : Option ι} :
      Path next (next a) xs q → Path next (some a) (a :: xs) q

variable {next next' : ι → Option ι}

@[simp] theorem path_nil_iff {p q : Option ι} : Path next p [] q ↔ p = q := by
  constructor
  · rintro ⟨⟩
    rfl
  · rintro rfl
    exact .nil p

@[simp] theorem path_cons_iff {p q : Option ι} {a : ι} {xs : List ι} :
    Path next p (a :: xs) q ↔ p = some a ∧ Path next (next a) xs q := by
  constructor
  · rintro ⟨⟩
    exact ⟨rfl, ‹_›⟩
  · rintro ⟨rfl, h⟩
    exact .cons h

namespace Path

theorem append {p q r : Option ι} {xs ys : List ι} (h₁ : Path next p xs q)
    (h₂ : Path next q ys r) : Path next p (xs ++ ys) r := by
  induction h₁ with
  | nil => exact h₂
  | cons _ ih => exact .cons (ih h₂)

theorem split {p r : Option ι} {xs ys : List ι} (h : Path next p (xs ++ ys) r) :
    ∃ q, Path next p xs q ∧ Path next q ys r := by
  induction xs generalizing p with
  | nil => exact ⟨p, .nil p, h⟩
  | cons a xs ih =>
      rw [List.cons_append] at h
      obtain ⟨rfl, hrest⟩ := path_cons_iff.mp h
      obtain ⟨q, hxs, hys⟩ := ih hrest
      exact ⟨q, .cons hxs, hys⟩

/-- The frame rule: a path reads only the `next` fields of its nodes. -/
theorem frame {p q : Option ι} {xs : List ι} (h : Path next p xs q)
    (hf : ∀ a ∈ xs, next' a = next a) : Path next' p xs q := by
  induction h with
  | nil => exact .nil _
  | cons _ ih =>
      refine .cons ?_
      rw [hf _ List.mem_cons_self]
      exact ih fun a ha => hf a (List.mem_cons_of_mem _ ha)

/-- The walk from a pointer to null is determined by the pointer. -/
theorem unique {p : Option ι} {xs ys : List ι} (h : Path next p xs none)
    (h' : Path next p ys none) : xs = ys := by
  induction xs generalizing p ys with
  | nil =>
      obtain rfl := path_nil_iff.mp h
      cases ys with
      | nil => rfl
      | cons b ys => exact absurd (path_cons_iff.mp h').1 nofun
  | cons a xs ih =>
      obtain ⟨rfl, hrest⟩ := path_cons_iff.mp h
      cases ys with
      | nil => exact absurd (path_nil_iff.mp h') nofun
      | cons b ys =>
          obtain ⟨hab, hrest'⟩ := path_cons_iff.mp h'
          cases hab
          rw [ih hrest hrest']

/-- A list that ends at null starts at its first node. -/
theorem head?_eq {p : Option ι} {xs : List ι} (h : Path next p xs none) : p = xs.head? := by
  cases h <;> rfl

theorem snoc_iff {p q : Option ι} {xs : List ι} {b : ι} :
    Path next p (xs ++ [b]) q ↔ Path next p xs (some b) ∧ next b = q := by
  constructor
  · intro h
    obtain ⟨r, hxs, hb⟩ := split h
    obtain ⟨rfl, hq⟩ := path_cons_iff.mp hb
    exact ⟨hxs, path_nil_iff.mp hq⟩
  · rintro ⟨hxs, rfl⟩
    exact hxs.append (.cons (.nil _))

end Path

end HeapList
