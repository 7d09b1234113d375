import Mathlib

/-!
# Three-Dimensional Index Spaces

Kernels name their blocks and threads by three coordinates and flatten
them row by row: `x + y * X + z * X * Y` in a space of extents `X, Y, Z`. A
launch of a grid of blocks then numbers a thread `t` of block `b` by
`t + b * B`, with `B` the number of threads of a block.

Both flattenings are bijections onto a range of numbers, and in a strong
form: listing the coordinates with `z` outermost and `x` innermost and
flattening each gives `List.range (X * Y * Z)` itself, and listing the
threads of a launch block by block gives `List.range (G * B)`. A list
gathered over all threads of a launch, from their block and thread numbers,
is then gathered over the ranges of block and of thread numbers
(`flatMap_launch`).

## Main definitions

* `Dim3`: Extents of an index space, or coordinates in one.
* `Dim3.size`, `Dim3.linear`, `Dim3.indices`: The number of points, the
  flattening, and the points listed in flat order.
* `Dim3.launch`, `Dim3.globalLinear`: The threads of a grid of blocks and
  their flat numbers in the whole grid.

## Theorems

* `Dim3.range_mul_eq_flatMap`: `m * n` numbers are `m` windows of `n`.
* `Dim3.map_linear_indices`: Flattening the listed points gives the range.
* `Dim3.map_globalLinear_launch`: The same for the threads of a launch.
* `Dim3.flatMap_launch`: A list gathered over the threads of a launch from
  their block and thread numbers, block by block.
-/

/-- Extents of a three-dimensional index space, or coordinates in one. -/
structure Dim3 where
  x : Nat
  y : Nat
  z : Nat
deriving DecidableEq, Repr

namespace Dim3

/-- The number of points of a space: `X * Y * Z`. -/
def size (d : Dim3) : Nat := d.x * d.y * d.z

theorem size_pos_iff {d : Dim3} : 0 < d.size ↔ 0 < d.x ∧ 0 < d.y ∧ 0 < d.z := by
  simp only [size, Nat.pos_iff_ne_zero, Nat.mul_ne_zero_iff, and_assoc]

/-- The flat number of the point `i` in the space `d`. -/
def linear (d : Dim3) (i : Dim3) : Nat := i.x + i.y * d.x + i.z * d.x * d.y

/-- The points of the space, `z` outermost and `x` innermost. -/
def indices (d : Dim3) : List Dim3 :=
  (List.range d.z).flatMap fun z => (List.range d.y).flatMap fun y =>
    (List.range d.x).map fun x => ⟨x, y, z⟩

/-- The threads of a launch of `grid` blocks of `block` threads, as pairs of
    block and thread coordinates, block by block. -/
def launch (grid block : Dim3) : List (Dim3 × Dim3) :=
  grid.indices.flatMap fun b => block.indices.map fun t => (b, t)

/-- The flat number of a thread in its launch: its number in its block plus
    its block's number times the block size. -/
def globalLinear (grid block : Dim3) (bt : Dim3 × Dim3) : Nat :=
  block.linear bt.2 + grid.linear bt.1 * block.size

/-- A range of `m * n` numbers is `m` consecutive windows of `n`. -/
theorem range_mul_eq_flatMap (m n : Nat) :
    List.range (m * n) = (List.range m).flatMap fun i => (List.range n).map fun j => i * n + j := by
  induction m with
  | zero => simp
  | succ m ih =>
    rw [Nat.succ_mul, List.range_add, ih, List.range_succ, List.flatMap_append]
    simp

theorem mem_indices {d i : Dim3} : i ∈ d.indices ↔ i.x < d.x ∧ i.y < d.y ∧ i.z < d.z := by
  simp only [indices, List.mem_flatMap, List.mem_map, List.mem_range]
  constructor
  · rintro ⟨z, hz, y, hy, x, hx, rfl⟩
    exact ⟨hx, hy, hz⟩
  · rintro ⟨hx, hy, hz⟩
    exact ⟨i.z, hz, i.y, hy, i.x, hx, rfl⟩

/-- Flattening the listed points gives exactly the range of flat numbers. -/
theorem map_linear_indices (d : Dim3) : d.indices.map d.linear = List.range d.size := by
  -- split the range into `Z` planes of `X * Y`, and each plane into `Y` rows of `X`
  rw [size, Nat.mul_comm (d.x * d.y), range_mul_eq_flatMap, Nat.mul_comm d.x,
    range_mul_eq_flatMap]
  simp only [indices, List.map_flatMap, List.map_map]
  refine List.flatMap_congr fun z _ => List.flatMap_congr fun y _ => List.map_congr_left ?_
  intro x _
  simp only [Function.comp, linear]
  ring

/-- The flat number of a point is below the size. -/
theorem linear_lt_size {d i : Dim3} (hi : i ∈ d.indices) : d.linear i < d.size := by
  rw [← List.mem_range, ← map_linear_indices]
  exact List.mem_map_of_mem hi

/-- Every flat number below the size is the number of a point. -/
theorem exists_linear_eq {d : Dim3} {k : Nat} (hk : k < d.size) :
    ∃ i ∈ d.indices, d.linear i = k := by
  rw [← List.mem_range, ← map_linear_indices, List.mem_map] at hk
  exact hk

theorem mem_launch {grid block : Dim3} {bt : Dim3 × Dim3} :
    bt ∈ launch grid block ↔ bt.1 ∈ grid.indices ∧ bt.2 ∈ block.indices := by
  simp only [launch, List.mem_flatMap, List.mem_map]
  constructor
  · rintro ⟨b, hb, t, ht, rfl⟩
    exact ⟨hb, ht⟩
  · rintro ⟨hb, ht⟩
    exact ⟨bt.1, hb, bt.2, ht, rfl⟩

/-- The threads of a launch, numbered in order, are the range of flat
    numbers. -/
theorem map_globalLinear_launch (grid block : Dim3) :
    (launch grid block).map (globalLinear grid block) = List.range (grid.size * block.size) := by
  rw [range_mul_eq_flatMap, ← map_linear_indices grid, List.flatMap_map, launch,
    List.map_flatMap]
  refine List.flatMap_congr fun b _ => ?_
  rw [List.map_map, ← map_linear_indices block, List.map_map]
  exact List.map_congr_left fun t _ => Nat.add_comm _ _

/-- Gathering a list from every thread of a launch, by its block's number and
    its number in the block, is gathering it over the two ranges. -/
theorem flatMap_launch {α : Type} (grid block : Dim3) (f : Nat → Nat → List α) :
    (launch grid block).flatMap (fun bt => f (grid.linear bt.1) (block.linear bt.2)) =
      (List.range grid.size).flatMap fun b => (List.range block.size).flatMap (f b) := by
  rw [← map_linear_indices grid, List.flatMap_map, launch, List.flatMap_assoc]
  refine List.flatMap_congr fun b _ => ?_
  rw [← map_linear_indices block, List.flatMap_map, List.flatMap_map]

end Dim3
