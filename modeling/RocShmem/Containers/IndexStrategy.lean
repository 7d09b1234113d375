import RocShmem.Lib.Dim3
import RocShmem.Util.Memcpy

/-!
# Index Strategies

A device container is filled by every thread of a launch at once, each
running `for (i = s.start(); i < s.end(); i = s.next(i))` over its own
strategy object `s`. The strategies differ in how they deal the indices out.
`Thread_Discontiguous_Block_Discontiguous` deals the whole container in a
stride of the grid's thread count. `Thread_Discontiguous_Block_Contiguous`
cuts it into one tile per block, `N / G` elements each and one more for the
first `N % G` blocks, and deals each tile among the block's threads.
`Thread_Discontiguous_Block_Private` gives every block the whole container.

Every strategy's `next` adds a fixed stride, so one thread visits one residue
class of a window, and as many threads as the stride, started one apart, cut
the window into all its residue classes (`flatMap_stridedRange_perm`). That is
the whole argument, applied to the grid's threads under the first strategy
and to each block's threads under the other two; under the tiled one the
tiles lie end to end from `0` to `N` (`flatMap_tiles`).

A thread's identity is its block and thread coordinates, flattened as in
`Dim3`, but in `unsigned int`: the sums and products wrap at `2^32`. For a
grid of fewer than `2^32` blocks of fewer than `2^32` threads nothing wraps
(`Identity.gridSize_eq` and its siblings); over such a launch the flat
numbers run through a range exactly once, so the launch's threads are a
range of strides. A grid of `2^32` blocks has a `grid_size()` of `0`, and
the grid-strided loop never advances (`index_strategies_grid_size_wraps`).

## Main definitions

* `Identity`: A thread's coordinates in its launch, and its flat numbers.
* `loopIndices`: The indices a `for` loop visits.
* `StridedLoop`: A strategy's `start()`, `end()` and the stride `next` adds.
* `threadDiscontiguousBlockDiscontiguous`, `threadDiscontiguousBlockContiguous`,
  `threadDiscontiguousBlockPrivate`: The strategies' loops, with
  `tileOffset` and `tileNumElems` of the tiled one.

## Theorems

* `mem_stridedRange`: The indices a strided loop visits.
* `StridedLoop.visits_eq`: A loop that advances runs through a strided range.
* `flatMap_stridedRange_perm`: The residue classes of a window, one per
  thread, are the window.
* `tileOffset_succ`, `tileOffset_gridSize`, `flatMap_tiles`: The tiles lie end
  to end from `0` to `N`.
* `index_strategies_partition`: Below `2^32` blocks and threads, each
  strategy visits every index of the container exactly once, over the grid
  or over each block.
* `index_strategies_grid_size_wraps`: At `2^32` blocks it does not.
-/

namespace RocShmem

/-- A thread's coordinates in its launch: the grid and block extents and the
    block and thread indices (`hipGridDim`, `hipBlockDim`, `hipBlockIdx`,
    `hipThreadIdx`). -/
structure Identity where
  gridDim : Dim3
  blockDim : Dim3
  blockIdx : Dim3
  threadIdx : Dim3

namespace Identity

-- The dimensions and indices are `unsigned int`, and so is every sum and
-- product of them below: each wraps at `2^32` before it becomes a `size_t`.

/-- `hipBlockDim_x * hipBlockDim_y * hipBlockDim_z`. -/
def blockSize (id : Identity) : Nat := id.blockDim.size % 2 ^ 32

/-- `hipGridDim_x * hipGridDim_y * hipGridDim_z`. -/
def gridSize (id : Identity) : Nat := id.gridDim.size % 2 ^ 32

/-- `hipBlockIdx_x + hipBlockIdx_y * hipGridDim_x +
    hipBlockIdx_z * hipGridDim_x * hipGridDim_y`. -/
def blockId (id : Identity) : Nat := id.gridDim.linear id.blockIdx % 2 ^ 32

/-- `hipThreadIdx_x + hipThreadIdx_y * hipBlockDim_x +
    hipThreadIdx_z * hipBlockDim_x * hipBlockDim_y`. -/
def localThreadId (id : Identity) : Nat := id.blockDim.linear id.threadIdx % 2 ^ 32

/-- `local_thread_id() + block_id() * block_size()` in `size_t`, which two
    factors below `2^32` cannot overflow. -/
def globalThreadId (id : Identity) : Nat := id.localThreadId + id.blockId * id.blockSize

variable (id : Identity)

-- Below `2^32` nothing wraps, and the numbers are those of `Dim3`.

theorem blockSize_eq (h : id.blockDim.size < 2 ^ 32) : id.blockSize = id.blockDim.size :=
  Nat.mod_eq_of_lt h

theorem gridSize_eq (h : id.gridDim.size < 2 ^ 32) : id.gridSize = id.gridDim.size :=
  Nat.mod_eq_of_lt h

theorem blockId_eq (h : id.gridDim.size < 2 ^ 32) (hb : id.blockIdx ∈ id.gridDim.indices) :
    id.blockId = id.gridDim.linear id.blockIdx :=
  Nat.mod_eq_of_lt ((Dim3.linear_lt_size hb).trans h)

theorem localThreadId_eq (h : id.blockDim.size < 2 ^ 32) (ht : id.threadIdx ∈ id.blockDim.indices) :
    id.localThreadId = id.blockDim.linear id.threadIdx :=
  Nat.mod_eq_of_lt ((Dim3.linear_lt_size ht).trans h)

end Identity

/-! ## Strided loops -/

/-- The indices `for (i = start; i < stop; i = next(i))` visits, in order, for
    at most `fuel` rounds. -/
def loopIndices (next : Nat → Nat) (stop : Nat) : (fuel start : Nat) → List Nat
  | 0, _ => []
  | fuel + 1, i => if i < stop then i :: loopIndices next stop fuel (next i) else []

/-- A strategy's loop: where it starts (`start()`), where it stops (`end()`),
    and what `next` adds. -/
structure StridedLoop where
  start : Nat
  stop : Nat
  stride : Nat

namespace StridedLoop

def next (l : StridedLoop) (currentIndex : Nat) : Nat := currentIndex + l.stride

/-- The indices the loop visits. It is given `end()` rounds, at least as many
    as it can run when `next` advances. -/
def visits (l : StridedLoop) : List Nat := loopIndices l.next l.stop l.stop l.start

end StridedLoop

section Strided

variable {start stop step : Nat}

theorem stridedRange_of_le (h : stop ≤ start) : stridedRange start stop step = [] := by
  rcases Nat.eq_zero_or_pos step with h0 | h0
  · simp [stridedRange, h0]
  · simp only [stridedRange, List.range'_eq_nil_iff]
    exact Nat.div_eq_of_lt (by omega)

/-- A loop below its bound visits its start and goes on from the next index. -/
theorem stridedRange_of_lt (hstep : 0 < step) (h : start < stop) :
    stridedRange start stop step = start :: stridedRange (start + step) stop step := by
  -- the rounded-up count of the rest is one less, whether or not a whole stride fits
  have hcount :
      (stop - start + step - 1) / step = (stop - (start + step) + step - 1) / step + 1 := by
    by_cases hfit : start + step ≤ stop
    · rw [← Nat.add_div_right _ hstep]
      congr 1
      omega
    · rw [Nat.div_eq_of_lt (by omega : stop - (start + step) + step - 1 < step)]
      exact Nat.div_eq_of_lt_le (by omega) (by omega)
  rw [stridedRange, hcount, List.range'_succ, stridedRange]

theorem mem_stridedRange (hstep : 0 < step) {i : Nat} :
    i ∈ stridedRange start stop step ↔ start ≤ i ∧ i < stop ∧ step ∣ i - start := by
  constructor
  · intro h
    obtain ⟨k, -, rfl⟩ := List.mem_range'.mp h
    refine ⟨by omega, lt_of_mem_stridedRange h, ?_⟩
    rw [Nat.add_sub_cancel_left]
    exact Nat.dvd_mul_right step k
  · rintro ⟨hle, hlt, k, hk⟩
    refine List.mem_range'.mpr ⟨k, ?_, by omega⟩
    -- `k` strides fit below the bound, so `k + 1` of them are in the rounded-up count
    rw [Nat.lt_iff_add_one_le, Nat.le_div_iff_mul_le hstep, Nat.add_mul, Nat.mul_comm]
    omega

theorem stridedRange_nodup (hstep : 0 < step) : (stridedRange start stop step).Nodup :=
  List.nodup_range' step hstep

/-- With enough fuel, a loop that adds a positive stride visits the strided
    range. -/
theorem loopIndices_add_eq_stridedRange (hstep : 0 < step) :
    ∀ fuel start, stop - start ≤ fuel →
      loopIndices (· + step) stop fuel start = stridedRange start stop step := by
  intro fuel
  induction fuel with
  | zero =>
    intro start hfuel
    rw [stridedRange_of_le (by omega)]
    rfl
  | succ fuel ih =>
    intro start hfuel
    by_cases h : start < stop
    · rw [loopIndices, if_pos h, stridedRange_of_lt hstep h, ih (start + step) (by omega)]
    · rw [loopIndices, if_neg h, stridedRange_of_le (by omega)]

theorem StridedLoop.visits_eq {l : StridedLoop} (hstride : 0 < l.stride) :
    l.visits = stridedRange l.start l.stop l.stride :=
  loopIndices_add_eq_stridedRange hstride l.stop l.start (Nat.sub_le _ _)

/-- The strided ranges from `a`, `a + 1`, ..., `a + step - 1` to `a + len`
    are the residue classes of the window `[a, a + len)`: between them they
    visit each of its indices once. -/
theorem flatMap_stridedRange_perm (a len : Nat) (hstep : 0 < step) :
    ((List.range step).flatMap fun t => stridedRange (a + t) (a + len) step).Perm
      (List.range' a len) := by
  have hnodup : ((List.range step).flatMap fun t => stridedRange (a + t) (a + len) step).Nodup := by
    refine List.nodup_flatMap.2 ⟨fun t _ => stridedRange_nodup hstep, ?_⟩
    refine List.Pairwise.imp_of_mem ?_ List.pairwise_lt_range
    intro t t' _ ht' hlt x hx hx'
    rw [mem_stridedRange hstep] at hx hx'
    -- two classes that share an index differ by a multiple of the stride
    have hdvd : step ∣ t' - t := by
      rw [show t' - t = (x - (a + t)) - (x - (a + t')) by omega]
      exact Nat.dvd_sub hx.2.2 hx'.2.2
    have := Nat.le_of_dvd (by omega) hdvd
    rw [List.mem_range] at ht'
    omega
  rw [List.perm_ext_iff_of_nodup hnodup List.nodup_range']
  intro i
  simp only [List.mem_flatMap, List.mem_range, mem_stridedRange hstep, List.mem_range'_1]
  constructor
  · rintro ⟨t, -, hle, hlt, -⟩
    omega
  · rintro ⟨hle, hlt⟩
    -- the thread of `i` is its offset in the window modulo the stride
    refine ⟨(i - a) % step, Nat.mod_lt _ hstep, ?_, hlt, ?_⟩
    · have := Nat.mod_le (i - a) step
      omega
    · rw [show i - (a + (i - a) % step) = (i - a) - (i - a) % step by omega]
      exact Nat.dvd_sub_mod (i - a)

end Strided

/-! ## The strategies -/

/-- `Thread_Discontiguous_Block_Discontiguous`: every thread of the grid starts
    at its global id and strides by the grid's thread count. -/
def threadDiscontiguousBlockDiscontiguous (containerElems : Nat) (id : Identity) :
    StridedLoop :=
  ⟨id.globalThreadId, containerElems, id.gridSize * id.blockSize⟩

/-- The first index of a block's tile: `N / G` elements for each block before
    it, and one more for each of them among the first `N % G`. -/
def tileOffset (containerElems gridSize blockId : Nat) : Nat :=
  blockId * (containerElems / gridSize) + min blockId (containerElems % gridSize)

/-- The number of elements of a block's tile: `N / G`, and one more for the
    first `N % G` blocks. -/
def tileNumElems (containerElems gridSize blockId : Nat) : Nat :=
  containerElems / gridSize + if blockId < containerElems % gridSize then 1 else 0

/-- `Thread_Discontiguous_Block_Contiguous`: a block's threads share its tile,
    each starting at its local id in the tile and striding by the block size. -/
def threadDiscontiguousBlockContiguous (containerElems : Nat) (id : Identity) : StridedLoop :=
  ⟨tileOffset containerElems id.gridSize id.blockId + id.localThreadId,
    tileOffset containerElems id.gridSize id.blockId +
      tileNumElems containerElems id.gridSize id.blockId,
    id.blockSize⟩

/-- `Thread_Discontiguous_Block_Private`: every block's threads share the whole
    container, each starting at its local id and striding by the block size. -/
def threadDiscontiguousBlockPrivate (containerElems : Nat) (id : Identity) : StridedLoop :=
  ⟨id.localThreadId, containerElems, id.blockSize⟩

section Tiles

variable (containerElems gridSize : Nat)

/-- The tile of block `b + 1` starts where the tile of block `b` ends. -/
theorem tileOffset_succ (blockId : Nat) :
    tileOffset containerElems gridSize (blockId + 1) =
      tileOffset containerElems gridSize blockId +
        tileNumElems containerElems gridSize blockId := by
  simp only [tileOffset, tileNumElems, Nat.succ_mul]
  split <;> omega

/-- The tiles of all the blocks end at the end of the container. -/
theorem tileOffset_gridSize (hgrid : 0 < gridSize) :
    tileOffset containerElems gridSize gridSize = containerElems := by
  have hlt := Nat.mod_lt containerElems hgrid
  rw [tileOffset, Nat.min_eq_right hlt.le]
  exact Nat.div_add_mod containerElems gridSize

/-- The tiles of the first `n` blocks, one after another, are the indices
    below the tile of block `n`. -/
theorem flatMap_tiles (n : Nat) :
    (List.range n).flatMap (fun b =>
        List.range' (tileOffset containerElems gridSize b)
          (tileNumElems containerElems gridSize b)) =
      List.range (tileOffset containerElems gridSize n) := by
  induction n with
  | zero => simp [tileOffset]
  | succ n ih =>
    rw [List.range_succ, List.flatMap_append, ih, List.flatMap_singleton, tileOffset_succ,
      List.range_eq_range', List.range_eq_range']
    simpa using (List.range'_append_1 (s := 0))

end Tiles

/-! ## The strategies over a launch -/

section Launch

variable (grid block : Dim3) (containerElems : Nat)

/-- Under `Thread_Discontiguous_Block_Discontiguous` the threads of a grid of
    fewer than `2^32` blocks visit each index of the container once. -/
theorem tdbd_launch_perm (hgrid32 : grid.size < 2 ^ 32) (hblock32 : block.size < 2 ^ 32)
    (hthreads : 0 < grid.size * block.size) :
    ((Dim3.launch grid block).flatMap fun bt =>
        (threadDiscontiguousBlockDiscontiguous containerElems
          ⟨grid, block, bt.1, bt.2⟩).visits).Perm (List.range containerElems) := by
  -- each thread runs the class of its flat number, and the flat numbers are a range
  have hthread : ∀ bt ∈ Dim3.launch grid block,
      (threadDiscontiguousBlockDiscontiguous containerElems ⟨grid, block, bt.1, bt.2⟩).visits =
        stridedRange (0 + Dim3.globalLinear grid block bt) (0 + containerElems)
          (grid.size * block.size) := fun bt hbt => by
    obtain ⟨hb, ht⟩ := Dim3.mem_launch.mp hbt
    have hloop : threadDiscontiguousBlockDiscontiguous containerElems ⟨grid, block, bt.1, bt.2⟩ =
        ⟨Dim3.globalLinear grid block bt, containerElems, grid.size * block.size⟩ := by
      simp only [threadDiscontiguousBlockDiscontiguous, Identity.globalThreadId,
        Identity.localThreadId_eq ⟨grid, block, bt.1, bt.2⟩ hblock32 ht,
        Identity.blockId_eq ⟨grid, block, bt.1, bt.2⟩ hgrid32 hb,
        Identity.blockSize_eq ⟨grid, block, bt.1, bt.2⟩ hblock32,
        Identity.gridSize_eq ⟨grid, block, bt.1, bt.2⟩ hgrid32, Dim3.globalLinear]
    rw [hloop, StridedLoop.visits_eq hthreads, Nat.zero_add, Nat.zero_add]
  rw [List.flatMap_congr hthread, ← List.flatMap_map (Dim3.globalLinear grid block)
    (fun g => stridedRange (0 + g) (0 + containerElems) (grid.size * block.size)),
    Dim3.map_globalLinear_launch, List.range_eq_range' (n := containerElems)]
  exact flatMap_stridedRange_perm 0 containerElems hthreads

/-- Under `Thread_Discontiguous_Block_Contiguous` each block's threads visit its
    tile once, and the tiles make up the container. -/
theorem tdbc_launch_perm (hgrid32 : grid.size < 2 ^ 32) (hblock32 : block.size < 2 ^ 32)
    (hgrid : 0 < grid.size) (hblock : 0 < block.size) :
    ((Dim3.launch grid block).flatMap fun bt =>
        (threadDiscontiguousBlockContiguous containerElems ⟨grid, block, bt.1, bt.2⟩).visits).Perm
      (List.range containerElems) := by
  have hthread : ∀ bt ∈ Dim3.launch grid block,
      (threadDiscontiguousBlockContiguous containerElems ⟨grid, block, bt.1, bt.2⟩).visits =
        stridedRange (tileOffset containerElems grid.size (grid.linear bt.1) + block.linear bt.2)
          (tileOffset containerElems grid.size (grid.linear bt.1) +
            tileNumElems containerElems grid.size (grid.linear bt.1)) block.size := fun bt hbt => by
    obtain ⟨hb, ht⟩ := Dim3.mem_launch.mp hbt
    have hloop : threadDiscontiguousBlockContiguous containerElems ⟨grid, block, bt.1, bt.2⟩ =
        ⟨tileOffset containerElems grid.size (grid.linear bt.1) + block.linear bt.2,
          tileOffset containerElems grid.size (grid.linear bt.1) +
            tileNumElems containerElems grid.size (grid.linear bt.1), block.size⟩ := by
      simp only [threadDiscontiguousBlockContiguous,
        Identity.localThreadId_eq ⟨grid, block, bt.1, bt.2⟩ hblock32 ht,
        Identity.blockId_eq ⟨grid, block, bt.1, bt.2⟩ hgrid32 hb,
        Identity.blockSize_eq ⟨grid, block, bt.1, bt.2⟩ hblock32,
        Identity.gridSize_eq ⟨grid, block, bt.1, bt.2⟩ hgrid32]
    rw [hloop]
    exact StridedLoop.visits_eq hblock
  rw [List.flatMap_congr hthread, Dim3.flatMap_launch grid block fun b t =>
    stridedRange (tileOffset containerElems grid.size b + t)
      (tileOffset containerElems grid.size b + tileNumElems containerElems grid.size b) block.size]
  calc List.Perm _ ((List.range grid.size).flatMap fun b =>
          List.range' (tileOffset containerElems grid.size b)
            (tileNumElems containerElems grid.size b)) :=
        List.Perm.flatMap_left _ fun b _ => flatMap_stridedRange_perm _ _ hblock
    _ = List.range containerElems := by
        rw [flatMap_tiles, tileOffset_gridSize containerElems grid.size hgrid]

/-- Under `Thread_Discontiguous_Block_Private` the threads of any one block
    visit each index of the container once. -/
theorem tdbp_block_perm (hblock32 : block.size < 2 ^ 32) (hblock : 0 < block.size) (b : Dim3) :
    (block.indices.flatMap fun t =>
        (threadDiscontiguousBlockPrivate containerElems ⟨grid, block, b, t⟩).visits).Perm
      (List.range containerElems) := by
  have hthread : ∀ t ∈ block.indices,
      (threadDiscontiguousBlockPrivate containerElems ⟨grid, block, b, t⟩).visits =
        stridedRange (0 + block.linear t) (0 + containerElems) block.size := fun t ht => by
    have hloop : threadDiscontiguousBlockPrivate containerElems ⟨grid, block, b, t⟩ =
        ⟨block.linear t, containerElems, block.size⟩ := by
      simp only [threadDiscontiguousBlockPrivate,
        Identity.localThreadId_eq ⟨grid, block, b, t⟩ hblock32 ht,
        Identity.blockSize_eq ⟨grid, block, b, t⟩ hblock32]
    rw [hloop, StridedLoop.visits_eq hblock, Nat.zero_add, Nat.zero_add]
  rw [List.flatMap_congr hthread, ← List.flatMap_map block.linear
    (fun g => stridedRange (0 + g) (0 + containerElems) block.size), Dim3.map_linear_indices,
    List.range_eq_range' (n := containerElems)]
  exact flatMap_stridedRange_perm 0 containerElems hblock

end Launch

/-- For a grid of fewer than `2^32` blocks of fewer than `2^32` threads, so
    that no `unsigned int` product of `Identity` wraps: each strategy visits
    every index of the container once, over the grid or over each block,
    and the tiles lie end to end from `0` to `N`. -/
theorem index_strategies_partition (grid block : Dim3)
    (hgrid : 1 ≤ grid.x ∧ 1 ≤ grid.y ∧ 1 ≤ grid.z)
    (hblock : 1 ≤ block.x ∧ 1 ≤ block.y ∧ 1 ≤ block.z)
    (hgrid32 : grid.size < 2 ^ 32) (hblock32 : block.size < 2 ^ 32) (N : Nat) :
    ((Dim3.launch grid block).flatMap fun bt =>
        (threadDiscontiguousBlockDiscontiguous N ⟨grid, block, bt.1, bt.2⟩).visits).Perm
      (List.range N) ∧
    ((Dim3.launch grid block).flatMap fun bt =>
        (threadDiscontiguousBlockContiguous N ⟨grid, block, bt.1, bt.2⟩).visits).Perm
      (List.range N) ∧
    (tileOffset N grid.size 0 = 0 ∧
      (∀ b, b + 1 < grid.size →
        tileOffset N grid.size (b + 1) = tileOffset N grid.size b + tileNumElems N grid.size b) ∧
      tileOffset N grid.size (grid.size - 1) + tileNumElems N grid.size (grid.size - 1) = N) ∧
    ∀ b : Dim3, (block.indices.flatMap fun t =>
        (threadDiscontiguousBlockPrivate N ⟨grid, block, b, t⟩).visits).Perm (List.range N) := by
  have hG : 0 < grid.size := Dim3.size_pos_iff.2 hgrid
  have hB : 0 < block.size := Dim3.size_pos_iff.2 hblock
  refine ⟨tdbd_launch_perm grid block N hgrid32 hblock32 (Nat.mul_pos hG hB),
    tdbc_launch_perm grid block N hgrid32 hblock32 hG hB,
    ⟨by simp [tileOffset], fun b _ => tileOffset_succ N grid.size b, ?_⟩,
    tdbp_block_perm grid block N hblock32 hB⟩
  -- the last tile ends where a tile after it would start
  rw [← tileOffset_succ, Nat.sub_add_cancel hG, tileOffset_gridSize N grid.size hG]

/-- The source's own example: a grid of eight blocks of four threads over
    seventy-two elements, where the last tile ends at the container's end. -/
theorem index_strategies_partition_doc_grid :
    (1 ≤ 8 ∧ 1 ≤ 1 ∧ 1 ≤ 1) ∧ (1 ≤ 4 ∧ 1 ≤ 1 ∧ 1 ≤ 1) ∧
    (Dim3.size ⟨8, 1, 1⟩ < 2 ^ 32 ∧ Dim3.size ⟨4, 1, 1⟩ < 2 ^ 32) ∧
    tileOffset 72 8 7 + tileNumElems 72 8 7 = 72 ∧
    ((Dim3.launch ⟨8, 1, 1⟩ ⟨4, 1, 1⟩).flatMap fun bt =>
        (threadDiscontiguousBlockContiguous 72 ⟨⟨8, 1, 1⟩, ⟨4, 1, 1⟩, bt.1, bt.2⟩).visits).Perm
      (List.range 72) :=
  have h := index_strategies_partition ⟨8, 1, 1⟩ ⟨4, 1, 1⟩ (by decide) (by decide) (by decide)
    (by decide) 72
  ⟨by decide, by decide, ⟨by decide, by decide⟩, h.2.2.1.2.2, h.2.1⟩

/-- A grid of `65536 × 65536 × 1` blocks of one thread has `2^32` blocks, and
    `hipGridDim_x * hipGridDim_y * hipGridDim_z` wraps to `0` in
    `unsigned int`. Under `Thread_Discontiguous_Block_Discontiguous` the
    stride `grid_size() * block_size()` is then `0`: thread `0` of block `0`
    never leaves index `0`, and the threads do not visit each index of a
    container of two elements once. -/
theorem index_strategies_grid_size_wraps :
    (⟨⟨65536, 65536, 1⟩, ⟨1, 1, 1⟩, ⟨0, 0, 0⟩, ⟨0, 0, 0⟩⟩ : Identity).gridSize = 0 ∧
      ¬ ((Dim3.launch ⟨65536, 65536, 1⟩ ⟨1, 1, 1⟩).flatMap fun bt =>
          (threadDiscontiguousBlockDiscontiguous 2
            ⟨⟨65536, 65536, 1⟩, ⟨1, 1, 1⟩, bt.1, bt.2⟩).visits).Perm (List.range 2) := by
  refine ⟨by decide, fun hperm => ?_⟩
  -- thread `0` of block `0` is in the launch, and it visits `0` twice in two rounds
  have hmem : ((⟨0, 0, 0⟩, ⟨0, 0, 0⟩) : Dim3 × Dim3) ∈ Dim3.launch ⟨65536, 65536, 1⟩ ⟨1, 1, 1⟩ :=
    Dim3.mem_launch.mpr ⟨Dim3.mem_indices.mpr ⟨by decide, by decide, by decide⟩,
      Dim3.mem_indices.mpr ⟨by decide, by decide, by decide⟩⟩
  have hzero : (threadDiscontiguousBlockDiscontiguous 2
      ⟨⟨65536, 65536, 1⟩, ⟨1, 1, 1⟩, ⟨0, 0, 0⟩, ⟨0, 0, 0⟩⟩).visits = [0, 0] := by
    decide
  have hle : 2 ≤ ((Dim3.launch ⟨65536, 65536, 1⟩ ⟨1, 1, 1⟩).flatMap fun bt =>
      (threadDiscontiguousBlockDiscontiguous 2
        ⟨⟨65536, 65536, 1⟩, ⟨1, 1, 1⟩, bt.1, bt.2⟩).visits).count 0 := by
    rw [List.count_flatMap]
    refine le_trans ?_ (List.le_sum_of_mem (List.mem_map_of_mem hmem))
    simp only [Function.comp, hzero]
    decide
  rw [hperm.count_eq] at hle
  exact absurd hle (by decide)

end RocShmem
