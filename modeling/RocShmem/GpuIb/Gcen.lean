import RocShmem.GpuIb.Brucks

/-!
# The GPU-IB Two-Level All-to-All and Fcollect

`GPUIBContext::alltoall_gcen`, `alltoall_gcen2`, `fcollect_gcen` and
`fcollect_gcen2` (`gpu_ib/context_ib_tmpl_device.hpp`) split a team of `P`
members into `num_clust = ⌊√P⌋` clusters of `clust_size = ⌈P / num_clust⌉`
consecutive members, and assert that these tile the team. Member `me` is
rank `me % clust_size` of cluster `clust_id = me / clust_size`. In the
first step every member gets, from each member of its own cluster, the
blocks it will forward; in the second it puts them, `clust_size` blocks at a
time, to the member of the same rank in every cluster. The `2` variants
move the same data and differ only in how they synchronise, so in lock step
they are the same two rounds of moves (`CopyRound`).

The second step's puts tile every `dst`: the put of member `me` for cluster
`i` lands on member `me % clust_size + i * clust_size` at cluster
`clust_id`'s blocks, so block `b` of `dst` on member `j` is written by the
member of rank `j % clust_size` in cluster `b / clust_size`, and by no other
(`gcen_put_dst_inj`). Reading that write back through the first step gives
the transpose for the all-to-all (`alltoallGcen_transpose`) and the
concatenation for the collect (`fcollectGcen_gather`).

## Main definitions

* `numClust`, `clustSize`: The clusters.
* `getNbiWg`, `putNbiWg`: The two library calls the steps are made of.
* `alltoallGcen`, `alltoallGcen2`, `fcollectGcen`, `fcollectGcen2`: Every
  member running the algorithm in lock step.

## Theorems

* `gcen_put_dst_inj`: The second step's puts write every cell once.
* `alltoallGcen_transpose`: The all-to-all transposes.
* `fcollectGcen_gather`: The collect concatenates.
-/

namespace RocShmem

open CopyRound

variable {α : Type}

/-- `int num_clust = sqrt(pe_size)`. -/
def numClust (peSize : Nat) : Nat := Nat.sqrt peSize

/-- `int clust_size = (pe_size + num_clust - 1) / num_clust`. -/
def clustSize (peSize : Nat) : Nat := (peSize + numClust peSize - 1) / numClust peSize

/-- `get_nbi_wg(dst, src, n, pe)` run by `self`. -/
def getNbiWg (self : Nat) (dst src : AtaBuf × Nat) (n pe : Nat) : List (Move AtaCell) :=
  copyElems self dst pe src n

/-- `put_nbi_wg(dst, src, n, pe)` run by `self`. -/
def putNbiWg (self : Nat) (dst src : AtaBuf × Nat) (n pe : Nat) : List (Move AtaCell) :=
  copyElems pe dst self src n

/-! ## Clusters -/

/-- A member is its cluster's first member plus its rank in the cluster. -/
theorem clust_split (me cs : Nat) : me / cs * cs + me % cs = me := by
  rw [Nat.mul_comm]
  exact Nat.div_add_mod me cs

/-- The rank of member `c * cs + r` in its cluster is `r`. -/
theorem clust_rank {c r cs : Nat} (hr : r < cs) : (c * cs + r) % cs = r := by
  rw [Nat.add_comm, Nat.add_mul_mod_self_right, Nat.mod_eq_of_lt hr]

/-- The cluster of member `c * cs + r` is `c`. -/
theorem clust_id {c r cs : Nat} (hr : r < cs) : (c * cs + r) / cs = c := by
  rw [Nat.add_comm, Nat.add_mul_div_right _ _ (by omega), Nat.div_eq_of_lt hr, Nat.zero_add]

/-- The cells the second step writes are written once: the receiver and the
    place give back the sender, the cluster of the put and the element. -/
theorem gcen_put_dst_inj {cs nelems me me' i i' t t' : Nat} (hcs : 0 < cs)
    (ht : t < nelems * cs) (ht' : t' < nelems * cs)
    (hpe : me % cs + i * cs = me' % cs + i' * cs)
    (hidx : me / cs * nelems * cs + t = me' / cs * nelems * cs + t') :
    me = me' ∧ i = i' ∧ t = t' := by
  obtain ⟨hi, hrank⟩ := block_inj (Nat.mod_lt me hcs) (Nat.mod_lt me' hcs)
    (by rw [Nat.add_comm, hpe, Nat.add_comm])
  rw [Nat.mul_assoc, Nat.mul_assoc] at hidx
  obtain ⟨hclust, hel⟩ := block_inj ht ht' hidx
  refine ⟨?_, hi, hel⟩
  rw [← clust_split me cs, ← clust_split me' cs, hclust, hrank]

section Tiling

/-! The clusters tile the team: `num_clust * clust_size = P`. -/

variable {P : Nat} (hclust : numClust P * clustSize P = P)

include hclust in
theorem clustSize_pos {j : Nat} (hj : j < P) : 0 < clustSize P :=
  Nat.pos_of_ne_zero fun h0 => by
    rw [h0, Nat.mul_zero] at hclust
    omega

include hclust in
/-- A member's cluster is one of the `num_clust`. -/
theorem div_clustSize_lt {j : Nat} (hj : j < P) : j / clustSize P < numClust P := by
  rw [Nat.div_lt_iff_lt_mul (clustSize_pos hclust hj), hclust]
  exact hj

include hclust in
/-- Rank `r` of cluster `c` is a member. -/
theorem clust_lt {c r : Nat} (hc : c < numClust P) (hr : r < clustSize P) :
    c * clustSize P + r < P := by
  have := Nat.mul_le_mul_right (clustSize P) (Nat.succ_le_of_lt hc)
  rw [Nat.succ_mul, hclust] at this
  omega

end Tiling

section Gcen

variable (team : GPUIBTeamInfo) (nelems : Nat)

/-! ## The all-to-all -/

/-- Step 1 on member `me`: `pAta[i]` gets block `src_loc = (i / clust_size) *
    clust_size + me % clust_size` of the `src` of member `clust_id *
    clust_size + i % clust_size`, for every `i < pe_size`. -/
def alltoallGcenGet (me : Nat) : List (Move AtaCell) :=
  let clustSize := clustSize team.size
  let clustId := me / clustSize
  (List.range team.size).flatMap fun i =>
    let srcPe := team.getPeInWorld (clustId * clustSize + i % clustSize)
    let srcLoc := i / clustSize * clustSize + me % clustSize
    getNbiWg (team.getPeInWorld me) (.pAta, i * nelems) (.src, srcLoc * nelems) nelems srcPe

/-- Step 2 on member `me`: blocks `[i * clust_size, (i + 1) * clust_size)` of
    `pAta` go to the `dst` blocks from `clust_id * clust_size` on member
    `me % clust_size + i * clust_size`, for every `i < num_clust`. -/
def alltoallGcenPut (me : Nat) : List (Move AtaCell) :=
  let clustSize := clustSize team.size
  let clustId := me / clustSize
  (List.range (numClust team.size)).flatMap fun i =>
    let destPe := team.getPeInWorld (me % clustSize + i * clustSize)
    putNbiWg (team.getPeInWorld me) (.dst, clustId * nelems * clustSize)
      (.pAta, i * nelems * clustSize) (nelems * clustSize) destPe

/-- Every member of the team running `alltoall_gcen` in lock step. -/
def alltoallGcen (m : AtaCell → α) : AtaCell → α :=
  lockStep (List.range team.size) [alltoallGcenGet team nelems, alltoallGcenPut team nelems] m

/-- Every member of the team running `alltoall_gcen2` in lock step: the data
    of `alltoall_gcen`, with the cluster's flag raised before the puts and a
    barrier over the ring after them. -/
def alltoallGcen2 (m : AtaCell → α) : AtaCell → α :=
  lockStep (List.range team.size) [alltoallGcenGet team nelems, alltoallGcenPut team nelems] m

theorem iterates_alltoallGcenGet :
    Iterates (alltoallGcenGet team nelems)
      (fun _ (x : Nat × Nat) => x.1 < team.size ∧ x.2 < nelems)
      fun me x => ⟨(team.getPeInWorld me, .pAta, x.1 * nelems + x.2),
        (team.getPeInWorld (me / clustSize team.size * clustSize team.size +
            x.1 % clustSize team.size), .src,
          (x.1 / clustSize team.size * clustSize team.size + me % clustSize team.size) * nelems +
            x.2)⟩ := by
  intro me mv
  simp only [alltoallGcenGet, getNbiWg, copyElems, List.mem_flatMap, List.mem_range,
    mem_loopMoves, true_and, Prod.exists, and_assoc, exists_and_left]

/-- Step 1: element `o` of block `i` of `pAta` on member `me` is element `o`
    of block `(i / clust_size) * clust_size + me % clust_size` of the `src` of
    member `clust_id * clust_size + i % clust_size`. -/
theorem alltoallGcenGet_pAta (m : AtaCell → α) {me i o : Nat} (hme : me < team.size)
    (hi : i < team.size) (ho : o < nelems) :
    applyMoves m ((List.range team.size).flatMap (alltoallGcenGet team nelems))
        (team.getPeInWorld me, .pAta, i * nelems + o) =
      m (team.getPeInWorld (me / clustSize team.size * clustSize team.size +
          i % clustSize team.size), .src,
        (i / clustSize team.size * clustSize team.size + me % clustSize team.size) * nelems +
          o) := by
  have h := iterates_alltoallGcenGet team nelems
  refine h.applyMoves_of_mem (x := (i, o)) (h.simultaneous ?_ ?_) hme ⟨hi, ho⟩ m
  · -- the gets read `src` and write `pAta`
    exact fun _ _ _ _ _ _ _ _ => cell_ne_of_buf_ne (by decide)
  · rintro p - x ⟨-, hx⟩ p' - x' ⟨-, hx'⟩ heq
    simp only [Prod.mk.injEq] at heq
    obtain ⟨hp, -, hidx⟩ := heq
    obtain ⟨h1, h2⟩ := block_inj hx hx' hidx
    rw [team.getPeInWorld_inj hp, h1, h2]

theorem iterates_alltoallGcenPut :
    Iterates (alltoallGcenPut team nelems)
      (fun _ (x : Nat × Nat) => x.1 < numClust team.size ∧ x.2 < nelems * clustSize team.size)
      fun me x => ⟨(team.getPeInWorld (me % clustSize team.size + x.1 * clustSize team.size),
          .dst, me / clustSize team.size * nelems * clustSize team.size + x.2),
        (team.getPeInWorld me, .pAta, x.1 * nelems * clustSize team.size + x.2)⟩ := by
  intro me mv
  simp only [alltoallGcenPut, putNbiWg, copyElems, List.mem_flatMap, List.mem_range,
    mem_loopMoves, true_and, Prod.exists, and_assoc, exists_and_left]

/-- Step 2, read at the receiver: element `t` of cluster `c`'s blocks of
    `dst` on member `j` comes from the member of rank `j % clust_size` in
    cluster `c`, out of its `pAta` blocks for cluster `j / clust_size`. -/
theorem alltoallGcenPut_dst (hclust : numClust team.size * clustSize team.size = team.size)
    (m : AtaCell → α) {j c t : Nat} (hj : j < team.size) (hc : c < numClust team.size)
    (ht : t < nelems * clustSize team.size) :
    applyMoves m ((List.range team.size).flatMap (alltoallGcenPut team nelems))
        (team.getPeInWorld j, .dst, c * nelems * clustSize team.size + t) =
      m (team.getPeInWorld (c * clustSize team.size + j % clustSize team.size), .pAta,
        j / clustSize team.size * nelems * clustSize team.size + t) := by
  have hcs := clustSize_pos hclust hj
  have h := iterates_alltoallGcenPut team nelems
  have hsim : Simultaneous ((List.range team.size).flatMap (alltoallGcenPut team nelems)) := by
    refine h.simultaneous ?_ ?_
    · -- the puts read `pAta` and write `dst`
      exact fun _ _ _ _ _ _ _ _ => cell_ne_of_buf_ne (by decide)
    · rintro p - x ⟨-, hx⟩ p' - x' ⟨-, hx'⟩ heq
      simp only [Prod.mk.injEq] at heq
      obtain ⟨hp, -, hidx⟩ := heq
      obtain ⟨rfl, h1, h2⟩ := gcen_put_dst_inj hcs hx hx' (team.getPeInWorld_inj hp) hidx
      rw [h1, h2]
  -- the sender is the member of rank `j % clust_size` in cluster `c`
  have hrank := Nat.mod_lt j hcs
  have hval := h.applyMoves_of_mem hsim (clust_lt hclust hc hrank)
    (x := (j / clustSize team.size, t)) ⟨div_clustSize_lt hclust hj, ht⟩ m
  dsimp only at hval
  rwa [clust_rank hrank, clust_id hrank, Nat.add_comm, clust_split] at hval

/-- The two steps transpose: element `o` of block `i` of `dst` on member `j`
    is element `o` of block `j` of `src` on member `i`. -/
theorem alltoallGcen_transpose (hclust : numClust team.size * clustSize team.size = team.size)
    (m₀ : AtaCell → α) {i j o : Nat} (hi : i < team.size) (hj : j < team.size)
    (ho : o < nelems) :
    alltoallGcen team nelems m₀ (team.getPeInWorld j, .dst, i * nelems + o) =
      m₀ (team.getPeInWorld i, .src, j * nelems + o) := by
  have hcs := clustSize_pos hclust hi
  have hirank := Nat.mod_lt i hcs
  have hjrank := Nat.mod_lt j hcs
  -- block `i` is block `i % clust_size` of cluster `i / clust_size`'s blocks
  have hidx : i * nelems + o = i / clustSize team.size * nelems * clustSize team.size +
      (i % clustSize team.size * nelems + o) := by
    conv_lhs => rw [← clust_split i (clustSize team.size)]
    ring
  have ht : i % clustSize team.size * nelems + o < nelems * clustSize team.size := by
    rw [Nat.mul_comm nelems]
    exact block_lt hirank ho
  -- which the sender holds as its block for `j`'s cluster, got from member `i`
  have hblock : j / clustSize team.size * nelems * clustSize team.size +
      (i % clustSize team.size * nelems + o) =
      (j / clustSize team.size * clustSize team.size + i % clustSize team.size) * nelems + o := by
    ring
  rw [alltoallGcen, lockStep_cons, lockStep_cons, lockStep_nil, hidx,
    alltoallGcenPut_dst team nelems hclust _ hj (div_clustSize_lt hclust hi) ht, hblock,
    alltoallGcenGet_pAta team nelems _ (clust_lt hclust (div_clustSize_lt hclust hi) hjrank)
      (clust_lt hclust (div_clustSize_lt hclust hj) hirank) ho,
    clust_id hjrank, clust_rank hjrank, clust_rank hirank, clust_id hirank, clust_split,
    clust_split]

/-! ## The collect -/

/-- Step 1 on member `me`: `pAta[i]` gets the whole `src` of member
    `clust_id * clust_size + i % clust_size`, for every `i < clust_size`. -/
def fcollectGcenGet (me : Nat) : List (Move AtaCell) :=
  let clustSize := clustSize team.size
  let clustId := me / clustSize
  (List.range clustSize).flatMap fun i =>
    let srcPe := team.getPeInWorld (clustId * clustSize + i % clustSize)
    getNbiWg (team.getPeInWorld me) (.pAta, i * nelems) (.src, 0) nelems srcPe

/-- Step 2 on member `me`: the `clust_size` blocks of `pAta` go to the `dst`
    blocks from `clust_id * clust_size` on member `me % clust_size + i *
    clust_size`, for every `i < num_clust`. -/
def fcollectGcenPut (me : Nat) : List (Move AtaCell) :=
  let clustSize := clustSize team.size
  let clustId := me / clustSize
  (List.range (numClust team.size)).flatMap fun i =>
    let destPe := team.getPeInWorld (me % clustSize + i * clustSize)
    putNbiWg (team.getPeInWorld me) (.dst, clustId * nelems * clustSize) (.pAta, 0)
      (nelems * clustSize) destPe

/-- Every member of the team running `fcollect_gcen` in lock step. -/
def fcollectGcen (m : AtaCell → α) : AtaCell → α :=
  lockStep (List.range team.size) [fcollectGcenGet team nelems, fcollectGcenPut team nelems] m

/-- Every member of the team running `fcollect_gcen2` in lock step: the data
    of `fcollect_gcen`, with a barrier over the cluster between the steps in
    place of the cluster's flag. -/
def fcollectGcen2 (m : AtaCell → α) : AtaCell → α :=
  lockStep (List.range team.size) [fcollectGcenGet team nelems, fcollectGcenPut team nelems] m

theorem iterates_fcollectGcenGet :
    Iterates (fcollectGcenGet team nelems)
      (fun _ (x : Nat × Nat) => x.1 < clustSize team.size ∧ x.2 < nelems)
      fun me x => ⟨(team.getPeInWorld me, .pAta, x.1 * nelems + x.2),
        (team.getPeInWorld (me / clustSize team.size * clustSize team.size +
            x.1 % clustSize team.size), .src, x.2)⟩ := by
  intro me mv
  simp only [fcollectGcenGet, getNbiWg, copyElems, List.mem_flatMap, List.mem_range,
    mem_loopMoves, true_and, Prod.exists, and_assoc, exists_and_left, Nat.zero_add]

/-- Step 1: element `o` of block `q` of `pAta` on member `me` is element `o`
    of the `src` of the member of rank `q` in `me`'s cluster. -/
theorem fcollectGcenGet_pAta (m : AtaCell → α) {me q o : Nat} (hme : me < team.size)
    (hq : q < clustSize team.size) (ho : o < nelems) :
    applyMoves m ((List.range team.size).flatMap (fcollectGcenGet team nelems))
        (team.getPeInWorld me, .pAta, q * nelems + o) =
      m (team.getPeInWorld (me / clustSize team.size * clustSize team.size + q), .src, o) := by
  have h := iterates_fcollectGcenGet team nelems
  have hval := h.applyMoves_of_mem (x := (q, o)) (h.simultaneous ?_ ?_) hme ⟨hq, ho⟩ m
  · dsimp only at hval
    rwa [Nat.mod_eq_of_lt hq] at hval
  · -- the gets read `src` and write `pAta`
    exact fun _ _ _ _ _ _ _ _ => cell_ne_of_buf_ne (by decide)
  · rintro p - x ⟨-, hx⟩ p' - x' ⟨-, hx'⟩ heq
    simp only [Prod.mk.injEq] at heq
    obtain ⟨hp, -, hidx⟩ := heq
    obtain ⟨h1, h2⟩ := block_inj hx hx' hidx
    rw [team.getPeInWorld_inj hp, h1, h2]

theorem iterates_fcollectGcenPut :
    Iterates (fcollectGcenPut team nelems)
      (fun _ (x : Nat × Nat) => x.1 < numClust team.size ∧ x.2 < nelems * clustSize team.size)
      fun me x => ⟨(team.getPeInWorld (me % clustSize team.size + x.1 * clustSize team.size),
          .dst, me / clustSize team.size * nelems * clustSize team.size + x.2),
        (team.getPeInWorld me, .pAta, x.2)⟩ := by
  intro me mv
  simp only [fcollectGcenPut, putNbiWg, copyElems, List.mem_flatMap, List.mem_range,
    mem_loopMoves, true_and, Prod.exists, and_assoc, exists_and_left, Nat.zero_add]

/-- Step 2, read at the receiver: element `t` of cluster `c`'s blocks of
    `dst` on member `j` is element `t` of `pAta` on the member of rank
    `j % clust_size` in cluster `c`. -/
theorem fcollectGcenPut_dst (hclust : numClust team.size * clustSize team.size = team.size)
    (m : AtaCell → α) {j c t : Nat} (hj : j < team.size) (hc : c < numClust team.size)
    (ht : t < nelems * clustSize team.size) :
    applyMoves m ((List.range team.size).flatMap (fcollectGcenPut team nelems))
        (team.getPeInWorld j, .dst, c * nelems * clustSize team.size + t) =
      m (team.getPeInWorld (c * clustSize team.size + j % clustSize team.size), .pAta, t) := by
  have hcs := clustSize_pos hclust hj
  have h := iterates_fcollectGcenPut team nelems
  have hsim : Simultaneous ((List.range team.size).flatMap (fcollectGcenPut team nelems)) := by
    refine h.simultaneous ?_ ?_
    · -- the puts read `pAta` and write `dst`
      exact fun _ _ _ _ _ _ _ _ => cell_ne_of_buf_ne (by decide)
    · rintro p - x ⟨-, hx⟩ p' - x' ⟨-, hx'⟩ heq
      simp only [Prod.mk.injEq] at heq
      obtain ⟨hp, -, hidx⟩ := heq
      obtain ⟨rfl, -, h2⟩ := gcen_put_dst_inj hcs hx hx' (team.getPeInWorld_inj hp) hidx
      rw [h2]
  -- the sender is the member of rank `j % clust_size` in cluster `c`
  have hrank := Nat.mod_lt j hcs
  have hval := h.applyMoves_of_mem hsim (clust_lt hclust hc hrank)
    (x := (j / clustSize team.size, t)) ⟨div_clustSize_lt hclust hj, ht⟩ m
  dsimp only at hval
  rwa [clust_rank hrank, clust_id hrank, Nat.add_comm, clust_split] at hval

/-- The two steps concatenate: element `o` of block `i` of `dst` on member
    `j` is element `o` of the `src` of member `i`. -/
theorem fcollectGcen_gather (hclust : numClust team.size * clustSize team.size = team.size)
    (m₀ : AtaCell → α) {i j o : Nat} (hi : i < team.size) (hj : j < team.size)
    (ho : o < nelems) :
    fcollectGcen team nelems m₀ (team.getPeInWorld j, .dst, i * nelems + o) =
      m₀ (team.getPeInWorld i, .src, o) := by
  have hcs := clustSize_pos hclust hi
  have hirank := Nat.mod_lt i hcs
  have hjrank := Nat.mod_lt j hcs
  -- block `i` is block `i % clust_size` of cluster `i / clust_size`'s blocks
  have hidx : i * nelems + o = i / clustSize team.size * nelems * clustSize team.size +
      (i % clustSize team.size * nelems + o) := by
    conv_lhs => rw [← clust_split i (clustSize team.size)]
    ring
  have ht : i % clustSize team.size * nelems + o < nelems * clustSize team.size := by
    rw [Nat.mul_comm nelems]
    exact block_lt hirank ho
  rw [fcollectGcen, lockStep_cons, lockStep_cons, lockStep_nil, hidx,
    fcollectGcenPut_dst team nelems hclust _ hj (div_clustSize_lt hclust hi) ht,
    fcollectGcenGet_pAta team nelems _ (clust_lt hclust (div_clustSize_lt hclust hi) hjrank)
      hirank ho,
    clust_id hjrank, clust_split]

end Gcen

end RocShmem
