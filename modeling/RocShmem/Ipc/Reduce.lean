import RocShmem.Ipc.Barrier

/-!
# The IPC Reductions

`IPCContext::reduce` (`ipc/context_ipc_tmpl_device.hpp`) reduces `nreduce`
elements of every member's `source` into every member's `dest`, with one of
two algorithms over the team's `pWrk` and `barrier_pSync` slices.

In `internal_direct_allreduce` each PE puts its whole source into
`pWrk[pe * nelems]` of every other member, with `pe` its world rank, raises
`pSync[pe]` there, then waits for each member's flag and folds that
member's block into its `dest`, and last clears `pSync[0 .. num_pes)`. In
`internal_ring_allreduce` each PE sends chunks of its `dest` to its
successor in the team, a chunk per round, flags round `iter` with
`seg + 100`, waits for its own flag of that round and folds the chunk it
got; a second loop passes the finished chunks on. `reduce` takes the direct
algorithm when `P * nreduce` elements fit in the work array and `P` flags in
the sync array; otherwise the ring over whole segments of
`1024 / P * P` elements, a ring over the rest and the direct algorithm for
the last few elements; and it fails when even the ring's `2 P` flags do not
fit.

Three defects follow, each shown on a small input. When `nreduce` is below
one segment, `n_seg` is forced to `1` and the ring runs over a whole
segment, past the caller's `nreduce` elements
(`reduce_ring_writes_past_nreduce`). The direct algorithm places blocks by
world rank, not team rank, so a team of high ranks writes past its work
slice (`reduce_direct_pWrk_past_slice`). And nothing keeps the flags of two
consecutive reductions apart: a member that finishes early overwrites a
slow member's work block and raises its flag for the next call, which the
slow member takes for the current one, then clears
(`reduce_flag_reused_across_calls`).

## Main definitions

* `RocshmemOp`, `OpWrap.calc`: The reduction operators.
* `computeReduce`: The elementwise fold of one block.
* `internalDirectAllreduce`, `internalRingAllreduce`: The two algorithms, as
  the instructions of one PE.
* `IPCContext.reduce`: The choice between them, or `none` for
  `ROCSHMEM_ERROR`.

## Theorems

* `IPCContext.reduce_of_direct`, `IPCContext.reduce_of_ring`: What `reduce`
  runs.
* `put_mem_internalDirectAllreduce`, `reset_mem_internalDirectAllreduce`,
  `compute_mem_internalRingAllreduce`: Cells the algorithms write.
* `reduce_ring_writes_past_nreduce`, `reduce_direct_pWrk_past_slice`,
  `reduce_flag_reused_across_calls`: The three defects.
-/

namespace RocShmem

variable {α : Type}

/-- `ROCSHMEM_OP`: the operators `OpWrap` has a `Calc` for. -/
inductive RocshmemOp
  | sum
  | max
  | min
  | prod
  | and
  | or
  | xor
deriving DecidableEq, Repr

/-- `OpWrap<Op>::Calc(src, dst, i)` sets `dst[i]` to `dst[i] op src[i]`:
    the new value from the old `dst[i]` and `src[i]`, in that order. -/
def OpWrap.calc [Add α] [Max α] [Min α] [Mul α] [AndOp α] [OrOp α] [XorOp α] :
    RocshmemOp → α → α → α
  | .sum => (· + ·)
  | .max => max
  | .min => min
  | .prod => (· * ·)
  | .and => (· &&& ·)
  | .or => (· ||| ·)
  | .xor => (· ^^^ ·)

/-- `compute_reduce(src, dst, size)`: `dst[i] op= src[i]` for `i < size`, on
    the running PE. -/
def computeReduce (op : α → α → α) (src dst : DataAddr) (size : Nat) : List (IpcInstr α) :=
  (List.range size).map fun i => .combine op (dst.1, dst.2 + i) (src.1, src.2 + i)

/-- `dst[i] = src[i]` for `i < nelems`, the first loop of both algorithms. -/
def copyToDest (pe dst src nelems : Nat) : List (IpcInstr α) :=
  (List.range nelems).map fun i => .copy pe (.dest, dst + i) pe (.source, src + i)

/-- `internal_direct_allreduce(dest + dst, source + src, nelems, team)` run
    by `ctx.my_pe`. -/
def internalDirectAllreduce (op : α → α → α) (ctx : IPCContext) (team : IPCTeam)
    (dst src nelems : Nat) : List (IpcInstr α) :=
  let pe := ctx.myPe
  let pSync := SyncArray.barrierPSync team.poolIndex
  let pWrk := Buf.pWrk team.poolIndex
  copyToDest pe dst src nelems ++
    -- Put the own source into every other member's `pWrk[pe * nelems]` and flag it.
    (team.memberPes.flatMap fun i =>
      if i ≠ pe then
        putmemElems pe pWrk (pe * nelems) .source src nelems i ++ [.putFlag i (pSync, pe) 1]
      else []) ++
    -- Wait for each member's block and fold it in.
    (team.memberPes.flatMap fun i =>
      if i ≠ pe then
        .waitFlag (pSync, i) 1 :: computeReduce op (pWrk, i * nelems) (.dest, dst) nelems
      else []) ++
    (List.range ctx.numPes).map fun i => .putFlag pe (pSync, i) syncValue

/-- `internal_ring_allreduce(dest + dst, source + src, nelems, team, n_seg,
    seg_size, chunk_size)` run by `ctx.my_pe`. The offsets
    `(my + 1 - iter + 2 P) % P` and `(my - iter + 2 P) % P` are never
    negative in the source, for `iter < 2 P - 2`, so they are computed on
    naturals. -/
def internalRingAllreduce (op : α → α → α) (ctx : IPCContext) (team : IPCTeam)
    (dst src nelems nSeg segSize chunkSize : Nat) : List (IpcInstr α) :=
  let pe := ctx.myPe
  let pSync := SyncArray.barrierPSync team.poolIndex
  let pWrk := Buf.pWrk team.poolIndex
  let size := team.size
  let sendPe := team.getPeInWorld ((team.myPe + 1) % size)
  let offSend := fun iter => (team.myPe + 1 + 2 * size - iter) % size * chunkSize
  let offRecv := fun iter => (team.myPe + 2 * size - iter) % size * chunkSize
  copyToDest pe dst src nelems ++
    ((List.range nSeg).flatMap fun seg =>
      let offSeg := seg * segSize
      -- The first loop: send a partial chunk on, fold the one received.
      ((List.range (size - 1)).flatMap fun iter =>
        putmemElems pe pWrk (offSend iter) .dest (dst + offSend iter + offSeg) chunkSize sendPe ++
          [.putFlag sendPe (pSync, iter) (seg + 100), .waitFlag (pSync, iter) (seg + 100)] ++
          computeReduce op (pWrk, offRecv iter) (.dest, dst + offSeg + offRecv iter) chunkSize) ++
      -- The second loop: pass the finished chunks on.
      ((List.range' (size - 1) (size - 1)).flatMap fun iter =>
        putmemElems pe .dest (dst + offSend iter + offSeg) .dest (dst + offSend iter + offSeg)
            chunkSize sendPe ++
          [.putFlag sendPe (pSync, iter) (seg + 100), .waitFlag (pSync, iter) (seg + 100)])) ++
    (List.range (2 * ctx.numPes - 2)).map fun i => .putFlag pe (pSync, i) syncValue

namespace IPCContext

/-- The direct algorithm's test: `P * nreduce` elements within
    `max(nreduce / 2 + 1, ROCSHMEM_REDUCE_MIN_WRKDATA_SIZE)` and `P` flags
    within `ROCSHMEM_REDUCE_SYNC_SIZE`. -/
def directFits (size nreduce : Nat) : Prop :=
  size * nreduce ≤ max (nreduce / 2 + 1) reduceMinWrkdataSize ∧ size ≤ reduceSyncSize

instance (size nreduce : Nat) : Decidable (directFits size nreduce) :=
  inferInstanceAs (Decidable (_ ∧ _))

/-- `IPCContext::reduce(team, dest + dst, source + src, nreduce)` run by
    `ctx.my_pe`: its instructions, or `none` for `ROCSHMEM_ERROR`. -/
def reduce (op : α → α → α) (ctx : IPCContext) (team : IPCTeam) (dst src nreduce : Nat) :
    Option (List (IpcInstr α)) :=
  let size := team.size
  if directFits size nreduce then
    some (internalDirectAllreduce op ctx team dst src nreduce)
  else if 2 * size ≤ reduceSyncSize then
    let segSize := reduceMinWrkdataSize / size * size
    let chunkSize := segSize / size
    -- `n_seg` is forced to `1` after `n_seg_up` is computed.
    let nSegUp := (nreduce - 1) / segSize + 1
    let nSeg := if nreduce / segSize = 0 then 1 else nreduce / segSize
    let pCount := nreduce - nSeg * segSize
    let pChunk := pCount / size
    some (internalRingAllreduce op ctx team dst src nreduce nSeg segSize chunkSize ++
      if nSegUp > nSeg then
        internalRingAllreduce op ctx team (dst + nSeg * segSize) (src + nSeg * segSize) pCount 1
            (pChunk * size) pChunk ++
          if pChunk * size < pCount then
            internalDirectAllreduce op ctx team (dst + nSeg * segSize + pChunk * size)
              (src + nSeg * segSize + pChunk * size) (pCount - pChunk * size)
          else []
      else [])
  else none

theorem reduce_of_direct (op : α → α → α) (ctx : IPCContext) (team : IPCTeam)
    (dst src nreduce : Nat) (h : directFits team.size nreduce) :
    reduce op ctx team dst src nreduce =
      some (internalDirectAllreduce op ctx team dst src nreduce) := by
  simp only [reduce, if_pos h]

/-- Below one segment, the ring path is a single ring over a whole segment
    of `1024 / P * P` elements. -/
theorem reduce_of_ring (op : α → α → α) (ctx : IPCContext) (team : IPCTeam)
    (dst src nreduce : Nat) (hdirect : ¬ directFits team.size nreduce)
    (hring : 2 * team.size ≤ reduceSyncSize) (hpos : 0 < nreduce)
    (hshort : nreduce < reduceMinWrkdataSize / team.size * team.size) :
    reduce op ctx team dst src nreduce =
      some (internalRingAllreduce op ctx team dst src nreduce 1
        (reduceMinWrkdataSize / team.size * team.size)
        (reduceMinWrkdataSize / team.size * team.size / team.size)) := by
  have hseg : nreduce / (reduceMinWrkdataSize / team.size * team.size) = 0 :=
    Nat.div_eq_of_lt hshort
  have hup : (nreduce - 1) / (reduceMinWrkdataSize / team.size * team.size) + 1 = 1 := by
    rw [Nat.div_eq_of_lt (by omega)]
  simp only [reduce, if_neg hdirect, if_pos hring, hseg, hup, if_true, Nat.lt_irrefl,
    if_false, List.append_nil]

end IPCContext

theorem mem_computeReduce (op : α → α → α) (src dst : DataAddr) {size k : Nat} (hk : k < size) :
    .combine op (dst.1, dst.2 + k) (src.1, src.2 + k) ∈ computeReduce op src dst size :=
  List.mem_map.mpr ⟨k, List.mem_range.mpr hk, rfl⟩

theorem mem_putmemElems (self : Nat) (dst : Buf) (dstOff : Nat) (src : Buf) (srcOff : Nat)
    {n o : Nat} (pe : Nat) (ho : o < n) :
    (.copy pe (dst, dstOff + o) self (src, srcOff + o) : IpcInstr α) ∈
      putmemElems self dst dstOff src srcOff n pe :=
  List.mem_map.mpr ⟨o, List.mem_range.mpr ho, rfl⟩

/-- The direct algorithm puts element `o` of the own source into
    `pWrk[my_pe * nelems + o]` of every other member. -/
theorem put_mem_internalDirectAllreduce (op : α → α → α) (ctx : IPCContext) (team : IPCTeam)
    (dst src nelems i o : Nat) (hi : i ∈ team.memberPes) (hne : i ≠ ctx.myPe)
    (ho : o < nelems) :
    .copy i (.pWrk team.poolIndex, ctx.myPe * nelems + o) ctx.myPe (.source, src + o) ∈
      internalDirectAllreduce op ctx team dst src nelems := by
  have hput := mem_putmemElems (α := α) ctx.myPe (.pWrk team.poolIndex) (ctx.myPe * nelems)
    .source src i ho
  refine List.mem_append_left _ (List.mem_append_left _ (List.mem_append_right _ ?_))
  exact List.mem_flatMap.mpr ⟨i, hi, by rw [if_pos hne]; exact List.mem_append_left _ hput⟩

/-- The direct algorithm clears `pSync[i]` for every `i` below the world's
    `num_pes`. -/
theorem reset_mem_internalDirectAllreduce (op : α → α → α) (ctx : IPCContext) (team : IPCTeam)
    (dst src nelems : Nat) {i : Nat} (hi : i < ctx.numPes) :
    .putFlag ctx.myPe (.barrierPSync team.poolIndex, i) syncValue ∈
      internalDirectAllreduce op ctx team dst src nelems :=
  List.mem_append_right _ (List.mem_map.mpr ⟨i, List.mem_range.mpr hi, rfl⟩)

/-- In round `iter` of the first loop of segment `seg`, the ring folds
    element `k` of the chunk it received into
    `dest[dst + seg * seg_size + off_recv + k]`. -/
theorem compute_mem_internalRingAllreduce (op : α → α → α) (ctx : IPCContext) (team : IPCTeam)
    (dst src nelems nSeg segSize chunkSize seg iter k : Nat) (hseg : seg < nSeg)
    (hiter : iter < team.size - 1) (hk : k < chunkSize) :
    let offRecv := (team.myPe + 2 * team.size - iter) % team.size * chunkSize
    .combine op (.dest, dst + seg * segSize + offRecv + k) (.pWrk team.poolIndex, offRecv + k) ∈
      internalRingAllreduce op ctx team dst src nelems nSeg segSize chunkSize := by
  intro offRecv
  have hfold := mem_computeReduce op (.pWrk team.poolIndex, offRecv)
    (.dest, dst + seg * segSize + offRecv) hk
  refine List.mem_append_left _ (List.mem_append_right _ ?_)
  refine List.mem_flatMap.mpr ⟨seg, List.mem_range.mpr hseg, List.mem_append_left _ ?_⟩
  exact List.mem_flatMap.mpr ⟨iter, List.mem_range.mpr hiter, List.mem_append_right _ hfold⟩

/-- World of four, the world team, `nreduce = 300`: too many elements for
    the direct algorithm, so the ring, with `n_seg` forced from `0` to `1`
    over a segment of `1024` elements. World PE 0 folds into `dest[1023]`,
    far past the `300` elements of the caller's `dest`. -/
theorem reduce_ring_writes_past_nreduce :
    ∃ instrs, IPCContext.reduce (OpWrap.calc (α := Int64) .sum) ⟨0, 4⟩
        (IPCTeam.ofTeam (teamWorld 4 0) 0 0) 0 0 300 = some instrs ∧
      ∃ i ∈ instrs, i.dataTarget 0 = some (0, (.dest, 1023)) ∧ 300 ≤ 1023 := by
  refine ⟨_, IPCContext.reduce_of_ring _ _ _ 0 0 300 (by decide) (by decide) (by decide)
    (by decide), ?_⟩
  -- Round `1` of the first loop receives chunk `3`, at offset `768`.
  refine ⟨_, compute_mem_internalRingAllreduce _ _ _ 0 0 300 1 1024 256 0 1 255 (by decide)
    (by decide) (by decide), rfl, by decide⟩

/-- World of four and the team `{2, 3}` split from it, the first team, so
    at pool index `1`; `nreduce = 300` of 8-byte elements. The direct
    algorithm fits (`2 * 300 <= 1024`), and world PE 3 puts its element
    `299` into `pWrk[3 * 300 + 299] = pWrk[1199]` on PE 2, past the
    `1024` elements of the team's slice. -/
theorem reduce_direct_pWrk_past_slice :
    teamSplitStrided 4 3 0 40 (some (teamWorld 4 3)) 2 1 2 = some (0, some ⟨⟨2, 1, 2⟩, 2, 1⟩) ∧
      ∃ instrs, IPCContext.reduce (OpWrap.calc (α := Int64) .sum) ⟨3, 4⟩
          (IPCTeam.ofTeam ⟨⟨2, 1, 2⟩, 2, 1⟩ 3 1) 0 0 300 = some instrs ∧
        .copy 2 (.pWrk 1, 1199) 3 (.source, 299) ∈ instrs ∧ pWrkSliceElems 8 ≤ 1199 := by
  refine ⟨by decide, _, IPCContext.reduce_of_direct _ _ _ 0 0 300 (by decide), ?_, by decide⟩
  exact put_mem_internalDirectAllreduce _ _ _ 0 0 300 2 299 (by decide) (by decide) (by decide)

/-- Two PEs, the world team, and two reductions of one element in a row:
    the first of `source[0]` into `dest[0]`, the second of `source[1]` into
    `dest[1]`. Both take the direct algorithm. -/
def consecutiveReduces : Pgas.Prog DataAddr FlagAddr Int64 := fun p =>
  if p < 2 then
    (IPCContext.reduce (OpWrap.calc .sum) ⟨p, 2⟩ (IPCTeam.ofTeam (teamWorld 2 p) p 0) 0 0 1).getD
        [] ++
      (IPCContext.reduce (OpWrap.calc .sum) ⟨p, 2⟩ (IPCTeam.ofTeam (teamWorld 2 p) p 0) 1 1 1).getD
        []
  else []

/-- The sources of `consecutiveReduces`: `1` and `10` on PE 0, `2` and `20`
    on PE 1. -/
def consecutiveReducesData (p : Nat) (a : DataAddr) : Int64 :=
  if a = (.source, 0) then (if p = 0 then 1 else 2)
  else if a = (.source, 1) then (if p = 0 then 10 else 20)
  else 0

/-- PE 1 enters the first reduction and flags its block on PE 0; PE 0 runs
    the whole first reduction and the puts of the second, which overwrite
    PE 1's work block and raise `pSync[0]` on PE 1 again. PE 1 takes that
    flag for the first reduction: its `dest[0]` gets PE 0's second source,
    `2 + 10` and not `2 + 1`, and its reset then clears the flag, so PE 1
    waits for it in the second reduction for ever. -/
theorem reduce_flag_reused_across_calls :
    ∃ c, Pgas.Reachable consecutiveReduces (initConfig consecutiveReducesData) c ∧
      c.mem.data 1 (.dest, 0) =
        consecutiveReducesData 1 (.source, 0) + consecutiveReducesData 0 (.source, 1) ∧
      c.mem.data 1 (.dest, 0) ≠
        consecutiveReducesData 1 (.source, 0) + consecutiveReducesData 0 (.source, 0) ∧
      Pgas.Done consecutiveReduces c 0 ∧
      ∀ c', Pgas.Reachable consecutiveReduces c c' → ¬ Pgas.Done consecutiveReduces c' 1 := by
  let sched := [1, 1, 1, 0, 0, 0, 0, 0, 0, 0, 0, 0, 0, 1, 1, 1, 1, 1, 1, 1, 0, 0, 0, 0]
  have hsome : (Pgas.run consecutiveReduces (initConfig consecutiveReducesData) sched).isSome := by
    decide
  obtain ⟨c, hc⟩ := Option.isSome_iff_exists.mp hsome
  -- What the run leaves: PE 1's first result, who is done, and whether PE 1 can move.
  have hview : (Pgas.run consecutiveReduces (initConfig consecutiveReducesData) sched).map
      (fun c => (c.mem.data 1 (.dest, 0), decide (Pgas.Done consecutiveReduces c 0),
        decide (Pgas.Done consecutiveReduces c 1), (Pgas.step consecutiveReduces 1 c).isNone)) =
      some (12, true, false, true) := by
    decide
  rw [hc, Option.map_some, Option.some.injEq, Prod.mk.injEq, Prod.mk.injEq, Prod.mk.injEq,
    decide_eq_true_iff, decide_eq_false_iff_not, Option.isNone_iff_eq_none] at hview
  obtain ⟨hdst, hdone0, hnot1, hstep1⟩ := hview
  -- Nobody can move: PE 0 and the PEs past 1 have finished, PE 1 blocks.
  have hstuck : ∀ p, Pgas.step consecutiveReduces p c = none := by
    intro p
    by_cases hp1 : p = 1
    · rw [hp1]
      exact hstep1
    by_cases hp0 : p = 0
    · rw [hp0]
      exact Pgas.step_eq_none_of_done hdone0
    · have hnil : consecutiveReduces p = [] := if_neg (by omega)
      exact Pgas.step_eq_none_of_done (by rw [Pgas.Done, hnil]; exact Nat.zero_le _)
  refine ⟨c, Pgas.reachable_of_run hc, by rw [hdst]; decide, by rw [hdst]; decide, hdone0, ?_⟩
  intro c' hc'
  rw [Pgas.Reachable.eq_of_stuck hstuck hc']
  exact hnot1

end RocShmem
