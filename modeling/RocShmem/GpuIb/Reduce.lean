import RocShmem.Ipc.Reduce
import RocShmem.Lib.LockStep

/-!
# The GPU-IB Reductions

`GPUIBContext::to_all(team, dest, source, nreduce)`
(`gpu_ib/context_ib_tmpl_device.hpp`) reads the team's world-relative
`pe_start`, `log_stride` and `size` and runs one of two algorithms over the
team's `pWrk` and `reduce_pSync`, as the IPC conduit does. Unlike the IPC
code, both the choice and the ring are written for the whole world. The
direct algorithm is taken when `num_pes * nreduce` elements fit the work
array, with `num_pes` the world's size; it puts the own `source` into
`pWrk[my_pe * nreduce]` of every team member and folds what the others put.
Otherwise the ring runs over segments and chunks sized by `num_pes`, and
every PE sends to `(my_pe + 1) % num_pes`, its successor in the world.

Two facts follow from the code, for every team and size. Under the ring,
every write a member makes lands on itself or on its world successor
(`internalRingAllreduce_targets`), so a team that is not a block of
consecutive world ranks has its members write into PEs outside it. And the
ring's folds and passes stay below `(n_seg - 1) * seg_size + num_pes *
chunk_size`; every `dest` element from there up to `nreduce` is written only
by the member's own copy of its `source`, so it holds that `source` element
in every state after the copy (`ring_tail_unreduced`). The direct algorithm
writes only to team members (`internalDirectAllreduce_targets`).

## Main definitions

* `RedBuf`, `RedInstr`: The cells and instructions of the reductions.
* `GPUIBContext.internalDirectAllreduce`,
  `GPUIBContext.internalRingAllreduce`: The two algorithms, as the
  instructions of one PE.
* `GPUIBContext.ringParams`, `GPUIBContext.toAll`: The ring's segments and
  chunks, and the choice of algorithm.
* `GPUIBTeamInfo`, `teamToAllProgram`: The team as `to_all` reads it, and
  every member calling it.

## Theorems

* `GPUIBContext.toAll_of_direct`, `GPUIBContext.toAll_of_ring`: What
  `to_all` runs.
* `GPUIBContext.internalRingAllreduce_targets`,
  `GPUIBContext.internalDirectAllreduce_targets`: Where each algorithm
  writes.
* `GPUIBContext.ring_dest_write`: The `dest` cells the ring writes beyond
  the copy.
* `ring_tail_unreduced`: The tail of `dest` keeps the own `source`.
-/

namespace RocShmem

open Pgas

variable {α : Type}

/-- The buffers GPU-IB's reductions touch on a PE: the caller's `source` and
    `dest`, and the team's `pWrk`. -/
inductive RedBuf
  | source
  | dest
  | pWrk
deriving DecidableEq, Repr

/-- A data cell of the reductions: a buffer and an element index. -/
abbrev RedAddr := RedBuf × Nat

/-- An instruction of the reductions; a flag is an index into the team's
    `reduce_pSync`. -/
abbrev RedInstr (α : Type) := Pgas.Instr RedAddr Nat α

/-- What the reductions read of the `GPUIBContext` of one PE: its world rank
    `my_pe` and the world's size `num_pes`. -/
structure GPUIBContext where
  myPe : Nat
  numPes : Nat
deriving DecidableEq, Repr

namespace GPUIBContext

/-- `putmem_nbi_wg` of `n` elements: `dst + o` on `pe` gets `src + o` of
    `self`. -/
def putmemNbiWg (self : Nat) (dst src : RedAddr) (n pe : Nat) : List (RedInstr α) :=
  (List.range n).map fun o => .copy pe (dst.1, dst.2 + o) self (src.1, src.2 + o)

/-- `compute_reduce<T, Op>(src, dst, size)`: `dst[i] = dst[i] op src[i]`
    for `i < size`, on the running PE. -/
def computeReduce (op : α → α → α) (src dst : RedAddr) (size : Nat) : List (RedInstr α) :=
  (List.range size).map fun i => .combine op (dst.1, dst.2 + i) (src.1, src.2 + i)

/-- `dst[i] = src[i]` for `i < nelems`, the first loop of both algorithms. -/
def copyToDest (self nelems : Nat) : List (RedInstr α) :=
  (List.range nelems).map fun i => .copy self (.dest, i) self (.source, i)

/-- `internal_direct_allreduce(dest, source, nelems, PE_start, logPE_stride,
    PE_size, pWrk, pSync)` run by `ctx.my_pe`: the own `source` goes to
    `pWrk[my_pe * nelems]` of every other member, flagged in
    `pSync[my_pe]`, and each member's block is folded in once its flag is
    up. -/
def internalDirectAllreduce (op : α → α → α) (ctx : GPUIBContext)
    (nelems peStart logPeStride peSize : Nat) : List (RedInstr α) :=
  let pe := ctx.myPe
  -- `for (i = PE_start; i < PE_start + stride * PE_size; i += stride)`
  let members := List.range' peStart peSize (2 ^ logPeStride)
  copyToDest pe nelems ++
    (members.flatMap fun i =>
      if i ≠ pe then putmemNbiWg pe (.pWrk, pe * nelems) (.source, 0) nelems i ++ [.putFlag i pe 1]
      else []) ++
    (members.flatMap fun i =>
      if i ≠ pe then .waitFlag i 1 :: computeReduce op (.pWrk, i * nelems) (.dest, 0) nelems
      else []) ++
    (List.range ctx.numPes).map fun i => .putFlag pe i syncValue

/-- `internal_ring_allreduce(dest, source, nelems, ..., n_seg, seg_size,
    chunk_size)` run by `ctx.my_pe`, over the world: `send_pe` is
    `(my_pe + 1) % num_pes`. The offsets `(my_pe + 1 - round + 2 num_pes) %
    num_pes` and `(my_pe - round + 2 num_pes) % num_pes` are never negative
    for `round < 2 num_pes - 2`, so they are computed on naturals. -/
def internalRingAllreduce (op : α → α → α) (ctx : GPUIBContext)
    (nelems nSeg segSize chunkSize : Nat) : List (RedInstr α) :=
  let sendPe := (ctx.myPe + 1) % ctx.numPes
  let offSend := fun round => (ctx.myPe + 1 + 2 * ctx.numPes - round) % ctx.numPes * chunkSize
  let offRecv := fun round => (ctx.myPe + 2 * ctx.numPes - round) % ctx.numPes * chunkSize
  copyToDest ctx.myPe nelems ++
    ((List.range nSeg).flatMap fun seg =>
      let offSeg := seg * segSize
      -- The first loop: send a partial chunk on, fold the one received.
      ((List.range (ctx.numPes - 1)).flatMap fun round =>
        putmemNbiWg ctx.myPe (.pWrk, offSend round) (.dest, offSend round + offSeg) chunkSize
            sendPe ++
          [.putFlag sendPe round (seg + 100), .waitFlag round (seg + 100)] ++
          computeReduce op (.pWrk, offRecv round) (.dest, offSeg + offRecv round) chunkSize) ++
      -- The second loop: pass the finished chunks on.
      ((List.range' (ctx.numPes - 1) (ctx.numPes - 1)).flatMap fun round =>
        putmemNbiWg ctx.myPe (.dest, offSend round + offSeg) (.dest, offSend round + offSeg)
            chunkSize sendPe ++
          [.putFlag sendPe round (seg + 100), .waitFlag round (seg + 100)])) ++
    (List.range (2 * ctx.numPes - 2)).map fun i => .putFlag ctx.myPe i syncValue

/-- The direct algorithm's test in `to_all`: `num_pes * nreduce` elements
    within `max(nreduce / 2 + 1, ROCSHMEM_REDUCE_MIN_WRKDATA_SIZE)` and
    `num_pes` flags within `ROCSHMEM_REDUCE_SYNC_SIZE`. -/
def DirectFits (numPes nreduce : Nat) : Prop :=
  numPes * nreduce ≤ max (nreduce / 2 + 1) reduceMinWrkdataSize ∧ numPes ≤ reduceSyncSize

instance (numPes nreduce : Nat) : Decidable (DirectFits numPes nreduce) :=
  inferInstanceAs (Decidable (_ ∧ _))

/-- The ring's `(n_seg, seg_size, chunk_size)` as `to_all` computes them:
    chunks of `1024`, or of the work array shared out when it is smaller,
    and a single segment of the whole `nreduce` when no full segment fits. -/
def ringParams (numPes nreduce : Nat) : Nat × Nat × Nat :=
  let providedPWrk := max (nreduce / 2 + 1) reduceMinWrkdataSize
  let ringPWrk := if providedPWrk < 1024 * numPes then max (nreduce / 2) reduceMinWrkdataSize
    else 1024 * numPes
  let chunkSize := if providedPWrk < 1024 * numPes then ringPWrk / numPes else 1024
  if nreduce / ringPWrk = 0 then (1, nreduce, nreduce / numPes)
  else (nreduce / ringPWrk, ringPWrk, chunkSize)

/-- `to_all(dest, source, nreduce, PE_start, logPE_stride, PE_size, pWrk,
    pSync)` run by `ctx.my_pe`: the direct algorithm, the ring, or nothing
    when even the ring's `2 num_pes` flags do not fit. -/
def toAll (op : α → α → α) (ctx : GPUIBContext) (nreduce peStart logPeStride peSize : Nat) :
    List (RedInstr α) :=
  if DirectFits ctx.numPes nreduce then
    internalDirectAllreduce op ctx nreduce peStart logPeStride peSize
  else if 2 * ctx.numPes ≤ reduceSyncSize then
    internalRingAllreduce op ctx nreduce (ringParams ctx.numPes nreduce).1
      (ringParams ctx.numPes nreduce).2.1 (ringParams ctx.numPes nreduce).2.2
  else []

theorem toAll_of_direct (op : α → α → α) (ctx : GPUIBContext) {nreduce : Nat}
    (peStart logPeStride peSize : Nat) (h : DirectFits ctx.numPes nreduce) :
    toAll op ctx nreduce peStart logPeStride peSize =
      internalDirectAllreduce op ctx nreduce peStart logPeStride peSize := by
  simp only [toAll, if_pos h]

theorem toAll_of_ring (op : α → α → α) (ctx : GPUIBContext) {nreduce : Nat}
    (peStart logPeStride peSize : Nat) (hdirect : ¬ DirectFits ctx.numPes nreduce)
    (hring : 2 * ctx.numPes ≤ reduceSyncSize) :
    toAll op ctx nreduce peStart logPeStride peSize =
      internalRingAllreduce op ctx nreduce (ringParams ctx.numPes nreduce).1
        (ringParams ctx.numPes nreduce).2.1 (ringParams ctx.numPes nreduce).2.2 := by
  simp only [toAll, if_neg hdirect, if_pos hring]

/-! ## Where the algorithms write -/

/-- The PEs that instruction `i`, run by `self`, writes a data cell or a flag
    of all satisfy `S`. -/
def WritesWithin (self : Nat) (S : Nat → Prop) (i : RedInstr α) : Prop :=
  (∀ q a, i.dataTarget self = some (q, a) → S q) ∧ (∀ q x, i.flagTarget = some (q, x) → S q)

theorem writesWithin_copy {self pe src : Nat} {dst : RedAddr} {a : RedAddr} {S : Nat → Prop}
    (h : S pe) : WritesWithin self S (.copy pe dst src a : RedInstr α) :=
  ⟨fun q _ hq => by
      simp only [Instr.dataTarget, Option.some.injEq, Prod.mk.injEq] at hq
      rw [← hq.1]
      exact h,
    fun _ _ hq => by simp [Instr.flagTarget] at hq⟩

theorem writesWithin_combine {self : Nat} {op : α → α → α} {dst src : RedAddr} {S : Nat → Prop}
    (h : S self) : WritesWithin self S (.combine op dst src : RedInstr α) :=
  ⟨fun q _ hq => by
      simp only [Instr.dataTarget, Option.some.injEq, Prod.mk.injEq] at hq
      rw [← hq.1]
      exact h,
    fun _ _ hq => by simp [Instr.flagTarget] at hq⟩

theorem writesWithin_putFlag {self pe x : Nat} {v : Int} {S : Nat → Prop} (h : S pe) :
    WritesWithin self S (.putFlag pe x v : RedInstr α) :=
  ⟨fun _ _ hq => by simp [Instr.dataTarget] at hq,
    fun q _ hq => by
      rw [← (Instr.eq_of_flagTarget_putFlag hq).1]
      exact h⟩

theorem writesWithin_waitFlag {self x : Nat} {v : Int} {S : Nat → Prop} :
    WritesWithin self S (.waitFlag x v : RedInstr α) :=
  ⟨fun _ _ hq => by simp [Instr.dataTarget] at hq, fun _ _ hq => by simp [Instr.flagTarget] at hq⟩

theorem mem_putmemNbiWg {self n pe : Nat} {dst src : RedAddr} {i : RedInstr α} :
    i ∈ putmemNbiWg self dst src n pe ↔
      ∃ o < n, i = .copy pe (dst.1, dst.2 + o) self (src.1, src.2 + o) := by
  simp [putmemNbiWg, eq_comm]

theorem mem_computeReduce {op : α → α → α} {src dst : RedAddr} {size : Nat} {i : RedInstr α} :
    i ∈ computeReduce op src dst size ↔
      ∃ j < size, i = .combine op (dst.1, dst.2 + j) (src.1, src.2 + j) := by
  simp [computeReduce, eq_comm]

theorem mem_copyToDest {self nelems : Nat} {i : RedInstr α} :
    i ∈ copyToDest self nelems ↔ ∃ k < nelems, i = .copy self (.dest, k) self (.source, k) := by
  simp [copyToDest, eq_comm]

/-- Under the ring every write lands on the running PE or on its successor
    in the world. -/
theorem internalRingAllreduce_targets (op : α → α → α) (ctx : GPUIBContext)
    (nelems nSeg segSize chunkSize : Nat) :
    ∀ i ∈ internalRingAllreduce op ctx nelems nSeg segSize chunkSize,
      WritesWithin ctx.myPe (fun q => q = ctx.myPe ∨ q = (ctx.myPe + 1) % ctx.numPes) i := by
  intro i hi
  simp only [internalRingAllreduce, List.mem_append, List.mem_flatMap, List.mem_map,
    List.mem_range, List.mem_cons, List.not_mem_nil, or_false] at hi
  rcases hi with
    ((hcopy | ⟨seg, -, (⟨round, -, (hput | hflag) | hred⟩ | ⟨round, -, hput | hflag⟩)⟩) |
      ⟨x, -, rfl⟩)
  · obtain ⟨k, -, rfl⟩ := mem_copyToDest.1 hcopy
    exact writesWithin_copy (.inl rfl)
  · obtain ⟨o, -, rfl⟩ := mem_putmemNbiWg.1 hput
    exact writesWithin_copy (.inr rfl)
  · rcases hflag with rfl | rfl
    · exact writesWithin_putFlag (.inr rfl)
    · exact writesWithin_waitFlag
  · obtain ⟨j, -, rfl⟩ := mem_computeReduce.1 hred
    exact writesWithin_combine (.inl rfl)
  · obtain ⟨o, -, rfl⟩ := mem_putmemNbiWg.1 hput
    exact writesWithin_copy (.inr rfl)
  · rcases hflag with rfl | rfl
    · exact writesWithin_putFlag (.inr rfl)
    · exact writesWithin_waitFlag
  · exact writesWithin_putFlag (.inl rfl)

/-- The direct algorithm writes only on the running PE and the team's
    members. -/
theorem internalDirectAllreduce_targets (op : α → α → α) (ctx : GPUIBContext)
    (nelems peStart logPeStride peSize : Nat) :
    ∀ i ∈ internalDirectAllreduce op ctx nelems peStart logPeStride peSize,
      WritesWithin ctx.myPe
        (fun q => q = ctx.myPe ∨ q ∈ List.range' peStart peSize (2 ^ logPeStride)) i := by
  intro i hi
  simp only [internalDirectAllreduce, List.mem_append, List.mem_flatMap, List.mem_map,
    List.mem_range] at hi
  rcases hi with ((hcopy | ⟨q, hq, hput⟩) | ⟨q, -, hred⟩) | ⟨x, -, rfl⟩
  · obtain ⟨k, -, rfl⟩ := mem_copyToDest.1 hcopy
    exact writesWithin_copy (.inl rfl)
  · split at hput
    · simp only [List.mem_append, List.mem_cons, List.not_mem_nil, or_false] at hput
      rcases hput with hput | rfl
      · obtain ⟨o, -, rfl⟩ := mem_putmemNbiWg.1 hput
        exact writesWithin_copy (.inr hq)
      · exact writesWithin_putFlag (.inr hq)
    · simp at hput
  · split at hred
    · rcases List.mem_cons.1 hred with rfl | hred
      · exact writesWithin_waitFlag
      · obtain ⟨j, -, rfl⟩ := mem_computeReduce.1 hred
        exact writesWithin_combine (.inl rfl)
    · simp at hred
  · exact writesWithin_putFlag (.inl rfl)

/-- A chunk offset `(x % n) * c` plus an element of the chunk stays below
    `n` chunks. -/
theorem mod_mul_add_lt {x n c j : Nat} (hn : 0 < n) (hj : j < c) : x % n * c + j < n * c :=
  calc x % n * c + j < x % n * c + c := Nat.add_lt_add_left hj _
    _ = (x % n + 1) * c := (Nat.succ_mul _ _).symm
    _ ≤ n * c := Nat.mul_le_mul_right _ (Nat.mod_lt x hn)

/-- Beyond its copy, the ring writes `dest` cells only below
    `(n_seg - 1) * seg_size + num_pes * chunk_size`: the folds of the first
    loop and the passes of the second stay inside a segment's chunks. -/
theorem ring_dest_write (op : α → α → α) (ctx : GPUIBContext)
    (nelems nSeg segSize chunkSize : Nat) {n : Nat} {i : RedInstr α}
    (hi : (internalRingAllreduce op ctx nelems nSeg segSize chunkSize)[n]? = some i)
    (hn : nelems ≤ n) {q k : Nat} (ht : i.dataTarget ctx.myPe = some (q, (.dest, k))) :
    k < (nSeg - 1) * segSize + ctx.numPes * chunkSize := by
  have hlen : (copyToDest ctx.myPe nelems : List (RedInstr α)).length = nelems := by
    simp [copyToDest]
  rw [internalRingAllreduce, List.append_assoc, List.getElem?_append_right (by omega)] at hi
  have hmem := List.mem_of_getElem? hi
  simp only [List.mem_append, List.mem_flatMap, List.mem_map, List.mem_range, List.mem_cons,
    List.not_mem_nil, or_false] at hmem
  -- a segment's offset is at most the last segment's
  have hseg : ∀ seg < nSeg, seg * segSize ≤ (nSeg - 1) * segSize := fun seg hseg =>
    Nat.mul_le_mul_right _ (by omega)
  rcases hmem with
    ⟨seg, hseg', (⟨round, hround, (hput | hflag) | hred⟩ | ⟨round, hround, hput | hflag⟩)⟩ |
      ⟨x, -, rfl⟩
  · obtain ⟨o, -, rfl⟩ := mem_putmemNbiWg.1 hput
    simp [Instr.dataTarget] at ht
  · rcases hflag with rfl | rfl <;> simp [Instr.dataTarget] at ht
  · obtain ⟨j, hj, rfl⟩ := mem_computeReduce.1 hred
    simp only [Instr.dataTarget, Option.some.injEq, Prod.mk.injEq] at ht
    obtain ⟨-, -, rfl⟩ := ht
    have := mod_mul_add_lt (x := ctx.myPe + 2 * ctx.numPes - round) (n := ctx.numPes) (by omega) hj
    have := hseg seg hseg'
    omega
  · obtain ⟨o, ho, rfl⟩ := mem_putmemNbiWg.1 hput
    simp only [Instr.dataTarget, Option.some.injEq, Prod.mk.injEq] at ht
    obtain ⟨-, -, rfl⟩ := ht
    rw [List.mem_range'_1] at hround
    have := mod_mul_add_lt (x := ctx.myPe + 1 + 2 * ctx.numPes - round) (n := ctx.numPes)
      (by omega) ho
    have := hseg seg hseg'
    omega
  · rcases hflag with rfl | rfl <;> simp [Instr.dataTarget] at ht
  · simp [Instr.dataTarget] at ht

/-- The ring never writes `source`. -/
theorem ring_source_write (op : α → α → α) (ctx : GPUIBContext)
    (nelems nSeg segSize chunkSize : Nat) {i : RedInstr α}
    (hi : i ∈ internalRingAllreduce op ctx nelems nSeg segSize chunkSize) (q k : Nat) :
    i.dataTarget ctx.myPe ≠ some (q, (.source, k)) := by
  simp only [internalRingAllreduce, List.mem_append, List.mem_flatMap, List.mem_map,
    List.mem_range, List.mem_cons, List.not_mem_nil, or_false] at hi
  rcases hi with
    ((hcopy | ⟨seg, -, (⟨round, -, (hput | hflag) | hred⟩ | ⟨round, -, hput | hflag⟩)⟩) |
      ⟨x, -, rfl⟩)
  · obtain ⟨k, -, rfl⟩ := mem_copyToDest.1 hcopy
    simp [Instr.dataTarget]
  · obtain ⟨o, -, rfl⟩ := mem_putmemNbiWg.1 hput
    simp [Instr.dataTarget]
  · rcases hflag with rfl | rfl <;> simp [Instr.dataTarget]
  · obtain ⟨j, -, rfl⟩ := mem_computeReduce.1 hred
    simp [Instr.dataTarget]
  · obtain ⟨o, -, rfl⟩ := mem_putmemNbiWg.1 hput
    simp [Instr.dataTarget]
  · rcases hflag with rfl | rfl <;> simp [Instr.dataTarget]
  · simp [Instr.dataTarget]

/-- The copy into `dest` runs to its end and leaves `dest` below `nelems`
    holding `source`. -/
theorem execList_copyToDest (self nelems : Nat) (m : Memory RedAddr Nat α) :
    ∃ m', execList self m (copyToDest self nelems) = some m' ∧
      ∀ k < nelems, m'.data self (.dest, k) = m.data self (.source, k) := by
  induction nelems with
  | zero => exact ⟨m, rfl, fun k hk => absurd hk (Nat.not_lt_zero k)⟩
  | succ n ih =>
    obtain ⟨m', hm', hcopied⟩ := ih
    -- the copies so far left `source` alone
    have hsrc : m'.data self (.source, n) = m.data self (.source, n) := by
      refine execList_data_of_ne hm' fun i hi => ?_
      obtain ⟨k, -, rfl⟩ := mem_copyToDest.1 hi
      simp [Instr.dataTarget]
    refine ⟨m'.setData self (.dest, n) (m'.data self (.source, n)), ?_, fun k hk => ?_⟩
    · rw [copyToDest, List.range_succ, List.map_append, ← copyToDest, execList_append, hm',
        Option.bind_some]
      rfl
    · rcases Nat.lt_succ_iff_lt_or_eq.1 hk with hk | rfl
      · rw [Memory.setData_data_of_ne _ _ (by simp [Nat.ne_of_gt hk]), hcopied k hk]
      · rw [Memory.setData_data, if_pos ⟨rfl, rfl⟩, hsrc]

theorem getElem?_copyToDest {self nelems k : Nat} (hk : k < nelems) :
    (copyToDest self nelems : List (RedInstr α))[k]? =
      some (.copy self (.dest, k) self (.source, k)) := by
  simp [copyToDest, hk]

end GPUIBContext

/-- What `to_all(team, ...)` reads of a GPU-IB team: `tinfo_wrt_world`'s
    `pe_start`, `log_stride` (a whole number, as the code asserts) and
    `size`. -/
structure GPUIBTeamInfo where
  peStart : Nat
  logStride : Nat
  size : Nat
deriving DecidableEq, Repr

/-- The team's members' world ranks, `pe_start + (1 << log_stride) * j`. -/
def GPUIBTeamInfo.members (team : GPUIBTeamInfo) : List Nat :=
  List.range' team.peStart team.size (2 ^ team.logStride)

/-- Every member of `team`, in a world of `numPes` PEs, calls
    `to_all(team, dest, source, nreduce)`; no other PE runs anything. -/
def teamToAllProgram (op : α → α → α) (numPes : Nat) (team : GPUIBTeamInfo) (nreduce : Nat) :
    Prog RedAddr Nat α := fun p =>
  if p ∈ team.members then
    GPUIBContext.toAll op ⟨p, numPes⟩ nreduce team.peStart team.logStride team.size
  else []

/-- A member runs the ring when the direct algorithm does not fit and the
    ring's flags do. -/
theorem teamToAllProgram_of_ring (op : α → α → α) (numPes : Nat) (team : GPUIBTeamInfo)
    {nreduce : Nat} (hdirect : ¬ GPUIBContext.DirectFits numPes nreduce)
    (hring : 2 * numPes ≤ reduceSyncSize) {p : Nat} (hp : p ∈ team.members) :
    teamToAllProgram op numPes team nreduce p =
      GPUIBContext.internalRingAllreduce op ⟨p, numPes⟩ nreduce
        (GPUIBContext.ringParams numPes nreduce).1 (GPUIBContext.ringParams numPes nreduce).2.1
        (GPUIBContext.ringParams numPes nreduce).2.2 := by
  rw [teamToAllProgram, if_pos hp, GPUIBContext.toAll_of_ring op ⟨p, numPes⟩ _ _ _ hdirect hring]

theorem teamToAllProgram_of_not_mem (op : α → α → α) (numPes : Nat) (team : GPUIBTeamInfo)
    (nreduce : Nat) {p : Nat} (hp : p ∉ team.members) :
    teamToAllProgram op numPes team nreduce p = [] := by
  rw [teamToAllProgram, if_neg hp]

/-- Where the ring's folds and passes end: `(n_seg - 1) * seg_size + num_pes * chunk_size`. -/
def ringCoverEnd (numPes nreduce : Nat) : Nat :=
  ((GPUIBContext.ringParams numPes nreduce).1 - 1) * (GPUIBContext.ringParams numPes nreduce).2.1 +
    numPes * (GPUIBContext.ringParams numPes nreduce).2.2

/-- When `to_all` takes the ring, a member's `dest` element from the end of
    the ring's chunks up to `nreduce` is written only by the member's own
    copy: once that copy has run, in any interleaving, the element is the
    member's own `source` element, not a reduction. -/
theorem ring_tail_unreduced (op : α → α → α) (numPes : Nat) (team : GPUIBTeamInfo)
    {nreduce : Nat} (hdirect : ¬ GPUIBContext.DirectFits numPes nreduce)
    (hring : 2 * numPes ≤ reduceSyncSize) {p : Nat} (hp : p ∈ team.members) {k : Nat}
    (hk : ringCoverEnd numPes nreduce ≤ k) (hkn : k < nreduce)
    {c₀ c : Config RedAddr Nat α} (hstart : c₀.pc p = 0)
    (h : Reachable (teamToAllProgram op numPes team nreduce) c₀ c) (hcopied : k < c.pc p) :
    c.mem.data p (.dest, k) = c₀.mem.data p (.source, k) := by
  -- every member runs the ring, from its copy on
  have hw : (teamToAllProgram op numPes team nreduce p)[k]? =
      some (.copy p (.dest, k) p (.source, k)) := by
    rw [teamToAllProgram_of_ring op numPes team hdirect hring hp,
      GPUIBContext.internalRingAllreduce, List.append_assoc,
      List.getElem?_append_left (by simpa [GPUIBContext.copyToDest] using hkn)]
    exact GPUIBContext.getElem?_copyToDest hkn
  have hdata := Reachable.data_of_unique_writer (x := (p, (.dest, k))) (y := (p, (.source, k))) hw
    (fun q n i hi ht => ?_) (fun q n i hi => ?_) (by omega) h
  · rw [hdata, if_pos hcopied]
  · -- the copy is the only writer: the ring's other writes stay below the tail
    by_cases hq : q ∈ team.members
    · rw [teamToAllProgram_of_ring op numPes team hdirect hring hq] at hi
      by_cases hn : nreduce ≤ n
      · have hlt := GPUIBContext.ring_dest_write op ⟨q, numPes⟩ _ _ _ _ hi hn ht
        dsimp only at hlt
        simp only [ringCoverEnd] at hk
        omega
      · rw [GPUIBContext.internalRingAllreduce, List.append_assoc,
          List.getElem?_append_left (by simpa [GPUIBContext.copyToDest] using hn),
          GPUIBContext.getElem?_copyToDest (by omega), Option.some.injEq] at hi
        subst hi
        simp only [Instr.dataTarget, Option.some.injEq, Prod.mk.injEq] at ht
        exact ⟨ht.1, ht.2.2⟩
    · rw [teamToAllProgram_of_not_mem op numPes team nreduce hq] at hi
      simp at hi
  · by_cases hq : q ∈ team.members
    · rw [teamToAllProgram_of_ring op numPes team hdirect hring hq] at hi
      exact GPUIBContext.ring_source_write op ⟨q, numPes⟩ _ _ _ _ (List.mem_of_getElem? hi) _ _
    · rw [teamToAllProgram_of_not_mem op numPes team nreduce hq] at hi
      simp at hi

theorem gpu_ib_to_all_team_reduction (op : α → α → α) (numPes : Nat) (team : GPUIBTeamInfo)
    (nreduce : Nat) :
    (GPUIBContext.DirectFits numPes nreduce → ∀ p ∈ team.members,
      ∀ i ∈ teamToAllProgram op numPes team nreduce p,
        GPUIBContext.WritesWithin p (fun q => q = p ∨ q ∈ team.members) i) ∧
    (¬ GPUIBContext.DirectFits numPes nreduce → 2 * numPes ≤ reduceSyncSize →
      ∀ p ∈ team.members, ∀ i ∈ teamToAllProgram op numPes team nreduce p,
        GPUIBContext.WritesWithin p (fun q => q = p ∨ q = (p + 1) % numPes) i) ∧
    (¬ GPUIBContext.DirectFits numPes nreduce → 2 * numPes ≤ reduceSyncSize →
      ∀ p ∈ team.members, ∀ k, ringCoverEnd numPes nreduce ≤ k → k < nreduce →
        ∀ c₀ c : Config RedAddr Nat α, c₀.pc p = 0 →
          Reachable (teamToAllProgram op numPes team nreduce) c₀ c → k < c.pc p →
            c.mem.data p (.dest, k) = c₀.mem.data p (.source, k)) := by
  refine ⟨fun hdirect p hp i hi => ?_, fun hdirect hring p hp i hi => ?_,
    fun hdirect hring p hp k hk hkn c₀ c hstart h hcopied =>
      ring_tail_unreduced op numPes team hdirect hring hp hk hkn hstart h hcopied⟩
  · rw [teamToAllProgram, if_pos hp, GPUIBContext.toAll_of_direct op _ _ _ _ hdirect] at hi
    exact GPUIBContext.internalDirectAllreduce_targets op ⟨p, numPes⟩ _ _ _ _ i hi
  · rw [teamToAllProgram_of_ring op numPes team hdirect hring hp] at hi
    exact GPUIBContext.internalRingAllreduce_targets op ⟨p, numPes⟩ _ _ _ _ i hi

/-- Two PEs reducing `1001` elements over the world: the ring covers `1000`,
    and element `1000` of `dest` stays PE `0`'s own `source` element. -/
theorem gpu_ib_to_all_team_reduction_two_pes :
    ¬ GPUIBContext.DirectFits 2 1001 ∧ 2 * 2 ≤ reduceSyncSize ∧ ringCoverEnd 2 1001 = 1000 ∧
      ∀ c₀ c : Config RedAddr Nat Int, c₀.pc 0 = 0 →
        Reachable (teamToAllProgram (· + ·) 2 ⟨0, 0, 2⟩ 1001) c₀ c → 1000 < c.pc 0 →
          c.mem.data 0 (.dest, 1000) = c₀.mem.data 0 (.source, 1000) :=
  ⟨by decide, by decide, by decide, fun c₀ c hstart h hcopied =>
    (gpu_ib_to_all_team_reduction (· + ·) 2 ⟨0, 0, 2⟩ 1001).2.2 (by decide) (by decide) 0
      (by decide) 1000 (by decide) (by decide) c₀ c hstart h hcopied⟩

/-- The team of world ranks `0` and `2` in a world of four, reducing `257`
    elements: `to_all` takes the ring, and PE `0`, before any wait, puts
    its `dest[64]` into `pWrk[64]` of PE `1`, which is not in the team. -/
theorem ring_first_put_outside_team (m₀ : Memory RedAddr Nat Nat) :
    ∃ c, Reachable (teamToAllProgram (· + ·) 4 ⟨0, 1, 2⟩ 257) ⟨fun _ => 0, m₀⟩ c ∧
      c.mem.data 1 (.pWrk, 64) = m₀.data 0 (.source, 64) := by
  -- PE `0` runs the ring with one segment of `257` elements in chunks of `64`
  have hprog : teamToAllProgram (α := Nat) (· + ·) 4 ⟨0, 1, 2⟩ 257 0 =
      GPUIBContext.internalRingAllreduce (· + ·) ⟨0, 4⟩ 257 1 257 64 := by
    rw [teamToAllProgram_of_ring _ _ _ (by decide) (by decide) (by decide)]
    rfl
  -- its first put, right after the copy, goes to PE `1`
  have hget : (GPUIBContext.internalRingAllreduce (α := Nat) (· + ·) ⟨0, 4⟩ 257 1 257 64)[257]? =
      some (.copy 1 (.pWrk, 64) 0 (.dest, 64)) := by rfl
  have htake : (GPUIBContext.internalRingAllreduce (α := Nat) (· + ·) ⟨0, 4⟩ 257 1 257 64).take
      (257 + 1) = GPUIBContext.copyToDest 0 257 ++ [.copy 1 (.pWrk, 64) 0 (.dest, 64)] := by
    rw [List.take_add_one, hget, GPUIBContext.internalRingAllreduce, List.append_assoc,
      List.take_left' (by simp [GPUIBContext.copyToDest])]
    rfl
  obtain ⟨m', hcopy, hcopied⟩ := GPUIBContext.execList_copyToDest 0 257 m₀
  have hdrop : (teamToAllProgram (α := Nat) (· + ·) 4 ⟨0, 1, 2⟩ 257 0).drop
      ((⟨fun _ => 0, m₀⟩ : Config RedAddr Nat Nat).pc 0) =
      (GPUIBContext.copyToDest 0 257 ++ [.copy 1 (.pWrk, 64) 0 (.dest, 64)]) ++
        (GPUIBContext.internalRingAllreduce (· + ·) ⟨0, 4⟩ 257 1 257 64).drop (257 + 1) := by
    rw [List.drop_zero, hprog, ← htake, List.take_append_drop]
  have hrun := run_replicate hdrop
  rw [execList_append, hcopy, Option.bind_some] at hrun
  refine ⟨_, reachable_of_run hrun, ?_⟩
  simp only [Memory.setData_data]
  exact hcopied 64 (by decide)

/-- The same run from a memory whose sources hold `100 * pe + k + 1` and
    whose other cells hold `0`: `pWrk[64]` of PE `1`, outside the team,
    gets PE `0`'s `source[64]`. -/
theorem gpu_ib_to_all_writes_outside_team :
    1 ∉ GPUIBTeamInfo.members ⟨0, 1, 2⟩ ∧
      ∃ c, Reachable (teamToAllProgram (· + ·) 4 ⟨0, 1, 2⟩ 257)
          ⟨fun _ => 0, ⟨fun p a => if a.1 = .source then 100 * p + a.2 + 1 else 0,
            fun _ _ => 0⟩⟩ c ∧
        c.mem.data 1 (.pWrk, 64) = 65 :=
  ⟨by decide, ring_first_put_outside_team _⟩

end RocShmem
