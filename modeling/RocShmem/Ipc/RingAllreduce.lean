import RocShmem.Ipc.Reduce
import RocShmem.Lib.LockStep
import RocShmem.Lib.RingAllreduce

/-!
# The Ring Allreduce in Lock Step

`internal_ring_allreduce` is the ring algorithm of `RingAllreduce` written
for a team of `P` PEs in the IPC conduit. For each segment of `P` chunks of
`chunk_size` elements, round `iter < P - 1` of its first loop puts the
chunk `off_send = (my_pe + 1 - iter) mod P` of the own `dest` into the
successor's `pWrk`, raises the successor's flag `pSync[iter]`, waits for the
own flag, and folds the chunk `off_recv = (my_pe - iter) mod P` of the own
`pWrk` into the own `dest`; round `iter` of the second loop, for `iter` from
`P - 1` to `2 P - 3`, puts the chunk `off_send` of the own `dest` into the
successor's `dest` and raises and waits for the flag the same way.

Here every member runs its code in lock step: in each round, every member
runs its put, then every member its wait and fold (`ringAllreduceRounds`),
and the schedule that does so (`ringAllreduceSchedule`) is a run of the
team's programs in the interleaving semantics. The rounds are read off the
code (`flatMap_ringAllreduceRounds`), so the schedule runs every
instruction of every member's `internal_ring_allreduce` once, in program
order.

What the rounds do to one element of each chunk of one segment, seen as a
table of members by chunks (`destView`), is a round of `RingAllreduce`: the
put and fold of the first loop are a `reduceRound`
(`destView_reduceRounds`), the put and wait of the second a `gatherRound`
(`destView_gatherRounds`). The offsets line up because the chunk a member
sends in round `iter` is the one its successor receives
(`sendChunk_eq_val`), and the puts of a round never land on a cell that
another member reads in it. A segment writes no `dest` cell outside itself
(`SegFrame`), so the segments run one after another on what the copy of
`source` into `dest` left there, and every member's `dest` ends up holding,
in every segment and at every index, the fold of that index of all members'
`source` (`ring_allreduce_lock_step`). Nothing is assumed of the memory at
the start: each wait is for the flag raised in the same round.

## Main definitions

* `ringReducePut`, `ringReduceFold`, `ringGatherPut`, `ringGatherWait`: The
  blocks of one round of each loop.
* `ringAllreduceRounds`, `ringAllreduceSchedule`: The team's code in rounds,
  and their lock-step schedule.
* `ringAllreduceProgram`: Every member calling `internal_ring_allreduce`.
* `destView`: One element of every chunk of one segment, at every member.
* `SegFrame`: Every `dest` cell outside one segment unchanged.

## Theorems

* `internalRingAllreduce_eq_blocks`: The code as its blocks.
* `flatMap_ringAllreduceRounds`: A member's blocks of the rounds are its code.
* `execRound_puts`, `execRound_folds`, `execRound_waits`: What a round of
  puts, of folds and of waits does.
* `destView_reduceRounds`, `destView_gatherRounds`: A round of each loop is a
  round of the ring algorithm.
* `destView_reduceScatter`, `destView_allgather`: The first loop of a
  segment is the reduce-scatter, the second the allgather.
* `destView_segment`, `destView_segments`: A segment is the whole ring
  algorithm, and the segments run one after another.
* `execLockStep_ringAllreduceRounds`: The rounds leave the fold of all
  `source`s in every `dest`.
* `ring_allreduce_lock_step`: In lock step, every member's `dest` ends up
  with the fold of all members' `source`.
-/

namespace RocShmem

open Pgas

variable {α : Type}

namespace IPCTeam

/-- `send_pe`: the successor's world rank. -/
def sendPe (team : IPCTeam) : Nat := team.getPeInWorld ((team.myPe + 1) % team.size)

/-- `off_send` of round `iter`: the chunk `(my_pe + 1 - iter) mod P`. -/
def offSend (team : IPCTeam) (chunkSize iter : Nat) : Nat :=
  (team.myPe + 1 + 2 * team.size - iter) % team.size * chunkSize

/-- `off_recv` of round `iter`: the chunk `(my_pe - iter) mod P`. -/
def offRecv (team : IPCTeam) (chunkSize iter : Nat) : Nat :=
  (team.myPe + 2 * team.size - iter) % team.size * chunkSize

end IPCTeam

/-- The put of round `iter` of the first loop of segment `seg`: the chunk
    `off_send` of `dest` into the successor's `pWrk`, then its flag. -/
def ringReducePut (ctx : IPCContext) (team : IPCTeam) (dst segSize chunkSize seg iter : Nat) :
    List (IpcInstr α) :=
  putmemElems ctx.myPe (.pWrk team.poolIndex) (team.offSend chunkSize iter) .dest
      (dst + team.offSend chunkSize iter + seg * segSize) chunkSize team.sendPe ++
    [.putFlag team.sendPe (.barrierPSync team.poolIndex, iter) (seg + 100)]

/-- The rest of that round: the wait for the own flag, then the fold of the
    chunk `off_recv` of `pWrk` into `dest`. -/
def ringReduceFold (op : α → α → α) (team : IPCTeam) (dst segSize chunkSize seg iter : Nat) :
    List (IpcInstr α) :=
  .waitFlag (.barrierPSync team.poolIndex, iter) (seg + 100) ::
    computeReduce op (.pWrk team.poolIndex, team.offRecv chunkSize iter)
      (.dest, dst + seg * segSize + team.offRecv chunkSize iter) chunkSize

/-- The put of round `iter` of the second loop: the chunk `off_send` of
    `dest` into the successor's `dest`, then its flag. -/
def ringGatherPut (ctx : IPCContext) (team : IPCTeam) (dst segSize chunkSize seg iter : Nat) :
    List (IpcInstr α) :=
  putmemElems ctx.myPe .dest (dst + team.offSend chunkSize iter + seg * segSize) .dest
      (dst + team.offSend chunkSize iter + seg * segSize) chunkSize team.sendPe ++
    [.putFlag team.sendPe (.barrierPSync team.poolIndex, iter) (seg + 100)]

/-- The rest of that round: the wait for the own flag. -/
def ringGatherWait (team : IPCTeam) (seg iter : Nat) : List (IpcInstr α) :=
  [.waitFlag (.barrierPSync team.poolIndex, iter) (seg + 100)]

/-- The reset of `pSync[0 .. 2 num_pes - 2)` at the end. -/
def ringResets (ctx : IPCContext) (team : IPCTeam) : List (IpcInstr α) :=
  (List.range (2 * ctx.numPes - 2)).map fun i =>
    .putFlag ctx.myPe (.barrierPSync team.poolIndex, i) syncValue

theorem internalRingAllreduce_eq_blocks (op : α → α → α) (ctx : IPCContext) (team : IPCTeam)
    (dst src nelems nSeg segSize chunkSize : Nat) :
    internalRingAllreduce op ctx team dst src nelems nSeg segSize chunkSize =
      copyToDest ctx.myPe dst src nelems ++
        ((List.range nSeg).flatMap fun seg =>
          (List.range (team.size - 1)).flatMap (fun iter =>
            ringReducePut ctx team dst segSize chunkSize seg iter ++
              ringReduceFold op team dst segSize chunkSize seg iter) ++
          (List.range' (team.size - 1) (team.size - 1)).flatMap fun iter =>
            ringGatherPut ctx team dst segSize chunkSize seg iter ++
              ringGatherWait team seg iter) ++
        ringResets ctx team := by
  simp only [internalRingAllreduce, ringReducePut, ringReduceFold, ringGatherPut, ringGatherWait,
    ringResets, IPCTeam.offSend, IPCTeam.offRecv, IPCTeam.sendPe, List.append_assoc,
    List.cons_append, List.nil_append]

/-- The members' world ranks, by team rank. -/
def ringMembers (peStart stride size : Nat) : List Nat :=
  (List.range size).map fun j => peStart + stride * j

/-- The rounds of `internal_ring_allreduce` at every member of a team: the
    copy into `dest`; for each segment, each round of the first loop as its
    put and its wait and fold, each round of the second loop as its put and
    its wait; the resets. -/
def ringAllreduceRounds (op : α → α → α) (numPes peStart stride size poolIndex dst src nelems nSeg
    segSize chunkSize : Nat) : List (Nat → List (IpcInstr α)) :=
  let block := teamProgram numPes peStart stride size poolIndex
  block (fun ctx _ => copyToDest ctx.myPe dst src nelems) ::
    ((List.range nSeg).flatMap fun seg =>
      (List.range (size - 1)).flatMap (fun iter =>
        [block fun ctx team => ringReducePut ctx team dst segSize chunkSize seg iter,
          block fun _ team => ringReduceFold op team dst segSize chunkSize seg iter]) ++
      (List.range' (size - 1) (size - 1)).flatMap fun iter =>
        [block fun ctx team => ringGatherPut ctx team dst segSize chunkSize seg iter,
          block fun _ team => ringGatherWait team seg iter]) ++
    [block fun ctx team => ringResets ctx team]

/-- Every member of the team calls `internal_ring_allreduce` on `n_seg`
    segments of `P` chunks of `chunk_size` elements. -/
def ringAllreduceProgram (op : α → α → α) (numPes peStart stride size poolIndex dst src nSeg
    chunkSize : Nat) : Prog DataAddr FlagAddr α :=
  teamProgram numPes peStart stride size poolIndex fun ctx team =>
    internalRingAllreduce op ctx team dst src (nSeg * (size * chunkSize)) nSeg (size * chunkSize)
      chunkSize

/-- The lock-step schedule of the rounds over the members. -/
def ringAllreduceSchedule (op : α → α → α) (numPes peStart stride size poolIndex dst src nSeg
    chunkSize : Nat) : List Nat :=
  lockStepSchedule (ringMembers peStart stride size)
    (ringAllreduceRounds op numPes peStart stride size poolIndex dst src (nSeg * (size * chunkSize))
      nSeg (size * chunkSize) chunkSize)

section Rounds

variable {numPes peStart stride size poolIndex : Nat}

/-- A member's blocks of the rounds, one after another, are its call of
    `internal_ring_allreduce`. -/
theorem flatMap_ringAllreduceRounds (op : α → α → α) (hstride : 0 < stride)
    (dst src nelems nSeg segSize chunkSize : Nat) {j : Nat} (hj : j < size) :
    (ringAllreduceRounds op numPes peStart stride size poolIndex dst src nelems nSeg segSize
      chunkSize).flatMap (· (peStart + stride * j)) =
      teamProgram numPes peStart stride size poolIndex (fun ctx team =>
        internalRingAllreduce op ctx team dst src nelems nSeg segSize chunkSize)
        (peStart + stride * j) := by
  simp only [ringAllreduceRounds, teamProgram_member hstride hj, internalRingAllreduce_eq_blocks,
    List.flatMap_cons, List.flatMap_nil, List.flatMap_append, List.flatMap_assoc,
    List.append_assoc, List.append_nil]

theorem nodup_ringMembers (hstride : 0 < stride) : (ringMembers peStart stride size).Nodup :=
  (List.nodup_range).map fun _ _ h => (rank_inj hstride).mp h

theorem mem_ringMembers {p : Nat} :
    p ∈ ringMembers peStart stride size ↔ ∃ j < size, peStart + stride * j = p := by
  simp [ringMembers]

end Rounds

/-! ## What the blocks do -/

section Blocks

theorem putmemElems_succ (self : Nat) (dst : Buf) (dstOff : Nat) (src : Buf) (srcOff n pe : Nat) :
    (putmemElems self dst dstOff src srcOff (n + 1) pe : List (IpcInstr α)) =
      putmemElems self dst dstOff src srcOff n pe ++
        [.copy pe (dst, dstOff + n) self (src, srcOff + n)] := by
  simp only [putmemElems, List.range_succ, List.map_append, List.map_singleton]

theorem computeReduce_succ (op : α → α → α) (src dst : DataAddr) (n : Nat) :
    computeReduce op src dst (n + 1) =
      computeReduce op src dst n ++ [.combine op (dst.1, dst.2 + n) (src.1, src.2 + n)] := by
  simp only [computeReduce, List.range_succ, List.map_append, List.map_singleton]

/-- A `putmem` writes the `n` cells from `dstOff` of `dst` on `pe`. -/
theorem dataTarget_of_mem_putmemElems {self : Nat} {dst : Buf} {dstOff : Nat} {src : Buf}
    {srcOff n pe : Nat} {i : IpcInstr α} (hi : i ∈ putmemElems self dst dstOff src srcOff n pe)
    (p : Nat) : ∃ o < n, i.dataTarget p = some (pe, (dst, dstOff + o)) := by
  obtain ⟨o, ho, rfl⟩ := List.mem_map.mp hi
  exact ⟨o, List.mem_range.mp ho, rfl⟩

/-- A `compute_reduce` writes the `size` cells from `dst` on the PE running it. -/
theorem dataTarget_of_mem_computeReduce {op : α → α → α} {src dst : DataAddr} {size : Nat}
    {i : IpcInstr α} (hi : i ∈ computeReduce op src dst size) (p : Nat) :
    ∃ o < size, i.dataTarget p = some (p, (dst.1, dst.2 + o)) := by
  obtain ⟨o, ho, rfl⟩ := List.mem_map.mp hi
  exact ⟨o, List.mem_range.mp ho, rfl⟩

/-- A `putmem` writes only its `n` target cells. -/
theorem execList_putmemElems_frame {self : Nat} {dst : Buf} {dstOff : Nat} {src : Buf}
    {srcOff n pe : Nat} {m m' : Memory DataAddr FlagAddr α}
    (h : execList self m (putmemElems self dst dstOff src srcOff n pe) = some m') {q : Nat}
    {a : DataAddr} (ha : ∀ o < n, (q, a) ≠ (pe, (dst, dstOff + o))) : m'.data q a = m.data q a :=
  execList_data_of_ne h fun i hi => by
    obtain ⟨o, ho, ht⟩ := dataTarget_of_mem_putmemElems hi self
    rw [ht]
    exact fun heq => ha o ho (Option.some.inj heq).symm

/-- A `compute_reduce` writes only its `size` cells from `dst`. -/
theorem execList_computeReduce_frame {op : α → α → α} {self : Nat} {src dst : DataAddr}
    {size : Nat} {m m' : Memory DataAddr FlagAddr α}
    (h : execList self m (computeReduce op src dst size) = some m') {q : Nat} {a : DataAddr}
    (ha : ∀ o < size, (q, a) ≠ (self, (dst.1, dst.2 + o))) : m'.data q a = m.data q a :=
  execList_data_of_ne h fun i hi => by
    obtain ⟨o, ho, ht⟩ := dataTarget_of_mem_computeReduce hi self
    rw [ht]
    exact fun heq => ha o ho (Option.some.inj heq).symm

/-- A `putmem` out of cells it does not write: the `n` cells from `dstOff`
    of `dst` on `pe` get the cells from `srcOff` of `src` on `self`. -/
theorem execList_putmemElems (self : Nat) (dst : Buf) (dstOff : Nat) (src : Buf) (srcOff n pe : Nat)
    (hne : pe ≠ self ∨ dst ≠ src) (m : Memory DataAddr FlagAddr α) :
    ∃ m', execList self m (putmemElems self dst dstOff src srcOff n pe) = some m' ∧
      (∀ o < n, m'.data pe (dst, dstOff + o) = m.data self (src, srcOff + o)) ∧
      m'.flag = m.flag := by
  induction n with
  | zero => exact ⟨m, rfl, fun o ho => absurd ho (Nat.not_lt_zero o), rfl⟩
  | succ n ih =>
      obtain ⟨m₁, h₁, hval, hflag⟩ := ih
      -- The last copy reads a cell that no earlier copy wrote.
      have hread : m₁.data self (src, srcOff + n) = m.data self (src, srcOff + n) :=
        execList_putmemElems_frame h₁ fun _ _ heq => by
          simp only [Prod.mk.injEq] at heq
          exact hne.elim (· heq.1.symm) (· heq.2.1.symm)
      refine ⟨m₁.setData pe (dst, dstOff + n) (m₁.data self (src, srcOff + n)), ?_, ?_, ?_⟩
      · rw [putmemElems_succ, execList_append, h₁]
        rfl
      · intro o ho
        rcases Nat.lt_succ_iff_lt_or_eq.mp ho with ho | rfl
        · rw [Memory.setData_data_of_ne _ _ (by simp only [ne_eq, Prod.mk.injEq, true_and]; omega),
            hval o ho]
        · rw [Memory.setData_data, if_pos ⟨rfl, rfl⟩, hread]
      · rw [Memory.setData_flag, hflag]

/-- A `compute_reduce` of `src` into `dst` in another buffer: each of the
    `n` cells from `dst` becomes `op` of itself and its cell of `src`. -/
theorem execList_computeReduce (op : α → α → α) (self : Nat) (src dst : DataAddr) (n : Nat)
    (hne : src.1 ≠ dst.1) (m : Memory DataAddr FlagAddr α) :
    ∃ m', execList self m (computeReduce op src dst n) = some m' ∧
      (∀ o < n, m'.data self (dst.1, dst.2 + o) =
        op (m.data self (dst.1, dst.2 + o)) (m.data self (src.1, src.2 + o))) ∧
      m'.flag = m.flag := by
  induction n with
  | zero => exact ⟨m, rfl, fun o ho => absurd ho (Nat.not_lt_zero o), rfl⟩
  | succ n ih =>
      obtain ⟨m₁, h₁, hval, hflag⟩ := ih
      -- The last fold reads its own cell and one of `src`, which no earlier
      -- fold wrote.
      have hunch : ∀ a : DataAddr, (a = (dst.1, dst.2 + n) ∨ a.1 = src.1) →
          m₁.data self a = m.data self a := fun a ha =>
        execList_computeReduce_frame h₁ fun o ho heq => by
          rw [(Prod.mk.inj heq).2] at ha
          rcases ha with ha | ha
          · simp only [Prod.mk.injEq, true_and] at ha
            omega
          · exact hne ha.symm
      refine ⟨m₁.setData self (dst.1, dst.2 + n)
        (op (m₁.data self (dst.1, dst.2 + n)) (m₁.data self (src.1, src.2 + n))), ?_, ?_, ?_⟩
      · rw [computeReduce_succ, execList_append, h₁]
        rfl
      · intro o ho
        rcases Nat.lt_succ_iff_lt_or_eq.mp ho with ho | rfl
        · rw [Memory.setData_data_of_ne _ _ (by simp only [ne_eq, Prod.mk.injEq, true_and]; omega),
            hval o ho]
        · rw [Memory.setData_data, if_pos ⟨rfl, rfl⟩, hunch _ (.inl rfl),
            hunch (src.1, src.2 + o) (.inr rfl)]
      · rw [Memory.setData_flag, hflag]

end Blocks

/-! ## What the rounds do -/

section RoundEffects

variable (blk : Nat → List (IpcInstr α)) (w : Nat → Nat) (size n : Nat)

/-- The copy round: every member's `dest` gets its `source`. -/
theorem execRound_copies (dst src : Nat)
    (hblk : ∀ j < size, blk (w j) = copyToDest (w j) dst src n) (m : Memory DataAddr FlagAddr α) :
    ∃ m', execRound blk ((List.range size).map w) m = some m' ∧
      ∀ j < size, ∀ e < n, m'.data (w j) (.dest, dst + e) = m.data (w j) (.source, src + e) := by
  -- Invariant: the members so far have copied, and no `source` cell changed.
  obtain ⟨m', hround, hcopied, -⟩ := execRound_induction blk w size m
    (fun k m' => (∀ j < k, ∀ e < n, m'.data (w j) (.dest, dst + e) =
        m.data (w j) (.source, src + e)) ∧ ∀ q i, m'.data q (.source, i) = m.data q (.source, i))
    ⟨fun j hj => absurd hj (Nat.not_lt_zero j), fun _ _ => rfl⟩
    (fun k hk m' ⟨hdone, hsrc⟩ => by
      obtain ⟨m'', hexec, hval, -⟩ := execList_putmemElems (w k) .dest dst .source src n (w k)
        (.inr nofun) m'
      have hframe : ∀ q a, (∀ o < n, (q, a) ≠ (w k, (Buf.dest, dst + o))) →
          m''.data q a = m'.data q a := fun _ _ => execList_putmemElems_frame hexec
      refine ⟨m'', by rw [hblk k hk]; exact hexec, fun j hj e he => ?_, fun q i => ?_⟩
      · rcases Nat.lt_succ_iff_lt_or_eq.mp hj with hj | rfl
        · by_cases hwj : w j = w k
          · -- Two ranks at one PE: the later copy writes the same values.
            rw [hwj, hval e he, hsrc]
          · rw [hframe _ _ fun o _ h => hwj (Prod.mk.inj h).1, hdone j hj e he]
        · rw [hval e he, hsrc]
      · rw [hframe _ _ fun o _ h => by simp at h, hsrc])
  exact ⟨m', hround, hcopied⟩

/-- A put round: every member `j` puts `n` cells of its `dest` into cells
    of `buf` on `tgt j` and raises flag `x` there. When no member's puts
    land on the cells another member reads, the puts land as if at once: the
    targets get the cells read, nothing else changes, and the flags are
    raised. -/
theorem execRound_puts (tgt tOff sOff : Nat → Nat) (buf : Buf) (x : FlagAddr) (v : Int)
    (hblk : ∀ j < size, blk (w j) =
      putmemElems (w j) buf (tOff j) .dest (sOff j) n (tgt j) ++ [.putFlag (tgt j) x v])
    (hself : ∀ j < size, tgt j ≠ w j ∨ buf ≠ .dest)
    (htgt : ∀ j < size, ∀ j' < size, tgt j = tgt j' → j = j')
    (hread : ∀ j < size, ∀ j' < size, ∀ o < n, ∀ o' < n,
      (w j, (Buf.dest, sOff j + o)) ≠ (tgt j', (buf, tOff j' + o')))
    (m : Memory DataAddr FlagAddr α) :
    ∃ m', execRound blk ((List.range size).map w) m = some m' ∧
      (∀ j < size, ∀ o < n, m'.data (tgt j) (buf, tOff j + o) = m.data (w j) (.dest, sOff j + o)) ∧
      (∀ q a, (∀ j < size, ∀ o < n, (q, a) ≠ (tgt j, (buf, tOff j + o))) →
        m'.data q a = m.data q a) ∧
      ∀ q y, m'.flag q y = if (∃ j < size, q = tgt j) ∧ y = x then v else m.flag q y := by
  -- Invariant: the members so far have put and flagged, nothing else changed.
  obtain ⟨m', hround, hput, hother, hflag⟩ := execRound_induction blk w size m
    (fun k m' =>
      (∀ j < k, ∀ o < n, m'.data (tgt j) (buf, tOff j + o) = m.data (w j) (.dest, sOff j + o)) ∧
      (∀ q a, (∀ j < k, ∀ o < n, (q, a) ≠ (tgt j, (buf, tOff j + o))) →
        m'.data q a = m.data q a) ∧
      ∀ q y, m'.flag q y = if (∃ j < k, q = tgt j) ∧ y = x then v else m.flag q y)
    ⟨fun j hj => absurd hj (Nat.not_lt_zero j), fun _ _ _ => rfl,
      fun q y => by simp only [Nat.not_lt_zero, false_and, exists_false, if_false]⟩
    (fun k hk m' ⟨hdone, hrest, hflags⟩ => by
      obtain ⟨m₁, hexec, hval, hflag₁⟩ := execList_putmemElems (w k) buf (tOff k) .dest (sOff k) n
        (tgt k) (hself k hk) m'
      have hframe : ∀ q a, (∀ o < n, (q, a) ≠ (tgt k, (buf, tOff k + o))) →
          m₁.data q a = m'.data q a := fun _ _ => execList_putmemElems_frame hexec
      refine ⟨m₁.setFlag (tgt k) x v, ?_, fun j hj o ho => ?_, fun q a hqa => ?_, fun q y => ?_⟩
      · rw [hblk k hk, execList_append, hexec]
        rfl
      · rw [Memory.setFlag_data]
        rcases Nat.lt_succ_iff_lt_or_eq.mp hj with hj | hjk
        · -- An earlier member's target is not this member's.
          rw [hframe _ _ fun o' _ h => absurd (htgt j (by omega) k hk (Prod.mk.inj h).1) (by omega),
            hdone j hj o ho]
        · rw [hjk, hval o ho, hrest _ _ fun j' hj' o' ho' => hread k hk j' (by omega) o ho o' ho']
      · rw [Memory.setFlag_data, hframe _ _ fun o ho => hqa k (Nat.lt_succ_self k) o ho,
          hrest _ _ fun j hj o ho => hqa j (Nat.lt_succ_of_lt hj) o ho]
      · rw [Memory.setFlag_flag, hflag₁, hflags]
        by_cases hq : q = tgt k ∧ y = x
        · rw [if_pos hq, if_pos ⟨⟨k, Nat.lt_succ_self k, hq.1⟩, hq.2⟩]
        · rw [if_neg hq]
          congr 1
          refine propext ⟨fun ⟨⟨j, hj, hqj⟩, hy⟩ => ⟨⟨j, Nat.lt_succ_of_lt hj, hqj⟩, hy⟩,
            fun ⟨⟨j, hj, hqj⟩, hy⟩ => ⟨⟨j, ?_, hqj⟩, hy⟩⟩
          rcases Nat.lt_succ_iff_lt_or_eq.mp hj with hj | hjk
          · exact hj
          · exact absurd ⟨hjk ▸ hqj, hy⟩ hq)
  exact ⟨m', hround, hput, hother, hflag⟩

/-- A fold round: every member waits for its flag `x` to hold `v`, then
    folds `n` cells of `srcBuf` into `n` cells of its `dest`. When every flag
    holds, every member folds its own cells, and nothing else changes. -/
theorem execRound_folds (op : α → α → α) (sOff dOff : Nat → Nat) (srcBuf : Buf) (x : FlagAddr)
    (v : Int)
    (hblk : ∀ j < size, blk (w j) =
      .waitFlag x v :: computeReduce op (srcBuf, sOff j) (.dest, dOff j) n)
    (hsrc : srcBuf ≠ .dest) (hw : ∀ j < size, ∀ j' < size, w j = w j' → j = j')
    (m : Memory DataAddr FlagAddr α) (hflag : ∀ j < size, m.flag (w j) x = v) :
    ∃ m', execRound blk ((List.range size).map w) m = some m' ∧
      (∀ j < size, ∀ o < n, m'.data (w j) (.dest, dOff j + o) =
        op (m.data (w j) (.dest, dOff j + o)) (m.data (w j) (srcBuf, sOff j + o))) ∧
      (∀ q a, (∀ j < size, ∀ o < n, (q, a) ≠ (w j, (.dest, dOff j + o))) →
        m'.data q a = m.data q a) ∧
      m'.flag = m.flag := by
  -- Invariant: the members so far have folded, nothing else changed.
  obtain ⟨m', hround, hfold, hother, hflags⟩ := execRound_induction blk w size m
    (fun k m' =>
      (∀ j < k, ∀ o < n, m'.data (w j) (.dest, dOff j + o) =
        op (m.data (w j) (.dest, dOff j + o)) (m.data (w j) (srcBuf, sOff j + o))) ∧
      (∀ q a, (∀ j < k, ∀ o < n, (q, a) ≠ (w j, (.dest, dOff j + o))) →
        m'.data q a = m.data q a) ∧
      m'.flag = m.flag)
    ⟨fun j hj => absurd hj (Nat.not_lt_zero j), fun _ _ _ => rfl, rfl⟩
    (fun k hk m' ⟨hdone, hrest, hflags⟩ => by
      obtain ⟨m₁, hexec, hval, hflag₁⟩ := execList_computeReduce op (w k) (srcBuf, sOff k)
        (.dest, dOff k) n hsrc m'
      have hframe : ∀ q a, (∀ o < n, (q, a) ≠ (w k, (Buf.dest, dOff k + o))) →
          m₁.data q a = m'.data q a := fun _ _ => execList_computeReduce_frame hexec
      -- The cells this member reads are its own, which nobody before wrote.
      have hown : ∀ a, m'.data (w k) a = m.data (w k) a := fun a =>
        hrest _ _ fun j hj o _ h => absurd (hw k hk j (by omega) (Prod.mk.inj h).1) (by omega)
      refine ⟨m₁, ?_, fun j hj o ho => ?_, fun q a hqa => ?_, by rw [hflag₁, hflags]⟩
      · rw [hblk k hk, execList_cons, Instr.exec, hflags, hflag k hk, if_pos rfl, Option.bind_some]
        exact hexec
      · rcases Nat.lt_succ_iff_lt_or_eq.mp hj with hj | hjk
        · rw [hframe _ _ fun o' _ h => absurd (hw j (by omega) k hk (Prod.mk.inj h).1) (by omega),
            hdone j hj o ho]
        · rw [hjk, hval o ho, hown, hown]
      · rw [hframe _ _ fun o ho => hqa k (Nat.lt_succ_self k) o ho,
          hrest _ _ fun j hj o ho => hqa j (Nat.lt_succ_of_lt hj) o ho])
  exact ⟨m', hround, hfold, hother, hflags⟩

/-- A wait round: every member waits for its flag `x` to hold `v`. When
    every flag holds, nothing changes. -/
theorem execRound_waits (x : FlagAddr) (v : Int) (hblk : ∀ j < size, blk (w j) = [.waitFlag x v])
    (m : Memory DataAddr FlagAddr α) (hflag : ∀ j < size, m.flag (w j) x = v) :
    execRound blk ((List.range size).map w) m = some m := by
  obtain ⟨m', hround, rfl⟩ := execRound_induction blk w size m
    (fun _ m' => m' = m) rfl
    (fun k hk m' hm' => ⟨m', by
      rw [hblk k hk, execList_cons, Instr.exec, hm', hflag k hk, if_pos rfl, Option.bind_some,
        execList_nil], hm'⟩)
  exact hround

end RoundEffects

/-! ## The rounds of one segment as the ring algorithm -/

/-- Element `o` of every chunk of segment `seg` of `dest`, at every member:
    the table of members by chunks that `RingAllreduce` works on. -/
def destView (peStart stride size dst chunkSize : Nat) (m : Memory DataAddr FlagAddr α)
    (seg o : Nat) : ZMod size → ZMod size → α := fun me c =>
  m.data (peStart + stride * me.val)
    (.dest, dst + seg * (size * chunkSize) + (c.val * chunkSize + o))

/-- Every `dest` cell outside segment `seg` is as in `m`. -/
def SegFrame (segSize dst seg : Nat) (m m' : Memory DataAddr FlagAddr α) : Prop :=
  ∀ q e, e < seg * segSize ∨ seg * segSize + segSize ≤ e →
    m'.data q (.dest, dst + e) = m.data q (.dest, dst + e)

theorem SegFrame.trans {segSize dst seg : Nat} {m₁ m₂ m₃ : Memory DataAddr FlagAddr α}
    (h₁ : SegFrame segSize dst seg m₁ m₂) (h₂ : SegFrame segSize dst seg m₂ m₃) :
    SegFrame segSize dst seg m₁ m₃ := fun q e he => (h₂ q e he).trans (h₁ q e he)

section Chunks

variable {size : Nat}

/-- An offset below the chunk size determines the chunk of a cell. -/
theorem chunk_cell_inj {ch a b o o' : Nat} (ho : o < ch) (ho' : o' < ch)
    (h : a * ch + o = b * ch + o') : a = b := by
  have hdiv : ∀ r e, e < ch → (r * ch + e) / ch = r := fun r e he => by
    rw [Nat.add_comm, Nat.add_mul_div_right _ _ (by omega), Nat.div_eq_of_lt he, Nat.zero_add]
  rw [← hdiv a o ho, h, hdiv b o' ho']

/-- The cells of the chunks lie within the segment. -/
theorem chunk_cell_lt {ch r o : Nat} (hr : r < size) (ho : o < ch) : r * ch + o < size * ch :=
  calc r * ch + o < (r + 1) * ch := by rw [Nat.succ_mul]; omega
    _ ≤ size * ch := Nat.mul_le_mul_right ch hr

/-- A cell of an earlier segment lies below every later segment. -/
theorem seg_cell_lt {segSize seg k e : Nat} (hseg : seg < k) (he : e < segSize) :
    seg * segSize + e < k * segSize := by
  have hle : (seg + 1) * segSize ≤ k * segSize := Nat.mul_le_mul_right segSize hseg
  rw [Nat.succ_mul] at hle
  omega

/-- The code's chunk numbers, `(a + n P - k) mod P` in unsigned arithmetic,
    are ring arithmetic. -/
theorem mod_eq_val_sub [NeZero size] (a : Nat) {n k : Nat} (h : k ≤ n * size) :
    (a + n * size - k) % size = ((a : ZMod size) - k).val := by
  rw [← RingAllreduce.natCast_add_mul_sub h, ZMod.val_natCast]

/-- The chunk member `me` receives in round `iter`. -/
theorem recvChunk_eq_val [NeZero size] (me : ZMod size) {iter : Nat} (h : iter ≤ 2 * size) :
    (me.val + 2 * size - iter) % size = (me - iter).val := by
  rw [mod_eq_val_sub _ h, ZMod.natCast_zmod_val]

/-- The chunk member `j` sends in round `iter` is the one its successor `me`
    receives. -/
theorem sendChunk_eq_val [NeZero size] {j : Nat} {me : ZMod size} (hme : me.val = (j + 1) % size)
    {iter : Nat} (h : iter ≤ 2 * size) : (j + 1 + 2 * size - iter) % size = (me - iter).val := by
  rw [mod_eq_val_sub _ h, ← ZMod.natCast_mod, ← hme, ZMod.natCast_zmod_val]

/-- The successor of member `me - 1` is `me`. -/
theorem succ_val_pred [NeZero size] (me : ZMod size) : ((me - 1).val + 1) % size = me.val := by
  rw [← ZMod.val_natCast, Nat.cast_add, ZMod.natCast_zmod_val, Nat.cast_one, sub_add_cancel]

theorem succ_mod_inj {j j' : Nat} (hj : j < size) (hj' : j' < size)
    (h : (j + 1) % size = (j' + 1) % size) : j = j' :=
  Nat.ModEq.eq_of_lt_of_lt (Nat.ModEq.add_right_cancel' 1 h) hj hj'

/-- When every member raised flag `x` of its successor, every member's flag
    `x` is raised. -/
theorem flag_of_succ_puts [NeZero size] {peStart stride : Nat} {x : FlagAddr} {v : Int}
    {m m₀ : Memory DataAddr FlagAddr α}
    (h : ∀ q y, m.flag q y = if (∃ j < size, q = peStart + stride * ((j + 1) % size)) ∧ y = x
      then v else m₀.flag q y) {j : Nat} (hj : j < size) : m.flag (peStart + stride * j) x = v := by
  -- Member `j` is the successor of member `j - 1`.
  have hpred :
      peStart + stride * j = peStart + stride * ((((j : ZMod size) - 1).val + 1) % size) := by
    rw [succ_val_pred, ZMod.val_natCast_of_lt hj]
  rw [h, if_pos ⟨⟨_, ZMod.val_lt _, hpred⟩, rfl⟩]

/-- On a ring of two or more, nobody is their own successor. -/
theorem succ_mod_ne (hsize : 2 ≤ size) {j : Nat} (hj : j < size) : (j + 1) % size ≠ j := by
  rcases Nat.lt_or_ge (j + 1) size with h | h
  · rw [Nat.mod_eq_of_lt h]
    omega
  · rw [show j + 1 = size by omega, Nat.mod_self]
    omega

/-- On a ring of two or more, a member and its successor send different
    chunks in every round. -/
theorem sendChunk_succ_ne [NeZero size] (hsize : 2 ≤ size) (j : Nat) {iter : Nat}
    (h : iter ≤ 2 * size) :
    ((j + 1) % size + 1 + 2 * size - iter) % size ≠ (j + 1 + 2 * size - iter) % size := by
  intro hsame
  rw [mod_eq_val_sub _ h, mod_eq_val_sub _ h] at hsame
  have hcast := ZMod.val_injective size hsame
  push_cast [ZMod.natCast_mod] at hcast
  -- The two chunks differ by one, and `1 ≠ 0` on a ring of two or more.
  have hone : (1 : ZMod size) = 0 := by linear_combination hcast
  have hval := congrArg ZMod.val hone
  rw [ZMod.val_one_eq_one_mod, Nat.mod_eq_of_lt (by omega), ZMod.val_zero] at hval
  exact one_ne_zero hval

end Chunks

section Segment

variable (numPes peStart stride size poolIndex dst chunkSize : Nat)

/-- Round `iter` of the first loop of segment `seg` is a round of the
    reduce-scatter on every element of the chunks, and writes no `dest` cell
    of another segment. -/
theorem destView_reduceRounds (op : α → α → α) (hstride : 0 < stride) [NeZero size]
    (seg iter : Nat) (hiter : iter ≤ 2 * size) (m : Memory DataAddr FlagAddr α) :
    ∃ m', execLockStep (ringMembers peStart stride size)
        [teamProgram numPes peStart stride size poolIndex fun ctx team =>
          ringReducePut ctx team dst (size * chunkSize) chunkSize seg iter,
         teamProgram numPes peStart stride size poolIndex fun _ team =>
          ringReduceFold op team dst (size * chunkSize) chunkSize seg iter] m = some m' ∧
      (∀ o < chunkSize, destView peStart stride size dst chunkSize m' seg o =
        RingAllreduce.reduceRound op (destView peStart stride size dst chunkSize m seg o) iter) ∧
      SegFrame (size * chunkSize) dst seg m m' := by
  -- The puts: member `j` sends its chunk `j + 1 - iter` into the `pWrk` of
  -- member `j + 1`.
  obtain ⟨m₁, hput, hput_val, hput_other, hput_flag⟩ := execRound_puts
    (teamProgram numPes peStart stride size poolIndex fun ctx team =>
      ringReducePut ctx team dst (size * chunkSize) chunkSize seg iter)
    (fun j => peStart + stride * j) size chunkSize (fun j => peStart + stride * ((j + 1) % size))
    (fun j => (j + 1 + 2 * size - iter) % size * chunkSize)
    (fun j => dst + (j + 1 + 2 * size - iter) % size * chunkSize + seg * (size * chunkSize))
    (.pWrk poolIndex) (.barrierPSync poolIndex, iter) (seg + 100)
    (fun j hj => by rw [teamProgram_member hstride hj]; rfl) (fun _ _ => .inr nofun)
    (fun j hj j' hj' h => succ_mod_inj hj hj' ((rank_inj hstride).mp h))
    (fun _ _ _ _ _ _ _ _ => by simp) m
  -- Every member's flag was raised by its predecessor.
  have hflag : ∀ j < size, m₁.flag (peStart + stride * j) (.barrierPSync poolIndex, iter) =
      seg + 100 := fun _ => flag_of_succ_puts hput_flag
  -- The folds: member `j` folds its chunk `j - iter` of `pWrk` into `dest`.
  obtain ⟨m₂, hfold, hfold_val, hfold_other, -⟩ := execRound_folds
    (teamProgram numPes peStart stride size poolIndex fun _ team =>
      ringReduceFold op team dst (size * chunkSize) chunkSize seg iter)
    (fun j => peStart + stride * j) size chunkSize op
    (fun j => (j + 2 * size - iter) % size * chunkSize)
    (fun j => dst + seg * (size * chunkSize) + (j + 2 * size - iter) % size * chunkSize)
    (.pWrk poolIndex) (.barrierPSync poolIndex, iter) (seg + 100)
    (fun j hj => by rw [teamProgram_member hstride hj]; rfl) nofun
    (fun _ _ _ _ h => (rank_inj hstride).mp h) m₁ hflag
  -- The puts write only `pWrk`.
  have hdest : ∀ q k, m₁.data q (.dest, k) = m.data q (.dest, k) := fun q k =>
    hput_other q _ fun _ _ _ _ => by simp
  refine ⟨m₂, ?_, fun o ho => ?_, fun q e he => ?_⟩
  · rw [execLockStep, ringMembers, hput, Option.bind_some, execLockStep, hfold, Option.bind_some]
    rfl
  · funext me c
    simp only [destView, RingAllreduce.reduceRound]
    split_ifs with hc
    · -- Chunk `me - iter` gets the predecessor's chunk folded in.
      have hr := recvChunk_eq_val me hiter
      rw [← hc] at hr
      have hcell : dst + seg * (size * chunkSize) + (c.val * chunkSize + o) =
          dst + seg * (size * chunkSize) + (me.val + 2 * size - iter) % size * chunkSize + o := by
        rw [hr]
        omega
      have hsrc : peStart + stride * me.val =
          peStart + stride * (((me - 1).val + 1) % size) := by rw [succ_val_pred]
      have hsent := hput_val (me - 1).val (ZMod.val_lt _) o ho
      rw [← hsrc, sendChunk_eq_val (succ_val_pred me).symm hiter, ← hc, ← hr] at hsent
      rw [hcell, hfold_val me.val (ZMod.val_lt me) o ho, hsent, hdest, hr]
      congr 3
      omega
    · -- Every other chunk is not folded into.
      rw [hfold_other _ _ fun j hj o' ho' h => ?_, hdest]
      simp only [Prod.mk.injEq, true_and] at h
      obtain ⟨hq, hk⟩ := h
      have hj : me.val = j := (rank_inj hstride).mp hq
      subst hj
      exact hc (ZMod.val_injective size ((chunk_cell_inj ho ho' (by omega)).trans
        (recvChunk_eq_val me hiter)))
  · -- Nothing outside the segment is folded into.
    rw [hfold_other _ _ fun j hj o' ho' h => ?_, hdest]
    simp only [Prod.mk.injEq, true_and] at h
    have hlt := chunk_cell_lt (Nat.mod_lt (j + 2 * size - iter) (NeZero.pos size)) ho'
    omega

/-- Round `iter` of the second loop of segment `seg` is a round of the
    allgather on every element of the chunks, and writes no `dest` cell of
    another segment. -/
theorem destView_gatherRounds (hstride : 0 < stride) [NeZero size] (hsize : 2 ≤ size)
    (seg iter : Nat) (hiter : iter ≤ 2 * size) (m : Memory DataAddr FlagAddr α) :
    ∃ m', execLockStep (ringMembers peStart stride size)
        [teamProgram numPes peStart stride size poolIndex fun ctx team =>
          ringGatherPut ctx team dst (size * chunkSize) chunkSize seg iter,
         teamProgram numPes peStart stride size poolIndex fun _ team =>
          ringGatherWait team seg iter] m = some m' ∧
      (∀ o < chunkSize, destView peStart stride size dst chunkSize m' seg o =
        RingAllreduce.gatherRound (destView peStart stride size dst chunkSize m seg o) iter) ∧
      SegFrame (size * chunkSize) dst seg m m' := by
  -- The puts: member `j` sends its chunk `j + 1 - iter` of `dest` into the
  -- same cells of member `j + 1`, where nobody reads in this round.
  obtain ⟨m₁, hput, hput_val, hput_other, hput_flag⟩ := execRound_puts
    (teamProgram numPes peStart stride size poolIndex fun ctx team =>
      ringGatherPut ctx team dst (size * chunkSize) chunkSize seg iter)
    (fun j => peStart + stride * j) size chunkSize (fun j => peStart + stride * ((j + 1) % size))
    (fun j => dst + (j + 1 + 2 * size - iter) % size * chunkSize + seg * (size * chunkSize))
    (fun j => dst + (j + 1 + 2 * size - iter) % size * chunkSize + seg * (size * chunkSize))
    .dest (.barrierPSync poolIndex, iter) (seg + 100)
    (fun j hj => by rw [teamProgram_member hstride hj]; rfl)
    (fun j hj => .inl fun h => succ_mod_ne hsize hj ((rank_inj hstride).mp h))
    (fun j hj j' hj' h => succ_mod_inj hj hj' ((rank_inj hstride).mp h))
    (fun j _ j' _ o ho o' ho' h => by
      simp only [Prod.mk.injEq, true_and] at h
      obtain ⟨hq, hk⟩ := h
      rw [(rank_inj hstride).mp hq] at hk
      exact sendChunk_succ_ne hsize j' hiter (chunk_cell_inj ho ho' (by omega))) m
  have hflag : ∀ j < size, m₁.flag (peStart + stride * j) (.barrierPSync poolIndex, iter) =
      seg + 100 := fun _ => flag_of_succ_puts hput_flag
  have hwait := execRound_waits
    (teamProgram numPes peStart stride size poolIndex fun _ team => ringGatherWait team seg iter)
    (fun j => peStart + stride * j) size (.barrierPSync poolIndex, iter) (seg + 100)
    (fun j hj => by rw [teamProgram_member hstride hj]; rfl) m₁ hflag
  refine ⟨m₁, ?_, fun o ho => ?_, fun q e he => ?_⟩
  · rw [execLockStep, ringMembers, hput, Option.bind_some, execLockStep, hwait, Option.bind_some]
    rfl
  · funext me c
    simp only [destView, RingAllreduce.gatherRound]
    split_ifs with hc
    · -- Chunk `me - iter` came from the predecessor.
      have hsrc : peStart + stride * me.val =
          peStart + stride * (((me - 1).val + 1) % size) := by rw [succ_val_pred]
      have hr := sendChunk_eq_val (succ_val_pred me).symm hiter
      rw [← hc] at hr
      have hsent := hput_val (me - 1).val (ZMod.val_lt _) o ho
      rw [← hsrc, hr] at hsent
      rw [show dst + seg * (size * chunkSize) + (c.val * chunkSize + o) =
        dst + c.val * chunkSize + seg * (size * chunkSize) + o by omega, hsent]
    · -- Every other chunk stays.
      rw [hput_other _ _ fun j hj o' ho' h => ?_]
      simp only [Prod.mk.injEq, true_and] at h
      obtain ⟨hq, hk⟩ := h
      have hme : me.val = (j + 1) % size := (rank_inj hstride).mp hq
      have hchunk : c.val = (j + 1 + 2 * size - iter) % size :=
        chunk_cell_inj ho ho' (by omega)
      exact hc (ZMod.val_injective size (hchunk.trans (sendChunk_eq_val hme hiter)))
  · -- Nothing outside the segment is sent.
    rw [hput_other _ _ fun j hj o' ho' h => ?_]
    simp only [Prod.mk.injEq, true_and] at h
    have hlt := chunk_cell_lt (Nat.mod_lt (j + 1 + 2 * size - iter) (NeZero.pos size)) ho'
    omega

/-- The first loop of segment `seg` is the reduce-scatter on every element
    of the chunks: after it member `me` holds the whole fold of its chunk
    `me + 2` (`RingAllreduce.reduceScatter_complete`). -/
theorem destView_reduceScatter (op : α → α → α) (hstride : 0 < stride) [NeZero size]
    (seg : Nat) (m : Memory DataAddr FlagAddr α) :
    ∃ m', execLockStep (ringMembers peStart stride size)
        ((List.range (size - 1)).flatMap fun iter =>
          [teamProgram numPes peStart stride size poolIndex fun ctx team =>
            ringReducePut ctx team dst (size * chunkSize) chunkSize seg iter,
           teamProgram numPes peStart stride size poolIndex fun _ team =>
            ringReduceFold op team dst (size * chunkSize) chunkSize seg iter]) m = some m' ∧
      (∀ o < chunkSize, destView peStart stride size dst chunkSize m' seg o =
        RingAllreduce.reduceScatter op (destView peStart stride size dst chunkSize m seg o)
          (size - 1)) ∧
      SegFrame (size * chunkSize) dst seg m m' := by
  -- Round by round, each a `reduceRound`.
  obtain ⟨m', hreduce, hview, hframe⟩ := execLockStep_induction (ringMembers peStart stride size)
    (fun iter =>
      [teamProgram numPes peStart stride size poolIndex fun ctx team =>
        ringReducePut ctx team dst (size * chunkSize) chunkSize seg iter,
       teamProgram numPes peStart stride size poolIndex fun _ team =>
        ringReduceFold op team dst (size * chunkSize) chunkSize seg iter]) 0 (size - 1) m
    (fun k m' => (∀ o < chunkSize, destView peStart stride size dst chunkSize m' seg o =
        RingAllreduce.reduceScatter op (destView peStart stride size dst chunkSize m seg o) k) ∧
      SegFrame (size * chunkSize) dst seg m m')
    ⟨fun _ _ => rfl, fun _ _ _ => rfl⟩
    (fun k hk m' ⟨hview, hframe⟩ => by
      obtain ⟨m'', hround, hview', hframe'⟩ := destView_reduceRounds numPes peStart stride size
        poolIndex dst chunkSize op hstride seg (0 + k) (by omega) m'
      refine ⟨m'', hround, fun o ho => ?_, hframe.trans hframe'⟩
      rw [hview' o ho, hview o ho, RingAllreduce.reduceScatter_succ, Nat.zero_add])
  exact ⟨m', by rw [List.range_eq_range']; exact hreduce, hview, hframe⟩

/-- The second loop of segment `seg` is the allgather on every element of
    the chunks. -/
theorem destView_allgather (hstride : 0 < stride) [NeZero size] (hsize : 2 ≤ size) (seg : Nat)
    (m : Memory DataAddr FlagAddr α) :
    ∃ m', execLockStep (ringMembers peStart stride size)
        ((List.range' (size - 1) (size - 1)).flatMap fun iter =>
          [teamProgram numPes peStart stride size poolIndex fun ctx team =>
            ringGatherPut ctx team dst (size * chunkSize) chunkSize seg iter,
           teamProgram numPes peStart stride size poolIndex fun _ team =>
            ringGatherWait team seg iter]) m = some m' ∧
      (∀ o < chunkSize, destView peStart stride size dst chunkSize m' seg o =
        RingAllreduce.gatherRounds (destView peStart stride size dst chunkSize m seg o) (size - 1)
          (size - 1)) ∧
      SegFrame (size * chunkSize) dst seg m m' := by
  -- Round by round, each a `gatherRound`.
  obtain ⟨m', hgather, hview, hframe⟩ := execLockStep_induction (ringMembers peStart stride size)
    (fun iter =>
      [teamProgram numPes peStart stride size poolIndex fun ctx team =>
        ringGatherPut ctx team dst (size * chunkSize) chunkSize seg iter,
       teamProgram numPes peStart stride size poolIndex fun _ team =>
        ringGatherWait team seg iter]) (size - 1) (size - 1) m
    (fun k m' => (∀ o < chunkSize, destView peStart stride size dst chunkSize m' seg o =
        RingAllreduce.gatherRounds (destView peStart stride size dst chunkSize m seg o) (size - 1)
          k) ∧
      SegFrame (size * chunkSize) dst seg m m')
    ⟨fun _ _ => rfl, fun _ _ _ => rfl⟩
    (fun k hk m' ⟨hview, hframe⟩ => by
      obtain ⟨m'', hround, hview', hframe'⟩ := destView_gatherRounds numPes peStart stride size
        poolIndex dst chunkSize hstride hsize seg (size - 1 + k) (by omega) m'
      refine ⟨m'', hround, fun o ho => ?_, hframe.trans hframe'⟩
      rw [hview' o ho, hview o ho, RingAllreduce.gatherRounds_succ])
  exact ⟨m', hgather, hview, hframe⟩

/-- Segment `seg` in lock step is the ring allreduce on every element of its
    chunks, and writes no `dest` cell of another segment. -/
theorem destView_segment (op : α → α → α) (hstride : 0 < stride) [NeZero size]
    (hsize : 2 ≤ size) (seg : Nat) (m : Memory DataAddr FlagAddr α) :
    ∃ m', execLockStep (ringMembers peStart stride size)
        ((List.range (size - 1)).flatMap (fun iter =>
          [teamProgram numPes peStart stride size poolIndex fun ctx team =>
            ringReducePut ctx team dst (size * chunkSize) chunkSize seg iter,
           teamProgram numPes peStart stride size poolIndex fun _ team =>
            ringReduceFold op team dst (size * chunkSize) chunkSize seg iter]) ++
        (List.range' (size - 1) (size - 1)).flatMap fun iter =>
          [teamProgram numPes peStart stride size poolIndex fun ctx team =>
            ringGatherPut ctx team dst (size * chunkSize) chunkSize seg iter,
           teamProgram numPes peStart stride size poolIndex fun _ team =>
            ringGatherWait team seg iter]) m = some m' ∧
      (∀ o < chunkSize, destView peStart stride size dst chunkSize m' seg o =
        RingAllreduce.gatherRounds (RingAllreduce.reduceScatter op
          (destView peStart stride size dst chunkSize m seg o) (size - 1)) (size - 1) (size - 1)) ∧
      SegFrame (size * chunkSize) dst seg m m' := by
  -- The first loop, then the second from where it left off.
  obtain ⟨m₁, hreduce, hview₁, hframe₁⟩ := destView_reduceScatter numPes peStart stride size
    poolIndex dst chunkSize op hstride seg m
  obtain ⟨m₂, hgather, hview₂, hframe₂⟩ := destView_allgather numPes peStart stride size
    poolIndex dst chunkSize hstride hsize seg m₁
  refine ⟨m₂, ?_, fun o ho => by rw [hview₂ o ho, hview₁ o ho], hframe₁.trans hframe₂⟩
  rw [execLockStep_append, hreduce, Option.bind_some, hgather]

/-- The resets never block and change no data. -/
theorem execRound_resets (hstride : 0 < stride) (m : Memory DataAddr FlagAddr α) :
    ∃ m', execRound (teamProgram numPes peStart stride size poolIndex fun ctx team =>
        ringResets ctx team) (ringMembers peStart stride size) m = some m' ∧ m'.data = m.data := by
  obtain ⟨m', hround, hdata⟩ := execRound_induction
    (teamProgram numPes peStart stride size poolIndex fun ctx team => ringResets ctx team)
    (fun j => peStart + stride * j) size m (fun _ m' => m'.data = m.data) rfl
    (fun k hk m' hm' => by
      rw [teamProgram_member hstride hk]
      refine (execList_exists (fun i hi m => ?_) m').imp fun m'' hexec => ⟨hexec, ?_⟩
      · obtain ⟨_, _, rfl⟩ := List.mem_map.mp hi
        exact ⟨_, rfl⟩
      · funext q a
        rw [execList_data_of_ne hexec fun i hi => ?_, hm']
        obtain ⟨_, _, rfl⟩ := List.mem_map.mp hi
        nofun)
  exact ⟨m', hround, hdata⟩

/-- The segments one after another: each ends with the ring allreduce of
    what it held at the start, since no segment writes another's cells. -/
theorem destView_segments (op : α → α → α) (hstride : 0 < stride) [NeZero size]
    (hsize : 2 ≤ size) (nSeg : Nat) (m : Memory DataAddr FlagAddr α) :
    ∃ m', execLockStep (ringMembers peStart stride size)
        ((List.range nSeg).flatMap fun seg =>
          (List.range (size - 1)).flatMap (fun iter =>
            [teamProgram numPes peStart stride size poolIndex fun ctx team =>
              ringReducePut ctx team dst (size * chunkSize) chunkSize seg iter,
             teamProgram numPes peStart stride size poolIndex fun _ team =>
              ringReduceFold op team dst (size * chunkSize) chunkSize seg iter]) ++
          (List.range' (size - 1) (size - 1)).flatMap fun iter =>
            [teamProgram numPes peStart stride size poolIndex fun ctx team =>
              ringGatherPut ctx team dst (size * chunkSize) chunkSize seg iter,
             teamProgram numPes peStart stride size poolIndex fun _ team =>
              ringGatherWait team seg iter]) m = some m' ∧
      ∀ seg < nSeg, ∀ o < chunkSize, destView peStart stride size dst chunkSize m' seg o =
        RingAllreduce.gatherRounds (RingAllreduce.reduceScatter op
          (destView peStart stride size dst chunkSize m seg o) (size - 1)) (size - 1)
          (size - 1) := by
  -- Invariant: the segments done hold the result, the cells from the next
  -- segment on are as at the start.
  obtain ⟨m', hsegs, hdone, -⟩ := execLockStep_induction (ringMembers peStart stride size)
    (fun seg =>
      (List.range (size - 1)).flatMap (fun iter =>
        [teamProgram numPes peStart stride size poolIndex fun ctx team =>
          ringReducePut ctx team dst (size * chunkSize) chunkSize seg iter,
         teamProgram numPes peStart stride size poolIndex fun _ team =>
          ringReduceFold op team dst (size * chunkSize) chunkSize seg iter]) ++
      (List.range' (size - 1) (size - 1)).flatMap fun iter =>
        [teamProgram numPes peStart stride size poolIndex fun ctx team =>
          ringGatherPut ctx team dst (size * chunkSize) chunkSize seg iter,
         teamProgram numPes peStart stride size poolIndex fun _ team =>
          ringGatherWait team seg iter]) 0 nSeg m
    (fun k m' => (∀ seg < k, ∀ o < chunkSize, destView peStart stride size dst chunkSize m' seg o =
        RingAllreduce.gatherRounds (RingAllreduce.reduceScatter op
          (destView peStart stride size dst chunkSize m seg o) (size - 1)) (size - 1) (size - 1)) ∧
      ∀ q e, k * (size * chunkSize) ≤ e → m'.data q (.dest, dst + e) = m.data q (.dest, dst + e))
    ⟨fun seg hseg => absurd hseg (Nat.not_lt_zero seg), fun _ _ _ => rfl⟩
    (fun k _ m' ⟨hdone, hrest⟩ => by
      obtain ⟨m'', hseg, hview, hframe⟩ := destView_segment numPes peStart stride size poolIndex
        dst chunkSize op hstride hsize k m'
      -- Segment `k` starts from its cells at the start.
      have hstart : ∀ o, destView peStart stride size dst chunkSize m' k o =
          destView peStart stride size dst chunkSize m k o := fun o => by
        funext me c
        simp only [destView]
        rw [Nat.add_assoc, hrest _ _ (Nat.le_add_right _ _)]
      have hnext : (k + 1) * (size * chunkSize) = k * (size * chunkSize) + size * chunkSize :=
        Nat.succ_mul k _
      refine ⟨m'', by rw [Nat.zero_add]; exact hseg, fun seg hseg o ho => ?_, fun q e he => ?_⟩
      · rcases Nat.lt_succ_iff_lt_or_eq.mp hseg with hseg | rfl
        · -- An earlier segment lies below this one.
          rw [← hdone seg hseg o ho]
          funext me c
          simp only [destView]
          rw [Nat.add_assoc,
            hframe _ _ (.inl (seg_cell_lt hseg (chunk_cell_lt (ZMod.val_lt c) ho)))]
        · rw [hview o ho, hstart o]
      · rw [hframe _ _ (.inr (by omega)), hrest _ _ (by omega)])
  exact ⟨m', by rw [@List.range_eq_range' nSeg]; exact hsegs, hdone⟩

/-- Where segment `seg` holds the ring allreduce of what `m₁` held there,
    every index of it, at every member, holds the fold of that index over
    the members. -/
theorem data_eq_fold1 (op : α → α → α) (hcomm : ∀ a b, op a b = op b a)
    (hassoc : ∀ a b c, op (op a b) c = op a (op b c)) [NeZero size]
    {m m₁ : Memory DataAddr FlagAddr α} {seg : Nat}
    (h : ∀ o < chunkSize, destView peStart stride size dst chunkSize m seg o =
      RingAllreduce.gatherRounds (RingAllreduce.reduceScatter op
        (destView peStart stride size dst chunkSize m₁ seg o) (size - 1)) (size - 1) (size - 1))
    {j k : Nat} (hj : j < size) (hk : k < size * chunkSize) :
    m.data (peStart + stride * j) (.dest, dst + seg * (size * chunkSize) + k) =
      RingAllreduce.fold1 op
        (fun i => m₁.data (peStart + stride * i) (.dest, dst + seg * (size * chunkSize) + k))
        (size - 1) := by
  -- Index `k` is element `k mod chunk_size` of chunk `k / chunk_size`.
  have hch : 0 < chunkSize := Nat.pos_of_ne_zero fun h => by simp [h] at hk
  have hr : k / chunkSize < size := (Nat.div_lt_iff_lt_mul hch).mpr hk
  have hview := congrFun (congrFun (h (k % chunkSize) (Nat.mod_lt k hch)) (j : ZMod size))
    ((k / chunkSize : Nat) : ZMod size)
  simp only [destView, ZMod.val_natCast_of_lt hj, ZMod.val_natCast_of_lt hr,
    Nat.div_add_mod'] at hview
  rw [hview, RingAllreduce.ringAllreduce_eq, RingAllreduce.chain_eq_fold1 hcomm hassoc]
  refine RingAllreduce.fold1_congr fun i hi => ?_
  simp only [destView, ZMod.val_natCast_of_lt (show i < size by omega),
    ZMod.val_natCast_of_lt hr, Nat.div_add_mod']

/-- In lock step, the rounds leave every member's `dest`, in every segment
    and at every index, with the fold of that index of all members'
    `source`. -/
theorem execLockStep_ringAllreduceRounds (op : α → α → α) (hcomm : ∀ a b, op a b = op b a)
    (hassoc : ∀ a b c, op (op a b) c = op a (op b c)) (src nSeg : Nat) (hstride : 0 < stride)
    (hsize : 2 ≤ size) (m₀ : Memory DataAddr FlagAddr α) :
    ∃ m, execLockStep (ringMembers peStart stride size)
        (ringAllreduceRounds op numPes peStart stride size poolIndex dst src
          (nSeg * (size * chunkSize)) nSeg (size * chunkSize) chunkSize) m₀ = some m ∧
      ∀ j < size, ∀ seg < nSeg, ∀ k < size * chunkSize,
        m.data (peStart + stride * j) (.dest, dst + seg * (size * chunkSize) + k) =
          RingAllreduce.fold1 op
            (fun i => m₀.data (peStart + stride * i) (.source, src + seg * (size * chunkSize) + k))
            (size - 1) := by
  have : NeZero size := ⟨by omega⟩
  -- The copy of `source` into `dest`, the segments, the resets.
  obtain ⟨m₁, hcopy, hcopied⟩ := execRound_copies
    (teamProgram numPes peStart stride size poolIndex fun ctx _ =>
      copyToDest ctx.myPe dst src (nSeg * (size * chunkSize)))
    (fun j => peStart + stride * j) size (nSeg * (size * chunkSize)) dst src
    (fun j hj => by rw [teamProgram_member hstride hj]) m₀
  obtain ⟨m₂, hsegs, hdone⟩ := destView_segments numPes peStart stride size poolIndex dst
    chunkSize op hstride hsize nSeg m₁
  obtain ⟨m₃, hresets, hdata⟩ := execRound_resets numPes peStart stride size poolIndex hstride m₂
  refine ⟨m₃, ?_, fun j hj seg hseg k hk => ?_⟩
  · simp only [ringAllreduceRounds]
    rw [execLockStep_append, execLockStep, ringMembers, hcopy, Option.bind_some, ← ringMembers,
      hsegs, Option.bind_some, execLockStep, hresets, Option.bind_some]
    rfl
  · rw [hdata,
      data_eq_fold1 peStart stride size dst chunkSize op hcomm hassoc (hdone seg hseg) hj hk]
    refine RingAllreduce.fold1_congr fun i hi => ?_
    -- Every member's value is its `source` as copied.
    have hcell := hcopied i (by omega) _ (seg_cell_lt hseg hk)
    rw [← Nat.add_assoc, ← Nat.add_assoc] at hcell
    exact hcell

end Segment

/-- Every member of a team of two or more calls `internal_ring_allreduce`,
    and the PEs run in the lock-step schedule of its rounds, from any memory:
    every member runs its whole call, and its `dest` holds, in every segment
    and at every index, the fold of that index of all members' `source`. -/
theorem ring_allreduce_lock_step (op : α → α → α) (hcomm : ∀ a b, op a b = op b a)
    (hassoc : ∀ a b c, op (op a b) c = op a (op b c))
    (numPes peStart stride size poolIndex dst src nSeg chunkSize : Nat) (hstride : 0 < stride)
    (hsize : 2 ≤ size) (m₀ : Memory DataAddr FlagAddr α) :
    ∃ c, run (ringAllreduceProgram op numPes peStart stride size poolIndex dst src nSeg chunkSize)
        ⟨fun _ => 0, m₀⟩
        (ringAllreduceSchedule op numPes peStart stride size poolIndex dst src nSeg chunkSize) =
          some c ∧
      (∀ j < size, Done (ringAllreduceProgram op numPes peStart stride size poolIndex dst src nSeg
        chunkSize) c (peStart + stride * j)) ∧
      ∀ j < size, ∀ seg < nSeg, ∀ k < size * chunkSize,
        c.mem.data (peStart + stride * j) (.dest, dst + seg * (size * chunkSize) + k) =
          RingAllreduce.fold1 op
            (fun i => m₀.data (peStart + stride * i) (.source, src + seg * (size * chunkSize) + k))
            (size - 1) := by
  obtain ⟨m, hexec, hdest⟩ := execLockStep_ringAllreduceRounds numPes peStart stride size poolIndex
    dst chunkSize op hcomm hassoc src nSeg hstride hsize m₀
  -- Every member's code is its blocks of the rounds.
  have hprog : ∀ p ∈ ringMembers peStart stride size, ∃ post,
      (ringAllreduceProgram op numPes peStart stride size poolIndex dst src nSeg chunkSize p).drop
        0 = (ringAllreduceRounds op numPes peStart stride size poolIndex dst src
          (nSeg * (size * chunkSize)) nSeg (size * chunkSize) chunkSize).flatMap (· p) ++ post := by
    intro p hp
    obtain ⟨j, hj, rfl⟩ := mem_ringMembers.mp hp
    refine ⟨[], ?_⟩
    rw [flatMap_ringAllreduceRounds op hstride _ _ _ _ _ _ hj, List.append_nil, List.drop_zero]
    rfl
  rw [ringAllreduceSchedule, run_lockStep (c := ⟨fun _ => 0, m₀⟩) (nodup_ringMembers hstride) hprog,
    hexec, Option.map_some]
  refine ⟨_, rfl, fun j hj => ?_, hdest⟩
  -- Every member's counter moved past its whole call.
  have hmem : peStart + stride * j ∈ ringMembers peStart stride size :=
    mem_ringMembers.mpr ⟨j, hj, rfl⟩
  simp only [Done, hmem, if_true, flatMap_ringAllreduceRounds op hstride _ _ _ _ _ _ hj,
    ringAllreduceProgram, Nat.zero_add, le_refl]

/-- Two PEs with `source` values `1` and `2`, added: both end with `3`. -/
theorem ring_allreduce_lock_step_two_pes :
    ∃ c, run (ringAllreduceProgram (fun a b : Nat => a + b) 2 0 1 2 0 0 0 1 1)
        ⟨fun _ => 0, ⟨fun p a => if a = (.source, 0) then p + 1 else 0, fun _ _ => 0⟩⟩
        (ringAllreduceSchedule (fun a b : Nat => a + b) 2 0 1 2 0 0 0 1 1) = some c ∧
      c.mem.data 0 (.dest, 0) = 3 ∧ c.mem.data 1 (.dest, 0) = 3 := by
  obtain ⟨c, hrun, -, hdest⟩ := ring_allreduce_lock_step (fun a b : Nat => a + b) Nat.add_comm
    Nat.add_assoc 2 0 1 2 0 0 0 1 1 (by decide) (by decide)
    ⟨fun p a => if a = (.source, 0) then p + 1 else 0, fun _ _ => 0⟩
  exact ⟨c, hrun, hdest 0 (by decide) 0 (by decide) 0 (by decide),
    hdest 1 (by decide) 0 (by decide) 0 (by decide)⟩

end RocShmem
