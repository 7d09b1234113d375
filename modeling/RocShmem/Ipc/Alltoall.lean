import RocShmem.Ipc.Barrier
import RocShmem.Ipc.PutSignal

/-!
# The IPC All-to-All and Fcollect

`IPCContext::alltoall` and `IPCContext::fcollect`
(`ipc/context_ipc_tmpl_device.hpp`) run `alltoall_linear` and
`fcollect_linear`: every member puts one block of `nelems` elements into
block `my_pe` of every member's `dest`, with `my_pe` its team rank, then
calls `quiet` and synchronises the team on its `alltoall_pSync` slice. The
all-to-all sends block `j` of its source to team rank `j`, the fcollect
its whole source to everyone. `quiet` only stores to `fence_pool`; with
sequentially consistent memory it orders nothing more and is left out.

Both are one loop with a different source block, `linearExchange`. For one
call of every member from the start, the exchange delivers
(`exchangeProgram_delivers`): each `dest` cell has exactly one writer, a put
from a `source` cell nobody writes, so by `Pgas.Reachable.data_of_unique_writer`
it holds that source element as soon as the put has run; and a member that
has returned has passed the barrier, so by `SyncsAfter.members_entered`
every member has run all its puts.

That is the exchange of whole elements. In the code each put is
`put_nbi_wg`, which is `putmem_nbi_wg` of `nelems * sizeof(T)` bytes and so
`memcpy_wg` by the whole block (`linearPutWg`). For an odd byte count of at
least 3, as for `char` blocks of 3 elements, no thread of the block writes
the block's last byte (`memcpyCoop_not_writes_last`), so a member never
receives it (`alltoall_fcollect_put_wg_skips_last_byte`).

## Main definitions

* `linearPuts`, `linearExchange`: The loop of puts, and the puts with the
  barrier.
* `alltoallLinear`, `fcollectLinear`, `IPCContext.alltoall`,
  `IPCContext.fcollect`: The two calls.
* `exchangeProgram`: Every member of a team making one exchange.
* `Delivers`: What an exchange guarantees once a member has returned.
* `linearPutWg`, `linearPutsWg`: The puts of the loop on bytes, as a
  block's `memcpy_wg`.

## Theorems

* `getElem?_linearPuts`: Which put comes where.
* `exchangeProgram_dataWrite`: Every data cell an exchange writes.
* `exchangeProgram_puts_done`: A member returns only after every put.
* `exchangeProgram_delivers`, `alltoall_fcollect_deliver`: The blocks
  arrive, and nothing else is written.
* `alltoall_fcollect_put_wg_skips_last_byte`: On bytes, a put of an odd
  count of at least 3 bytes leaves out the last one.
-/

namespace RocShmem

variable {α : Type}

/-- The loop of `alltoall_linear` and `fcollect_linear`: for every team rank
    `j`, put `nelems` elements from `source + srcOff j` into
    `dest + dst + my_pe * nelems` on the world rank of `j`, with `my_pe` the
    team rank. -/
def linearPuts (ctx : IPCContext) (team : IPCTeam) (dst : Nat) (srcOff : Nat → Nat)
    (nelems : Nat) : List (IpcInstr α) :=
  (List.range team.size).flatMap fun j =>
    putmemElems ctx.myPe .dest (dst + team.myPe * nelems) .source (srcOff j) nelems
      (team.getPeInWorld j)

/-- The puts, then `quiet`, which orders nothing more in this memory model,
    then `internal_sync` on the team's `alltoall_pSync`. -/
def linearExchange (ctx : IPCContext) (team : IPCTeam) (dst : Nat) (srcOff : Nat → Nat)
    (nelems : Nat) : List (IpcInstr α) :=
  linearPuts ctx team dst srcOff nelems ++
    internalSync ctx.myPe team.peStart team.stride team.size (.alltoallPSync team.poolIndex)

/-- `alltoall_linear(team, dest + dst, source + src, nelems)`: block `j` of
    the source goes to team rank `j`. -/
def alltoallLinear (ctx : IPCContext) (team : IPCTeam) (dst src nelems : Nat) : List (IpcInstr α) :=
  linearExchange ctx team dst (fun j => src + j * nelems) nelems

/-- `fcollect_linear(team, dest + dst, source + src, nelems)`: the whole
    source goes to every team rank. -/
def fcollectLinear (ctx : IPCContext) (team : IPCTeam) (dst src nelems : Nat) : List (IpcInstr α) :=
  linearExchange ctx team dst (fun _ => src) nelems

/-- `IPCContext::alltoall`. -/
def IPCContext.alltoall (ctx : IPCContext) (team : IPCTeam) (dst src nelems : Nat) :
    List (IpcInstr α) :=
  alltoallLinear ctx team dst src nelems

/-- `IPCContext::fcollect`. -/
def IPCContext.fcollect (ctx : IPCContext) (team : IPCTeam) (dst src nelems : Nat) :
    List (IpcInstr α) :=
  fcollectLinear ctx team dst src nelems

theorem length_linearPuts (ctx : IPCContext) (team : IPCTeam) (dst : Nat) (srcOff : Nat → Nat)
    (nelems : Nat) :
    (linearPuts (α := α) ctx team dst srcOff nelems).length = team.size * nelems := by
  rw [linearPuts, Pgas.length_flatMap_of_length (n := nelems) fun _ _ => by
    rw [putmemElems, List.length_map, List.length_range], List.length_range, Nat.mul_comm]

/-- Put `t` is element `t % nelems` of the block for team rank
    `t / nelems`. -/
theorem getElem?_linearPuts (ctx : IPCContext) (team : IPCTeam) (dst : Nat) (srcOff : Nat → Nat)
    {nelems t : Nat} (ht : t < team.size * nelems) :
    (linearPuts (α := α) ctx team dst srcOff nelems)[t]? =
      some (.copy (team.getPeInWorld (t / nelems)) (.dest, dst + team.myPe * nelems + t % nelems)
        ctx.myPe (.source, srcOff (t / nelems) + t % nelems)) := by
  have hn : 0 < nelems := Nat.pos_of_ne_zero fun h => by rw [h, Nat.mul_zero] at ht; omega
  have hj : t / nelems < team.size := Nat.div_lt_of_lt_mul (by rw [Nat.mul_comm]; exact ht)
  rw [linearPuts, Pgas.getElem?_flatMap_of_length (n := nelems) hn fun _ _ => by
    rw [putmemElems, List.length_map, List.length_range], List.getElem?_range hj, Option.bind_some,
    putmemElems, List.getElem?_map, List.getElem?_range (Nat.mod_lt _ hn), Option.map_some]

/-- The barrier moves no data. -/
theorem dataTarget_of_mem_internalSync {pe peStart stride size : Nat} {pSync : SyncArray}
    {i : IpcInstr α} (hi : i ∈ internalSync pe peStart stride size pSync) (self : Nat) :
    i.dataTarget self = none := by
  rw [internalSync] at hi
  split at hi
  · rw [internalDirectBarrier] at hi
    split at hi
    · simp only [List.mem_append, List.mem_flatMap, List.mem_map, List.mem_cons,
        List.not_mem_nil, or_false] at hi
      rcases hi with ⟨k, -, rfl | rfl⟩ | ⟨k, -, rfl⟩ <;> rfl
    · simp only [List.mem_cons, List.not_mem_nil, or_false] at hi
      rcases hi with rfl | rfl | rfl <;> rfl
  · rw [internalAtomicBarrier] at hi
    split at hi
    · simp only [List.mem_append, List.mem_map, List.mem_cons, List.not_mem_nil, or_false] at hi
      rcases hi with (rfl | rfl) | ⟨k, -, rfl⟩ <;> rfl
    · simp only [List.mem_cons, List.not_mem_nil, or_false] at hi
      rcases hi with rfl | rfl | rfl <;> rfl

theorem div_block {n i o : Nat} (ho : o < n) : (i * n + o) / n = i := by
  rw [Nat.mul_comm, Nat.mul_add_div (by omega), Nat.div_eq_of_lt ho, Nat.add_zero]

theorem mod_block {n i o : Nat} (ho : o < n) : (i * n + o) % n = o := by
  rw [Nat.mul_comm, Nat.mul_add_mod, Nat.mod_eq_of_lt ho]

/-- Element `o` of block `i` is a cell of no other block. -/
theorem block_inj {n i i' o o' : Nat} (ho : o < n) (ho' : o' < n)
    (h : i * n + o = i' * n + o') : i = i' ∧ o = o' := by
  have hi : i = i' := by rw [← div_block (i := i) ho, h, div_block ho']
  subst hi
  exact ⟨rfl, by omega⟩

/-- What one linear exchange of a team, from the start, delivers: once
    member `j` has returned, every member is past its puts and
    `dest[i * nelems + o]` of `j` holds element `srcOff j + o` of member
    `i`'s source; and no data cell other than the first `size * nelems` of a
    member's `dest` ever changes. -/
structure Delivers (prog : Pgas.Prog DataAddr FlagAddr α) (peStart stride size nelems : Nat)
    (srcOff : Nat → Nat) (data : Nat → DataAddr → α) : Prop where
  puts_done : ∀ c, Pgas.Reachable prog (initConfig data) c → ∀ j < size,
    Pgas.Done prog c (peStart + stride * j) →
      ∀ i < size, size * nelems ≤ c.pc (peStart + stride * i)
  dest_eq : ∀ c, Pgas.Reachable prog (initConfig data) c → ∀ j < size,
    Pgas.Done prog c (peStart + stride * j) → ∀ i < size, ∀ o < nelems,
      c.mem.data (peStart + stride * j) (.dest, i * nelems + o) =
        data (peStart + stride * i) (.source, srcOff j + o)
  frame : ∀ c, Pgas.Reachable prog (initConfig data) c → ∀ p a,
    (¬ ∃ j < size, p = peStart + stride * j ∧ a.1 = .dest ∧ a.2 < size * nelems) →
      c.mem.data p a = data p a

theorem Delivers.congr_src {prog : Pgas.Prog DataAddr FlagAddr α} {peStart stride size nelems : Nat}
    {srcOff srcOff' : Nat → Nat} {data : Nat → DataAddr → α}
    (hd : Delivers prog peStart stride size nelems srcOff data) (h : ∀ j, srcOff j = srcOff' j) :
    Delivers prog peStart stride size nelems srcOff' data :=
  ⟨hd.puts_done, fun c hc j hj hdone i hi o ho => by
    rw [← h j]
    exact hd.dest_eq c hc j hj hdone i hi o ho, hd.frame⟩

/-- Every member of a team makes one linear exchange into `dest`, from
    `source + srcOff j` for team rank `j`. -/
def exchangeProgram (α : Type) (numPes peStart stride size poolIndex nelems : Nat)
    (srcOff : Nat → Nat) : Pgas.Prog DataAddr FlagAddr α :=
  teamProgram numPes peStart stride size poolIndex fun ctx team =>
    linearExchange ctx team 0 srcOff nelems

section Exchange

variable {numPes peStart stride size poolIndex nelems : Nat} {srcOff : Nat → Nat}

/-- The puts of the member of team rank `i`. -/
def memberPuts (numPes peStart stride size poolIndex nelems : Nat) (srcOff : Nat → Nat) (i : Nat) :
    List (IpcInstr α) :=
  linearPuts ⟨peStart + stride * i, numPes⟩
    ⟨peStart, stride, size, i, peStart + stride * i, poolIndex⟩ 0 srcOff nelems

theorem exchangeProgram_member (hstride : 0 < stride) {i : Nat} (hi : i < size) :
    exchangeProgram α numPes peStart stride size poolIndex nelems srcOff (peStart + stride * i) =
      memberPuts numPes peStart stride size poolIndex nelems srcOff i ++
        internalSync (peStart + stride * i) peStart stride size (.alltoallPSync poolIndex) := by
  rw [exchangeProgram, teamProgram_member hstride hi]
  rfl

/-- The member of team rank `i` runs its puts and then the barrier. -/
theorem exchangeProgram_syncsAfter (hstride : 0 < stride) :
    SyncsAfter (exchangeProgram α numPes peStart stride size poolIndex nelems srcOff) peStart stride
      size (.alltoallPSync poolIndex)
      (memberPuts numPes peStart stride size poolIndex nelems srcOff) where
  member := fun _ hj => exchangeProgram_member hstride hj
  pre_free := fun j _ i hi q x => by
    obtain ⟨k, -, hk⟩ := List.mem_flatMap.mp hi
    obtain ⟨o, -, rfl⟩ := List.mem_map.mp hk
    simp [Pgas.Instr.flagTarget]
  outsider := fun p hp i hi => by
    rw [exchangeProgram, teamProgram_outsider hp] at hi
    exact absurd hi List.not_mem_nil

/-- Every data cell the exchange writes: put `t` of member `i`, into
    element `t % nelems` of block `i` of the `dest` of team rank
    `t / nelems`. -/
theorem exchangeProgram_dataWrite (hstride : 0 < stride) {p t q : Nat} {a : DataAddr}
    {instr : IpcInstr α}
    (hp : (exchangeProgram α numPes peStart stride size poolIndex nelems srcOff p)[t]? = some instr)
    (hx : instr.dataTarget p = some (q, a)) :
    ∃ i < size, p = peStart + stride * i ∧ t < size * nelems ∧
      q = peStart + stride * (t / nelems) ∧ a = (.dest, i * nelems + t % nelems) := by
  by_cases hmem : ∃ i < size, p = peStart + stride * i
  · obtain ⟨i, hi, rfl⟩ := hmem
    rw [exchangeProgram_member hstride hi] at hp
    by_cases ht : t < size * nelems
    · -- One of the puts.
      rw [List.getElem?_append_left (by rw [memberPuts, length_linearPuts]; exact ht), memberPuts,
        getElem?_linearPuts _ _ _ _ ht, Option.some.injEq] at hp
      subst hp
      simp only [Pgas.Instr.dataTarget, Option.some.injEq, Prod.mk.injEq] at hx
      obtain ⟨rfl, rfl⟩ := hx
      exact ⟨i, hi, rfl, ht, rfl, by rw [Nat.zero_add]⟩
    · -- The barrier moves no data.
      rw [List.getElem?_append_right
        (by rw [memberPuts, length_linearPuts]; exact Nat.le_of_not_lt ht)]
        at hp
      rw [dataTarget_of_mem_internalSync (List.mem_of_getElem? hp)] at hx
      exact absurd hx (Option.some_ne_none _).symm
  · have hout : ∀ i < size, p ≠ peStart + stride * i := fun i hi h => hmem ⟨i, hi, h⟩
    rw [exchangeProgram, teamProgram_outsider hout] at hp
    exact absurd hp (by simp)

/-- Once a member has returned, every member is past its puts. -/
theorem exchangeProgram_puts_done (hstride : 0 < stride) {data : Nat → DataAddr → α}
    {c : Pgas.Config DataAddr FlagAddr α}
    (hc : Pgas.Reachable (exchangeProgram α numPes peStart stride size poolIndex nelems srcOff)
      (initConfig data) c) {j : Nat} (hj : j < size)
    (hdone : Pgas.Done (exchangeProgram α numPes peStart stride size poolIndex nelems srcOff) c
      (peStart + stride * j)) {i : Nat} (hi : i < size) :
    size * nelems ≤ c.pc (peStart + stride * i) := by
  have hentered := (exchangeProgram_syncsAfter hstride).members_entered hstride hc hj hdone i hi
  rwa [memberPuts, length_linearPuts] at hentered

/-- A linear exchange from the start delivers every block and writes
    nothing else. -/
theorem exchangeProgram_delivers (hstride : 0 < stride) (data : Nat → DataAddr → α) :
    Delivers (exchangeProgram α numPes peStart stride size poolIndex nelems srcOff) peStart stride
      size nelems srcOff data := by
  refine ⟨fun c hc j hj hdone i hi => exchangeProgram_puts_done hstride hc hj hdone hi, ?_, ?_⟩
  · intro c hc j hj hdone i hi o ho
    -- The cell has one writer, put `j * nelems + o` of member `i`, which has run.
    have hidx : j * nelems + o < size * nelems := by
      have : j * nelems + nelems ≤ size * nelems := by
        rw [← Nat.succ_mul]
        exact Nat.mul_le_mul_right _ hj
      omega
    have hw : (exchangeProgram α numPes peStart stride size poolIndex nelems srcOff
        (peStart + stride * i))[j * nelems + o]? =
        some (.copy (peStart + stride * j) (.dest, i * nelems + o) (peStart + stride * i)
          (.source, srcOff j + o)) := by
      rw [exchangeProgram_member hstride hi, List.getElem?_append_left
        (by rw [memberPuts, length_linearPuts]; exact hidx), memberPuts,
        getElem?_linearPuts _ _ _ _ hidx, div_block ho, mod_block ho, Nat.zero_add]
      rfl
    have huniq : ∀ (p t : Nat) (instr : IpcInstr α),
        (exchangeProgram α numPes peStart stride size poolIndex nelems srcOff p)[t]? = some instr →
        instr.dataTarget p = some (peStart + stride * j, (.dest, i * nelems + o)) →
        p = peStart + stride * i ∧ t = j * nelems + o := by
      intro p t instr hp hx
      obtain ⟨i', hi', rfl, ht, hq, ha⟩ := exchangeProgram_dataWrite hstride hp hx
      have hn : 0 < nelems := by omega
      have hjt : j = t / nelems := (rank_inj hstride).mp hq
      obtain ⟨rfl, hot⟩ := block_inj ho (Nat.mod_lt _ hn) (Prod.mk.inj ha).2
      refine ⟨rfl, ?_⟩
      rw [hjt, hot, Nat.mul_comm, Nat.div_add_mod]
    have hsrc : ∀ (p t : Nat) (instr : IpcInstr α),
        (exchangeProgram α numPes peStart stride size poolIndex nelems srcOff p)[t]? = some instr →
        instr.dataTarget p ≠ some (peStart + stride * i, (.source, srcOff j + o)) := by
      intro p t instr hp hx
      obtain ⟨i', -, -, -, -, ha⟩ := exchangeProgram_dataWrite hstride hp hx
      exact absurd (Prod.mk.inj ha).1 (by simp)
    have hval := Pgas.Reachable.data_of_unique_writer
      (x := (peStart + stride * j, (.dest, i * nelems + o)))
      (y := (peStart + stride * i, (.source, srcOff j + o))) hw huniq hsrc (Nat.zero_le _) hc
    have hran := exchangeProgram_puts_done hstride hc hj hdone hi
    rw [hval, if_pos (by omega)]
    rfl
  · intro c hc p a hnot
    refine Pgas.Reachable.data_of_no_writer (fun p' t instr hp hx => hnot ?_) hc
    -- A written cell is an element of some block of a member's `dest`.
    obtain ⟨i, hi, rfl, ht, hq, ha⟩ := exchangeProgram_dataWrite hstride hp hx
    have hn : 0 < nelems := Nat.pos_of_ne_zero fun h => by rw [h, Nat.mul_zero] at ht; omega
    refine ⟨t / nelems, Nat.div_lt_of_lt_mul (by rw [Nat.mul_comm]; exact ht), hq, by rw [ha], ?_⟩
    have hblock : i * nelems + nelems ≤ size * nelems := by
      rw [← Nat.succ_mul]
      exact Nat.mul_le_mul_right _ hi
    have hmod := Nat.mod_lt t hn
    rw [ha]
    show i * nelems + t % nelems < size * nelems
    omega

end Exchange

/-- Every member of a team, of world-relative `peStart`, `stride > 0` and
    `size` members, calls `alltoall` (and, in a second program, `fcollect`)
    once with blocks of `nelems` elements at `dest` and `source`. Once
    member `j` has returned, every member has performed all its puts, and
    `dest[i * nelems + o]` of `j` holds `source[j * nelems + o]` (for
    `fcollect`, `source[o]`) of member `i`; no data cell other than the first
    `size * nelems` elements of a member's `dest` is ever written. -/
theorem alltoall_fcollect_deliver (numPes peStart stride size poolIndex nelems : Nat)
    (hstride : 0 < stride) (data : Nat → DataAddr → α) :
    Delivers (teamProgram numPes peStart stride size poolIndex fun ctx team =>
        IPCContext.alltoall ctx team 0 0 nelems) peStart stride size nelems
        (fun j => j * nelems) data ∧
      Delivers (teamProgram numPes peStart stride size poolIndex fun ctx team =>
        IPCContext.fcollect ctx team 0 0 nelems) peStart stride size nelems (fun _ => 0) data := by
  -- The all-to-all reads block `j` at `source + 0 + j * nelems`.
  have halltoall : Delivers (exchangeProgram α numPes peStart stride size poolIndex nelems
      fun j => 0 + j * nelems) peStart stride size nelems (fun j => 0 + j * nelems) data :=
    exchangeProgram_delivers hstride data
  exact ⟨halltoall.congr_src fun j => Nat.zero_add _, exchangeProgram_delivers hstride data⟩

section Bytes

open ByteStore

/-- The put to team rank `j` in the loop of `alltoall_linear` and
    `fcollect_linear`, on bytes, for elements of `elemSize` bytes:
    `put_nbi_wg(&dst[my_pe * nelems], &src[srcOff j], nelems, dest_pe)` is
    `putmem_nbi_wg` of `nelems * sizeof(T)` bytes, which is `putmem_wg` by the
    block of `blockSize` threads. -/
def linearPutWg (ctx : IPCContext) (ipcBases : Nat → Nat) (team : IPCTeam)
    (blockSize elemSize dst src : Nat) (srcOff : Nat → Nat) (nelems j : Nat) : List Store :=
  ctx.putmemWg ipcBases blockSize (dst + team.myPe * nelems * elemSize)
    (src + srcOff j * elemSize) (nelems * elemSize) (team.getPeInWorld j)

/-- The loop of puts on bytes: the put to every team rank in turn. -/
def linearPutsWg (ctx : IPCContext) (ipcBases : Nat → Nat) (team : IPCTeam)
    (blockSize elemSize dst src : Nat) (srcOff : Nat → Nat) (nelems : Nat) : List Store :=
  (List.range team.size).flatMap
    (linearPutWg ctx ipcBases team blockSize elemSize dst src srcOff nelems)

/-- The loop's put to team rank `j` is one `memcpy_wg` of
    `nelems * sizeof(T)` bytes by the whole block. When that count is odd and
    at least 3 (`char` blocks of 3 elements, say), none of its stores writes
    the last byte of block `my_pe` in `j`'s `dst`, so in whatever order the
    block's threads store, that byte keeps what it held: member `j` does not
    receive the last byte of the block, whatever the block size. -/
theorem alltoall_fcollect_put_wg_skips_last_byte (ctx : IPCContext) (ipcBases : Nat → Nat)
    (team : IPCTeam) (blockSize elemSize dst src : Nat) (srcOff : Nat → Nat) (nelems : Nat)
    (hodd : nelems * elemSize % 2 = 1) (h3 : 3 ≤ nelems * elemSize) {j : Nat}
    (hj : j < team.size) :
    linearPutWg ctx ipcBases team blockSize elemSize dst src srcOff nelems j ⊆
        linearPutsWg ctx ipcBases team blockSize elemSize dst src srcOff nelems ∧
      ∀ (order : List Store) (mem : Nat → α),
        order.Perm (linearPutWg ctx ipcBases team blockSize elemSize dst src srcOff nelems j) →
        applyAll order mem (ipcAddress ipcBases ctx.myPe (team.getPeInWorld j)
            (dst + team.myPe * nelems * elemSize) + (nelems * elemSize - 1)) =
          mem (ipcAddress ipcBases ctx.myPe (team.getPeInWorld j)
            (dst + team.myPe * nelems * elemSize) + (nelems * elemSize - 1)) := by
  refine ⟨fun st hst => List.mem_flatMap.mpr ⟨j, List.mem_range.mpr hj, hst⟩,
    fun order mem horder => applyAll_of_not_written (fun st hst => ?_) mem⟩
  -- every store is one of a thread's `memcpy_wg` stores
  have hput := horder.subset hst
  rw [linearPutWg, IPCContext.putmemWg, memcpyWgBlock] at hput
  obtain ⟨t, -, ht⟩ := List.mem_flatMap.mp hput
  exact memcpyCoop_not_writes_last t blockSize _ _ _ hodd h3 ht

/-- The world of two PEs, mapped `4096` bytes apart, exchanging `char`
    blocks of 3 elements with a block of 64 threads: PE 0's put to PE 1
    leaves byte `4096 + 2` as it was. -/
theorem alltoall_char_three_skips_last_byte :
    3 * 1 % 2 = 1 ∧ 3 ≤ 3 * 1 ∧ 1 < 2 ∧
      (linearPutWg ⟨0, 2⟩ (fun p => p * 4096) ⟨0, 1, 2, 0, 0, 0⟩ 64 1 0 100 (fun j => j * 3) 3 1 ⊆
          linearPutsWg ⟨0, 2⟩ (fun p => p * 4096) ⟨0, 1, 2, 0, 0, 0⟩ 64 1 0 100
            (fun j => j * 3) 3 ∧
        ∀ (order : List Store) (mem : Nat → Nat),
          order.Perm (linearPutWg ⟨0, 2⟩ (fun p => p * 4096) ⟨0, 1, 2, 0, 0, 0⟩ 64 1 0 100
            (fun j => j * 3) 3 1) →
          applyAll order mem (ipcAddress (fun p => p * 4096) 0
              ((⟨0, 1, 2, 0, 0, 0⟩ : IPCTeam).getPeInWorld 1) (0 + 0 * 3 * 1) + (3 * 1 - 1)) =
            mem (ipcAddress (fun p => p * 4096) 0
              ((⟨0, 1, 2, 0, 0, 0⟩ : IPCTeam).getPeInWorld 1) (0 + 0 * 3 * 1) + (3 * 1 - 1))) := by
  have h := alltoall_fcollect_put_wg_skips_last_byte (α := Nat) ⟨0, 2⟩ (fun p => p * 4096)
    ⟨0, 1, 2, 0, 0, 0⟩ 64 1 0 100 (fun j => j * 3) 3 (by decide) (by decide) (j := 1) (by decide)
  exact ⟨by decide, by decide, by decide, h⟩

end Bytes

end RocShmem
