import RocShmem.Lib.Pgas
import RocShmem.Team

/-!
# The IPC Context: Buffers, Sync Arrays and Teams

What the device-side collectives of the IPC conduit (`ipc/context_ipc_*`)
read and write, as cells of the one-sided semantics of `Pgas`. Every PE has
the same symmetric buffers: the caller's `source` and `dest` arrays, and the
team pools `teams_init` carves from the symmetric heap, a work array
`pWrk` and sync arrays for barriers, broadcasts and all-to-alls, one slot of
each per `pool_index_`. The context also has its own `barrier_sync` array.
A data cell is a buffer and an element index in it; a flag is a sync array
and an index in it. Moving data by `putmem`, `getmem` and their work-group
forms copies element by element.

Work-group parallelism inside one PE is not modelled: each PE is one thread
running its loops in order. The collectives separate their phases with
`__syncthreads`, and no cell is written twice within a phase, so the order
of the elements inside a phase does not change what a phase leaves.

## Main definitions

* `Buf`, `SyncArray`: The buffers and the sync arrays.
* `IPCContext`, `IPCTeam`: What the collectives read of the context and of
  a team, and `IPCTeam.ofTeam` from a team of the split model.
* `putmemElems`, `getmemElems`: Element-wise copies to and from a PE.
* `teamProgram`: Every member of a team making one call, nobody else
  running.
-/

namespace RocShmem

/-- `ROCSHMEM_REDUCE_MIN_WRKDATA_SIZE`, in `double`s. -/
def reduceMinWrkdataSize : Nat := 1024

/-- `ROCSHMEM_REDUCE_SYNC_SIZE`. -/
def reduceSyncSize : Nat := 256

/-- `ROCSHMEM_BARRIER_SYNC_SIZE`: the entries of a team's `barrier_pSync`. -/
def barrierSyncSize : Nat := 256

/-- The elements of type `T` of `sizeof(T)` bytes in a team's `pWrk` slice of
    `ROCSHMEM_REDUCE_MIN_WRKDATA_SIZE * sizeof(double)` bytes. -/
def pWrkSliceElems (elemSize : Nat) : Nat := reduceMinWrkdataSize * 8 / elemSize

/-- `ROCSHMEM_SYNC_VALUE`: what every sync cell holds at rest. -/
def syncValue : Int := 0

/-- The symmetric data buffers of a PE that the collectives touch. -/
inductive Buf
  | source
  | dest
  | pWrk (poolIndex : Nat)
deriving DecidableEq, Repr

/-- The sync arrays: the context's `barrier_sync`, and a team's slots of the
    barrier, broadcast and all-to-all pools. -/
inductive SyncArray
  | barrierSync
  | barrierPSync (poolIndex : Nat)
  | bcastPSync (poolIndex : Nat)
  | alltoallPSync (poolIndex : Nat)
deriving DecidableEq, Repr

/-- A data cell: a buffer and an element index. -/
abbrev DataAddr := Buf × Nat

/-- A flag: a sync array and an index. -/
abbrev FlagAddr := SyncArray × Nat

/-- An instruction of the IPC collectives over elements of type `α`. -/
abbrev IpcInstr (α : Type) := Pgas.Instr DataAddr FlagAddr α

/-- What the collectives read of an `IPCTeam` on one PE: the world-relative
    `pe_start` and `stride`, the size (`num_pes`, equal to
    `tinfo_wrt_world->size`), the PE's index in the team (`my_pe`) and in
    the world, and `pool_index_`. -/
structure IPCTeam where
  peStart : Nat
  stride : Nat
  size : Nat
  myPe : Nat
  myPeInWorld : Nat
  poolIndex : Nat
deriving DecidableEq, Repr

/-- What the collectives read of the `IPCContext` of one PE: its rank
    `my_pe` in the world and the world's size `num_pes`. -/
structure IPCContext where
  myPe : Nat
  numPes : Nat
deriving DecidableEq, Repr

/-- The IPC view of a team a PE holds, at its world rank and with the pool
    index `create_new_team` gave it. -/
def IPCTeam.ofTeam (t : Team) (myPeInWorld poolIndex : Nat) : IPCTeam :=
  ⟨t.tinfoWrtWorld.peStart.toNat, t.tinfoWrtWorld.stride.toNat, t.numPes.toNat, t.myPe.toNat,
    myPeInWorld, poolIndex⟩

/-- `Team::get_pe_in_world`. -/
def IPCTeam.getPeInWorld (t : IPCTeam) (pe : Nat) : Nat := t.peStart + t.stride * pe

/-- The members' world ranks in the order of the collectives' loops
    `for (i = PE_start; i < finish; i += stride)` with
    `finish = PE_start + stride * PE_size`, for the positive strides every
    team has. -/
def IPCTeam.memberPes (t : IPCTeam) : List Nat := List.range' t.peStart t.size t.stride

/-- The programs of a team of world-relative `peStart`, `stride` and `size`
    at pool index `poolIndex`, in a world of `numPes` PEs, when every member
    makes the call `call` with its context and its view of the team, and no
    other PE runs anything. -/
def teamProgram {α : Type} (numPes peStart stride size poolIndex : Nat)
    (call : IPCContext → IPCTeam → List (IpcInstr α)) : Pgas.Prog DataAddr FlagAddr α := fun p =>
  if peStart ≤ p ∧ (p - peStart) % stride = 0 ∧ (p - peStart) / stride < size then
    call ⟨p, numPes⟩ ⟨peStart, stride, size, (p - peStart) / stride, p, poolIndex⟩
  else []

/-- `putmem` of `n` elements: `dst + o` on PE `pe` gets `src + o` of `self`. -/
def putmemElems {α : Type} (self : Nat) (dst : Buf) (dstOff : Nat) (src : Buf) (srcOff n pe : Nat) :
    List (IpcInstr α) :=
  (List.range n).map fun o => .copy pe (dst, dstOff + o) self (src, srcOff + o)

/-- `getmem` of `n` elements: `dst + o` of `self` gets `src + o` on PE `pe`. -/
def getmemElems {α : Type} (self : Nat) (dst : Buf) (dstOff : Nat) (src : Buf) (srcOff n pe : Nat) :
    List (IpcInstr α) :=
  (List.range n).map fun o => .copy self (dst, dstOff + o) pe (src, srcOff + o)

section TeamProgram

variable {α : Type} {numPes peStart stride size poolIndex : Nat}
  {call : IPCContext → IPCTeam → List (IpcInstr α)}

/-- Team rank `j` sits at world rank `peStart + stride * j`, and the source
    recovers `j` from it as `(pe - peStart) / stride`. -/
theorem slot_of_rank {peStart stride : Nat} (hstride : 0 < stride) (j : Nat) :
    (peStart + stride * j - peStart) / stride = j := by
  rw [Nat.add_sub_cancel_left, Nat.mul_div_cancel_left _ hstride]

/-- The world rank of team rank `j` is the leader's only for `j = 0`. -/
theorem rank_eq_start_iff {peStart stride j : Nat} (hstride : 0 < stride) :
    peStart + stride * j = peStart ↔ j = 0 := by
  constructor
  · intro h
    have : stride * j = 0 := by omega
    rcases Nat.mul_eq_zero.mp this with h' | h'
    · omega
    · exact h'
  · rintro rfl
    rfl

theorem rank_ne_start {peStart stride j : Nat} (hstride : 0 < stride) (hj : j ≠ 0) :
    peStart + stride * j ≠ peStart :=
  fun h => hj ((rank_eq_start_iff hstride).mp h)

theorem rank_inj {peStart stride j k : Nat} (hstride : 0 < stride) :
    peStart + stride * j = peStart + stride * k ↔ j = k := by
  constructor
  · intro h
    exact Nat.eq_of_mul_eq_mul_left hstride (by omega)
  · rintro rfl
    rfl

theorem teamProgram_member (hstride : 0 < stride) {j : Nat} (hj : j < size) :
    teamProgram numPes peStart stride size poolIndex call (peStart + stride * j) =
      call ⟨peStart + stride * j, numPes⟩
        ⟨peStart, stride, size, j, peStart + stride * j, poolIndex⟩ := by
  have hrank : (peStart + stride * j - peStart) / stride = j := slot_of_rank hstride j
  have hmod : (peStart + stride * j - peStart) % stride = 0 := by
    rw [Nat.add_sub_cancel_left, Nat.mul_mod_right]
  rw [teamProgram, if_pos ⟨Nat.le_add_right _ _, hmod, by rw [hrank]; exact hj⟩, hrank]

theorem teamProgram_outsider {p : Nat} (hp : ∀ j < size, p ≠ peStart + stride * j) :
    teamProgram numPes peStart stride size poolIndex call p = [] := by
  rw [teamProgram, if_neg]
  rintro ⟨hle, hmod, hlt⟩
  -- A PE at a multiple of the stride past the start is a member.
  have hdiv := Nat.div_add_mod (p - peStart) stride
  exact hp _ hlt (by omega)

end TeamProgram

end RocShmem
