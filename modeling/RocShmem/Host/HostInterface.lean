import Mathlib

/-!
# HDP Flushes of the Host Interface

The host-facing API (`host/host.cpp`) runs over MPI one-sided
communication. A GPU's writes pass through its Host Data Path (HDP), a
write-combining cache, so after a host-side fence or quiet each PE flushes
its own HDP and asks every other PE's to be flushed, by an `MPI_Put` of the
flush value into the one-word window `hdp_win` of that PE
(`flush_remote_hdps`).

Which PEs are flushed is decided long before the loop runs: the
constructor duplicates the communicator into `host_comm_world_` and queries
it for `my_pe_` and `num_pes_`, and the loop runs `i` over `[0, num_pes_)`
skipping `my_pe_`. Both members are filled by `MPI_Comm_rank`, so the loop
bound is the caller's rank and not the size of the communicator: rank `r`
flushes exactly the ranks below it (`count_hdpPut_fence_new`). The flushes
reach every remote PE only on the highest rank (`flushesEveryRemoteHdp_iff`).

A host operation is modelled by the list of calls it issues, in order; the
loop is a `filterMap` over `List.range num_pes_`, one iteration an element.
The window of the calling context is the same for every call of one
operation and is left out of the calls.

## Main definitions

* `MPIComm`: A communicator as one of its ranks sees it.
* `HostAction`: The MPI and HDP calls of the synchronisation routines.
* `HostInterface.new`: The constructor's queries of `host_comm_world_`.
* `HostInterface.flushRemoteHdps`: The loop of puts to the remote HDPs.
* `HostInterface.fence`, `HostInterface.quiet`: The shared body of both.
* `FlushesEveryRemoteHdp`: One put to every other rank, none elsewhere.

## Theorems

* `count_hdpPut_range`: The loop's first `n` iterations put once to each
  rank below `n` other than the caller's.
* `count_hdpPut_flushRemoteHdps`: The same for the whole loop.
* `count_hdpPut_fence_new`: After the constructor, the ranks below the
  caller's are flushed once, and no other.
* `flushesEveryRemoteHdp_iff`: That reaches every remote PE exactly on the
  highest rank.
-/

namespace RocShmem

/-- An MPI communicator as one of its ranks sees it: what `MPI_Comm_size`
    and `MPI_Comm_rank` return. -/
structure MPIComm where
  size : Nat
  rank : Nat
  rank_lt : rank < size

/-- The calls the synchronisation routines of the host interface issue. -/
inductive HostAction where
  /-- `complete_all(window_info->get_win())` -/
  | completeAll
  /-- `hdp_policy_->hdp_flush()`, the caller's own HDP. -/
  | hdpFlush
  /-- `MPI_Put(&flush_val, 1, MPI_UNSIGNED, pe, 0, 1, MPI_UNSIGNED, hdp_win)` -/
  | hdpPut (pe : Nat)
  /-- `MPI_Win_flush_all(hdp_win)` -/
  | winFlushAll
  deriving DecidableEq, Repr

/-- The members of `HostInterface` that the HDP flushes read. -/
structure HostInterface where
  hostCommWorld : MPIComm
  myPe : Nat
  numPes : Nat

namespace HostInterface

/-- `HostInterface::HostInterface(hdp_policy, rocshmem_comm, heap)`, its
    queries of the communicator. -/
def new (rocshmemComm : MPIComm) : HostInterface :=
  -- `MPI_Comm_dup` keeps the group, and with it the size and the rank
  let hostCommWorld := rocshmemComm
  { hostCommWorld := hostCommWorld
    -- MPI_Comm_rank(host_comm_world_, &my_pe_);
    myPe := hostCommWorld.rank
    -- MPI_Comm_rank(host_comm_world_, &num_pes_);
    numPes := hostCommWorld.rank }

@[simp] theorem new_myPe (rocshmemComm : MPIComm) : (new rocshmemComm).myPe = rocshmemComm.rank :=
  rfl

@[simp] theorem new_numPes (rocshmemComm : MPIComm) :
    (new rocshmemComm).numPes = rocshmemComm.rank :=
  rfl

/-- Iteration `i` of the loop of `flush_remote_hdps`: the put to rank `i`,
    skipped by `continue` at the caller's own rank. -/
def hdpPutTo (h : HostInterface) (i : Nat) : Option HostAction :=
  if i = h.myPe then none else some (.hdpPut i)

/-- `flush_remote_hdps`: a put of the flush value to `hdp_win` of every rank
    `i < num_pes_` other than `my_pe_`, then `MPI_Win_flush_all`. -/
def flushRemoteHdps (h : HostInterface) : List HostAction :=
  (List.range h.numPes).filterMap h.hdpPutTo ++ [.winFlushAll]

/-- The body `fence` and `quiet` share: complete the window's operations,
    flush this PE's HDP, then the HDPs of the remote GPUs. -/
def flushHdps (h : HostInterface) : List HostAction :=
  .completeAll :: .hdpFlush :: h.flushRemoteHdps

/-- `HostInterface::fence`. -/
def fence (h : HostInterface) : List HostAction := h.flushHdps

/-- `HostInterface::quiet`, the same calls as `fence`. -/
def quiet (h : HostInterface) : List HostAction := h.flushHdps

/-- One iteration puts to rank `q` exactly when it is iteration `q` and `q`
    is not the caller. -/
theorem count_hdpPut_hdpPutTo (h : HostInterface) (i q : Nat) :
    ([i].filterMap h.hdpPutTo).count (.hdpPut q) = if i = q ∧ i ≠ h.myPe then 1 else 0 := by
  by_cases hi : i = h.myPe
  · simp [hdpPutTo, hi]
  · simp [hdpPutTo, hi, List.count_singleton]

/-- The first `n` iterations of the loop put once to each rank below `n`
    other than the caller's, and to no other rank. -/
theorem count_hdpPut_range (h : HostInterface) (n q : Nat) :
    ((List.range n).filterMap h.hdpPutTo).count (.hdpPut q) =
      if q < n ∧ q ≠ h.myPe then 1 else 0 := by
  -- induction on the iterations, one rank at a time
  induction n with
  | zero => simp
  | succ n ih =>
    rw [List.range_succ, List.filterMap_append, List.count_append, ih,
      count_hdpPut_hdpPutTo]
    split_ifs <;> omega

theorem count_hdpPut_flushRemoteHdps (h : HostInterface) (q : Nat) :
    h.flushRemoteHdps.count (.hdpPut q) = if q < h.numPes ∧ q ≠ h.myPe then 1 else 0 := by
  rw [flushRemoteHdps, List.count_append, count_hdpPut_range]
  simp

theorem count_hdpPut_flushHdps (h : HostInterface) (q : Nat) :
    h.flushHdps.count (.hdpPut q) = if q < h.numPes ∧ q ≠ h.myPe then 1 else 0 := by
  rw [flushHdps, List.count_cons, List.count_cons, count_hdpPut_flushRemoteHdps]
  simp

/-- After the constructor, a fence puts once to each rank below the
    caller's, and to no other rank: the loop bound `num_pes_` is the rank. -/
theorem count_hdpPut_fence_new (rocshmemComm : MPIComm) (q : Nat) :
    (new rocshmemComm).fence.count (.hdpPut q) = if q < rocshmemComm.rank then 1 else 0 := by
  rw [fence, count_hdpPut_flushHdps, new_numPes, new_myPe]
  -- below the rank, `q` is never the caller
  exact if_congr ⟨fun hq => hq.1, fun hq => ⟨hq, Nat.ne_of_lt hq⟩⟩ rfl rfl

end HostInterface

open HostInterface

/-- What a fence of the caller of `comm` is meant to do: put to the HDP of
    each other rank of `comm` once, and of no other rank. -/
def FlushesEveryRemoteHdp (comm : MPIComm) (calls : List HostAction) : Prop :=
  ∀ q, calls.count (.hdpPut q) = if q < comm.size ∧ q ≠ comm.rank then 1 else 0

/-- The fence of a freshly constructed host interface reaches every remote
    PE exactly when the caller is the highest rank. -/
theorem flushesEveryRemoteHdp_iff (comm : MPIComm) :
    FlushesEveryRemoteHdp comm (new comm).fence ↔ comm.rank + 1 = comm.size := by
  have hlt := comm.rank_lt
  constructor
  · -- the highest rank, when not the caller, would be flushed once
    intro hall
    by_contra hne
    have htop := hall (comm.size - 1)
    rw [count_hdpPut_fence_new, if_neg (by omega), if_pos (by omega)] at htop
    exact Nat.zero_ne_one htop
  · intro htop q
    rw [count_hdpPut_fence_new]
    exact if_congr ⟨fun hq => ⟨by omega, Nat.ne_of_lt hq⟩, fun hq => by omega⟩ rfl rfl

/-- After `HostInterface` is constructed on rank `r` of a communicator,
    `num_pes_` and `my_pe_` both hold `r`, and a fence and a quiet each put
    to the HDP of each rank below `r` once and of no other rank; so they
    reach every remote PE exactly when `r` is the highest rank. -/
theorem host_fence_quiet_flush_targets (comm : MPIComm) :
    (new comm).numPes = comm.rank ∧ (new comm).myPe = comm.rank ∧
    (∀ q, (new comm).fence.count (.hdpPut q) = if q < comm.rank then 1 else 0) ∧
    (∀ q, (new comm).quiet.count (.hdpPut q) = if q < comm.rank then 1 else 0) ∧
    (FlushesEveryRemoteHdp comm (new comm).fence ↔ comm.rank + 1 = comm.size) ∧
    (FlushesEveryRemoteHdp comm (new comm).quiet ↔ comm.rank + 1 = comm.size) :=
  -- `quiet` issues the calls of `fence`
  ⟨rfl, rfl, count_hdpPut_fence_new comm, count_hdpPut_fence_new comm,
    flushesEveryRemoteHdp_iff comm, flushesEveryRemoteHdp_iff comm⟩

/-- On rank 0 of two ranks, a fence puts nothing to the HDP of rank 1. -/
theorem host_fence_skips_rank_one :
    (new ⟨2, 0, by decide⟩).fence.count (.hdpPut 1) = 0 ∧
      ¬ FlushesEveryRemoteHdp ⟨2, 0, by decide⟩ (new ⟨2, 0, by decide⟩).fence :=
  ⟨by decide, fun hall => absurd (hall 1) (by decide)⟩

end RocShmem
