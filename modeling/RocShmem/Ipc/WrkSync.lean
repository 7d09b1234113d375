import RocShmem.Lib.Extent
import RocShmem.Ipc.Context

/-!
# The Work and Sync Buffer

`IPCBackend::init_wrk_sync_buffer` (`ipc/backend_ipc.cpp`) sizes one
fine-grained buffer for everything the collectives synchronise on, and three
functions then carve it with a bump pointer, in the order the constructor
calls them: `rocshmem_collective_init` takes `barrier_sync`,
`setup_fence_buffer` the fence pool, and `teams_init` the team pools of sync
arrays (barrier, reduce, broadcast, all-to-all) and of work arrays (`pWrk`,
`pAta`). Each `IPCTeam` then points into every pool at its `pool_index`.

Offsets are counted in bytes from the start of the buffer, with
`sizeof(long) = sizeof(int64_t) = sizeof(double) = 8` and `sizeof(int) = 4`.

The carving fits the buffer, with `8 * max_num_teams` bytes to spare
(`ipcBackendLayout_temp`): the size counts the all-to-all pool with
`ROCSHMEM_ALLTOALL_SYNC_SIZE = 257` entries a team and the bump uses
`ROCSHMEM_BCAST_SYNC_SIZE = 256`. But the teams index the all-to-all pool
with 257 entries a team, and `teams_init` initialises 257: the last team's
slice runs `8 * max_num_teams` bytes into the `pWrk` pool, and its last
entry is written inside a team's `pWrk` slice. Likewise `barrier_sync` has
256 entries and is initialised for `num_pes` of them, which runs into the
fence pool from 257 PEs on (`wrk_sync_init_writes_overlap`).

## Main definitions

* `wrkSyncBufferSize`: `Wrk_Sync_buffer_size_`.
* `WrkSyncLayout`, `ipcBackendLayout`: The pointers the carving leaves.
* `alltoallPSyncSlice`, `pWrkSlice` and the other `IPCTeam` slices.
* `collectiveInitWrites`, `teamsInitWrites`: The entries the initialisation
  loops write.

## Theorems

* `ipcBackendLayout_temp`: The carving ends `8 * max_num_teams` bytes before
  the end of the buffer.
* `wrk_sync_init_writes_overlap`: The initialisation loops write into the
  `pWrk` pool and into the fence pool.
-/

namespace RocShmem

/-- `ROCSHMEM_BCAST_SYNC_SIZE`, the barrier's size. -/
def bcastSyncSize : Nat := barrierSyncSize

/-- `ROCSHMEM_ALLTOALL_SYNC_SIZE`, one more than the barrier's. -/
def alltoallSyncSize : Nat := barrierSyncSize + 1

/-- `ROCSHMEM_ATA_MAX_WRKDATA_SIZE`, in `double`s. -/
def ataMaxWrkdataSize : Nat := 4 * 1024 * 1024

/-- `init_wrk_sync_buffer`: `Wrk_Sync_buffer_size_`, in bytes. -/
def wrkSyncBufferSize (numPes maxNumTeams : Nat) : Nat :=
  8 * barrierSyncSize +
    8 * maxNumTeams * (barrierSyncSize + reduceSyncSize + bcastSyncSize + alltoallSyncSize) +
    8 * maxNumTeams * (reduceMinWrkdataSize + ataMaxWrkdataSize) +
    4 * numPes

/-- The pointers the carving sets, as byte offsets into the buffer, with the
    bump pointer `temp_Wrk_Sync_buff_ptr_`. -/
structure WrkSyncLayout where
  barrierSync : Nat
  fencePool : Nat
  barrierPSyncPool : Nat
  reducePSyncPool : Nat
  bcastPSyncPool : Nat
  alltoallPSyncPool : Nat
  pWrkPool : Nat
  pAtaPool : Nat
  temp : Nat
deriving DecidableEq, Repr

/-- `rocshmem_collective_init`: `barrier_sync` takes
    `ROCSHMEM_BARRIER_SYNC_SIZE` `int64_t`s. -/
def rocshmemCollectiveInit (l : WrkSyncLayout) : WrkSyncLayout :=
  { l with barrierSync := l.temp, temp := l.temp + 8 * barrierSyncSize }

/-- `setup_fence_buffer`: the fence pool takes `num_pes` `int`s. -/
def setupFenceBuffer (numPes : Nat) (l : WrkSyncLayout) : WrkSyncLayout :=
  { l with fencePool := l.temp, temp := l.temp + 4 * numPes }

/-- `teams_init`: the pools, each advanced by its own constant times
    `max_num_teams`; the all-to-all pool by `ROCSHMEM_BCAST_SYNC_SIZE`. -/
def teamsInit (maxNumTeams : Nat) (l : WrkSyncLayout) : WrkSyncLayout :=
  let barrierPool := l.temp
  let reducePool := barrierPool + 8 * barrierSyncSize * maxNumTeams
  let bcastPool := reducePool + 8 * reduceSyncSize * maxNumTeams
  let alltoallPool := bcastPool + 8 * bcastSyncSize * maxNumTeams
  let pWrkPool := alltoallPool + 8 * bcastSyncSize * maxNumTeams
  let pAtaPool := pWrkPool + 8 * reduceMinWrkdataSize * maxNumTeams
  { l with
    barrierPSyncPool := barrierPool
    reducePSyncPool := reducePool
    bcastPSyncPool := bcastPool
    alltoallPSyncPool := alltoallPool
    pWrkPool := pWrkPool
    pAtaPool := pAtaPool
    temp := pAtaPool + 8 * ataMaxWrkdataSize * maxNumTeams }

/-- The layout the `IPCBackend` constructor leaves: `init_wrk_sync_buffer`
    starts the bump pointer at the buffer, then `rocshmem_collective_init`,
    `setup_fence_buffer` and `teams_init` run in that order. -/
def ipcBackendLayout (numPes maxNumTeams : Nat) : WrkSyncLayout :=
  teamsInit maxNumTeams
    (setupFenceBuffer numPes (rocshmemCollectiveInit ⟨0, 0, 0, 0, 0, 0, 0, 0, 0⟩))

/-- The 8 bytes of entry `i` of an array of `long`s at `base`. -/
def syncEntry (base i : Nat) : Extent := ⟨base + 8 * i, 8⟩

/-- The fence pool, `num_pes` `int`s. -/
def fenceRegion (l : WrkSyncLayout) (numPes : Nat) : Extent := ⟨l.fencePool, 4 * numPes⟩

/-- `IPCTeam::barrier_pSync` of pool index `i`. -/
def barrierPSyncSlice (l : WrkSyncLayout) (i : Nat) : Extent :=
  ⟨l.barrierPSyncPool + 8 * (i * barrierSyncSize), 8 * barrierSyncSize⟩

/-- `IPCTeam::reduce_pSync` of pool index `i`. -/
def reducePSyncSlice (l : WrkSyncLayout) (i : Nat) : Extent :=
  ⟨l.reducePSyncPool + 8 * (i * reduceSyncSize), 8 * reduceSyncSize⟩

/-- `IPCTeam::bcast_pSync` of pool index `i`. -/
def bcastPSyncSlice (l : WrkSyncLayout) (i : Nat) : Extent :=
  ⟨l.bcastPSyncPool + 8 * (i * bcastSyncSize), 8 * bcastSyncSize⟩

/-- `IPCTeam::alltoall_pSync` of pool index `i`: indexed with
    `ROCSHMEM_ALLTOALL_SYNC_SIZE`. -/
def alltoallPSyncSlice (l : WrkSyncLayout) (i : Nat) : Extent :=
  ⟨l.alltoallPSyncPool + 8 * (i * alltoallSyncSize), 8 * alltoallSyncSize⟩

/-- `IPCTeam::pWrk` of pool index `i`. -/
def pWrkSlice (l : WrkSyncLayout) (i : Nat) : Extent :=
  ⟨l.pWrkPool + reduceMinWrkdataSize * 8 * i, reduceMinWrkdataSize * 8⟩

/-- The entries `barrier_sync[i] = ROCSHMEM_SYNC_VALUE` of
    `rocshmem_collective_init`, for `i < num_pes`. -/
def collectiveInitWrites (l : WrkSyncLayout) (numPes : Nat) : List Extent :=
  (List.range numPes).map (syncEntry l.barrierSync)

/-- The entries the loop over `team_i < max_num_teams` of `teams_init`
    writes: the whole of each team's four sync arrays. -/
def teamsInitWrites (l : WrkSyncLayout) (maxNumTeams : Nat) : List Extent :=
  (List.range maxNumTeams).flatMap fun teamI =>
    (List.range barrierSyncSize).map (syncEntry (barrierPSyncSlice l teamI).base) ++
      (List.range reduceSyncSize).map (syncEntry (reducePSyncSlice l teamI).base) ++
      (List.range bcastSyncSize).map (syncEntry (bcastPSyncSlice l teamI).base) ++
      (List.range alltoallSyncSize).map (syncEntry (alltoallPSyncSlice l teamI).base)

/-- The carving stops `8 * max_num_teams` bytes short of the buffer's end:
    the size counts 257 all-to-all entries a team, the bump 256. -/
theorem ipcBackendLayout_temp (numPes maxNumTeams : Nat) :
    (ipcBackendLayout numPes maxNumTeams).temp + 8 * maxNumTeams =
      wrkSyncBufferSize numPes maxNumTeams := by
  simp only [ipcBackendLayout, teamsInit, setupFenceBuffer, rocshmemCollectiveInit,
    wrkSyncBufferSize, alltoallSyncSize, bcastSyncSize]
  ring

/-- The all-to-all pool as bumped ends where the `pWrk` pool starts. -/
theorem pWrkPool_eq (numPes maxNumTeams : Nat) :
    (ipcBackendLayout numPes maxNumTeams).pWrkPool =
      (ipcBackendLayout numPes maxNumTeams).alltoallPSyncPool + 8 * bcastSyncSize * maxNumTeams :=
  rfl

/-- The initialisation loops write outside their regions. With
    `max_num_teams = T ≥ 1`, entry 256 of the last team's `alltoall_pSync`,
    which `teams_init` writes, overlaps the `pWrk` slice of pool index
    `(T - 1) / 1024`; and from 257 PEs on, the entry `barrier_sync[256]` that
    `rocshmem_collective_init` writes overlaps the fence pool. -/
theorem wrk_sync_init_writes_overlap (numPes maxNumTeams : Nat) (hteams : 1 ≤ maxNumTeams) :
    (syncEntry (alltoallPSyncSlice (ipcBackendLayout numPes maxNumTeams) (maxNumTeams - 1)).base
          (alltoallSyncSize - 1) ∈
        teamsInitWrites (ipcBackendLayout numPes maxNumTeams) maxNumTeams ∧
      ¬ Extent.Disjoint
        (syncEntry (alltoallPSyncSlice (ipcBackendLayout numPes maxNumTeams) (maxNumTeams - 1)).base
          (alltoallSyncSize - 1))
        (pWrkSlice (ipcBackendLayout numPes maxNumTeams) ((maxNumTeams - 1) / 1024))) ∧
    (barrierSyncSize < numPes →
      syncEntry (ipcBackendLayout numPes maxNumTeams).barrierSync barrierSyncSize ∈
          collectiveInitWrites (ipcBackendLayout numPes maxNumTeams) numPes ∧
        ¬ Extent.Disjoint
          (syncEntry (ipcBackendLayout numPes maxNumTeams).barrierSync barrierSyncSize)
          (fenceRegion (ipcBackendLayout numPes maxNumTeams) numPes)) := by
  refine ⟨⟨?_, ?_⟩, fun hpes => ⟨?_, ?_⟩⟩
  · -- The last team's last all-to-all entry is one the loop writes.
    refine List.mem_flatMap.mpr ⟨maxNumTeams - 1, List.mem_range.mpr (by omega), ?_⟩
    exact List.mem_append_right _ (List.mem_map.mpr ⟨_, List.mem_range.mpr (by decide), rfl⟩)
  · -- The entry sits `8 * (T - 1)` bytes into the `pWrk` pool.
    have hdiv := Nat.div_add_mod (maxNumTeams - 1) 1024
    have hmod := Nat.mod_lt (maxNumTeams - 1) (show 0 < 1024 by decide)
    simp only [Extent.Disjoint, Extent.stop, syncEntry, alltoallPSyncSlice, pWrkSlice,
      pWrkPool_eq, alltoallSyncSize, bcastSyncSize, barrierSyncSize, reduceMinWrkdataSize]
    omega
  · exact List.mem_map.mpr ⟨barrierSyncSize, List.mem_range.mpr hpes, rfl⟩
  · simp only [Extent.Disjoint, Extent.stop, syncEntry, fenceRegion, ipcBackendLayout, teamsInit,
      setupFenceBuffer, rocshmemCollectiveInit, barrierSyncSize] at hpes ⊢
    omega

/-- One PE and one team: the last all-to-all entry, at byte `10244`, is the
    first word of the `pWrk` pool. -/
theorem wrk_sync_init_writes_overlap_one_team :
    1 ≤ 1 ∧
      ((syncEntry (alltoallPSyncSlice (ipcBackendLayout 1 1) (1 - 1)).base (alltoallSyncSize - 1) ∈
            teamsInitWrites (ipcBackendLayout 1 1) 1 ∧
          ¬ Extent.Disjoint (syncEntry (alltoallPSyncSlice (ipcBackendLayout 1 1) (1 - 1)).base
            (alltoallSyncSize - 1)) (pWrkSlice (ipcBackendLayout 1 1) ((1 - 1) / 1024))) ∧
        (barrierSyncSize < 1 →
          syncEntry (ipcBackendLayout 1 1).barrierSync barrierSyncSize ∈
              collectiveInitWrites (ipcBackendLayout 1 1) 1 ∧
            ¬ Extent.Disjoint (syncEntry (ipcBackendLayout 1 1).barrierSync barrierSyncSize)
              (fenceRegion (ipcBackendLayout 1 1) 1))) :=
  ⟨by decide, wrk_sync_init_writes_overlap 1 1 (by decide)⟩

example : (ipcBackendLayout 1 1).pWrkPool = 10244 ∧
    (syncEntry (alltoallPSyncSlice (ipcBackendLayout 1 1) 0).base 256).base = 10244 := by
  decide

end RocShmem
