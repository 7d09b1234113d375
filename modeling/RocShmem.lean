import RocShmem.Lib.Extent
import RocShmem.Lib.ByteBitmask
import RocShmem.Lib.Pgas
import RocShmem.Lib.Signal
import RocShmem.Lib.ByteStore
import RocShmem.Lib.Transition
import RocShmem.Lib.HeapList
import RocShmem.Lib.EraseIdx
import RocShmem.Lib.LockStep
import RocShmem.Lib.RingAllreduce
import RocShmem.Lib.Dim3
import RocShmem.Lib.WaveIntrinsics
import RocShmem.Lib.CopyRound
import RocShmem.Lib.BitSwap
import RocShmem.Lib.PhaseRing
import RocShmem.Lib.Interleave
import RocShmem.Lib.Poll
import RocShmem.Lib.AsyncPgas
import RocShmem.Lib.AsyncSignal
import RocShmem.Memory.Binner
import RocShmem.Memory.BinnerLayout
import RocShmem.Memory.Pow2Bins
import RocShmem.Memory.Pow2BinsInvariant
import RocShmem.Memory.Pow2BinsAlloc
import RocShmem.Memory.SingleHeap
import RocShmem.Memory.DevMonoLinear
import RocShmem.Team
import RocShmem.Containers.FreeList
import RocShmem.Containers.IndexStrategy
import RocShmem.Util.Memcpy
import RocShmem.WfCoalPolicy
import RocShmem.Ipc.TeamPool
import RocShmem.Ipc.Context
import RocShmem.Ipc.Barrier
import RocShmem.Ipc.Reduce
import RocShmem.Ipc.Broadcast
import RocShmem.Ipc.Alltoall
import RocShmem.Ipc.PutSignal
import RocShmem.Ipc.WrkSync
import RocShmem.Ipc.Backend
import RocShmem.Ipc.RingAllreduce
import RocShmem.Ipc.WgCtx
import RocShmem.GpuIb.Reduce
import RocShmem.GpuIb.Brucks
import RocShmem.GpuIb.Gcen
import RocShmem.GpuIb.Endian
import RocShmem.GpuIb.QueuePair
import RocShmem.GpuIb.Context
import RocShmem.GpuIb.SegmentBuilder
import RocShmem.GpuIb.Atomic
import RocShmem.GpuIb.Barrier
import RocShmem.Sync.AbqlBlockMutex
import RocShmem.Sync.WaitUntil
import RocShmem.ReverseOffload.MpiTransport
import RocShmem.ReverseOffload.Queue
import RocShmem.ReverseOffload.Contexts
import RocShmem.ReverseOffload.Blocking
import RocShmem.ReverseOffload.Quiet
import RocShmem.ReverseOffload.Drain
import RocShmem.Host.HostInterface
