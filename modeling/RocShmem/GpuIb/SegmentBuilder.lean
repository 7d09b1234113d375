import Mathlib
import RocShmem.GpuIb.Endian
import RocShmem.GpuIb.QueuePair

/-!
# The Work Queue Entries of the GPU-IB Backend

Each post of a queue pair (`update_posted_wqe_generic`) builds its WQE in
the send queue from 16-byte segments (`SegmentBuilder`), starting at
segment `4 * my_sq_index`: a control segment, on a DC connection the
address vector of the target, the remote address, for an atomic its
operands, and last the local data, either by reference (a data segment) or
copied into the WQE (an inline segment, for writes of at most
`inline_threshold` bytes). The control segment's DS field tells the NIC how
many segments the WQE has; it is not counted from the segments written but
computed from the opcode (`update_cntrl_seg`).

The count is right for every post the queue pair makes
(`wqe_ds_counts_segments`), and a WQE never takes more than the
`getNumWqes` slots its post reserves. Those slots lie inside the send
queue exactly when the post does not start in its last `getNumWqes - 1`
slots (`wqe_within_sq_iff`). On a reliable connection a WQE is
one slot and always fits. On a DC connection an atomic takes two, and one
posted at the last slot writes its fifth segment past the end of the send
queue: nothing wraps it around.

The byte count the NIC reads is the request's only for some sizes
(`rma_wqe_byte_count_iff`). The size reaches the WQE builder as an
`int32_t`, and a write of no bytes is the HDP flush of `fence`: so a
`put_nbi` of zero bytes writes four bytes from its source, with the key
of the remote HDP (`put_nbi_zero_bytes_hdp_flush`), and one of `2 ^ 31`
bytes or more sends another count.

## Main definitions

* `Mlx5Segment`: The segments, with the fields a post writes.
* `ConnectionImpl`: The RC and DC connection policies.
* `SegmentBuilder.updateCntrlSeg`, ...: The segment builders.
* `QueuePair.postedSegments`: The segments of one post.
* `QpPost`, `QpPost.segments`: The posts of a queue pair and their WQEs.
* `Mlx5Segment.dsField`, `transferBytes`: What the NIC reads of them.

## Theorems

* `wqe_ds_counts_segments`: The DS field counts the segments written.
* `wqe_within_sq_iff`: When a WQE stays inside the send queue.
* `rma_wqe_byte_count_iff`: When the NIC transfers the bytes asked for.
* `put_nbi_zero_bytes_hdp_flush`: A put of zero bytes is an HDP flush.
-/

namespace RocShmem

/-- What an inline data segment carries after its byte count. -/
inductive InlinePayload where
  /-- The one-byte flush value, when the local address is null. -/
  | flushVal
  /-- `size` bytes copied from the local address `laddr`. -/
  | copy (laddr : Nat) (size : Int32)
  deriving DecidableEq, Repr

/-- A 16-byte segment of a WQE (`mlx5_segment`), with the fields a post
    writes, as they are stored. -/
inductive Mlx5Segment where
  | ctrl (opmodIdxOpcode qpnDs : UInt32) (signature fmCeSe : UInt8) (imm : UInt32)
  | baseAv (dqpDct : UInt32) (rlid : UInt16)
  | raddr (raddr : UInt64) (rkey : UInt32)
  | atomic (swapAdd compare : UInt64)
  | data (byteCount lkey : UInt32) (addr : UInt64)
  | inlData (byteCount : UInt32) (payload : InlinePayload)
  deriving DecidableEq, Repr

/-- The connection policies (`connection_policy.cpp`). -/
inductive ConnectionImpl where
  /-- `RCConnectionImpl`: one queue pair per destination. -/
  | rc
  /-- `DCConnectionImpl`: each WQE names its target's DCT number, key and
      LID. -/
  | dc (vecDctNum vecRkey : Nat → UInt32) (vecLids : Nat → UInt16)

namespace ConnectionImpl

/-- `wqeCntrlOffset`: the segments the connection adds to a WQE. -/
def wqeCntrlOffset : ConnectionImpl → Nat
  | rc => 0
  | dc .. => 1

/-- `getNumWqes(opcode)`: the WQE slots a post reserves. -/
def getNumWqes : ConnectionImpl → Mlx5Opcode → Nat
  | rc, _ => 1
  | dc .., opcode => if opcode = .atomicFa ∨ opcode = .atomicCs then 2 else 1

/-- `updateConnectionSegment(wqe, pe)`: the address vector a DC WQE
    carries, `none` when the connection writes no segment. -/
def updateConnectionSegment : ConnectionImpl → Nat → Option Mlx5Segment
  | rc, _ => none
  | dc vecDctNum _ vecLids, pe => some (.baseAv (vecDctNum pe) (vecLids pe))

/-- `setRkey(&rkey, pe)`. -/
def setRkey : ConnectionImpl → Nat → UInt32 → UInt32
  | rc, _, rkey => rkey
  | dc _ vecRkey _, pe, _ => vecRkey pe

end ConnectionImpl

/-- The members of a queue pair that a post reads to build its WQE. -/
structure QpPostFields where
  ctrlQpSq : UInt32
  ctrlSig : UInt64
  rkey : UInt32
  lkey : UInt32
  hdpRkey : Nat → UInt32
  /-- The address of `atomic_ret.atomic_base_ptr`, a `uint64_t` array. -/
  atomicBasePtr : Nat
  atomicLkey : UInt32
  connectionPolicy : ConnectionImpl
  /-- The atomic region is allocated. -/
  atomicBasePtr_pos : 0 < atomicBasePtr
  /-- The connection keeps the low 24 bits of the template's word. -/
  ctrlQpSq_lt : ctrlQpSq.toNat < 2 ^ 24

namespace SegmentBuilder

/-- `SEGMENTS_PER_WQE`. -/
def segmentsPerWqe : Nat := 4

/-- The segment of the send queue that segment `i` of the WQE built at
    `wqe_idx` goes to: `SegmentBuilder` starts at `4 * wqe_idx` and moves
    on by one segment after each. -/
def segmentIndex (wqeIdx i : Nat) : Nat := segmentsPerWqe * wqeIdx + i

/-- The DS count `update_cntrl_seg` computes. -/
def dsCount (opcode : Mlx5Opcode) (connectionPolicy : ConnectionImpl) (zeroByteRd : Bool) :
    Nat :=
  (if zeroByteRd = false then
    (if opcode = .rdmaWrite ∨ opcode = .rdmaRead then 3 else 4)
  else 2) + connectionPolicy.wqeCntrlOffset

/-- `update_cntrl_seg`. -/
def updateCntrlSeg (opcode : Mlx5Opcode) (wqeIdx : UInt16) (ctrlQpSq : UInt32) (ctrlSig : UInt64)
    (connectionPolicy : ConnectionImpl) (zeroByteRd : Bool) : Mlx5Segment :=
  let opmodIdxOpcode : UInt32 := (opcode.toUInt8.toUInt32 <<< 24) ||| (wqeIdx.toUInt32 <<< 8)
  let ds := dsCount opcode connectionPolicy zeroByteRd
  .ctrl opmodIdxOpcode ((UInt32.ofNat ds <<< 24) ||| ctrlQpSq) ctrlSig.toUInt8
    (ctrlSig >>> 24).toUInt8 (ctrlSig >>> 32).toUInt32

/-- `update_atomic_data_seg`. -/
def updateAtomicDataSeg (atomicData atomicCmp : Int64) : Mlx5Segment :=
  .atomic (swapEndianStoreU64 atomicData.toUInt64) (swapEndianStoreU64 atomicCmp.toUInt64)

/-- `update_rdma_seg`. -/
def updateRdmaSeg (raddr : Nat) (rkey : UInt32) : Mlx5Segment :=
  .raddr (swapEndianStoreU64 (UInt64.ofNat raddr)) rkey

/-- `update_data_seg`: nothing for a null local address. -/
def updateDataSeg (laddr : Nat) (size : Int32) (lkey : UInt32) : List Mlx5Segment :=
  if laddr = 0 then []
  else [.data (swapEndianStoreU32 (size.toUInt32 &&& 0x7FFFFFFF)) lkey
    (swapEndianStoreU64 (UInt64.ofNat laddr))]

/-- `update_inl_data_seg`: the count with the inline bit, then the bytes,
    or the flush value for a null local address. -/
def updateInlDataSeg (laddr : Nat) (size : Int32) : Mlx5Segment :=
  .inlData (swapEndianStoreU32 ((size.toUInt32 &&& 0x3FF) ||| 0x80000000))
    (if laddr = 0 then .flushVal else .copy laddr size)

/-- `update_connection_seg`: a segment when the connection writes one. -/
def updateConnectionSeg (pe : Nat) (connPolicy : ConnectionImpl) : List Mlx5Segment :=
  (connPolicy.updateConnectionSegment pe).toList

end SegmentBuilder

namespace QueuePair

open SegmentBuilder

/-- `inline_threshold`. -/
def inlineThreshold : Int32 := 8

/-- The segments `update_posted_wqe_generic` writes for the post of WQE
    number `mySqCounter`, in order. -/
def postedSegments (qp : QpPostFields) (pe : Nat) (size : Int32) (laddr raddr : Nat)
    (opcode : Mlx5Opcode) (atomicData atomicCmp : Int64) (atomicRetPos : Nat) (zeroByteRd : Bool)
    (mySqCounter : Nat) : List Mlx5Segment :=
  let leSqCounter := swapEndianStoreU16 (UInt16.ofNat mySqCounter)
  let rkey := qp.connectionPolicy.setRkey pe qp.rkey
  -- a write of no bytes is the HDP flush of `fence`: four bytes, the HDP's key
  let hdpFlush := decide (opcode = .rdmaWrite ∧ size = 0)
  let rkey := if hdpFlush then qp.hdpRkey pe else rkey
  let size := if hdpFlush then 4 else size
  let isAtomic := decide (opcode = .atomicFa ∨ opcode = .atomicCs)
  let atomicSegs := if isAtomic then [updateAtomicDataSeg atomicData atomicCmp] else []
  -- an atomic returns the old value to entry `atomic_ret_pos` of the atomic region
  let size := if isAtomic then 8 else size
  let lkey := if isAtomic then qp.atomicLkey else qp.lkey
  let laddr := if isAtomic then qp.atomicBasePtr + 8 * atomicRetPos else laddr
  let dataSegs :=
    if size ≤ inlineThreshold ∧ opcode = .rdmaWrite then [updateInlDataSeg laddr size]
    else updateDataSeg laddr size lkey
  [updateCntrlSeg opcode leSqCounter qp.ctrlQpSq qp.ctrlSig qp.connectionPolicy zeroByteRd] ++
    updateConnectionSeg pe qp.connectionPolicy ++ [updateRdmaSeg raddr rkey] ++ atomicSegs ++
    dataSegs

end QueuePair

/-- The posts of a queue pair: the callers of `update_posted_wqe_generic`,
    on queue pair `pe`. -/
inductive QpPost where
  /-- `put_nbi` and `put_nbi_cqe`: `nelems` bytes from `source` to `dest`. -/
  | putNbi (dest source nelems : Nat)
  /-- `get_nbi` and `get_nbi_cqe`, whose `dest` is the remote address and
      `source` the local one. -/
  | getNbi (dest source nelems : Nat)
  /-- `zero_b_rd`: a read of no bytes from the base of the heap of `pe`. -/
  | zeroBRd
  /-- `atomic_fetch` and `atomic_nofetch`, with `MLX5_OPCODE_ATOMIC_CS` or
      `MLX5_OPCODE_ATOMIC_FA`. -/
  | atomic (dest : Nat) (value cond : Int64) (cas : Bool) (atomicRetPos : Nat)
  /-- `fence(pe)`: a write of no bytes to the HDP of `pe`. -/
  | fence
  deriving DecidableEq, Repr

namespace QpPost

/-- The opcode of a post. -/
def opcode : QpPost → Mlx5Opcode
  | putNbi .. => .rdmaWrite
  | getNbi .. => .rdmaRead
  | zeroBRd => .rdmaRead
  | atomic _ _ _ cas _ => if cas then .atomicCs else .atomicFa
  | fence => .rdmaWrite

/-- The segments of a post of WQE number `mySqCounter` to `pe`; `baseHeap`
    and `hdpAddress` are the queue pair's arrays of remote heap bases and
    HDP addresses. -/
def segments (qp : QpPostFields) (pe : Nat) (baseHeap hdpAddress : Nat → Nat) (mySqCounter : Nat) :
    QpPost → List Mlx5Segment
  | putNbi dest source nelems =>
    QueuePair.postedSegments qp pe (Int32.ofNat nelems) source dest .rdmaWrite 0 0 0 false
      mySqCounter
  | getNbi dest source nelems =>
    QueuePair.postedSegments qp pe (Int32.ofNat nelems) source dest .rdmaRead 0 0 0 false
      mySqCounter
  | zeroBRd =>
    QueuePair.postedSegments qp pe 0 0 (baseHeap pe) .rdmaRead 0 0 0 true mySqCounter
  | atomic dest value cond cas atomicRetPos =>
    QueuePair.postedSegments qp pe 8 0 dest (if cas then .atomicCs else .atomicFa) value cond
      atomicRetPos false mySqCounter
  | fence =>
    QueuePair.postedSegments qp pe 0 0 (hdpAddress pe) .rdmaWrite 0 0 0 false mySqCounter

/-- The `zero_byte_rd` argument of a post. -/
def zeroByteRd : QpPost → Bool
  | zeroBRd => true
  | _ => false

theorem opcode_of_zeroByteRd {post : QpPost} (h : post.zeroByteRd = true) :
    post.opcode = .rdmaRead := by
  cases post <;> simp_all [zeroByteRd, opcode]

/-- The local buffer of a put or a get is not null; the other posts have
    none of the caller's. -/
def LocalNonNull : QpPost → Prop
  | putNbi _ source _ => source ≠ 0
  | getNbi _ source _ => source ≠ 0
  | _ => True

end QpPost

/-- The DS count the NIC reads from a control segment: the low six bits of
    its byte 7, the last byte of `qpn_ds` in memory. -/
def Mlx5Segment.dsField : Mlx5Segment → Option Nat
  | .ctrl _ qpnDs _ _ _ => some ((qpnDs.toNat >>> 24) % 64)
  | _ => none

/-- The byte count the NIC reads from a data or inline segment: the field is
    big-endian, and the top bit marks the inline segment. -/
def Mlx5Segment.byteCount? : Mlx5Segment → Option Nat
  | .data byteCount _ _ => some ((swapEndianStoreU32 byteCount).toNat &&& 0x7FFFFFFF)
  | .inlData byteCount _ => some ((swapEndianStoreU32 byteCount).toNat &&& 0x7FFFFFFF)
  | _ => none

/-- The bytes a WQE transfers: the count of its first data or inline
    segment. -/
def transferBytes (wqe : List Mlx5Segment) : Option Nat :=
  wqe.findSome? Mlx5Segment.byteCount?

/-! ### The size of a WQE -/

namespace SegmentBuilder

theorem length_updateConnectionSeg (pe : Nat) (connPolicy : ConnectionImpl) :
    (updateConnectionSeg pe connPolicy).length = connPolicy.wqeCntrlOffset := by
  cases connPolicy <;> rfl

/-- The DS count reaches byte 7 whole: it is below 64, and `ctrl_qp_sq`
    has nothing above bit 23. -/
theorem dsField_updateCntrlSeg (opcode : Mlx5Opcode) (wqeIdx : UInt16) {ctrlQpSq : UInt32}
    (ctrlSig : UInt64) (connectionPolicy : ConnectionImpl) (zeroByteRd : Bool)
    (hq : ctrlQpSq.toNat < 2 ^ 24) :
    (updateCntrlSeg opcode wqeIdx ctrlQpSq ctrlSig connectionPolicy zeroByteRd).dsField =
      some (dsCount opcode connectionPolicy zeroByteRd) := by
  have hds : dsCount opcode connectionPolicy zeroByteRd < 64 := by
    unfold dsCount
    cases connectionPolicy <;> split_ifs <;> simp [ConnectionImpl.wqeCntrlOffset]
  have hshift : (UInt32.ofNat (dsCount opcode connectionPolicy zeroByteRd) <<< 24).toNat =
      dsCount opcode connectionPolicy zeroByteRd * 2 ^ 24 := by
    simp only [UInt32.toNat_shiftLeft, UInt32.toNat_ofNat', Nat.shiftLeft_eq]
    have h24 : (24 : UInt32).toNat % 32 = 24 := rfl
    rw [h24, Nat.mod_eq_of_lt (show dsCount opcode connectionPolicy zeroByteRd < 2 ^ 32 by omega),
      Nat.mod_eq_of_lt (by omega)]
  simp only [updateCntrlSeg, Mlx5Segment.dsField, Option.some.injEq]
  -- the count and the queue pair number occupy disjoint bits
  rw [UInt32.toNat_or, hshift, ← Nat.shiftLeft_eq, ← Nat.shiftLeft_add_eq_or_of_lt hq,
    Nat.shiftRight_eq_div_pow, Nat.shiftLeft_eq]
  omega

end SegmentBuilder

namespace QpPost

open SegmentBuilder QueuePair

variable (qp : QpPostFields) (pe : Nat) (baseHeap hdpAddress : Nat → Nat) (mySqCounter : Nat)

/-- Every post starts with its control segment. -/
theorem head?_segments (post : QpPost) :
    (post.segments qp pe baseHeap hdpAddress mySqCounter).head? =
      some (updateCntrlSeg post.opcode (swapEndianStoreU16 (UInt16.ofNat mySqCounter))
        qp.ctrlQpSq qp.ctrlSig qp.connectionPolicy post.zeroByteRd) := by
  cases post with
  | atomic dest value cond cas atomicRetPos => cases cas <;> rfl
  | _ => rfl

/-- A post writes as many segments as its DS count says, once its local
    buffer is not null. -/
theorem length_segments {post : QpPost} (hlocal : post.LocalNonNull) :
    (post.segments qp pe baseHeap hdpAddress mySqCounter).length =
      dsCount post.opcode qp.connectionPolicy post.zeroByteRd := by
  simp only [segments]
  cases post with
  | putNbi dest source nelems =>
    -- inline when short, by reference otherwise: one segment either way
    simp only [LocalNonNull] at hlocal
    simp [postedSegments, dsCount, opcode, zeroByteRd, updateDataSeg, hlocal,
      length_updateConnectionSeg]
    split_ifs <;> simp <;> omega
  | getNbi dest source nelems =>
    simp only [LocalNonNull] at hlocal
    simp [postedSegments, dsCount, opcode, zeroByteRd, updateDataSeg, hlocal,
      length_updateConnectionSeg]
    omega
  | zeroBRd =>
    -- no local address: no data segment
    simp [postedSegments, dsCount, zeroByteRd, updateDataSeg, length_updateConnectionSeg]
    omega
  | atomic dest value cond cas atomicRetPos =>
    -- the result goes to the atomic region, by reference
    cases cas <;>
      simp [postedSegments, dsCount, opcode, zeroByteRd, updateDataSeg,
        qp.atomicBasePtr_pos.ne', length_updateConnectionSeg] <;> omega
  | fence =>
    -- the flush value, inline
    simp [postedSegments, dsCount, opcode, zeroByteRd, length_updateConnectionSeg,
      inlineThreshold]
    omega

end QpPost

namespace SegmentBuilder

/-- The DS count fits the slots a post reserves, and fills its last one. -/
theorem dsCount_getNumWqes (opcode : Mlx5Opcode) (connectionPolicy : ConnectionImpl)
    (zeroByteRd : Bool) (hz : zeroByteRd = true → opcode = .rdmaRead) :
    segmentsPerWqe * (connectionPolicy.getNumWqes opcode - 1) <
        dsCount opcode connectionPolicy zeroByteRd ∧
      dsCount opcode connectionPolicy zeroByteRd ≤
        segmentsPerWqe * connectionPolicy.getNumWqes opcode := by
  unfold dsCount segmentsPerWqe
  cases connectionPolicy <;> cases opcode <;> cases zeroByteRd <;>
    simp_all [ConnectionImpl.getNumWqes, ConnectionImpl.wqeCntrlOffset]

end SegmentBuilder

open SegmentBuilder

/-- A DC queue pair whose keys and targets are all zero, with the atomic
    region at address 8. -/
def dcPostFields : QpPostFields where
  ctrlQpSq := 0
  ctrlSig := 0
  rkey := 0
  lkey := 0
  hdpRkey := fun _ => 0
  atomicBasePtr := 8
  atomicLkey := 0
  connectionPolicy := .dc (fun _ => 0) (fun _ => 0) (fun _ => 0)
  atomicBasePtr_pos := by decide
  ctrlQpSq_lt := by decide

/-- The DS field of every WQE a queue pair posts counts the segments the
    post writes, on either connection, and the segments fit the WQE slots
    the post reserves. -/
theorem wqe_ds_counts_segments (qp : QpPostFields) (pe : Nat) (baseHeap hdpAddress : Nat → Nat)
    (mySqCounter : Nat) (post : QpPost) (hlocal : post.LocalNonNull) :
    (post.segments qp pe baseHeap hdpAddress mySqCounter).head?.bind Mlx5Segment.dsField =
        some (post.segments qp pe baseHeap hdpAddress mySqCounter).length ∧
      (post.segments qp pe baseHeap hdpAddress mySqCounter).length ≤
        segmentsPerWqe * qp.connectionPolicy.getNumWqes post.opcode := by
  rw [QpPost.head?_segments, Option.bind_some, dsField_updateCntrlSeg _ _ _ _ _ qp.ctrlQpSq_lt,
    QpPost.length_segments qp pe baseHeap hdpAddress mySqCounter hlocal]
  exact ⟨rfl, (dsCount_getNumWqes _ _ _ post.opcode_of_zeroByteRd).2⟩

/-- A put of sixteen bytes on DC: an address vector makes four segments. -/
theorem dc_put_ds_counts_four :
    ((QpPost.putNbi 0 1 16).segments dcPostFields 0 (fun _ => 0) (fun _ => 0) 0).head?.bind
        Mlx5Segment.dsField = some 4 := by
  have h := (wqe_ds_counts_segments dcPostFields 0 (fun _ => 0) (fun _ => 0) 0
    (.putNbi 0 1 16) Nat.one_ne_zero).1
  rw [h]
  rfl

/-- A WQE stays inside a send queue of `max_nwqe` slots exactly when the
    slots its post reserves do: on RC always, on DC not for an atomic that
    starts in the last slot, whose fifth segment nothing wraps around. -/
theorem wqe_within_sq_iff (qp : QpPostFields) (pe : Nat) (baseHeap hdpAddress : Nat → Nat)
    (maxNwqe mySqCounter : Nat) (post : QpPost) (hlocal : post.LocalNonNull) (hM : 0 < maxNwqe) :
    (∀ i < (post.segments qp pe baseHeap hdpAddress mySqCounter).length,
        segmentIndex (mySqCounter % maxNwqe) i < segmentsPerWqe * maxNwqe) ↔
      mySqCounter % maxNwqe + qp.connectionPolicy.getNumWqes post.opcode ≤ maxNwqe := by
  obtain ⟨hlo, hhi⟩ := dsCount_getNumWqes post.opcode qp.connectionPolicy post.zeroByteRd
    post.opcode_of_zeroByteRd
  rw [QpPost.length_segments qp pe baseHeap hdpAddress mySqCounter hlocal]
  have hidx : mySqCounter % maxNwqe < maxNwqe := Nat.mod_lt _ hM
  unfold segmentIndex
  unfold segmentsPerWqe at hlo hhi ⊢
  constructor
  · -- the last segment bounds the others
    intro hall
    have hlast := hall (dsCount post.opcode qp.connectionPolicy post.zeroByteRd - 1) (by omega)
    omega
  · intro hfit i hi
    omega

/-- On DC, a fetching atomic posted at the last of four slots runs past the
    send queue. -/
theorem dc_atomic_last_slot_overruns :
    ¬ ∀ i < ((QpPost.atomic 0 0 0 false 0).segments dcPostFields 0 (fun _ => 0) (fun _ => 0)
        3).length, segmentIndex (3 % 4) i < segmentsPerWqe * 4 :=
  (wqe_within_sq_iff dcPostFields 0 (fun _ => 0) (fun _ => 0) 4 3 (.atomic 0 0 0 false 0)
    trivial (by decide)).not.mpr (by decide)

/-! ### The bytes a WQE transfers -/

theorem swapEndianStoreU32_swapEndianStoreU32 (v : UInt32) :
    swapEndianStoreU32 (swapEndianStoreU32 v) = v :=
  involutive_of_eq_swapEndianStore uint32Repr swapEndianStoreU32_eq v

/-- The size as `int32_t` keeps the low 32 bits. -/
theorem toNat_toUInt32_ofNat (n : Nat) : (Int32.ofNat n).toUInt32.toNat = n % 2 ^ 32 := by
  rw [Int32.toUInt32_ofNat', UInt32.toNat_ofNat']

theorem ofNat_eq_zero_iff (n : Nat) : Int32.ofNat n = 0 ↔ n % 2 ^ 32 = 0 := by
  rw [← Int32.toInt_inj, Int32.toInt_ofNat', Int32.toInt_zero, Int.bmod_def]
  simp only [Int32.size]
  split_ifs <;> omega

/-- A size is at most `inline_threshold` when it is or when, as an
    `int32_t`, it is negative. -/
theorem ofNat_le_inlineThreshold_iff (n : Nat) :
    Int32.ofNat n ≤ QueuePair.inlineThreshold ↔ n % 2 ^ 32 ≤ 8 ∨ 2 ^ 31 ≤ n % 2 ^ 32 := by
  rw [Int32.le_iff_toInt_le, Int32.toInt_ofNat', Int.bmod_def,
    show QueuePair.inlineThreshold.toInt = 8 from rfl]
  simp only [Int32.size]
  split_ifs <;> omega

/-- An inline segment's count has ten bits of the size. -/
theorem byteCount?_updateInlDataSeg (laddr : Nat) (size : Int32) :
    (updateInlDataSeg laddr size).byteCount? = some (size.toUInt32.toNat % 2 ^ 10) := by
  simp only [updateInlDataSeg, Mlx5Segment.byteCount?, Option.some.injEq]
  -- the NIC drops the inline bit the builder sets
  rw [swapEndianStoreU32_swapEndianStoreU32, UInt32.toNat_or, UInt32.toNat_and,
    show (0x7FFFFFFF : Nat) = 2 ^ 31 - 1 from rfl, Nat.and_two_pow_sub_one_eq_mod,
    show (UInt32.toNat 0x3FF) = 2 ^ 10 - 1 from rfl, Nat.and_two_pow_sub_one_eq_mod,
    Nat.or_mod_two_pow, show (UInt32.toNat 0x80000000) % 2 ^ 31 = 0 from rfl, Nat.or_zero]
  omega

/-- A data segment's count has 31 bits of the size. -/
theorem transferBytes_updateDataSeg {laddr : Nat} (size : Int32) (lkey : UInt32) (h : laddr ≠ 0) :
    transferBytes (updateDataSeg laddr size lkey) = some (size.toUInt32.toNat % 2 ^ 31) := by
  simp only [updateDataSeg, if_neg h, transferBytes, List.findSome?_cons, Mlx5Segment.byteCount?,
    Option.some.injEq]
  rw [swapEndianStoreU32_swapEndianStoreU32, UInt32.toNat_and,
    show (UInt32.toNat 0x7FFFFFFF) = 2 ^ 31 - 1 from rfl, Nat.and_two_pow_sub_one_eq_mod,
    show (0x7FFFFFFF : Nat) = 2 ^ 31 - 1 from rfl, Nat.and_two_pow_sub_one_eq_mod, Nat.mod_mod]

/-- The control, address-vector and remote-address segments carry no
    count: the count is the local data's. -/
theorem transferBytes_postedSegments (qp : QpPostFields) (pe : Nat) (size : Int32)
    (laddr raddr : Nat) (opcode : Mlx5Opcode) (zeroByteRd : Bool) (mySqCounter : Nat)
    (hop : opcode = .rdmaWrite ∨ opcode = .rdmaRead) :
    transferBytes
        (QueuePair.postedSegments qp pe size laddr raddr opcode 0 0 0 zeroByteRd mySqCounter) =
      transferBytes
        (let size := if opcode = .rdmaWrite ∧ size = 0 then 4 else size
        if size ≤ QueuePair.inlineThreshold ∧ opcode = .rdmaWrite then
          [updateInlDataSeg laddr size]
        else updateDataSeg laddr size qp.lkey) := by
  have hconn : (updateConnectionSeg pe qp.connectionPolicy).findSome? Mlx5Segment.byteCount? =
      none := by
    cases qp.connectionPolicy <;> rfl
  have hatomic : ¬ (opcode = .atomicFa ∨ opcode = .atomicCs) := by
    rcases hop with rfl | rfl <;> simp
  simp only [QueuePair.postedSegments, transferBytes, List.findSome?_append, hconn, hatomic,
    decide_false, Bool.false_eq_true, if_false]
  simp [updateCntrlSeg, updateRdmaSeg, Mlx5Segment.byteCount?]

section Rma

variable (qp : QpPostFields) (pe : Nat) (baseHeap hdpAddress : Nat → Nat) (mySqCounter : Nat)

/-- The count of a put's WQE: four bytes for a size that is zero as an
    `int32_t`, then the low bits of the size, ten of them inline and 31 by
    reference. -/
theorem transferBytes_putNbi (dest : Nat) {source : Nat} (nelems : Nat) (hsrc : source ≠ 0) :
    transferBytes ((QpPost.putNbi dest source nelems).segments qp pe baseHeap hdpAddress
      mySqCounter) =
      some (if nelems % 2 ^ 32 = 0 then 4
        else if nelems % 2 ^ 32 ≤ 8 ∨ 2 ^ 31 ≤ nelems % 2 ^ 32 then nelems % 2 ^ 32 % 2 ^ 10
        else nelems % 2 ^ 32 % 2 ^ 31) := by
  rw [QpPost.segments, transferBytes_postedSegments _ _ _ _ _ _ _ _ (.inl rfl)]
  by_cases h0 : nelems % 2 ^ 32 = 0
  · -- the HDP flush of `fence`: four bytes, inline
    have hz : Int32.ofNat nelems = 0 := (ofNat_eq_zero_iff nelems).mpr h0
    simp only [hz, and_self, and_true, if_true, if_pos h0]
    rw [if_pos (by decide)]
    simp only [transferBytes, List.findSome?_cons, byteCount?_updateInlDataSeg]
    decide
  · have hz : Int32.ofNat nelems ≠ 0 := fun h => h0 ((ofNat_eq_zero_iff nelems).mp h)
    simp only [hz, and_false, and_true, if_false, if_neg h0]
    by_cases hin : nelems % 2 ^ 32 ≤ 8 ∨ 2 ^ 31 ≤ nelems % 2 ^ 32
    · rw [if_pos ((ofNat_le_inlineThreshold_iff nelems).mpr hin), if_pos hin]
      simp only [transferBytes, List.findSome?_cons, byteCount?_updateInlDataSeg,
        toNat_toUInt32_ofNat]
    · rw [if_neg (fun h => hin ((ofNat_le_inlineThreshold_iff nelems).mp h)), if_neg hin,
        transferBytes_updateDataSeg _ _ hsrc, toNat_toUInt32_ofNat]

/-- The count of a get's WQE: 31 bits of the size, never inline. -/
theorem transferBytes_getNbi (dest : Nat) {source : Nat} (nelems : Nat) (hsrc : source ≠ 0) :
    transferBytes ((QpPost.getNbi dest source nelems).segments qp pe baseHeap hdpAddress
      mySqCounter) = some (nelems % 2 ^ 32 % 2 ^ 31) := by
  rw [QpPost.segments, transferBytes_postedSegments _ _ _ _ _ _ _ _ (.inr rfl)]
  simp only [reduceCtorEq, false_and, and_false, if_false]
  rw [transferBytes_updateDataSeg _ _ hsrc, toNat_toUInt32_ofNat]

/-- The NIC transfers the bytes a put asks for exactly when there are some
    and fewer than `2 ^ 31` of them, and those of a get exactly when there
    are fewer than `2 ^ 31`. -/
theorem rma_wqe_byte_count_iff (dest : Nat) {source : Nat} (nelems : Nat) (hsrc : source ≠ 0) :
    (transferBytes ((QpPost.putNbi dest source nelems).segments qp pe baseHeap hdpAddress
        mySqCounter) = some nelems ↔ 0 < nelems ∧ nelems < 2 ^ 31) ∧
      (transferBytes ((QpPost.getNbi dest source nelems).segments qp pe baseHeap hdpAddress
        mySqCounter) = some nelems ↔ nelems < 2 ^ 31) := by
  rw [transferBytes_putNbi qp pe baseHeap hdpAddress mySqCounter dest nelems hsrc,
    transferBytes_getNbi qp pe baseHeap hdpAddress mySqCounter dest nelems hsrc,
    Option.some.injEq, Option.some.injEq]
  constructor
  · split_ifs <;> omega
  · omega

/-- A put of no bytes does not transfer no bytes. -/
theorem put_nbi_no_bytes_count_ne :
    transferBytes ((QpPost.putNbi 0 1 0).segments dcPostFields 0 (fun _ => 0) (fun _ => 0) 0) ≠
      some 0 := by
  intro h
  have hpos := ((rma_wqe_byte_count_iff dcPostFields 0 (fun _ => 0) (fun _ => 0) 0 0 0
    Nat.one_ne_zero).1.mp h).1
  exact Nat.lt_irrefl 0 hpos

/-- A put of no bytes, or of a multiple of `2 ^ 32`, posts a write of four
    bytes copied from its source to its destination, under the key of the
    remote HDP. -/
theorem put_nbi_zero_bytes_hdp_flush (dest : Nat) {source : Nat} {nelems : Nat}
    (hsrc : source ≠ 0) (hzero : nelems % 2 ^ 32 = 0) :
    (QpPost.putNbi dest source nelems).segments qp pe baseHeap hdpAddress mySqCounter =
      [updateCntrlSeg .rdmaWrite (swapEndianStoreU16 (UInt16.ofNat mySqCounter)) qp.ctrlQpSq
          qp.ctrlSig qp.connectionPolicy false] ++
        updateConnectionSeg pe qp.connectionPolicy ++
        [updateRdmaSeg dest (qp.hdpRkey pe), .inlData (swapEndianStoreU32 0x80000004)
          (.copy source 4)] := by
  have hz : Int32.ofNat nelems = 0 := (ofNat_eq_zero_iff nelems).mpr hzero
  simp only [QpPost.segments, QueuePair.postedSegments, hz, and_self, decide_true, if_true,
    reduceCtorEq, or_self, decide_false, Bool.false_eq_true, if_false, List.append_nil, and_true]
  rw [if_pos (by decide)]
  simp [updateInlDataSeg, hsrc]
  rfl

end Rma

end RocShmem
