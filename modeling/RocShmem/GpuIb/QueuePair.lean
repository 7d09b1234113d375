import Mathlib
import RocShmem.Lib.Transition
import RocShmem.Lib.PhaseRing
import RocShmem.GpuIb.Endian

/-!
# The Queue Pairs of the GPU-IB Backend

A GPU thread of the GPU-IB backend talks to the NIC through a queue pair
(`gpu_ib/queue_pair.cpp`). It writes each work queue entry (WQE) into slot
`sq_counter % max_nwqe` of the send queue and rings the doorbell, which
tells the NIC how many WQEs there are; the NIC executes them in order. A
WQE whose control segment asks for a completion makes the NIC write a
completion queue entry (CQE) once it has executed it, into slot
`k % cq_size` of the completion queue for the `k`-th such CQE, with the
parity of `k / cq_size` as the owner bit of its `op_own`.

The thread keeps `quiet_counter`, the number of WQEs it asked a completion
for and has not waited for yet, and `cq_consumer_counter`, the number of
CQEs it has waited for. `quiet_internal` jumps to the last outstanding CQE
and spins until the owner bit there has the parity of its counter: the
owner bit is the only sign that the slot has been refilled in this
revolution (`Lib/PhaseRing`). Completions are only asked for where the
caller needs one (`put_nbi_cqe`, `zero_b_rd`, the atomics, `fence`) and on
one WQE in every `max_nwqe` (`update_wqe_ce_single<false>`). Every
`max_nwqe` posts, `waitSQSpace` forces a quiet, so that the send queue
does not overrun.

The model (`QpSystem`) has the queue pair of one thread (`THREAD` of the
single-thread policy, on a reliable connection: one WQE per post), the
send and completion queue memory, and the NIC, which executes the WQEs the
doorbell has announced, in order, and writes the CQEs. Ghost fields record
the WQEs posted and the CQE each completion slot last received; no step
reads them. A step is one post, one quiet, or one WQE executed by the NIC
(`QpStep`). The spin loops become guards: a post whose `waitSQSpace`
forces a quiet, and a quiet, take place once the awaited CQE is valid.

A post writes its slot whether or not the NIC has executed the WQE the
slot last held, and the code can overwrite one it has not
(`sq_overrun_reachable`). The completion results are about runs in which
no post does (`InRoom`, `QpRoomStep`): a named hypothesis on the run, an
assumption on the NIC's speed. `sq_reuse_after_forced_quiet` shows that in
such a run the forced quiets give the next post room too, unless its WQE
number is `max_nwqe - 2` modulo `max_nwqe`.

The invariant (`QpInv`) holds in every state such a run reaches, on a
queue pair whose completion queue has at least `max_nwqe` entries. With it,
the owner bit test of `quiet_internal` is exact: its wait ends exactly when
the NIC has executed every WQE that asked for a completion
(`quietDone_iff_signaled_executed`).

## Main definitions

* `QpConfig`: The sizes of the queues and the doorbell template.
* `QpSystem`: The queue pair, the queue memory, the NIC and the history.
* `QpSystem.quietInternal`, `QpSystem.waitSqSpace`, `QpSystem.post`: The
  thread's side.
* `QpSystem.nicExecute`: The NIC's side.
* `ThreadStep`, `NicStep`, `QpStep`: The steps of both.
* `InRoom`, `RoomStep`, `QpRoomStep`: The steps of a run in which no post
  overwrites a WQE the NIC has not executed.
* `QpInv`: The invariant.

## Theorems

* `QpInv.step`: Every step keeps the invariant.
* `qpInv_reachable`: The invariant holds in every state a run without
  overrun reaches.
* `quietDone_iff_signaled_executed`: The wait of `quiet_internal` ends
  exactly when every WQE that asked for a completion has been executed.
* `completions_accounted`: Every completion asked for is waited for or
  outstanding, and the completion queue is never overrun.
* `sq_reuse_after_forced_quiet`: The forced quiets keep the send queue from
  being overrun, except at WQE numbers `max_nwqe - 2` modulo `max_nwqe`.
* `sq_overrun_reachable`: There, a post can overwrite a WQE the NIC has
  not executed.
-/

namespace RocShmem

open Transition

/-- The work-request opcodes a queue pair posts (`MLX5_OPCODE_*` of
    `mlx5dv.h`). -/
inductive Mlx5Opcode where
  | rdmaWrite
  | rdmaRead
  | atomicCs
  | atomicFa
  deriving DecidableEq, Repr

/-- The opcode's value in the control segment. -/
def Mlx5Opcode.toUInt8 : Mlx5Opcode → UInt8
  | .rdmaWrite => 0x08
  | .rdmaRead => 0x10
  | .atomicCs => 0x11
  | .atomicFa => 0x12

/-- The constants of a queue pair, set by `init_gpu_qp_from_connection`:
    the `max_nwqe` WQE slots of the send queue, the `cq_size` entries of the
    completion queue with `cq_log_size` its logarithm, and `db_val`, the
    doorbell template. -/
structure QpConfig where
  maxNwqe : Nat
  cqLogSize : Nat
  cqSize : Nat
  dbVal : UInt64
  two_le_maxNwqe : 2 ≤ maxNwqe
  cqSize_eq : cqSize = 2 ^ cqLogSize

/-- What the NIC reads of a WQE: the WQE counter of its control segment,
    its opcode, and whether `fm_ce_se` asks for a completion
    (`MLX5_WQE_CTRL_CQ_UPDATE`). -/
structure Wqe where
  wqeIdx : UInt16
  opcode : Mlx5Opcode
  ce : Bool
  deriving DecidableEq, Repr

/-- A queue pair of one thread, its queues, and the NIC. -/
structure QpSystem where
  /-- `sq_counter`: the WQEs posted. -/
  sqCounter : Nat
  /-- `local_sq_cnt`: the posts since the last forced quiet. -/
  localSqCnt : Nat
  /-- `quiet_counter`: the completions asked for and not yet waited for. -/
  quietCounter : Nat
  /-- `cq_consumer_counter`: the CQEs waited for. -/
  cqConsumerCounter : Nat
  /-- `*dbrec_send`: the WQEs announced to the NIC. -/
  dbrecSend : Nat
  /-- `*dbrec_cq`. -/
  dbrecCq : Nat
  /-- The last value stored through `db.ptr`. -/
  bfReg : UInt64
  /-- `db.uint`, the BlueFlame buffer, alternating between two halves. -/
  dbUint : Nat
  /-- `current_sq`, WQE slot by WQE slot. -/
  sq : Nat → Option Wqe
  /-- The `op_own` byte of each slot of `current_cq_q`. -/
  cqOpOwn : Nat → UInt8
  /-- The WQEs the NIC has executed. -/
  executed : Nat
  /-- The CQEs the NIC has written. -/
  produced : Nat
  /-- History: the WQEs posted, in order. -/
  posted : List Wqe
  /-- History: the number of the CQE each completion slot last received. -/
  cqes : Nat → Option Nat

namespace QpSystem

variable (c : QpConfig)

/-- `compute_db_val_opcode`: the doorbell template with the WQE counter in
    bytes 1 and 2 and the opcode or-ed into byte 3. -/
def computeDbValOpcode (dbVal : UInt64) (dbrecVal : UInt16) (opcode : UInt8) : UInt64 :=
  let opcode64 : UInt64 := (opcode.toUInt64 <<< 24) &&& (0x000000FFFF000000 : UInt64)
  let dbrec : UInt64 := (dbrecVal.toUInt64 <<< 8) &&& (0x0000000000FFFF00 : UInt64)
  let val : UInt64 := dbVal &&& (0xFFFFFFFFFF0000FF : UInt64)
  val ||| dbrec ||| opcode64

/-- The test `quiet_internal` spins on, negated: the owner bit of `op_own`
    is the parity of the counter's revolution, and the opcode is not
    `MLX5_CQE_INVALID`. -/
def cqeValid (ccc : Nat) (opOwn : UInt8) : Bool :=
  (opOwn.toNat &&& 1 == (ccc >>> c.cqLogSize) &&& 1) && !(opOwn.toNat >>> 4 == 0xF)

/-- The counter `quiet_internal` waits at: the last outstanding CQE. -/
def quietTarget (s : QpSystem) : Nat := s.cqConsumerCounter + s.quietCounter - 1

/-- The wait of `quiet_internal` is over: there is nothing to quiet, or the
    CQE at its counter is valid. -/
def quietDone (s : QpSystem) : Bool :=
  s.quietCounter == 0 || cqeValid c (quietTarget s) (s.cqOpOwn (quietTarget s % c.cqSize))

/-- `quiet_internal<THREAD>` once its wait is over. -/
def quietInternal (s : QpSystem) : QpSystem :=
  -- `if (!quiet_val) return;`
  if s.quietCounter = 0 then s
  else
    -- `cq_consumer_counter + quiet_val - 1`, where the wait takes place
    let ccc := s.cqConsumerCounter + s.quietCounter - 1
    -- `decQuietCounter(&quiet_counter, quiet_val); cq_consumer_counter++;`
    -- and `dbrec_cq` gets the new counter
    { s with quietCounter := s.quietCounter - s.quietCounter, cqConsumerCounter := ccc + 1,
             dbrecCq := ccc + 1 }

/-- `waitSQSpace(num_msgs)` forces a quiet. -/
def forcesQuiet (numMsgs : Nat) (s : QpSystem) : Bool :=
  (s.localSqCnt + numMsgs) / c.maxNwqe > 0

/-- `waitSQSpace(num_msgs)`, with the quiet it may force. -/
def waitSqSpace (numMsgs : Nat) (s : QpSystem) : QpSystem :=
  let localSqCnt := s.localSqCnt + numMsgs
  if localSqCnt / c.maxNwqe > 0 then
    { quietInternal s with localSqCnt := localSqCnt % c.maxNwqe }
  else { s with localSqCnt := localSqCnt }

/-- `set_completion_flag_on_wqe(num_wqes)`: byte 11 of the post's first
    WQE, its `fm_ce_se`, asks for a completion. -/
def setCompletionFlagOnWqe (numWqes : Nat) (s : QpSystem) : QpSystem :=
  let slot := (s.sqCounter - numWqes) % c.maxNwqe
  { s with sq := Function.update s.sq slot ((s.sq slot).map fun w => { w with ce := true }) }

/-- `update_wqe_ce_single<cqe>(num_wqes)`: a completion when the caller asks
    for one, and on the post that brings `sq_counter` to `max_nwqe - 2`
    modulo `max_nwqe`. -/
def updateWqeCeSingle (cqe : Bool) (numWqes : Nat) (s : QpSystem) : QpSystem :=
  if cqe || s.sqCounter % c.maxNwqe == c.maxNwqe - 2 then
    { setCompletionFlagOnWqe c numWqes s with quietCounter := s.quietCounter + 1 }
  else s

/-- `ring_doorbell(db_val)`: the doorbell record gets `sq_counter`, and
    `db_val` goes to the BlueFlame buffer, which alternates. -/
def ringDoorbell (dbVal : UInt64) (s : QpSystem) : QpSystem :=
  { s with dbrecSend := s.sqCounter, bfReg := dbVal, dbUint := s.dbUint ^^^ 256 }

/-- `SingleThreadImpl::finishPost<cqe>` with `ring_db` set. -/
def finishPost (cqe : Bool) (numWqes : Nat) (leSqCounter : UInt16) (opcode : Mlx5Opcode)
    (s : QpSystem) : QpSystem :=
  let dbVal := computeDbValOpcode c.dbVal leSqCounter opcode.toUInt8
  ringDoorbell dbVal (updateWqeCeSingle c cqe numWqes s)

/-- `update_posted_wqe_generic<THREAD, cqe>` with `ring_db`, after its
    `postLock`, on a reliable connection. -/
def updatePostedWqe (cqe : Bool) (opcode : Mlx5Opcode) (s : QpSystem) : QpSystem :=
  -- `connection_policy.getNumWqes(opcode)`: one WQE on a reliable connection
  let numWqes := 1
  let mySqCounter := s.sqCounter
  let s := { s with sqCounter := mySqCounter + numWqes }
  -- the 16-bit WQE counter, big-endian, for the control segment
  let leSqCounter := swapEndianStoreU16 (UInt16.ofNat mySqCounter)
  -- `SegmentBuilder` fills slot `my_sq_index`; the template's `fm_ce_se`
  -- asks for no completion
  let s := { s with
    sq := Function.update s.sq (mySqCounter % c.maxNwqe) (some ⟨leSqCounter, opcode, false⟩) }
  finishPost c cqe numWqes leSqCounter opcode s

/-- A post of the thread level: `postLock`, whose `waitSQSpace(1)` may
    quiet, then the WQE. -/
def post (cqe : Bool) (opcode : Mlx5Opcode) (s : QpSystem) : QpSystem :=
  updatePostedWqe c cqe opcode (waitSqSpace c 1 s)

/-- The post asks for a completion. -/
def signaled (cqe : Bool) (s : QpSystem) : Bool :=
  cqe || (s.sqCounter + 1) % c.maxNwqe == c.maxNwqe - 2

/-- The WQE a post leaves in its slot. -/
def postedWqe (cqe : Bool) (opcode : Mlx5Opcode) (s : QpSystem) : Wqe :=
  ⟨swapEndianStoreU16 (UInt16.ofNat s.sqCounter), opcode, signaled c cqe s⟩

/-- The NIC executes WQE number `executed`, read from its slot. When the
    WQE asks for a completion, it writes CQE number `produced`, whose
    `op_own` has the opcode `op` and the owner bit of its revolution. -/
def nicExecute (op : Nat) (s : QpSystem) : QpSystem :=
  match s.sq (s.executed % c.maxNwqe) with
  | none => s
  | some w =>
    if w.ce then
      { s with executed := s.executed + 1, produced := s.produced + 1,
               cqOpOwn := Function.update s.cqOpOwn (s.produced % c.cqSize)
                 (UInt8.ofNat (op * 16 + PhaseRing.phase c.cqLogSize s.produced)),
               cqes := PhaseRing.write c.cqLogSize s.produced s.cqes }
    else { s with executed := s.executed + 1 }

/-- A fresh queue pair: empty queues, every CQE invalid (`op_own` 0xF0). -/
def init : QpSystem where
  sqCounter := 0
  localSqCnt := 0
  quietCounter := 0
  cqConsumerCounter := 0
  dbrecSend := 0
  dbrecCq := 0
  bfReg := 0
  dbUint := 0
  sq := fun _ => none
  cqOpOwn := fun _ => 0xF0
  executed := 0
  produced := 0
  posted := []
  cqes := fun _ => none

/-! ### What each call does to the state -/

variable {c}

/-- `quiet_internal` consumes every outstanding completion. -/
theorem quietInternal_eq (s : QpSystem) : ∃ d, quietInternal s =
    { s with quietCounter := 0, cqConsumerCounter := s.cqConsumerCounter + s.quietCounter,
             dbrecCq := d } := by
  unfold quietInternal
  split
  · rename_i h0
    refine ⟨s.dbrecCq, ?_⟩
    cases s
    simp_all
  · refine ⟨s.cqConsumerCounter + s.quietCounter, ?_⟩
    have hccc : s.cqConsumerCounter + s.quietCounter - 1 + 1 =
        s.cqConsumerCounter + s.quietCounter := by omega
    simp only [Nat.sub_self, hccc]

theorem forcesQuiet_eq_false_iff (s : QpSystem) :
    forcesQuiet c 1 s = false ↔ s.localSqCnt + 1 < c.maxNwqe := by
  have hM := c.two_le_maxNwqe
  rw [forcesQuiet, decide_eq_false_iff_not, gt_iff_lt, Nat.div_pos_iff]
  omega

/-- `waitSQSpace(1)` counts the post, and quiets when the count reaches
    `max_nwqe`. -/
theorem waitSqSpace_eq (s : QpSystem) : ∃ d, waitSqSpace c 1 s = { s with
    localSqCnt := (s.localSqCnt + 1) % c.maxNwqe,
    quietCounter := if forcesQuiet c 1 s then 0 else s.quietCounter,
    cqConsumerCounter :=
      if forcesQuiet c 1 s then s.cqConsumerCounter + s.quietCounter else s.cqConsumerCounter,
    dbrecCq := d } := by
  cases hf : forcesQuiet c 1 s
  · have hlt := (forcesQuiet_eq_false_iff s).mp hf
    refine ⟨s.dbrecCq, ?_⟩
    simp only [waitSqSpace, Nat.div_eq_of_lt hlt, Nat.mod_eq_of_lt hlt]
    cases s
    simp
  · obtain ⟨d, hq⟩ := quietInternal_eq s
    refine ⟨d, ?_⟩
    have hpos : (s.localSqCnt + 1) / c.maxNwqe > 0 := by simpa [forcesQuiet] using hf
    simp only [waitSqSpace, if_pos hpos, hq]
    simp

/-- A post writes its WQE, with the flag of `signaled`, into slot
    `sq_counter % max_nwqe`, counts the completion it asks for, and rings
    the doorbell. -/
theorem updatePostedWqe_eq (cqe : Bool) (opcode : Mlx5Opcode) (s : QpSystem) :
    updatePostedWqe c cqe opcode s = { s with
      sqCounter := s.sqCounter + 1,
      quietCounter := s.quietCounter + if signaled c cqe s then 1 else 0,
      dbrecSend := s.sqCounter + 1,
      bfReg := computeDbValOpcode c.dbVal (swapEndianStoreU16 (UInt16.ofNat s.sqCounter))
        opcode.toUInt8,
      dbUint := s.dbUint ^^^ 256,
      sq := Function.update s.sq (s.sqCounter % c.maxNwqe) (some (postedWqe c cqe opcode s)) } := by
  cases hsig : signaled c cqe s
  · -- the template's WQE, which asks for no completion
    have hcond : (cqe || (s.sqCounter + 1) % c.maxNwqe == c.maxNwqe - 2) = false := hsig
    simp [updatePostedWqe, finishPost, updateWqeCeSingle, ringDoorbell, postedWqe, hsig, hcond]
  · -- `set_completion_flag_on_wqe` flags the slot just written
    have hcond : (cqe || (s.sqCounter + 1) % c.maxNwqe == c.maxNwqe - 2) = true := hsig
    simp [updatePostedWqe, finishPost, updateWqeCeSingle, setCompletionFlagOnWqe, ringDoorbell,
      postedWqe, hsig, hcond]

/-- A whole post: the quiet `waitSQSpace` may force, then the WQE. -/
theorem post_eq (cqe : Bool) (opcode : Mlx5Opcode) (s : QpSystem) : ∃ d, post c cqe opcode s =
    { s with
      sqCounter := s.sqCounter + 1,
      localSqCnt := (s.localSqCnt + 1) % c.maxNwqe,
      quietCounter :=
        (if forcesQuiet c 1 s then 0 else s.quietCounter) + if signaled c cqe s then 1 else 0,
      cqConsumerCounter :=
        if forcesQuiet c 1 s then s.cqConsumerCounter + s.quietCounter else s.cqConsumerCounter,
      dbrecSend := s.sqCounter + 1, dbrecCq := d,
      bfReg := computeDbValOpcode c.dbVal (swapEndianStoreU16 (UInt16.ofNat s.sqCounter))
        opcode.toUInt8,
      dbUint := s.dbUint ^^^ 256,
      sq := Function.update s.sq (s.sqCounter % c.maxNwqe) (some (postedWqe c cqe opcode s)) } := by
  obtain ⟨d, hw⟩ := waitSqSpace_eq (c := c) s
  exact ⟨d, by rw [post, hw, updatePostedWqe_eq]; rfl⟩

/-- The NIC's step on the WQE its slot holds. -/
theorem nicExecute_of_sq {op : Nat} {s : QpSystem} {w : Wqe}
    (h : s.sq (s.executed % c.maxNwqe) = some w) : nicExecute c op s =
      if w.ce then
        { s with executed := s.executed + 1, produced := s.produced + 1,
                 cqOpOwn := Function.update s.cqOpOwn (s.produced % c.cqSize)
                   (UInt8.ofNat (op * 16 + PhaseRing.phase c.cqLogSize s.produced)),
                 cqes := PhaseRing.write c.cqLogSize s.produced s.cqes }
      else { s with executed := s.executed + 1 } := by
  rw [nicExecute, h]

/-- The NIC touches neither the thread's counters nor the history of posts. -/
theorem nicExecute_frame (op : Nat) (s : QpSystem) :
    (nicExecute c op s).sqCounter = s.sqCounter ∧ (nicExecute c op s).posted = s.posted ∧
      (nicExecute c op s).dbrecSend = s.dbrecSend := by
  unfold nicExecute
  split
  · exact ⟨rfl, rfl, rfl⟩
  · split <;> exact ⟨rfl, rfl, rfl⟩

/-- The `op_own` byte the NIC writes: the opcode in the high nibble, the
    owner bit in bit 0. -/
theorem toNat_opOwn {op ph : Nat} (hop : op < 15) (hph : ph < 2) :
    (UInt8.ofNat (op * 16 + ph)).toNat >>> 4 = op ∧
      (UInt8.ofNat (op * 16 + ph)).toNat &&& 1 = ph := by
  have hval : (UInt8.ofNat (op * 16 + ph)).toNat = op * 16 + ph := by
    rw [UInt8.toNat_ofNat']
    exact Nat.mod_eq_of_lt (by omega)
  rw [hval, Nat.shiftRight_eq_div_pow, Nat.and_one_is_mod]
  omega

end QpSystem

open QpSystem

/-- What the thread does on its queue pair: post one WQE, which asks for a
    completion or not, or `quiet_single`. -/
inductive QpAction where
  | post (cqe : Bool) (opcode : Mlx5Opcode)
  | quiet
  deriving DecidableEq, Repr

/-- The thread's steps. -/
inductive ThreadStep (c : QpConfig) : QpAction → QpSystem → QpSystem → Prop where
  /-- A post. A quiet its `waitSQSpace` forces must be over. -/
  | post {s : QpSystem} (cqe : Bool) (opcode : Mlx5Opcode)
      (hwait : forcesQuiet c 1 s = false ∨ quietDone c s = true) :
      ThreadStep c (.post cqe opcode) s
        { post c cqe opcode s with posted := s.posted ++ [postedWqe c cqe opcode s] }
  /-- `quiet_internal` returns once its wait is over. -/
  | quiet {s : QpSystem} (hwait : quietDone c s = true) : ThreadStep c .quiet s (quietInternal s)

/-- The NIC executes the next WQE the doorbell has announced; a CQE's opcode
    is below `MLX5_CQE_INVALID`. -/
inductive NicStep (c : QpConfig) : QpSystem → QpSystem → Prop where
  | execute {s : QpSystem} (op : Nat) (hop : op < 15) (hdb : s.executed < s.dbrecSend) :
      NicStep c s (nicExecute c op s)

/-- A step of the thread or of the NIC. -/
def QpStep (c : QpConfig) (s s' : QpSystem) : Prop :=
  (∃ a, ThreadStep c a s s') ∨ NicStep c s s'

/-- The thread's action finds room: a post's slot holds no WQE the NIC has
    yet to execute. `update_posted_wqe_generic` and `waitSQSpace` do not
    check it. -/
def InRoom (c : QpConfig) (a : QpAction) (s : QpSystem) : Prop :=
  ∀ cqe opcode, a = .post cqe opcode → s.sqCounter < s.executed + c.maxNwqe

/-- A step of the thread that finds room. -/
def RoomStep (c : QpConfig) (a : QpAction) (s s' : QpSystem) : Prop :=
  ThreadStep c a s s' ∧ InRoom c a s

/-- A step of a run in which no post overwrites a WQE the NIC has not
    executed. -/
def QpRoomStep (c : QpConfig) (s s' : QpSystem) : Prop :=
  (∃ a, RoomStep c a s s') ∨ NicStep c s s'

/-- A prefix of a list has as many elements satisfying `p` as the whole list
    exactly when every such element lies in the prefix. -/
theorem countP_take_eq_countP_iff {α : Type} {p : α → Bool} {l : List α} {e : Nat} :
    (l.take e).countP p = l.countP p ↔ ∀ n a, l[n]? = some a → p a = true → n < e := by
  have hsplit : l.countP p = (l.take e).countP p + (l.drop e).countP p := by
    rw [← List.countP_append, List.take_append_drop]
  rw [hsplit, Nat.left_eq_add, List.countP_eq_zero]
  constructor
  · -- an element at `n ≥ e` lies in the suffix
    intro hdrop n a hn hp
    by_contra hne
    refine hdrop a (List.mem_iff_getElem?.mpr ⟨n - e, ?_⟩) hp
    rw [List.getElem?_drop, Nat.add_sub_cancel' (by omega)]
    exact hn
  · intro hall a ha hp
    obtain ⟨i, hi⟩ := List.mem_iff_getElem?.mp ha
    rw [List.getElem?_drop] at hi
    exact absurd (hall _ a hi hp) (by omega)

/-- Numbers `a` with `a + k` a multiple of `M` are `M - k` modulo `M`. -/
theorem mod_eq_sub_of_add_mod_eq_zero {a k M : Nat} (hk : 0 < k) (hkM : k ≤ M)
    (h : (a + k) % M = 0) : a % M = M - k := by
  have hr : a % M < M := Nat.mod_lt a (by omega)
  rw [← Nat.mod_add_mod] at h
  rcases Nat.lt_or_ge (a % M + k) M with hlt | hge
  · rw [Nat.mod_eq_of_lt hlt] at h
    omega
  · rw [Nat.mod_eq_sub_mod hge, Nat.mod_eq_of_lt (by omega)] at h
    omega

/-- The invariant of a queue pair and its NIC, with `M = max_nwqe`. -/
structure QpInv (c : QpConfig) (s : QpSystem) : Prop where
  length_posted : s.posted.length = s.sqCounter
  /-- The doorbell has announced every WQE posted. -/
  dbrecSend_eq : s.dbrecSend = s.sqCounter
  executed_le : s.executed ≤ s.sqCounter
  /-- At most `M` WQEs wait for the NIC ... -/
  sqCounter_le : s.sqCounter ≤ s.executed + c.maxNwqe
  /-- ... and the slot of each holds it. -/
  sq_eq : ∀ n, s.executed ≤ n → n < s.sqCounter → s.sq (n % c.maxNwqe) = s.posted[n]?
  /-- The WQE that brings `sq_counter` to `M - 2` modulo `M` asks for a
      completion. -/
  ce_of_periodic : ∀ n w, s.posted[n]? = some w → (n + 1) % c.maxNwqe = c.maxNwqe - 2 →
    w.ce = true
  /-- One CQE for each executed WQE that asks for one. -/
  produced_eq : s.produced = (s.posted.take s.executed).countP Wqe.ce
  /-- Each completion asked for is waited for or counted by `quiet_counter`. -/
  consumed_eq : s.cqConsumerCounter + s.quietCounter = s.posted.countP Wqe.ce
  consumed_le : s.cqConsumerCounter ≤ s.produced
  holds : PhaseRing.Holds c.cqLogSize s.produced s.cqes
  /-- A completion slot the NIC has not written reads `MLX5_CQE_INVALID` ... -/
  opOwn_none : ∀ j, s.cqes j = none → (s.cqOpOwn j).toNat >>> 4 = 0xF
  /-- ... and one it has is valid, with the owner bit of its CQE. -/
  opOwn_some : ∀ j k, s.cqes j = some k →
    (s.cqOpOwn j).toNat >>> 4 ≠ 0xF ∧ (s.cqOpOwn j).toNat &&& 1 = PhaseRing.phase c.cqLogSize k
  localSqCnt_eq : s.localSqCnt = s.sqCounter % c.maxNwqe
  quietCounter_le : s.quietCounter ≤ s.localSqCnt + 1
  /-- The NIC is at most two WQEs short of the round of `M` posts the thread
      is in. -/
  round_le : s.sqCounter / c.maxNwqe * c.maxNwqe ≤ s.executed + 2

namespace QpInv

variable {c : QpConfig} {s : QpSystem}

theorem init : QpInv c QpSystem.init where
  length_posted := rfl
  dbrecSend_eq := rfl
  executed_le := le_rfl
  sqCounter_le := Nat.zero_le _
  sq_eq := fun n _ hn => absurd hn (Nat.not_lt_zero n)
  ce_of_periodic := fun n w hn => by simp [QpSystem.init] at hn
  produced_eq := rfl
  consumed_eq := rfl
  consumed_le := le_rfl
  holds := PhaseRing.holds_zero _
  opOwn_none := fun _ _ => show (0xF0 : UInt8).toNat >>> 4 = 15 by decide
  opOwn_some := fun j k hj => by simp [QpSystem.init] at hj
  localSqCnt_eq := (Nat.zero_mod _).symm
  quietCounter_le := Nat.zero_le _
  round_le := by simp [QpSystem.init]

theorem produced_le (h : QpInv c s) : s.produced ≤ s.posted.countP Wqe.ce :=
  h.produced_eq ▸ (List.take_sublist _ _).countP_le

theorem quietCounter_le_maxNwqe (h : QpInv c s) : s.quietCounter ≤ c.maxNwqe := by
  have hlt : s.localSqCnt < c.maxNwqe := h.localSqCnt_eq ▸ Nat.mod_lt _ (by
    have := c.two_le_maxNwqe
    omega)
  have := h.quietCounter_le
  omega

/-- Once the NIC has written as many CQEs as completions were asked for,
    every WQE that asked for one has been executed. -/
theorem lt_executed_of_ce (h : QpInv c s) (hall : s.posted.countP Wqe.ce ≤ s.produced)
    {n : Nat} {w : Wqe} (hn : s.posted[n]? = some w) (hce : w.ce = true) : n < s.executed := by
  have htake : (s.posted.take s.executed).countP Wqe.ce = s.posted.countP Wqe.ce := by
    have := h.produced_le
    rw [← h.produced_eq]
    omega
  exact countP_take_eq_countP_iff.mp htake n w hn hce

/-- The test of `quiet_internal`, read through the invariant: the owner bit
    of a slot the NIC has written is that of the CQE it holds. -/
theorem cqeValid_iff (h : QpInv c s) (t : Nat) :
    cqeValid c t (s.cqOpOwn (t % c.cqSize)) = true ↔
      PhaseRing.PhaseMatches c.cqLogSize t s.cqes := by
  rw [c.cqSize_eq, PhaseRing.PhaseMatches, cqeValid]
  cases hj : s.cqes (t % 2 ^ c.cqLogSize) with
  | none =>
    -- `MLX5_CQE_INVALID` fails the test, and no CQE is there
    rw [h.opOwn_none _ hj, beq_self_eq_true, Bool.not_true, Bool.and_false]
    constructor
    · intro hf
      cases hf
    · rintro ⟨_, hk, -⟩
      cases hk
  | some k =>
    -- a valid CQE, whose owner bit is that of `k`
    obtain ⟨h15, hph⟩ := h.opOwn_some _ _ hj
    rw [hph, (beq_eq_false_iff_ne).mpr h15, Bool.not_false, Bool.and_true, beq_iff_eq]
    constructor
    · intro hk
      exact ⟨k, rfl, hk⟩
    · rintro ⟨k', hk', hk⟩
      cases hk'
      exact hk

/-- With at least `max_nwqe` completion slots, the wait of `quiet_internal`
    is over exactly when the NIC has written the CQE it waits at. -/
theorem quietDone_iff_le (h : QpInv c s) (hcq : c.maxNwqe ≤ c.cqSize)
    (hq : 0 < s.quietCounter) :
    quietDone c s = true ↔ s.cqConsumerCounter + s.quietCounter ≤ s.produced := by
  have hqM := h.quietCounter_le_maxNwqe
  have hle := h.consumed_le
  have hsum := h.consumed_eq
  have hprod := h.produced_le
  rw [c.cqSize_eq] at hcq
  have hphase := PhaseRing.phaseMatches_iff (c := quietTarget s) h.holds
    (by rw [quietTarget]; omega) (by rw [quietTarget]; omega)
  rw [quietDone, Bool.or_eq_true, beq_iff_eq, cqeValid_iff h, hphase, quietTarget]
  omega

/-- The counters after a wait of `quiet_internal`, whether it had anything
    to wait for or not. -/
theorem consumed_add_le (h : QpInv c s) (hcq : c.maxNwqe ≤ c.cqSize)
    (hwait : quietDone c s = true) : s.cqConsumerCounter + s.quietCounter ≤ s.produced := by
  rcases Nat.eq_zero_or_pos s.quietCounter with h0 | hq
  · rw [h0, Nat.add_zero]
    exact h.consumed_le
  · exact (h.quietDone_iff_le hcq hq).mp hwait

/-! ### Every step keeps the invariant -/

/-- A quiet consumes what the NIC has written. -/
theorem quiet (h : QpInv c s) (hcq : c.maxNwqe ≤ c.cqSize) (hwait : quietDone c s = true) :
    QpInv c (quietInternal s) := by
  obtain ⟨d, hq⟩ := quietInternal_eq s
  rw [hq]
  exact { h with
    consumed_eq := by rw [Nat.add_zero]; exact h.consumed_eq
    consumed_le := h.consumed_add_le hcq hwait
    quietCounter_le := Nat.zero_le _ }

/-- The WQE posted at the end of a round of `M` posts follows the one two
    posts earlier, which asked for a completion; so the forced quiet of such
    a post finds the NIC at most two WQEs short of the post. -/
theorem le_executed_of_wrap (h : QpInv c s) (hcq : c.maxNwqe ≤ c.cqSize)
    (hwait : forcesQuiet c 1 s = false ∨ quietDone c s = true)
    (hwrap : (s.sqCounter + 1) % c.maxNwqe = 0) : s.sqCounter + 1 ≤ s.executed + 2 := by
  have hM := c.two_le_maxNwqe
  -- `local_sq_cnt` is `M - 1`, so `waitSQSpace` quiets
  have hlast : s.sqCounter % c.maxNwqe = c.maxNwqe - 1 :=
    mod_eq_sub_of_add_mod_eq_zero Nat.one_pos (by omega) hwrap
  have hforced : forcesQuiet c 1 s = true := by
    by_contra hf
    have := (forcesQuiet_eq_false_iff s).mp (by simpa using hf)
    have := h.localSqCnt_eq
    omega
  have hall : s.posted.countP Wqe.ce ≤ s.produced := by
    rw [← h.consumed_eq]
    exact h.consumed_add_le hcq (hwait.resolve_left (by simp [hforced]))
  rcases Nat.lt_or_ge s.sqCounter 2 with hsmall | hbig
  · omega
  · -- WQE `sq_counter - 2` brought the counter to `M - 2` modulo `M`
    obtain ⟨w, hw⟩ : ∃ w, s.posted[s.sqCounter - 2]? = some w :=
      ⟨_, List.getElem?_eq_getElem (by rw [h.length_posted]; omega)⟩
    have hper : (s.sqCounter - 2 + 1) % c.maxNwqe = c.maxNwqe - 2 :=
      mod_eq_sub_of_add_mod_eq_zero (by omega) hM (by rw [← hwrap]; congr 1; omega)
    have := h.lt_executed_of_ce hall hw (h.ce_of_periodic _ w hw hper)
    omega

/-- A post fills the next slot, which the NIC is done with. -/
theorem post (h : QpInv c s) (hcq : c.maxNwqe ≤ c.cqSize) {cqe : Bool} {opcode : Mlx5Opcode}
    (hwait : forcesQuiet c 1 s = false ∨ quietDone c s = true)
    (hroom : s.sqCounter < s.executed + c.maxNwqe) :
    QpInv c { QpSystem.post c cqe opcode s with
      posted := s.posted ++ [postedWqe c cqe opcode s] } := by
  obtain ⟨d, hpost⟩ := post_eq (c := c) cqe opcode s
  rw [hpost]
  have hM := c.two_le_maxNwqe
  have hlen := h.length_posted
  have hex := h.executed_le
  have hforced : forcesQuiet c 1 s = true →
      s.cqConsumerCounter + s.quietCounter ≤ s.produced := fun hf =>
    h.consumed_add_le hcq (hwait.resolve_left (by simp [hf]))
  -- each field of the invariant, read on the fields of the new state
  constructor <;> dsimp only
  case length_posted => simp [hlen]
  case executed_le => exact Nat.le_succ_of_le h.executed_le
  case sqCounter_le => exact hroom
  case sq_eq =>
    -- the new slot holds the new WQE; the others, less than `M` back, keep theirs
    intro n hlo hhi
    rcases Nat.lt_succ_iff_lt_or_eq.mp hhi with hlt | rfl
    · have hne : n % c.maxNwqe ≠ s.sqCounter % c.maxNwqe := fun heq =>
        absurd (PhaseRing.eq_of_mod_eq heq (by omega) (by omega)) (by omega)
      rw [Function.update_of_ne hne, h.sq_eq n hlo hlt, List.getElem?_append_left (by omega)]
    · simp [hlen]
  case ce_of_periodic =>
    intro n w hn hper
    rcases Nat.lt_or_ge n s.sqCounter with hlt | hge
    · rw [List.getElem?_append_left (by omega)] at hn
      exact h.ce_of_periodic n w hn hper
    · -- the WQE just posted, flagged by `update_wqe_ce_single`
      rw [List.getElem?_append_right (by omega), hlen, List.getElem?_singleton] at hn
      split_ifs at hn with h0
      cases hn
      have hn : n = s.sqCounter := by omega
      subst hn
      simp [postedWqe, signaled, hper]
  case produced_eq =>
    rw [List.take_append_of_le_length (by omega)]
    exact h.produced_eq
  case consumed_eq =>
    -- a forced quiet moves the outstanding count to the consumer counter
    rw [List.countP_append, List.countP_singleton, ← h.consumed_eq]
    change _ = _ + if signaled c cqe s = true then 1 else 0
    split_ifs <;> omega
  case consumed_le =>
    split_ifs with hf
    · exact hforced hf
    · exact h.consumed_le
  case holds => exact h.holds
  case opOwn_none => exact h.opOwn_none
  case opOwn_some => exact h.opOwn_some
  case localSqCnt_eq => rw [h.localSqCnt_eq, Nat.mod_add_mod]
  case quietCounter_le =>
    -- a forced quiet empties the count; otherwise `local_sq_cnt` grows too
    have hq := h.quietCounter_le
    cases hf : forcesQuiet c 1 s
    · rw [Nat.mod_eq_of_lt ((forcesQuiet_eq_false_iff s).mp hf)]
      split_ifs <;> omega
    · rw [if_pos rfl]
      split_ifs <;> omega
  case round_le =>
    -- a round ends only at a post whose forced quiet waited for the NIC
    by_cases hwrap : (s.sqCounter + 1) % c.maxNwqe = 0
    · rw [Nat.div_mul_cancel (Nat.dvd_of_mod_eq_zero hwrap)]
      exact h.le_executed_of_wrap hcq hwait hwrap
    · rw [Nat.succ_div_of_not_dvd (fun hd => hwrap (Nat.mod_eq_zero_of_dvd hd))]
      exact h.round_le

/-- The NIC executes the WQE the doorbell announced next: it is the one in
    its slot, and its CQE goes to the next completion slot. -/
theorem nic (h : QpInv c s) {op : Nat} (hop : op < 15) (hdb : s.executed < s.dbrecSend) :
    QpInv c (nicExecute c op s) := by
  have he : s.executed < s.sqCounter := h.dbrecSend_eq ▸ hdb
  obtain ⟨w, hw⟩ : ∃ w, s.posted[s.executed]? = some w :=
    ⟨_, List.getElem?_eq_getElem (h.length_posted ▸ he)⟩
  have htake : s.posted.take (s.executed + 1) = s.posted.take s.executed ++ [w] := by
    rw [List.take_add_one, hw]
    rfl
  rw [nicExecute_of_sq ((h.sq_eq _ le_rfl he).trans hw)]
  -- the window of WQEs waiting for the NIC loses its first
  have h2 : s.sqCounter ≤ s.executed + 1 + c.maxNwqe := by
    have := h.sqCounter_le
    omega
  have h3 : ∀ n, s.executed + 1 ≤ n → n < s.sqCounter → s.sq (n % c.maxNwqe) = s.posted[n]? :=
    fun n hlo hhi => h.sq_eq n (by omega) hhi
  have h4 : s.sqCounter / c.maxNwqe * c.maxNwqe ≤ s.executed + 1 + 2 := by
    have := h.round_le
    omega
  cases hce : w.ce
  · -- no completion asked for
    rw [if_neg Bool.false_ne_true]
    exact { h with
      executed_le := he, sqCounter_le := h2, sq_eq := h3, round_le := h4
      produced_eq := by
        simp only
        rw [htake, List.countP_append, List.countP_singleton, hce, h.produced_eq]
        rfl }
  · -- CQE number `produced` goes to slot `produced % cq_size`
    rw [if_pos rfl]
    have hslot : ∀ j, j = s.produced % c.cqSize ↔ j = s.produced % 2 ^ c.cqLogSize := by
      rw [c.cqSize_eq]
      exact fun _ => Iff.rfl
    exact { h with
      executed_le := he, sqCounter_le := h2, sq_eq := h3, round_le := h4
      produced_eq := by
        simp only
        rw [htake, List.countP_append, List.countP_singleton, hce, h.produced_eq]
        rfl
      consumed_le := Nat.le_succ_of_le h.consumed_le
      holds := h.holds.write
      opOwn_none := by
        intro j hj
        simp only [PhaseRing.write] at hj ⊢
        by_cases hjp : j = s.produced % 2 ^ c.cqLogSize
        · rw [hjp, Function.update_self] at hj
          cases hj
        · rw [Function.update_of_ne hjp] at hj
          rw [Function.update_of_ne (fun hj' => hjp ((hslot j).mp hj'))]
          exact h.opOwn_none j hj
      opOwn_some := by
        intro j k hj
        simp only [PhaseRing.write] at hj ⊢
        by_cases hjp : j = s.produced % 2 ^ c.cqLogSize
        · -- the byte just written
          rw [hjp, Function.update_self, Option.some.injEq] at hj
          subst hj
          rw [← (hslot j).mpr hjp, Function.update_self]
          obtain ⟨hop', hph⟩ := toNat_opOwn hop (PhaseRing.phase_lt_two c.cqLogSize s.produced)
          rw [hop', hph]
          exact ⟨by omega, rfl⟩
        · rw [Function.update_of_ne hjp] at hj
          rw [Function.update_of_ne (fun hj' => hjp ((hslot j).mp hj'))]
          exact h.opOwn_some j k hj }

theorem step (h : QpInv c s) (hcq : c.maxNwqe ≤ c.cqSize) {s' : QpSystem}
    (hs : QpRoomStep c s s') : QpInv c s' := by
  rcases hs with ⟨a, ha, hroom⟩ | hn
  · cases ha with
    | post cqe opcode hwait => exact h.post hcq hwait (hroom cqe opcode rfl)
    | quiet hwait => exact h.quiet hcq hwait
  · cases hn with
    | execute op hop hdb => exact h.nic hop hdb

end QpInv

/-- The invariant holds in every state a run without overrun reaches, on a
    queue pair whose completion queue has at least `max_nwqe` entries. -/
theorem qpInv_reachable {c : QpConfig} (hcq : c.maxNwqe ≤ c.cqSize) {s : QpSystem}
    (hs : Reachable (QpRoomStep c) QpSystem.init s) : QpInv c s :=
  Reachable.invariant QpInv.init (fun _ _ _ hinv hstep => hinv.step hcq hstep) hs

/-! ### What the invariant gives -/

/-- A queue pair of four WQE slots and four completion slots. -/
def smallQpConfig : QpConfig where
  maxNwqe := 4
  cqLogSize := 2
  cqSize := 4
  dbVal := 0
  two_le_maxNwqe := by decide
  cqSize_eq := rfl


/-- A post that asks for a completion, and the NIC executing it: a run
    without overrun to a queue pair with one WQE posted and executed. -/
theorem reachable_post_executed : ∃ s, Reachable (QpRoomStep smallQpConfig) QpSystem.init s ∧
    s.sqCounter = 1 ∧ s.executed = 1 ∧ s.posted.length = 1 ∧
      forcesQuiet smallQpConfig 1 s = false :=
  ⟨_, (Reachable.refl.tail
      (.inl ⟨_, .post true .rdmaWrite (by decide), fun _ _ _ => by decide⟩)).tail
    (.inr (.execute 0 (by decide) (by decide))), by decide, by decide, by decide, by decide⟩

section Reachable

variable {c : QpConfig} {s : QpSystem}

/-- Once the wait of a quiet is over, the NIC has executed every WQE posted
    that asked for a completion. -/
theorem lt_executed_of_quietDone (hcq : c.maxNwqe ≤ c.cqSize) (h : QpInv c s)
    (hwait : quietDone c s = true) {n : Nat} {w : Wqe} (hn : s.posted[n]? = some w)
    (hce : w.ce = true) : n < s.executed := by
  have hall : s.posted.countP Wqe.ce ≤ s.produced := by
    rw [← h.consumed_eq]
    exact h.consumed_add_le hcq hwait
  exact h.lt_executed_of_ce hall hn hce

/-- The wait of `quiet_internal` is over exactly when the NIC has executed
    every WQE posted that asked for a completion. -/
theorem quietDone_iff_signaled_executed (hcq : c.maxNwqe ≤ c.cqSize)
    (hs : Reachable (QpRoomStep c) QpSystem.init s) :
    quietDone c s = true ↔ ∀ n w, s.posted[n]? = some w → w.ce = true → n < s.executed := by
  have h := qpInv_reachable hcq hs
  constructor
  · intro hwait n w hn hce
    exact lt_executed_of_quietDone hcq h hwait hn hce
  · -- every CQE asked for is written, the last one awaited included
    intro hall
    have hprod : s.produced = s.cqConsumerCounter + s.quietCounter := by
      rw [h.consumed_eq, h.produced_eq]
      exact countP_take_eq_countP_iff.mpr hall
    rcases Nat.eq_zero_or_pos s.quietCounter with h0 | hq
    · simp [quietDone, h0]
    · exact (h.quietDone_iff_le hcq hq).mpr hprod.ge

/-- After one signaled WQE executed, the wait is over exactly when that WQE
    has been executed. -/
theorem quietDone_iff_signaled_executed_after_post : ∃ s,
    Reachable (QpRoomStep smallQpConfig) QpSystem.init s ∧ s.posted.length = 1 ∧ s.executed = 1 ∧
      (quietDone smallQpConfig s = true ↔
        ∀ n w, s.posted[n]? = some w → w.ce = true → n < s.executed) := by
  obtain ⟨s, hs, -, hex, hlen, -⟩ := reachable_post_executed
  have h := quietDone_iff_signaled_executed (by decide) hs
  exact ⟨s, hs, hlen, hex, h⟩

/-- Every completion asked for is accounted for: it has been waited for or
    is counted by `quiet_counter`. The NIC has written at least the CQEs
    waited for and at most those asked for, and at most `max_nwqe` are
    outstanding; so, although `postLock` no longer calls `waitCQSpace`, the
    NIC never writes a CQE over one the thread has not consumed. -/
theorem completions_accounted (hcq : c.maxNwqe ≤ c.cqSize)
    (hs : Reachable (QpRoomStep c) QpSystem.init s) :
    s.cqConsumerCounter + s.quietCounter = s.posted.countP Wqe.ce ∧
      s.cqConsumerCounter ≤ s.produced ∧ s.produced ≤ s.cqConsumerCounter + s.quietCounter ∧
      s.quietCounter ≤ c.maxNwqe ∧ s.produced ≤ s.cqConsumerCounter + c.cqSize := by
  have h := qpInv_reachable hcq hs
  have hprod := h.produced_le
  have hqM := h.quietCounter_le_maxNwqe
  refine ⟨h.consumed_eq, h.consumed_le, h.consumed_eq ▸ hprod, hqM, ?_⟩
  rw [← h.consumed_eq] at hprod
  omega

/-- The completions after one signaled WQE executed. -/
theorem completions_accounted_after_post : ∃ s,
    Reachable (QpRoomStep smallQpConfig) QpSystem.init s ∧ s.posted.length = 1 ∧
      (s.cqConsumerCounter + s.quietCounter = s.posted.countP Wqe.ce ∧
        s.cqConsumerCounter ≤ s.produced ∧ s.produced ≤ s.cqConsumerCounter + s.quietCounter ∧
        s.quietCounter ≤ smallQpConfig.maxNwqe ∧
        s.produced ≤ s.cqConsumerCounter + smallQpConfig.cqSize) := by
  obtain ⟨s, hs, -, -, hlen, -⟩ := reachable_post_executed
  have h := completions_accounted (by decide) hs
  exact ⟨s, hs, hlen, h⟩

/-- Once the wait of a quiet is over, if the last WQE posted asked for a
    completion, the NIC has executed every WQE posted. -/
theorem executed_eq_of_quietDone (hcq : c.maxNwqe ≤ c.cqSize)
    (hs : Reachable (QpRoomStep c) QpSystem.init s) (hwait : quietDone c s = true) {w : Wqe}
    (hlast : s.posted.getLast? = some w) (hce : w.ce = true) : s.executed = s.sqCounter := by
  have h := qpInv_reachable hcq hs
  rw [List.getLast?_eq_getElem?, h.length_posted] at hlast
  have := lt_executed_of_quietDone hcq h hwait hlast hce
  have := h.executed_le
  omega

/-- The send queue is not overrun by the code's own waits: a post whose
    `waitSQSpace` has returned writes a slot whose last WQE the NIC has
    executed, unless the post's WQE number is `max_nwqe - 2` modulo
    `max_nwqe`. -/
theorem sq_reuse_after_forced_quiet (hcq : c.maxNwqe ≤ c.cqSize)
    (hs : Reachable (QpRoomStep c) QpSystem.init s)
    (hwait : forcesQuiet c 1 s = false ∨ quietDone c s = true)
    (hslot : s.sqCounter % c.maxNwqe ≠ c.maxNwqe - 2) :
    s.sqCounter < s.executed + c.maxNwqe := by
  have h := qpInv_reachable hcq hs
  have hM := c.two_le_maxNwqe
  have hlt : s.sqCounter % c.maxNwqe < c.maxNwqe := Nat.mod_lt _ (by omega)
  by_cases hwrap : (s.sqCounter + 1) % c.maxNwqe = 0
  · -- the last post of a round, whose forced quiet waits for the NIC
    have := h.le_executed_of_wrap hcq hwait hwrap
    omega
  · -- earlier in a round, the NIC is at most two WQEs short of its start
    have hlast : s.sqCounter % c.maxNwqe ≠ c.maxNwqe - 1 := fun heq => hwrap (by
      rw [← Nat.mod_add_mod, heq, Nat.sub_add_cancel (by omega), Nat.mod_self])
    have hdiv := Nat.div_add_mod' s.sqCounter c.maxNwqe
    have := h.round_le
    omega

/-- The post of WQE 1, after WQE 0 was posted and executed, finds room. -/
theorem sq_reuse_after_forced_quiet_after_post : ∃ s,
    Reachable (QpRoomStep smallQpConfig) QpSystem.init s ∧ s.sqCounter = 1 ∧
      (forcesQuiet smallQpConfig 1 s = false ∨ quietDone smallQpConfig s = true) ∧
      s.sqCounter % smallQpConfig.maxNwqe ≠ smallQpConfig.maxNwqe - 2 ∧
      s.sqCounter < s.executed + smallQpConfig.maxNwqe := by
  obtain ⟨s, hs, hsq, -, -, hforce⟩ := reachable_post_executed
  have hslot : s.sqCounter % smallQpConfig.maxNwqe ≠ smallQpConfig.maxNwqe - 2 := by
    rw [hsq]
    decide
  have h := sq_reuse_after_forced_quiet (by decide) hs (.inl hforce) hslot
  exact ⟨s, hs, hsq, .inl hforce, hslot, h⟩

/-- The exception is real. With four slots, the thread posts WQEs 0 to 2 and
    the NIC executes 0 and 1; the thread posts 3, whose forced quiet waits
    for the completion of WQE 1, then 4 and 5. The post of WQE 6 forces no
    quiet, and its slot holds WQE 2, which the NIC has not executed. -/
theorem sq_overrun_reachable : ∃ s, Reachable (QpStep smallQpConfig) QpSystem.init s ∧
    s.sqCounter % 4 = 2 ∧ forcesQuiet smallQpConfig 1 s = false ∧
    s.executed + smallQpConfig.maxNwqe ≤ s.sqCounter ∧
    s.sq (s.sqCounter % 4) = s.posted[s.executed]? :=
  ⟨_, (((((((Reachable.refl.tail (.inl ⟨_, .post false .rdmaWrite (by decide)⟩)).tail
    (.inl ⟨_, .post false .rdmaWrite (by decide)⟩)).tail
    (.inl ⟨_, .post false .rdmaWrite (by decide)⟩)).tail
    (.inr (.execute 0 (by decide) (by decide)))).tail
    (.inr (.execute 0 (by decide) (by decide)))).tail
    (.inl ⟨_, .post false .rdmaWrite (by decide)⟩)).tail
    (.inl ⟨_, .post false .rdmaWrite (by decide)⟩)).tail
    (.inl ⟨_, .post false .rdmaWrite (by decide)⟩), by decide⟩

end Reachable


end RocShmem
