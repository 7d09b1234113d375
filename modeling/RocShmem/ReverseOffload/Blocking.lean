import RocShmem.ReverseOffload.Contexts
import RocShmem.ReverseOffload.MpiTransport
import RocShmem.Containers.IndexStrategy

/-!
# Blocking Calls of the Reverse-Offload Backend

Every call of a reverse-offload context but `putmem_nbi` and `getmem_nbi`
blocks: `build_queue_element` hands the element to the context's queue and
then spins on `handle->status[threadId]` until the host sets it, clears it,
and returns. The host sets it with `Queue::notify(blockId, threadId)`: at
once for an atomic and for a quiet with nothing outstanding, and from
`MPITransport::progress` when MPI finishes a request or the last request
before a waiting quiet. The status bytes of queue `i` start at
`status + i * MAX_THREADS_PER_BLOCK` (`QueueDescProxy`), and `threadId` is
the thread's `get_flat_id()`, its number in the whole grid; the byte of a
thread is `statusByte queue threadId = queue * 1024 + threadId`.

The model (`RoPipeline`) follows a request along its whole path: the GPU
threads, each working through the queue of its context; the queues, as
lossless first-in first-out channels; the
transport's input `q` (`insertRequest`); the transport with its history
(`TransportSystem`); and the status bytes. A step is one thread's
`build_queue_element`, one `Queue::process`, one `submitRequestsToMPI`, one
`progress`, or one thread's read or clear of its status byte. The notices
of one call of the host land together.

A queue is such a channel only when one handle drives it: the ring keeps
every request of the waves of one handle (`ro_queue_mpsc_ring`,
`shared_ring_one_handle_refines`), but the default context and context `0`
drive queue `0` through two handles, and there a request can be lost
(`shared_queue_loses_request`). The model covers programs whose contexts
have queues of their own; no theorem here derives its channels from the
ring.

A thread's blocking requests are accounted for along the way
(`RoPipeline.pending`, `TransportSystem.answered`): every step of the host
moves them forward or answers them, and each answer sets the byte of the
thread the request came from. When the threads' status bytes are distinct,
a thread returns only from calls the host has answered, and the host
answers only calls the thread made (`blocking_call_returns_after_answer`).
The bytes are not distinct in general: thread `1024` of the grid on queue
`0` and thread `0` on queue `1` share byte `1024`, and then a thread returns
from a blocking put before the host has even read it, while the other thread
spins on an answer that has come and gone (`status_byte_alias_early_return`).

## Main definitions

* `statusByte`, `notify`: The status bytes and `Queue::notify`.
* `RoNetCmd.blocking`: Which commands wait for the host.
* `TransportSystem.answered`, `TransportSystem.inFlight`: A thread's answers
  and its unanswered requests in the transport.
* `RoPipeline`, `PipelineStep`: The path of a request, and its steps.
* `PipelineInv`: The accounting of each thread's blocking calls.

## Theorems

* `TransportSystem.inFlight_submit_add`, `TransportSystem.inFlight_progress_add`:
  The transport answers exactly what it held.
* `PipelineInv.host`: A step of the host keeps the accounting when the bytes
  are distinct.
* `blocking_call_returns_after_answer`: With distinct bytes, returns, answers
  and calls keep in step.
* `status_byte_alias_early_return`: With a shared byte, a blocking call
  returns unanswered.
-/

namespace RocShmem

open Transition

/-! ## Status bytes -/

/-- `MAX_THREADS_PER_BLOCK` of `QueueDescProxy`: how far apart the status
    bytes of two consecutive queues start. -/
def maxThreadsPerBlock : Nat := 1024

/-- The byte of `status` behind `handle->status[threadId]` for a handle over
    queue `queueIdx`: `queue_descs[i].status` is
    `status + i * MAX_THREADS_PER_BLOCK`. -/
def statusByte (queueIdx threadId : Nat) : Nat := queueIdx * maxThreadsPerBlock + threadId

/-- `Queue::notify(blockId, threadId)`:
    `descriptor(blockId)->status[threadId] = 1`. -/
def notify (status : Nat → Bool) (n : Notice) : Nat → Bool :=
  Function.update status (statusByte n.blockId n.threadId) true

/-- After a host call's notices, a byte is set if it was, or if one of them
    is for it. -/
theorem foldl_notify_apply (status : Nat → Bool) (ns : List Notice) (j : Nat) :
    ns.foldl notify status j = true ↔
      status j = true ∨ ∃ n ∈ ns, statusByte n.blockId n.threadId = j := by
  induction ns generalizing status with
  | nil => simp
  | cons n ns ih =>
      rw [List.foldl_cons, ih]
      by_cases hj : statusByte n.blockId n.threadId = j
      · simp [notify, hj]
      · simp [notify, Function.update_of_ne (Ne.symm hj), hj]

/-- The `blocking` argument the `ROContext` calls give
    `build_queue_element`: every command waits for the host but the `_nbi`
    puts and gets. -/
def RoNetCmd.blocking : RoNetCmd → Bool
  | .putNbi | .getNbi => false
  | _ => true

/-! ## What the transport owes a thread -/

/-- The notices for thread `t` of queue `b`. -/
def Notice.IsFor (b t : Nat) (n : Notice) : Prop := n.blockId = b ∧ n.threadId = t

instance (b t : Nat) : DecidablePred (Notice.IsFor b t) :=
  fun n => inferInstanceAs (Decidable (n.blockId = b ∧ n.threadId = t))

namespace MPITransport

/-- `submitRequestsToMPI` by what it does with the element's `blocking`
    flag: a request recorded with the flag of its command, an atomic
    notified at once, or a quiet; the last two are for blocking commands. -/
theorem submitRequestsToMPI_blocking_cases (s : MPITransport) (cmd : RoNetCmd)
    (queueIdx threadId request : Nat) :
    s.submitRequestsToMPI cmd queueIdx threadId request =
        (s.pushRequest request queueIdx threadId cmd.blocking, []) ∨
      (cmd.blocking = true ∧
        s.submitRequestsToMPI cmd queueIdx threadId request = (s, [⟨queueIdx, threadId, .amo⟩])) ∨
      (cmd.blocking = true ∧
        s.submitRequestsToMPI cmd queueIdx threadId request = s.quiet queueIdx threadId) := by
  cases cmd <;>
    first
    | exact Or.inl rfl
    | exact Or.inr (Or.inl ⟨rfl, rfl⟩)
    | exact Or.inr (Or.inr ⟨rfl, rfl⟩)

/-- The loop of `progress` notifies requests and quiets, never an atomic. -/
theorem completeRequest_ne_amo (s : MPITransport) (r : Request) :
    ∀ n ∈ (s.completeRequest r).2, n.cause ≠ .amo := by
  intro n hn
  unfold completeRequest at hn
  dsimp only at hn
  split at hn <;> rename_i hdone
  · rcases List.mem_append.mp hn with hn | hn
    · split at hn <;> simp_all [Request.notice]
    · obtain ⟨t, -, rfl⟩ := List.mem_map.mp hn
      exact NotifyCause.noConfusion
  · split at hn <;> simp_all [Request.notice]

theorem completeRequests_ne_amo (s : MPITransport) (rs : List Request) :
    ∀ n ∈ (s.completeRequests rs).2, n.cause ≠ .amo := by
  induction rs generalizing s with
  | nil => simp [completeRequests]
  | cons r rs ih =>
      intro n hn
      rcases List.mem_append.mp hn with hn | hn
      · exact completeRequest_ne_amo s r n hn
      · exact ih _ n hn

theorem progress_ne_amo (s : MPITransport) (is : List Nat) :
    ∀ n ∈ (s.progress is).2, n.cause ≠ .amo := by
  unfold progress
  split
  · simp
  · exact completeRequests_ne_amo s _

end MPITransport

/-- Without atomics, the notices for a thread are its request notices and
    its quiet notices. -/
theorem countP_isFor_of_ne_amo {ns : List Notice} (h : ∀ n ∈ ns, n.cause ≠ .amo) (b t : Nat) :
    ns.countP (Notice.IsFor b t) =
      (ns.filter (·.cause.isRequest)).countP (Notice.IsFor b t) + ns.count ⟨b, t, .quiet⟩ := by
  induction ns with
  | nil => rfl
  | cons n ns ih =>
      have ih := ih fun n' hn' => h n' (List.mem_cons_of_mem n hn')
      have hn := h n List.mem_cons_self
      obtain ⟨b', t', cause⟩ := n
      -- The head counts among the requests or the quiets, by its cause.
      cases cause with
      | quiet =>
          rw [List.filter_cons_of_neg (by simp [NotifyCause.isRequest]), List.countP_cons,
            List.count_cons, ih]
          by_cases hbt : b' = b ∧ t' = t
          · obtain ⟨rfl, rfl⟩ := hbt
            simp [Notice.IsFor, Nat.add_assoc]
          · simp [Notice.IsFor, hbt]
      | request handle =>
          rw [List.filter_cons_of_pos rfl, List.countP_cons, List.countP_cons, List.count_cons, ih]
          simp
          omega
      | amo => exact absurd rfl hn

namespace TransportSystem

/-- The `queue->notify` calls for thread `t` of queue `b` so far. -/
def answered (S : TransportSystem) (b t : Nat) : Nat := S.notices.countP (Notice.IsFor b t)

/-- Thread `t` of queue `b`'s blocking requests the transport holds
    unanswered: its blocking MPI requests in flight and its waiting
    quiets. -/
def inFlight (S : TransportSystem) (b t : Nat) : Nat :=
  (S.transport.requests.countP fun r => r.blocking ∧ r.blockId = b ∧ r.threadId = t) +
    (S.transport.waitingQuiet b).count t

theorem answered_submit (S : TransportSystem) (cmd : RoNetCmd) (queueIdx threadId b t : Nat) :
    (S.submit cmd queueIdx threadId).answered b t = S.answered b t +
      (S.transport.submitRequestsToMPI cmd queueIdx threadId S.nextRequest).2.countP
        (Notice.IsFor b t) := by
  simp [answered, submit, List.countP_append]

theorem answered_progress (S : TransportSystem) (is : List Nat) (b t : Nat) :
    (S.progress is).answered b t =
      S.answered b t + (S.transport.progress is).2.countP (Notice.IsFor b t) := by
  simp [answered, progress, List.countP_append]

/-- `submitRequestsToMPI` takes over the element's request: a blocking one
    is held or answered, pair by pair. -/
theorem inFlight_submit_add (S : TransportSystem) (cmd : RoNetCmd) (queueIdx threadId b t : Nat) :
    (S.submit cmd queueIdx threadId).inFlight b t +
        (S.transport.submitRequestsToMPI cmd queueIdx threadId S.nextRequest).2.countP
          (Notice.IsFor b t) =
      S.inFlight b t + if cmd.blocking ∧ queueIdx = b ∧ threadId = t then 1 else 0 := by
  rcases MPITransport.submitRequestsToMPI_blocking_cases S.transport cmd queueIdx threadId
    S.nextRequest with heq | ⟨hb, heq⟩ | ⟨hb, heq⟩
  · -- A request joins those in flight with the command's flag.
    simp only [inFlight, submit, heq, MPITransport.pushRequest_requests,
      MPITransport.pushRequest_waitingQuiet, List.countP_append, List.countP_nil]
    by_cases h : cmd.blocking ∧ queueIdx = b ∧ threadId = t
    · simp [h]
      omega
    · simp [h]
  · -- An atomic is answered at once.
    simp only [inFlight, submit, heq, hb, true_and]
    by_cases h : queueIdx = b ∧ threadId = t
    · simp [h, Notice.IsFor]
    · simp [h, Notice.IsFor]
  · -- A quiet is answered at once or waits.
    simp only [inFlight, submit, heq, hb, true_and]
    unfold MPITransport.quiet
    split
    · by_cases h : queueIdx = b ∧ threadId = t
      · simp [h, Notice.IsFor]
      · simp [h, Notice.IsFor]
    · by_cases hbq : queueIdx = b
      · subst hbq
        by_cases ht : threadId = t
        · subst ht
          simp
          omega
        · simp [ht]
      · simp [hbq, Function.update_of_ne (Ne.symm hbq)]

/-- `progress` answers exactly the requests it takes out of flight: the
    done blocking requests and the quiets whose block ran empty. -/
theorem inFlight_progress_add {S : TransportSystem} (hS : TransportInv S) {is : List Nat}
    (hnodup : is.Nodup)
    (hlt : ∀ i ∈ is, i < min S.transport.requests.length MPITransport.testsomeIndicesSize)
    (b t : Nat) :
    (S.progress is).inFlight b t + (S.transport.progress is).2.countP (Notice.IsFor b t) =
      S.inFlight b t := by
  have hlt' := MPITransport.lt_length_of_testsome hlt
  have hc := MPITransport.progress_completes hS.counts hS.quietWaits hnodup hlt'
  have hperm := MPITransport.progress_requests_perm S.transport hnodup hlt'
  -- The requests in flight before are those kept and those done.
  have hsplit := (hperm.countP_eq fun r => r.blocking ∧ r.blockId = b ∧ r.threadId = t).symm
  rw [List.countP_append] at hsplit
  -- The notices are the done blocking requests' and the released quiets'.
  have hnotices := countP_isFor_of_ne_amo (MPITransport.progress_ne_amo S.transport is) b t
  rw [hc.request_notices, List.countP_map, List.countP_filter] at hnotices
  have hdone : ∀ r : MPITransport.Request, (decide (Notice.IsFor b t r.notice) && r.blocking) =
      decide (r.blocking = true ∧ r.blockId = b ∧ r.threadId = t) := by
    intro r
    by_cases hr : r.blocking <;> simp [hr, Notice.IsFor, MPITransport.Request.notice, and_comm]
  simp only [Function.comp_apply, hdone] at hnotices
  have hquiet := hc.quiet_count b t
  simp only [inFlight, progress]
  omega

end TransportSystem

/-! ## The path of a request -/

/-- What the completion path reads of a queue element: its `type`, and the
    `threadId` that `build_queue_element` writes, the sender's
    `get_flat_id()`. -/
structure QueueElement where
  type : RoNetCmd
  threadId : Nat
deriving DecidableEq, Repr

/-- Where a thread is: outside a blocking call, spinning on its status byte
    in a call of command `type`, or past that spin, about to clear the
    byte. -/
inductive BlockingPc where
  | idle
  | spinning (type : RoNetCmd)
  | clearing (type : RoNetCmd)
deriving DecidableEq, Repr

/-- The reverse-offload path of one PE: the queues, the transport's `q` with
    the queue of each element (`q_wgid`), the transport with its history,
    the status bytes, and each thread's place with the number of its
    blocking calls and of its returns from them. -/
structure RoPipeline (ω : Type) where
  queues : Nat → List QueueElement
  q : List (QueueElement × Nat)
  transport : TransportSystem
  status : Nat → Bool
  pc : ω → BlockingPc
  calls : ω → Nat
  returns : ω → Nat

namespace RoPipeline

variable {ω : Type}

/-- Nothing queued, sent or set, and every thread outside a call. -/
def init : RoPipeline ω :=
  ⟨fun _ => [], [], TransportSystem.init, fun _ => false, fun _ => .idle, fun _ => 0, fun _ => 0⟩

/-- `Queue::process` on queue `queueIdx`: the valid element at the read
    index goes to the transport (`insertRequest`). -/
def process (s : RoPipeline ω) (queueIdx : Nat) : RoPipeline ω :=
  match s.queues queueIdx with
  | [] => s
  | e :: rest =>
    { s with
      queues := Function.update s.queues queueIdx rest
      q := s.q ++ [(e, queueIdx)] }

/-- `MPITransport::submitRequestsToMPI`: the front of `q` goes to MPI, and
    the notices it sends set their bytes. -/
def submitRequestsToMPI (s : RoPipeline ω) : RoPipeline ω :=
  match s.q with
  | [] => s
  | (e, queueIdx) :: rest =>
    { s with
      q := rest
      transport := s.transport.submit e.type queueIdx e.threadId
      status := (s.transport.transport.submitRequestsToMPI e.type queueIdx e.threadId
        s.transport.nextRequest).2.foldl notify s.status }

/-- `MPITransport::progress` with the indices `MPI_Testsome` reported done. -/
@[simps]
def progress (s : RoPipeline ω) (testsomeIndices : List Nat) : RoPipeline ω :=
  { s with
    transport := s.transport.progress testsomeIndices
    status := (s.transport.transport.progress testsomeIndices).2.foldl notify s.status }

/-- Thread `t` of queue `b`'s blocking requests not yet answered: in the
    queue, in the transport's `q`, or held by the transport. -/
def pending (s : RoPipeline ω) (b t : Nat) : Nat :=
  ((s.queues b).countP fun e => e.threadId = t ∧ e.type.blocking) +
    (s.q.countP fun p => p.2 = b ∧ p.1.threadId = t ∧ p.1.type.blocking) +
    s.transport.inFlight b t

/-- `Queue::process` on a queue whose front element is `e`. -/
theorem process_of_cons {s : RoPipeline ω} {queueIdx : Nat} {e : QueueElement}
    {rest : List QueueElement} (h : s.queues queueIdx = e :: rest) :
    s.process queueIdx =
      { s with
        queues := Function.update s.queues queueIdx rest
        q := s.q ++ [(e, queueIdx)] } := by
  simp only [process, h]

/-- `submitRequestsToMPI` with `e` from queue `queueIdx` at the front of
    `q`. -/
theorem submitRequestsToMPI_of_cons {s : RoPipeline ω} {e : QueueElement} {queueIdx : Nat}
    {rest : List (QueueElement × Nat)} (h : s.q = (e, queueIdx) :: rest) :
    s.submitRequestsToMPI =
      { s with
        q := rest
        transport := s.transport.submit e.type queueIdx e.threadId
        status := (s.transport.transport.submitRequestsToMPI e.type queueIdx e.threadId
          s.transport.nextRequest).2.foldl notify s.status } := by
  simp only [submitRequestsToMPI, h]

section Threads

variable (queueOf flatId : ω → Nat)

/-- The status byte a thread spins on: `handle->status[threadId]` of its
    context's handle, at its `get_flat_id()`. -/
def threadByte (w : ω) : Nat := statusByte (queueOf w) (flatId w)

variable [DecidableEq ω]

/-- Thread `w`'s `build_queue_element(cmd, ...)`: the element, with the
    thread's flat id, joins the queue of its context (`valid = 1`), and a
    blocking call starts its spin. -/
@[simps]
def buildQueueElement (s : RoPipeline ω) (w : ω) (cmd : RoNetCmd) : RoPipeline ω :=
  { s with
    queues := Function.update s.queues (queueOf w) (s.queues (queueOf w) ++ [⟨cmd, flatId w⟩])
    pc := if cmd.blocking then Function.update s.pc w (.spinning cmd) else s.pc
    calls := if cmd.blocking then Function.update s.calls w (s.calls w + 1) else s.calls }

/-- The end of the spin: `handle->status[threadId] = 0`, and the call
    returns. -/
@[simps]
def clearStatus (s : RoPipeline ω) (w : ω) : RoPipeline ω :=
  { s with
    status := Function.update s.status (threadByte queueOf flatId w) false
    pc := Function.update s.pc w .idle
    returns := Function.update s.returns w (s.returns w + 1) }

end Threads

/-- The read of the spin that finds the byte set. -/
@[simps]
def readStatus [DecidableEq ω] (s : RoPipeline ω) (w : ω) (type : RoNetCmd) : RoPipeline ω :=
  { s with pc := Function.update s.pc w (.clearing type) }

end RoPipeline

/-- One step of the path, for threads on the queues `queueOf` with the flat
    ids `flatId`: a thread outside a blocking call makes a call; the host
    processes a queue, submits the front of `q`, or makes progress with
    distinct indices among the first `testsomeIndicesSize`; a spinning
    thread finds its byte set; a thread past its spin clears its byte. -/
inductive PipelineStep {ω : Type} [DecidableEq ω] (queueOf flatId : ω → Nat) :
    RoPipeline ω → RoPipeline ω → Prop where
  | buildQueueElement (s : RoPipeline ω) (w : ω) (cmd : RoNetCmd) (hw : s.pc w = .idle) :
      PipelineStep queueOf flatId s (s.buildQueueElement queueOf flatId w cmd)
  | process (s : RoPipeline ω) (queueIdx : Nat) :
      PipelineStep queueOf flatId s (s.process queueIdx)
  | submitRequestsToMPI (s : RoPipeline ω) :
      PipelineStep queueOf flatId s s.submitRequestsToMPI
  | progress (s : RoPipeline ω) (testsomeIndices : List Nat) (hnodup : testsomeIndices.Nodup)
      (hlt : ∀ i ∈ testsomeIndices,
        i < min s.transport.transport.requests.length MPITransport.testsomeIndicesSize) :
      PipelineStep queueOf flatId s (s.progress testsomeIndices)
  | readStatus (s : RoPipeline ω) (w : ω) (type : RoNetCmd) (hw : s.pc w = .spinning type)
      (hset : s.status (RoPipeline.threadByte queueOf flatId w) = true) :
      PipelineStep queueOf flatId s (s.readStatus w type)
  | clearStatus (s : RoPipeline ω) (w : ω) (type : RoNetCmd) (hw : s.pc w = .clearing type) :
      PipelineStep queueOf flatId s (s.clearStatus queueOf flatId w)

/-! ## What each step does to the accounting -/

namespace RoPipeline

variable {ω : Type} {s : RoPipeline ω}

/-- A call adds its element to the unanswered requests of its thread when it
    blocks. -/
theorem pending_buildQueueElement [DecidableEq ω] (queueOf flatId : ω → Nat) (s : RoPipeline ω)
    (w : ω) (cmd : RoNetCmd) (b t : Nat) :
    (s.buildQueueElement queueOf flatId w cmd).pending b t =
      s.pending b t + if cmd.blocking ∧ queueOf w = b ∧ flatId w = t then 1 else 0 := by
  by_cases hb : queueOf w = b
  · subst hb
    by_cases ht : flatId w = t
    · subst ht
      cases hcmd : cmd.blocking
      · simp [pending, hcmd, List.countP_append]
      · simp [pending, hcmd, List.countP_append]
        omega
    · simp [pending, List.countP_append, ht]
  · simp [pending, Function.update_of_ne (Ne.symm hb), hb]

/-- `Queue::process` moves an element from its queue to `q`. -/
theorem pending_process (s : RoPipeline ω) (queueIdx b t : Nat) :
    (s.process queueIdx).pending b t = s.pending b t := by
  unfold process
  split
  · rfl
  · rename_i e rest h
    by_cases hb : queueIdx = b
    · subst hb
      simp only [pending, Function.update_self, h, List.countP_cons, List.countP_append]
      simp
      omega
    · simp [pending, Function.update_of_ne (Ne.symm hb), List.countP_append, hb]

/-- A step of the host that sends the notices `ns`: the threads are where
    they were, the notices join the history and set their bytes, and each
    answers a request the host held for its thread. -/
structure HostAnswers (s s' : RoPipeline ω) (ns : List Notice) : Prop where
  pc : s'.pc = s.pc
  calls : s'.calls = s.calls
  returns : s'.returns = s.returns
  status : s'.status = ns.foldl notify s.status
  answered : ∀ b t,
    s'.transport.answered b t = s.transport.answered b t + ns.countP (Notice.IsFor b t)
  pending : ∀ b t, s'.pending b t + ns.countP (Notice.IsFor b t) = s.pending b t

theorem hostAnswers_process (s : RoPipeline ω) (queueIdx : Nat) :
    HostAnswers s (s.process queueIdx) [] := by
  -- Only the queue and `q` change.
  have hkeep : (s.process queueIdx).pc = s.pc ∧ (s.process queueIdx).calls = s.calls ∧
      (s.process queueIdx).returns = s.returns ∧ (s.process queueIdx).status = s.status ∧
      (s.process queueIdx).transport = s.transport := by
    unfold process
    split <;> exact ⟨rfl, rfl, rfl, rfl, rfl⟩
  obtain ⟨hpc, hcalls, hreturns, hstatus, htransport⟩ := hkeep
  exact ⟨hpc, hcalls, hreturns, hstatus, fun b t => by simp [htransport],
    fun b t => by simp [pending_process]⟩

theorem hostAnswers_submitRequestsToMPI (s : RoPipeline ω) :
    ∃ ns, HostAnswers s s.submitRequestsToMPI ns := by
  unfold submitRequestsToMPI
  split
  · exact ⟨[], rfl, rfl, rfl, rfl, fun _ _ => rfl, fun _ _ => rfl⟩
  · rename_i e queueIdx rest h
    refine ⟨_, rfl, rfl, rfl, rfl, fun b t => TransportSystem.answered_submit _ _ _ _ _ _,
      fun b t => ?_⟩
    -- The element leaves `q` and the transport holds or answers it.
    have hin := TransportSystem.inFlight_submit_add s.transport e.type queueIdx e.threadId b t
    simp only [pending, h, List.countP_cons]
    by_cases hp : e.type.blocking ∧ queueIdx = b ∧ e.threadId = t
    · obtain ⟨hbl, rfl, rfl⟩ := hp
      simp [hbl] at hin ⊢
      omega
    · have hp' : ¬ (queueIdx = b ∧ e.threadId = t ∧ e.type.blocking) := fun h' =>
        hp ⟨h'.2.2, h'.1, h'.2.1⟩
      simp only [hp, if_false] at hin
      simp only [hp', decide_false, Bool.false_eq_true, if_false]
      omega

theorem hostAnswers_progress {s : RoPipeline ω} (hS : TransportInv s.transport)
    {is : List Nat} (hnodup : is.Nodup)
    (hlt : ∀ i ∈ is,
      i < min s.transport.transport.requests.length MPITransport.testsomeIndicesSize) :
    HostAnswers s (s.progress is) (s.transport.transport.progress is).2 where
  pc := rfl
  calls := rfl
  returns := rfl
  status := rfl
  answered := TransportSystem.answered_progress s.transport is
  pending := fun b t => by
    have hin := TransportSystem.inFlight_progress_add hS hnodup hlt b t
    simp only [pending, progress_queues, progress_q, progress_transport]
    omega

end RoPipeline

/-! ## The accounting of the blocking calls -/

open RoPipeline in
/-- The accounting of each thread's blocking calls: the queue and flat id of
    no thread have no requests and no answers; a thread's calls are its
    unanswered requests and its answers; its answers are its returns and its
    byte if set; its calls are its returns and the one it is in; a thread
    past its spin has its byte set; and the transport keeps its books. -/
structure PipelineInv {ω : Type} (queueOf flatId : ω → Nat) (s : RoPipeline ω) : Prop where
  transport : TransportInv s.transport
  unowned : ∀ b t, (∀ w, queueOf w = b → flatId w ≠ t) →
    s.pending b t = 0 ∧ s.transport.answered b t = 0
  calls_eq : ∀ w, s.calls w = s.pending (queueOf w) (flatId w) +
    s.transport.answered (queueOf w) (flatId w)
  answered_eq : ∀ w, s.transport.answered (queueOf w) (flatId w) =
    s.returns w + if s.status (threadByte queueOf flatId w) then 1 else 0
  open_eq : ∀ w, s.calls w = s.returns w + if s.pc w = .idle then 0 else 1
  clearing_set : ∀ w type, s.pc w = .clearing type →
    s.status (threadByte queueOf flatId w) = true

namespace PipelineInv

open RoPipeline

variable {ω : Type} {queueOf flatId : ω → Nat} {s s' : RoPipeline ω}

theorem init : PipelineInv queueOf flatId (RoPipeline.init : RoPipeline ω) where
  transport := TransportInv.init
  unowned := fun _ _ _ => ⟨rfl, rfl⟩
  calls_eq := fun _ => rfl
  answered_eq := fun _ => rfl
  open_eq := fun _ => rfl
  clearing_set := fun _ _ h => BlockingPc.noConfusion h

/-- At most one call of a thread is open, so the host owes it at most one
    answer, and none while its byte is set. -/
theorem pending_add_status_le (hs : PipelineInv queueOf flatId s) (w : ω) :
    s.pending (queueOf w) (flatId w) +
      (if s.status (threadByte queueOf flatId w) then 1 else 0) ≤ 1 := by
  have hcalls := hs.calls_eq w
  have hans := hs.answered_eq w
  have hopen := hs.open_eq w
  split_ifs at hopen <;> omega

section Distinct

variable (hinj : Function.Injective (threadByte queueOf flatId))
include hinj

/-- The notices of a step of the host set a thread's byte exactly when one
    of them is for that thread: a notice answers a request the host held,
    which some thread made, and no other thread has the byte. -/
theorem exists_notice_iff (hs : PipelineInv queueOf flatId s) {ns : List Notice}
    (h : HostAnswers s s' ns) (w : ω) :
    (∃ n ∈ ns, statusByte n.blockId n.threadId = threadByte queueOf flatId w) ↔
      0 < ns.countP (Notice.IsFor (queueOf w) (flatId w)) := by
  constructor
  · rintro ⟨n, hn, hbyte⟩
    -- The notice answers a request of some thread `w'`.
    have hfor : 0 < ns.countP (Notice.IsFor n.blockId n.threadId) :=
      List.countP_pos_iff.mpr ⟨n, hn, by simp [Notice.IsFor]⟩
    have hheld := h.pending n.blockId n.threadId
    obtain ⟨w', hq, ht⟩ : ∃ w', queueOf w' = n.blockId ∧ flatId w' = n.threadId := by
      by_contra hnone
      have hnone' : ∀ w', queueOf w' = n.blockId → flatId w' ≠ n.threadId :=
        fun w' hq ht => hnone ⟨w', hq, ht⟩
      have := (hs.unowned _ _ hnone').1
      omega
    -- That thread has the notice's byte, so it is `w`.
    have hw : w' = w := hinj (by rw [← hbyte, threadByte, hq, ht])
    subst hw
    rw [hq, ht]
    exact hfor
  · intro hpos
    obtain ⟨n, hn, hfor⟩ := List.countP_pos_iff.mp hpos
    obtain ⟨hq, ht⟩ : Notice.IsFor (queueOf w) (flatId w) n := of_decide_eq_true hfor
    exact ⟨n, hn, by rw [hq, ht, threadByte]⟩

/-- A step of the host keeps the accounting. -/
theorem host (hs : PipelineInv queueOf flatId s) {ns : List Notice} (h : HostAnswers s s' ns)
    (ht : TransportInv s'.transport) : PipelineInv queueOf flatId s' where
  transport := ht
  unowned := fun b t hb => by
    have hheld := h.pending b t
    have hans := h.answered b t
    have := hs.unowned b t hb
    omega
  calls_eq := fun w => by
    have hheld := h.pending (queueOf w) (flatId w)
    have hans := h.answered (queueOf w) (flatId w)
    rw [h.calls, hs.calls_eq w]
    omega
  answered_eq := fun w => by
    have hle := hs.pending_add_status_le w
    have hheld := h.pending (queueOf w) (flatId w)
    have hans := hs.answered_eq w
    -- The byte is set after the step iff it was, or the step answered `w`.
    have hbyte : s'.status (threadByte queueOf flatId w) = true ↔
        s.status (threadByte queueOf flatId w) = true ∨
          0 < ns.countP (Notice.IsFor (queueOf w) (flatId w)) := by
      rw [h.status, foldl_notify_apply, exists_notice_iff hinj hs h w]
    rw [h.answered, h.returns]
    by_cases hset : s.status (threadByte queueOf flatId w) = true
    · have hset' := hbyte.mpr (Or.inl hset)
      simp only [hset, if_true] at hle hans
      simp only [hset', if_true]
      omega
    · by_cases hnew : 0 < ns.countP (Notice.IsFor (queueOf w) (flatId w))
      · have hset' := hbyte.mpr (Or.inr hnew)
        simp only [hset, hset', Bool.false_eq_true, if_false, if_true] at hle hans ⊢
        omega
      · have hset' : ¬ s'.status (threadByte queueOf flatId w) = true := fun h' =>
          (hbyte.mp h').elim hset hnew
        simp only [hset, hset', Bool.false_eq_true, if_false] at hle hans ⊢
        omega
  open_eq := fun w => by
    rw [h.calls, h.returns, h.pc]
    exact hs.open_eq w
  clearing_set := fun w type hw => by
    rw [h.pc] at hw
    rw [h.status, foldl_notify_apply]
    exact Or.inl (hs.clearing_set w type hw)

variable [DecidableEq ω]

/-- A call keeps the accounting: it adds a blocking request to its own
    thread's, which no other thread shares. -/
theorem buildQueueElement (hs : PipelineInv queueOf flatId s) {w : ω} (hw : s.pc w = .idle)
    (cmd : RoNetCmd) : PipelineInv queueOf flatId (s.buildQueueElement queueOf flatId w cmd) where
  transport := hs.transport
  unowned := fun b t hb => by
    rw [pending_buildQueueElement, if_neg fun h => hb w h.2.1 h.2.2]
    exact hs.unowned b t hb
  calls_eq := fun w' => by
    rw [pending_buildQueueElement, buildQueueElement_transport]
    by_cases hw' : w' = w
    · subst hw'
      cases hcmd : cmd.blocking
      · simp [hcmd, hs.calls_eq w']
      · simp [hcmd, hs.calls_eq w']
        omega
    · -- Another thread has another queue or flat id.
      have hpair : ¬ (queueOf w = queueOf w' ∧ flatId w = flatId w') := fun h =>
        hw' (hinj (by rw [threadByte, threadByte, h.1, h.2])).symm
      have hcalls : (s.buildQueueElement queueOf flatId w cmd).calls w' = s.calls w' := by
        cases hcmd : cmd.blocking <;> simp [hcmd, Function.update_of_ne hw']
      rw [hcalls, hs.calls_eq w', if_neg fun h => hpair h.2]
      rfl
  answered_eq := hs.answered_eq
  open_eq := fun w' => by
    by_cases hw' : w' = w
    · subst hw'
      have hopen := hs.open_eq w'
      rw [hw, if_pos rfl] at hopen
      cases hcmd : cmd.blocking <;> simp [hcmd, hopen, hw]
    · cases hcmd : cmd.blocking <;> simp [hcmd, Function.update_of_ne hw', hs.open_eq w']
  clearing_set := fun w' type hw'' => by
    by_cases hw' : w' = w
    · subst hw'
      cases hcmd : cmd.blocking <;> simp [hcmd, hw] at hw''
    · have hpc : s.pc w' = .clearing type := by
        cases hcmd : cmd.blocking <;> simpa [hcmd, Function.update_of_ne hw'] using hw''
      exact hs.clearing_set w' type hpc

/-- The end of a spin keeps the accounting: the byte it clears counted the
    answer of the call that now returns, and no other thread has it. -/
theorem clearStatus (hs : PipelineInv queueOf flatId s) {w : ω} {type : RoNetCmd}
    (hw : s.pc w = .clearing type) :
    PipelineInv queueOf flatId (s.clearStatus queueOf flatId w) where
  transport := hs.transport
  unowned := hs.unowned
  calls_eq := hs.calls_eq
  answered_eq := fun w' => by
    by_cases hw' : w' = w
    · subst hw'
      have hans := hs.answered_eq w'
      rw [hs.clearing_set w' type hw, if_pos rfl] at hans
      simp [hans]
    · have hbyte : threadByte queueOf flatId w' ≠ threadByte queueOf flatId w :=
        fun h => hw' (hinj h)
      simp [Function.update_of_ne hbyte, Function.update_of_ne hw', hs.answered_eq w']
  open_eq := fun w' => by
    by_cases hw' : w' = w
    · subst hw'
      have hopen := hs.open_eq w'
      rw [hw] at hopen
      simp [hopen]
    · simp [Function.update_of_ne hw', hs.open_eq w']
  clearing_set := fun w' type' hw'' => by
    by_cases hw' : w' = w
    · subst hw'
      simp at hw''
    · have hbyte : threadByte queueOf flatId w' ≠ threadByte queueOf flatId w :=
        fun h => hw' (hinj h)
      rw [clearStatus_pc, Function.update_of_ne hw'] at hw''
      rw [clearStatus_status, Function.update_of_ne hbyte]
      exact hs.clearing_set w' type' hw''

omit hinj in
/-- The read that ends a spin keeps the accounting: the thread stays in its
    call, with its byte set. -/
theorem readStatus (hs : PipelineInv queueOf flatId s) {w : ω} {type : RoNetCmd}
    (hw : s.pc w = .spinning type) (hset : s.status (threadByte queueOf flatId w) = true) :
    PipelineInv queueOf flatId (s.readStatus w type) where
  transport := hs.transport
  unowned := hs.unowned
  calls_eq := hs.calls_eq
  answered_eq := hs.answered_eq
  open_eq := fun w' => by
    by_cases hw' : w' = w
    · subst hw'
      rw [readStatus_calls, readStatus_returns, hs.open_eq w', readStatus_pc,
        Function.update_self, hw]
      rfl
    · rw [readStatus_calls, readStatus_returns, readStatus_pc, Function.update_of_ne hw']
      exact hs.open_eq w'
  clearing_set := fun w' type' hw'' => by
    by_cases hw' : w' = w
    · subst hw'
      exact hset
    · rw [readStatus_pc, Function.update_of_ne hw'] at hw''
      exact hs.clearing_set w' type' hw''

/-- Every step of the path keeps the accounting. -/
theorem step (hs : PipelineInv queueOf flatId s) (h : PipelineStep queueOf flatId s s') :
    PipelineInv queueOf flatId s' := by
  cases h with
  | buildQueueElement w cmd hw => exact hs.buildQueueElement hinj hw cmd
  | process queueIdx =>
      exact hs.host hinj (hostAnswers_process s queueIdx) (by
        unfold RoPipeline.process
        split
        · exact hs.transport
        · exact hs.transport)
  | submitRequestsToMPI =>
      obtain ⟨ns, hns⟩ := hostAnswers_submitRequestsToMPI s
      refine hs.host hinj hns ?_
      unfold RoPipeline.submitRequestsToMPI
      split
      · exact hs.transport
      · exact hs.transport.submit _ _ _
  | progress is hnodup hlt =>
      exact hs.host hinj (hostAnswers_progress hs.transport hnodup hlt)
        (hs.transport.progress hnodup hlt)
  | readStatus w type hw hset => exact hs.readStatus hw hset
  | clearStatus w type hw => exact hs.clearStatus hinj hw

end Distinct

end PipelineInv

open RoPipeline in
/-- When the threads' status bytes are distinct, in every run of the
    reverse-offload path a thread has returned from no more blocking calls
    than the host has answered for it, the host has answered no more than it
    made, and a thread outside a call has nothing left unanswered anywhere
    on the path and its byte clear: a blocking call returns only once the
    host has done it. -/
theorem blocking_call_returns_after_answer {ω : Type} [DecidableEq ω] (queueOf flatId : ω → Nat)
    (hinj : Function.Injective (threadByte queueOf flatId)) {s : RoPipeline ω}
    (hs : Reachable (PipelineStep queueOf flatId) RoPipeline.init s) (w : ω) :
    s.returns w ≤ s.transport.answered (queueOf w) (flatId w) ∧
      s.transport.answered (queueOf w) (flatId w) ≤ s.calls w ∧
      (s.pc w = .idle → s.pending (queueOf w) (flatId w) = 0 ∧
        s.status (threadByte queueOf flatId w) = false) := by
  have hinv : PipelineInv queueOf flatId s :=
    Reachable.invariant PipelineInv.init (fun _ _ _ hs' h => hs'.step hinj h) hs
  have hcalls := hinv.calls_eq w
  have hans := hinv.answered_eq w
  have hopen := hinv.open_eq w
  refine ⟨by omega, by omega, fun hidle => ?_⟩
  rw [hidle, if_pos rfl] at hopen
  cases hset : s.status (threadByte queueOf flatId w)
  · simp only [hset, Bool.false_eq_true, if_false] at hans
    exact ⟨by omega, rfl⟩
  · simp only [hset, if_true] at hans
    omega

open RoPipeline in
/-- When two threads on different queues share a status byte, some run has
    one thread return from a blocking put that is still in its queue, while
    the other spins on a byte whose answer has come and been cleared. -/
theorem status_byte_alias_early_return {ω : Type} [DecidableEq ω] (queueOf flatId : ω → Nat)
    (w₁ w₂ : ω) (hbyte : threadByte queueOf flatId w₁ = threadByte queueOf flatId w₂)
    (hq : queueOf w₁ ≠ queueOf w₂) :
    ∃ s, Reachable (PipelineStep queueOf flatId) RoPipeline.init s ∧
      s.pc w₂ = .idle ∧ s.returns w₂ = 1 ∧ s.queues (queueOf w₂) = [⟨.put, flatId w₂⟩] ∧
      s.pending (queueOf w₂) (flatId w₂) = 1 ∧
      s.pc w₁ = .spinning .amoFop ∧ s.status (threadByte queueOf flatId w₁) = false ∧
      s.transport.answered (queueOf w₁) (flatId w₁) = 1 := by
  have hw : w₁ ≠ w₂ := fun h => hq (congrArg queueOf h)
  -- Thread `w₂` puts and spins; thread `w₁` fetches atomically and spins.
  let s₁ := (RoPipeline.init : RoPipeline ω).buildQueueElement queueOf flatId w₂ .put
  let s₂ := s₁.buildQueueElement queueOf flatId w₁ .amoFop
  have hq₂ : s₂.queues (queueOf w₁) = [⟨.amoFop, flatId w₁⟩] := by
    simp [s₂, s₁, Function.update_of_ne hq, RoPipeline.init]
  -- The host takes the atomic from `w₁`'s queue and answers it at once.
  let s₃ := s₂.process (queueOf w₁)
  have h₃ : s₃.q = [(⟨.amoFop, flatId w₁⟩, queueOf w₁)] := by
    show (s₂.process (queueOf w₁)).q = _
    rw [process_of_cons hq₂]
    rfl
  let s₄ := s₃.submitRequestsToMPI
  have h₄ : s₄ = { s₃ with
      q := []
      transport := s₃.transport.submit .amoFop (queueOf w₁) (flatId w₁)
      status := notify s₃.status ⟨queueOf w₁, flatId w₁, .amo⟩ } :=
    submitRequestsToMPI_of_cons h₃
  -- The answer sets the byte `w₂` spins on.
  have hset : s₄.status (threadByte queueOf flatId w₂) = true := by
    rw [h₄, ← hbyte]
    simp [notify, threadByte]
  have hpc₄ : s₄.pc w₂ = .spinning .put := by
    rw [h₄, show s₃.pc = s₂.pc by rw [show s₃ = s₂.process (queueOf w₁) from rfl,
      process_of_cons hq₂]]
    simp [s₂, s₁, RoNetCmd.blocking, Function.update_of_ne (Ne.symm hw)]
  -- `w₂` reads it, clears it and returns.
  let s₅ := s₄.readStatus w₂ .put
  let s₆ := s₅.clearStatus queueOf flatId w₂
  have hreach : Reachable (PipelineStep queueOf flatId) RoPipeline.init s₆ :=
    ((((((Reachable.refl.tail (.buildQueueElement _ w₂ .put rfl)).tail
      (.buildQueueElement _ w₁ .amoFop
        (by simp [RoNetCmd.blocking, Function.update_of_ne hw]; rfl))).tail
      (.process _ (queueOf w₁))).tail (.submitRequestsToMPI _)).tail
      (.readStatus _ w₂ .put hpc₄ hset)).tail (.clearStatus _ w₂ .put (by simp [s₅])))
  have h₃' : s₃ = { s₂ with
      queues := Function.update s₂.queues (queueOf w₁) []
      q := s₂.q ++ [(⟨.amoFop, flatId w₁⟩, queueOf w₁)] } := process_of_cons hq₂
  -- The transport answered the atomic at once and holds nothing.
  have hT : TransportSystem.init.submit .amoFop (queueOf w₁) (flatId w₁) =
      ⟨MPITransport.initTransport, 1, [⟨queueOf w₁, flatId w₁, .amo⟩], [], []⟩ := rfl
  refine ⟨s₆, hreach, ?_, ?_, ?_, ?_, ?_, ?_, ?_⟩
  · simp [s₆]
  · simp [s₆, s₅, h₄, h₃', s₂, s₁, RoPipeline.init]
  · simp [s₆, s₅, h₄, h₃', s₂, s₁, RoPipeline.init, Function.update_of_ne hq,
      Function.update_of_ne (Ne.symm hq)]
  · simp [s₆, s₅, h₄, h₃', s₂, s₁, RoPipeline.init, Function.update_of_ne hq,
      Function.update_of_ne (Ne.symm hq), pending, TransportSystem.inFlight, hT,
      MPITransport.initTransport, RoNetCmd.blocking]
  · simp [s₆, s₅, h₄, h₃', s₂, s₁, RoPipeline.init, RoNetCmd.blocking, Function.update_of_ne hw]
  · simp [s₆, hbyte]
  · simp [s₆, s₅, h₄, h₃', s₂, s₁, RoPipeline.init, TransportSystem.answered, hT,
      Notice.IsFor]

/-- Thread `0` of block `0` on context `1` and thread `0` of block `1` on
    context `0`, in a launch of blocks of 1024 threads, share byte `1024`. -/
theorem ctx_one_and_ctx_zero_alias_early_return :
    ∃ s, Reachable (PipelineStep (fun w : Bool => (roContextHandle (if w then 1 else 0)).queueIndex)
        fun w => (⟨⟨2, 1, 1⟩, ⟨1024, 1, 1⟩, ⟨if w then 0 else 1, 0, 0⟩, ⟨0, 0, 0⟩⟩ :
          Identity).globalThreadId) RoPipeline.init s ∧
      s.pc false = .idle ∧ s.returns false = 1 ∧
      s.queues (roContextHandle 0).queueIndex = [⟨.put, 1024⟩] ∧
      s.pending (roContextHandle 0).queueIndex 1024 = 1 ∧
      s.pc true = .spinning .amoFop ∧ s.status 1024 = false ∧
      s.transport.answered (roContextHandle 1).queueIndex 0 = 1 := by
  have h := status_byte_alias_early_return
    (fun w : Bool => (roContextHandle (if w then 1 else 0)).queueIndex)
    (fun w => (⟨⟨2, 1, 1⟩, ⟨1024, 1, 1⟩, ⟨if w then 0 else 1, 0, 0⟩, ⟨0, 0, 0⟩⟩ :
      Identity).globalThreadId) true false (by decide) (by decide)
  exact h

end RocShmem
