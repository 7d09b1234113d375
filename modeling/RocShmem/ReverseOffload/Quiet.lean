import RocShmem.ReverseOffload.Blocking

/-!
# Quiet on the Reverse-Offload Backend

`ROContext::quiet` and `ROContext::fence` send an `RO_NET_QUIET` or
`RO_NET_FENCE` element and block; `MPITransport::quiet` answers it at once if
nothing of the element's queue is outstanding, and otherwise parks the
thread in `waiting_quiet` until `progress` completes the queue's last
request. The point of a quiet is what it says about the calls before it: a
thread that returns from one has every `putmem_nbi` and `getmem_nbi` it made
before done by MPI.

That rests on three things the path keeps. A thread's elements reach the
host in the order it made them: a queue and the transport's `q` are first
in, first out, so the elements of a thread not yet submitted
(`RoPipeline.unsent`) keep their order, and a thread inside a call makes no
new ones, so the element of the open call stays the last of them
(`QuietInv.last_open`). When that element is a quiet and is submitted, every
earlier element of the thread is already with MPI, and the quiet is answered
only when the queue has nothing in flight (`QuietInv.quiet_done`). And
with distinct status bytes only that answer ends the thread's spin.

## Main definitions

* `BlockingPc.call?`: The command a thread is blocked in.
* `RoPipeline.unsent`: A thread's elements not yet submitted, oldest first.
* `TransportSystem.requestsOf`: A thread's requests in flight at MPI.
* `QuietInv`: The order and quiet invariant.

## Theorems

* `RoPipeline.unsent_process`, `RoPipeline.unsent_submitRequestsToMPI`:
  The host moves a thread's elements in order.
* `TransportSystem.requestsOf_quiet_submit`,
  `TransportSystem.requestsOf_quiet_progress`: A quiet is answered only with
  its thread's requests done.
* `quiet_returns_after_earlier_requests`: A thread that returns from a quiet
  or a fence has no element unsent and no request in flight.
-/

namespace RocShmem

open Transition

/-- The command a thread is blocked in, if it is in a call. -/
def BlockingPc.call? : BlockingPc → Option RoNetCmd
  | .idle => none
  | .spinning type => some type
  | .clearing type => some type

theorem RoNetCmd.blocking_of_isQuiet {cmd : RoNetCmd} (h : cmd.isQuiet = true) :
    cmd.blocking = true := by
  cases cmd <;> simp_all [RoNetCmd.isQuiet, RoNetCmd.blocking]

namespace TransportSystem

/-- Thread `t` of queue `b`'s requests in flight at MPI, blocking or not. -/
def requestsOf (S : TransportSystem) (b t : Nat) : Nat :=
  S.transport.requests.countP fun r => r.blockId = b ∧ r.threadId = t

/-- A submitted element of another thread leaves a thread's requests and its
    parked quiets as they were, but for parking more. -/
theorem requestsOf_submit_of_ne (S : TransportSystem) (cmd : RoNetCmd)
    {queueIdx threadId b t : Nat} (hne : ¬ (queueIdx = b ∧ threadId = t)) :
    (S.submit cmd queueIdx threadId).requestsOf b t = S.requestsOf b t ∧
      (t ∈ S.transport.waitingQuiet b →
        t ∈ (S.submit cmd queueIdx threadId).transport.waitingQuiet b) := by
  rcases MPITransport.submitRequestsToMPI_blocking_cases S.transport cmd queueIdx threadId
    S.nextRequest with heq | ⟨-, heq⟩ | ⟨-, heq⟩
  · -- A new request, of the other thread.
    exact ⟨by simp [requestsOf, submit, heq, List.countP_append, hne],
      fun ht => by simpa [submit, heq] using ht⟩
  · exact ⟨by simp [requestsOf, submit, heq], fun ht => by simpa [submit, heq] using ht⟩
  · unfold MPITransport.quiet at heq
    split at heq
    · exact ⟨by simp [requestsOf, submit, heq], fun ht => by simpa [submit, heq] using ht⟩
    · -- The other thread parks, after those parked before.
      refine ⟨by simp [requestsOf, submit, heq], fun ht => ?_⟩
      simp only [submit, heq]
      by_cases hb : b = queueIdx
      · subst hb
        simp [ht]
      · simpa [Function.update_of_ne hb] using ht

/-- A quiet that reaches the transport is answered at once, with nothing of
    its queue in flight, or parks its thread. -/
theorem requestsOf_quiet_submit {S : TransportSystem} (hS : TransportInv S) {cmd : RoNetCmd}
    (hq : cmd.isQuiet = true) (queueIdx threadId : Nat) :
    threadId ∈ (S.submit cmd queueIdx threadId).transport.waitingQuiet queueIdx ∨
      (S.submit cmd queueIdx threadId).requestsOf queueIdx threadId = 0 := by
  rcases MPITransport.submitRequestsToMPI_cases S.transport cmd queueIdx threadId
    S.nextRequest with ⟨hnq, -⟩ | ⟨hnq, -⟩ | ⟨-, heq⟩
  · exact absurd hq (by simp [hnq])
  · exact absurd hq (by simp [hnq])
  · simp only [requestsOf, submit, heq]
    unfold MPITransport.quiet
    split
    · -- Nothing outstanding: the counters count the requests in flight.
      rename_i hzero
      have hcount := hS.counts queueIdx
      rw [hzero] at hcount
      refine Or.inr (List.countP_eq_zero.mpr fun r hr hrq => ?_)
      have hnone := List.countP_eq_zero.mp (by omega : (S.transport.requests.countP
        fun r => r.blockId = queueIdx) = 0) r hr
      simp only [decide_eq_true_eq] at hrq hnone
      exact hnone hrq.1
    · exact Or.inl (by simp)

/-- `progress` answers a parked quiet only when its queue has nothing in
    flight, and completes requests without starting any. -/
theorem requestsOf_quiet_progress {S : TransportSystem} (hS : TransportInv S) {is : List Nat}
    (hnodup : is.Nodup)
    (hlt : ∀ i ∈ is, i < min S.transport.requests.length MPITransport.testsomeIndicesSize)
    {b t : Nat} (h : t ∈ S.transport.waitingQuiet b ∨ S.requestsOf b t = 0) :
    t ∈ (S.progress is).transport.waitingQuiet b ∨ (S.progress is).requestsOf b t = 0 := by
  have hlt' := MPITransport.lt_length_of_testsome hlt
  have hc := MPITransport.progress_completes hS.counts hS.quietWaits hnodup hlt'
  have hperm := MPITransport.progress_requests_perm S.transport hnodup hlt'
  -- The requests kept are among those before.
  have hkept := (hperm.countP_eq fun r => r.blockId = b ∧ r.threadId = t)
  rw [List.countP_append] at hkept
  by_cases hstay : t ∈ (S.progress is).transport.waitingQuiet b
  · exact Or.inl hstay
  · right
    rcases h with hwait | hnone
    · -- The thread left the list: its quiet was answered, with the queue empty.
      have hcount := hc.quiet_count b t
      have hgone : ((S.transport.progress is).1.waitingQuiet b).count t = 0 :=
        List.count_eq_zero.mpr hstay
      have hwas : 0 < (S.transport.waitingQuiet b).count t := List.count_pos_iff.mpr hwait
      have hnotice : (⟨b, t, .quiet⟩ : Notice) ∈ (S.transport.progress is).2 :=
        List.count_pos_iff.mp (by omega)
      have hfree := hc.quiet_free _ hnotice rfl
      refine List.countP_eq_zero.mpr fun r hr hrq => ?_
      simp only [decide_eq_true_eq] at hrq
      exact List.countP_eq_zero.mp hfree r hr (by simpa using hrq.1)
    · show (S.transport.progress is).1.requests.countP _ = 0
      unfold requestsOf at hnone
      omega

end TransportSystem

namespace RoPipeline

variable {ω : Type}

/-- The elements of thread `t` of queue `b` not yet submitted to MPI, oldest
    first: those in the transport's `q`, then those in the queue. -/
def unsent (s : RoPipeline ω) (b t : Nat) : List QueueElement :=
  (s.q.filter fun p => p.2 = b ∧ p.1.threadId = t).map (·.1) ++
    (s.queues b).filter (·.threadId = t)

/-- A thread's unanswered blocking requests are its blocking elements not
    yet submitted and those the transport holds. -/
theorem pending_eq_unsent (s : RoPipeline ω) (b t : Nat) :
    s.pending b t = (s.unsent b t).countP (·.type.blocking) + s.transport.inFlight b t := by
  have hq : (((s.q.filter fun p => p.2 = b ∧ p.1.threadId = t).map (·.1)).countP
      (·.type.blocking)) = s.q.countP fun p => p.2 = b ∧ p.1.threadId = t ∧ p.1.type.blocking := by
    rw [List.countP_map, List.countP_filter]
    apply List.countP_congr
    intro p _
    simp only [Function.comp_apply, Bool.and_eq_true, decide_eq_true_eq]
    exact ⟨fun h => ⟨h.2.1, h.2.2, h.1⟩, fun h => ⟨h.2.2, h.1, h.2.1⟩⟩
  have he : (((s.queues b).filter (·.threadId = t)).countP (·.type.blocking)) =
      (s.queues b).countP fun e => e.threadId = t ∧ e.type.blocking := by
    rw [List.countP_filter]
    apply List.countP_congr
    intro e _
    simp [and_comm]
  simp only [pending, unsent, List.countP_append, hq, he]
  omega

/-- A call appends its element to its thread's unsent ones. -/
theorem unsent_buildQueueElement [DecidableEq ω] (queueOf flatId : ω → Nat) (s : RoPipeline ω)
    (w : ω) (cmd : RoNetCmd) (b t : Nat) :
    (s.buildQueueElement queueOf flatId w cmd).unsent b t =
      s.unsent b t ++ if queueOf w = b ∧ flatId w = t then [⟨cmd, flatId w⟩] else [] := by
  by_cases hb : queueOf w = b
  · subst hb
    by_cases ht : flatId w = t
    · subst ht
      simp [unsent, List.filter_append]
    · simp [unsent, List.filter_append, ht]
  · simp [unsent, Function.update_of_ne (Ne.symm hb), hb]

/-- `Queue::process` moves the front of a queue to the back of `q`, which
    keeps the order of every thread's unsent elements. -/
theorem unsent_process (s : RoPipeline ω) (queueIdx b t : Nat) :
    (s.process queueIdx).unsent b t = s.unsent b t := by
  cases h : s.queues queueIdx with
  | nil => rw [show s.process queueIdx = s by simp [process, h]]
  | cons e rest =>
      rw [process_of_cons h]
      by_cases hb : queueIdx = b
      · subst hb
        by_cases ht : e.threadId = t
        · simp [unsent, h, ht, List.filter_append]
        · simp [unsent, h, ht, List.filter_append]
      · simp [unsent, Function.update_of_ne (Ne.symm hb), hb, List.filter_append]

/-- `submitRequestsToMPI` takes the oldest unsent element of the thread whose
    element is at the front of `q`. -/
theorem unsent_submitRequestsToMPI {s : RoPipeline ω} {e : QueueElement} {queueIdx : Nat}
    {rest : List (QueueElement × Nat)} (h : s.q = (e, queueIdx) :: rest) (b t : Nat) :
    s.unsent b t =
      (if queueIdx = b ∧ e.threadId = t then [e] else []) ++ s.submitRequestsToMPI.unsent b t := by
  rw [submitRequestsToMPI_of_cons h]
  by_cases hp : queueIdx = b ∧ e.threadId = t
  · simp [unsent, h, hp]
  · simp [unsent, h, hp]

end RoPipeline

open RoPipeline in
/-- The order and quiet invariant: the element of a thread's open call, while
    unsent, is the last of its unsent elements; and once a quiet or fence of
    the thread has been submitted, the thread is parked in `waiting_quiet` or
    has no request in flight. -/
structure QuietInv {ω : Type} (queueOf flatId : ω → Nat) (s : RoPipeline ω) : Prop where
  last_open : ∀ w type, (s.pc w).call? = some type →
    s.unsent (queueOf w) (flatId w) = [] ∨
      (s.unsent (queueOf w) (flatId w)).getLast? = some ⟨type, flatId w⟩
  quiet_done : ∀ w type, type.isQuiet = true → (s.pc w).call? = some type →
    s.unsent (queueOf w) (flatId w) = [] →
    flatId w ∈ s.transport.transport.waitingQuiet (queueOf w) ∨
      s.transport.requestsOf (queueOf w) (flatId w) = 0

namespace QuietInv

open RoPipeline

variable {ω : Type} {queueOf flatId : ω → Nat} {s s' : RoPipeline ω}

theorem init : QuietInv queueOf flatId (RoPipeline.init : RoPipeline ω) where
  last_open := fun _ _ h => absurd h (by simp [RoPipeline.init, BlockingPc.call?])
  quiet_done := fun _ _ _ h => absurd h (by simp [RoPipeline.init, BlockingPc.call?])

/-- `Queue::process` keeps the invariant: no unsent element changes place. -/
theorem process (hs : QuietInv queueOf flatId s) (queueIdx : Nat) :
    QuietInv queueOf flatId (s.process queueIdx) := by
  have hkeep := (hostAnswers_process s queueIdx)
  have htransport : (s.process queueIdx).transport = s.transport := by
    unfold RoPipeline.process
    split <;> rfl
  refine ⟨fun w type hw => ?_, fun w type hq hw hnil => ?_⟩
  · rw [hkeep.pc] at hw
    rw [unsent_process]
    exact hs.last_open w type hw
  · rw [hkeep.pc] at hw
    rw [unsent_process] at hnil
    rw [htransport]
    exact hs.quiet_done w type hq hw hnil

/-- `progress` keeps the invariant: it moves no element, and answers a
    parked quiet only with its queue empty. -/
theorem progress (hs : QuietInv queueOf flatId s) (hS : TransportInv s.transport)
    {is : List Nat} (hnodup : is.Nodup)
    (hlt : ∀ i ∈ is, i < min s.transport.transport.requests.length
      MPITransport.testsomeIndicesSize) :
    QuietInv queueOf flatId (s.progress is) where
  last_open := hs.last_open
  quiet_done := fun w type hq hw hnil =>
    TransportSystem.requestsOf_quiet_progress hS hnodup hlt (hs.quiet_done w type hq hw hnil)

/-- The read that ends a spin keeps the invariant: the thread stays in its
    call. -/
theorem readStatus [DecidableEq ω] (hs : QuietInv queueOf flatId s) {w : ω} {type : RoNetCmd}
    (hw : s.pc w = .spinning type) : QuietInv queueOf flatId (s.readStatus w type) := by
  -- The thread is in the same call before and after.
  have hcall : ∀ w', ((s.readStatus w type).pc w').call? = (s.pc w').call? := by
    intro w'
    by_cases hw' : w' = w
    · subst hw'
      simp [hw, BlockingPc.call?]
    · simp [Function.update_of_ne hw']
  exact ⟨fun w' type' h => hs.last_open w' type' ((hcall w').symm.trans h),
    fun w' type' hq h hnil => hs.quiet_done w' type' hq ((hcall w').symm.trans h) hnil⟩

section Distinct

variable [DecidableEq ω] (hinj : Function.Injective (threadByte queueOf flatId))
include hinj

omit [DecidableEq ω] in
/-- Distinct bytes give distinct queue and flat id pairs. -/
theorem pair_ne {w w' : ω} (hw : w' ≠ w) : ¬ (queueOf w' = queueOf w ∧ flatId w' = flatId w) :=
  fun h => hw (hinj (by rw [threadByte, threadByte, h.1, h.2]))

/-- A call keeps the invariant: its element is the last of its thread's, and
    no other thread's elements move. -/
theorem buildQueueElement (hs : QuietInv queueOf flatId s) {w : ω} (hw : s.pc w = .idle)
    (cmd : RoNetCmd) : QuietInv queueOf flatId (s.buildQueueElement queueOf flatId w cmd) := by
  refine ⟨fun w' type h => ?_, fun w' type hq h hnil => ?_⟩
  · rw [unsent_buildQueueElement]
    by_cases hw' : w' = w
    · subst hw'
      -- The caller was idle, so the call it is in now is this one.
      cases hcmd : cmd.blocking <;>
        simp [hcmd, hw, BlockingPc.call?] at h
      subst h
      simp
    · rw [if_neg (pair_ne hinj (Ne.symm hw')), List.append_nil]
      have hpc : (s.pc w').call? = some type := by
        cases hcmd : cmd.blocking <;> simpa [hcmd, Function.update_of_ne hw'] using h
      exact hs.last_open w' type hpc
  · rw [unsent_buildQueueElement] at hnil
    by_cases hw' : w' = w
    · subst hw'
      cases hcmd : cmd.blocking <;> simp [hcmd, hw, BlockingPc.call?] at h
      simp at hnil
    · rw [if_neg (pair_ne hinj (Ne.symm hw')), List.append_nil] at hnil
      have hpc : (s.pc w').call? = some type := by
        cases hcmd : cmd.blocking <;> simpa [hcmd, Function.update_of_ne hw'] using h
      exact hs.quiet_done w' type hq hpc hnil

omit [DecidableEq ω] hinj in
/-- `submitRequestsToMPI` keeps the invariant: it submits the oldest unsent
    element of one thread, which is the open quiet only when nothing of the
    thread is left behind it. -/
theorem submitRequestsToMPI (hs : QuietInv queueOf flatId s) (hS : TransportInv s.transport) :
    QuietInv queueOf flatId s.submitRequestsToMPI := by
  cases hq : s.q with
  | nil => rwa [show s.submitRequestsToMPI = s by simp [RoPipeline.submitRequestsToMPI, hq]]
  | cons p rest =>
      obtain ⟨e, queueIdx⟩ := p
      have hunsent := unsent_submitRequestsToMPI hq
      have hs' := submitRequestsToMPI_of_cons hq
      have hpc : s.submitRequestsToMPI.pc = s.pc := by rw [hs']
      have htr : s.submitRequestsToMPI.transport =
          s.transport.submit e.type queueIdx e.threadId := by rw [hs']
      refine ⟨fun w type h => ?_, fun w type hquiet h hnil => ?_⟩
      · rw [hpc] at h
        have hlast := hs.last_open w type h
        rw [hunsent] at hlast
        -- Dropping the oldest element keeps the last one.
        split at hlast
        · rcases hrest : s.submitRequestsToMPI.unsent (queueOf w) (flatId w) with _ | ⟨x, xs⟩
          · exact Or.inl rfl
          · rw [hrest] at hlast
            refine Or.inr ?_
            rcases hlast with hnil | hlast
            · simp at hnil
            · simpa using hlast
        · simpa using hlast
      · rw [hpc] at h
        rw [htr]
        by_cases hp : queueIdx = queueOf w ∧ e.threadId = flatId w
        · -- The thread's last unsent element goes: it is the open quiet.
          have hlast := hs.last_open w type h
          rw [hunsent, if_pos hp, hnil] at hlast
          simp only [List.append_nil, List.cons_ne_nil, false_or, List.getLast?_singleton,
            Option.some.injEq] at hlast
          subst hlast
          obtain ⟨hqi, -⟩ := hp
          rw [← hqi]
          exact TransportSystem.requestsOf_quiet_submit hS hquiet queueIdx _
        · -- Another thread's element: this thread's state at the host stays.
          have hold := hunsent (queueOf w) (flatId w)
          rw [if_neg hp, List.nil_append, hnil] at hold
          have hkeep := TransportSystem.requestsOf_submit_of_ne s.transport e.type hp
          rcases hs.quiet_done w type hquiet h hold with hwait | hnone
          · exact Or.inl (hkeep.2 hwait)
          · exact Or.inr (hkeep.1.trans hnone)

omit hinj in
/-- The end of a spin keeps the invariant: the thread leaves its call. -/
theorem clearStatus (hs : QuietInv queueOf flatId s) {w : ω} :
    QuietInv queueOf flatId (s.clearStatus queueOf flatId w) := by
  have hcall : ∀ w' type, ((s.clearStatus queueOf flatId w).pc w').call? = some type →
      (s.pc w').call? = some type := by
    intro w' type h
    by_cases hw' : w' = w
    · subst hw'
      simp [BlockingPc.call?] at h
    · simpa [Function.update_of_ne hw'] using h
  exact ⟨fun w' type h => hs.last_open w' type (hcall w' type h),
    fun w' type hq h hnil => hs.quiet_done w' type hq (hcall w' type h) hnil⟩

/-- Every step of the path keeps the invariant, alongside the accounting. -/
theorem step (hs : QuietInv queueOf flatId s) (hp : PipelineInv queueOf flatId s)
    (h : PipelineStep queueOf flatId s s') : QuietInv queueOf flatId s' := by
  cases h with
  | buildQueueElement w cmd hw => exact hs.buildQueueElement hinj hw cmd
  | process queueIdx => exact hs.process queueIdx
  | submitRequestsToMPI => exact hs.submitRequestsToMPI hp.transport
  | progress is hnodup hlt => exact hs.progress hp.transport hnodup hlt
  | readStatus w type hw _ => exact hs.readStatus hw
  | clearStatus w type _ => exact hs.clearStatus

end Distinct

end QuietInv

open RoPipeline in
/-- With distinct status bytes, a thread that returns from a quiet or a fence
    (it has read its byte set and is about to clear it) has no element left
    unsent and no request in flight at MPI: every `putmem_nbi` and
    `getmem_nbi` it made before the quiet is done. -/
theorem quiet_returns_after_earlier_requests {ω : Type} [DecidableEq ω]
    (queueOf flatId : ω → Nat) (hinj : Function.Injective (threadByte queueOf flatId))
    {s : RoPipeline ω} (hs : Reachable (PipelineStep queueOf flatId) RoPipeline.init s) (w : ω)
    {type : RoNetCmd} (hquiet : type.isQuiet = true) (hpc : s.pc w = .clearing type) :
    s.unsent (queueOf w) (flatId w) = [] ∧ s.transport.requestsOf (queueOf w) (flatId w) = 0 := by
  -- The accounting and the order invariant hold along the run.
  have hinv : PipelineInv queueOf flatId s ∧ QuietInv queueOf flatId s :=
    Reachable.invariant (I := fun s' => PipelineInv queueOf flatId s' ∧ QuietInv queueOf flatId s')
      ⟨PipelineInv.init, QuietInv.init⟩
      (fun _ _ _ h hstep => ⟨h.1.step hinj hstep, h.2.step hinj h.1 hstep⟩) hs
  obtain ⟨hp, hq⟩ := hinv
  -- The byte is set, so the quiet is answered and nothing of the thread is
  -- pending.
  have hpending : s.pending (queueOf w) (flatId w) = 0 := by
    have hcalls := hp.calls_eq w
    have hans := hp.answered_eq w
    have hopen := hp.open_eq w
    rw [hp.clearing_set w type hpc, if_pos rfl] at hans
    rw [hpc, if_neg BlockingPc.noConfusion] at hopen
    omega
  rw [pending_eq_unsent] at hpending
  have hcall : (s.pc w).call? = some type := by
    rw [hpc]
    rfl
  -- The quiet is no longer unsent, so no element of the thread is.
  have hnil : s.unsent (queueOf w) (flatId w) = [] := by
    rcases hq.last_open w type hcall with hnil | hlast
    · exact hnil
    · have hblocking : 0 < (s.unsent (queueOf w) (flatId w)).countP (·.type.blocking) :=
        List.countP_pos_iff.mpr
          ⟨_, List.mem_of_getLast? hlast, RoNetCmd.blocking_of_isQuiet hquiet⟩
      omega
  refine ⟨hnil, ?_⟩
  rcases hq.quiet_done w type hquiet hcall hnil with hwait | hnone
  · -- Nor is the quiet parked: the transport holds nothing of the thread.
    have hparked : 0 < (s.transport.transport.waitingQuiet (queueOf w)).count (flatId w) :=
      List.count_pos_iff.mpr hwait
    simp only [TransportSystem.inFlight] at hpending
    omega
  · exact hnone

end RocShmem
