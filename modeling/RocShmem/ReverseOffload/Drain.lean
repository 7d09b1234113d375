import RocShmem.ReverseOffload.Quiet

/-!
# No Blocking Call of the Reverse-Offload Backend Is Stuck

A thread in a blocking call waits on the host: its element must be taken
from its queue (`Queue::process`), handed to MPI (`submitRequestsToMPI`)
and, for a request or a quiet behind outstanding requests, completed
(`progress`). Nothing on that path waits on the GPU. So from any state the
host can on its own, with MPI finishing the requests it is given, answer
every open call: process every queue until it is empty, submit everything
in `q`, and let `progress` complete the requests in flight, at most
`testsomeIndicesSize` at a time. Once no request is in flight no quiet can
be parked (`TransportInv.quietWaits`), so every blocking request has been
answered, and with distinct status bytes every spinning thread finds its
byte set (`host_answers_every_open_call`). The host takes elements only from
the `poll_block_count_` queues `ro_net_poll` visits, which is
`maximum_num_contexts_`: every context's queue is among them once there is a
context (`queueIndex_lt_of_mem_setupCtxs`).

Only finitely many queues hold elements in a reachable state, each of them
some thread's (`queues_finite_support`), which is what lets the host's run
be finite.

## Main definitions

* `defaultMaximumNumContexts`: The number of contexts, and of queues polled.
* `HostStep`: A step of the host alone.

## Theorems

* `queueIndex_lt_of_mem_setupCtxs`: Every context's queue is polled.
* `HostStep.run_drainQueue`, `HostStep.run_drainQueues`,
  `HostStep.run_submitAll`, `HostStep.run_completeAll`: The phases of the
  host's run.
* `queues_finite_support`: The queues that hold elements are finitely many.
* `host_answers_every_open_call`: From every reachable state the host alone
  reaches a state with nothing left on the path and every spinning thread's
  byte set.
-/

namespace RocShmem

open Transition

/-- The backend's `maximum_num_contexts_` unless `ROCSHMEM_MAX_NUM_CONTEXTS`
    says otherwise; `ro_net_poll` polls that many queues
    (`poll_block_count_`). -/
def defaultMaximumNumContexts : Nat := 1024

/-- Once there is a context, every context the backend hands out, the
    default one included, drives a queue that `ro_net_poll` polls. -/
theorem queueIndex_lt_of_mem_setupCtxs {n : Nat} (hn : 0 < n) {h : HandleId}
    (hh : h = .default ∨ h ∈ setupCtxs n) : h.queueIndex < n := by
  rcases hh with rfl | hh
  · exact hn
  · obtain ⟨i, hi, rfl⟩ := List.mem_map.mp hh
    rw [List.mem_range] at hi
    unfold roContextHandle
    split
    · exact hn
    · exact hi

/-- A step of the host alone: `Queue::process` on one of the
    `pollBlockCount` queues `ro_net_poll` visits, `submitRequestsToMPI`, or
    `progress` with distinct indices among the first `testsomeIndicesSize`. -/
inductive HostStep {ω : Type} (pollBlockCount : Nat) : RoPipeline ω → RoPipeline ω → Prop where
  | process (s : RoPipeline ω) (queueIdx : Nat) (hq : queueIdx < pollBlockCount) :
      HostStep pollBlockCount s (s.process queueIdx)
  | submitRequestsToMPI (s : RoPipeline ω) : HostStep pollBlockCount s s.submitRequestsToMPI
  | progress (s : RoPipeline ω) (testsomeIndices : List Nat) (hnodup : testsomeIndices.Nodup)
      (hlt : ∀ i ∈ testsomeIndices,
        i < min s.transport.transport.requests.length MPITransport.testsomeIndicesSize) :
      HostStep pollBlockCount s (s.progress testsomeIndices)

namespace HostStep

open RoPipeline

variable {ω : Type} {pollBlockCount : Nat} {s s' : RoPipeline ω}

theorem pipelineStep [DecidableEq ω] (queueOf flatId : ω → Nat)
    (h : HostStep pollBlockCount s s') : PipelineStep queueOf flatId s s' := by
  cases h with
  | process queueIdx _ => exact .process s queueIdx
  | submitRequestsToMPI => exact .submitRequestsToMPI s
  | progress is hnodup hlt => exact .progress s is hnodup hlt

/-- A run of the host is a run of the path. -/
theorem reachable_of_run [DecidableEq ω] (queueOf flatId : ω → Nat)
    (hs : Reachable (PipelineStep queueOf flatId) RoPipeline.init s)
    (h : Relation.ReflTransGen (HostStep pollBlockCount) s s') :
    Reachable (PipelineStep queueOf flatId) RoPipeline.init s' := by
  induction h with
  | refl => exact hs
  | tail _ hstep ih => exact ih.tail (hstep.pipelineStep queueOf flatId)

/-- The host leaves the threads where they are. -/
theorem pc_eq (h : HostStep pollBlockCount s s') : s'.pc = s.pc := by
  cases h with
  | process queueIdx _ => exact (hostAnswers_process s queueIdx).pc
  | submitRequestsToMPI => exact (hostAnswers_submitRequestsToMPI s).choose_spec.pc
  | progress is hnodup hlt => rfl

theorem run_pc_eq (h : Relation.ReflTransGen (HostStep pollBlockCount) s s') :
    s'.pc = s.pc := by
  induction h with
  | refl => rfl
  | tail _ hstep ih => exact (pc_eq hstep).trans ih

/-- `Queue::process`, repeated, empties one queue and leaves the others. -/
theorem run_drainQueue (s : RoPipeline ω) {queueIdx : Nat} (hq : queueIdx < pollBlockCount) :
    ∃ s', Relation.ReflTransGen (HostStep pollBlockCount) s s' ∧ s'.queues queueIdx = [] ∧
      ∀ b, b ≠ queueIdx → s'.queues b = s.queues b := by
  -- The induction is on the number of elements in the queue.
  induction h : (s.queues queueIdx).length generalizing s with
  | zero => exact ⟨s, .refl, List.length_eq_zero_iff.mp h, fun _ _ => rfl⟩
  | succ n ih =>
      obtain ⟨e, rest, hcons⟩ := List.exists_cons_of_length_eq_add_one h
      have hproc := process_of_cons hcons
      have hlen : ((s.process queueIdx).queues queueIdx).length = n := by
        rw [hproc]
        simp [hcons] at h ⊢
        exact h
      obtain ⟨s', hrun, hnil, hother⟩ := ih (s.process queueIdx) hlen
      refine ⟨s', Relation.ReflTransGen.head (.process s queueIdx hq) hrun, hnil, fun b hb => ?_⟩
      rw [hother b hb, hproc]
      exact Function.update_of_ne hb _ _

/-- Every queue among `queueIdxs`, drained in turn: when these are all the
    queues that hold elements, and all are polled, every queue ends empty. -/
theorem run_drainQueues (queueIdxs : List Nat) (hpoll : ∀ b ∈ queueIdxs, b < pollBlockCount)
    (s : RoPipeline ω) (hsupp : ∀ b, s.queues b ≠ [] → b ∈ queueIdxs) :
    ∃ s', Relation.ReflTransGen (HostStep pollBlockCount) s s' ∧ ∀ b, s'.queues b = [] := by
  induction queueIdxs generalizing s with
  | nil => exact ⟨s, .refl, fun b => Classical.byContradiction fun hb => by simpa using hsupp b hb⟩
  | cons b₀ queueIdxs ih =>
      obtain ⟨s₁, hrun₁, hnil, hother⟩ := run_drainQueue s (hpoll b₀ List.mem_cons_self)
      -- The queues still holding elements are among the rest.
      have hsupp₁ : ∀ b, s₁.queues b ≠ [] → b ∈ queueIdxs := by
        intro b hb
        have hne : b ≠ b₀ := fun heq => hb (heq ▸ hnil)
        rcases List.mem_cons.mp (hsupp b (by rwa [← hother b hne])) with heq | hmem
        · exact absurd heq hne
        · exact hmem
      obtain ⟨s', hrun', hall⟩ :=
        ih (fun b hb => hpoll b (List.mem_cons_of_mem _ hb)) s₁ hsupp₁
      exact ⟨s', hrun₁.trans hrun', hall⟩

/-- `submitRequestsToMPI`, repeated, empties `q` and leaves the queues. -/
theorem run_submitAll (s : RoPipeline ω) :
    ∃ s', Relation.ReflTransGen (HostStep pollBlockCount) s s' ∧ s'.q = [] ∧
      s'.queues = s.queues := by
  -- The induction is on the length of `q`.
  induction h : s.q.length generalizing s with
  | zero => exact ⟨s, .refl, List.length_eq_zero_iff.mp h, rfl⟩
  | succ n ih =>
      obtain ⟨⟨e, queueIdx⟩, rest, hcons⟩ := List.exists_cons_of_length_eq_add_one h
      have hsub := submitRequestsToMPI_of_cons hcons
      have hlen : s.submitRequestsToMPI.q.length = n := by
        rw [hsub]
        simp [hcons] at h ⊢
        exact h
      obtain ⟨s', hrun, hnil, hqueues⟩ := ih s.submitRequestsToMPI hlen
      refine ⟨s', Relation.ReflTransGen.head (.submitRequestsToMPI s) hrun, hnil, ?_⟩
      rw [hqueues, hsub]

/-- `progress` with MPI reporting done the first `min n testsomeIndicesSize`
    of the `n` requests in flight takes that many out of flight. -/
theorem length_progress_range (s : MPITransport) :
    (s.progress (List.range (min s.requests.length MPITransport.testsomeIndicesSize))
      ).1.requests.length =
        s.requests.length - min s.requests.length MPITransport.testsomeIndicesSize := by
  have hlt : ∀ i ∈ List.range (min s.requests.length MPITransport.testsomeIndicesSize),
      i < s.requests.length := fun i hi => by
    have := List.mem_range.mp hi
    omega
  have hperm := MPITransport.progress_requests_perm s List.nodup_range hlt
  -- Every reported index is a request, so the done ones are as many.
  have hdone : ((List.range (min s.requests.length MPITransport.testsomeIndicesSize)).filterMap
      fun i => s.requests[i]?).length = min s.requests.length MPITransport.testsomeIndicesSize := by
    rw [List.filterMap_length_eq_length.mpr fun i hi => by simp [hlt i hi], List.length_range]
  have hlen := hperm.length_eq
  rw [List.length_append, hdone] at hlen
  omega

/-- `progress`, repeated, with MPI reporting requests done, empties the
    transport's requests and leaves the queues and `q`. -/
theorem run_completeAll (s : RoPipeline ω) (hS : TransportInv s.transport) :
    ∃ s', Relation.ReflTransGen (HostStep pollBlockCount) s s' ∧
      s'.transport.transport.requests = [] ∧
      s'.queues = s.queues ∧ s'.q = s.q ∧ TransportInv s'.transport := by
  -- Strong induction on the number of requests in flight.
  induction h : s.transport.transport.requests.length using Nat.strong_induction_on
    generalizing s with
  | _ n ih =>
      by_cases h0 : n = 0
      · subst h0
        exact ⟨s, .refl, List.length_eq_zero_iff.mp h, rfl, rfl, hS⟩
      · let is := List.range (min n MPITransport.testsomeIndicesSize)
        have hlt : ∀ i ∈ is, i < min s.transport.transport.requests.length
            MPITransport.testsomeIndicesSize := fun i hi => by
          rw [h]
          exact List.mem_range.mp hi
        have hstep : HostStep pollBlockCount s (s.progress is) :=
          .progress s is List.nodup_range hlt
        have hlen : (s.progress is).transport.transport.requests.length < n := by
          have := length_progress_range s.transport.transport
          rw [h] at this
          show (s.transport.transport.progress is).1.requests.length < n
          rw [this]
          have : 0 < min n MPITransport.testsomeIndicesSize := by
            simp [MPITransport.testsomeIndicesSize]
            omega
          omega
        obtain ⟨s', hrun, hnil, hqueues, hq, hS'⟩ :=
          ih _ hlen (s.progress is) (hS.progress List.nodup_range hlt) rfl
        exact ⟨s', Relation.ReflTransGen.head hstep hrun, hnil, hqueues, hq, hS'⟩

end HostStep

/-- In every reachable state only finitely many queues hold elements: a call
    adds to one queue and nothing else adds to any. -/
theorem queues_finite_support {ω : Type} [DecidableEq ω] (queueOf flatId : ω → Nat)
    {s : RoPipeline ω} (hs : Reachable (PipelineStep queueOf flatId) RoPipeline.init s) :
    ∃ queueIdxs : List Nat, (∀ b ∈ queueIdxs, ∃ w, queueOf w = b) ∧
      ∀ b, s.queues b ≠ [] → b ∈ queueIdxs := by
  induction hs with
  | refl => exact ⟨[], fun b hb => absurd hb List.not_mem_nil, fun b hb => absurd rfl hb⟩
  | tail _ hstep ih =>
      obtain ⟨queueIdxs, howned, hsupp⟩ := ih
      rename_i s₀ s₁ _
      cases hstep with
      | buildQueueElement w cmd _ =>
          refine ⟨queueOf w :: queueIdxs, ?_, fun b hb => ?_⟩
          · rintro b (_ | ⟨_, hb⟩)
            exacts [⟨w, rfl⟩, howned b hb]
          by_cases hbw : b = queueOf w
          · exact hbw ▸ List.mem_cons_self
          · refine List.mem_cons_of_mem _ (hsupp b ?_)
            simpa [Function.update_of_ne hbw] using hb
      | process queueIdx =>
          refine ⟨queueIdxs, howned, fun b hb => hsupp b fun hnil => hb ?_⟩
          cases hq : s₀.queues queueIdx with
          | nil => rw [show s₀.process queueIdx = s₀ by simp [RoPipeline.process, hq], hnil]
          | cons e rest =>
              rw [RoPipeline.process_of_cons hq]
              by_cases hbq : b = queueIdx
              · subst hbq
                rw [hq] at hnil
                exact absurd hnil (List.cons_ne_nil e rest)
              · simp [Function.update_of_ne hbq, hnil]
      | submitRequestsToMPI =>
          refine ⟨queueIdxs, howned, fun b hb => hsupp b ?_⟩
          have hqueues : s₀.submitRequestsToMPI.queues = s₀.queues := by
            unfold RoPipeline.submitRequestsToMPI
            split <;> rfl
          rwa [hqueues] at hb
      | progress is _ _ => exact ⟨queueIdxs, howned, hsupp⟩
      | readStatus w type _ _ => exact ⟨queueIdxs, howned, hsupp⟩
      | clearStatus w type _ => exact ⟨queueIdxs, howned, hsupp⟩

open RoPipeline in
/-- With distinct status bytes, and every thread's queue among those
    `ro_net_poll` polls, from every reachable state the host alone, with MPI
    completing the requests it is given, reaches a state with every queue,
    `q` and the requests in flight empty, no thread moved, and every thread
    spinning in a blocking call finding its byte set: no blocking call is
    stuck. -/
theorem host_answers_every_open_call {ω : Type} [DecidableEq ω] (queueOf flatId : ω → Nat)
    (hinj : Function.Injective (threadByte queueOf flatId)) {pollBlockCount : Nat}
    (hpoll : ∀ w, queueOf w < pollBlockCount) {s : RoPipeline ω}
    (hs : Reachable (PipelineStep queueOf flatId) RoPipeline.init s) :
    ∃ s', Relation.ReflTransGen (HostStep pollBlockCount) s s' ∧ s'.pc = s.pc ∧
      (∀ b, s'.queues b = []) ∧ s'.q = [] ∧ s'.transport.transport.requests = [] ∧
      ∀ w type, s'.pc w = .spinning type → s'.status (threadByte queueOf flatId w) = true := by
  obtain ⟨queueIdxs, howned, hsupp⟩ := queues_finite_support queueOf flatId hs
  have hpolled : ∀ b ∈ queueIdxs, b < pollBlockCount := fun b hb => by
    obtain ⟨w, rfl⟩ := howned b hb
    exact hpoll w
  -- Drain the queues, then `q`, then the requests in flight.
  obtain ⟨s₁, hrun₁, hqueues₁⟩ := HostStep.run_drainQueues queueIdxs hpolled s hsupp
  obtain ⟨s₂, hrun₂, hq₂, hqueues₂⟩ := HostStep.run_submitAll s₁
  have hreach₂ := HostStep.reachable_of_run queueOf flatId hs (hrun₁.trans hrun₂)
  have hinv₂ : PipelineInv queueOf flatId s₂ :=
    Reachable.invariant PipelineInv.init (fun _ _ _ h hstep => h.step hinj hstep) hreach₂
  obtain ⟨s₃, hrun₃, hreq₃, hqueues₃, hq₃, hS₃⟩ := HostStep.run_completeAll s₂ hinv₂.transport
  have hrun := (hrun₁.trans hrun₂).trans hrun₃
  have hinv₃ : PipelineInv queueOf flatId s₃ :=
    Reachable.invariant PipelineInv.init (fun _ _ _ h hstep => h.step hinj hstep)
      (HostStep.reachable_of_run queueOf flatId hs hrun)
  have hqueues : ∀ b, s₃.queues b = [] := fun b => by rw [hqueues₃, hqueues₂, hqueues₁]
  refine ⟨s₃, hrun, HostStep.run_pc_eq hrun, hqueues, hq₃.trans hq₂, hreq₃, ?_⟩
  intro w type hw
  -- With nothing in flight no quiet is parked, so nothing is pending.
  have hparked : s₃.transport.transport.waitingQuiet (queueOf w) = [] := by
    by_contra hne
    have hpos := hS₃.quietWaits _ hne
    rw [hS₃.counts, hreq₃] at hpos
    exact absurd hpos (by simp)
  have hpending : s₃.pending (queueOf w) (flatId w) = 0 := by
    rw [pending_eq_unsent]
    simp [unsent, hqueues, hq₃, hq₂, TransportSystem.inFlight, hreq₃, hparked]
  have hcalls := hinv₃.calls_eq w
  have hans := hinv₃.answered_eq w
  have hopen := hinv₃.open_eq w
  rw [hw, if_neg BlockingPc.noConfusion] at hopen
  cases hset : s₃.status (threadByte queueOf flatId w)
  · simp only [hset, Bool.false_eq_true, if_false] at hans
    omega
  · rfl

end RocShmem
