import Mathlib.Logic.Function.Basic
import Mathlib.Tactic.Simps.Basic
import RocShmem.Lib.EraseIdx
import RocShmem.Lib.Transition

/-!
# The Reverse-Offload MPI Transport's Completion Bookkeeping

The host side of reverse offload takes the GPU's requests one at a time
(`submitRequestsToMPI`) and starts an MPI operation for each. Operations that
complete later are kept in `requests` with the queue (block) and thread that
asked for them, and counted per block in `outstanding`. A quiet of a block
with nothing outstanding is answered at once; otherwise its thread waits in
`waiting_quiet` of the block. `progress` asks MPI which of the first 128
requests are done, notifies the thread of every done blocking request, and
when a block's count drops to zero notifies its waiting quiets; then it
erases the done requests, from the highest index down.

Every transport call that starts an MPI request (puts, gets, barriers and
the collectives) records it the same way (`pushRequest`); what the request
moves is MPI's business and is not modelled. An MPI request handle is a
number that MPI hands out fresh.

The system (`TransportSystem`) adds the history of what happened: every
`queue->notify`, with what caused it; every quiet that arrived; every
request `progress` found done. The invariant (`TransportInv`) ties the
counters to the requests, the quiet lists to the counters, and the
notifications to the quiets and the done blocking requests.

## Main definitions

* `MPITransport`: The bookkeeping: requests, quiet lists, counters.
* `MPITransport.submitRequestsToMPI`, `MPITransport.progress`: The two
  halves of the progress engine.
* `TransportSystem`, `TransportStep`: The transport with its history.
* `TransportInv`: The bookkeeping invariant.

## Theorems

* `MPITransport.progress_requests_perm`: `progress` erases exactly the
  requests MPI reported done.
* `TransportInv.step`: Every step keeps the invariant.
* `transport_completion_bookkeeping`: The counters, quiets and
  notifications are right in every reachable state.
-/

namespace RocShmem

open Transition

/-- `ro_net_cmds`. -/
inductive RoNetCmd where
  | put | p | get | putNbi | getNbi | amoFop | amoFcas | fence | quiet | finalize
  | toAll | teamToAll | sync | barrierAll | broadcast | teamBroadcast | alltoall | fcollect
deriving DecidableEq, Repr

/-- The commands that `submitRequestsToMPI` turns into a `quiet`. -/
def RoNetCmd.isQuiet : RoNetCmd → Bool
  | .fence | .quiet | .finalize => true
  | _ => false

/-- What made the host notify a GPU thread: a quiet, the completion of the
    request with an MPI handle, or an atomic done at once. -/
inductive NotifyCause where
  | quiet
  | request (handle : Nat)
  | amo
deriving DecidableEq, Repr

def NotifyCause.isRequest : NotifyCause → Bool
  | .request _ => true
  | _ => false

/-- One `queue->notify(blockId, threadId)`, with its cause. -/
structure Notice where
  blockId : Nat
  threadId : Nat
  cause : NotifyCause
deriving DecidableEq, Repr

/-- `MPITransport::Request`: an MPI request handle with the properties the
    bookkeeping reads. -/
structure MPITransport.Request where
  request : Nat
  threadId : Nat
  blockId : Nat
  blocking : Bool
deriving DecidableEq, Repr

/-- The notice that the completion of a blocking request sends. -/
def MPITransport.Request.notice (r : MPITransport.Request) : Notice :=
  ⟨r.blockId, r.threadId, .request r.request⟩

/-- `MPITransport`'s `requests`, `waiting_quiet` and `outstanding`. -/
structure MPITransport where
  requests : List MPITransport.Request
  waitingQuiet : Nat → List Nat
  outstanding : Nat → Int

namespace MPITransport

/-- After `initTransport`: no request, no quiet, every counter `0`. -/
def initTransport : MPITransport := ⟨[], fun _ => [], fun _ => 0⟩

/-- A new MPI request recorded and counted for its block: what `putMem`,
    `getMem`, `barrier` and the collectives do after starting it. -/
@[simps]
def pushRequest (s : MPITransport) (request blockId threadId : Nat) (blocking : Bool) :
    MPITransport :=
  { s with
    requests := s.requests ++ [⟨request, threadId, blockId, blocking⟩]
    outstanding := Function.update s.outstanding blockId (s.outstanding blockId + 1) }

/-- `putMem`: an `MPI_Rput`. -/
def putMem (s : MPITransport) (request blockId threadId : Nat) (blocking : Bool) : MPITransport :=
  s.pushRequest request blockId threadId blocking

/-- `getMem`: an `MPI_Rget`. -/
def getMem (s : MPITransport) (request blockId threadId : Nat) (blocking : Bool) : MPITransport :=
  s.pushRequest request blockId threadId blocking

/-- `barrier`: an `MPI_Ibarrier`. -/
def barrier (s : MPITransport) (request blockId threadId : Nat) (blocking : Bool) : MPITransport :=
  s.pushRequest request blockId threadId blocking

/-- `reduction`: an `MPI_Iallreduce` on a strided communicator. -/
def reduction (s : MPITransport) (request blockId threadId : Nat) (blocking : Bool) :
    MPITransport :=
  s.pushRequest request blockId threadId blocking

/-- `team_reduction`: an `MPI_Iallreduce` on the team's communicator. -/
def teamReduction (s : MPITransport) (request blockId threadId : Nat) (blocking : Bool) :
    MPITransport :=
  s.pushRequest request blockId threadId blocking

/-- `broadcast`: an `MPI_Ibcast` on a strided communicator. -/
def broadcast (s : MPITransport) (request blockId threadId : Nat) (blocking : Bool) :
    MPITransport :=
  s.pushRequest request blockId threadId blocking

/-- `team_broadcast`: an `MPI_Ibcast` on the team's communicator. -/
def teamBroadcast (s : MPITransport) (request blockId threadId : Nat) (blocking : Bool) :
    MPITransport :=
  s.pushRequest request blockId threadId blocking

/-- `alltoall`: blocking MPI transfers, then `barrier`. -/
def alltoall (s : MPITransport) (request blockId threadId : Nat) (blocking : Bool) :
    MPITransport :=
  s.barrier request blockId threadId blocking

/-- `fcollect`: blocking MPI transfers, then `barrier`. -/
def fcollect (s : MPITransport) (request blockId threadId : Nat) (blocking : Bool) :
    MPITransport :=
  s.barrier request blockId threadId blocking

/-- An atomic done at once: `MPI_Fetch_and_op` or `MPI_Compare_and_swap`,
    a flush, and the thread notified. -/
def atomicDone (s : MPITransport) (blockId threadId : Nat) : MPITransport × List Notice :=
  (s, [⟨blockId, threadId, .amo⟩])

/-- `amoFOP`. -/
def amoFOP (s : MPITransport) (blockId threadId : Nat) : MPITransport × List Notice :=
  s.atomicDone blockId threadId

/-- `amoFCAS`. -/
def amoFCAS (s : MPITransport) (blockId threadId : Nat) : MPITransport × List Notice :=
  s.atomicDone blockId threadId

/-- `quiet`: answered at once when nothing of the block is outstanding,
    else the thread waits. -/
def quiet (s : MPITransport) (blockId threadId : Nat) : MPITransport × List Notice :=
  if s.outstanding blockId = 0 then (s, [⟨blockId, threadId, .quiet⟩])
  else
    ({ s with
      waitingQuiet :=
        Function.update s.waitingQuiet blockId (s.waitingQuiet blockId ++ [threadId]) },
      [])

/-- `submitRequestsToMPI` for an element of command `cmd` from queue
    `queueIdx`; `request` is the handle MPI gives a request it starts. -/
def submitRequestsToMPI (s : MPITransport) (cmd : RoNetCmd) (queueIdx threadId request : Nat) :
    MPITransport × List Notice :=
  match cmd with
  | .put | .p => (s.putMem request queueIdx threadId true, [])
  | .get => (s.getMem request queueIdx threadId true, [])
  | .putNbi => (s.putMem request queueIdx threadId false, [])
  | .getNbi => (s.getMem request queueIdx threadId false, [])
  | .amoFop => s.amoFOP queueIdx threadId
  | .amoFcas => s.amoFCAS queueIdx threadId
  | .teamToAll => (s.teamReduction request queueIdx threadId true, [])
  | .toAll => (s.reduction request queueIdx threadId true, [])
  | .teamBroadcast => (s.teamBroadcast request queueIdx threadId true, [])
  | .broadcast => (s.broadcast request queueIdx threadId true, [])
  | .alltoall => (s.alltoall request queueIdx threadId true, [])
  | .fcollect => (s.fcollect request queueIdx threadId true, [])
  | .barrierAll | .sync => (s.barrier request queueIdx threadId true, [])
  | .fence | .quiet | .finalize => s.quiet queueIdx threadId

/-- The size of `testsome_indices`: `progress` tests at most this many
    requests. -/
def testsomeIndicesSize : Nat := 128

/-- The body of `progress`'s loop for one request MPI reported done. -/
def completeRequest (s : MPITransport) (r : MPITransport.Request) : MPITransport × List Notice :=
  let s := { s with
    outstanding := Function.update s.outstanding r.blockId (s.outstanding r.blockId - 1) }
  let notices : List Notice := if r.blocking then [r.notice] else []
  -- If the GPU has requested a quiet, notify it of completion when all
  -- outstanding requests are complete.
  if s.outstanding r.blockId = 0 ∧ s.waitingQuiet r.blockId ≠ [] then
    ({ s with waitingQuiet := Function.update s.waitingQuiet r.blockId [] },
      notices ++ (s.waitingQuiet r.blockId).map fun threadId => ⟨r.blockId, threadId, .quiet⟩)
  else (s, notices)

/-- `progress`'s loop over the done requests, in the order MPI reported
    them. -/
def completeRequests (s : MPITransport) : List MPITransport.Request → MPITransport × List Notice
  | [] => (s, [])
  | r :: rs =>
    let (s₁, n₁) := s.completeRequest r
    let (s₂, n₂) := s₁.completeRequests rs
    (s₂, n₁ ++ n₂)

/-- `progress`, with `testsomeIndices` the indices `MPI_Testsome` reported
    done: the loop, then the erases from the highest index down. -/
def progress (s : MPITransport) (testsomeIndices : List Nat) : MPITransport × List Notice :=
  if s.requests.length = 0 then (s, [])
  else
    let (s', notices) :=
      s.completeRequests (testsomeIndices.filterMap fun index => s.requests[index]?)
    let sorted := testsomeIndices.mergeSort fun a b => decide (b ≤ a)
    ({ s' with
        requests := sorted.foldl (fun requests index => requests.eraseIdx index) s'.requests },
      notices)

/-! ## The loop of `progress` -/

/-- Every counter is the number of requests of its block in `pending`. -/
def Counts (s : MPITransport) (pending : List MPITransport.Request) : Prop :=
  ∀ b, s.outstanding b = pending.countP fun r => r.blockId = b

/-- A block has waiting quiets only while something of it is outstanding. -/
def QuietWaits (s : MPITransport) : Prop :=
  ∀ b, s.waitingQuiet b ≠ [] → 0 < s.outstanding b

theorem Counts.perm {s : MPITransport} {pending pending' : List MPITransport.Request}
    (hc : s.Counts pending) (hp : pending.Perm pending') : s.Counts pending' := fun b => by
  rw [hc b, hp.countP_eq]

/-- The quiet notices for the threads `ts` of block `b`. -/
theorem count_quiet_map (b b' t : Nat) (ts : List Nat) :
    (ts.map fun t' => (⟨b, t', .quiet⟩ : Notice)).count ⟨b', t, .quiet⟩ =
      if b' = b then ts.count t else 0 := by
  induction ts with
  | nil => simp
  | cons t' ts ih =>
      rw [List.map_cons, List.count_cons, ih, List.count_cons]
      by_cases hb : b' = b
      · subst hb
        simp
      · simp [hb, Ne.symm hb]

/-- What the loop of `progress` over the done requests `rs`, started at `s`,
    leaves in `out`, with `pending` the requests MPI did not report done:
    the counters count `pending`, every quiet of `s` is either notified or
    still waiting, the done blocking requests are notified in order, and a
    quiet is notified only for a block with nothing pending. -/
structure Completes (s : MPITransport) (rs pending : List MPITransport.Request)
    (out : MPITransport × List Notice) : Prop where
  counts : out.1.Counts pending
  quietWaits : out.1.QuietWaits
  quiet_count : ∀ b t, out.2.count ⟨b, t, .quiet⟩ + (out.1.waitingQuiet b).count t =
    (s.waitingQuiet b).count t
  request_notices : out.2.filter (·.cause.isRequest) =
    (rs.filter (·.blocking)).map MPITransport.Request.notice
  quiet_free : ∀ n ∈ out.2, n.cause = .quiet →
    (pending.countP fun r => r.blockId = n.blockId) = 0

theorem completeRequest_completes {s : MPITransport} {r : MPITransport.Request}
    {pending : List MPITransport.Request} (hc : s.Counts (r :: pending)) (hq : s.QuietWaits) :
    Completes s [r] pending (s.completeRequest r) := by
  -- The done request leaves its block's count.
  have hcount : ∀ b, Function.update s.outstanding r.blockId (s.outstanding r.blockId - 1) b =
      pending.countP fun r' => r'.blockId = b := by
    intro b
    by_cases hb : b = r.blockId
    · subst hb
      rw [Function.update_self, hc, List.countP_cons_of_pos (by simp)]
      omega
    · rw [Function.update_of_ne hb, hc, List.countP_cons_of_neg (by simpa using Ne.symm hb)]
  have hrequest : (if r.blocking then [r.notice] else []).filter (·.cause.isRequest) =
      ([r].filter (·.blocking)).map MPITransport.Request.notice := by
    cases h : r.blocking <;> simp [h, MPITransport.Request.notice, NotifyCause.isRequest]
  have hnotquiet : ∀ n ∈ (if r.blocking then [r.notice] else []), n.cause ≠ .quiet := by
    intro n hn
    split at hn <;> simp_all [MPITransport.Request.notice]
  have hquiet : ∀ b t, (if r.blocking then [r.notice] else []).count ⟨b, t, .quiet⟩ = 0 :=
    fun b t => List.count_eq_zero.mpr fun h => hnotquiet _ h rfl
  unfold completeRequest
  dsimp only
  split
  · -- The block's last request: its waiting quiets are notified and cleared.
    rename_i hdone
    refine ⟨hcount, ?_, ?_, ?_, ?_⟩
    · intro b hb
      dsimp only at hb ⊢
      by_cases hbr : b = r.blockId
      · subst hbr
        exact absurd (Function.update_self _ _ _) hb
      · rw [Function.update_of_ne hbr] at hb ⊢
        exact hq b hb
    · intro b t
      dsimp only
      rw [List.count_append, hquiet, count_quiet_map]
      by_cases hbr : b = r.blockId
      · subst hbr
        simp
      · rw [if_neg hbr, Function.update_of_ne hbr]
        simp
    · rw [List.filter_append, hrequest]
      simp [List.filter_map, NotifyCause.isRequest, Function.comp_def]
    · intro n hn hcause
      rcases List.mem_append.mp hn with hn | hn
      · exact absurd hcause (hnotquiet n hn)
      · obtain ⟨t, -, rfl⟩ := List.mem_map.mp hn
        have hzero := hcount r.blockId
        rw [hdone.1] at hzero
        show (pending.countP fun r' => r'.blockId = r.blockId) = 0
        omega
  · -- Otherwise the quiets stay; a block that keeps them keeps a request.
    rename_i hnot
    refine ⟨hcount, ?_, fun b t => by rw [hquiet]; simp, hrequest, ?_⟩
    · intro b hb
      dsimp only at hb ⊢
      by_cases hbr : b = r.blockId
      · rw [hbr] at hb ⊢
        have hne :
            Function.update s.outstanding r.blockId (s.outstanding r.blockId - 1) r.blockId ≠ 0 :=
          fun h0 => hnot ⟨h0, hb⟩
        rw [hcount] at hne ⊢
        omega
      · rw [Function.update_of_ne hbr]
        exact hq b hb
    · intro n hn hcause
      exact absurd hcause (hnotquiet n hn)

/-- Two runs of the loop, one after the other. -/
theorem Completes.append {s : MPITransport} {rs rs' pending : List MPITransport.Request}
    {out out' : MPITransport × List Notice} (h₁ : Completes s rs (rs' ++ pending) out)
    (h₂ : Completes out.1 rs' pending out') :
    Completes s (rs ++ rs') pending (out'.1, out.2 ++ out'.2) where
  counts := h₂.counts
  quietWaits := h₂.quietWaits
  quiet_count := fun b t => by
    rw [List.count_append, Nat.add_assoc, h₂.quiet_count, h₁.quiet_count]
  request_notices := by
    rw [List.filter_append, h₁.request_notices, h₂.request_notices, List.filter_append,
      List.map_append]
  quiet_free := fun n hn hcause => by
    rcases List.mem_append.mp hn with hn | hn
    · have hfree := h₁.quiet_free n hn hcause
      rw [List.countP_append] at hfree
      omega
    · exact h₂.quiet_free n hn hcause

/-- The loop invariant of `progress`, over the done requests in the order
    MPI reported them. -/
theorem completeRequests_completes {s : MPITransport} {rs pending : List MPITransport.Request}
    (hc : s.Counts (rs ++ pending)) (hq : s.QuietWaits) :
    Completes s rs pending (s.completeRequests rs) := by
  induction rs generalizing s with
  | nil => exact ⟨hc, hq, fun _ _ => Nat.zero_add _, rfl, fun n hn => absurd hn List.not_mem_nil⟩
  | cons r rs ih =>
      have h₁ := completeRequest_completes hc hq
      exact h₁.append (ih h₁.counts h₁.quietWaits)

theorem completeRequest_requests (s : MPITransport) (r : MPITransport.Request) :
    (s.completeRequest r).1.requests = s.requests := by
  unfold completeRequest
  dsimp only
  split <;> rfl

theorem completeRequests_requests (s : MPITransport) (rs : List MPITransport.Request) :
    (s.completeRequests rs).1.requests = s.requests := by
  induction rs generalizing s with
  | nil => rfl
  | cons r rs ih => exact (ih _).trans (completeRequest_requests s r)

/-- `progress` with requests in flight: the loop over the reported ones,
    then the erases. -/
theorem progress_of_ne {s : MPITransport} (h : s.requests.length ≠ 0) (is : List Nat) :
    s.progress is =
      ({ (s.completeRequests (is.filterMap fun i => s.requests[i]?)).1 with
          requests := (is.mergeSort fun a b => decide (b ≤ a)).foldl
            (fun requests index => requests.eraseIdx index) s.requests },
        (s.completeRequests (is.filterMap fun i => s.requests[i]?)).2) := by
  unfold progress
  rw [if_neg h]
  have hreq := completeRequests_requests s (is.filterMap fun i => s.requests[i]?)
  rcases hcr : s.completeRequests (is.filterMap fun i => s.requests[i]?) with ⟨s', notices⟩
  rw [hcr] at hreq
  dsimp only at hreq ⊢
  rw [hreq]

/-- The indices MPI_Testsome reports, below `min (requests.size()) 128`, are
    indices of `requests`. -/
theorem lt_length_of_testsome {requests : List Request} {is : List Nat}
    (hlt : ∀ i ∈ is, i < min requests.length testsomeIndicesSize) :
    ∀ i ∈ is, i < requests.length :=
  fun i hi => Nat.lt_of_lt_of_le (hlt i hi) (Nat.min_le_left _ _)

/-- `progress` erases exactly the requests MPI reported done, whatever the
    order of the report: sorting the indices from the highest down keeps
    every erase on its own request. -/
theorem progress_requests_perm (s : MPITransport) {is : List Nat} (hnodup : is.Nodup)
    (hlt : ∀ i ∈ is, i < s.requests.length) :
    ((s.progress is).1.requests ++ is.filterMap fun i => s.requests[i]?).Perm s.requests := by
  by_cases h0 : s.requests.length = 0
  · -- With nothing in flight MPI reports nothing.
    have his : is = [] := List.eq_nil_iff_forall_not_mem.mpr fun i hi => by
      have := hlt i hi
      omega
    subst his
    unfold progress
    rw [if_pos h0]
    simp
  · rw [progress_of_ne h0]
    have hsorted := EraseIdx.perm_foldl_eraseIdx s.requests (EraseIdx.pairwise_gt_mergeSort hnodup)
      fun i hi => hlt i (List.mem_mergeSort.mp hi)
    have hsame := (List.mergeSort_perm is fun a b => decide (b ≤ a)).filterMap
      fun i => s.requests[i]?
    exact (hsame.symm.append_left _).trans hsorted.symm

/-- A `progress` from counters that count the requests in flight is a run of
    the loop over the reported requests, with the requests it keeps as the
    pending ones. -/
theorem progress_completes {s : MPITransport} (hc : s.Counts s.requests) (hq : s.QuietWaits)
    {is : List Nat} (hnodup : is.Nodup) (hlt : ∀ i ∈ is, i < s.requests.length) :
    Completes s (is.filterMap fun i => s.requests[i]?) (s.progress is).1.requests
      (s.progress is) := by
  have hperm := progress_requests_perm s hnodup hlt
  by_cases h0 : s.requests.length = 0
  · have his : is = [] := List.eq_nil_iff_forall_not_mem.mpr fun i hi => by
      have := hlt i hi
      omega
    subst his
    unfold progress
    rw [if_pos h0]
    exact completeRequests_completes (by simpa using hc) hq
  · have hc' := hc.perm (hperm.symm.trans List.perm_append_comm)
    rw [progress_of_ne h0] at hc' ⊢
    have h := completeRequests_completes hc' hq
    exact ⟨h.counts, h.quietWaits, h.quiet_count, h.request_notices, h.quiet_free⟩

/-- What `submitRequestsToMPI` does: record a request, notify an atomic at
    once, or run a quiet. -/
theorem submitRequestsToMPI_cases (s : MPITransport) (cmd : RoNetCmd)
    (queueIdx threadId request : Nat) :
    (cmd.isQuiet = false ∧ ∃ blocking, s.submitRequestsToMPI cmd queueIdx threadId request =
      (s.pushRequest request queueIdx threadId blocking, [])) ∨
    (cmd.isQuiet = false ∧
      s.submitRequestsToMPI cmd queueIdx threadId request = (s, [⟨queueIdx, threadId, .amo⟩])) ∨
    (cmd.isQuiet = true ∧
      s.submitRequestsToMPI cmd queueIdx threadId request = s.quiet queueIdx threadId) := by
  cases cmd <;>
    first
    | exact Or.inl ⟨rfl, _, rfl⟩
    | exact Or.inr (Or.inl ⟨rfl, rfl⟩)
    | exact Or.inr (Or.inr ⟨rfl, rfl⟩)

end MPITransport

/-! ## The transport with its history -/

/-- The transport, the next handle MPI gives out, and the history: every
    `queue->notify`, every quiet that arrived, every request `progress`
    found done. -/
structure TransportSystem where
  transport : MPITransport
  nextRequest : Nat
  notices : List Notice
  quiets : List (Nat × Nat)
  completed : List MPITransport.Request

namespace TransportSystem

/-- After `initTransport`, with nothing yet happened. -/
def init : TransportSystem := ⟨MPITransport.initTransport, 0, [], [], []⟩

/-- `submitRequestsToMPI` on an element from queue `queueIdx`. -/
def submit (S : TransportSystem) (cmd : RoNetCmd) (queueIdx threadId : Nat) : TransportSystem :=
  let out := S.transport.submitRequestsToMPI cmd queueIdx threadId S.nextRequest
  { transport := out.1
    nextRequest := S.nextRequest + 1
    notices := S.notices ++ out.2
    quiets := if cmd.isQuiet then S.quiets ++ [(queueIdx, threadId)] else S.quiets
    completed := S.completed }

/-- `progress` with the indices `MPI_Testsome` reported done. -/
def progress (S : TransportSystem) (testsomeIndices : List Nat) : TransportSystem :=
  let out := S.transport.progress testsomeIndices
  { S with
    transport := out.1
    notices := S.notices ++ out.2
    completed := S.completed ++ testsomeIndices.filterMap fun i => S.transport.requests[i]? }

end TransportSystem

/-- One turn of the progress engine: an element from a queue below
    `numQueues`, or a `progress` in which MPI reports done some distinct
    requests among the first `testsomeIndicesSize`. -/
inductive TransportStep (numQueues : Nat) : TransportSystem → TransportSystem → Prop where
  | submit (S : TransportSystem) (cmd : RoNetCmd) (queueIdx threadId : Nat)
      (hq : queueIdx < numQueues) : TransportStep numQueues S (S.submit cmd queueIdx threadId)
  | progress (S : TransportSystem) (testsomeIndices : List Nat) (hnodup : testsomeIndices.Nodup)
      (hlt : ∀ i ∈ testsomeIndices,
        i < min S.transport.requests.length MPITransport.testsomeIndicesSize) :
      TransportStep numQueues S (S.progress testsomeIndices)

/-- The bookkeeping invariant: the counters count the requests in flight, a
    quiet waits only while its block has one, every quiet that arrived was
    notified or still waits, the done blocking requests and nothing else
    were notified as requests, and MPI's handles are distinct. -/
structure TransportInv (S : TransportSystem) : Prop where
  counts : S.transport.Counts S.transport.requests
  quietWaits : S.transport.QuietWaits
  quiet_count : ∀ b t, S.notices.count ⟨b, t, .quiet⟩ + (S.transport.waitingQuiet b).count t =
    S.quiets.count (b, t)
  request_notices : S.notices.filter (·.cause.isRequest) =
    (S.completed.filter (·.blocking)).map MPITransport.Request.notice
  handles_nodup : ((S.completed ++ S.transport.requests).map (·.request)).Nodup
  handles_lt : ∀ r ∈ S.completed ++ S.transport.requests, r.request < S.nextRequest

namespace TransportInv

open MPITransport

theorem init : TransportInv TransportSystem.init where
  counts := fun _ => rfl
  quietWaits := fun _ h => absurd rfl h
  quiet_count := fun _ _ => rfl
  request_notices := rfl
  handles_nodup := List.nodup_nil
  handles_lt := fun _ h => absurd h List.not_mem_nil

variable {S : TransportSystem}

/-- A new request, with a fresh handle. -/
theorem push (hS : TransportInv S) (queueIdx threadId : Nat) (blocking : Bool) :
    TransportInv ⟨S.transport.pushRequest S.nextRequest queueIdx threadId blocking,
      S.nextRequest + 1, S.notices, S.quiets, S.completed⟩ := by
  have hfresh : S.nextRequest ∉ (S.completed ++ S.transport.requests).map (·.request) := by
    intro h
    obtain ⟨r, hr, heq⟩ := List.mem_map.mp h
    exact absurd (hS.handles_lt r hr) (by rw [heq]; exact Nat.lt_irrefl _)
  refine ⟨fun b => ?_, fun b hb => ?_, hS.quiet_count, hS.request_notices, ?_, ?_⟩
  · -- The request's block counts one more.
    simp only [pushRequest_outstanding, pushRequest_requests, List.countP_append]
    by_cases hb : b = queueIdx
    · subst hb
      rw [Function.update_self, hS.counts]
      simp
    · rw [Function.update_of_ne hb, hS.counts]
      simp [Ne.symm hb]
  · have := hS.quietWaits b hb
    simp only [pushRequest_outstanding]
    by_cases hbq : b = queueIdx
    · subst hbq
      rw [Function.update_self]
      omega
    · rw [Function.update_of_ne hbq]
      exact this
  · rw [pushRequest_requests, ← List.append_assoc, List.map_append]
    exact List.nodup_append.mpr ⟨hS.handles_nodup, by simp,
      fun a ha b hb => by
        rw [List.map_singleton, List.mem_singleton] at hb
        rw [hb]
        intro h
        apply hfresh
        have h' : a = S.nextRequest := h
        rw [← h']
        exact ha⟩
  · intro r hr
    rw [pushRequest_requests, ← List.append_assoc, List.mem_append, List.mem_singleton] at hr
    rcases hr with hr | rfl
    · exact Nat.lt_succ_of_lt (hS.handles_lt r hr)
    · exact Nat.lt_succ_self _

/-- An atomic, notified at once. -/
theorem amo (hS : TransportInv S) (queueIdx threadId : Nat) :
    TransportInv ⟨S.transport, S.nextRequest + 1, S.notices ++ [⟨queueIdx, threadId, .amo⟩],
      S.quiets, S.completed⟩ where
  counts := hS.counts
  quietWaits := hS.quietWaits
  quiet_count := fun b t => by
    rw [List.count_append, ← hS.quiet_count b t]
    simp
  request_notices := by
    rw [List.filter_append, hS.request_notices]
    simp [NotifyCause.isRequest]
  handles_nodup := hS.handles_nodup
  handles_lt := fun r hr => Nat.lt_succ_of_lt (hS.handles_lt r hr)

/-- A quiet: notified at once, or waiting. -/
theorem quiet (hS : TransportInv S) (queueIdx threadId : Nat) :
    TransportInv ⟨(S.transport.quiet queueIdx threadId).1, S.nextRequest + 1,
      S.notices ++ (S.transport.quiet queueIdx threadId).2, S.quiets ++ [(queueIdx, threadId)],
      S.completed⟩ := by
  unfold MPITransport.quiet
  split
  · -- Nothing outstanding: the notice counts the quiet.
    refine ⟨hS.counts, hS.quietWaits, fun b t => ?_, ?_, hS.handles_nodup,
      fun r hr => Nat.lt_succ_of_lt (hS.handles_lt r hr)⟩
    · rw [List.count_append, List.count_append, ← hS.quiet_count b t]
      by_cases h : b = queueIdx ∧ t = threadId
      · obtain ⟨rfl, rfl⟩ := h
        simp
        omega
      · have h' : ¬ (queueIdx = b ∧ threadId = t) := fun ⟨h1, h2⟩ => h ⟨h1.symm, h2.symm⟩
        simp [h']
    · rw [List.filter_append, hS.request_notices]
      simp [NotifyCause.isRequest]
  · -- The thread waits in its block's list.
    rename_i hne
    refine ⟨hS.counts, fun b hb => ?_, fun b t => ?_, by simpa using hS.request_notices,
      hS.handles_nodup, fun r hr => Nat.lt_succ_of_lt (hS.handles_lt r hr)⟩
    · by_cases hbq : b = queueIdx
      · subst hbq
        have := hS.counts b
        dsimp only
        omega
      · exact hS.quietWaits b (by simpa [Function.update_of_ne hbq] using hb)
    · dsimp only
      rw [List.append_nil, List.count_append, ← hS.quiet_count b t]
      by_cases hbq : b = queueIdx
      · subst hbq
        rw [Function.update_self, List.count_append]
        by_cases ht : t = threadId
        · subst ht
          simp
          omega
        · simp [Ne.symm ht]
      · rw [Function.update_of_ne hbq]
        simp [Ne.symm hbq]

/-- `submitRequestsToMPI` keeps the invariant. -/
theorem submit (hS : TransportInv S) (cmd : RoNetCmd) (queueIdx threadId : Nat) :
    TransportInv (S.submit cmd queueIdx threadId) := by
  rcases submitRequestsToMPI_cases S.transport cmd queueIdx threadId S.nextRequest with
    ⟨hq, blocking, heq⟩ | ⟨hq, heq⟩ | ⟨hq, heq⟩
  · have h := hS.push queueIdx threadId blocking
    simp only [TransportSystem.submit, heq, hq, List.append_nil, Bool.false_eq_true, if_false]
    exact h
  · have h := hS.amo queueIdx threadId
    simp only [TransportSystem.submit, heq, hq, Bool.false_eq_true, if_false]
    exact h
  · have h := hS.quiet queueIdx threadId
    simp only [TransportSystem.submit, heq, hq, if_true]
    exact h

/-- `progress` keeps the invariant: the loop accounts for every notice, and
    the erases keep exactly the requests MPI did not report. -/
theorem progress (hS : TransportInv S) {is : List Nat} (hnodup : is.Nodup)
    (hlt : ∀ i ∈ is, i < min S.transport.requests.length testsomeIndicesSize) :
    TransportInv (S.progress is) := by
  have hlt' := MPITransport.lt_length_of_testsome hlt
  have hc := progress_completes hS.counts hS.quietWaits hnodup hlt'
  have hperm := progress_requests_perm S.transport hnodup hlt'
  -- The done requests join the completed ones; the rest stay in flight.
  have hall : (S.completed ++ (is.filterMap fun i => S.transport.requests[i]?) ++
      (S.transport.progress is).1.requests).Perm (S.completed ++ S.transport.requests) := by
    rw [List.append_assoc]
    exact (List.perm_append_comm.trans hperm).append_left _
  refine ⟨hc.counts, hc.quietWaits, fun b t => ?_, ?_, (hall.map _).nodup_iff.mpr hS.handles_nodup,
    fun r hr => hS.handles_lt r (hall.subset hr)⟩
  · show (S.notices ++ (S.transport.progress is).2).count _ +
      ((S.transport.progress is).1.waitingQuiet b).count t = _
    rw [List.count_append, Nat.add_assoc, hc.quiet_count, hS.quiet_count]
    rfl
  · show (S.notices ++ (S.transport.progress is).2).filter _ = _
    rw [List.filter_append, hS.request_notices, hc.request_notices]
    simp only [TransportSystem.progress, List.filter_append, List.map_append]

/-- One turn of the progress engine keeps the invariant. -/
theorem step {numQueues : Nat} {S' : TransportSystem} (hS : TransportInv S)
    (h : TransportStep numQueues S S') : TransportInv S' := by
  cases h with
  | submit cmd queueIdx threadId _ => exact hS.submit cmd queueIdx threadId
  | progress is hnodup hlt => exact hS.progress hnodup hlt

/-- A quiet is notified only by a step after which nothing of its block is
    in flight. -/
theorem quiet_notice_free {numQueues : Nat} {S' : TransportSystem} (hS : TransportInv S)
    (h : TransportStep numQueues S S') :
    ∃ ns, S'.notices = S.notices ++ ns ∧
      ∀ n ∈ ns, n.cause = .quiet → ∀ r ∈ S'.transport.requests, r.blockId ≠ n.blockId := by
  cases h with
  | submit cmd queueIdx threadId _ =>
      refine ⟨_, rfl, fun n hn hcause r hr => ?_⟩
      rcases submitRequestsToMPI_cases S.transport cmd queueIdx threadId S.nextRequest with
        ⟨-, blocking, heq⟩ | ⟨-, heq⟩ | ⟨-, heq⟩ <;>
        simp only [TransportSystem.submit, heq] at hn hr
      · exact absurd hn List.not_mem_nil
      · rw [List.mem_singleton.mp hn] at hcause
        exact NotifyCause.noConfusion hcause
      · -- A quiet answered at once: its block has nothing in flight.
        unfold MPITransport.quiet at hn hr
        split at hn
        · rename_i hzero
          rw [List.mem_singleton.mp hn]
          have hcount := hS.counts queueIdx
          rw [hzero] at hcount
          have hnone : (S.transport.requests.countP fun r => r.blockId = queueIdx) = 0 := by
            omega
          rw [if_pos hzero] at hr
          exact fun heq' => (List.countP_eq_zero.mp hnone r hr) (by simpa using heq')
        · exact absurd hn List.not_mem_nil
  | progress is hnodup hlt =>
      have hc := progress_completes hS.counts hS.quietWaits hnodup
        (MPITransport.lt_length_of_testsome hlt)
      refine ⟨_, rfl, fun n hn hcause r hr heq => ?_⟩
      have hfree := hc.quiet_free n hn hcause
      exact (List.countP_eq_zero.mp hfree r hr) (by simpa using heq)

end TransportInv

theorem transportInv_reachable {numQueues : Nat} {S : TransportSystem}
    (h : Reachable (TransportStep numQueues) TransportSystem.init S) : TransportInv S :=
  Reachable.invariant TransportInv.init (fun _ _ _ hS hstep => hS.step hstep) h

end RocShmem

