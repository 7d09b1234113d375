import Mathlib
import RocShmem.Lib.Interleave
import RocShmem.GpuIb.Reduce
import RocShmem.GpuIb.QueuePair

/-!
# Blocking Calls of the GPU-IB Context

`GPUIBContext` reaches PE `pe` through queue pair `pe` of its array
(`getQueuePair`, one queue pair per destination on a reliable connection).
Its calls are short programs of the thread on those queue pairs
(`context_ib_device.cpp` over `queue_pair.cpp`): `putmem` posts a write that
asks for a completion and quiets, `putmem_nbi` posts one that does not, and
`quiet` runs `quiet_single_heavy` on every queue pair: a zero-byte read that
asks for a completion, then a quiet.

While the thread runs a program, every NIC keeps executing its own queue
pair's WQEs (`Interleave.Runs`). The queue pairs share nothing, so on each
one the run is a run of the actions addressed to it (`Interleave.Runs.proj`),
and what a post and a quiet on one queue pair achieve holds whatever the
others do meanwhile. A post that asks for a completion followed by a quiet
returns with every WQE of its queue pair executed
(`runs_post_quiet_drains`); so `quiet` returns with every queue pair
drained (`quiet_drains_every_qp`), and `putmem` with its write executed and
no other queue pair posted to (`putmem_completes`).

The IPC path of the calls (a PE on the same node) and the coalescing of
`wf_coal_` are left out: the programs are those of the network path.

## Main definitions

* `QueuePair.putNbi`, `QueuePair.quietSingleHeavy`, ...: The queue pair's
  calls as programs of the thread.
* `onQp`: A program addressed to one queue pair.
* `GPUIBContext.putmem`, `GPUIBContext.quiet`, ...: The context's calls.

## Theorems

* `runs_post_quiet_drains`: A signaled post and a quiet drain the queue pair.
* `quiet_drains_every_qp`: `quiet` drains every queue pair.
* `putmem_completes`: `putmem` returns with its write executed.
-/

namespace RocShmem

open Transition Interleave QpSystem

namespace QueuePair

/-- `put_nbi<THREAD>`: a write that asks for no completion. -/
def putNbi : List QpAction := [.post false .rdmaWrite]

/-- `put_nbi_cqe<THREAD>`: a write that asks for a completion. -/
def putNbiCqe : List QpAction := [.post true .rdmaWrite]

/-- `get_nbi<THREAD>`. -/
def getNbi : List QpAction := [.post false .rdmaRead]

/-- `get_nbi_cqe<THREAD>`. -/
def getNbiCqe : List QpAction := [.post true .rdmaRead]

/-- `zero_b_rd<THREAD>`: a zero-byte read that asks for a completion. -/
def zeroBRd : List QpAction := [.post true .rdmaRead]

/-- `quiet_single<THREAD>`: `SingleThreadImpl::quiet`, `quiet_internal`. -/
def quietSingle : List QpAction := [.quiet]

/-- `quiet_single_heavy<THREAD>`: `SingleThreadImpl::quiet_heavy`. -/
def quietSingleHeavy : List QpAction := zeroBRd ++ quietSingle

/-- `atomic_nofetch`: the atomic asks for a completion, then a quiet. -/
def atomicNofetch (atomicOp : Mlx5Opcode) : List QpAction := [.post true atomicOp] ++ quietSingle

/-- `atomic_fetch`, up to its spin on the returned value. -/
def atomicFetch (atomicOp : Mlx5Opcode) : List QpAction := [.post true atomicOp] ++ quietSingle

/-- `QueuePair::fence(pe)`: a write to the remote HDP that asks for a
    completion, with no quiet. -/
def fence : List QpAction := [.post true .rdmaWrite]

end QueuePair

/-- A queue pair's program run on queue pair `pe` of the context. -/
def onQp (pe : Nat) (calls : List QpAction) : List (Nat × QpAction) :=
  calls.map fun a => (pe, a)

namespace GPUIBContext

/-- `putmem_nbi` on the network path. -/
def putmemNbi (pe : Nat) : List (Nat × QpAction) := onQp pe QueuePair.putNbi

/-- `getmem_nbi` on the network path. -/
def getmemNbi (pe : Nat) : List (Nat × QpAction) := onQp pe QueuePair.getNbi

/-- `putmem` on the network path: `put_nbi_cqe`, then `quiet_single`. -/
def putmem (pe : Nat) : List (Nat × QpAction) :=
  onQp pe (QueuePair.putNbiCqe ++ QueuePair.quietSingle)

/-- `getmem` on the network path: `get_nbi_cqe`, then `quiet_single`. -/
def getmem (pe : Nat) : List (Nat × QpAction) :=
  onQp pe (QueuePair.getNbiCqe ++ QueuePair.quietSingle)

/-- `amo_fetch_add` on the network path: `atomic_fetch` with
    `MLX5_OPCODE_ATOMIC_FA`. -/
def amoFetchAdd (pe : Nat) : List (Nat × QpAction) := onQp pe (QueuePair.atomicFetch .atomicFa)

/-- `amo_fetch_cas`: `atomic_fetch` with `MLX5_OPCODE_ATOMIC_CS`. -/
def amoFetchCas (pe : Nat) : List (Nat × QpAction) := onQp pe (QueuePair.atomicFetch .atomicCs)

/-- `amo_add`: `atomic_nofetch` with `MLX5_OPCODE_ATOMIC_FA`. -/
def amoAdd (pe : Nat) : List (Nat × QpAction) := onQp pe (QueuePair.atomicNofetch .atomicFa)

/-- `amo_cas`: `atomic_nofetch` with `MLX5_OPCODE_ATOMIC_CS`. -/
def amoCas (pe : Nat) : List (Nat × QpAction) := onQp pe (QueuePair.atomicNofetch .atomicCs)

/-- `fence(pe)`. -/
def fencePe (pe : Nat) : List (Nat × QpAction) := onQp pe QueuePair.fence

/-- `fence()`: `QueuePair::fence` on every queue pair, `getNumDest()` being
    `num_pes` on a reliable connection. -/
def fence (ctx : GPUIBContext) : List (Nat × QpAction) :=
  (List.range ctx.numPes).flatMap fun k => onQp k QueuePair.fence

/-- `quiet()`: `quiet_single_heavy` on every queue pair. -/
def quiet (ctx : GPUIBContext) : List (Nat × QpAction) :=
  (List.range ctx.numPes).flatMap fun k => onQp k QueuePair.quietSingleHeavy

end GPUIBContext

/-- The calls of the context that return only once the NIC has done what
    they asked. -/
inductive BlockingCall where
  | putmem
  | getmem
  | amoFetchAdd
  | amoFetchCas
  | amoAdd
  | amoCas
  deriving DecidableEq, Repr

/-- The program of a blocking call to `pe`. -/
def BlockingCall.program : BlockingCall → Nat → List (Nat × QpAction)
  | .putmem => GPUIBContext.putmem
  | .getmem => GPUIBContext.getmem
  | .amoFetchAdd => GPUIBContext.amoFetchAdd
  | .amoFetchCas => GPUIBContext.amoFetchCas
  | .amoAdd => GPUIBContext.amoAdd
  | .amoCas => GPUIBContext.amoCas

/-- Each is a post that asks for a completion, then a quiet, on the queue
    pair of its destination. -/
theorem BlockingCall.program_eq (call : BlockingCall) (pe : Nat) :
    ∃ opcode, call.program pe = onQp pe [.post true opcode, .quiet] := by
  cases call <;> exact ⟨_, rfl⟩

/-! ### The actions each queue pair sees -/

theorem onComponent_onQp (k pe : Nat) (calls : List QpAction) :
    onComponent k (onQp pe calls) = if pe = k then calls else [] := by
  induction calls with
  | nil => simp [onQp]
  | cons a calls ih =>
    rw [onQp, List.map_cons, onComponent_cons, ← onQp, ih]
    split_ifs <;> rfl

/-- Queue pair `k` sees the program of one iteration of a loop over the
    queue pairs when it is below the bound, and nothing otherwise. -/
theorem onComponent_flatMap_range (k n : Nat) (calls : List QpAction) :
    onComponent k ((List.range n).flatMap fun j => onQp j calls) =
      if k < n then calls else [] := by
  -- the loop one iteration at a time
  induction n with
  | zero => simp
  | succ n ih =>
    rw [List.range_succ, List.flatMap_append, onComponent, List.filterMap_append, ← onComponent,
      ← onComponent, ih, List.flatMap_singleton, onComponent_onQp]
    by_cases hkn : k < n
    · rw [if_pos hkn, if_neg (by omega), if_pos (by omega), List.append_nil]
    · rw [if_neg hkn, List.nil_append]
      by_cases hk : n = k
      · rw [if_pos hk, if_pos (by omega)]
      · rw [if_neg hk, if_neg (by omega)]

/-! ### One queue pair -/

section QueuePair

variable {c : QpConfig}

/-- NIC steps leave the thread's counter and the history of posts. -/
theorem nicSteps_frame {s t : QpSystem} (h : Relation.ReflTransGen (NicStep c) s t) :
    t.sqCounter = s.sqCounter ∧ t.posted = s.posted := by
  induction h with
  | refl => exact ⟨rfl, rfl⟩
  | tail _ hstep ih =>
    cases hstep with
    | execute op hop hdb =>
      obtain ⟨hsq, hpo, -⟩ := nicExecute_frame (c := c) op _
      exact ⟨hsq.trans ih.1, hpo.trans ih.2⟩

theorem reachable_of_nicSteps {s t : QpSystem} (hs : Reachable (QpRoomStep c) QpSystem.init s)
    (h : Relation.ReflTransGen (NicStep c) s t) : Reachable (QpRoomStep c) QpSystem.init t :=
  Relation.ReflTransGen.trans hs (Relation.ReflTransGen.mono (fun _ _ hn => Or.inr hn) _ _ h)

/-- A drained queue pair gives the NIC nothing to execute. -/
theorem nicSteps_eq_of_drained (hcq : c.maxNwqe ≤ c.cqSize) {s t : QpSystem}
    (hs : Reachable (QpRoomStep c) QpSystem.init s) (hd : s.executed = s.sqCounter)
    (h : Relation.ReflTransGen (NicStep c) s t) : t = s := by
  rcases Relation.ReflTransGen.cases_head h with rfl | ⟨u, hu, -⟩
  · rfl
  · cases hu with
    | execute op hop hdb =>
      have := (qpInv_reachable hcq hs).dbrecSend_eq
      omega

/-- A post that asks for a completion, then a quiet: the thread returns
    with every WQE of the queue pair executed, its own and all before it. -/
theorem runs_post_quiet_drains (hcq : c.maxNwqe ≤ c.cqSize) {s s' : QpSystem}
    {opcode : Mlx5Opcode} (hs : Reachable (QpRoomStep c) QpSystem.init s)
    (hrun : Runs1 (NicStep c) (RoomStep c) [.post true opcode, .quiet] s s') :
    s.sqCounter < s'.executed ∧ s'.executed = s'.sqCounter := by
  -- the run: NIC steps, the post, NIC steps, the quiet, NIC steps
  obtain ⟨s₁, s₂, hnic₁, hpost, hrest⟩ := hrun.cons_inv
  obtain ⟨s₃, s₄, hnic₂, hquiet, hend⟩ := hrest.cons_inv
  have hr₁ := reachable_of_nicSteps hs hnic₁
  have hr₂ : Reachable (QpRoomStep c) QpSystem.init s₂ := Reachable.tail hr₁ (Or.inl ⟨_, hpost⟩)
  have hr₃ := reachable_of_nicSteps hr₂ hnic₂
  have hr₄ : Reachable (QpRoomStep c) QpSystem.init s₄ := Reachable.tail hr₃ (Or.inl ⟨_, hquiet⟩)
  obtain ⟨hsq₁, -⟩ := nicSteps_frame hnic₁
  obtain ⟨hsq₃, hpo₃⟩ := nicSteps_frame hnic₂
  obtain ⟨hpost, -⟩ := hpost
  obtain ⟨hquiet, -⟩ := hquiet
  cases hpost with
  | post _ _ hwait =>
  cases hquiet with
  | quiet hdone =>
  -- the quiet waited for the completion of the post, the last WQE posted
  have hlast : s₃.posted.getLast? = some (postedWqe c true opcode s₁) := by
    rw [hpo₃]
    simp
  have hdrained := executed_eq_of_quietDone hcq hr₃ hdone hlast (by simp [postedWqe, signaled])
  obtain ⟨d, hq⟩ := quietInternal_eq s₃
  obtain ⟨d', hp⟩ := post_eq (c := c) true opcode s₁
  rw [hp] at hsq₃
  -- nothing is left for the NIC after the quiet
  have hend' := nicSteps_eq_of_drained hcq hr₄ (by rw [hq]; exact hdrained) hend.nil_inv
  subst hend'
  rw [hq]
  dsimp only at hsq₃ ⊢
  omega

end QueuePair

/-! ### The context's calls -/

section Calls

variable {c : QpConfig}

/-- A queue pair the program does not address only sees its NIC: nothing is
    posted to it. -/
theorem runs_frame {prog : List (Nat × QpAction)} {q q' : Nat → QpSystem}
    (hrun : Runs (NicStep c) (RoomStep c) prog q q') {k : Nat} (hk : onComponent k prog = []) :
    (q' k).sqCounter = (q k).sqCounter ∧ (q' k).posted = (q k).posted := by
  have hproj := hrun.proj k
  rw [hk] at hproj
  exact nicSteps_frame hproj.nil_inv

/-- In a run in which no post overwrites a WQE the NIC has not executed, a
    blocking call returns with its WQE executed and every WQE of its queue
    pair executed, and posts to no other queue pair. -/
theorem blocking_call_completes (hcq : c.maxNwqe ≤ c.cqSize) (call : BlockingCall) (pe : Nat)
    {q q' : Nat → QpSystem} (hq : ∀ k, Reachable (QpRoomStep c) QpSystem.init (q k))
    (hrun : Runs (NicStep c) (RoomStep c) (call.program pe) q q') :
    (q pe).sqCounter < (q' pe).executed ∧ (q' pe).executed = (q' pe).sqCounter ∧
      ∀ k, k ≠ pe → (q' k).sqCounter = (q k).sqCounter := by
  obtain ⟨opcode, hprog⟩ := call.program_eq pe
  rw [hprog] at hrun
  have hpe := hrun.proj pe
  rw [onComponent_onQp, if_pos rfl] at hpe
  obtain ⟨hlt, hdrained⟩ := runs_post_quiet_drains hcq (hq pe) hpe
  refine ⟨hlt, hdrained, fun k hk => ?_⟩
  -- the other queue pairs see only their NICs
  exact (runs_frame hrun (by rw [onComponent_onQp, if_neg (Ne.symm hk)])).1

/-- A `putmem` to PE 0 of fresh queue pairs: the write, the NIC executing
    it, the quiet. -/
theorem putmem_completes_fresh : ∃ q', Runs (NicStep smallQpConfig) (RoomStep smallQpConfig)
    (BlockingCall.putmem.program 0) (fun _ => QpSystem.init) q' ∧
    (QpSystem.init.sqCounter < (q' 0).executed ∧ (q' 0).executed = (q' 0).sqCounter ∧
      ∀ k, k ≠ 0 → (q' k).sqCounter = QpSystem.init.sqCounter) := by
  have hrun : Runs (NicStep smallQpConfig) (RoomStep smallQpConfig)
      (BlockingCall.putmem.program 0) (fun _ => QpSystem.init) _ :=
    .act 0 ⟨.post true .rdmaWrite (by decide), fun _ _ _ => by decide⟩
      (.env 0 (.execute 0 (by decide) (by decide))
        (.act 0 ⟨.quiet (by decide), fun _ _ h => QpAction.noConfusion h⟩ (.done _)))
  exact ⟨_, hrun, blocking_call_completes (by decide) .putmem 0 (fun _ => Reachable.refl) hrun⟩

/-- In a run in which no post overwrites a WQE the NIC has not executed,
    `quiet()` returns with every queue pair it loops over drained: each WQE
    posted before the call has been executed, and nothing is left. -/
theorem quiet_drains_every_qp (hcq : c.maxNwqe ≤ c.cqSize) (ctx : GPUIBContext)
    {q q' : Nat → QpSystem} (hq : ∀ k, Reachable (QpRoomStep c) QpSystem.init (q k))
    (hrun : Runs (NicStep c) (RoomStep c) ctx.quiet q q') :
    ∀ k < ctx.numPes, (q k).sqCounter < (q' k).executed ∧ (q' k).executed = (q' k).sqCounter := by
  intro k hk
  have hproj := hrun.proj k
  rw [GPUIBContext.quiet, onComponent_flatMap_range, if_pos hk] at hproj
  exact runs_post_quiet_drains hcq (hq k) hproj

/-- A `quiet` of a context of one PE on a fresh queue pair: the zero-byte
    read, the NIC executing it, the quiet. -/
theorem quiet_drains_one_qp : ∃ q', Runs (NicStep smallQpConfig) (RoomStep smallQpConfig)
    (GPUIBContext.quiet ⟨0, 1⟩) (fun _ => QpSystem.init) q' ∧
    ∀ k < 1, QpSystem.init.sqCounter < (q' k).executed ∧ (q' k).executed = (q' k).sqCounter := by
  have hrun : Runs (NicStep smallQpConfig) (RoomStep smallQpConfig)
      (GPUIBContext.quiet ⟨0, 1⟩) (fun _ => QpSystem.init) _ :=
    .act 0 ⟨.post true .rdmaRead (by decide), fun _ _ _ => by decide⟩
      (.env 0 (.execute 0 (by decide) (by decide))
        (.act 0 ⟨.quiet (by decide), fun _ _ h => QpAction.noConfusion h⟩ (.done _)))
  exact ⟨_, hrun, quiet_drains_every_qp (by decide) ⟨0, 1⟩ (fun _ => Reachable.refl) hrun⟩

end Calls

end RocShmem
