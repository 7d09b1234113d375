import RocShmem.Containers.FreeList

/-!
# The IPC Backend's Context Pool

The IPC backend keeps its device contexts in an array `ctx_array` and the
free ones in a `FreeList` of pointers into it. `setup_ctxs` pushes every
context on the host; `create_ctx` pops one, and fails when none is left;
`destroy_ctx` pushes a context back from the device and drops the result of
`push_back`. A context is its index in `ctx_array`.

The device push can only reuse a node that an earlier pop recycled, so a
destroy could lose its context if recycled nodes ran out. They do not: the
number of recycled nodes is the number of contexts that callers hold
(`CtxPoolInv`), since `setup_ctxs` allocates exactly one node per context on
the host, each create recycles one, and each destroy uses one.

The callers' contexts are kept as history beside the pool (`CtxPool.live`):
a create adds what it returned, and a destroy, of a context that a caller
holds, removes it.

## Main definitions

* `IPCBackend.setupCtxs`, `IPCBackend.createCtx`, `IPCBackend.destroyCtx`:
  The backend's operations on its context free list.
* `CtxPool`, `CtxStep`: The pool with the callers' contexts, and its steps.
* `CtxPoolInv`: Free and held contexts are all the contexts, once each, and
  one node is recycled for each held context.

## Theorems

* `setupCtxs_wf`: After setup the free list holds every context.
* `CtxPoolInv.create`, `CtxPoolInv.destroy`: The steps keep the invariant.
* `ctx_pool_no_loss_no_duplicate`: No context is lost or handed out twice.
-/

namespace RocShmem

open HeapList Transition

namespace IPCBackend

/-- `setup_ctxs`: the host pushes `ctx_array + i` for every
    `i < maximum_num_contexts_`. -/
def setupCtxs (maximumNumContexts : Nat) : FreeList Nat :=
  (List.range maximumNumContexts).foldl (fun ctxFreeList i => (ctxFreeList.pushBackHost i).2)
    FreeList.init

/-- `create_ctx`: the context popped from the free list, or `none` when the
    pop fails (`return false`). -/
def createCtx (ctxFreeList : FreeList Nat) : Option Nat × FreeList Nat :=
  match ctxFreeList.popFront with
  | ((ctx, true), l) => (some ctx, l)
  | ((_, false), l) => (none, l)

/-- `destroy_ctx`: the context pushed back; `push_back`'s result is dropped. -/
def destroyCtx (ctxFreeList : FreeList Nat) (ctx : Nat) : FreeList Nat :=
  (ctxFreeList.pushBackDevice ctx).2

theorem setupCtxs_succ (n : Nat) : setupCtxs (n + 1) = ((setupCtxs n).pushBackHost n).2 := by
  rw [setupCtxs, List.range_succ, List.foldl_append]
  rfl

/-- After setup, the live nodes are `0, ..., n - 1`, node `i` holding
    context `i`, and no node is recycled. -/
theorem setupCtxs_wf (n : Nat) :
    (setupCtxs n).Wf (List.range n) [] ∧ (setupCtxs n).allocator = n ∧
      ∀ i ∈ List.range n, ((setupCtxs n).nodes i).data = i := by
  induction n with
  | zero => exact ⟨FreeList.wf_init, rfl, fun i hi => absurd hi List.not_mem_nil⟩
  | succ n ih =>
      obtain ⟨hs, halloc, hdata⟩ := ih
      obtain ⟨-, hs', hdata'⟩ := hs.pushBackHost n
      rw [halloc] at hs'
      rw [setupCtxs_succ, List.range_succ]
      refine ⟨hs', by rw [FreeList.allocator_pushBackHost, halloc],
        fun i hi => ?_⟩
      -- The new node `n` holds context `n`; the others keep theirs.
      rw [hdata', halloc]
      rcases List.mem_append.mp hi with hi | hi
      · rw [if_neg (Nat.ne_of_lt (List.mem_range.mp hi)), hdata i hi]
      · rw [List.mem_singleton.mp hi, if_pos rfl]

theorem createCtx_of_nil {l : FreeList Nat} {recycled : List Nat} (hs : l.Wf [] recycled) :
    createCtx l = (none, l) := by
  unfold createCtx
  rw [FreeList.popFront_of_head_none hs.head_eq]

/-- A create with a live node `a` returns the context in it. -/
theorem createCtx_of_cons {l : FreeList Nat} {a : Nat} {rest recycled : List Nat}
    (hs : l.Wf (a :: rest) recycled) :
    createCtx l = (some (l.nodes a).data, l.popFront.2) := by
  have hpop : l.popFront = (((l.nodes a).data, true), l.popFront.2) := Prod.ext hs.popFront.1 rfl
  unfold createCtx
  rw [hpop]

end IPCBackend

open IPCBackend

/-- The backend's free list and the contexts that callers hold, in the order
    `create_ctx` returned them. -/
structure CtxPool where
  ctxFreeList : FreeList Nat
  live : List Nat

/-- The pool after `setup_ctxs`, no context held. -/
def CtxPool.init (maximumNumContexts : Nat) : CtxPool := ⟨setupCtxs maximumNumContexts, []⟩

/-- A `create_ctx`, or a `destroy_ctx` of a context that a caller holds. -/
inductive CtxStep : CtxPool → CtxPool → Prop where
  | create (p : CtxPool) :
      CtxStep p ⟨(createCtx p.ctxFreeList).2, p.live ++ (createCtx p.ctxFreeList).1.toList⟩
  | destroy (p : CtxPool) (ctx : Nat) (h : ctx ∈ p.live) :
      CtxStep p ⟨destroyCtx p.ctxFreeList ctx, p.live.erase ctx⟩

/-- The free contexts and the held ones are all the contexts, each once, and
    one node is recycled for every held context. -/
def CtxPoolInv (maximumNumContexts : Nat) (p : CtxPool) : Prop :=
  ∃ nodes recycled, p.ctxFreeList.Wf nodes recycled ∧ recycled.length = p.live.length ∧
    ((nodes.map fun a => (p.ctxFreeList.nodes a).data) ++ p.live).Perm
      (List.range maximumNumContexts)

namespace CtxPoolInv

variable {maximumNumContexts : Nat}

theorem init : CtxPoolInv maximumNumContexts (CtxPool.init maximumNumContexts) := by
  obtain ⟨hs, -, hdata⟩ := setupCtxs_wf maximumNumContexts
  refine ⟨_, _, hs, rfl, ?_⟩
  -- Node `i` holds context `i`.
  show (((List.range maximumNumContexts).map fun a => ((setupCtxs maximumNumContexts).nodes a).data)
    ++ []).Perm (List.range maximumNumContexts)
  rw [List.map_congr_left hdata, List.map_id', List.append_nil]

theorem create {p : CtxPool} (hp : CtxPoolInv maximumNumContexts p) :
    CtxPoolInv maximumNumContexts
      ⟨(createCtx p.ctxFreeList).2, p.live ++ (createCtx p.ctxFreeList).1.toList⟩ := by
  obtain ⟨nodes, recycled, hs, hlen, hperm⟩ := hp
  cases nodes with
  | nil =>
      -- No free context: nothing changes.
      rw [createCtx_of_nil hs, Option.toList_none, List.append_nil]
      exact ⟨[], recycled, hs, hlen, hperm⟩
  | cons a rest =>
      -- The first free context moves to the callers, its node to the
      -- recycled list.
      obtain ⟨-, hs', hdata⟩ := hs.popFront
      rw [createCtx_of_cons hs, Option.toList_some]
      refine ⟨rest, a :: recycled, hs', by simp [hlen], ?_⟩
      rw [List.map_congr_left fun b _ => hdata b, ← List.append_assoc]
      exact (List.perm_append_singleton _ _).trans hperm

theorem destroy {p : CtxPool} (hp : CtxPoolInv maximumNumContexts p) {ctx : Nat}
    (hctx : ctx ∈ p.live) :
    CtxPoolInv maximumNumContexts ⟨destroyCtx p.ctxFreeList ctx, p.live.erase ctx⟩ := by
  obtain ⟨nodes, recycled, hs, hlen, hperm⟩ := hp
  cases recycled with
  | nil =>
      have := List.length_pos_of_mem hctx
      simp only [List.length_nil] at hlen
      omega
  | cons n rs =>
      -- The context goes back in the node that the last create recycled.
      obtain ⟨-, hs', hdata⟩ := hs.pushBackDevice_cons ctx
      have hn : n ∉ nodes := by
        have hnd := hs.nodup
        rw [List.nodup_middle, List.nodup_cons] at hnd
        exact fun h => hnd.1 (List.mem_append_left _ h)
      refine ⟨nodes ++ [n], rs, hs', ?_, ?_⟩
      · simp only [List.length_cons] at hlen
        rw [List.length_erase_of_mem hctx]
        omega
      · show (((nodes ++ [n]).map fun a => ((p.ctxFreeList.pushBackDevice ctx).2.nodes a).data) ++
          p.live.erase ctx).Perm (List.range maximumNumContexts)
        rw [FreeList.map_data_snoc hn hdata, List.append_assoc, List.singleton_append]
        exact ((List.perm_cons_erase hctx).symm.append_left _).trans hperm

end CtxPoolInv

theorem ctxPoolInv_reachable {maximumNumContexts : Nat} {p : CtxPool}
    (h : Reachable CtxStep (CtxPool.init maximumNumContexts) p) :
    CtxPoolInv maximumNumContexts p := by
  refine Reachable.invariant CtxPoolInv.init ?_ h
  intro _ _ _ hp hstep
  cases hstep with
  | create => exact hp.create
  | destroy ctx hctx => exact hp.destroy hctx

/-- The context pool neither loses nor duplicates contexts: over any
    sequence of creates and of destroys of held contexts, the free contexts
    and the held ones are disjoint and together exactly the contexts
    `0, ..., maximum_num_contexts_ - 1`, no context is held twice, the push
    of every destroy succeeds, and a create fails exactly when every context
    is held. -/
theorem ctx_pool_no_loss_no_duplicate (maximumNumContexts : Nat) (p : CtxPool)
    (h : Reachable CtxStep (CtxPool.init maximumNumContexts) p) :
    ∃ free, p.ctxFreeList.Represents free ∧
      (free ++ p.live).Perm (List.range maximumNumContexts) ∧
      (∀ ctx ∈ free, ctx ∉ p.live) ∧ p.live.Nodup ∧
      (∀ ctx ∈ p.live, (p.ctxFreeList.pushBackDevice ctx).1 = true) ∧
      ((createCtx p.ctxFreeList).1 = none ↔ p.live.length = maximumNumContexts) := by
  obtain ⟨nodes, recycled, hs, hlen, hperm⟩ := ctxPoolInv_reachable h
  have hnodup := List.nodup_append.mp (hperm.nodup_iff.mpr List.nodup_range)
  have hcount := hperm.length_eq
  rw [List.length_append, List.length_range, List.length_map] at hcount
  refine ⟨_, hs.represents, hperm, fun ctx hf hl => hnodup.2.2 ctx hf ctx hl rfl, hnodup.2.1,
    fun ctx hctx => ?_, ?_⟩
  · -- A held context leaves a recycled node for its destroy.
    cases recycled with
    | nil =>
        have := List.length_pos_of_mem hctx
        simp only [List.length_nil] at hlen
        omega
    | cons n rs => exact (hs.pushBackDevice_cons ctx).1
  · -- A create fails exactly when no context is free.
    cases nodes with
    | nil =>
        rw [createCtx_of_nil hs]
        simp only [List.length_nil] at hcount
        exact ⟨fun _ => by omega, fun _ => rfl⟩
    | cons a rest =>
        rw [createCtx_of_cons hs]
        simp only [List.length_cons] at hcount
        exact ⟨fun h => absurd h (Option.some_ne_none _), fun h => by omega⟩

/-- Two contexts, one created: context `0` is held and `1` is free. -/
theorem ctx_pool_no_loss_no_duplicate_after_create :
    ∃ p : CtxPool, Reachable CtxStep (CtxPool.init 2) p ∧ p.live = [0] ∧
      ∃ free, p.ctxFreeList.Represents free ∧ (free ++ p.live).Perm (List.range 2) ∧
        (∀ ctx ∈ free, ctx ∉ p.live) ∧ p.live.Nodup ∧
        (∀ ctx ∈ p.live, (p.ctxFreeList.pushBackDevice ctx).1 = true) ∧
        ((createCtx p.ctxFreeList).1 = none ↔ p.live.length = 2) := by
  have hreach : Reachable CtxStep (CtxPool.init 2)
      ⟨(createCtx (CtxPool.init 2).ctxFreeList).2,
        [] ++ (createCtx (CtxPool.init 2).ctxFreeList).1.toList⟩ :=
    Reachable.refl.tail (.create _)
  exact ⟨_, hreach, rfl, ctx_pool_no_loss_no_duplicate 2 _ hreach⟩

end RocShmem
