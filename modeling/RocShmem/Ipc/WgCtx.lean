import RocShmem.Ipc.Backend
import RocShmem.Team
import RocShmem.Lib.Dim3

/-!
# Work-Group Context Creation

`rocshmem_wg_ctx_create` and `rocshmem_wg_team_create_ctx`
(`rocshmem_gpu.cpp`) are called by every thread of a block. Each thread has
its own `result`, initialised to `true`. The thread whose flat id in the
block is `0` stores the team in the caller's `rocshmem_ctx_t`, asks the
backend for a context (`IPCBackend::create_ctx`), and sets the fence of the
context that `ctx->ctx_opaque` then points to. After `__syncthreads()`
every thread returns `0` if its own `result` is true and `-1` otherwise.

When the pool has a free context this is right: `create_ctx` pops it,
stores it in `ctx_opaque` and gives it the team, the fence is set on it,
and every thread returns `0`. When the pool is empty the pop fails and
`create_ctx` returns `false` before it writes `ctx_opaque`. Two things then
go wrong. Only thread `0` sees the failure: it returns `-1` while every
other thread of the block returns `0` from its untouched `result`. And
thread `0` still calls `setFence` through `ctx_opaque`, which holds whatever
the caller left there: a null pointer is dereferenced, and a pointer kept
from an earlier context has that context's fence rewritten.

The backend state is the context pool of `Ipc.Backend` together with the
two fields of each context of `ctx_array` that these calls write, `tinfo`
and the fence's `flush_`. A dereference of null is a fault (`none`).

## Main definitions

* `RocshmemCtxT`: The caller's context handle.
* `CtxArrayState`: The pool and the written fields of every context.
* `IPCBackend.createCtxWrites`: `create_ctx` with its writes through `ctx`.
* `setFence`: The fence write through a context pointer.
* `wgCreateCtxBody`: The body the two calls share.
* `rocshmemWgCtxCreate`, `rocshmemWgTeamCreateCtx`: The two calls.

## Theorems

* `wgCreateCtxBody_of_free`: With a free context, every thread returns `0`
  and the popped context is set up.
* `wgCreateCtxBody_of_empty_null`, `wgCreateCtxBody_of_empty_stale`: With
  none, the call faults on a null handle, and otherwise thread `0` alone
  returns `-1` and the fence of the context the handle names is rewritten.
* `rocshmemWgTeamCreateCtx_invalid`: An invalid team fails in every thread
  and changes nothing.
* `wg_ctx_create_empty_pool_diverges`: On an empty pool the threads of a
  block disagree, and the stale handle is dereferenced.
-/

namespace RocShmem

/-- `ROCSHMEM_CTX_NOSTORE`. -/
def rocshmemCtxNostore : Int64 := 1

/-- `Fence(option)`: `flush_` starts true and `ROCSHMEM_CTX_NOSTORE` clears
    it. -/
def fenceFlush (option : Int64) : Bool := (option &&& rocshmemCtxNostore) == 0

/-- `rocshmem_ctx_t`: `ctx_opaque`, the context it names (`none` for null,
    `some i` for `ctx_array + i`), and `team_opaque`. -/
structure RocshmemCtxT where
  ctxOpaque : Option Nat
  teamOpaque : TeamInfo

/-- The backend's context pool, and for every context of `ctx_array` its
    `tinfo` and its fence's `flush_`. -/
structure CtxArrayState where
  pool : CtxPool
  tinfo : Nat → TeamInfo
  flush : Nat → Bool

namespace IPCBackend

/-- `create_ctx(options, ctx)`: on a failed pop return `false`; otherwise
    store the popped context in `ctx->ctx_opaque`, give it the team of
    `ctx->team_opaque`, and return `true`. The pool's `live` records the
    context handed out. -/
def createCtxWrites (st : CtxArrayState) (ctx : RocshmemCtxT) :
    Bool × CtxArrayState × RocshmemCtxT :=
  match createCtx st.pool.ctxFreeList with
  | (none, l) => (false, { st with pool := ⟨l, st.pool.live⟩ }, ctx)
  | (some c, l) =>
    (true,
      { st with
        pool := ⟨l, st.pool.live ++ [c]⟩
        tinfo := Function.update st.tinfo c ctx.teamOpaque },
      { ctx with ctxOpaque := some c })

end IPCBackend

/-- `reinterpret_cast<Context *>(ptr)->setFence(option)`: a fault on null,
    otherwise the fence of the named context is rebuilt from the option. -/
def setFence (st : CtxArrayState) (ptr : Option Nat) (option : Int64) :
    Option CtxArrayState :=
  ptr.map fun i => { st with flush := Function.update st.flush i (fenceFlush option) }

/-- What one thread of the block returns: thread `0` returns what
    `create_ctx` gave it, every other thread its initial `result`. -/
def wgThreadResult (blockDim thread : Dim3) (created : Bool) : Int :=
  let result := if blockDim.linear thread = 0 then created else true
  if result == true then 0 else -1

/-- The body shared by the two calls, for the team `teamOpaque` thread `0`
    stores: thread `0`'s writes, then every thread's return value. `none` if
    thread `0` dereferences null. -/
def wgCreateCtxBody (blockDim : Dim3) (teamOpaque : TeamInfo) (option : Int64)
    (ctx : RocshmemCtxT) (st : CtxArrayState) :
    Option (CtxArrayState × RocshmemCtxT × (Dim3 → Int)) :=
  let ctx := { ctx with teamOpaque := teamOpaque }
  let (result, st, ctx) := IPCBackend.createCtxWrites st ctx
  (setFence st ctx.ctxOpaque option).map fun st =>
    (st, ctx, fun thread => wgThreadResult blockDim thread result)

/-- `rocshmem_wg_ctx_create(option, ctx)`, with the team of
    `ROCSHMEM_CTX_DEFAULT`. -/
def rocshmemWgCtxCreate (blockDim : Dim3) (ctxDefaultTeam : TeamInfo) (option : Int64)
    (ctx : RocshmemCtxT) (st : CtxArrayState) :
    Option (CtxArrayState × RocshmemCtxT × (Dim3 → Int)) :=
  wgCreateCtxBody blockDim ctxDefaultTeam option ctx st

/-- `rocshmem_wg_team_create_ctx(team, options, ctx)`: every thread returns
    `-1` for `ROCSHMEM_TEAM_INVALID` (`none`); otherwise the shared body with
    the team's `tinfo_wrt_world`. -/
def rocshmemWgTeamCreateCtx (blockDim : Dim3) (team : Option Team) (options : Int64)
    (ctx : RocshmemCtxT) (st : CtxArrayState) :
    Option (CtxArrayState × RocshmemCtxT × (Dim3 → Int)) :=
  match team with
  | none => some (st, ctx, fun _ => -1)
  | some teamObj => wgCreateCtxBody blockDim teamObj.tinfoWrtWorld options ctx st

namespace IPCBackend

/-- A pop from a free list with a head gives its context. -/
theorem createCtxWrites_of_free {st : CtxArrayState} {ctx : RocshmemCtxT} {c : Nat}
    {l : FreeList Nat} (h : createCtx st.pool.ctxFreeList = (some c, l)) :
    createCtxWrites st ctx =
      (true,
        { st with
          pool := ⟨l, st.pool.live ++ [c]⟩
          tinfo := Function.update st.tinfo c ctx.teamOpaque },
        { ctx with ctxOpaque := some c }) := by
  unfold createCtxWrites
  rw [h]

/-- A pop from a free list without a head fails and changes nothing. -/
theorem createCtxWrites_of_empty {st : CtxArrayState} (ctx : RocshmemCtxT)
    (h : st.pool.ctxFreeList.head = none) :
    createCtxWrites st ctx = (false, st, ctx) := by
  have hpop : createCtx st.pool.ctxFreeList = (none, st.pool.ctxFreeList) := by
    unfold createCtx
    rw [FreeList.popFront_of_head_none h]
  unfold createCtxWrites
  rw [hpop]

/-- Whatever the pop gives, `create_ctx` takes a create step of the pool. -/
theorem createCtxWrites_pool (st : CtxArrayState) (ctx : RocshmemCtxT) :
    (createCtxWrites st ctx).2.1.pool =
      ⟨(createCtx st.pool.ctxFreeList).2,
        st.pool.live ++ (createCtx st.pool.ctxFreeList).1.toList⟩ := by
  unfold createCtxWrites
  rcases createCtx st.pool.ctxFreeList with ⟨_ | c, l⟩ <;> simp

end IPCBackend

theorem setFence_pool {st st' : CtxArrayState} {ptr : Option Nat} {option : Int64}
    (h : setFence st ptr option = some st') : st'.pool = st.pool := by
  obtain ⟨i, -, rfl⟩ := Option.map_eq_some_iff.1 h
  rfl

theorem wgThreadResult_of_ne_zero {blockDim thread : Dim3} (created : Bool)
    (h : blockDim.linear thread ≠ 0) : wgThreadResult blockDim thread created = 0 := by
  simp [wgThreadResult, h]

theorem wgThreadResult_of_zero {blockDim thread : Dim3} (created : Bool)
    (h : blockDim.linear thread = 0) :
    wgThreadResult blockDim thread created = if created then 0 else -1 := by
  cases created <;> simp [wgThreadResult, h]

section Body

variable (blockDim : Dim3) (teamOpaque : TeamInfo) (option : Int64) (ctx : RocshmemCtxT)
  (st : CtxArrayState)

/-- The body as thread `0`'s `create_ctx` followed by its fence write. -/
theorem wgCreateCtxBody_eq :
    wgCreateCtxBody blockDim teamOpaque option ctx st =
      (setFence (IPCBackend.createCtxWrites st { ctx with teamOpaque := teamOpaque }).2.1
          (IPCBackend.createCtxWrites st { ctx with teamOpaque := teamOpaque }).2.2.ctxOpaque
          option).map fun st' =>
        (st', (IPCBackend.createCtxWrites st { ctx with teamOpaque := teamOpaque }).2.2,
          fun thread => wgThreadResult blockDim thread
            (IPCBackend.createCtxWrites st { ctx with teamOpaque := teamOpaque }).1) := rfl

/-- With a free context `c`, the handle names `c` with the team, `c` gets the
    team and the fence, it leaves the free list for the callers, and every
    thread returns `0`. -/
theorem wgCreateCtxBody_of_free {c : Nat} {l : FreeList Nat}
    (h : IPCBackend.createCtx st.pool.ctxFreeList = (some c, l)) :
    wgCreateCtxBody blockDim teamOpaque option ctx st =
      some ({ pool := ⟨l, st.pool.live ++ [c]⟩
              tinfo := Function.update st.tinfo c teamOpaque
              flush := Function.update st.flush c (fenceFlush option) },
            ⟨some c, teamOpaque⟩, fun _ => 0) := by
  simp only [wgCreateCtxBody, IPCBackend.createCtxWrites_of_free h, setFence, Option.map_some]
  congr
  funext thread
  by_cases h0 : blockDim.linear thread = 0
  · rw [wgThreadResult_of_zero _ h0, if_pos rfl]
  · exact wgThreadResult_of_ne_zero _ h0

/-- With no free context and a null handle, thread `0` dereferences null. -/
theorem wgCreateCtxBody_of_empty_null (hempty : st.pool.ctxFreeList.head = none)
    (hnull : ctx.ctxOpaque = none) :
    wgCreateCtxBody blockDim teamOpaque option ctx st = none := by
  simp [wgCreateCtxBody, IPCBackend.createCtxWrites_of_empty _ hempty, setFence, hnull]

/-- With no free context and a handle left naming context `k`, the pool is
    unchanged, `k` has its fence rebuilt, thread `0` returns `-1` and every
    other thread `0`. -/
theorem wgCreateCtxBody_of_empty_stale {k : Nat} (hempty : st.pool.ctxFreeList.head = none)
    (hstale : ctx.ctxOpaque = some k) :
    wgCreateCtxBody blockDim teamOpaque option ctx st =
      some ({ st with flush := Function.update st.flush k (fenceFlush option) },
            ⟨some k, teamOpaque⟩,
            fun thread => if blockDim.linear thread = 0 then -1 else 0) := by
  simp only [wgCreateCtxBody, IPCBackend.createCtxWrites_of_empty _ hempty, setFence, hstale,
    Option.map_some]
  congr
  funext thread
  by_cases h0 : blockDim.linear thread = 0
  · rw [wgThreadResult_of_zero _ h0, if_pos h0, if_neg Bool.false_ne_true]
  · rw [wgThreadResult_of_ne_zero _ h0, if_neg h0]

end Body

/-- An invalid team fails in every thread and changes nothing. -/
theorem rocshmemWgTeamCreateCtx_invalid (blockDim : Dim3) (options : Int64)
    (ctx : RocshmemCtxT) (st : CtxArrayState) :
    rocshmemWgTeamCreateCtx blockDim none options ctx st = some (st, ctx, fun _ => -1) := rfl

/-- In a block of at least two threads, a context pool with no free context
    makes `rocshmem_wg_ctx_create` fault on a null handle; on a handle left
    naming context `k`, the free list is unchanged but context `k`'s fence
    is rewritten, thread `0` returns `-1`, and some other thread of the
    block returns `0`. The same holds of `rocshmem_wg_team_create_ctx` with
    a valid team, which runs the same body. -/
theorem wg_ctx_create_empty_pool_diverges (blockDim : Dim3) (hblock : 2 ≤ blockDim.size)
    (ctxDefaultTeam : TeamInfo) (option : Int64) (ctx : RocshmemCtxT) (st : CtxArrayState)
    (hempty : st.pool.ctxFreeList.head = none) :
    (ctx.ctxOpaque = none → rocshmemWgCtxCreate blockDim ctxDefaultTeam option ctx st = none) ∧
    ∀ k, ctx.ctxOpaque = some k →
      ∃ st' ctx' results,
        rocshmemWgCtxCreate blockDim ctxDefaultTeam option ctx st = some (st', ctx', results) ∧
        st'.pool.ctxFreeList = st.pool.ctxFreeList ∧
        st'.flush k = fenceFlush option ∧
        results ⟨0, 0, 0⟩ = -1 ∧
        ∃ thread ∈ blockDim.indices, thread ≠ ⟨0, 0, 0⟩ ∧ results thread = 0 := by
  refine ⟨wgCreateCtxBody_of_empty_null blockDim ctxDefaultTeam option ctx st hempty, ?_⟩
  intro k hstale
  refine ⟨_, _, _, wgCreateCtxBody_of_empty_stale blockDim ctxDefaultTeam option ctx st
    hempty hstale, rfl, by simp, by simp [Dim3.linear], ?_⟩
  -- the thread of flat id `1` is in the block, and it is not the origin
  obtain ⟨thread, hmem, hone⟩ := Dim3.exists_linear_eq (d := blockDim) (k := 1) (by omega)
  have hne : thread ≠ ⟨0, 0, 0⟩ := by
    rintro rfl
    simp [Dim3.linear] at hone
  exact ⟨thread, hmem, hne, by simp [hone]⟩

/-- A pool of one context, already handed out, and a block of two threads
    whose handle still names that context. -/
theorem wg_ctx_create_empty_pool_diverges_two_threads :
    ∃ st' ctx' results,
      rocshmemWgCtxCreate ⟨2, 1, 1⟩ (teamWorld 2 0).tinfoWrtWorld 0
          ⟨some 0, (teamWorld 2 0).tinfoWrtWorld⟩
          ⟨⟨(IPCBackend.createCtx (IPCBackend.setupCtxs 1)).2, [0]⟩,
            fun _ => (teamWorld 2 0).tinfoWrtWorld, fun _ => true⟩ =
        some (st', ctx', results) ∧
      results ⟨0, 0, 0⟩ = -1 ∧
      ∃ thread ∈ Dim3.indices ⟨2, 1, 1⟩, thread ≠ ⟨0, 0, 0⟩ ∧ results thread = 0 := by
  obtain ⟨-, hstale⟩ := wg_ctx_create_empty_pool_diverges ⟨2, 1, 1⟩ (by decide)
    (teamWorld 2 0).tinfoWrtWorld 0 ⟨some 0, (teamWorld 2 0).tinfoWrtWorld⟩
    ⟨⟨(IPCBackend.createCtx (IPCBackend.setupCtxs 1)).2, [0]⟩,
      fun _ => (teamWorld 2 0).tinfoWrtWorld, fun _ => true⟩ (by decide)
  obtain ⟨st', ctx', results, hrun, -, -, h0, hother⟩ := hstale 0 rfl
  exact ⟨st', ctx', results, hrun, h0, hother⟩

end RocShmem
