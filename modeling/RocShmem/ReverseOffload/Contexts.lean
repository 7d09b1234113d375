import RocShmem.ReverseOffload.Queue
import RocShmem.Sync.WaitUntil

/-!
# The Reverse-Offload Contexts and Their Queues

A reverse-offload context sends its requests through a block handle
(`ROContext::ROContext(b, block_id)`). The default context, built with a
`block_id` of `-1`, uses the backend's default handle, and context `i` of
`ctx_array` (`ROBackend::setup_ctxs`) uses handle `i` of the
`BlockHandleProxy`. Each handle is built over one of the host's queues: the
default handle over queue `0` (`DefaultBlockHandleProxy` reads
`queue->descriptor(0)` and `queue->elements(0)`), handle `i` over queue `i`.
So the default context and context `0`, the first one `create_ctx` pops off
the free list, drive queue `0` through two handles. The elements, their
`valid` flags and the host's `read_index` are shared; the lock, the
`write_index` and the cached `read_index` are each handle's own.

The model (`SharedRing`) is the ring protocol of `ReverseOffload.Queue` with
any number of handles over one queue: the shared memory once, the GPU side
of each handle, and each wave working through the handle of its context. A
wave's step is the single-handle step on its handle's view of the queue
(`SharedRing.view`), written back (`SharedRing.setView`); the host's
`Queue::process` reads and writes the shared part only.

With every wave on one handle, the handle sees a run of the single-handle
ring (`shared_ring_one_handle_refines`), so `ro_queue_mpsc_ring` holds of
it. With waves on two handles, each handle hands out the same index: two
lanes write the same slot, and of their two requests the host takes one
(`shared_queue_loses_request`), as it does for the default context and
context `0`.

## Main definitions

* `HandleId`, `HandleId.queueIndex`: The handles and the queue each drives.
* `roContextHandle`, `setupCtxs`: The handle of a context, and the contexts
  `setup_ctxs` puts on the free list.
* `SharedRing`, `SharedStep`: One queue driven through several handles.
* `SharedRing.toRing`: The single-handle ring one handle sees.

## Theorems

* `setupCtxs_head`: The first context handed out drives queue `0` through a
  handle other than the default context's.
* `SharedStep.toRing`: A step of a system whose waves all use one handle is
  a step of that handle's ring.
* `shared_ring_one_handle_refines`: With one handle, every reachable state
  is seen by it as a reachable state of the ring.
* `SharedStep.reserve`: A wave whose handle is free reserves its lanes.
* `shared_queue_loses_request`: With two handles, a request is lost.
* `ro_queue_default_and_first_ctx_lose_request`: So it is for the default
  context and the first context of `setup_ctxs`.
-/

namespace RocShmem

open Transition

/-- The block handles of the backend: the default context's, and handle `i`
    of the `BlockHandleProxy`. -/
inductive HandleId where
  | default
  | block (i : Nat)
deriving DecidableEq, Repr

/-- The queue a handle is built over: `DefaultBlockHandleProxy` takes queue
    `0`, and `BlockHandleProxy` gives handle `i` queue `i`. -/
def HandleId.queueIndex : HandleId → Nat
  | .default => 0
  | .block i => i

/-- `ROContext::ROContext(b, block_id)`: the default handle for a
    `block_id` of `-1`, which is `SIZE_MAX` as a `size_t`, and handle
    `block_id` otherwise. -/
def roContextHandle (blockId : Nat) : HandleId :=
  if blockId = sizeMax then .default else .block blockId

/-- `ROBackend::setup_ctxs`: the contexts `ROContext(this, i)` for
    `i < maximum_num_contexts_`, pushed onto the free list in order; the
    `pop_front` of `create_ctx` hands them out from the front. -/
def setupCtxs (maximumNumContexts : Nat) : List HandleId :=
  (List.range maximumNumContexts).map roContextHandle

/-- The first context `create_ctx` hands out is context `0`, whose handle
    is not the default context's but drives the same queue. -/
theorem setupCtxs_head {n : Nat} (hn : 0 < n) :
    (setupCtxs n).head? = some (.block 0) ∧ roContextHandle sizeMax = .default ∧
      (HandleId.block 0).queueIndex = HandleId.default.queueIndex := by
  obtain ⟨m, rfl⟩ := Nat.exists_eq_add_of_lt hn
  refine ⟨?_, if_pos rfl, rfl⟩
  rw [setupCtxs, List.range_succ_eq_map, List.map_cons, List.head?_cons, roContextHandle,
    if_neg (by decide)]

/-- The GPU side of a block handle: its cached `read_index`, its
    `write_index` and its `lock`. -/
structure HandleSide where
  readIndex : Nat
  writeIndex : Nat
  lock : Bool

/-- One queue driven through the handles `η` by the waves `ω`: the queue's
    elements, `valid` flags and the host's `read_index`; the GPU side of
    each handle; each wave's place in the protocol; and the history: the
    indices each handle handed out, in order, what was last written at each
    index, what the lanes wrote, in order, and what the host handed on, in
    order. -/
structure SharedRing (η ω α : Type) where
  queue : Nat → α
  valid : Nat → Bool
  hostReadIndex : Nat
  side : η → HandleSide
  pc : ω → WavePc
  reserved : η → List Nat
  written : Nat → Option α
  filled : List α
  inserted : List α

namespace SharedRing

variable {η ω α : Type}

/-- An empty queue: every index `0`, no slot valid, every handle free,
    every wave idle. -/
def init [Inhabited α] : SharedRing η ω α :=
  ⟨fun _ => default, fun _ => false, 0, fun _ => ⟨0, 0, false⟩, fun _ => .idle, fun _ => [],
    fun _ => none, [], []⟩

/-- Handle `h`'s view of the queue: the block handle a wave of its context
    works on. -/
@[simps]
def view (s : SharedRing η ω α) (h : η) : BlockHandle α :=
  ⟨s.queue, s.valid, s.hostReadIndex, (s.side h).readIndex, (s.side h).writeIndex,
    (s.side h).lock⟩

/-- The host's view: `Queue::process` reads and writes the shared part of
    the queue only. -/
def hostView (s : SharedRing η ω α) : BlockHandle α :=
  ⟨s.queue, s.valid, s.hostReadIndex, 0, 0, false⟩

/-- The host runs `Queue::process` once. -/
def process (s : SharedRing η ω α) : SharedRing η ω α :=
  { s with
    valid := s.hostView.process.2.valid
    hostReadIndex := s.hostView.process.2.hostReadIndex
    inserted := s.inserted ++ s.hostView.process.1.toList }

/-- The single-handle ring handle `h` sees. -/
def toRing (s : SharedRing η ω α) (h : η) : RingSystem ω α :=
  ⟨s.view h, s.pc, s.reserved h, s.written, s.inserted⟩

/-- `Queue::process` leaves every handle's side alone. -/
theorem view_process (s : SharedRing η ω α) (h : η) : s.process.view h = (s.view h).process.2 := by
  unfold process view hostView BlockHandle.process BlockHandle.getReadIndex
  split <;> rfl

variable [DecidableEq η]

/-- What a wave did to its handle's view, written back: the shared part of
    the queue, and the handle's own side. -/
@[simps]
def setView (s : SharedRing η ω α) (h : η) (b : BlockHandle α) : SharedRing η ω α :=
  { s with
    queue := b.queue
    valid := b.valid
    hostReadIndex := b.hostReadIndex
    side := Function.update s.side h ⟨b.readIndex, b.writeIndex, b.lock⟩ }

@[simp]
theorem view_setView (s : SharedRing η ω α) (h : η) (b : BlockHandle α) :
    (s.setView h b).view h = b := by
  simp [view, setView]

/-- Another handle sees the shared part written back, and its own side as
    it was. -/
theorem view_setView_of_ne (s : SharedRing η ω α) {h h' : η} (hne : h' ≠ h)
    (b : BlockHandle α) :
    (s.setView h b).view h' = ⟨b.queue, b.valid, b.hostReadIndex, (s.side h').readIndex,
      (s.side h').writeIndex, (s.side h').lock⟩ := by
  simp [view, setView, Function.update_of_ne hne]

variable [DecidableEq ω] (handleOf : ω → η)

/-- The lowest active lane of wave `w` takes its handle's lock. -/
@[simps]
def acquire (s : SharedRing η ω α) (w : ω) (lanes : Nat) : SharedRing η ω α :=
  { s.setView (handleOf w) (s.view (handleOf w)).acquireLock with
    pc := Function.update s.pc w (.waiting lanes) }

/-- The lock holder refreshes its handle's cached `read_index`. -/
def refresh (s : SharedRing η ω α) (w : ω) : SharedRing η ω α :=
  s.setView (handleOf w) (s.view (handleOf w)).refreshReadIndex

/-- The lock holder, finding room, reads its handle's `write_index`. -/
@[simps]
def readWriteIndex (s : SharedRing η ω α) (w : ω) (lanes : Nat) : SharedRing η ω α :=
  { s with pc := Function.update s.pc w (.reserving (s.view (handleOf w)).writeIndex lanes) }

/-- The lock holder advances its handle's `write_index` past its lanes and
    releases the lock. -/
@[simps]
def advance (s : SharedRing η ω α) (w : ω) (writeSlot lanes : Nat) : SharedRing η ω α :=
  { s.setView (handleOf w) ((s.view (handleOf w)).advanceWriteIndex lanes) with
    pc := Function.update s.pc w (.filling (List.range' writeSlot lanes))
    reserved := Function.update s.reserved (handleOf w)
      (s.reserved (handleOf w) ++ List.range' writeSlot lanes) }

/-- The lane of wave `w` at index `k` writes `element` into its slot. -/
@[simps]
def fill (s : SharedRing η ω α) (w : ω) (pending : List Nat) (k : Nat) (element : α) :
    SharedRing η ω α :=
  { s.setView (handleOf w) ((s.view (handleOf w)).buildQueueElement (k % queueSize) element) with
    pc := Function.update s.pc w (WavePc.ofPending (pending.erase k))
    written := Function.update s.written k (some element)
    filled := s.filled ++ [element] }

/-! ### A wave's step is the step of its handle's ring -/

theorem toRing_acquire (s : SharedRing η ω α) (w : ω) (lanes : Nat) :
    (s.acquire handleOf w lanes).toRing (handleOf w) = (s.toRing (handleOf w)).acquire w lanes := by
  simp [toRing, acquire, RingSystem.acquire, setView, view, BlockHandle.acquireLock]

omit [DecidableEq ω] in
theorem toRing_refresh (s : SharedRing η ω α) (w : ω) :
    (s.refresh handleOf w).toRing (handleOf w) = (s.toRing (handleOf w)).refresh := by
  simp [toRing, refresh, RingSystem.refresh, setView, view, BlockHandle.refreshReadIndex]

omit [DecidableEq η] in
theorem toRing_readWriteIndex (s : SharedRing η ω α) (w : ω) (lanes : Nat) :
    (s.readWriteIndex handleOf w lanes).toRing (handleOf w) =
      (s.toRing (handleOf w)).readWriteIndex w lanes := by
  simp [toRing, readWriteIndex, RingSystem.readWriteIndex, view]

theorem toRing_advance (s : SharedRing η ω α) (w : ω) (writeSlot lanes : Nat) :
    (s.advance handleOf w writeSlot lanes).toRing (handleOf w) =
      (s.toRing (handleOf w)).advance w writeSlot lanes := by
  simp [toRing, advance, RingSystem.advance, setView, view, BlockHandle.advanceWriteIndex]

theorem toRing_fill (s : SharedRing η ω α) (w : ω) (pending : List Nat) (k : Nat) (element : α) :
    (s.fill handleOf w pending k element).toRing (handleOf w) =
      (s.toRing (handleOf w)).fill w pending k element := by
  simp [toRing, fill, RingSystem.fill, setView, view, BlockHandle.buildQueueElement]

omit [DecidableEq η] [DecidableEq ω] in
theorem toRing_process (s : SharedRing η ω α) (h : η) :
    s.process.toRing h = (s.toRing h).process := by
  have hview := view_process s h
  have hout : s.hostView.process.1 = (s.view h).process.1 := by
    unfold hostView view BlockHandle.process BlockHandle.getReadIndex
    split <;> rfl
  simp only [toRing, RingSystem.process, hview]
  rw [show s.process.inserted = s.inserted ++ s.hostView.process.1.toList from rfl, hout]
  rfl

end SharedRing

/-- One atomic action of a wave, through the handle `handleOf` gives its
    context, or of the host. -/
inductive SharedStep {η ω α : Type} [DecidableEq η] [DecidableEq ω] (handleOf : ω → η) :
    SharedRing η ω α → SharedRing η ω α → Prop where
  | acquire (s : SharedRing η ω α) (w : ω) (lanes : Nat) (hw : s.pc w = .idle)
      (hlock : (s.view (handleOf w)).lock = false) :
      SharedStep handleOf s (s.acquire handleOf w lanes)
  | refresh (s : SharedRing η ω α) (w : ω) (lanes : Nat) (hw : s.pc w = .waiting lanes) :
      SharedStep handleOf s (s.refresh handleOf w)
  | readWriteIndex (s : SharedRing η ω α) (w : ω) (lanes : Nat) (hw : s.pc w = .waiting lanes)
      (hspace : (s.view (handleOf w)).enoughSpace lanes = true) :
      SharedStep handleOf s (s.readWriteIndex handleOf w lanes)
  | advance (s : SharedRing η ω α) (w : ω) (writeSlot lanes : Nat)
      (hw : s.pc w = .reserving writeSlot lanes) :
      SharedStep handleOf s (s.advance handleOf w writeSlot lanes)
  | fill (s : SharedRing η ω α) (w : ω) (pending : List Nat) (k : Nat) (element : α)
      (hw : s.pc w = .filling pending) (hk : k ∈ pending) :
      SharedStep handleOf s (s.fill handleOf w pending k element)
  | process (s : SharedRing η ω α) : SharedStep handleOf s s.process

/-- A wave whose handle is free and has room reserves its lanes from the
    handle's `write_index` in three steps: it takes the lock, reads
    `write_index`, and advances it. -/
theorem SharedStep.reserve {η ω α : Type} [DecidableEq η] [DecidableEq ω] (handleOf : ω → η)
    {s : SharedRing η ω α} {w : ω} {lanes writeSlot : Nat} (hw : s.pc w = .idle)
    (hlock : (s.view (handleOf w)).lock = false)
    (hspace : (s.view (handleOf w)).enoughSpace lanes = true)
    (hslot : (s.view (handleOf w)).writeIndex = writeSlot) :
    Relation.ReflTransGen (SharedStep handleOf) s
      (((s.acquire handleOf w lanes).readWriteIndex handleOf w lanes).advance handleOf w
        writeSlot lanes) := by
  have h₁ : SharedStep handleOf s (s.acquire handleOf w lanes) := .acquire s w lanes hw hlock
  -- taking the lock leaves the handle's indices, and so its room
  have h₂ : SharedStep handleOf (s.acquire handleOf w lanes)
      ((s.acquire handleOf w lanes).readWriteIndex handleOf w lanes) :=
    .readWriteIndex _ w lanes (by simp) (by simpa [BlockHandle.enoughSpace] using hspace)
  have h₃ : SharedStep handleOf ((s.acquire handleOf w lanes).readWriteIndex handleOf w lanes)
      (((s.acquire handleOf w lanes).readWriteIndex handleOf w lanes).advance handleOf w
        writeSlot lanes) :=
    .advance _ w writeSlot lanes (by simp [← hslot])
  exact ((Relation.ReflTransGen.single h₁).tail h₂).tail h₃

section Refinement

variable {η ω α : Type} [DecidableEq η] [DecidableEq ω] {handleOf : ω → η} {h : η}

/-- When every wave uses handle `h`, a step of the system is a step of the
    ring `h` sees: each wave's step is the same step on `h`'s view. -/
theorem SharedStep.toRing (hall : ∀ w, handleOf w = h) {s s' : SharedRing η ω α}
    (hs : SharedStep handleOf s s') : RingStep (s.toRing h) (s'.toRing h) := by
  cases hs with
  | acquire w lanes hw hlock =>
      have heq := SharedRing.toRing_acquire handleOf s w lanes
      rw [hall w] at heq hlock
      rw [heq]
      exact RingStep.acquire _ w lanes hw hlock
  | refresh w lanes hw =>
      have heq := SharedRing.toRing_refresh handleOf s w
      rw [hall w] at heq
      rw [heq]
      exact RingStep.refresh _ w lanes hw
  | readWriteIndex w lanes hw hspace =>
      have heq := SharedRing.toRing_readWriteIndex handleOf s w lanes
      rw [hall w] at heq hspace
      rw [heq]
      exact RingStep.readWriteIndex _ w lanes hw hspace
  | advance w writeSlot lanes hw =>
      have heq := SharedRing.toRing_advance handleOf s w writeSlot lanes
      rw [hall w] at heq
      rw [heq]
      exact RingStep.advance _ w writeSlot lanes hw
  | fill w pending k element hw hk =>
      have heq := SharedRing.toRing_fill handleOf s w pending k element
      rw [hall w] at heq
      rw [heq]
      exact RingStep.fill _ w pending k element hw hk
  | process =>
      rw [SharedRing.toRing_process]
      exact RingStep.process _

/-- A queue that every wave drives through one handle behaves as the ring
    of `ReverseOffload.Queue`: each reachable state is seen by the handle as
    a reachable state of the ring, so `ro_queue_mpsc_ring` holds of it. -/
theorem shared_ring_one_handle_refines [Inhabited α] (handleOf : ω → η) (hall : ∀ w, handleOf w = h)
    {s : SharedRing η ω α} (hs : Reachable (SharedStep handleOf) SharedRing.init s) :
    Reachable RingStep RingSystem.init (s.toRing h) := by
  induction hs with
  | refl => exact Reachable.refl
  | tail _ hstep ih => exact ih.tail (hstep.toRing hall)

/-- A wave of the default context alone sends request `1`: it reserves
    index `0`, fills it, and the host takes it. The default handle sees the
    whole run as a run of the ring. -/
theorem default_ctx_alone_refines : ∃ s,
    Reachable (SharedStep fun _ : Unit => HandleId.default)
      (SharedRing.init : SharedRing HandleId Unit Nat) s ∧
    s.inserted = [1] ∧ Reachable RingStep RingSystem.init (s.toRing .default) := by
  let s₃ := (((SharedRing.init : SharedRing HandleId Unit Nat).acquire (fun _ => .default) () 1
    ).readWriteIndex (fun _ => .default) () 1).advance (fun _ => .default) () 0 1
  let s₄ := s₃.fill (fun _ => .default) () [0] 0 1
  have hr₃ : Reachable (SharedStep fun _ : Unit => HandleId.default) SharedRing.init s₃ :=
    SharedStep.reserve _ rfl rfl (by simp [BlockHandle.enoughSpace, SharedRing.init, queueSize])
      rfl
  have hr : Reachable (SharedStep fun _ : Unit => HandleId.default) SharedRing.init s₄.process :=
    (hr₃.tail (.fill _ () [0] 0 1 (by simp [s₃]) (List.mem_singleton_self 0))).tail (.process _)
  have h := shared_ring_one_handle_refines (fun _ : Unit => HandleId.default) (fun _ => rfl) hr
  refine ⟨_, hr, ?_, h⟩
  simp [s₄, s₃, SharedRing.process, SharedRing.hostView, BlockHandle.process,
    BlockHandle.getReadIndex, SharedRing.init]

end Refinement

section TwoHandles

variable {η ω α : Type} [DecidableEq η] [DecidableEq ω]

/-- The run of two waves on two handles of one queue, each sending one
    request: both reserve index `0`, both lanes fill slot `0`, and the host
    processes it once. -/
theorem run_two_handles_one_slot [Inhabited α] (handleOf : ω → η) (w₁ w₂ : ω) (hw : w₁ ≠ w₂)
    (hh : handleOf w₁ ≠ handleOf w₂) (a b : α) :
    ∃ s, Reachable (SharedStep handleOf) SharedRing.init s ∧
      s.reserved (handleOf w₁) = [0] ∧ s.reserved (handleOf w₂) = [0] ∧
      (s.side (handleOf w₁)).writeIndex ≤ s.hostReadIndex ∧
      (s.side (handleOf w₂)).writeIndex ≤ s.hostReadIndex ∧
      (∀ j, s.valid j = false) ∧ s.filled = [a, b] ∧ s.inserted = [b] := by
  have hw' := Ne.symm hw
  have hh' := Ne.symm hh
  -- each wave reserves index `0` through its own handle
  let s₃ := (((SharedRing.init : SharedRing η ω α).acquire handleOf w₁ 1).readWriteIndex
    handleOf w₁ 1).advance handleOf w₁ 0 1
  let s₆ := ((s₃.acquire handleOf w₂ 1).readWriteIndex handleOf w₂ 1).advance handleOf w₂ 0 1
  -- both lanes fill slot `0`, and the host takes what is there
  let s₇ := s₆.fill handleOf w₁ [0] 0 a
  let s₈ := s₇.fill handleOf w₂ [0] 0 b
  have hr₃ : Reachable (SharedStep handleOf) SharedRing.init s₃ :=
    SharedStep.reserve handleOf rfl rfl
      (by simp [BlockHandle.enoughSpace, SharedRing.init, queueSize]) rfl
  -- the second handle's side is untouched by the first wave
  have hr₆ : Reachable (SharedStep handleOf) SharedRing.init s₆ :=
    Relation.ReflTransGen.trans hr₃ (SharedStep.reserve handleOf
      (by simp [s₃, hw', SharedRing.init]) (by simp [s₃, hh', SharedRing.init])
      (by simp [s₃, hh', BlockHandle.enoughSpace, SharedRing.init, queueSize])
      (by simp [s₃, hh', SharedRing.init]))
  have h₇ : SharedStep handleOf s₆ s₇ := .fill _ w₁ [0] 0 a
    (by simp [s₆, s₃, hw]) (List.mem_singleton_self 0)
  have h₈ : SharedStep handleOf s₇ s₈ := .fill _ w₂ [0] 0 b
    (by simp [s₇, s₆, hw']) (List.mem_singleton_self 0)
  refine ⟨s₈.process, ((hr₆.tail h₇).tail h₈).tail (.process _), ?_⟩
  simp [s₈, s₇, s₆, s₃, SharedRing.process, SharedRing.hostView,
    BlockHandle.process, BlockHandle.getReadIndex, Function.update_apply, hh, hh',
    SharedRing.init]

/-- Two waves on two handles of one queue each send a request from one
    lane, `a` and then `b`. Each handle hands out index `0`, so both lanes
    write slot `0`, and the host takes `b` there. Then every index either
    handle handed out lies behind the host's `read_index` and no slot is
    valid, but only `b` was handed on: the request `a` is lost. -/
theorem shared_queue_loses_request [Inhabited α] (handleOf : ω → η) (w₁ w₂ : ω) (hw : w₁ ≠ w₂)
    (hh : handleOf w₁ ≠ handleOf w₂) (a b : α) :
    ∃ s, Reachable (SharedStep handleOf) SharedRing.init s ∧
      s.reserved (handleOf w₁) = [0] ∧ s.reserved (handleOf w₂) = [0] ∧
      (s.side (handleOf w₁)).writeIndex ≤ s.hostReadIndex ∧
      (s.side (handleOf w₂)).writeIndex ≤ s.hostReadIndex ∧
      (∀ j, s.valid j = false) ∧ s.filled = [a, b] ∧ s.inserted = [b] :=
  run_two_handles_one_slot handleOf w₁ w₂ hw hh a b

/-- The ring is not one queue per handle: the default context and the first
    context `create_ctx` hands out of any `setup_ctxs`, context `0`, have
    two handles over queue `0`. A wave of each sends one request, `a` then
    `b`: index `0` is handed out twice, once by each handle, and the host
    hands on `b` alone. -/
theorem ro_queue_default_and_first_ctx_lose_request [Inhabited α] {n : Nat} (hn : 0 < n)
    (a b : α) :
    ∃ c, (setupCtxs n).head? = some c ∧ c ≠ roContextHandle sizeMax ∧
      c.queueIndex = (roContextHandle sizeMax).queueIndex ∧
      ∃ s, Reachable (SharedStep fun w : Bool => if w then roContextHandle sizeMax else c)
          (SharedRing.init : SharedRing HandleId Bool α) s ∧
        s.reserved (roContextHandle sizeMax) = [0] ∧ s.reserved c = [0] ∧
        s.filled = [a, b] ∧ s.inserted = [b] := by
  obtain ⟨hhead, hdef, hq⟩ := setupCtxs_head hn
  have hne : HandleId.block 0 ≠ roContextHandle sizeMax := by
    rw [hdef]
    exact HandleId.noConfusion
  refine ⟨.block 0, hhead, hne, by rw [hdef]; exact hq, ?_⟩
  -- the wave `true` is on the default context, the wave `false` on context `0`
  obtain ⟨s, hs, hr₁, hr₂, -, -, -, hf, hi⟩ :=
    run_two_handles_one_slot (fun w : Bool => if w then roContextHandle sizeMax else .block 0)
      true false Bool.noConfusion (Ne.symm hne) a b
  exact ⟨s, hs, hr₁, hr₂, hf, hi⟩

/-- With the `1024` contexts of the default `maximum_num_contexts`, the
    requests `1` and `2` of the default context and context `0`. -/
theorem ro_queue_default_contexts_lose_request :
    0 < 1024 ∧ ∃ c, (setupCtxs 1024).head? = some c ∧ c ≠ roContextHandle sizeMax ∧
      c.queueIndex = (roContextHandle sizeMax).queueIndex ∧
      ∃ s, Reachable (SharedStep fun w : Bool => if w then roContextHandle sizeMax else c)
          (SharedRing.init : SharedRing HandleId Bool Nat) s ∧
        s.reserved (roContextHandle sizeMax) = [0] ∧ s.reserved c = [0] ∧
        s.filled = [1, 2] ∧ s.inserted = [2] := by
  have h := ro_queue_default_and_first_ctx_lose_request (α := Nat) (n := 1024) (by decide) 1 2
  exact ⟨by decide, h⟩

/-- A wave of the default context and one of context `0`, the first context
    `create_ctx` hands out, send requests `1` and `2` through their two
    handles over queue `0`: request `1` is lost. -/
theorem default_ctx_and_ctx_zero_lose_request :
    ∃ s, Reachable (SharedStep fun w : Bool => roContextHandle (if w then sizeMax else 0))
        (SharedRing.init : SharedRing HandleId Bool Nat) s ∧
      s.reserved (roContextHandle sizeMax) = [0] ∧ s.reserved (roContextHandle 0) = [0] ∧
      (s.side (roContextHandle sizeMax)).writeIndex ≤ s.hostReadIndex ∧
      (s.side (roContextHandle 0)).writeIndex ≤ s.hostReadIndex ∧
      (∀ j, s.valid j = false) ∧ s.filled = [1, 2] ∧ s.inserted = [2] :=
  shared_queue_loses_request (fun w : Bool => roContextHandle (if w then sizeMax else 0)) true false
    (by decide) (by decide) 1 2

end TwoHandles

end RocShmem
