import Mathlib.Data.Nat.ModEq
import Mathlib.Tactic.Simps.Basic
import RocShmem.Lib.Transition

/-!
# The Reverse-Offload Request Queue

Every block of a kernel sends its requests to the host through a queue of
`QUEUE_SIZE` elements. The queue is a ring over absolute indices: index `k`
lives in slot `k % QUEUE_SIZE`. On the GPU, the lowest active lane of a wave
takes the handle's lock, waits until the queue has room for all active
lanes (`wait_until_space_available`, which compares `write_index` with a
cached copy of the host's `read_index` and refreshes that copy while there
is no room), reads `write_index`, adds the number of active lanes to it, and
releases the lock (`next_write_slot_o_m_m`). Each lane then writes its
element into the slot of its own index, in whatever order the lanes get
there, and sets the element's `notify_cpu.valid` (`build_queue_element`).
On the host, `Queue::process` takes the element at `read_index` only when it
is valid, hands it to `MPITransport::insertRequest`, clears its `valid` and
increments `read_index`; `ro_net_poll` calls it over and over.

The model (`RingSystem`) has the queue's memory, each wave's place in this
protocol, and a history that no step reads: the indices handed out, in order,
the element each lane wrote at its index, and the elements the host handed
on, in order. A step is one atomic action of one wave or of the host. Memory
is sequentially consistent: the fences of the source order each lane's
element before its `valid`, and the model writes the two in one step.
Indices are numbers; the source's are 64-bit and wrap only after `2 ^ 64`
requests. In every reachable state the cached `read_index` is at most the
host's, which is at most `write_index`, which is at most the cached one plus
`QUEUE_SIZE`, so the 64-bit subtraction in `enough_space` never wraps
either.

The invariant (`QueueInv`) has two halves. The lock half: the lock is taken
exactly when one wave holds it, and the wave holding it after reading
`write_index` still sees that value and has room. The ring half: the
indices between the host's `read_index` and `write_index` are each either
still to be filled by exactly one lane, with an invalid slot, or filled, with
a valid slot that holds what the lane wrote; every valid slot is the slot of
such an index; and what the host handed on is what was written at the
indices below its `read_index`, in order. The window is at most one
revolution long, so its indices have distinct slots (`eq_of_mod_queueSize_eq`).

## Main definitions

* `BlockHandle`: The queue's memory and its operations on both sides.
* `WavePc`: Where a wave is in sending a request.
* `RingSystem`, `RingStep`: The queue with its waves and the host, and their
  steps.
* `QueueInv`: The lock and ring invariant.

## Theorems

* `eq_of_mod_queueSize_eq`: Indices less than a revolution apart that share
  a slot are equal.
* `QueueInv.step`: Every step keeps the invariant.
* `queueInv_reachable`: The invariant holds in every reachable state.
* `ro_queue_mpsc_ring`: No index is handed out twice, a lane writes only a
  free slot inside the host's window, and the host hands the requests on in
  index order, each once, with what their lanes wrote.
-/

namespace RocShmem

open Transition

/-- `QUEUE_SIZE`: the number of elements of a block's queue. -/
def queueSize : Nat := 512

theorem queueSize_pos : 0 < queueSize := by decide

/-- Two indices less than one revolution apart that share a slot are the
    same index. -/
theorem eq_of_mod_queueSize_eq {lo a b : Nat} (ha : lo ≤ a) (ha' : a < lo + queueSize)
    (hb : lo ≤ b) (hb' : b < lo + queueSize) (h : a % queueSize = b % queueSize) : a = b :=
  Nat.ModEq.eq_of_abs_lt h (abs_lt.mpr ⟨by omega, by omega⟩)

/-- A block's queue as the GPU and the host see it: the elements and their
    `notify_cpu.valid` flags, slot by slot; the host's `read_index`, which
    the handle's `host_read_index` points to; and the handle's cached
    `read_index`, its `write_index` and its `lock`. The handle's
    `queue_size` is `Queue::size()`, which is `QUEUE_SIZE`. -/
structure BlockHandle (α : Type) where
  queue : Nat → α
  valid : Nat → Bool
  hostReadIndex : Nat
  readIndex : Nat
  writeIndex : Nat
  lock : Bool

namespace BlockHandle

variable {α : Type}

/-- `enough_space`. -/
def enoughSpace (h : BlockHandle α) (required : Nat) : Bool :=
  decide (queueSize - (h.writeIndex - h.readIndex) ≥ required)

/-- `acquire_lock`: the `atomicCAS` that finds the lock free. -/
@[simps]
def acquireLock (h : BlockHandle α) : BlockHandle α := { h with lock := true }

/-- The body of `wait_until_space_available`'s loop: the cached
    `read_index` refreshed from the host's. -/
@[simps]
def refreshReadIndex (h : BlockHandle α) : BlockHandle α :=
  { h with readIndex := h.hostReadIndex }

/-- `write_index += num_active_lanes`, then `release_lock`. -/
@[simps]
def advanceWriteIndex (h : BlockHandle α) (numActiveLanes : Nat) : BlockHandle α :=
  { h with writeIndex := h.writeIndex + numActiveLanes, lock := false }

/-- `build_queue_element` of one lane at `writeSlot`: the element, then its
    `notify_cpu.valid`. -/
@[simps]
def buildQueueElement (h : BlockHandle α) (writeSlot : Nat) (element : α) : BlockHandle α :=
  { h with
    queue := Function.update h.queue writeSlot element
    valid := Function.update h.valid writeSlot true }

/-- `Queue::get_read_index`. -/
def getReadIndex (h : BlockHandle α) : Nat := h.hostReadIndex % queueSize

/-- `Queue::increment_read_index`. -/
@[simps]
def incrementReadIndex (h : BlockHandle α) : BlockHandle α :=
  { h with hostReadIndex := h.hostReadIndex + 1 }

/-- `Queue::process`: the element handed to `insertRequest` when the next
    one is valid, and the queue after its `valid` is cleared and
    `read_index` incremented. -/
def process (h : BlockHandle α) : Option α × BlockHandle α :=
  if h.valid h.getReadIndex then
    (some (h.queue h.getReadIndex),
      incrementReadIndex { h with valid := Function.update h.valid h.getReadIndex false })
  else (none, h)

theorem process_of_valid {h : BlockHandle α} (hv : h.valid h.getReadIndex = true) :
    h.process = (some (h.queue h.getReadIndex),
      incrementReadIndex { h with valid := Function.update h.valid h.getReadIndex false }) :=
  if_pos hv

theorem process_of_not_valid {h : BlockHandle α} (hv : h.valid h.getReadIndex ≠ true) :
    h.process = (none, h) :=
  if_neg hv

/-- `process` leaves the GPU's side of the handle alone. -/
theorem process_frame (h : BlockHandle α) :
    h.process.2.lock = h.lock ∧ h.process.2.readIndex = h.readIndex ∧
      h.process.2.writeIndex = h.writeIndex := by
  unfold process
  split <;> exact ⟨rfl, rfl, rfl⟩

end BlockHandle

/-- Where a wave is in sending a request: idle; holding the lock and waiting
    for room for its `lanes` active lanes; holding it having read
    `write_index` into `writeSlot`; or with its lanes filling the indices
    `pending` they have not filled yet. -/
inductive WavePc where
  | idle
  | waiting (lanes : Nat)
  | reserving (writeSlot lanes : Nat)
  | filling (pending : List Nat)
deriving DecidableEq, Repr

namespace WavePc

/-- The indices the wave's lanes still have to fill. -/
@[simp]
def pending : WavePc → List Nat
  | .filling pending => pending
  | _ => []

/-- Whether the wave holds the handle's lock. -/
@[simp]
def holdsLock : WavePc → Bool
  | .waiting _ | .reserving _ _ => true
  | _ => false

/-- The wave after one of its lanes has filled its index: idle once no lane
    is left. -/
def ofPending : List Nat → WavePc
  | [] => .idle
  | pending => .filling pending

@[simp] theorem pending_ofPending (l : List Nat) : (ofPending l).pending = l := by
  cases l <;> rfl

@[simp] theorem holdsLock_ofPending (l : List Nat) : (ofPending l).holdsLock = false := by
  cases l <;> rfl

theorem ofPending_ne_reserving (l : List Nat) (writeSlot lanes : Nat) :
    ofPending l ≠ .reserving writeSlot lanes := by
  cases l <;> nofun

end WavePc

/-- The queue with its waves, and the history: the indices handed out, in
    order; what the lane of each index wrote; what the host handed to
    `insertRequest`, in order. -/
structure RingSystem (ω α : Type) where
  handle : BlockHandle α
  pc : ω → WavePc
  reserved : List Nat
  written : Nat → Option α
  inserted : List α

namespace RingSystem

variable {ω α : Type}

/-- An empty queue: every index `0`, no slot valid, every wave idle. -/
def init [Inhabited α] : RingSystem ω α :=
  ⟨⟨fun _ => default, fun _ => false, 0, 0, 0, false⟩, fun _ => .idle, [], fun _ => none, []⟩

/-- The host runs `Queue::process` once. -/
@[simps]
def process (s : RingSystem ω α) : RingSystem ω α :=
  { s with handle := s.handle.process.2, inserted := s.inserted ++ s.handle.process.1.toList }

theorem process_of_valid {s : RingSystem ω α}
    (hv : s.handle.valid (s.handle.hostReadIndex % queueSize) = true) :
    s.process = { s with
      handle := BlockHandle.incrementReadIndex { s.handle with
        valid := Function.update s.handle.valid (s.handle.hostReadIndex % queueSize) false }
      inserted := s.inserted ++ [s.handle.queue (s.handle.hostReadIndex % queueSize)] } := by
  rw [process, BlockHandle.process_of_valid hv]
  rfl

theorem process_of_not_valid {s : RingSystem ω α}
    (hv : s.handle.valid (s.handle.hostReadIndex % queueSize) ≠ true) : s.process = s := by
  rw [process, BlockHandle.process_of_not_valid hv]
  simp

variable [DecidableEq ω]

/-- The lowest active lane of wave `w`, with `lanes` active lanes, takes the
    lock. -/
@[simps]
def acquire (s : RingSystem ω α) (w : ω) (lanes : Nat) : RingSystem ω α :=
  { s with handle := s.handle.acquireLock, pc := Function.update s.pc w (.waiting lanes) }

/-- The lock holder refreshes the cached `read_index`. -/
@[simps]
def refresh (s : RingSystem ω α) : RingSystem ω α :=
  { s with handle := s.handle.refreshReadIndex }

/-- The lock holder, finding room, reads `write_index`. -/
@[simps]
def readWriteIndex (s : RingSystem ω α) (w : ω) (lanes : Nat) : RingSystem ω α :=
  { s with pc := Function.update s.pc w (.reserving s.handle.writeIndex lanes) }

/-- The lock holder advances `write_index` past its lanes and releases the
    lock; its lanes are to fill the indices from `writeSlot` on. -/
@[simps]
def advance (s : RingSystem ω α) (w : ω) (writeSlot lanes : Nat) : RingSystem ω α :=
  { s with
    handle := s.handle.advanceWriteIndex lanes
    pc := Function.update s.pc w (.filling (List.range' writeSlot lanes))
    reserved := s.reserved ++ List.range' writeSlot lanes }

/-- The lane of wave `w` at index `k` writes `element` into its slot. -/
@[simps]
def fill (s : RingSystem ω α) (w : ω) (pending : List Nat) (k : Nat) (element : α) :
    RingSystem ω α :=
  { s with
    handle := s.handle.buildQueueElement (k % queueSize) element
    pc := Function.update s.pc w (WavePc.ofPending (pending.erase k))
    written := Function.update s.written k (some element) }

end RingSystem

variable {ω α : Type}

section Steps

variable [DecidableEq ω]

/-- One atomic action of a wave or of the host. -/
inductive RingStep : RingSystem ω α → RingSystem ω α → Prop where
  | acquire (s : RingSystem ω α) (w : ω) (lanes : Nat) (hw : s.pc w = .idle)
      (hlock : s.handle.lock = false) : RingStep s (s.acquire w lanes)
  | refresh (s : RingSystem ω α) (w : ω) (lanes : Nat) (hw : s.pc w = .waiting lanes) :
      RingStep s s.refresh
  | readWriteIndex (s : RingSystem ω α) (w : ω) (lanes : Nat) (hw : s.pc w = .waiting lanes)
      (hspace : s.handle.enoughSpace lanes = true) : RingStep s (s.readWriteIndex w lanes)
  | advance (s : RingSystem ω α) (w : ω) (writeSlot lanes : Nat)
      (hw : s.pc w = .reserving writeSlot lanes) : RingStep s (s.advance w writeSlot lanes)
  | fill (s : RingSystem ω α) (w : ω) (pending : List Nat) (k : Nat) (element : α)
      (hw : s.pc w = .filling pending) (hk : k ∈ pending) :
      RingStep s (s.fill w pending k element)
  | process (s : RingSystem ω α) : RingStep s s.process

/-- A wave whose pending indices an update leaves alone. -/
theorem pending_update {pc : ω → WavePc} {w : ω} {v : WavePc}
    (hv : v.pending = (pc w).pending) (x : ω) :
    (Function.update pc w v x).pending = (pc x).pending := by
  by_cases hx : x = w
  · subst hx
    rw [Function.update_self, hv]
  · rw [Function.update_of_ne hx]

/-- A wave whose hold on the lock an update leaves alone. -/
theorem holdsLock_update {pc : ω → WavePc} {w : ω} {v : WavePc}
    (hv : v.holdsLock = (pc w).holdsLock) (x : ω) :
    (Function.update pc w v x).holdsLock = (pc x).holdsLock := by
  by_cases hx : x = w
  · subst hx
    rw [Function.update_self, hv]
  · rw [Function.update_of_ne hx]

end Steps

/-! ## The invariant -/

/-- The lock discipline: the lock is taken exactly when one wave holds it,
    and a wave that has read `write_index` still sees it, with room for its
    lanes behind the cached `read_index`. -/
structure WaveLockInv (s : RingSystem ω α) : Prop where
  lock_iff : s.handle.lock = true ↔ ∃ w, (s.pc w).holdsLock = true
  lock_unique : ∀ w w', (s.pc w).holdsLock = true → (s.pc w').holdsLock = true → w = w'
  reserving_eq : ∀ w writeSlot lanes, s.pc w = .reserving writeSlot lanes →
    writeSlot = s.handle.writeIndex ∧ writeSlot + lanes ≤ s.handle.readIndex + queueSize

/-- The ring: the indices order as cached `read_index` ≤ host `read_index`
    ≤ `write_index` ≤ cached `read_index` + `QUEUE_SIZE`; the indices below
    `write_index` were handed out once each, in order; every index of the
    host's window is pending at exactly one wave, with an invalid slot and
    nothing written, or filled, with a valid slot holding what was written;
    only such slots are valid; and the host handed on what was written at
    the indices below its `read_index`, in order. -/
structure RingInv (s : RingSystem ω α) : Prop where
  read_le : s.handle.readIndex ≤ s.handle.hostReadIndex
  host_le : s.handle.hostReadIndex ≤ s.handle.writeIndex
  write_le : s.handle.writeIndex ≤ s.handle.readIndex + queueSize
  reserved_eq : s.reserved = List.range s.handle.writeIndex
  pending_nodup : ∀ w, (s.pc w).pending.Nodup
  pending_mem : ∀ w k, k ∈ (s.pc w).pending →
    s.handle.hostReadIndex ≤ k ∧ k < s.handle.writeIndex
  pending_unique : ∀ w w' k, k ∈ (s.pc w).pending → k ∈ (s.pc w').pending → w = w'
  pending_slot : ∀ w k, k ∈ (s.pc w).pending →
    s.handle.valid (k % queueSize) = false ∧ s.written k = none
  filled_slot : ∀ k, s.handle.hostReadIndex ≤ k → k < s.handle.writeIndex →
    (∀ w, k ∉ (s.pc w).pending) →
    s.handle.valid (k % queueSize) = true ∧ s.written k = some (s.handle.queue (k % queueSize))
  valid_mem : ∀ j, s.handle.valid j = true →
    ∃ k, s.handle.hostReadIndex ≤ k ∧ k < s.handle.writeIndex ∧ k % queueSize = j
  written_none : ∀ k, s.handle.writeIndex ≤ k → s.written k = none
  inserted_eq : s.inserted.map some = (List.range s.handle.hostReadIndex).map s.written

/-- The lock and ring invariant. -/
structure QueueInv (s : RingSystem ω α) : Prop extends WaveLockInv s, RingInv s

variable {s : RingSystem ω α}

namespace RingInv

/-- Two indices of the host's window that share a slot are equal. -/
theorem slot_inj (hs : RingInv s) {a b : Nat} (ha : s.handle.hostReadIndex ≤ a)
    (ha' : a < s.handle.writeIndex) (hb : s.handle.hostReadIndex ≤ b)
    (hb' : b < s.handle.writeIndex) (h : a % queueSize = b % queueSize) : a = b := by
  have hwin := hs.write_le
  have hread := hs.read_le
  exact eq_of_mod_queueSize_eq ha (by omega) hb (by omega) h

/-- Two different indices of the host's window have different slots. -/
theorem slot_ne (hs : RingInv s) {a b : Nat} (ha : s.handle.hostReadIndex ≤ a)
    (ha' : a < s.handle.writeIndex) (hb : s.handle.hostReadIndex ≤ b)
    (hb' : b < s.handle.writeIndex) (hne : a ≠ b) : a % queueSize ≠ b % queueSize :=
  fun h => hne (hs.slot_inj ha ha' hb hb' h)

/-- Everything the ring half reads is left alone, and the cached
    `read_index` only moves up to the host's. -/
theorem congr (hs : RingInv s) {s' : RingSystem ω α} (hq : s'.handle.queue = s.handle.queue)
    (hv : s'.handle.valid = s.handle.valid)
    (hhost : s'.handle.hostReadIndex = s.handle.hostReadIndex)
    (hwrite : s'.handle.writeIndex = s.handle.writeIndex)
    (hread : s.handle.readIndex ≤ s'.handle.readIndex)
    (hread' : s'.handle.readIndex ≤ s'.handle.hostReadIndex)
    (hpending : ∀ w, (s'.pc w).pending = (s.pc w).pending) (hreserved : s'.reserved = s.reserved)
    (hwritten : s'.written = s.written) (hinserted : s'.inserted = s.inserted) : RingInv s' := by
  have hwin := hs.write_le
  refine ⟨hread', ?_, ?_, ?_, ?_, ?_, ?_, ?_, ?_, ?_, ?_, ?_⟩
  · rw [hhost, hwrite]
    exact hs.host_le
  · rw [hwrite]
    omega
  · rw [hreserved, hwrite]
    exact hs.reserved_eq
  · intro w
    rw [hpending]
    exact hs.pending_nodup w
  · intro w k hk
    rw [hpending] at hk
    rw [hhost, hwrite]
    exact hs.pending_mem w k hk
  · intro w w' k hk hk'
    rw [hpending] at hk hk'
    exact hs.pending_unique w w' k hk hk'
  · intro w k hk
    rw [hpending] at hk
    rw [hv, hwritten]
    exact hs.pending_slot w k hk
  · intro k hlo hhi hfree
    rw [hhost] at hlo
    rw [hwrite] at hhi
    rw [hv, hwritten, hq]
    exact hs.filled_slot k hlo hhi fun w => by rw [← hpending]; exact hfree w
  · intro j hj
    rw [hv] at hj
    rw [hhost, hwrite]
    exact hs.valid_mem j hj
  · intro k hk
    rw [hwrite] at hk
    rw [hwritten]
    exact hs.written_none k hk
  · rw [hinserted, hhost, hwritten]
    exact hs.inserted_eq

/-- The host takes the valid element at its `read_index`: it is the one
    written at that index. -/
theorem process (hs : RingInv s) : RingInv s.process := by
  by_cases hv : s.handle.valid (s.handle.hostReadIndex % queueSize) = true
  · -- The valid slot at `read_index` belongs to an index of the window,
    -- which can only be `read_index` itself; no lane has it pending.
    have hwin := hs.write_le
    have hread := hs.read_le
    have hQ := queueSize_pos
    obtain ⟨k, hlo, hhi, hk⟩ := hs.valid_mem _ hv
    have hkeq : k = s.handle.hostReadIndex :=
      eq_of_mod_queueSize_eq hlo (by omega) le_rfl (by omega) hk
    rw [hkeq] at hhi
    have hfree : ∀ x, s.handle.hostReadIndex ∉ (s.pc x).pending := fun x hm => by
      have := (hs.pending_slot x _ hm).1
      rw [hv] at this
      exact Bool.noConfusion this
    have hfilled := hs.filled_slot _ le_rfl hhi hfree
    -- Every later index of the window has another slot.
    have hslot : ∀ k', s.handle.hostReadIndex < k' → k' < s.handle.writeIndex →
        k' % queueSize ≠ s.handle.hostReadIndex % queueSize := fun k' h₁ h₂ =>
      hs.slot_ne (by omega) h₂ le_rfl hhi (by omega)
    rw [RingSystem.process_of_valid hv]
    refine ⟨show s.handle.readIndex ≤ s.handle.hostReadIndex + 1 by omega, hhi, hs.write_le,
      hs.reserved_eq, hs.pending_nodup, ?_, hs.pending_unique, ?_, ?_, ?_, hs.written_none, ?_⟩
    · intro x k' hk'
      have hne : k' ≠ s.handle.hostReadIndex := fun h => hfree x (h ▸ hk')
      have := hs.pending_mem x k' hk'
      exact ⟨show s.handle.hostReadIndex + 1 ≤ k' by omega, this.2⟩
    · intro x k' hk'
      have hne : k' ≠ s.handle.hostReadIndex := fun h => hfree x (h ▸ hk')
      have := hs.pending_mem x k' hk'
      show Function.update s.handle.valid (s.handle.hostReadIndex % queueSize) false
        (k' % queueSize) = false ∧ s.written k' = none
      rw [Function.update_of_ne (hslot k' (by omega) this.2)]
      exact hs.pending_slot x k' hk'
    · intro k' hlo' hhi' hfree'
      change s.handle.hostReadIndex + 1 ≤ k' at hlo'
      show Function.update s.handle.valid (s.handle.hostReadIndex % queueSize) false
        (k' % queueSize) = true ∧ s.written k' = some (s.handle.queue (k' % queueSize))
      rw [Function.update_of_ne (hslot k' (by omega) hhi')]
      exact hs.filled_slot k' (by omega) hhi' hfree'
    · intro j hj
      change Function.update s.handle.valid (s.handle.hostReadIndex % queueSize) false j = true
        at hj
      have hjk : j ≠ s.handle.hostReadIndex % queueSize := fun h => by
        rw [h, Function.update_self] at hj
        exact Bool.noConfusion hj
      rw [Function.update_of_ne hjk] at hj
      obtain ⟨k', hlo', hhi', hk'⟩ := hs.valid_mem j hj
      have hne : k' ≠ s.handle.hostReadIndex := fun h => hjk (h ▸ hk').symm
      exact ⟨k', show s.handle.hostReadIndex + 1 ≤ k' by omega, hhi', hk'⟩
    · -- One more element handed on: the one written at `read_index`.
      show (s.inserted ++ [s.handle.queue (s.handle.hostReadIndex % queueSize)]).map some =
        (List.range (s.handle.hostReadIndex + 1)).map s.written
      rw [List.map_append, hs.inserted_eq, List.range_succ, List.map_append]
      simp [hfilled.2]
  · rw [RingSystem.process_of_not_valid hv]
    exact hs

section Fill

variable [DecidableEq ω]

/-- A lane fills its index: the slot is free, and no other index of the
    window shares it. -/
theorem fill (hs : RingInv s) {w : ω} {pending : List Nat} {k : Nat} (element : α)
    (hw : s.pc w = .filling pending) (hk : k ∈ pending) :
    RingInv (s.fill w pending k element) := by
  have hkw : k ∈ (s.pc w).pending := by
    rw [hw]
    exact hk
  obtain ⟨hlo, hhi⟩ := hs.pending_mem w k hkw
  have hnodup : pending.Nodup := by
    have := hs.pending_nodup w
    rwa [hw] at this
  -- After the fill, `k` is pending nowhere, and every other index as before.
  have hpend : ∀ x k', k' ∈ ((s.fill w pending k element).pc x).pending ↔
      k' ∈ (s.pc x).pending ∧ k' ≠ k := by
    intro x k'
    by_cases hx : x = w
    · subst hx
      rw [RingSystem.fill_pc, Function.update_self, WavePc.pending_ofPending,
        hnodup.mem_erase_iff, hw]
      exact and_comm
    · rw [RingSystem.fill_pc, Function.update_of_ne hx]
      refine ⟨fun h => ⟨h, ?_⟩, fun h => h.1⟩
      rintro rfl
      exact hx (hs.pending_unique x w k' h hkw)
  -- Every other index of the window has another slot.
  have hslot : ∀ k', s.handle.hostReadIndex ≤ k' → k' < s.handle.writeIndex → k' ≠ k →
      k' % queueSize ≠ k % queueSize :=
    fun k' h₁ h₂ hne => hs.slot_ne h₁ h₂ hlo hhi hne
  refine ⟨hs.read_le, hs.host_le, hs.write_le, hs.reserved_eq, ?_, ?_, ?_, ?_, ?_, ?_, ?_, ?_⟩
  · intro x
    by_cases hx : x = w
    · subst hx
      rw [RingSystem.fill_pc, Function.update_self, WavePc.pending_ofPending]
      exact hnodup.erase k
    · rw [RingSystem.fill_pc, Function.update_of_ne hx]
      exact hs.pending_nodup x
  · intro x k' hk'
    exact hs.pending_mem x k' ((hpend x k').mp hk').1
  · intro x x' k' hk₁ hk₂
    exact hs.pending_unique x x' k' ((hpend x k').mp hk₁).1 ((hpend x' k').mp hk₂).1
  · intro x k' hk'
    obtain ⟨hmem, hne⟩ := (hpend x k').mp hk'
    obtain ⟨hlo', hhi'⟩ := hs.pending_mem x k' hmem
    simp only [RingSystem.fill_handle, BlockHandle.buildQueueElement_valid, RingSystem.fill_written,
      Function.update_of_ne (hslot k' hlo' hhi' hne), Function.update_of_ne hne]
    exact hs.pending_slot x k' hmem
  · intro k' hlo' hhi' hfree
    by_cases hne : k' = k
    · subst hne
      simp
    · have hfree' : ∀ x, k' ∉ (s.pc x).pending := fun x hm => hfree x ((hpend x k').mpr ⟨hm, hne⟩)
      simp only [RingSystem.fill_handle, BlockHandle.buildQueueElement_valid,
        BlockHandle.buildQueueElement_queue, RingSystem.fill_written,
        Function.update_of_ne (hslot k' hlo' hhi' hne), Function.update_of_ne hne]
      exact hs.filled_slot k' hlo' hhi' hfree'
  · intro j hj
    by_cases hjk : j = k % queueSize
    · exact ⟨k, hlo, hhi, hjk.symm⟩
    · simp only [RingSystem.fill_handle, BlockHandle.buildQueueElement_valid,
        Function.update_of_ne hjk] at hj
      exact hs.valid_mem j hj
  · intro k' hk'
    have hne : k' ≠ k := by
      simp only [RingSystem.fill_handle, BlockHandle.buildQueueElement_writeIndex] at hk'
      omega
    rw [RingSystem.fill_written, Function.update_of_ne hne]
    exact hs.written_none k' hk'
  · -- The host has not reached `k`, so what it handed on is unchanged.
    rw [RingSystem.fill_inserted, hs.inserted_eq]
    refine List.map_congr_left fun i hi => ?_
    have hne : i ≠ k := by
      have := List.mem_range.mp hi
      omega
    rw [RingSystem.fill_written, Function.update_of_ne hne]

/-- The lock holder hands out the indices from `write_index` on: they were
    free, and their slots are those of no index of the window. -/
theorem advance (hs : RingInv s) (hl : WaveLockInv s) {w : ω} {writeSlot lanes : Nat}
    (hw : s.pc w = .reserving writeSlot lanes) : RingInv (s.advance w writeSlot lanes) := by
  obtain ⟨rfl, hroom⟩ := hl.reserving_eq w _ _ hw
  have hread := hs.read_le
  have hhost := hs.host_le
  -- The new indices are `w`'s, and every other wave keeps its own.
  have hpend : ∀ x k, k ∈ ((s.advance w s.handle.writeIndex lanes).pc x).pending ↔
      (x = w ∧ s.handle.writeIndex ≤ k ∧ k < s.handle.writeIndex + lanes) ∨
        (x ≠ w ∧ k ∈ (s.pc x).pending) := by
    intro x k
    by_cases hx : x = w
    · subst hx
      simp [List.mem_range'_1]
    · simp [hx]
  have hold : ∀ x k, k ∈ (s.pc x).pending → x ≠ w := by
    rintro x k hk rfl
    rw [hw] at hk
    exact List.not_mem_nil hk
  refine ⟨hread, show s.handle.hostReadIndex ≤ s.handle.writeIndex + lanes by omega, hroom,
    ?_, ?_, ?_, ?_, ?_, ?_, ?_, ?_, hs.inserted_eq⟩
  · rw [RingSystem.advance_reserved, hs.reserved_eq, RingSystem.advance_handle,
      BlockHandle.advanceWriteIndex_writeIndex, List.range_add, List.range'_eq_map_range]
  · intro x
    by_cases hx : x = w
    · subst hx
      rw [RingSystem.advance_pc, Function.update_self]
      exact List.nodup_range'
    · rw [RingSystem.advance_pc, Function.update_of_ne hx]
      exact hs.pending_nodup x
  · intro x k hk
    show s.handle.hostReadIndex ≤ k ∧ k < s.handle.writeIndex + lanes
    rcases (hpend x k).mp hk with ⟨-, hlo, hhi⟩ | ⟨-, hk⟩
    · omega
    · have := hs.pending_mem x k hk
      omega
  · intro x x' k hk hk'
    rcases (hpend x k).mp hk with ⟨hxw, hlo, -⟩ | ⟨hxw, hk⟩ <;>
      rcases (hpend x' k).mp hk' with ⟨hxw', hlo', -⟩ | ⟨hxw', hk'⟩
    · exact hxw.trans hxw'.symm
    · exact absurd (hs.pending_mem x' k hk').2 (by omega)
    · exact absurd (hs.pending_mem x k hk).2 (by omega)
    · exact hs.pending_unique x x' k hk hk'
  · intro x k hk
    rcases (hpend x k).mp hk with ⟨-, hlo, hhi⟩ | ⟨-, hk⟩
    · -- A valid slot is the slot of an index of the window, less than a
      -- revolution from `k` and below `write_index`: not `k` itself.
      refine ⟨?_, hs.written_none k hlo⟩
      show s.handle.valid (k % queueSize) = false
      cases hv : s.handle.valid (k % queueSize) with
      | false => rfl
      | true =>
          obtain ⟨k', hlo', hhi', hk'⟩ := hs.valid_mem _ hv
          have heq := eq_of_mod_queueSize_eq hlo' (by omega) (by omega) (by omega) hk'
          omega
    · exact hs.pending_slot x k hk
  · intro k hlo hhi hfree
    change s.handle.hostReadIndex ≤ k at hlo
    change k < s.handle.writeIndex + lanes at hhi
    have hlt : k < s.handle.writeIndex := by
      by_contra hge
      exact hfree w ((hpend w k).mpr (.inl ⟨rfl, by omega, hhi⟩))
    exact hs.filled_slot k hlo hlt fun x hk => hfree x ((hpend x k).mpr (.inr ⟨hold x k hk, hk⟩))
  · intro j hj
    obtain ⟨k, hlo, hhi, hk⟩ := hs.valid_mem j hj
    exact ⟨k, hlo, show k < s.handle.writeIndex + lanes by omega, hk⟩
  · intro k hk
    change s.handle.writeIndex + lanes ≤ k at hk
    exact hs.written_none k (by omega)

end Fill

end RingInv

namespace WaveLockInv

/-- The cached `read_index` moves up to the host's. -/
theorem refresh (hl : WaveLockInv s) (hread : s.handle.readIndex ≤ s.handle.hostReadIndex) :
    WaveLockInv s.refresh := by
  refine ⟨hl.lock_iff, hl.lock_unique, fun x writeSlot lanes hx => ?_⟩
  obtain ⟨heq, hroom⟩ := hl.reserving_eq x writeSlot lanes hx
  exact ⟨heq, show writeSlot + lanes ≤ s.handle.hostReadIndex + queueSize by omega⟩

/-- The host's `process` touches nothing of the lock. -/
theorem process (hl : WaveLockInv s) : WaveLockInv s.process := by
  obtain ⟨hlock, hread, hwrite⟩ := BlockHandle.process_frame s.handle
  refine ⟨?_, hl.lock_unique, ?_⟩
  · rw [RingSystem.process_handle, hlock]
    exact hl.lock_iff
  · intro x writeSlot lanes hx
    rw [RingSystem.process_handle, hread, hwrite]
    exact hl.reserving_eq x writeSlot lanes hx

variable [DecidableEq ω]

/-- A wave takes the free lock: it is the only holder. -/
theorem acquire (hl : WaveLockInv s) {w : ω} (lanes : Nat) (hlock : s.handle.lock = false) :
    WaveLockInv (s.acquire w lanes) := by
  have hnone : ∀ x, (s.pc x).holdsLock = false := fun x => by
    cases h : (s.pc x).holdsLock with
    | false => rfl
    | true => exact absurd (hl.lock_iff.mpr ⟨x, h⟩) (by rw [hlock]; exact Bool.false_ne_true)
  have hholds : ∀ x, ((s.acquire w lanes).pc x).holdsLock = true → x = w := by
    intro x hx
    by_cases hxw : x = w
    · exact hxw
    · rw [RingSystem.acquire_pc, Function.update_of_ne hxw, hnone x] at hx
      exact Bool.noConfusion hx
  refine ⟨⟨fun _ => ⟨w, by simp⟩, fun _ => rfl⟩,
    fun x x' hx hx' => (hholds x hx).trans (hholds x' hx').symm, fun x writeSlot lanes' hx => ?_⟩
  have hxw : x ≠ w := by
    rintro rfl
    simp at hx
  rw [RingSystem.acquire_pc, Function.update_of_ne hxw] at hx
  exact hl.reserving_eq x writeSlot lanes' hx

/-- The holder reads `write_index`, having found room. -/
theorem readWriteIndex (hl : WaveLockInv s)
    (hwrite : s.handle.writeIndex ≤ s.handle.readIndex + queueSize) {w : ω} {lanes : Nat}
    (hw : s.pc w = .waiting lanes) (hspace : s.handle.enoughSpace lanes = true) :
    WaveLockInv (s.readWriteIndex w lanes) := by
  have hholds : ∀ x, ((s.readWriteIndex w lanes).pc x).holdsLock = (s.pc x).holdsLock :=
    holdsLock_update (by rw [hw]; rfl)
  refine ⟨?_, ?_, fun x writeSlot lanes' hx => ?_⟩
  · simp only [hholds]
    exact hl.lock_iff
  · intro x x' hx hx'
    rw [hholds] at hx hx'
    exact hl.lock_unique x x' hx hx'
  · by_cases hxw : x = w
    · subst hxw
      rw [RingSystem.readWriteIndex_pc, Function.update_self] at hx
      cases hx
      simp only [BlockHandle.enoughSpace, decide_eq_true_eq] at hspace
      exact ⟨rfl, show s.handle.writeIndex + lanes ≤ s.handle.readIndex + queueSize by omega⟩
    · rw [RingSystem.readWriteIndex_pc, Function.update_of_ne hxw] at hx
      exact hl.reserving_eq x writeSlot lanes' hx

/-- The holder advances `write_index` and releases the lock: nobody holds
    it. -/
theorem advance (hl : WaveLockInv s) {w : ω} {writeSlot lanes : Nat}
    (hw : s.pc w = .reserving writeSlot lanes) : WaveLockInv (s.advance w writeSlot lanes) := by
  have hnone : ∀ x, ((s.advance w writeSlot lanes).pc x).holdsLock = false := by
    intro x
    by_cases hxw : x = w
    · subst hxw
      simp
    · rw [RingSystem.advance_pc, Function.update_of_ne hxw]
      cases h : (s.pc x).holdsLock with
      | false => rfl
      | true => exact absurd (hl.lock_unique x w h (by rw [hw]; rfl)) hxw
  refine ⟨⟨nofun, fun ⟨x, hx⟩ => by rw [hnone x] at hx; exact Bool.noConfusion hx⟩,
    fun x _ hx => by rw [hnone x] at hx; exact Bool.noConfusion hx,
    fun x writeSlot' lanes' hx => ?_⟩
  have := hnone x
  rw [hx] at this
  exact Bool.noConfusion this

/-- A lane fills its index; no wave's hold on the lock changes. -/
theorem fill (hl : WaveLockInv s) {w : ω} {pending : List Nat} {k : Nat} (element : α)
    (hw : s.pc w = .filling pending) : WaveLockInv (s.fill w pending k element) := by
  have hholds : ∀ x, ((s.fill w pending k element).pc x).holdsLock = (s.pc x).holdsLock :=
    holdsLock_update (by rw [hw, WavePc.holdsLock_ofPending]; rfl)
  refine ⟨?_, ?_, fun x writeSlot lanes hx => ?_⟩
  · simp only [hholds]
    exact hl.lock_iff
  · intro x x' hx hx'
    rw [hholds] at hx hx'
    exact hl.lock_unique x x' hx hx'
  · have hxw : x ≠ w := by
      rintro rfl
      rw [RingSystem.fill_pc, Function.update_self] at hx
      exact WavePc.ofPending_ne_reserving _ _ _ hx
    rw [RingSystem.fill_pc, Function.update_of_ne hxw] at hx
    exact hl.reserving_eq x writeSlot lanes hx

end WaveLockInv

namespace QueueInv

theorem init [Inhabited α] : QueueInv (RingSystem.init : RingSystem ω α) where
  lock_iff := by simp [RingSystem.init]
  lock_unique := by simp [RingSystem.init]
  reserving_eq := by simp [RingSystem.init]
  read_le := le_rfl
  host_le := le_rfl
  write_le := Nat.zero_le _
  reserved_eq := rfl
  pending_nodup := fun _ => List.nodup_nil
  pending_mem := by simp [RingSystem.init]
  pending_unique := by simp [RingSystem.init]
  pending_slot := by simp [RingSystem.init]
  filled_slot := fun _ _ h => absurd h (Nat.not_lt_zero _)
  valid_mem := by simp [RingSystem.init]
  written_none := fun _ _ => rfl
  inserted_eq := rfl

variable [DecidableEq ω]

/-- Every step keeps the invariant. -/
theorem step (hs : QueueInv s) {s' : RingSystem ω α} (h : RingStep s s') : QueueInv s' := by
  cases h with
  | acquire w lanes hw hlock =>
      exact ⟨hs.toWaveLockInv.acquire lanes hlock, hs.toRingInv.congr rfl rfl rfl rfl le_rfl
        hs.read_le (pending_update (by rw [hw]; rfl)) rfl rfl rfl⟩
  | refresh w lanes hw =>
      exact ⟨hs.toWaveLockInv.refresh hs.read_le, hs.toRingInv.congr rfl rfl rfl rfl hs.read_le
        le_rfl (fun _ => rfl) rfl rfl rfl⟩
  | readWriteIndex w lanes hw hspace =>
      exact ⟨hs.toWaveLockInv.readWriteIndex hs.write_le hw hspace,
        hs.toRingInv.congr rfl rfl rfl rfl le_rfl hs.read_le (pending_update (by rw [hw]; rfl))
          rfl rfl rfl⟩
  | advance w writeSlot lanes hw =>
      exact ⟨hs.toWaveLockInv.advance hw, hs.toRingInv.advance hs.toWaveLockInv hw⟩
  | fill w pending k element hw hk =>
      exact ⟨hs.toWaveLockInv.fill element hw, hs.toRingInv.fill element hw hk⟩
  | process =>
      exact ⟨hs.toWaveLockInv.process, hs.toRingInv.process⟩

end QueueInv

variable [DecidableEq ω]

theorem queueInv_reachable [Inhabited α] {s : RingSystem ω α}
    (h : Reachable RingStep RingSystem.init s) : QueueInv s :=
  Reachable.invariant QueueInv.init (fun _ _ _ hs hstep => hs.step hstep) h

/-- The reverse-offload queue is a correct multi-producer single-consumer
    ring, in every reachable state: the indices handed out are those below
    `write_index`, each once, and a pending index belongs to one wave; the
    lock has one holder at most; the cached `read_index`, the host's and
    `write_index` lie within one revolution; a lane's index lies in the
    host's window, less than `QUEUE_SIZE` past its `read_index`, and its slot
    holds no unconsumed request; a filled index not yet consumed still holds
    what its lane wrote; and the host handed on, in order, exactly what was
    written at the indices below its `read_index`. -/
theorem ro_queue_mpsc_ring [Inhabited α] (s : RingSystem ω α)
    (h : Reachable RingStep RingSystem.init s) :
    s.reserved = List.range s.handle.writeIndex ∧ s.reserved.Nodup ∧
    (∀ w w' k, k ∈ (s.pc w).pending → k ∈ (s.pc w').pending → w = w') ∧
    (∀ w w', (s.pc w).holdsLock = true → (s.pc w').holdsLock = true → w = w') ∧
    s.handle.readIndex ≤ s.handle.hostReadIndex ∧
    s.handle.hostReadIndex ≤ s.handle.writeIndex ∧
    s.handle.writeIndex ≤ s.handle.readIndex + queueSize ∧
    (∀ w k, k ∈ (s.pc w).pending → s.handle.hostReadIndex ≤ k ∧
      k - s.handle.hostReadIndex < queueSize ∧ s.handle.valid (k % queueSize) = false) ∧
    (∀ k, s.handle.hostReadIndex ≤ k → k < s.handle.writeIndex →
      (∀ w, k ∉ (s.pc w).pending) →
      s.handle.valid (k % queueSize) = true ∧ s.written k = some (s.handle.queue (k % queueSize))) ∧
    s.inserted.map some = (List.range s.handle.hostReadIndex).map s.written := by
  have hs := queueInv_reachable h
  refine ⟨hs.reserved_eq, by rw [hs.reserved_eq]; exact List.nodup_range, hs.pending_unique,
    hs.lock_unique, hs.read_le, hs.host_le, hs.write_le, fun w k hk => ?_, hs.filled_slot,
    hs.inserted_eq⟩
  have hmem := hs.pending_mem w k hk
  have hwin := hs.write_le
  have hread := hs.read_le
  exact ⟨hmem.1, by omega, (hs.pending_slot w k hk).1⟩

end RocShmem
