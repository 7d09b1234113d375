import Mathlib

/-!
# The Bump Allocator of the Slab Heap

`DevMonoLinear` (`memory/dev_mono_linear.hpp`) is the allocation strategy of
`SlabHeap`. It keeps one pointer, `current_ptr_`, which starts at the heap's
base; `alloc(ptr, n)` hands out `current_ptr_` and moves it up by `n`, and
`free` ignores its argument. Nothing is ever taken back, so the state of the
strategy is the one pointer, and the facts worth having are about whole runs
of requests: where the granted ranges lie, that they never overlap, and how
far the pointer has moved.

Pointers are unbounded integers here, so no request can wrap around the
address space. The acceptance test is translated as the source writes it,
`current_ptr_ + request_size < heap_end`. It is strict, so the pointer never
reaches the end of a heap of positive size, and a request that exactly fills
the remaining space is refused: the last byte of the heap is never handed
out (`dev_mono_linear_strict_fit`).

The pointer's bounds, `heap base ≤ current_ptr_ ≤ heap end`, are fields of
the state, so every later fact about a granted range only has to place the
range between two values of the pointer. One step lemma per outcome of
`alloc` says what the call returns and where the pointer goes; the run lemmas
are inductions over the request list that cite them.

## Main definitions

* `DevMonoLinear`: The heap's base and size and the bump pointer.
* `DevMonoLinear.alloc`: One request.
* `DevMonoLinear.allocRun`: A sequence of requests, with each call's result.
* `SlabHeap`, `SlabHeap.getUsed`, `SlabHeap.getAvail`: The heap's view of the
  strategy.

## Theorems

* `DevMonoLinear.alloc_eq_some_iff`, `DevMonoLinear.alloc_currentPtr`: What
  one request returns and where it leaves the pointer.
* `DevMonoLinear.allocRun_currentPtr`: The pointer moves by the sum of the
  granted sizes.
* `DevMonoLinear.allocRun_grant_between`: Each granted range lies between
  the pointer before and after the run.
* `DevMonoLinear.allocRun_pairwise`: Later grants lie above earlier ones.
* `SlabHeap.getAvail_nonneg`: The free space reported is never negative.
* `dev_mono_linear_strict_fit`: Over every run from construction, grants are
  inside the heap, apart and increasing, the used size is their sum, and a
  request succeeds exactly when it ends strictly below the heap's end.
-/

namespace RocShmem

/-- The strategy's state: `heap_mem_->get_ptr()`, `heap_mem_->get_size()` and
    `current_ptr_`, which stays inside the heap. -/
structure DevMonoLinear where
  heapPtr : Int
  heapSize : Nat
  currentPtr : Int
  heapPtr_le_currentPtr : heapPtr ≤ currentPtr
  currentPtr_le_heapEnd : currentPtr ≤ heapPtr + heapSize

namespace DevMonoLinear

/-- The constructor `DevMonoLinear(heap_mem)`: `current_ptr_` starts at
    `heap_mem_->get_ptr()`. -/
def ofHeap (heapPtr : Int) (heapSize : Nat) : DevMonoLinear where
  heapPtr := heapPtr
  heapSize := heapSize
  currentPtr := heapPtr
  heapPtr_le_currentPtr := le_refl heapPtr
  currentPtr_le_heapEnd := by omega

@[simp]
theorem ofHeap_heapPtr (heapPtr : Int) (heapSize : Nat) :
    (ofHeap heapPtr heapSize).heapPtr = heapPtr := rfl

@[simp]
theorem ofHeap_heapSize (heapPtr : Int) (heapSize : Nat) :
    (ofHeap heapPtr heapSize).heapSize = heapSize := rfl

@[simp]
theorem ofHeap_currentPtr (heapPtr : Int) (heapSize : Nat) :
    (ofHeap heapPtr heapSize).currentPtr = heapPtr := rfl

/-- `current()`. -/
def current (s : DevMonoLinear) : Int := s.currentPtr

/-- `alloc(ptr, request_size)`: `*ptr` is null for a zero request and for one
    that does not pass `current_ptr_ + request_size < heap_end`; otherwise it
    is the old `current_ptr_`, which moves up by the request. -/
def alloc (s : DevMonoLinear) (requestSize : Nat) : Option Int × DevMonoLinear :=
  if requestSize = 0 then (none, s)
  else
    let heapEnd := s.heapPtr + s.heapSize
    if h : s.currentPtr + requestSize < heapEnd then
      (some s.currentPtr,
        { s with
          currentPtr := s.currentPtr + requestSize
          heapPtr_le_currentPtr := by have := s.heapPtr_le_currentPtr; omega
          currentPtr_le_heapEnd := by omega })
    else (none, s)

/-- A client's sequence of `alloc` calls, with the pointer each one returned. -/
def allocRun : DevMonoLinear → List Nat → List (Option Int) × DevMonoLinear
  | s, [] => ([], s)
  | s, n :: ns =>
    let r := s.alloc n
    let rest := allocRun r.2 ns
    (r.1 :: rest.1, rest.2)

/-- The sizes of the requests of a run that were granted. -/
def grantedSizes (calls : List (Nat × Option Int)) : List Nat :=
  (calls.filter fun c => c.2.isSome).map Prod.fst

@[simp]
theorem grantedSizes_nil : grantedSizes [] = [] := rfl

theorem grantedSizes_cons (n : Nat) (p : Option Int) (calls : List (Nat × Option Int)) :
    grantedSizes ((n, p) :: calls) =
      if p.isSome then n :: grantedSizes calls else grantedSizes calls := by
  cases p <;> simp [grantedSizes]

section Alloc

variable (s : DevMonoLinear) (n : Nat)

/-- A positive request that ends strictly below the heap's end gets the old
    pointer, which moves up by the request. -/
theorem alloc_of_fits (hn : 0 < n) (hfit : s.currentPtr + n < s.heapPtr + s.heapSize) :
    (s.alloc n).1 = some s.currentPtr ∧ (s.alloc n).2.currentPtr = s.currentPtr + n ∧
      (s.alloc n).2.heapPtr = s.heapPtr ∧ (s.alloc n).2.heapSize = s.heapSize := by
  simp [alloc, hfit, Nat.pos_iff_ne_zero.1 hn]

/-- Every other request gets null and leaves the state as it was. -/
theorem alloc_of_not_fits (h : ¬(0 < n ∧ s.currentPtr + n < s.heapPtr + s.heapSize)) :
    s.alloc n = (none, s) := by
  by_cases hn : n = 0
  · simp [alloc, hn]
  · have hfit : ¬s.currentPtr + n < s.heapPtr + s.heapSize := fun hfit => h ⟨by omega, hfit⟩
    simp [alloc, hn, hfit]

@[simp]
theorem alloc_heapPtr : (s.alloc n).2.heapPtr = s.heapPtr := by
  by_cases h : 0 < n ∧ s.currentPtr + n < s.heapPtr + s.heapSize
  · exact (alloc_of_fits s n h.1 h.2).2.2.1
  · rw [alloc_of_not_fits s n h]

@[simp]
theorem alloc_heapSize : (s.alloc n).2.heapSize = s.heapSize := by
  by_cases h : 0 < n ∧ s.currentPtr + n < s.heapPtr + s.heapSize
  · exact (alloc_of_fits s n h.1 h.2).2.2.2
  · rw [alloc_of_not_fits s n h]

/-- A request is granted exactly when it is positive and ends strictly below
    the heap's end, and then it gets the old pointer. -/
theorem alloc_eq_some_iff (p : Int) :
    (s.alloc n).1 = some p ↔
      0 < n ∧ s.currentPtr + n < s.heapPtr + s.heapSize ∧ p = s.currentPtr := by
  by_cases h : 0 < n ∧ s.currentPtr + n < s.heapPtr + s.heapSize
  · rw [(alloc_of_fits s n h.1 h.2).1, Option.some.injEq]
    exact ⟨fun hp => ⟨h.1, h.2, hp.symm⟩, fun hp => hp.2.2.symm⟩
  · rw [alloc_of_not_fits s n h]
    simp only [reduceCtorEq, false_iff]
    exact fun hp => h ⟨hp.1, hp.2.1⟩

/-- The pointer moves by the request when it is granted and stays otherwise. -/
theorem alloc_currentPtr :
    (s.alloc n).2.currentPtr = s.currentPtr + if (s.alloc n).1.isSome then n else 0 := by
  by_cases h : 0 < n ∧ s.currentPtr + n < s.heapPtr + s.heapSize
  · obtain ⟨hp, hcur, -⟩ := alloc_of_fits s n h.1 h.2
    simp [hp, hcur]
  · rw [alloc_of_not_fits s n h]
    simp

theorem alloc_isSome_iff (hn : 0 < n) :
    (s.alloc n).1.isSome ↔ s.currentPtr + n < s.heapPtr + s.heapSize := by
  rw [Option.isSome_iff_exists]
  simp only [alloc_eq_some_iff]
  constructor
  · rintro ⟨_, _, hfit, _⟩
    exact hfit
  · intro hfit
    exact ⟨_, hn, hfit, rfl⟩

end Alloc

section Run

@[simp]
theorem allocRun_nil (s : DevMonoLinear) : s.allocRun [] = ([], s) := rfl

@[simp]
theorem allocRun_cons (s : DevMonoLinear) (n : Nat) (ns : List Nat) :
    s.allocRun (n :: ns) =
      ((s.alloc n).1 :: ((s.alloc n).2.allocRun ns).1, ((s.alloc n).2.allocRun ns).2) := rfl

@[simp]
theorem allocRun_length (s : DevMonoLinear) (reqs : List Nat) :
    (s.allocRun reqs).1.length = reqs.length := by
  induction reqs generalizing s with
  | nil => rfl
  | cons n ns ih => simp [ih]

@[simp]
theorem allocRun_heapPtr (s : DevMonoLinear) (reqs : List Nat) :
    (s.allocRun reqs).2.heapPtr = s.heapPtr := by
  induction reqs generalizing s with
  | nil => rfl
  | cons n ns ih => simp [ih]

@[simp]
theorem allocRun_heapSize (s : DevMonoLinear) (reqs : List Nat) :
    (s.allocRun reqs).2.heapSize = s.heapSize := by
  induction reqs generalizing s with
  | nil => rfl
  | cons n ns ih => simp [ih]

/-- The pointer moves by exactly the sum of the granted sizes. -/
theorem allocRun_currentPtr (s : DevMonoLinear) (reqs : List Nat) :
    (s.allocRun reqs).2.currentPtr =
      s.currentPtr + (grantedSizes (reqs.zip (s.allocRun reqs).1)).sum := by
  induction reqs generalizing s with
  | nil => simp
  | cons n ns ih =>
    simp only [allocRun_cons, List.zip_cons_cons, grantedSizes_cons]
    rw [ih, alloc_currentPtr]
    split_ifs with hgrant
    · simp only [List.sum_cons, Nat.cast_add]
      ring
    · simp

theorem currentPtr_le_allocRun (s : DevMonoLinear) (reqs : List Nat) :
    s.currentPtr ≤ (s.allocRun reqs).2.currentPtr := by
  rw [allocRun_currentPtr]
  omega

/-- Every granted range of a run lies between the pointer where the run
    started and the pointer where it ended. -/
theorem allocRun_grant_between (s : DevMonoLinear) (reqs : List Nat) :
    ∀ c ∈ reqs.zip (s.allocRun reqs).1, ∀ p, c.2 = some p →
      s.currentPtr ≤ p ∧ p + (c.1 : Int) ≤ (s.allocRun reqs).2.currentPtr := by
  induction reqs generalizing s with
  | nil => simp
  | cons n ns ih =>
    intro c hc p hp
    have hrest := currentPtr_le_allocRun (s.alloc n).2 ns
    simp only [allocRun_cons, List.zip_cons_cons, List.mem_cons] at hc ⊢
    rcases hc with rfl | hc
    · -- the first call: it got the old pointer, and the rest starts above it
      simp only at hp ⊢
      obtain ⟨-, -, rfl⟩ := (alloc_eq_some_iff s n p).1 hp
      have hmove := alloc_currentPtr s n
      simp only [hp, Option.isSome_some, if_true] at hmove
      omega
    · -- a later call: it lies above where the first call left the pointer
      obtain ⟨hlo, hhi⟩ := ih (s.alloc n).2 c hc p hp
      have hmove := alloc_currentPtr s n
      refine ⟨?_, hhi⟩
      split_ifs at hmove <;> omega

/-- Grants come out in increasing order, each one ending at or below the
    start of every later one: the ranges are pairwise disjoint. -/
theorem allocRun_pairwise (s : DevMonoLinear) (reqs : List Nat) :
    (reqs.zip (s.allocRun reqs).1).Pairwise
      (fun a b => ∀ p q, a.2 = some p → b.2 = some q → p + (a.1 : Int) ≤ q) := by
  induction reqs generalizing s with
  | nil => simp
  | cons n ns ih =>
    simp only [allocRun_cons, List.zip_cons_cons, List.pairwise_cons]
    refine ⟨?_, ih (s.alloc n).2⟩
    rintro c hc p q hp hq
    -- the first grant ends where the pointer stood for the rest of the run
    obtain ⟨-, -, rfl⟩ := (alloc_eq_some_iff s n p).1 hp
    have hmove := alloc_currentPtr s n
    simp only [hp, Option.isSome_some, if_true] at hmove
    have hlo := (allocRun_grant_between (s.alloc n).2 ns c hc q hq).1
    omega

end Run

end DevMonoLinear

/-- `SlabHeap` (`memory/slab_heap.cpp`) over its `DevMonoLinear` strategy;
    `heap_mem_` is the heap the strategy points into. -/
structure SlabHeap where
  strat : DevMonoLinear

namespace SlabHeap

/-- The host `malloc`: `strat_.alloc(ptr, size)`. -/
def malloc (h : SlabHeap) (size : Nat) : Option Int × SlabHeap :=
  let r := h.strat.alloc size
  (r.1, ⟨r.2⟩)

/-- `get_base_ptr`. -/
def getBasePtr (h : SlabHeap) : Int := h.strat.heapPtr

/-- `get_used`: `strat_.current() - get_base_ptr()`. -/
def getUsed (h : SlabHeap) : Int := h.strat.current - h.getBasePtr

/-- `get_avail`: `get_size() - get_used()`. -/
def getAvail (h : SlabHeap) : Int := h.strat.heapSize - h.getUsed

/-- The used size never passes the heap size, so the `size_t` subtraction in
    `get_avail` never wraps. -/
theorem getAvail_nonneg (h : SlabHeap) : 0 ≤ h.getAvail := by
  have := h.strat.currentPtr_le_heapEnd
  simp only [getAvail, getUsed, getBasePtr, DevMonoLinear.current]
  omega

end SlabHeap

open DevMonoLinear in
/-- Over every run of requests from construction, the granted ranges lie inside
    the heap, come out disjoint and in increasing order, and the used size is
    their sum; a further positive request succeeds exactly when it ends
    strictly below the heap's end, so one that exactly fills the rest of the
    heap is refused. -/
theorem dev_mono_linear_strict_fit (heapPtr : Int) (heapSize : Nat) (reqs : List Nat)
    (n : Nat) (hn : 0 < n) :
    let run := (ofHeap heapPtr heapSize).allocRun reqs
    (∀ c ∈ reqs.zip run.1, ∀ p, c.2 = some p →
      heapPtr ≤ p ∧ p + (c.1 : Int) ≤ heapPtr + heapSize) ∧
    (reqs.zip run.1).Pairwise
      (fun a b => ∀ p q, a.2 = some p → b.2 = some q → p + (a.1 : Int) ≤ q) ∧
    run.2.current - heapPtr = (grantedSizes (reqs.zip run.1)).sum ∧
    ((run.2.alloc n).1.isSome ↔ run.2.current + n < heapPtr + heapSize) := by
  intro run
  have hend := run.2.currentPtr_le_heapEnd
  simp only [run, allocRun_heapPtr, allocRun_heapSize, ofHeap_heapPtr, ofHeap_heapSize] at hend
  refine ⟨?_, allocRun_pairwise _ reqs, ?_, ?_⟩
  · intro c hc p hp
    have hbetween := allocRun_grant_between _ reqs c hc p hp
    rw [ofHeap_currentPtr] at hbetween
    omega
  · simp only [run, current]
    rw [allocRun_currentPtr, ofHeap_currentPtr]
    ring
  · simp only [run, current]
    rw [alloc_isSome_iff _ _ hn, allocRun_heapPtr, allocRun_heapSize, ofHeap_heapPtr,
      ofHeap_heapSize]

/-- A fresh heap of 16 bytes at address 0 refuses a request for all 16. -/
theorem dev_mono_linear_strict_fit_whole_heap :
    (0 : Int) + 16 ≤ 0 + 16 ∧
      ((DevMonoLinear.ofHeap 0 16).alloc 16).1 = none := by
  obtain ⟨-, -, -, hfit⟩ := dev_mono_linear_strict_fit 0 16 [] 16 (by decide)
  have hrefused : ¬((DevMonoLinear.ofHeap 0 16).alloc 16).1.isSome :=
    fun h => absurd (hfit.1 h) (by decide)
  exact ⟨le_refl _, Option.not_isSome_iff_eq_none.1 hrefused⟩

end RocShmem
