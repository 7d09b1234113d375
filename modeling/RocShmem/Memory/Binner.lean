import Mathlib
import RocShmem.Lib.Extent

/-!
# Address Records, Bins and the Binner

The bookkeeping types of the symmetric heap allocator (`memory/address_record.hpp`,
`memory/bin.hpp`, `memory/binner.hpp`), and the construction that carves the
heap into the first records.

Addresses are natural numbers and `0` is the null pointer; `AddressRecord.empty`
is the record the default constructor builds, which the allocator treats as
INVALID. A `Bin` wraps a `std::stack`, so it is modelled as a list whose head
is the top of the stack: `put` conses and `get` takes the head. The size-to-bin
`std::map` of `Pow2Bins` is the list of its entries in ascending key order,
`Bins`; an iterator into it is a position in that list, and the end iterator is
the length.

The Binner fills that map in two stages. Its constructor inserts one empty bin
for every power of two from `ALIGNMENT` up to the highest bit of the heap size.
`assign_heap_to_bins` then moves the heap start up to the next multiple of
`ALIGNMENT` and, in a `while` loop, cuts off the largest bin size that still
fits and stacks that piece in its bin. The loop is modelled with a fuel
argument; every round consumes at least one key's worth of bytes, so the heap
size plus one rounds are always enough.

## Main definitions

* `AddressRecord`: An address and a size, with `split` into halves.
* `Bins`: The size-to-bin map as an ascending list of entries.
* `lowerBound`, `find`: The `std::map` lookups, as positions.
* `findFirstSetOne`: The bit position of the highest set bit.
* `binnerBins`: The bins the Binner constructor creates.
* `ignoreUnalignedHeapMemory`: The heap after skipping the unaligned prefix.
* `assignHeapChunk`, `assignHeapMemoryToBins`, `assignHeapToBins`: Carving the
  heap into records.

## Theorems

* `split_extent`: The halves of a record are the halves of its extent.
* `assignHeapChunk_keys`, `assignHeapMemoryToBins_keys`: Carving leaves the keys alone.
* `ignoreUnalignedHeapMemory_base_mod`: The carved heap starts aligned.
-/

namespace RocShmem

/-- `ALIGNMENT` from `constants.hpp`. -/
def alignment : Nat := 128

/-- `UINT_MAX`, the value `find_first_set_one` returns for zero. -/
def uintMax : Nat := 2 ^ 32 - 1

/-- An allocation: a raw pointer and a size. -/
structure AddressRecord where
  address : Nat
  size : Nat
deriving DecidableEq, Repr

namespace AddressRecord

/-- The record the default constructor builds: null address, zero size. -/
def empty : AddressRecord := ⟨0, 0⟩

/-- `AddressRecord::split`: the lower and the upper half, each of
    `size_ >> 1` bytes. The asserts on a non-null address and non-zero sizes
    are not modelled; the allocator only splits records of at least twice
    the alignment. -/
def split (r : AddressRecord) : AddressRecord × AddressRecord :=
  let halfSize := r.size >>> 1
  (⟨r.address, halfSize⟩, ⟨r.address + halfSize, halfSize⟩)

/-- The bytes a record designates. -/
def extent (r : AddressRecord) : Extent := ⟨r.address, r.size⟩

/-- The record moved by `d` bytes. -/
def shift (d : Nat) (r : AddressRecord) : AddressRecord := ⟨r.address + d, r.size⟩

@[simp] theorem extent_base (r : AddressRecord) : r.extent.base = r.address := rfl

@[simp] theorem extent_len (r : AddressRecord) : r.extent.len = r.size := rfl

@[simp] theorem shift_size (d : Nat) (r : AddressRecord) : (r.shift d).size = r.size := rfl

@[simp] theorem shift_address (d : Nat) (r : AddressRecord) :
    (r.shift d).address = r.address + d := rfl

/-- The halves of a record are the halves of its extent. -/
theorem split_extent (r : AddressRecord) :
    r.split.1.extent = r.extent.lowerHalf ∧ r.split.2.extent = r.extent.upperHalf := by
  exact ⟨rfl, rfl⟩

@[simp] theorem split_fst_size (r : AddressRecord) : r.split.1.size = r.size / 2 := by
  simp only [split, Nat.shiftRight_eq_div_pow, Nat.pow_one]

@[simp] theorem split_snd_size (r : AddressRecord) : r.split.2.size = r.size / 2 := by
  simp only [split, Nat.shiftRight_eq_div_pow, Nat.pow_one]

/-- Splitting commutes with moving the record. -/
theorem split_shift (d : Nat) (r : AddressRecord) :
    (r.shift d).split = ((r.split.1).shift d, (r.split.2).shift d) := by
  simp only [split, shift, Prod.mk.injEq, AddressRecord.mk.injEq, and_true, true_and]
  omega

end AddressRecord

/-- The extents of a list of records. -/
def extents (l : List AddressRecord) : List Extent := l.map AddressRecord.extent

@[simp] theorem extents_nil : extents [] = [] := rfl

@[simp] theorem extents_cons (r : AddressRecord) (l : List AddressRecord) :
    extents (r :: l) = r.extent :: extents l := rfl

@[simp] theorem extents_append (l₁ l₂ : List AddressRecord) :
    extents (l₁ ++ l₂) = extents l₁ ++ extents l₂ := List.map_append

/-- The `std::map<size_t, Bin>` of `Pow2Bins`: its entries in ascending key
    order, each bin a stack listed from the top. -/
abbrev Bins := List (Nat × List AddressRecord)

/-- The records held in the bins, bin by bin. -/
def binRecords (bins : Bins) : List AddressRecord := bins.flatMap Prod.snd

@[simp] theorem binRecords_nil : binRecords [] = [] := rfl

@[simp] theorem binRecords_cons (e : Nat × List AddressRecord) (bins : Bins) :
    binRecords (e :: bins) = e.2 ++ binRecords bins := List.flatMap_cons

@[simp] theorem binRecords_append (b₁ b₂ : Bins) :
    binRecords (b₁ ++ b₂) = binRecords b₁ ++ binRecords b₂ := List.flatMap_append

/-- Every record in every bin has the bin's key as its size. -/
def SizesMatch (bins : Bins) : Prop := ∀ e ∈ bins, ∀ r ∈ e.2, r.size = e.1

/-- Each key is twice the one before it. -/
def Doubling (keys : List Nat) : Prop := keys.IsChain (fun a b => b = 2 * a)

theorem sizesMatch_cons (e : Nat × List AddressRecord) (bins : Bins) :
    SizesMatch (e :: bins) ↔ (∀ r ∈ e.2, r.size = e.1) ∧ SizesMatch bins := by
  simp only [SizesMatch, List.mem_cons, forall_eq_or_imp]

theorem sizesMatch_append (b₁ b₂ : Bins) :
    SizesMatch (b₁ ++ b₂) ↔ SizesMatch b₁ ∧ SizesMatch b₂ := by
  simp only [SizesMatch, List.mem_append]
  constructor
  · intro h
    exact ⟨fun e he => h e (Or.inl he), fun e he => h e (Or.inr he)⟩
  · rintro ⟨h₁, h₂⟩ e (he | he)
    · exact h₁ e he
    · exact h₂ e he

/-- `std::map::lower_bound`: the position of the first key not less than `n`. -/
def lowerBound (n : Nat) : Bins → Nat
  | [] => 0
  | e :: rest => if n ≤ e.1 then 0 else lowerBound n rest + 1

/-- `std::map::find`: the position of key `n`, or the end. -/
def find (n : Nat) (bins : Bins) : Nat :=
  match bins[lowerBound n bins]? with
  | some e => if e.1 = n then lowerBound n bins else bins.length
  | none => bins.length

/-- The key at the lower bound, if there is one, is at least `n`. -/
theorem le_of_lowerBound (n : Nat) (bins : Bins) (e : Nat × List AddressRecord)
    (he : bins[lowerBound n bins]? = some e) : n ≤ e.1 := by
  induction bins with
  | nil => simp only [lowerBound, List.getElem?_nil, reduceCtorEq] at he
  | cons e' rest ih =>
      simp only [lowerBound] at he
      split at he
      · simp only [List.getElem?_cons_zero, Option.some.injEq] at he
        subst he
        assumption
      · simp only [List.getElem?_cons_succ] at he
        exact ih he

/-- A found position holds the key that was looked up. -/
theorem find_key (n : Nat) (bins : Bins) (e : Nat × List AddressRecord)
    (he : bins[find n bins]? = some e) : e.1 = n := by
  unfold find at he
  split at he
  · rename_i e' he'
    split at he
    · rw [he'] at he
      cases he
      assumption
    · simp only [List.getElem?_eq_none_iff.mpr (Nat.le_refl _), reduceCtorEq] at he
  · simp only [List.getElem?_eq_none_iff.mpr (Nat.le_refl _), reduceCtorEq] at he

/-- A key that is present is found, provided the keys increase strictly. -/
theorem lowerBound_of_mem (n : Nat) (bins : Bins) (hsorted : (bins.map Prod.fst).Pairwise (· < ·))
    (hn : n ∈ bins.map Prod.fst) : ∃ e, bins[lowerBound n bins]? = some e ∧ e.1 = n := by
  induction bins with
  | nil => simp only [List.map_nil, List.not_mem_nil] at hn
  | cons e rest ih =>
      simp only [List.map_cons, List.pairwise_cons, List.mem_cons, List.mem_map] at hsorted hn
      simp only [lowerBound]
      split
      · -- The first key not below `n` is `n` itself: every later key is larger.
        refine ⟨e, rfl, ?_⟩
        rcases hn with hn | ⟨e', he', rfl⟩
        · exact hn.symm
        · have := hsorted.1 e'.1 ⟨e', he', rfl⟩
          omega
      · rcases hn with hn | hn
        · omega
        · obtain ⟨e', he', hk⟩ := ih hsorted.2 (List.mem_map.mpr hn)
          exact ⟨e', by simpa only [List.getElem?_cons_succ] using he', hk⟩

/-- `find` of a present key lands on it. -/
theorem find_of_mem (n : Nat) (bins : Bins) (hsorted : (bins.map Prod.fst).Pairwise (· < ·))
    (hn : n ∈ bins.map Prod.fst) : ∃ e, bins[find n bins]? = some e ∧ e.1 = n := by
  obtain ⟨e, he, hk⟩ := lowerBound_of_mem n bins hsorted hn
  refine ⟨e, ?_, hk⟩
  unfold find
  rw [he]
  simp only [hk, if_true, he]

/-- `find_first_set_one`: the position of the highest set bit, through
    `num_bits - clz(v) - 1`, or `UINT_MAX` for zero. -/
def findFirstSetOne (v : Nat) : Nat := if v = 0 then uintMax else Nat.log2 v

/-- `Binner::Binner`: one empty bin for each power of two `2 ^ k` with
    `find_first_set_one(ALIGNMENT) ≤ k ≤ find_first_set_one(heap_size)`, or
    `none` where one of its asserts fails. -/
def binnerBins (heapSize : Nat) : Option Bins :=
  let bitPositionHeap := findFirstSetOne heapSize
  let bitPositionAlign := findFirstSetOne alignment
  if bitPositionHeap = uintMax ∨ bitPositionAlign = uintMax ∨
      bitPositionHeap < bitPositionAlign then
    none
  else
    some ((List.range (bitPositionHeap - bitPositionAlign + 1)).map
      fun i => (2 ^ (bitPositionAlign + i), []))

/-- `Binner::ignore_unaligned_heap_memory`: move the start up to the next
    multiple of `ALIGNMENT`, shortening the heap by as much. -/
def ignoreUnalignedHeapMemory (heap : AddressRecord) : AddressRecord :=
  let offByBytes := heap.address % alignment
  if offByBytes ≠ 0 then
    let requiredOffset := alignment - offByBytes
    ⟨heap.address + requiredOffset, heap.size - requiredOffset⟩
  else heap

/-- The last bin, scanning from the largest key down, whose key is at most
    `size`: the reverse iterator search of `assign_heap_chunk`. -/
def largestFitting (size : Nat) : Bins → Option Nat
  | [] => none
  | e :: rest =>
      match largestFitting size rest with
      | some k => some k
      | none => if size ≥ e.1 then some e.1 else none

/-- Push a record onto the bin with key `k`. -/
def putInBin (k : Nat) (r : AddressRecord) : Bins → Bins
  | [] => []
  | e :: rest => if e.1 = k then (e.1, r :: e.2) :: rest else e :: putInBin k r rest

/-- `Binner::assign_heap_chunk`: stack the largest bin-sized piece of the
    chunk in its bin and return the rest, or the null record when no bin
    fits. -/
def assignHeapChunk (bins : Bins) (chunk : AddressRecord) : Bins × AddressRecord :=
  match largestFitting chunk.size bins with
  | none => (bins, AddressRecord.empty)
  | some k => (putInBin k ⟨chunk.address, k⟩ bins, ⟨chunk.address + k, chunk.size - k⟩)

/-- `Binner::assign_heap_memory_to_bins`: `while (chunk.get_address())
    chunk = assign_heap_chunk(chunk);`, run for at most `fuel` rounds. -/
def assignHeapMemoryToBins : Nat → Bins → AddressRecord → Bins
  | 0, bins, _ => bins
  | fuel + 1, bins, chunk =>
      if chunk.address = 0 then bins
      else
        let next := assignHeapChunk bins chunk
        assignHeapMemoryToBins fuel next.1 next.2

/-- `Binner::assign_heap_to_bins`, for a heap that passed the asserts on a
    non-null address and a non-zero size. -/
def assignHeapToBins (bins : Bins) (heap : AddressRecord) : Bins :=
  assignHeapMemoryToBins (heap.size + 1) bins (ignoreUnalignedHeapMemory heap)

theorem putInBin_keys (k : Nat) (r : AddressRecord) (bins : Bins) :
    (putInBin k r bins).map Prod.fst = bins.map Prod.fst := by
  induction bins with
  | nil => rfl
  | cons e rest ih =>
      simp only [putInBin]
      split <;> simp only [List.map_cons, ih]

theorem assignHeapChunk_keys (bins : Bins) (chunk : AddressRecord) :
    (assignHeapChunk bins chunk).1.map Prod.fst = bins.map Prod.fst := by
  unfold assignHeapChunk
  split
  · rfl
  · exact putInBin_keys _ _ _

/-- Carving the heap adds records but never a key. -/
theorem assignHeapMemoryToBins_keys (fuel : Nat) (bins : Bins) (chunk : AddressRecord) :
    (assignHeapMemoryToBins fuel bins chunk).map Prod.fst = bins.map Prod.fst := by
  induction fuel generalizing bins chunk with
  | zero => rfl
  | succ fuel ih =>
      simp only [assignHeapMemoryToBins]
      split
      · rfl
      · rw [ih, assignHeapChunk_keys]

/-- The carved heap starts at a multiple of `ALIGNMENT`. -/
theorem ignoreUnalignedHeapMemory_base_mod (heap : AddressRecord) :
    (ignoreUnalignedHeapMemory heap).address % alignment = 0 := by
  unfold ignoreUnalignedHeapMemory
  dsimp only
  split
  · rename_i h
    simp only [alignment] at h ⊢
    omega
  · rename_i h
    exact not_not.mp h

theorem largestFitting_spec (size : Nat) (bins : Bins) (k : Nat)
    (h : largestFitting size bins = some k) : k ∈ bins.map Prod.fst ∧ k ≤ size := by
  induction bins with
  | nil => simp only [largestFitting, reduceCtorEq] at h
  | cons e rest ih =>
      simp only [largestFitting] at h
      split at h
      · rename_i k' hk'
        cases h
        exact ⟨List.mem_cons_of_mem _ (ih hk').1, (ih hk').2⟩
      · split at h
        · cases h
          exact ⟨List.mem_cons_self, by assumption⟩
        · simp only [reduceCtorEq] at h

/-- A record put into a bin that exists joins the records of the bins. -/
theorem putInBin_perm (k : Nat) (r : AddressRecord) (bins : Bins) (hk : k ∈ bins.map Prod.fst) :
    (binRecords (putInBin k r bins)).Perm (r :: binRecords bins) := by
  induction bins with
  | nil => simp only [List.map_nil, List.not_mem_nil] at hk
  | cons e rest ih =>
      simp only [putInBin]
      split
      · simp only [binRecords_cons, List.cons_append]
        exact List.Perm.refl _
      · rename_i hne
        simp only [List.map_cons, List.mem_cons] at hk
        have hk' : k ∈ rest.map Prod.fst := hk.resolve_left (fun h => hne h.symm)
        simp only [binRecords_cons]
        exact ((ih hk').append_left e.2).trans List.perm_middle

/-- Carving stops at once on the null record. -/
theorem assignHeapMemoryToBins_empty (fuel : Nat) (bins : Bins) :
    assignHeapMemoryToBins fuel bins AddressRecord.empty = bins := by
  cases fuel with
  | zero => rfl
  | succ fuel => simp only [assignHeapMemoryToBins, AddressRecord.empty, if_true]

/-- The carved heap starts no lower than the heap. -/
theorem le_ignoreUnalignedHeapMemory_address (heap : AddressRecord) :
    heap.address ≤ (ignoreUnalignedHeapMemory heap).address := by
  unfold ignoreUnalignedHeapMemory
  dsimp only
  split
  · exact Nat.le_add_right _ _
  · exact Nat.le_refl _

/-- The bins the constructor creates: empty, with positive keys that double
    from one to the next. -/
theorem binnerBins_spec (heapSize : Nat) (bins : Bins) (h : binnerBins heapSize = some bins) :
    Doubling (bins.map Prod.fst) ∧ (∀ e ∈ bins, 0 < e.1) ∧ (∀ e ∈ bins, e.2 = []) := by
  unfold binnerBins at h
  dsimp only at h
  split at h
  · simp only [reduceCtorEq] at h
  · simp only [Option.some.injEq] at h
    subst h
    refine ⟨?_, ?_, ?_⟩
    · -- The keys are `2 ^ (a + i)` over consecutive `i`.
      simp only [Doubling, List.map_map, List.range_eq_range', List.isChain_map]
      refine (List.isChain_range' 0 _ 1).imp ?_
      intro a b hab
      simp only [Function.comp_apply, hab]
      rw [← Nat.add_assoc, Nat.pow_succ]
      omega
    · intro e he
      obtain ⟨i, -, rfl⟩ := List.mem_map.mp he
      exact Nat.two_pow_pos _
    · intro e he
      obtain ⟨i, -, rfl⟩ := List.mem_map.mp he
      rfl

end RocShmem
