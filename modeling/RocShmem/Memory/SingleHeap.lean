import RocShmem.Memory.Pow2BinsInvariant

/-!
# The Symmetric Heap on Two PEs

`SingleHeap` (`memory/single_heap.cpp`) owns the heap memory of one PE and
hands `malloc` and `free` to its `Pow2Bins` strategy. Every PE runs the same
sequence of collective allocations on its own heap, and IPC addresses a
symmetric object on PE `pe` as `ipc_bases[pe] + (dest - ipc_bases[my_pe])`.
That is only right if the same call sequence places every object at the same
offset from the base on every PE.

The allocator never looks at an address except to test it against null and
to add sizes to it, so moving a run by `d` bytes moves everything it does by
`d` bytes, with null results staying null. The one exception is the Binner's
first step, which rounds the heap start up to a multiple of `ALIGNMENT`: two
heaps are trimmed alike exactly when their bases agree modulo `ALIGNMENT`.

The proof follows the call graph. Each function gets one lemma saying that
running it on the moved state gives the moved result: the map lookups only
read keys, the cascade only reads emptiness, and the retrieved record is the
moved one or the null one. The only hypothesis anywhere is that no record in
the bins sits at address `0`, which holds of every reachable state because
they all lie inside the heap (`Pow2Bins.Inv`).

## Main definitions

* `SingleHeap`: The heap memory and its allocation strategy.
* `SingleHeap.malloc`, `SingleHeap.free`: The host-side calls.
* `HeapCall`, `runHeap`: A sequence of calls issued on one PE.
* `Pow2Bins.shift`, `SingleHeap.shift`: A state with every address moved.
* `movePtr`: A returned pointer on the other PE; null stays null.

## Theorems

* `splitLargerBin_shift`, `Pow2Bins.doRequestUsing_shift`,
  `Pow2Bins.alloc_shift`, `Pow2Bins.free_shift`, `Pow2Bins.init_shift`:
  Each step commutes with moving the state.
* `runHeapCalls_shift`: Whole runs commute with moving the state.
* `symmetric_heap_same_offsets`: Two PEs whose bases agree modulo
  `ALIGNMENT` get every allocation at the same offset.
-/

namespace RocShmem

/-- `SingleHeap`: `heap_mem_`, the base pointer and size of this PE's heap,
    and `strat_`, the `Pow2Bins` strategy carving it. -/
structure SingleHeap where
  heapMem : AddressRecord
  strat : Pow2Bins

namespace SingleHeap

/-- The constructor, for a `ROCSHMEM_HEAP_SIZE` of `heapSize` bytes placed at
    `heapPtr`: `strat_ = STRAT_T{&heap_mem_}`. -/
def init (heapPtr heapSize : Nat) : Option SingleHeap :=
  (Pow2Bins.init heapPtr heapSize).map fun s => ⟨⟨heapPtr, heapSize⟩, s⟩

/-- `get_base_ptr`. -/
def getBasePtr (h : SingleHeap) : Nat := h.heapMem.address

/-- The host `malloc`: `strat_.alloc(ptr, size)`. -/
def malloc (h : SingleHeap) (size : Nat) : SingleHeap × Nat :=
  let r := h.strat.alloc size
  ({ h with strat := r.1 }, r.2)

/-- The host `free`: nothing for `nullptr`, otherwise `strat_.free(ptr)`. -/
def free (h : SingleHeap) (ptr : Nat) : Option SingleHeap :=
  if ptr = 0 then some h
  else (h.strat.free ptr).map fun s => { h with strat := s }

end SingleHeap

/-- One call of a client on its heap: `malloc` of a size, or `free` of the
    pointer the `j`-th `malloc` of the sequence returned. -/
inductive HeapCall
  | malloc (size : Nat)
  | free (j : Nat)
deriving DecidableEq, Repr

/-- Issue the calls in order, collecting what each `malloc` returned; `none`
    when an assert of the allocator fails. A `free` past the mallocs made so
    far frees `nullptr`. -/
def runHeapCalls : SingleHeap → List Nat → List HeapCall → Option (SingleHeap × List Nat)
  | h, ptrs, [] => some (h, ptrs)
  | h, ptrs, .malloc size :: calls =>
      let r := h.malloc size
      runHeapCalls r.1 (ptrs ++ [r.2]) calls
  | h, ptrs, .free j :: calls =>
      match h.free (ptrs.getD j 0) with
      | none => none
      | some h' => runHeapCalls h' ptrs calls

/-- Build the heap at `heapPtr` and issue the calls. -/
def runHeap (heapPtr heapSize : Nat) (calls : List HeapCall) : Option (SingleHeap × List Nat) :=
  (SingleHeap.init heapPtr heapSize).bind fun h => runHeapCalls h [] calls

/-- The offset of a returned pointer from the heap base, `none` for `nullptr`. -/
def heapOffset (base p : Nat) : Option Int := if p = 0 then none else some ((p : Int) - base)

/-! ### Moving a state -/

/-- A returned pointer on a heap `d` bytes further up: null stays null. -/
def movePtr (d p : Nat) : Nat := if p = 0 then 0 else p + d

/-- A retrieved record on a heap `d` bytes further up: the null record, which
    signals an empty bin, stays null. -/
def AddressRecord.move (d : Nat) (r : AddressRecord) : AddressRecord :=
  if r.address = 0 then r else r.shift d

/-- Every record of the bins moved by `d` bytes. -/
def shiftBins (d : Nat) (bins : Bins) : Bins :=
  bins.map fun e => (e.1, e.2.map (AddressRecord.shift d))

/-- Every handed-out record, and its key, moved by `d` bytes. -/
def shiftProffered (d : Nat) (proffered : List (Nat × AddressRecord)) :
    List (Nat × AddressRecord) :=
  proffered.map fun e => (e.1 + d, e.2.shift d)

/-- The allocator state with every address moved by `d` bytes. -/
def Pow2Bins.shift (d : Nat) (s : Pow2Bins) : Pow2Bins :=
  ⟨shiftBins d s.bins, shiftProffered d s.proffered⟩

/-- The heap with every address moved by `d` bytes. -/
def SingleHeap.shift (d : Nat) (h : SingleHeap) : SingleHeap :=
  ⟨h.heapMem.shift d, h.strat.shift d⟩

@[simp] theorem movePtr_zero (d : Nat) : movePtr d 0 = 0 := rfl

theorem movePtr_eq_zero_iff (d p : Nat) : movePtr d p = 0 ↔ p = 0 := by
  unfold movePtr
  split <;> omega

@[simp] theorem AddressRecord.move_address (d : Nat) (r : AddressRecord) :
    (r.move d).address = movePtr d r.address := by
  unfold move movePtr
  split <;> simp only [AddressRecord.shift_address, *]

theorem AddressRecord.move_of_pos (d : Nat) {r : AddressRecord} (h : 0 < r.address) :
    r.move d = r.shift d := by
  simp only [move, Nat.pos_iff_ne_zero.mp h, if_false]

@[simp] theorem shiftBins_nil (d : Nat) : shiftBins d [] = [] := rfl

@[simp] theorem shiftBins_cons (d : Nat) (e : Nat × List AddressRecord) (bins : Bins) :
    shiftBins d (e :: bins) = (e.1, e.2.map (AddressRecord.shift d)) :: shiftBins d bins := rfl

@[simp] theorem shiftBins_append (d : Nat) (b₁ b₂ : Bins) :
    shiftBins d (b₁ ++ b₂) = shiftBins d b₁ ++ shiftBins d b₂ := List.map_append

theorem shiftBins_take (d n : Nat) (bins : Bins) :
    (shiftBins d bins).take n = shiftBins d (bins.take n) := (List.map_take ..).symm

theorem shiftBins_drop (d n : Nat) (bins : Bins) :
    (shiftBins d bins).drop n = shiftBins d (bins.drop n) := (List.map_drop ..).symm

@[simp] theorem shiftBins_keys (d : Nat) (bins : Bins) :
    (shiftBins d bins).map Prod.fst = bins.map Prod.fst := by
  simp only [shiftBins, List.map_map]
  rfl

@[simp] theorem shiftBins_length (d : Nat) (bins : Bins) :
    (shiftBins d bins).length = bins.length := List.length_map ..

/-- Bins with nothing in them do not move. -/
theorem shiftBins_of_empty (d : Nat) (bins : Bins) (h : ∀ e ∈ bins, e.2 = []) :
    shiftBins d bins = bins := by
  induction bins with
  | nil => rfl
  | cons e rest ih =>
      obtain ⟨k, bin⟩ := e
      have hbin : bin = [] := h (k, bin) List.mem_cons_self
      subst hbin
      rw [shiftBins_cons, ih (fun e' he' => h e' (List.mem_cons_of_mem _ he'))]
      rfl

/-! ### The map lookups and the Binner -/

-- The lookups only read the keys, which moving leaves alone.
@[simp] theorem lowerBound_shiftBins (n d : Nat) (bins : Bins) :
    lowerBound n (shiftBins d bins) = lowerBound n bins := by
  induction bins with
  | nil => rfl
  | cons e rest ih => simp only [shiftBins_cons, lowerBound, ih]

@[simp] theorem find_shiftBins (n d : Nat) (bins : Bins) :
    find n (shiftBins d bins) = find n bins := by
  unfold find
  rw [lowerBound_shiftBins]
  simp only [shiftBins, List.getElem?_map, List.length_map]
  cases bins[lowerBound n bins]? <;> rfl

@[simp] theorem largestFitting_shiftBins (size d : Nat) (bins : Bins) :
    largestFitting size (shiftBins d bins) = largestFitting size bins := by
  induction bins with
  | nil => rfl
  | cons e rest ih => simp only [shiftBins_cons, largestFitting, ih]

theorem putInBin_shift (k d : Nat) (r : AddressRecord) (bins : Bins) :
    putInBin k (r.shift d) (shiftBins d bins) = shiftBins d (putInBin k r bins) := by
  induction bins with
  | nil => rfl
  | cons e rest ih =>
      simp only [shiftBins_cons, putInBin]
      split
      · simp only [shiftBins_cons, List.map_cons]
      · simp only [shiftBins_cons, ih]

/-- Cutting a piece off a chunk that is not null: the piece and the rest
    move with the chunk, and the null rest stays null. -/
theorem assignHeapChunk_shift (d : Nat) (bins : Bins) (chunk : AddressRecord)
    (hc : 0 < chunk.address) :
    assignHeapChunk (shiftBins d bins) (chunk.shift d) =
      (shiftBins d (assignHeapChunk bins chunk).1, (assignHeapChunk bins chunk).2.move d) := by
  unfold assignHeapChunk
  rw [AddressRecord.shift_size, largestFitting_shiftBins]
  cases largestFitting chunk.size bins with
  | none => rfl
  | some k =>
      have hpos : 0 < chunk.address + k := by omega
      dsimp only
      rw [AddressRecord.move_of_pos d hpos, ← putInBin_shift]
      simp only [AddressRecord.shift, Nat.add_right_comm]

/-- The carving loop commutes with moving: the loop only tests the chunk
    against null, and a moved chunk is null exactly when the chunk is. -/
theorem assignHeapMemoryToBins_shift (d fuel : Nat) (bins : Bins) (chunk : AddressRecord) :
    assignHeapMemoryToBins fuel (shiftBins d bins) (chunk.move d) =
      shiftBins d (assignHeapMemoryToBins fuel bins chunk) := by
  induction fuel generalizing bins chunk with
  | zero => rfl
  | succ fuel ih =>
      by_cases hc : chunk.address = 0
      · -- The loop has stopped on both heaps.
        have hmove : chunk.move d = chunk := by simp only [AddressRecord.move, hc, if_true]
        simp only [assignHeapMemoryToBins, hmove, hc, if_true]
      · have hpos : 0 < chunk.address := Nat.pos_of_ne_zero hc
        have hne : (chunk.move d).address ≠ 0 := by
          rw [AddressRecord.move_address, ne_eq, movePtr_eq_zero_iff]
          exact hc
        simp only [assignHeapMemoryToBins, hne, hc, if_false]
        rw [AddressRecord.move_of_pos d hpos, assignHeapChunk_shift d bins chunk hpos]
        exact ih _ _

theorem ignoreUnalignedHeapMemory_shift (d : Nat) (heap : AddressRecord)
    (hd : d % alignment = 0) :
    ignoreUnalignedHeapMemory (heap.shift d) = (ignoreUnalignedHeapMemory heap).shift d := by
  -- Both starts are off the alignment by the same number of bytes.
  have hoff : (heap.address + d) % alignment = heap.address % alignment := by
    simp only [alignment] at hd ⊢
    omega
  unfold ignoreUnalignedHeapMemory
  simp only [AddressRecord.shift_address, AddressRecord.shift_size, hoff]
  split
  · simp only [AddressRecord.shift, AddressRecord.mk.injEq, and_true]
    omega
  · rfl

/-! ### The cascade -/

theorem splitLargerBin_shift (d : Nat) (bin : List AddressRecord) (rest : Bins) :
    splitLargerBin (bin.map (AddressRecord.shift d)) (shiftBins d rest) =
      ((splitLargerBin bin rest).1.map (AddressRecord.shift d),
        shiftBins d (splitLargerBin bin rest).2) := by
  induction rest generalizing bin with
  | nil => rfl
  | cons e rest ih =>
      obtain ⟨k, next⟩ := e
      -- The refill one bin up moves with the bins, since it only tests emptiness.
      have hbelow : (if (next.map (AddressRecord.shift d)).isEmpty then
            splitLargerBin (next.map (AddressRecord.shift d)) (shiftBins d rest)
          else (next.map (AddressRecord.shift d), shiftBins d rest)) =
          ((if next.isEmpty then splitLargerBin next rest else (next, rest)).1.map
              (AddressRecord.shift d),
            shiftBins d (if next.isEmpty then splitLargerBin next rest else (next, rest)).2) := by
        rw [List.isEmpty_map]
        split
        · exact ih next
        · rfl
      simp only [shiftBins_cons, splitLargerBin]
      rw [hbelow]
      generalize (if next.isEmpty then splitLargerBin next rest else (next, rest)) = below
      obtain ⟨top, below⟩ := below
      cases top with
      | nil => rfl
      | cons record remaining =>
          simp only [List.map_cons, AddressRecord.split_shift, shiftBins_cons]

theorem tryToEnsureBinHasRecords_shift (d : Nat) (bin : List AddressRecord) (rest : Bins) :
    tryToEnsureBinHasRecords (bin.map (AddressRecord.shift d)) (shiftBins d rest) =
      ((tryToEnsureBinHasRecords bin rest).1.map (AddressRecord.shift d),
        shiftBins d (tryToEnsureBinHasRecords bin rest).2) := by
  unfold tryToEnsureBinHasRecords
  rw [List.isEmpty_map]
  split
  · exact splitLargerBin_shift d bin rest
  · rfl

/-- A property of records that both halves of a split inherit holds of every
    record the cascade leaves, when it held of every record before. -/
theorem splitLargerBin_forall (P : AddressRecord → Prop)
    (hP : ∀ r, P r → P r.split.1 ∧ P r.split.2) (bin : List AddressRecord) (rest : Bins)
    (h : ∀ r ∈ bin ++ binRecords rest, P r) :
    ∀ r ∈ (splitLargerBin bin rest).1 ++ binRecords (splitLargerBin bin rest).2, P r := by
  induction rest generalizing bin with
  | nil => simpa only [splitLargerBin] using h
  | cons e rest ih =>
      obtain ⟨k, next⟩ := e
      simp only [binRecords_cons, List.mem_append] at h
      have hbelow : ∀ r ∈ (if next.isEmpty then splitLargerBin next rest else (next, rest)).1 ++
          binRecords (if next.isEmpty then splitLargerBin next rest else (next, rest)).2, P r := by
        split
        · exact ih next (fun r hr => h r (by simp only [List.mem_append] at hr; tauto))
        · exact fun r hr => h r (by simp only [List.mem_append] at hr; tauto)
      simp only [splitLargerBin]
      generalize (if next.isEmpty then splitLargerBin next rest else (next, rest)) = below at hbelow
      obtain ⟨top, below⟩ := below
      simp only [List.mem_append] at hbelow
      cases top with
      | nil =>
          intro r hr
          simp only [binRecords_cons, List.nil_append, List.mem_append] at hr
          rcases hr with hr | hr
          · exact h r (Or.inl hr)
          · exact hbelow r (Or.inr hr)
      | cons record remaining =>
          -- The two halves of the record taken from the next bin.
          have hrec := hP record (hbelow record (Or.inl List.mem_cons_self))
          intro r hr
          simp only [binRecords_cons, List.cons_append, List.mem_cons, List.mem_append] at hr
          rcases hr with rfl | rfl | hr | hr | hr
          · exact hrec.1
          · exact hrec.2
          · exact h r (Or.inl hr)
          · exact hbelow r (Or.inl (List.mem_cons_of_mem _ hr))
          · exact hbelow r (Or.inr hr)

/-- Splitting a record that is not at null gives two halves that are not. -/
theorem split_address_pos (r : AddressRecord) (h : 0 < r.address) :
    0 < r.split.1.address ∧ 0 < r.split.2.address := by
  simp only [AddressRecord.split]
  omega

/-- Retrieving from bins with no record at null: the result on the moved bins
    is the moved result, the null record included. -/
theorem retrieveRecordFromBin_shift (d : Nat) (bin : List AddressRecord) (rest : Bins)
    (hpos : ∀ r ∈ bin ++ binRecords rest, 0 < r.address) :
    retrieveRecordFromBin (bin.map (AddressRecord.shift d)) (shiftBins d rest) =
      ((retrieveRecordFromBin bin rest).1.move d,
        (retrieveRecordFromBin bin rest).2.1.map (AddressRecord.shift d),
        shiftBins d (retrieveRecordFromBin bin rest).2.2) := by
  have hens : ∀ r ∈ (tryToEnsureBinHasRecords bin rest).1 ++
      binRecords (tryToEnsureBinHasRecords bin rest).2, 0 < r.address := by
    unfold tryToEnsureBinHasRecords
    split
    · exact splitLargerBin_forall _ (fun r hr => split_address_pos r hr) bin rest hpos
    · exact hpos
  unfold retrieveRecordFromBin
  rw [tryToEnsureBinHasRecords_shift]
  generalize tryToEnsureBinHasRecords bin rest = ensured at hens
  obtain ⟨top, below⟩ := ensured
  cases top with
  | nil => rfl
  | cons record remaining =>
      have hrec : 0 < record.address := hens record (by simp)
      simp only [List.map_cons, AddressRecord.move_of_pos d hrec]

/-! ### The operations -/

namespace Pow2Bins

theorem emplaceInProffered_shift (d : Nat) (proffered : List (Nat × AddressRecord))
    (r : AddressRecord) :
    emplaceInProffered (shiftProffered d proffered) (r.shift d) =
      shiftProffered d (emplaceInProffered proffered r) := by
  simp only [emplaceInProffered, shiftProffered, AddressRecord.shift_address, List.map_cons,
    List.filter_map, Function.comp_def, ne_eq, Nat.add_right_cancel_iff]

/-- Looking a moved pointer up in the moved `proffered_` finds the moved
    entry: keys are compared for equality only, and moving is injective. -/
theorem retrieveFromProffered_shift (d : Nat) (proffered : List (Nat × AddressRecord)) (p : Nat)
    (hp : 0 < p) :
    retrieveFromProffered (shiftProffered d proffered) (p + d) =
      (retrieveFromProffered proffered p).map fun x => (x.1.shift d, shiftProffered d x.2) := by
  have hinj : Function.Injective fun e : Nat × AddressRecord => (e.1 + d, e.2.shift d) := by
    intro ⟨a, ⟨x, n⟩⟩ ⟨a', ⟨x', n'⟩⟩ h
    simp only [Prod.mk.injEq, AddressRecord.shift, AddressRecord.mk.injEq,
      Nat.add_right_cancel_iff] at h
    obtain ⟨rfl, rfl, rfl⟩ := h
    rfl
  have hfind : (shiftProffered d proffered).find? (fun e => decide (e.1 = p + d)) =
      (proffered.find? (fun e => decide (e.1 = p))).map fun e => (e.1 + d, e.2.shift d) := by
    simp only [shiftProffered, List.find?_map, Function.comp_def, Nat.add_right_cancel_iff]
  unfold retrieveFromProffered
  simp only [Nat.add_eq_zero_iff, Nat.pos_iff_ne_zero.mp hp, false_and, if_false, hfind]
  cases proffered.find? (fun e => decide (e.1 = p)) with
  | none => rfl
  | some e =>
      simp only [Option.map_some, shiftProffered, ← List.map_erase hinj]

theorem emplaceRecordInBin_shift (d : Nat) (s : Pow2Bins) (r : AddressRecord) :
    (s.shift d).emplaceRecordInBin (r.shift d) =
      (s.emplaceRecordInBin r).map (Pow2Bins.shift d) := by
  unfold emplaceRecordInBin
  simp only [Pow2Bins.shift, AddressRecord.shift_size, find_shiftBins, shiftBins_drop,
    shiftBins_take]
  cases s.bins.drop (find r.size s.bins) with
  | nil => rfl
  | cons e rest =>
      simp only [shiftBins_cons, Option.map_some, Pow2Bins.shift, shiftBins_append, List.map_cons]

/-- One request at an iterator, on bins with no record at null: the moved
    state hands out the moved pointer, or null when the original does. -/
theorem doRequestUsing_shift (d : Nat) (s : Pow2Bins) (it : Nat)
    (hpos : ∀ r ∈ binRecords s.bins, 0 < r.address) :
    (s.shift d).doRequestUsing it =
      ((s.doRequestUsing it).1.shift d, movePtr d (s.doRequestUsing it).2) := by
  unfold doRequestUsing
  simp only [Pow2Bins.shift, shiftBins_drop, shiftBins_take]
  cases hd : s.bins.drop it with
  | nil => rfl
  | cons e rest =>
      obtain ⟨k, bin⟩ := e
      -- The bin at the iterator and the bins after it are part of the bins.
      have hsub : ∀ r ∈ bin ++ binRecords rest, 0 < r.address := by
        intro r hr
        refine hpos r ?_
        rw [← List.take_append_drop it s.bins, hd]
        simpa only [binRecords_append, binRecords_cons, List.mem_append] using Or.inr hr
      simp only [shiftBins_cons]
      rw [retrieveRecordFromBin_shift d bin rest hsub]
      generalize retrieveRecordFromBin bin rest = got
      obtain ⟨r, bin', rest'⟩ := got
      -- The moved record is null exactly when the record is.
      by_cases hr : r.address = 0
      · have hmove : r.move d = r := by simp only [AddressRecord.move, hr, if_true]
        simp only [hmove, hr, ne_eq, not_true_eq_false, if_false, movePtr_zero, shiftBins_append,
          shiftBins_cons]
      · have hmove : r.move d = r.shift d := AddressRecord.move_of_pos d (Nat.pos_of_ne_zero hr)
        simp only [hmove, AddressRecord.shift_address, Nat.add_eq_zero_iff, hr, false_and, ne_eq,
          not_false_eq_true, if_true, if_false, emplaceInProffered_shift, shiftBins_append,
          shiftBins_cons, movePtr]

end Pow2Bins

/-- The records of a state satisfying the invariant all lie in the heap, so
    none is at null. -/
theorem Pow2Bins.Inv.address_pos {region : Extent} (hbase : 0 < region.base) {s : Pow2Bins}
    (h : Pow2Bins.Inv region s) : ∀ r ∈ binRecords s.bins, 0 < r.address := by
  intro r hr
  have hmem : r.extent ∈ extents s.records := by
    refine List.mem_map_of_mem ?_
    exact List.mem_append_left _ hr
  exact Pow2Bins.address_pos_of_within hbase (h.packed.within _ hmem)

namespace Pow2Bins

/-- `alloc` on the moved state: both attempts see the same keys and refill
    the same bins, so the moved state hands out the moved pointer. -/
theorem alloc_shift {region : Extent} (hbase : 0 < region.base) (d : Nat) (s : Pow2Bins)
    (n : Nat) (h : Inv region s) :
    (s.shift d).alloc n = ((s.alloc n).1.shift d, movePtr d (s.alloc n).2) := by
  unfold alloc
  split
  · rfl
  · have hfind : find n (s.shift d).bins = find n s.bins := find_shiftBins n d s.bins
    rw [hfind, doRequestUsing_shift d s _ (h.address_pos hbase)]
    dsimp only
    by_cases hz : (s.doRequestUsing (find n s.bins)).2 = 0
    · -- Nothing in the exact bin: the second attempt starts from the state
      -- after the first, which still satisfies the invariant.
      have hinv₁ := (doRequestUsing_spec hbase s (find n s.bins) h).1
      have hlb : lowerBound n ((s.doRequestUsing (find n s.bins)).1.shift d).bins =
          lowerBound n (s.doRequestUsing (find n s.bins)).1.bins := lowerBound_shiftBins ..
      simp only [hz, movePtr_zero, ne_eq, not_true_eq_false, if_false]
      rw [hlb, doRequestUsing_shift d _ _ (hinv₁.address_pos hbase)]
    · have hz' : movePtr d (s.doRequestUsing (find n s.bins)).2 ≠ 0 :=
        (movePtr_eq_zero_iff d _).not.mpr hz
      simp only [hz, hz', ne_eq, not_false_eq_true, if_true]

/-- `free` of a pointer that is not null, on the moved state at the moved
    pointer, gives the moved state. -/
theorem free_shift (d : Nat) (s : Pow2Bins) (p : Nat) (hp : 0 < p) :
    (s.shift d).free (p + d) = (s.free p).map (Pow2Bins.shift d) := by
  unfold free
  simp only [Pow2Bins.shift]
  rw [retrieveFromProffered_shift d s.proffered p hp]
  cases retrieveFromProffered s.proffered p with
  | none => rfl
  | some x =>
      obtain ⟨r, proffered⟩ := x
      exact emplaceRecordInBin_shift d ⟨s.bins, proffered⟩ r

/-- What a successful lookup in `proffered_` found: an entry for the pointer,
    which it erased. -/
theorem retrieveFromProffered_eq_some {proffered : List (Nat × AddressRecord)} {p : Nat}
    {x : AddressRecord × List (Nat × AddressRecord)}
    (h : retrieveFromProffered proffered p = some x) :
    ∃ e ∈ proffered, e.1 = p ∧ x = (e.2, proffered.erase e) := by
  unfold retrieveFromProffered at h
  split at h
  · exact absurd h (Option.some_ne_none x).symm
  · split at h
    · exact absurd h (Option.some_ne_none x).symm
    · rename_i e he
      refine ⟨e, List.mem_of_find?_eq_some he, ?_, (Option.some.inj h).symm⟩
      simpa only [decide_eq_true_eq] using List.find?_some he

/-- A `free` that passes its asserts keeps the invariant: it found the
    pointer in `proffered_`. -/
theorem free_inv {region : Extent} (hbase : 0 < region.base) (s s' : Pow2Bins) (p : Nat)
    (h : Inv region s) (hfree : s.free p = some s') : Inv region s' := by
  have hret : ∃ x, retrieveFromProffered s.proffered p = some x := by
    unfold free at hfree
    split at hfree
    · exact absurd hfree (Option.some_ne_none s').symm
    · exact ⟨_, by assumption⟩
  obtain ⟨x, hx⟩ := hret
  obtain ⟨e, he, hep, -⟩ := retrieveFromProffered_eq_some hx
  obtain ⟨s'', -, hfree', -, -, hinv, -⟩ := free_spec hbase s h p e.2 (by rw [← hep]; exact he)
  rw [hfree, Option.some.injEq] at hfree'
  rw [hfree']
  exact hinv

/-- The constructor on a heap `d` bytes further up, with `d` a multiple of
    `ALIGNMENT`: the Binner trims both heaps alike, so it carves the moved
    records into the same empty bins. -/
theorem init_shift (d heapPtr heapSize : Nat) (hd : d % alignment = 0) (hptr : 0 < heapPtr) :
    init (heapPtr + d) heapSize = (init heapPtr heapSize).map (Pow2Bins.shift d) := by
  unfold init
  cases hb : binnerBins heapSize with
  | none => rfl
  | some bins =>
      have hempty := (binnerBins_spec heapSize bins hb).2.2
      have hchunk : 0 < (ignoreUnalignedHeapMemory ⟨heapPtr, heapSize⟩).address :=
        Nat.lt_of_lt_of_le hptr (le_ignoreUnalignedHeapMemory_address ⟨heapPtr, heapSize⟩)
      have hcarve : assignHeapToBins bins ⟨heapPtr + d, heapSize⟩ =
          shiftBins d (assignHeapToBins bins ⟨heapPtr, heapSize⟩) := by
        calc assignHeapToBins bins ⟨heapPtr + d, heapSize⟩
            = assignHeapMemoryToBins (heapSize + 1) (shiftBins d bins)
                ((ignoreUnalignedHeapMemory ⟨heapPtr, heapSize⟩).move d) := by
              rw [shiftBins_of_empty d bins hempty, AddressRecord.move_of_pos d hchunk,
                ← ignoreUnalignedHeapMemory_shift d _ hd]
              rfl
          _ = shiftBins d (assignHeapToBins bins ⟨heapPtr, heapSize⟩) :=
              assignHeapMemoryToBins_shift d _ bins _
      simp only [Nat.add_eq_zero_iff, Nat.pos_iff_ne_zero.mp hptr, false_and, if_false,
        Option.map_some, hcarve]
      rfl

end Pow2Bins

/-! ### The heap and whole runs -/

namespace SingleHeap

theorem malloc_shift {region : Extent} (hbase : 0 < region.base) (d : Nat) (h : SingleHeap)
    (n : Nat) (hinv : Pow2Bins.Inv region h.strat) :
    (h.shift d).malloc n = ((h.malloc n).1.shift d, movePtr d (h.malloc n).2) := by
  simp only [malloc, SingleHeap.shift, Pow2Bins.alloc_shift hbase d h.strat n hinv]

/-- `free` of the moved pointer: `nullptr` on both heaps, or the moved free. -/
theorem free_shift (d : Nat) (h : SingleHeap) (p : Nat) :
    (h.shift d).free (movePtr d p) = (h.free p).map (SingleHeap.shift d) := by
  unfold free
  by_cases hp : p = 0
  · simp only [hp, movePtr_zero, if_true, Option.map_some]
  · have hmove : movePtr d p = p + d := by simp only [movePtr, hp, if_false]
    simp only [hmove, Nat.add_eq_zero_iff, hp, false_and, if_false, SingleHeap.shift,
      Pow2Bins.free_shift d h.strat p (Nat.pos_of_ne_zero hp), Option.map_map]
    rfl

end SingleHeap

/-- The run lemma: issuing the same calls on the moved heap, with the moved
    pointers, is the moved run. The induction is over the calls, carrying the
    invariant of the original heap so that no record sits at null. -/
theorem runHeapCalls_shift {region : Extent} (hbase : 0 < region.base) (d : Nat)
    (calls : List HeapCall) : ∀ (h : SingleHeap) (ptrs : List Nat),
    Pow2Bins.Inv region h.strat →
    runHeapCalls (h.shift d) (ptrs.map (movePtr d)) calls =
      (runHeapCalls h ptrs calls).map fun r => (r.1.shift d, r.2.map (movePtr d)) := by
  induction calls with
  | nil => intro h ptrs _; rfl
  | cons call calls ih =>
      intro h ptrs hinv
      cases call with
      | malloc size =>
          have hinv' : Pow2Bins.Inv region (h.malloc size).1.strat :=
            (Pow2Bins.alloc_spec hbase h.strat size hinv).1
          simp only [runHeapCalls, SingleHeap.malloc_shift hbase d h size hinv]
          rw [← ih _ _ hinv', List.map_append, List.map_singleton]
      | free j =>
          -- The `j`-th pointer on the moved heap is the moved `j`-th pointer.
          have hget : (ptrs.map (movePtr d)).getD j 0 = movePtr d (ptrs.getD j 0) := by
            simp only [List.getD_eq_getElem?_getD, List.getElem?_map]
            cases ptrs[j]? <;> rfl
          simp only [runHeapCalls, hget, SingleHeap.free_shift]
          cases hfree : h.free (ptrs.getD j 0) with
          | none => rfl
          | some h' =>
              -- A successful free keeps the invariant, or changes nothing.
              have hinv' : Pow2Bins.Inv region h'.strat := by
                unfold SingleHeap.free at hfree
                split at hfree
                · rw [← Option.some.inj hfree]
                  exact hinv
                · obtain ⟨s', hs', rfl⟩ := Option.map_eq_some_iff.mp hfree
                  exact Pow2Bins.free_inv hbase h.strat s' _ hinv hs'
              exact ih h' ptrs hinv'

/-- Whole runs from construction: a heap placed `d` bytes further up, with
    `d` a multiple of `ALIGNMENT`, runs the same calls as the moved run. -/
theorem runHeap_shift (d heapPtr heapSize : Nat) (hd : d % alignment = 0) (hptr : 0 < heapPtr)
    (calls : List HeapCall) :
    runHeap (heapPtr + d) heapSize calls =
      (runHeap heapPtr heapSize calls).map fun r => (r.1.shift d, r.2.map (movePtr d)) := by
  unfold runHeap SingleHeap.init
  rw [Pow2Bins.init_shift d heapPtr heapSize hd hptr]
  cases hinit : Pow2Bins.init heapPtr heapSize with
  | none => rfl
  | some s =>
      have hinv := Pow2Bins.init_inv heapPtr heapSize s hinit
      have hstart : SingleHeap.shift d ⟨⟨heapPtr, heapSize⟩, s⟩ =
          ⟨⟨heapPtr + d, heapSize⟩, s.shift d⟩ := rfl
      simp only [Option.map_some, Option.bind_some]
      rw [← hstart, ← List.map_nil]
      exact runHeapCalls_shift hinv.1 d calls _ [] hinv.2

/-- A pointer moved by `d` has the same offset from a base moved by `d`. -/
theorem heapOffset_movePtr (d base p : Nat) :
    heapOffset (base + d) (movePtr d p) = heapOffset base p := by
  unfold heapOffset movePtr
  by_cases hp : p = 0
  · simp only [hp, if_true]
  · simp only [hp, if_false, Nat.add_eq_zero_iff, false_and, Option.some.injEq]
    push_cast
    omega

/-- Offsets on the heap at `base` of a run on the heap at `base + d`. -/
theorem runHeap_offsets (d base heapSize : Nat) (hd : d % alignment = 0) (hbase : 0 < base)
    (calls : List HeapCall) :
    (runHeap (base + d) heapSize calls).map (fun r => r.2.map (heapOffset (base + d))) =
      (runHeap base heapSize calls).map (fun r => r.2.map (heapOffset base)) := by
  rw [runHeap_shift d base heapSize hd hbase calls, Option.map_map]
  congr 1
  funext r
  simp only [Function.comp_apply, List.map_map, Function.comp_def, heapOffset_movePtr]

/-- Symmetric heap allocations land at the same offset on every PE. Two PEs
    with heaps of the same size whose bases agree modulo `ALIGNMENT` issue
    the same `malloc` and `free` calls: both runs pass their asserts or both
    fail, and each `malloc` returns null on both or pointers at the same
    offset from their bases. Moreover the heap further up is the other one
    with every address moved by the difference of the bases, after
    construction and after every call. -/
theorem symmetric_heap_same_offsets (baseA baseB heapSize : Nat) (hA : 0 < baseA) (hB : 0 < baseB)
    (hcong : baseA % alignment = baseB % alignment) (calls : List HeapCall) :
    (runHeap baseA heapSize calls).map (fun r => r.2.map (heapOffset baseA)) =
        (runHeap baseB heapSize calls).map (fun r => r.2.map (heapOffset baseB)) ∧
      (baseA ≤ baseB → runHeap baseB heapSize calls =
        (runHeap baseA heapSize calls).map
          fun r => (r.1.shift (baseB - baseA), r.2.map (movePtr (baseB - baseA)))) := by
  -- The bases differ by a multiple of the alignment, whichever is higher.
  have hdiv : ∀ a b, a ≤ b → a % alignment = b % alignment → (b - a) % alignment = 0 := by
    intro a b hab hmod
    simp only [alignment] at hmod ⊢
    omega
  refine ⟨?_, ?_⟩
  · rcases Nat.le_total baseA baseB with hle | hle
    · have hsum : baseB = baseA + (baseB - baseA) := by omega
      rw [hsum]
      exact (runHeap_offsets _ baseA heapSize (hdiv _ _ hle hcong) hA calls).symm
    · have hsum : baseA = baseB + (baseA - baseB) := by omega
      rw [hsum]
      exact runHeap_offsets _ baseB heapSize (hdiv _ _ hle hcong.symm) hB calls
  · intro hle
    have hsum : baseB = baseA + (baseB - baseA) := by omega
    conv_lhs => rw [hsum]
    exact runHeap_shift _ baseA heapSize (hdiv _ _ hle hcong) hA calls

/-- Two heaps of 1024 bytes at 128 and at 384 running two mallocs, a free
    of the first pointer and a third malloc. -/
theorem symmetric_heap_same_offsets_at_128_and_384 :
    (runHeap 128 1024 [.malloc 100, .malloc 200, .free 0, .malloc 50]).map
          (fun r => r.2.map (heapOffset 128)) =
        (runHeap 384 1024 [.malloc 100, .malloc 200, .free 0, .malloc 50]).map
          (fun r => r.2.map (heapOffset 384)) ∧
      (128 ≤ 384 → runHeap 384 1024 [.malloc 100, .malloc 200, .free 0, .malloc 50] =
        (runHeap 128 1024 [.malloc 100, .malloc 200, .free 0, .malloc 50]).map
          fun r => (r.1.shift (384 - 128), r.2.map (movePtr (384 - 128)))) :=
  symmetric_heap_same_offsets 128 384 1024 (by decide) (by decide) (by decide) _

-- The offsets themselves: the first block is split down to 128 bytes, the
-- second comes from the 256-byte half left over, and the freed block is reused.
example : (runHeap 384 1024 [.malloc 100, .malloc 200, .free 0, .malloc 50]).map
    (fun r => r.2.map (heapOffset 384)) = some [some 0, some 256, some 0] := by
  decide

end RocShmem
