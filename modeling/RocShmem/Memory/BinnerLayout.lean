import RocShmem.Memory.Binner

/-!
# The Heap Layout the Binner Builds

The Binner creates one empty bin for each power of two from `ALIGNMENT` up
to the largest power of two in the heap size, then carves the heap into
them. It skips to the first aligned address, and while the chunk left has a
non-null address it puts the largest bin-sized piece of it into that bin and
keeps the rest (`assign_heap_chunk`). This module says what the carving
places: records lying one after another from the aligned start, of strictly
decreasing power-of-two sizes, each at an offset that is a multiple of its
own size, one per bin at most, and together the aligned size rounded down to
`ALIGNMENT` (`binner_heap_decomposition`).

The loop carries an invariant over the records placed so far, in the order
they were placed (`CarveInv`). What it needs of the keys is collected in
`KeyLadder`: they increase, are powers of two and multiples of `ALIGNMENT`,
start at `ALIGNMENT`, and each key's double is a key unless it exceeds the
whole heap. The largest key that fits a chunk is then more than half of it,
so the chunk left is smaller than every record placed; that makes the sizes
decrease, and since every earlier record is a larger power of two, it makes
the next offset a multiple of the next size.

The loop is run with fuel in the model. The chunk's size is below the fuel
and falls by a whole bin every round, so the loop stops by its own test, and
any larger fuel gives the same bins (`assignHeapMemoryToBins_fuel_stable`).

## Main definitions

* `Contiguous`: Records lying one after another from an address.
* `binKeys`: The powers of two from `ALIGNMENT` to the heap size's top bit.
* `KeyLadder`: What the carving needs of the keys.
* `CarveInv`: The carving loop's invariant.

## Theorems

* `binnerBins_eq`: The constructor creates exactly the bins of `binKeys`.
* `largestFitting_max`, `largestFitting_eq_none`: The search finds the
  largest key that fits.
* `CarveInv.step`, `carve_run`: One round and the whole loop.
* `assignHeapMemoryToBins_fuel_stable`: More fuel changes nothing.
* `binner_heap_decomposition`: The layout of a carved heap.
-/

namespace RocShmem

/-- The records lie one after another from address `a`. -/
def Contiguous : Nat → List AddressRecord → Prop
  | _, [] => True
  | a, r :: rs => r.address = a ∧ Contiguous (a + r.size) rs

theorem contiguous_append_singleton (a : Nat) (rs : List AddressRecord) (r : AddressRecord) :
    Contiguous a (rs ++ [r]) ↔
      Contiguous a rs ∧ r.address = a + (rs.map AddressRecord.size).sum := by
  induction rs generalizing a with
  | nil => simp [Contiguous]
  | cons r' rs ih =>
    simp only [List.cons_append, Contiguous, ih, List.map_cons, List.sum_cons, Nat.add_assoc]
    exact and_assoc.symm

/-- The bin sizes the Binner creates: `2 ^ k` for
    `log2(ALIGNMENT) ≤ k ≤ floor(log2(heap_size))`. -/
def binKeys (heapSize : Nat) : List Nat :=
  (List.range' (Nat.log2 alignment) (Nat.log2 heapSize + 1 - Nat.log2 alignment)).map (2 ^ ·)

theorem mem_binKeys {heapSize k : Nat} :
    k ∈ binKeys heapSize ↔
      ∃ j, Nat.log2 alignment ≤ j ∧ j ≤ Nat.log2 heapSize ∧ k = 2 ^ j := by
  simp only [binKeys, List.mem_map, List.mem_range']
  constructor
  · rintro ⟨j, ⟨i, hi, rfl⟩, rfl⟩
    exact ⟨Nat.log2 alignment + 1 * i, by omega, by omega, rfl⟩
  · rintro ⟨j, hlo, hhi, rfl⟩
    exact ⟨j, ⟨j - Nat.log2 alignment, by omega, by omega⟩, rfl⟩

/-- The constructor creates exactly the empty bins of `binKeys`, for a
    `size_t` heap size whose top bit is at or above `ALIGNMENT`'s. -/
theorem binnerBins_eq {heapSize : Nat} (h64 : heapSize < 2 ^ 64)
    (hsize : Nat.log2 alignment ≤ Nat.log2 heapSize) :
    binnerBins heapSize = some ((binKeys heapSize).map fun k => (k, [])) := by
  have halign : Nat.log2 alignment = 7 := by decide
  have hne : heapSize ≠ 0 := by
    rintro rfl
    simp [halign] at hsize
  have htop : Nat.log2 heapSize < 64 := (Nat.log2_lt hne).2 h64
  have hheap : findFirstSetOne heapSize = Nat.log2 heapSize := by simp [findFirstSetOne, hne]
  have halign' : findFirstSetOne alignment = Nat.log2 alignment := by decide
  unfold binnerBins
  simp only [hheap, halign']
  rw [if_neg (by simp only [uintMax]; omega)]
  simp only [binKeys, List.map_map, List.range'_eq_map_range]
  rw [show Nat.log2 heapSize - Nat.log2 alignment + 1 =
    Nat.log2 heapSize + 1 - Nat.log2 alignment by omega]
  rfl

/-- What the carving needs of the keys, for a heap of `S` bytes. -/
structure KeyLadder (keys : List Nat) (S : Nat) : Prop where
  sorted : keys.Pairwise (· < ·)
  pow2 : ∀ k ∈ keys, ∃ j, k = 2 ^ j
  align_mem : alignment ∈ keys
  align_dvd : ∀ k ∈ keys, alignment ∣ k
  closed : ∀ k ∈ keys, 2 * k ∈ keys ∨ S < 2 * k

/-- The keys of a ladder are positive. -/
theorem KeyLadder.pos {keys : List Nat} {S : Nat} (h : KeyLadder keys S) : ∀ k ∈ keys, 0 < k := by
  intro k hk
  obtain ⟨j, rfl⟩ := h.pow2 k hk
  exact Nat.two_pow_pos j

/-- Of two keys of a ladder the smaller divides the larger: both are powers
    of two. -/
theorem KeyLadder.dvd_of_le {keys : List Nat} {S k k' : Nat} (h : KeyLadder keys S)
    (hk : k ∈ keys) (hk' : k' ∈ keys) (hle : k ≤ k') : k ∣ k' := by
  obtain ⟨i, rfl⟩ := h.pow2 k hk
  obtain ⟨j, rfl⟩ := h.pow2 k' hk'
  exact Nat.pow_dvd_pow 2 ((Nat.pow_le_pow_iff_right (by norm_num)).1 hle)

/-- Records of one size in strictly decreasing order of size are at most
    one. -/
theorem length_le_one_of_pairwise_size {l : List AddressRecord} {c : Nat}
    (hp : l.Pairwise fun r r' => r'.size < r.size) (hc : ∀ r ∈ l, r.size = c) :
    l.length ≤ 1 := by
  match l, hp, hc with
  | [], _, _ => simp
  | [_], _, _ => simp
  | r :: r' :: rest, hp, hc =>
    have hlt := (List.pairwise_cons.1 hp).1 r' List.mem_cons_self
    have h₁ := hc r List.mem_cons_self
    have h₂ := hc r' (List.mem_cons_of_mem _ List.mem_cons_self)
    omega

/-- The Binner's keys are a ladder for every aligned size up to the heap
    size. -/
theorem binKeys_keyLadder {heapSize S : Nat} (hsize : Nat.log2 alignment ≤ Nat.log2 heapSize)
    (hS : S ≤ heapSize) : KeyLadder (binKeys heapSize) S := by
  have halign : Nat.log2 alignment = 7 := by decide
  have hne : heapSize ≠ 0 := by
    rintro rfl
    simp [halign] at hsize
  refine ⟨?_, ?_, ?_, ?_, ?_⟩
  · -- the exponents increase, and so do their powers
    refine List.Pairwise.map _ (fun a b hab => ?_) (List.pairwise_lt_range' ..)
    exact Nat.pow_lt_pow_right (by norm_num) hab
  · intro k hk
    rcases mem_binKeys.1 hk with ⟨j, -, -, rfl⟩
    exact ⟨j, rfl⟩
  · exact mem_binKeys.2 ⟨7, by omega, by omega, rfl⟩
  · intro k hk
    rcases mem_binKeys.1 hk with ⟨j, hlo, -, rfl⟩
    rw [show alignment = 2 ^ 7 from rfl]
    exact Nat.pow_dvd_pow 2 (by omega)
  · intro k hk
    rcases mem_binKeys.1 hk with ⟨j, hlo, hhi, rfl⟩
    by_cases htop : j = Nat.log2 heapSize
    · -- the top key's double passes the heap size
      right
      subst htop
      have := Nat.lt_log2_self (n := heapSize)
      rw [Nat.pow_succ] at this
      omega
    · left
      exact mem_binKeys.2 ⟨j + 1, by omega, by omega, by rw [Nat.pow_succ]; ring⟩

section Search

/-- A chunk no key fits becomes the null record. -/
theorem assignHeapChunk_of_none (bins : Bins) (chunk : AddressRecord)
    (h : largestFitting chunk.size bins = none) :
    assignHeapChunk bins chunk = (bins, AddressRecord.empty) := by
  simp [assignHeapChunk, h]

/-- A chunk the key `k` fits gives its first `k` bytes to the bin of `k`. -/
theorem assignHeapChunk_of_some (bins : Bins) (chunk : AddressRecord) {k : Nat}
    (h : largestFitting chunk.size bins = some k) :
    assignHeapChunk bins chunk =
      (putInBin k ⟨chunk.address, k⟩ bins, ⟨chunk.address + k, chunk.size - k⟩) := by
  simp [assignHeapChunk, h]

/-- One round of the loop on a chunk with a non-null address. -/
theorem assignHeapMemoryToBins_succ (fuel : Nat) (bins : Bins) (chunk : AddressRecord)
    (h : chunk.address ≠ 0) :
    assignHeapMemoryToBins (fuel + 1) bins chunk =
      assignHeapMemoryToBins fuel (assignHeapChunk bins chunk).1
        (assignHeapChunk bins chunk).2 := by
  simp [assignHeapMemoryToBins, h]

/-- The search fails only when every key is larger than the chunk. -/
theorem largestFitting_eq_none {size : Nat} {bins : Bins} (h : largestFitting size bins = none) :
    ∀ k ∈ bins.map Prod.fst, size < k := by
  induction bins with
  | nil => simp
  | cons e rest ih =>
    simp only [largestFitting] at h
    split at h
    · exact absurd h (Option.some_ne_none _)
    · rename_i hrest
      split at h
      · exact absurd h (Option.some_ne_none _)
      · rename_i hlt
        intro k hk
        rcases List.mem_cons.1 hk with rfl | hk
        · omega
        · exact ih hrest k hk

/-- With increasing keys the search finds the largest key that fits. -/
theorem largestFitting_max {size k : Nat} {bins : Bins}
    (hsorted : (bins.map Prod.fst).Pairwise (· < ·)) (h : largestFitting size bins = some k) :
    ∀ k' ∈ bins.map Prod.fst, k' ≤ size → k' ≤ k := by
  induction bins with
  | nil => simp
  | cons e rest ih =>
    simp only [List.map_cons, List.pairwise_cons] at hsorted
    simp only [largestFitting] at h
    split at h
    · -- a later key fits, and every earlier key is smaller
      rename_i k₀ hrest
      rw [Option.some.inj h] at hrest
      intro k' hk' hle
      rcases List.mem_cons.1 hk' with rfl | hk'
      · exact le_of_lt (hsorted.1 k (largestFitting_spec size rest k hrest).1)
      · exact ih hsorted.2 hrest k' hk' hle
    · rename_i hrest
      split at h
      · rw [← Option.some.inj h]
        intro k' hk' hle
        rcases List.mem_cons.1 hk' with rfl | hk'
        · exact le_refl _
        · exact absurd hle (not_le.2 (largestFitting_eq_none hrest k' hk'))
      · exact absurd h (Option.some_ne_none _).symm

end Search

/-- With distinct keys, a put changes the one bin of its key. -/
theorem putInBin_eq_map (k : Nat) (r : AddressRecord) (bins : Bins)
    (hnodup : (bins.map Prod.fst).Nodup) :
    putInBin k r bins = bins.map fun e => if e.1 = k then (e.1, r :: e.2) else e := by
  induction bins with
  | nil => rfl
  | cons e rest ih =>
    simp only [List.map_cons, List.nodup_cons, List.mem_map] at hnodup
    simp only [putInBin, List.map_cons]
    split
    · rename_i hk
      -- no later bin has the key
      have hrest : rest.map (fun e => if e.1 = k then (e.1, r :: e.2) else e) = rest := by
        refine (List.map_congr_left fun e' he' => ?_).trans (List.map_id rest)
        refine if_neg fun hk' => hnodup.1 ⟨e', he', ?_⟩
        rw [hk', hk]
      simp [hk, hrest]
    · simp [ih hnodup.2]

/-- The carving loop's invariant, for the aligned start `A` and size `S`:
    the bins hold exactly the records `rs` placed so far, of their own sizes,
    the records lie one after another from `A`, their sizes decrease and are
    keys larger than the chunk `s` left, each sits at an offset that is a
    multiple of its size, and the records and the chunk make up the heap. -/
structure CarveInv (A S : Nat) (keys : List Nat) (bins : Bins) (s : Nat)
    (rs : List AddressRecord) : Prop where
  keys_eq : bins.map Prod.fst = keys
  placed : ∀ e ∈ bins, e.2 = rs.filter fun r => r.size = e.1
  contiguous : Contiguous A rs
  conserve : (rs.map AddressRecord.size).sum + s = S
  decreasing : rs.Pairwise fun r r' => r'.size < r.size
  above : ∀ r ∈ rs, s < r.size
  sizes : ∀ r ∈ rs, r.size ∈ keys
  offset : ∀ r ∈ rs, (r.address - A) % r.size = 0

section Carve

variable {A S : Nat} {keys : List Nat} (hladder : KeyLadder keys S)

include hladder

omit hladder in
/-- Empty bins with the ladder's keys start the loop, with the whole aligned
    heap as the chunk. -/
theorem carveInv_init : CarveInv A S keys (keys.map fun k => (k, [])) S [] := by
  refine ⟨by simp [Function.comp_def], ?_, trivial, by simp, List.Pairwise.nil, by simp, by simp,
    by simp⟩
  intro e he
  rcases List.mem_map.1 he with ⟨k, -, rfl⟩
  rfl

/-- One round: the largest key `k` that fits the chunk gets the piece at the
    chunk's start, and the chunk shrinks by `k`. -/
theorem CarveInv.step {bins : Bins} {s k : Nat} {rs : List AddressRecord}
    (hinv : CarveInv A S keys bins s rs) (hfit : largestFitting s bins = some k) :
    CarveInv A S keys (putInBin k ⟨A + (rs.map AddressRecord.size).sum, k⟩ bins) (s - k)
      (rs ++ [⟨A + (rs.map AddressRecord.size).sum, k⟩]) := by
  have hsorted : (bins.map Prod.fst).Pairwise (· < ·) := hinv.keys_eq ▸ hladder.sorted
  rcases largestFitting_spec s bins k hfit with ⟨hkmem, hks⟩
  rw [hinv.keys_eq] at hkmem
  -- the key fits more than half the chunk: its double is larger or too big
  have hhalf : s < 2 * k := by
    rcases hladder.closed k hkmem with hdouble | hbig
    · by_contra hle
      have := largestFitting_max hsorted hfit (2 * k) (hinv.keys_eq ▸ hdouble) (by omega)
      have hpos := hladder.pos k hkmem
      omega
    · have := hinv.conserve
      omega
  -- the key divides every earlier, larger size
  have hdvd : ∀ r ∈ rs, k ∣ r.size := fun r hr =>
    hladder.dvd_of_le hkmem (hinv.sizes r hr) (le_of_lt (lt_of_le_of_lt hks (hinv.above r hr)))
  have hnone : rs.filter (fun r => r.size = k) = [] := by
    refine List.filter_eq_nil_iff.2 fun r hr heq => ?_
    have := hinv.above r hr
    simp only [decide_eq_true_eq] at heq
    omega
  refine ⟨?_, ?_, ?_, ?_, ?_, ?_, ?_, ?_⟩
  · rw [putInBin_keys, hinv.keys_eq]
  · rw [putInBin_eq_map _ _ _ (hinv.keys_eq ▸ hladder.sorted.nodup)]
    intro e' he'
    rcases List.mem_map.1 he' with ⟨e, he, rfl⟩
    by_cases hk : e.1 = k
    · -- the bin of `k` held nothing, and now holds the new record
      have he2 : e.2 = [] := by rw [hinv.placed e he, hk, hnone]
      simp [hk, he2, hnone]
    · -- every other bin keeps its records: the new one has another size
      simp only [hk, if_false, List.filter_append]
      simp [Ne.symm hk, ← hinv.placed e he]
  · exact (contiguous_append_singleton _ _ _).2 ⟨hinv.contiguous, rfl⟩
  · have := hinv.conserve
    simp only [List.map_append, List.map_cons, List.map_nil, List.sum_append, List.sum_cons,
      List.sum_nil]
    omega
  · refine List.pairwise_append.2 ⟨hinv.decreasing, List.pairwise_singleton _ _, ?_⟩
    intro r hr r' hr'
    rw [List.mem_singleton.1 hr']
    exact lt_of_le_of_lt hks (hinv.above r hr)
  · intro r hr
    rcases List.mem_append.1 hr with hr | hr
    · have := hinv.above r hr
      omega
    · rw [List.mem_singleton.1 hr]
      show s - k < k
      omega
  · intro r hr
    rcases List.mem_append.1 hr with hr | hr
    · exact hinv.sizes r hr
    · rw [List.mem_singleton.1 hr]
      exact hkmem
  · intro r hr
    rcases List.mem_append.1 hr with hr | hr
    · exact hinv.offset r hr
    · rw [List.mem_singleton.1 hr]
      show (A + (rs.map AddressRecord.size).sum - A) % k = 0
      rw [Nat.add_sub_cancel_left]
      refine Nat.mod_eq_zero_of_dvd (List.dvd_sum fun x hx => ?_)
      rcases List.mem_map.1 hx with ⟨r, hr, rfl⟩
      exact hdvd r hr

/-- The whole loop from a chunk at the end of the records placed so far: it
    stops with a chunk smaller than `ALIGNMENT`, and the invariant holds of
    the bins it leaves, for some records extending the ones placed. -/
theorem carve_run (hA : 0 < A) (fuel : Nat) (bins : Bins) (s : Nat) (rs : List AddressRecord)
    (hinv : CarveInv A S keys bins s rs) (hfuel : s < fuel) :
    ∃ rs' s', CarveInv A S keys
      (assignHeapMemoryToBins fuel bins ⟨A + (rs.map AddressRecord.size).sum, s⟩) s' rs' ∧
      s' < alignment := by
  induction fuel generalizing bins s rs with
  | zero => omega
  | succ fuel ih =>
    rw [assignHeapMemoryToBins_succ _ _ _ (by dsimp only; omega)]
    cases hfit : largestFitting s bins with
    | none =>
      -- no key fits: the chunk is below the smallest key, and the loop ends
      rw [assignHeapChunk_of_none bins ⟨_, s⟩ hfit, assignHeapMemoryToBins_empty]
      refine ⟨rs, s, hinv, ?_⟩
      exact largestFitting_eq_none hfit _ (hinv.keys_eq ▸ hladder.align_mem)
    | some k =>
      have hk := largestFitting_spec s bins k hfit
      have hpos : 0 < k := by
        rcases hladder.pow2 k (hinv.keys_eq ▸ hk.1) with ⟨j, rfl⟩
        exact Nat.two_pow_pos j
      have hnext : A + (rs.map AddressRecord.size).sum + k =
          A + ((rs ++ [(⟨A + (rs.map AddressRecord.size).sum, k⟩ : AddressRecord)]).map
            AddressRecord.size).sum := by
        simp only [List.map_append, List.map_cons, List.map_nil, List.sum_append,
          List.sum_cons, List.sum_nil]
        omega
      rw [assignHeapChunk_of_some bins ⟨_, s⟩ hfit]
      dsimp only
      rw [hnext]
      exact ih _ _ _ (hinv.step hladder hfit) (by omega)

end Carve

/-- More fuel than the chunk's size changes nothing: the loop stops by its
    own test first, since every round takes a positive key off the chunk. -/
theorem assignHeapMemoryToBins_fuel_stable (fuel fuel' : Nat) (bins : Bins)
    (chunk : AddressRecord) (hpos : ∀ k ∈ bins.map Prod.fst, 0 < k)
    (hfuel : chunk.size < fuel) (hle : fuel ≤ fuel') :
    assignHeapMemoryToBins fuel' bins chunk = assignHeapMemoryToBins fuel bins chunk := by
  induction fuel generalizing fuel' bins chunk with
  | zero => omega
  | succ fuel ih =>
    obtain ⟨fuel', rfl⟩ : ∃ f, fuel' = f + 1 := ⟨fuel' - 1, by omega⟩
    by_cases hzero : chunk.address = 0
    · simp [assignHeapMemoryToBins, hzero]
    · rw [assignHeapMemoryToBins_succ _ _ _ hzero, assignHeapMemoryToBins_succ _ _ _ hzero]
      cases hfit : largestFitting chunk.size bins with
      | none =>
        rw [assignHeapChunk_of_none bins chunk hfit, assignHeapMemoryToBins_empty,
          assignHeapMemoryToBins_empty]
      | some k =>
        have hk := largestFitting_spec chunk.size bins k hfit
        have hkpos := hpos k hk.1
        rw [assignHeapChunk_of_some bins chunk hfit]
        refine ih _ _ _ ?_ (by dsimp only; omega) (by omega)
        rw [putInBin_keys]
        exact hpos

/-- A heap size with at least the bits of `ALIGNMENT` is at least
    `ALIGNMENT`. -/
theorem alignment_le_of_log2_le {heapSize : Nat}
    (hsize : Nat.log2 alignment ≤ Nat.log2 heapSize) : alignment ≤ heapSize := by
  have halign : Nat.log2 alignment = 7 := by decide
  have hne : heapSize ≠ 0 := by
    rintro rfl
    simp [halign] at hsize
  have := (Nat.le_log2 hne).1 (halign ▸ hsize)
  simpa [alignment] using this

/-- Skipping the unaligned prefix of a heap of at least `ALIGNMENT` bytes
    moves its start to an aligned address less than `ALIGNMENT` on, and
    keeps its end. -/
theorem ignoreUnalignedHeapMemory_bounds (heap : AddressRecord) (hbig : alignment ≤ heap.size) :
    (ignoreUnalignedHeapMemory heap).address % alignment = 0 ∧
      heap.address ≤ (ignoreUnalignedHeapMemory heap).address ∧
      (ignoreUnalignedHeapMemory heap).address < heap.address + alignment ∧
      (ignoreUnalignedHeapMemory heap).address + (ignoreUnalignedHeapMemory heap).size =
        heap.address + heap.size := by
  refine ⟨ignoreUnalignedHeapMemory_base_mod heap, le_ignoreUnalignedHeapMemory_address heap, ?_⟩
  unfold ignoreUnalignedHeapMemory
  dsimp only
  simp only [alignment] at hbig ⊢
  by_cases hoff : heap.address % 128 = 0
  · simp [hoff]
  · -- the start moves up to the next multiple of `ALIGNMENT`, within the heap
    simp only [hoff, ne_eq, not_false_eq_true, if_true]
    omega

/-- The Binner's decomposition of a heap. For a non-null base (the
    constructor's assert) and a `size_t` size whose top bit is at or above
    `ALIGNMENT`'s: the constructor creates exactly the empty bins `2 ^ k` for
    `log2(ALIGNMENT) ≤ k ≤ floor(log2(size))`; the carving starts at the
    first aligned address and covers the heap up to its end; the loop stops
    by its own test; and the bins end up holding, at most one per bin, a
    sequence of records that lie one after another from the aligned start,
    have strictly decreasing power-of-two sizes, each at an offset that is a
    multiple of its size, and together make up the aligned size rounded down
    to `ALIGNMENT`. -/
theorem binner_heap_decomposition (heapPtr heapSize : Nat) (hptr : heapPtr ≠ 0)
    (h64 : heapSize < 2 ^ 64) (hsize : Nat.log2 alignment ≤ Nat.log2 heapSize) :
    let heap := ignoreUnalignedHeapMemory ⟨heapPtr, heapSize⟩
    let bins := (binKeys heapSize).map fun k => (k, [])
    binnerBins heapSize = some bins ∧
    heap.address % alignment = 0 ∧ heapPtr ≤ heap.address ∧
      heap.address < heapPtr + alignment ∧ heap.address + heap.size = heapPtr + heapSize ∧
    (∀ fuel, heapSize + 1 ≤ fuel →
      assignHeapMemoryToBins fuel bins heap = assignHeapToBins bins ⟨heapPtr, heapSize⟩) ∧
    ∃ rs : List AddressRecord,
      (∀ e ∈ assignHeapToBins bins ⟨heapPtr, heapSize⟩,
        e.2 = rs.filter (fun r => r.size = e.1) ∧ e.2.length ≤ 1) ∧
      Contiguous heap.address rs ∧
      rs.Pairwise (fun r r' => r'.size < r.size) ∧
      (∀ r ∈ rs, (∃ j, r.size = 2 ^ j) ∧ (r.address - heap.address) % r.size = 0) ∧
      (rs.map AddressRecord.size).sum = heap.size / alignment * alignment := by
  intro heap bins
  have hbig := alignment_le_of_log2_le hsize
  -- the aligned start and the aligned size
  have hstart : heap.address % alignment = 0 ∧ heapPtr ≤ heap.address ∧
      heap.address < heapPtr + alignment ∧ heap.address + heap.size = heapPtr + heapSize :=
    ignoreUnalignedHeapMemory_bounds ⟨heapPtr, heapSize⟩ hbig
  rcases hstart with ⟨hmod, hlo, hhi, hend⟩
  have hladder : KeyLadder (binKeys heapSize) heap.size := binKeys_keyLadder hsize (by omega)
  have hkeys : bins.map Prod.fst = binKeys heapSize := by simp [bins, Function.comp_def]
  have hrun : assignHeapToBins bins ⟨heapPtr, heapSize⟩ =
      assignHeapMemoryToBins (heapSize + 1) bins
        ⟨heap.address + (([] : List AddressRecord).map AddressRecord.size).sum, heap.size⟩ := by
    simp [assignHeapToBins, heap]
  refine ⟨binnerBins_eq h64 hsize, hmod, hlo, hhi, hend, fun fuel hfuel => ?_, ?_⟩
  · -- the loop stops before the fuel runs out
    refine assignHeapMemoryToBins_fuel_stable (heapSize + 1) fuel bins heap ?_ (by omega) hfuel
    rw [hkeys]
    exact hladder.pos
  · rcases carve_run (A := heap.address) hladder (by omega) (heapSize + 1) bins heap.size []
      carveInv_init (by omega) with ⟨rs, s', hinv, hs'⟩
    rw [← hrun] at hinv
    -- every size is a multiple of `ALIGNMENT`, and less than `ALIGNMENT` is left
    have hdvd : alignment ∣ (rs.map AddressRecord.size).sum := by
      refine List.dvd_sum fun x hx => ?_
      rcases List.mem_map.1 hx with ⟨r, hr, rfl⟩
      exact hladder.align_dvd _ (hinv.sizes r hr)
    refine ⟨rs, fun e he => ⟨hinv.placed e he, ?_⟩, hinv.contiguous, hinv.decreasing,
      fun r hr => ⟨?_, hinv.offset r hr⟩, ?_⟩
    · -- the sizes are distinct, so a bin holds at most one record
      rw [hinv.placed e he]
      refine length_le_one_of_pairwise_size (c := e.1) (hinv.decreasing.filter _) fun r hr => ?_
      simpa using (List.mem_filter.1 hr).2
    · rcases hladder.pow2 _ (hinv.sizes r hr) with ⟨j, hj⟩
      exact ⟨j, hj⟩
    · have hcons := hinv.conserve
      rcases hdvd with ⟨q, hq⟩
      rw [hq] at hcons ⊢
      simp only [alignment] at hcons hs' ⊢
      omega

/-- A 1000-byte heap at address 1: carving starts at 128 and places 768 of
    the 873 aligned bytes. -/
theorem binner_heap_decomposition_misaligned :
    ∃ rs : List AddressRecord, Contiguous 128 rs ∧ rs.Pairwise (fun r r' => r'.size < r.size) ∧
      (rs.map AddressRecord.size).sum = 768 ∧
      ∀ e ∈ assignHeapToBins ((binKeys 1000).map fun k => (k, [])) ⟨1, 1000⟩,
        e.2 = rs.filter (fun r => r.size = e.1) := by
  obtain ⟨-, -, -, -, -, -, rs, hbins, hcont, hdec, -, hsum⟩ :=
    binner_heap_decomposition 1 1000 (by decide) (by decide) (by decide)
  have hheap : ignoreUnalignedHeapMemory ⟨1, 1000⟩ = ⟨128, 873⟩ := by decide
  rw [hheap] at hcont hsum
  exact ⟨rs, hcont, hdec, hsum, fun e he => (hbins e he).1⟩

end RocShmem
