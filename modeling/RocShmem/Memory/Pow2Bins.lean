import RocShmem.Memory.Binner

/-!
# The Power-of-Two Bins Allocator

`Pow2Bins` (`memory/pow2_bins.hpp`), the allocation strategy of the symmetric
heap: a map from power-of-two sizes to stacks of free records, and a map from
addresses to the records handed out (`proffered_`).

`alloc` first looks for a bin whose key is exactly the request and otherwise
for the first key above it. When the chosen bin is empty, `split_larger_bin`
walks up the map: it takes a record from the next bin, recursing first if
that bin is empty too, and stacks the record's two halves in the bin it
started from. `free` takes the record back out of `proffered_` and stacks it
in the bin of its own size; records are never merged again.

The cascade is recursive on the bins after the iterator, so the model passes
the bin at the iterator and the list of bins after it, and the recursion is
structural on that list. `splitLargerBin_spec` is everything the invariant
proofs need from it, stated once: the keys do not move, every bin still holds
records of its own size, and the records as a whole are a refinement, in the
sense of `Refines`, of the ones before. It needs the keys to double from one
bin to the next, which is what the Binner builds, so that half a record of
the next bin has exactly the size of this one.

## Main definitions

* `Pow2Bins`: The bins and the proffered records.
* `splitLargerBin`, `tryToEnsureBinHasRecords`, `retrieveRecordFromBin`: The
  cascade that refills an empty bin.
* `Pow2Bins.alloc`, `Pow2Bins.free`: The two operations.
* `Pow2Bins.init`: The constructor, through the Binner.
* `Pow2Bins.records`: Every record the allocator holds, free or handed out.

## Theorems

* `splitLargerBin_spec`: What the cascade does to the bins it walks.
* `retrieveRecordFromBin_spec`: A retrieval returns the empty record or one
  record of the bin's size, and refines the rest.
-/

namespace RocShmem

/-- `split_larger_bin(it)`, given the bin at `it` and the bins after it;
    returns the new bin at `it` and the new bins after it. -/
def splitLargerBin (bin : List AddressRecord) : Bins → List AddressRecord × Bins
  | [] => (bin, [])
  | (k, next) :: rest =>
      -- An empty next bin is refilled from further up first.
      let below := if next.isEmpty then splitLargerBin next rest else (next, rest)
      match below.1 with
      | [] => (bin, (k, below.1) :: below.2)
      | record :: remaining =>
          -- `bin.put(larger); bin.put(smaller);`: the lower half ends on top.
          (record.split.1 :: record.split.2 :: bin, (k, remaining) :: below.2)

/-- `try_to_ensure_bin_has_records`: split only when the bin is empty. -/
def tryToEnsureBinHasRecords (bin : List AddressRecord) (rest : Bins) :
    List AddressRecord × Bins :=
  if bin.isEmpty then splitLargerBin bin rest else (bin, rest)

/-- `retrieve_record_from_bin`: the top record after trying to refill the bin,
    or the empty record when it is still empty, with the new bin and the new
    bins after it. -/
def retrieveRecordFromBin (bin : List AddressRecord) (rest : Bins) :
    AddressRecord × List AddressRecord × Bins :=
  let ensured := tryToEnsureBinHasRecords bin rest
  match ensured.1 with
  | [] => (AddressRecord.empty, [], ensured.2)
  | record :: remaining => (record, remaining, ensured.2)

/-- The allocator state: the size-to-bin map and `proffered_`, the records
    handed out, keyed by address. -/
structure Pow2Bins where
  bins : Bins
  proffered : List (Nat × AddressRecord)

namespace Pow2Bins

/-- Every record the allocator holds: the free ones bin by bin, then the
    handed-out ones. -/
def records (s : Pow2Bins) : List AddressRecord :=
  binRecords s.bins ++ s.proffered.map Prod.snd

/-- `emplace_in_proffered`: `proffered_[record.get_address()] = record`, which
    replaces an entry with the same key. -/
def emplaceInProffered (proffered : List (Nat × AddressRecord)) (r : AddressRecord) :
    List (Nat × AddressRecord) :=
  (r.address, r) :: proffered.filter (fun e => e.1 ≠ r.address)

/-- `retrieve_from_proffered`: find the entry for `ptr` and erase it, or
    `none` where one of the asserts (non-null, present) fails. -/
def retrieveFromProffered (proffered : List (Nat × AddressRecord)) (ptr : Nat) :
    Option (AddressRecord × List (Nat × AddressRecord)) :=
  if ptr = 0 then none
  else
    match proffered.find? (fun e => e.1 = ptr) with
    | none => none
    | some e => some (e.2, proffered.erase e)

/-- `emplace_record_in_bin`: stack the record in the bin of its size, or
    `none` where the assert that such a bin exists fails. -/
def emplaceRecordInBin (s : Pow2Bins) (r : AddressRecord) : Option Pow2Bins :=
  let it := find r.size s.bins
  match s.bins.drop it with
  | [] => none
  | (k, bin) :: rest => some { s with bins := s.bins.take it ++ (k, r :: bin) :: rest }

/-- The `do_request_using` lambda of `alloc` at iterator `it`: retrieve a
    record there and record it as proffered unless it is the empty one. The
    second component is the pointer it leaves in `*ptr`, `0` at the end
    iterator. -/
def doRequestUsing (s : Pow2Bins) (it : Nat) : Pow2Bins × Nat :=
  match s.bins.drop it with
  | [] => (s, 0)
  | (k, bin) :: rest =>
      let got := retrieveRecordFromBin bin rest
      let bins := s.bins.take it ++ (k, got.2.1) :: got.2.2
      if got.1.address ≠ 0 then
        (⟨bins, emplaceInProffered s.proffered got.1⟩, got.1.address)
      else (⟨bins, s.proffered⟩, got.1.address)

/-- `Pow2Bins::alloc`: an exact power-of-two match first, then the next
    larger bin. Returns the new state and the pointer, `0` for `nullptr`. -/
def alloc (s : Pow2Bins) (requestSize : Nat) : Pow2Bins × Nat :=
  if requestSize = 0 then (s, 0)
  else
    let exact := doRequestUsing s (find requestSize s.bins)
    if exact.2 ≠ 0 then exact
    else doRequestUsing exact.1 (lowerBound requestSize exact.1.bins)

/-- `Pow2Bins::free`, or `none` where one of its asserts fails. -/
def free (s : Pow2Bins) (ptr : Nat) : Option Pow2Bins :=
  match retrieveFromProffered s.proffered ptr with
  | none => none
  | some (r, proffered) => emplaceRecordInBin ⟨s.bins, proffered⟩ r

/-- The constructor `Pow2Bins(heap_mem)`: build the bins with the Binner and
    assign the heap to them, or `none` where one of the asserts fails. -/
def init (heapPtr heapSize : Nat) : Option Pow2Bins :=
  match binnerBins heapSize with
  | none => none
  | some bins =>
      if heapPtr = 0 then none
      else some ⟨assignHeapToBins bins ⟨heapPtr, heapSize⟩, []⟩

end Pow2Bins

section Cascade

/-- What `split_larger_bin` does to the bins it walks. Provided the keys
    double and the later bins hold records of their own size, the keys stay,
    the bin at the iterator still holds records of its size, and the records
    are a refinement of the ones before: the cascade only ever takes one
    record from a bin and puts its two halves one bin down. -/
theorem splitLargerBin_spec (k : Nat) (bin : List AddressRecord) (rest : Bins)
    (hchain : Doubling (k :: rest.map Prod.fst)) (hbin : ∀ r ∈ bin, r.size = k)
    (hrest : SizesMatch rest) :
    (splitLargerBin bin rest).2.map Prod.fst = rest.map Prod.fst ∧
      (∀ r ∈ (splitLargerBin bin rest).1, r.size = k) ∧
      SizesMatch (splitLargerBin bin rest).2 ∧
      Refines (extents (bin ++ binRecords rest))
        (extents ((splitLargerBin bin rest).1 ++ binRecords (splitLargerBin bin rest).2)) := by
  induction rest generalizing k bin with
  | nil =>
      exact ⟨rfl, hbin, hrest, Refines.refl _⟩
  | cons e rest ih =>
      obtain ⟨k', next⟩ := e
      simp only [List.map_cons, Doubling, List.isChain_cons_cons] at hchain
      obtain ⟨hk', hchain'⟩ := hchain
      rw [sizesMatch_cons] at hrest
      obtain ⟨hnext, hrest'⟩ := hrest
      -- The bins from `next` on, after the optional recursive refill.
      have hbelow : let below := if next.isEmpty then splitLargerBin next rest else (next, rest)
          below.2.map Prod.fst = rest.map Prod.fst ∧ (∀ r ∈ below.1, r.size = k') ∧
            SizesMatch below.2 ∧
            Refines (extents (next ++ binRecords rest))
              (extents (below.1 ++ binRecords below.2)) := by
        split
        · exact ih k' next hchain' hnext hrest'
        · exact ⟨rfl, hnext, hrest', Refines.refl _⟩
      generalize hb : (if next.isEmpty then splitLargerBin next rest else (next, rest)) = below
        at hbelow
      obtain ⟨hkeys, hsizes, hmatch, href⟩ := hbelow
      simp only [splitLargerBin, hb]
      split
      · rename_i hnil
        refine ⟨by simp only [List.map_cons, hkeys], hbin, ?_, ?_⟩
        · exact (sizesMatch_cons _ _).mpr ⟨by simp only [hnil, List.not_mem_nil,
            IsEmpty.forall_iff, implies_true], hmatch⟩
        · simp only [binRecords_cons, ← List.append_assoc] at href ⊢
          simpa only [hnil, List.nil_append, extents_append, List.append_assoc] using
            Refines.append_left (extents bin) href
      · rename_i record remaining hcons
        have hrec : record.size = k' := hsizes record (by simp only [hcons, List.mem_cons, true_or])
        have heven : record.extent.len % 2 = 0 := by
          simp only [AddressRecord.extent_len, hrec, hk']
          omega
        refine ⟨by simp only [List.map_cons, hkeys], ?_, ?_, ?_⟩
        · intro r hr
          simp only [List.mem_cons] at hr
          rcases hr with rfl | rfl | hr
          · simp only [AddressRecord.split_fst_size, hrec, hk']
            omega
          · simp only [AddressRecord.split_snd_size, hrec, hk']
            omega
          · exact hbin r hr
        · refine (sizesMatch_cons _ _).mpr ⟨fun r hr => hsizes r ?_, hmatch⟩
          simp only [hcons, List.mem_cons, hr, or_true]
        · -- Refill the next bin, bring its top record forward, and halve it.
          have h1 : Refines (extents (bin ++ binRecords ((k', next) :: rest)))
              (extents (bin ++ (record :: remaining) ++ binRecords below.2)) := by
            rw [← hcons]
            simpa only [binRecords_cons, extents_append, List.append_assoc] using
              Refines.append_left (extents bin) href
          have h2 : Refines (extents (bin ++ (record :: remaining) ++ binRecords below.2))
              (record.extent :: extents (bin ++ remaining ++ binRecords below.2)) := by
            refine Refines.of_perm ?_
            simp only [extents_append, extents_cons, List.append_assoc]
            exact List.perm_middle
          have h3 := Refines.halve record.extent (extents (bin ++ remaining ++ binRecords below.2))
            heven
          obtain ⟨hlo, hhi⟩ := AddressRecord.split_extent record
          refine h1.trans (h2.trans (h3.trans (Refines.of_perm ?_)))
          simp only [binRecords_cons, extents_append, extents_cons, hlo, hhi, List.append_assoc,
            List.cons_append]
          exact List.Perm.refl _

/-- Refilling only happens for an empty bin; otherwise nothing moves. -/
theorem tryToEnsureBinHasRecords_spec (k : Nat) (bin : List AddressRecord) (rest : Bins)
    (hchain : Doubling (k :: rest.map Prod.fst)) (hbin : ∀ r ∈ bin, r.size = k)
    (hrest : SizesMatch rest) :
    (tryToEnsureBinHasRecords bin rest).2.map Prod.fst = rest.map Prod.fst ∧
      (∀ r ∈ (tryToEnsureBinHasRecords bin rest).1, r.size = k) ∧
      SizesMatch (tryToEnsureBinHasRecords bin rest).2 ∧
      Refines (extents (bin ++ binRecords rest))
        (extents ((tryToEnsureBinHasRecords bin rest).1 ++
          binRecords (tryToEnsureBinHasRecords bin rest).2)) := by
  unfold tryToEnsureBinHasRecords
  split
  · exact splitLargerBin_spec k bin rest hchain hbin hrest
  · exact ⟨rfl, hbin, hrest, Refines.refl _⟩

/-- A retrieval hands out the empty record, or one record of the bin's size;
    either way what is left in the bins, together with what was handed out,
    refines the records before. -/
theorem retrieveRecordFromBin_spec (k : Nat) (bin : List AddressRecord) (rest : Bins)
    (hchain : Doubling (k :: rest.map Prod.fst)) (hbin : ∀ r ∈ bin, r.size = k)
    (hrest : SizesMatch rest) :
    (retrieveRecordFromBin bin rest).2.2.map Prod.fst = rest.map Prod.fst ∧
      (∀ r ∈ (retrieveRecordFromBin bin rest).2.1, r.size = k) ∧
      SizesMatch (retrieveRecordFromBin bin rest).2.2 ∧
      ((retrieveRecordFromBin bin rest).1 = AddressRecord.empty ∧
          Refines (extents (bin ++ binRecords rest))
            (extents ((retrieveRecordFromBin bin rest).2.1 ++
              binRecords (retrieveRecordFromBin bin rest).2.2)) ∨
        (retrieveRecordFromBin bin rest).1.size = k ∧
          Refines (extents (bin ++ binRecords rest))
            (extents ((retrieveRecordFromBin bin rest).1 :: (retrieveRecordFromBin bin rest).2.1 ++
              binRecords (retrieveRecordFromBin bin rest).2.2))) := by
  obtain ⟨hkeys, hsizes, hmatch, href⟩ := tryToEnsureBinHasRecords_spec k bin rest hchain hbin hrest
  unfold retrieveRecordFromBin
  generalize tryToEnsureBinHasRecords bin rest = ensured at hkeys hsizes hmatch href
  obtain ⟨top, below⟩ := ensured
  cases top with
  | nil =>
      exact ⟨hkeys, fun r hr => absurd hr List.not_mem_nil, hmatch, Or.inl ⟨rfl, href⟩⟩
  | cons record remaining =>
      refine ⟨hkeys, fun r hr => hsizes r (List.mem_cons_of_mem _ hr), hmatch, Or.inr ⟨?_, ?_⟩⟩
      · exact hsizes record List.mem_cons_self
      · simpa only [List.cons_append] using href

end Cascade

end RocShmem
