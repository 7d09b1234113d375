import RocShmem.Memory.Pow2BinsInvariant

/-!
# What Pow2Bins Hands Out

`Pow2BinsInvariant` shows that `alloc` keeps the allocator sound. This module
says which record it hands out and what it does to the bins on the way.

The cascade of `split_larger_bin` has two outcomes, and `splitLargerBin` is
pinned down for each. If every bin above the iterator is empty, nothing
moves. Otherwise let `R` be the top record of the first non-empty bin above
it. `R` leaves its bin, every empty bin on the way down keeps the upper half
of the piece that passed through it (the record at `R`'s address plus the
bin's size), and the bin at the iterator receives the two lowest pieces,
lower one on top (`splitDownBins`).

`alloc` tries the exact key first and then the lower bound. For a present
key the two iterators coincide, and a failed retrieval changes nothing,
so the second attempt repeats the first on the same state; for an absent
key the first attempt is at the end and does nothing. Either way `alloc` is
one `do_request_using` at the lower bound
(`alloc_eq_doRequestUsing_lowerBound`): the exact-match attempt never splits
twice or loses a record. What that retrieval does then follows from the
cascade lemmas, and the bins at and above the lower bound are exactly those
whose size is at least the request (`lowerBound_take_drop`).

The record handed out has the lower bound's key as its size. The keys are
the Binner's `ALIGNMENT, 2 * ALIGNMENT, ...` in every reachable state
(`reachable_keys`), so that key is below twice the request whenever the
request is at least `ALIGNMENT`.

## Main definitions

* `splitDownBins`: The empty bins a cascade passed through, as it leaves
  them.

## Theorems

* `splitLargerBin_of_all_empty`, `splitLargerBin_of_first_nonempty`: The two
  outcomes of the cascade.
* `retrieveRecordFromBin_of_first`: A retrieval takes the first record at or
  above the bin and splits it down.
* `Pow2Bins.alloc_eq_doRequestUsing_lowerBound`: `alloc` is one request at
  the lower bound.
* `Pow2Bins.reachable_keys`: The keys never change after construction.
* `pow2_bins_alloc_best_fit`: `alloc` succeeds exactly when a bin of at
  least the requested size holds a record, hands out a record of the
  smallest such size, and changes the bins only by splitting one record.
-/

namespace RocShmem

/-- The bins a cascade walked down through, emptied before it, after a record
    at `address` was split down past them: each keeps the upper half of the
    piece that passed through it. -/
def splitDownBins (address : Nat) : Bins → Bins
  | [] => []
  | (k, _) :: rest => (k, [⟨address + k, k⟩]) :: splitDownBins address rest

@[simp]
theorem splitDownBins_nil (address : Nat) : splitDownBins address [] = [] := rfl

@[simp]
theorem splitDownBins_cons (address k : Nat) (bin : List AddressRecord) (rest : Bins) :
    splitDownBins address ((k, bin) :: rest) =
      (k, [⟨address + k, k⟩]) :: splitDownBins address rest := rfl

/-- A list of bins has no record, or a first bin with one. -/
theorem bins_first_nonempty (l : Bins) :
    (∀ e ∈ l, e.2 = []) ∨
      ∃ empties km R remaining post, l = empties ++ (km, R :: remaining) :: post ∧
        ∀ e ∈ empties, e.2 = [] := by
  induction l with
  | nil => exact Or.inl fun e he => absurd he List.not_mem_nil
  | cons e rest ih =>
    rcases e with ⟨k, _ | ⟨R, remaining⟩⟩
    · rcases ih with hall | ⟨empties, km, R, remaining, post, hrest, hempty⟩
      · refine Or.inl fun e he => ?_
        rcases List.mem_cons.1 he with rfl | he
        · rfl
        · exact hall e he
      · refine Or.inr ⟨(k, []) :: empties, km, R, remaining, post, by rw [hrest]; rfl, ?_⟩
        intro e he
        rcases List.mem_cons.1 he with rfl | he
        · rfl
        · exact hempty e he
    · exact Or.inr ⟨[], k, R, remaining, rest, rfl, fun e he => absurd he List.not_mem_nil⟩

/-- Halving a record of twice a size gives the two pieces of that size. -/
theorem AddressRecord.split_of_size (R : AddressRecord) {k : Nat} (hR : R.size = 2 * k) :
    R.split = (⟨R.address, k⟩, ⟨R.address + k, k⟩) := by
  have hhalf : R.size >>> 1 = k := by
    rw [Nat.shiftRight_eq_div_pow, hR]
    omega
  simp only [AddressRecord.split, hhalf]

section Cascade

/-- A cascade over empty bins moves nothing. -/
theorem splitLargerBin_of_all_empty (bin : List AddressRecord) (rest : Bins)
    (hall : ∀ e ∈ rest, e.2 = []) : splitLargerBin bin rest = (bin, rest) := by
  induction rest generalizing bin with
  | nil => rfl
  | cons e rest ih =>
    rcases e with ⟨k', next⟩
    have hnext : next = [] := hall (k', next) List.mem_cons_self
    subst hnext
    have hbelow := ih [] fun e he => hall e (List.mem_cons_of_mem _ he)
    simp only [splitLargerBin, List.isEmpty_nil, if_true, hbelow]

/-- A cascade that finds `R` on top of the first non-empty bin takes it out
    and splits it down: each empty bin on the way keeps an upper half, and
    the bin it started from gets the two lowest pieces. -/
theorem splitLargerBin_of_first_nonempty (k : Nat) (bin : List AddressRecord) (empties : Bins)
    (km : Nat) (R : AddressRecord) (remaining : List AddressRecord) (post : Bins)
    (hempty : ∀ e ∈ empties, e.2 = [])
    (hchain : Doubling (k :: (empties ++ (km, R :: remaining) :: post).map Prod.fst))
    (hR : R.size = km) :
    splitLargerBin bin (empties ++ (km, R :: remaining) :: post) =
      (⟨R.address, k⟩ :: ⟨R.address + k, k⟩ :: bin,
        splitDownBins R.address empties ++ (km, remaining) :: post) := by
  induction empties generalizing k bin with
  | nil =>
    -- `R` is on top of the next bin: it is halved into the starting bin
    simp only [List.nil_append, List.map_cons, Doubling, List.isChain_cons_cons] at hchain
    simp only [List.nil_append, splitLargerBin, List.isEmpty_cons, Bool.false_eq_true,
      if_false, splitDownBins_nil]
    rw [AddressRecord.split_of_size R (hR.trans hchain.1)]
  | cons e empties ih =>
    rcases e with ⟨k', next⟩
    have hnext : next = [] := hempty (k', next) List.mem_cons_self
    subst hnext
    simp only [List.cons_append, List.map_cons, Doubling, List.isChain_cons_cons] at hchain
    -- the empty next bin is refilled first, with the two pieces of its size
    have hbelow := ih k' [] (fun e he => hempty e (List.mem_cons_of_mem _ he)) hchain.2
    simp only [List.cons_append, splitLargerBin, List.isEmpty_nil, if_true, hbelow,
      splitDownBins_cons]
    rw [AddressRecord.split_of_size ⟨R.address, k'⟩ hchain.1]

end Cascade

/-- A retrieval from a bin whose bins from it on hold no record hands out the
    empty record and moves nothing. -/
theorem retrieveRecordFromBin_of_all_empty (k : Nat) (bin : List AddressRecord) (rest : Bins)
    (hall : ∀ e ∈ (k, bin) :: rest, e.2 = []) :
    retrieveRecordFromBin bin rest = (AddressRecord.empty, [], rest) := by
  have hbin : bin = [] := hall (k, bin) List.mem_cons_self
  subst hbin
  have hsplit := splitLargerBin_of_all_empty [] rest fun e he => hall e (List.mem_cons_of_mem _ he)
  simp only [retrieveRecordFromBin, tryToEnsureBinHasRecords, List.isEmpty_nil, if_true, hsplit]

/-- A retrieval from the bin of key `k`, where the first record at or above
    it is `R`, hands out the piece of size `k` at `R`'s address and leaves
    the bins split down from `R`. -/
theorem retrieveRecordFromBin_of_first (k : Nat) (bin : List AddressRecord) (rest : Bins)
    (empties : Bins) (km : Nat) (R : AddressRecord) (remaining : List AddressRecord)
    (post : Bins) (hwalk : (k, bin) :: rest = empties ++ (km, R :: remaining) :: post)
    (hempty : ∀ e ∈ empties, e.2 = []) (hchain : Doubling (((k, bin) :: rest).map Prod.fst))
    (hR : R.size = km) :
    (retrieveRecordFromBin bin rest).1 = ⟨R.address, k⟩ ∧
      (k, (retrieveRecordFromBin bin rest).2.1) :: (retrieveRecordFromBin bin rest).2.2 =
        splitDownBins R.address empties ++ (km, remaining) :: post := by
  cases empties with
  | nil =>
    -- the bin itself holds `R`: it is handed out whole
    simp only [List.nil_append, List.cons.injEq, Prod.mk.injEq] at hwalk
    obtain ⟨⟨hk, hbin⟩, hrest⟩ := hwalk
    subst hk hbin hrest
    have hret : retrieveRecordFromBin (R :: remaining) rest = (R, remaining, rest) := rfl
    rw [hret]
    refine ⟨?_, rfl⟩
    rw [← hR]
  | cons e empties =>
    -- the bin is empty: the cascade splits `R` down to it
    simp only [List.cons_append, List.cons.injEq] at hwalk
    rcases hwalk with ⟨rfl, rfl⟩
    have hbin : bin = [] := hempty (k, bin) List.mem_cons_self
    subst hbin
    have hsplit := splitLargerBin_of_first_nonempty k [] empties km R remaining post
      (fun e he => hempty e (List.mem_cons_of_mem _ he)) hchain hR
    simp only [retrieveRecordFromBin, tryToEnsureBinHasRecords, List.isEmpty_nil, if_true,
      hsplit, splitDownBins_cons, List.cons_append, true_and]

/-- `std::map::find` lands on the lower bound or at the end. -/
theorem find_eq_lowerBound_or_length (n : Nat) (bins : Bins) :
    find n bins = lowerBound n bins ∨ find n bins = bins.length := by
  unfold find
  split
  · split
    · exact Or.inl rfl
    · exact Or.inr rfl
  · exact Or.inr rfl

namespace Pow2Bins

/-- The bins before the lower bound are those whose key is below the request,
    the bins from it on those whose key is not. -/
theorem lowerBound_take_drop (n : Nat) (bins : Bins)
    (hsorted : (bins.map Prod.fst).Pairwise (· < ·)) :
    (∀ e ∈ bins.take (lowerBound n bins), e.1 < n) ∧
      ∀ e ∈ bins.drop (lowerBound n bins), n ≤ e.1 := by
  induction bins with
  | nil => simp
  | cons e rest ih =>
    simp only [List.map_cons, List.pairwise_cons, List.mem_map] at hsorted
    by_cases hle : n ≤ e.1
    · -- the lower bound is here, and every later key is larger still
      simp only [lowerBound, hle, if_true, List.take_zero, List.drop_zero]
      refine ⟨fun e he => absurd he List.not_mem_nil, fun e' he' => ?_⟩
      rcases List.mem_cons.1 he' with rfl | he'
      · exact hle
      · have := hsorted.1 e'.1 ⟨e', he', rfl⟩
        omega
    · simp only [lowerBound, hle, if_false, List.take_succ_cons, List.drop_succ_cons]
      rcases ih hsorted.2 with ⟨htake, hdrop⟩
      refine ⟨fun e' he' => ?_, hdrop⟩
      rcases List.mem_cons.1 he' with rfl | he'
      · omega
      · exact htake e' he'

/-- Every bin of at least the requested size lies at or above the lower
    bound. -/
theorem mem_drop_lowerBound {n : Nat} {bins : Bins}
    (hsorted : (bins.map Prod.fst).Pairwise (· < ·)) {e : Nat × List AddressRecord}
    (he : e ∈ bins) (hle : n ≤ e.1) : e ∈ bins.drop (lowerBound n bins) := by
  rw [← List.take_append_drop (lowerBound n bins) bins, List.mem_append] at he
  rcases he with he | he
  · exact absurd ((lowerBound_take_drop n bins hsorted).1 e he) (by omega)
  · exact he

/-- The key at the lower bound is the smallest key of at least the request:
    the later keys are larger. -/
theorem lowerBound_key_le {n k : Nat} {bin : List AddressRecord} {rest bins : Bins}
    (hsorted : (bins.map Prod.fst).Pairwise (· < ·))
    (hd : bins.drop (lowerBound n bins) = (k, bin) :: rest) {e : Nat × List AddressRecord}
    (he : e ∈ bins) (hle : n ≤ e.1) : k ≤ e.1 := by
  have hsorted' := hsorted.drop (i := lowerBound n bins)
  rw [← List.map_drop, hd, List.map_cons, List.pairwise_cons] at hsorted'
  have he' := mem_drop_lowerBound hsorted he hle
  rw [hd] at he'
  rcases List.mem_cons.1 he' with rfl | he'
  · exact le_refl _
  · exact le_of_lt (hsorted'.1 e.1 (List.mem_map_of_mem he'))

/-- A retrieval that finds nothing leaves the state as it was. -/
theorem doRequestUsing_of_all_empty (s : Pow2Bins) (it : Nat)
    (hall : ∀ e ∈ s.bins.drop it, e.2 = []) : s.doRequestUsing it = (s, 0) := by
  unfold doRequestUsing
  cases hd : s.bins.drop it with
  | nil => rfl
  | cons e rest =>
    rcases e with ⟨k, bin⟩
    rw [hd] at hall
    have hget := retrieveRecordFromBin_of_all_empty k bin rest hall
    have hbin : bin = [] := hall (k, bin) List.mem_cons_self
    have hsplit : s.bins.take it ++ (k, []) :: rest = s.bins := by
      rw [← hbin, ← hd, List.take_append_drop]
    simp only [hget, AddressRecord.empty, ne_eq, not_true_eq_false, if_false, hsplit]

/-- A retrieval at an iterator whose first record at or above it is `R`
    returns `R`'s address and leaves the bins split down from `R`. -/
theorem doRequestUsing_of_first (s : Pow2Bins) (it k : Nat) (bin : List AddressRecord)
    (rest empties : Bins) (km : Nat) (R : AddressRecord) (remaining : List AddressRecord)
    (post : Bins) (hd : s.bins.drop it = (k, bin) :: rest)
    (hwalk : (k, bin) :: rest = empties ++ (km, R :: remaining) :: post)
    (hempty : ∀ e ∈ empties, e.2 = []) (hchain : Doubling (((k, bin) :: rest).map Prod.fst))
    (hR : R.size = km) (hpos : 0 < R.address) :
    (s.doRequestUsing it).2 = R.address ∧
      (s.doRequestUsing it).1.bins =
        s.bins.take it ++ splitDownBins R.address empties ++ (km, remaining) :: post := by
  rcases retrieveRecordFromBin_of_first k bin rest empties km R remaining post hwalk hempty
    hchain hR with ⟨hrec, hbins⟩
  unfold doRequestUsing
  rw [hd]
  dsimp only
  rw [hrec, List.append_assoc, ← hbins]
  have hne : R.address ≠ 0 := Nat.pos_iff_ne_zero.1 hpos
  simp only [ne_eq, hne, not_false_eq_true, if_true, and_self]

variable {region : Extent} (hbase : 0 < region.base)

include hbase

/-- Every record in the bins starts at a positive address. -/
theorem Inv.address_pos_of_mem_bins {s : Pow2Bins} (h : Inv region s) {e : Nat × List AddressRecord}
    (he : e ∈ s.bins) {R : AddressRecord} (hR : R ∈ e.2) : 0 < R.address := by
  have hmem : R ∈ s.records :=
    List.mem_append_left _ (List.mem_flatMap.2 ⟨e, he, hR⟩)
  exact address_pos_of_within hbase (h.packed.within _ (List.mem_map_of_mem hmem))

/-- A retrieval that returns null leaves the state as it was. -/
theorem doRequestUsing_of_eq_zero {s : Pow2Bins} (h : Inv region s) (it : Nat)
    (hz : (s.doRequestUsing it).2 = 0) : (s.doRequestUsing it).1 = s := by
  rcases bins_first_nonempty (s.bins.drop it) with hall |
    ⟨empties, km, R, remaining, post, hwalk, hempty⟩
  · rw [doRequestUsing_of_all_empty s it hall]
  · -- a record was there, so the retrieval returned its positive address
    exfalso
    cases hd : s.bins.drop it with
    | nil => simp [hd] at hwalk
    | cons e rest =>
      rcases e with ⟨k, bin⟩
      rcases h.at_iterator hd with ⟨hsplit, hchain, -, -, -, -⟩
      have hmem : (km, R :: remaining) ∈ s.bins := by
        rw [← List.take_append_drop it s.bins, hwalk]
        simp
      have hR : R.size = km := h.sizes _ hmem R List.mem_cons_self
      have hpos := Inv.address_pos_of_mem_bins hbase h hmem List.mem_cons_self
      rcases doRequestUsing_of_first s it k bin rest empties km R remaining post hd
        (hd ▸ hwalk) hempty (by simpa [Doubling] using hchain) hR hpos with ⟨hptr, -⟩
      omega

/-- A retrieval that returns the address `a` proffers the record at `a` of the
    size of the bin at the iterator. -/
theorem doRequestUsing_proffered_of_first {s : Pow2Bins} (h : Inv region s) {it k : Nat}
    {bin : List AddressRecord} {rest : Bins} (hd : s.bins.drop it = (k, bin) :: rest) {a : Nat}
    (hptr : (s.doRequestUsing it).2 = a) (ha : 0 < a) :
    (s.doRequestUsing it).1.proffered = (a, ⟨a, k⟩) :: s.proffered := by
  have hget := (h.at_iterator hd).2.2.2.2.2
  rcases (doRequestUsing_spec hbase s it h).2.2.2 with
    ⟨hz, -⟩ |
    ⟨r, e, hp, -, he, hsize, hprof⟩
  · omega
  · rw [hget, Option.some.injEq] at he
    have hr : r = ⟨a, k⟩ := by
      rcases r with ⟨ra, rs⟩
      simp only at hp hsize
      rw [← he] at hsize
      simp only [AddressRecord.mk.injEq]
      omega
    rw [hprof, hr]

/-- `alloc` is one `do_request_using` at the lower bound: for a present key
    the exact match is at the lower bound, a failed first attempt changes
    nothing, and for an absent key the first attempt is at the end. -/
theorem alloc_eq_doRequestUsing_lowerBound {s : Pow2Bins} (h : Inv region s) {n : Nat}
    (hn : 0 < n) : s.alloc n = s.doRequestUsing (lowerBound n s.bins) := by
  have hne : n ≠ 0 := Nat.pos_iff_ne_zero.1 hn
  unfold alloc
  simp only [hne, if_false]
  by_cases hexact : (s.doRequestUsing (find n s.bins)).2 = 0
  · rw [if_neg (not_not.2 hexact), doRequestUsing_of_eq_zero hbase h _ hexact]
  · rw [if_pos hexact]
    -- a non-null result means the exact key was found, at the lower bound
    rcases find_eq_lowerBound_or_length n s.bins with hf | hf
    · rw [hf]
    · rw [hf, doRequestUsing_of_all_empty s _ (by simp)] at hexact
      exact absurd rfl hexact

omit hbase in
/-- A `free` keeps the keys. -/
theorem free_keys {s s' : Pow2Bins} {p : Nat} (hfree : s.free p = some s') :
    s'.bins.map Prod.fst = s.bins.map Prod.fst := by
  unfold free at hfree
  split at hfree
  · exact absurd hfree (Option.some_ne_none s').symm
  · rename_i r proffered _
    unfold emplaceRecordInBin at hfree
    dsimp only at hfree
    split at hfree
    · exact absurd hfree (Option.some_ne_none s').symm
    · rename_i k bin rest hd
      rw [← Option.some.inj hfree]
      have hsplit : s.bins = s.bins.take (find r.size s.bins) ++ (k, bin) :: rest := by
        rw [← hd, List.take_append_drop]
      dsimp only
      rw [keys_replace _ k bin (r :: bin) rest rest rfl, ← hsplit]

/-- `alloc` keeps the keys. -/
theorem alloc_keys {s : Pow2Bins} (h : Inv region s) (n : Nat) :
    (s.alloc n).1.bins.map Prod.fst = s.bins.map Prod.fst := by
  by_cases hn : n = 0
  · simp [alloc, hn]
  · rw [alloc_eq_doRequestUsing_lowerBound hbase h (Nat.pos_of_ne_zero hn)]
    exact (doRequestUsing_spec hbase s _ h).2.1

omit hbase

/-- The keys of every reachable state are the ones the Binner created. -/
theorem reachable_keys (heapPtr heapSize : Nat) {s : Pow2Bins} {out : List (Nat × Nat)}
    (h : Reachable heapPtr heapSize s out) :
    ∃ bins₀, binnerBins heapSize = some bins₀ ∧ s.bins.map Prod.fst = bins₀.map Prod.fst := by
  induction h with
  | init s hs =>
    unfold init at hs
    cases hb : binnerBins heapSize with
    | none => simp only [hb, reduceCtorEq] at hs
    | some bins₀ =>
      simp only [hb] at hs
      split at hs
      · simp only [reduceCtorEq] at hs
      · rw [← Option.some.inj hs]
        exact ⟨bins₀, rfl, assignHeapMemoryToBins_keys _ _ _⟩
  | alloc s out n hreach ih =>
    rcases ih with ⟨bins₀, hb, hkeys⟩
    rcases reachable_inv heapPtr heapSize s out hreach with ⟨s₀, hs₀, hinv, -, -⟩
    exact ⟨bins₀, hb, (alloc_keys (init_inv _ _ s₀ hs₀).1 hinv n).trans hkeys⟩
  | free s s' out q _ _ hfree ih =>
    rcases ih with ⟨bins₀, hb, hkeys⟩
    exact ⟨bins₀, hb, (free_keys hfree).trans hkeys⟩

end Pow2Bins

/-- The Binner's first bin is `ALIGNMENT`. -/
theorem binnerBins_head {heapSize : Nat} {bins : Bins} (h : binnerBins heapSize = some bins) :
    (bins.map Prod.fst).head? = some alignment := by
  unfold binnerBins at h
  dsimp only at h
  split at h
  · simp only [reduceCtorEq] at h
  · rw [← Option.some.inj h]
    have halign : findFirstSetOne alignment = 7 := by decide
    simp only [List.map_map, List.range_succ_eq_map, List.map_cons, List.head?_cons,
      halign]
    rfl

/-- The key at the lower bound is below twice the request when the keys
    double and start at or below it. -/
theorem lowerBound_key_lt_two_mul {n a k : Nat} {bin : List AddressRecord} {rest : Bins}
    (bins : Bins) (hn : 0 < n) (hdouble : Doubling (bins.map Prod.fst))
    (hhead : (bins.map Prod.fst).head? = some a) (ha : a ≤ n)
    (hd : bins.drop (lowerBound n bins) = (k, bin) :: rest) : k < 2 * n := by
  induction bins generalizing a with
  | nil => simp at hd
  | cons e bins ih =>
    simp only [List.map_cons, List.head?_cons, Option.some.injEq] at hhead
    subst hhead
    by_cases hle : n ≤ e.1
    · -- the first key is the answer, and it is at most the request
      simp only [lowerBound, hle, if_true, List.drop_zero, List.cons.injEq] at hd
      rcases hd with ⟨rfl, -⟩
      simp only at ha
      omega
    · simp only [lowerBound, hle, if_false, List.drop_succ_cons] at hd
      cases bins with
      | nil => simp at hd
      | cons e' bins =>
        simp only [List.map_cons, Doubling, List.isChain_cons_cons] at hdouble
        by_cases hle' : n ≤ e'.1
        · -- the next key is the answer, twice a key below the request
          simp only [lowerBound, hle', if_true, List.drop_zero, List.cons.injEq] at hd
          rcases hd with ⟨rfl, -⟩
          simp only at hdouble hle
          omega
        · exact ih (a := e'.1) hdouble.2 rfl (by omega) hd

/-- `Pow2Bins::alloc` is complete and best-fit. In every reachable state, a
    positive request gets a non-null pointer exactly when some bin of at
    least the requested size holds a record, and a null result leaves the
    state as it was. A pointer comes from the first record `R` at or above
    the lower bound: the record handed out is the piece of `R` at its address
    whose size `k` is the smallest bin size at least the request (below
    twice the request once that is at least `ALIGNMENT`), and the only other
    change to the bins is that `R` leaves its bin and every empty bin between
    keeps the upper half of the piece that passed through it. -/
theorem pow2_bins_alloc_best_fit (heapPtr heapSize : Nat) (s : Pow2Bins)
    (out : List (Nat × Nat)) (h : Pow2Bins.Reachable heapPtr heapSize s out) (n : Nat)
    (hn : 0 < n) :
    ((s.alloc n).2 ≠ 0 ↔ ∃ e ∈ s.bins, n ≤ e.1 ∧ e.2 ≠ []) ∧
    ((s.alloc n).2 = 0 → (s.alloc n).1 = s) ∧
    ((s.alloc n).2 ≠ 0 → ∃ k below empties km R remaining post,
      s.bins = below ++ empties ++ (km, R :: remaining) :: post ∧
      (∀ e ∈ below, e.1 < n) ∧ (∀ e ∈ empties, e.2 = []) ∧
      k ∈ s.bins.map Prod.fst ∧ n ≤ k ∧ (∀ e ∈ s.bins, n ≤ e.1 → k ≤ e.1) ∧
      (alignment ≤ n → k < 2 * n) ∧
      (s.alloc n).2 = R.address ∧
      (s.alloc n).1.proffered = (R.address, ⟨R.address, k⟩) :: s.proffered ∧
      (s.alloc n).1.bins =
        below ++ splitDownBins R.address empties ++ (km, remaining) :: post) := by
  rcases Pow2Bins.reachable_inv heapPtr heapSize s out h with ⟨s₀, hs₀, hinv, -, -⟩
  have hbase := (Pow2Bins.init_inv _ _ s₀ hs₀).1
  rw [Pow2Bins.alloc_eq_doRequestUsing_lowerBound hbase hinv hn]
  have hsorted := hinv.keys_increasing
  rcases Pow2Bins.lowerBound_take_drop n s.bins hsorted with ⟨htake, hdrop⟩
  rcases bins_first_nonempty (s.bins.drop (lowerBound n s.bins)) with hall |
    ⟨empties, km, R, remaining, post, hwalk, hempty⟩
  · -- no record at or above the request: null, and nothing moves
    rw [Pow2Bins.doRequestUsing_of_all_empty s _ hall]
    refine ⟨⟨fun hne => absurd rfl hne, ?_⟩, fun _ => rfl, fun hne => absurd rfl hne⟩
    rintro ⟨e, he, hle, hne⟩
    exact absurd (hall e (Pow2Bins.mem_drop_lowerBound hsorted he hle)) hne
  · cases hd : s.bins.drop (lowerBound n s.bins) with
    | nil => simp [hd] at hwalk
    | cons e rest =>
      rcases e with ⟨k, bin⟩
      rw [hd] at hdrop hwalk
      rcases hinv.at_iterator hd with ⟨-, hchain, -, -, -, hget⟩
      have hbins : s.bins = s.bins.take (lowerBound n s.bins) ++ empties ++
          (km, R :: remaining) :: post := by
        rw [List.append_assoc, ← hwalk, ← hd, List.take_append_drop]
      have hmem : (km, R :: remaining) ∈ s.bins := by
        rw [hbins]
        simp
      have hR : R.size = km := hinv.sizes _ hmem R List.mem_cons_self
      have hpos := Pow2Bins.Inv.address_pos_of_mem_bins hbase hinv hmem List.mem_cons_self
      rcases Pow2Bins.doRequestUsing_of_first s _ k bin rest empties km R remaining post hd hwalk
        hempty (by simpa [Doubling] using hchain) hR hpos with ⟨hptr, hbins'⟩
      -- the proffered entry is the record of the lower bound's size at `R`'s address
      have hprof := Pow2Bins.doRequestUsing_proffered_of_first hbase hinv hd hptr hpos
      have hkmem : k ∈ s.bins.map Prod.fst := List.mem_map.2 ⟨_, List.mem_of_getElem? hget, rfl⟩
      have hk : n ≤ k := hdrop (k, bin) List.mem_cons_self
      have hmin : ∀ e ∈ s.bins, n ≤ e.1 → k ≤ e.1 :=
        fun e he hle => Pow2Bins.lowerBound_key_le hsorted hd he hle
      have htwo : alignment ≤ n → k < 2 * n := by
        intro hal
        rcases Pow2Bins.reachable_keys heapPtr heapSize h with ⟨bins₀, hb, hkeys⟩
        refine lowerBound_key_lt_two_mul s.bins hn hinv.doubling ?_ hal hd
        rw [hkeys]
        exact binnerBins_head hb
      refine ⟨⟨fun _ => ⟨_, hmem, hdrop _ (by rw [hwalk]; simp), by simp⟩, fun _ => by omega⟩,
        fun hz => absurd hz (by omega), fun _ => ?_⟩
      exact ⟨k, _, empties, km, R, remaining, post, hbins, htake, hempty, hkmem, hk, hmin, htwo,
        hptr, hprof, by rw [hbins', List.append_assoc]⟩

/-- A fresh 1024-byte heap at address 128 serves a request of 100 bytes from
    its 128-byte bin, splitting its one 1024-byte record down to it. -/
theorem pow2_bins_alloc_best_fit_fresh_heap :
    ∃ s out, Pow2Bins.Reachable 128 1024 s out ∧
      (((s.alloc 100).2 ≠ 0 ↔ ∃ e ∈ s.bins, 100 ≤ e.1 ∧ e.2 ≠ []) ∧
      ((s.alloc 100).2 = 0 → (s.alloc 100).1 = s) ∧
      ((s.alloc 100).2 ≠ 0 → ∃ k below empties km R remaining post,
        s.bins = below ++ empties ++ (km, R :: remaining) :: post ∧
        (∀ e ∈ below, e.1 < 100) ∧ (∀ e ∈ empties, e.2 = []) ∧
        k ∈ s.bins.map Prod.fst ∧ 100 ≤ k ∧ (∀ e ∈ s.bins, 100 ≤ e.1 → k ≤ e.1) ∧
        (alignment ≤ 100 → k < 2 * 100) ∧
        (s.alloc 100).2 = R.address ∧
        (s.alloc 100).1.proffered = (R.address, ⟨R.address, k⟩) :: s.proffered ∧
        (s.alloc 100).1.bins =
          below ++ splitDownBins R.address empties ++ (km, remaining) :: post)) := by
  let s₀ : Pow2Bins :=
    ⟨assignHeapToBins [(128, []), (256, []), (512, []), (1024, [])] ⟨128, 1024⟩, []⟩
  have h₀ : Pow2Bins.Reachable 128 1024 s₀ [] := Pow2Bins.Reachable.init s₀ rfl
  exact ⟨s₀, [], h₀, pow2_bins_alloc_best_fit 128 1024 s₀ [] h₀ 100 (by decide)⟩

end RocShmem
