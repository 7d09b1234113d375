import RocShmem.Memory.Pow2Bins

/-!
# The Pow2Bins Invariant over Whole Runs

What holds of the allocator after construction and after every sequence of
`alloc` and `free` calls, whatever the sizes requested.

`Pow2Bins.Inv` is the representation invariant. The keys double from one bin
to the next and are positive; every bin holds records of its own size; every
proffered record is keyed by its own address and has one of the bin sizes;
and all records, free and handed out, are `Packed` inside the aligned heap:
pairwise disjoint and within it. The totals are carried by `Refines`: every
operation refines the list of all records, so its total length never moves.

Each operation gets one spec lemma saying what it does to the invariant, to
the records and to `proffered_`; the run lemma is then an induction over the
sequence of calls. The client side is tracked by a list of the pointers
`alloc` returned and `free` has not taken back, with the sizes asked for;
`Outstanding` says it is the key set of `proffered_`, with every handed-out
record at least as large as its request. That is what makes `free` of a
pointer the client still holds always succeed, and what turns the packing of
the records into the claim that live allocations do not overlap.

## Main definitions

* `Pow2Bins.Inv`: The representation invariant.
* `Pow2Bins.Outstanding`: The client's live pointers are the proffered keys.
* `Pow2Bins.Reachable`: Construction followed by any sequence of calls.

## Theorems

* `Pow2Bins.doRequestUsing_spec`, `Pow2Bins.alloc_spec`, `Pow2Bins.free_spec`:
  One spec lemma per operation.
* `Pow2Bins.init_inv`: The constructor establishes the invariant.
* `Pow2Bins.reachable_inv`: Every reachable state satisfies the invariant.
-/

namespace RocShmem

namespace Pow2Bins

/-- The representation invariant of `Pow2Bins`, relative to the aligned heap
    region. -/
structure Inv (region : Extent) (s : Pow2Bins) : Prop where
  doubling : Doubling (s.bins.map Prod.fst)
  keys_pos : ∀ e ∈ s.bins, 0 < e.1
  sizes : SizesMatch s.bins
  prof_keys : ∀ e ∈ s.proffered, e.1 = e.2.address
  prof_sizes : ∀ e ∈ s.proffered, e.2.size ∈ s.bins.map Prod.fst
  packed : Packed region (extents s.records)

/-- Two disjoint non-empty records start at different addresses. -/
theorem address_ne_of_disjoint {r r' : AddressRecord} (h : r.extent.Disjoint r'.extent)
    (hr : 0 < r.size) (hr' : 0 < r'.size) : r.address ≠ r'.address := by
  simp only [Extent.Disjoint, Extent.stop, AddressRecord.extent_base,
    AddressRecord.extent_len] at h
  omega

/-- A record inside the region starts at a positive address. -/
theorem address_pos_of_within {region : Extent} (hbase : 0 < region.base) {r : AddressRecord}
    (h : r.extent.Within region) : 0 < r.address := by
  simp only [Extent.Within, AddressRecord.extent_base] at h
  omega

theorem mem_records_of_mem_proffered {s : Pow2Bins} {e : Nat × AddressRecord}
    (he : e ∈ s.proffered) : e.2 ∈ s.records :=
  List.mem_append_right _ (List.mem_map_of_mem he)

theorem Inv.prof_size_pos {region : Extent} {s : Pow2Bins} (h : Inv region s)
    {e : Nat × AddressRecord} (he : e ∈ s.proffered) : 0 < e.2.size := by
  obtain ⟨e', he', hk⟩ := List.mem_map.mp (h.prof_sizes e he)
  rw [← hk]
  exact h.keys_pos e' he'

/-- The bins around an iterator: those before it, the bin at it and those
    after it, with the facts the cascade lemmas need about the latter. -/
theorem Inv.at_iterator {region : Extent} {s : Pow2Bins} (h : Inv region s) {it k : Nat}
    {bin : List AddressRecord} {rest : Bins} (hd : s.bins.drop it = (k, bin) :: rest) :
    s.bins = s.bins.take it ++ (k, bin) :: rest ∧ Doubling (k :: rest.map Prod.fst) ∧
      SizesMatch (s.bins.take it) ∧ (∀ r ∈ bin, r.size = k) ∧ SizesMatch rest ∧
      s.bins[it]? = some (k, bin) := by
  have hsplit : s.bins = s.bins.take it ++ (k, bin) :: rest := by
    rw [← hd, List.take_append_drop]
  have hchain : Doubling (k :: rest.map Prod.fst) := by
    have := h.doubling.drop it
    rwa [← List.map_drop, hd, List.map_cons] at this
  have hsizes := h.sizes
  rw [hsplit, sizesMatch_append, sizesMatch_cons] at hsizes
  refine ⟨hsplit, hchain, hsizes.1, hsizes.2.1, hsizes.2.2, ?_⟩
  rw [← List.head?_drop, hd, List.head?_cons]

/-- Replacing the bin at an iterator and the bins after it by ones with the
    same keys leaves the keys of the whole map alone. -/
theorem keys_replace (pre : Bins) (k : Nat) (bin bin' : List AddressRecord) (rest rest' : Bins)
    (hkeys : rest'.map Prod.fst = rest.map Prod.fst) :
    (pre ++ (k, bin') :: rest').map Prod.fst = (pre ++ (k, bin) :: rest).map Prod.fst := by
  simp only [List.map_append, List.map_cons, hkeys]

/-- The invariant moves to a state with the same keys, once its bins hold
    records of their own sizes, its proffered entries are well keyed and
    sized, and its records are packed. -/
theorem Inv.of_keys {region : Extent} {s s' : Pow2Bins} (h : Inv region s)
    (hkeys : s'.bins.map Prod.fst = s.bins.map Prod.fst) (hsizes : SizesMatch s'.bins)
    (hprof : ∀ e ∈ s'.proffered, e.1 = e.2.address ∧ e.2.size ∈ s.bins.map Prod.fst)
    (hpacked : Packed region (extents s'.records)) : Inv region s' := by
  refine ⟨by rw [hkeys]; exact h.doubling, ?_, hsizes, fun e he => (hprof e he).1, ?_, hpacked⟩
  · intro e he
    -- A key of the new map is a key of the old one.
    have hmem : e.1 ∈ s.bins.map Prod.fst := by
      rw [← hkeys]
      exact List.mem_map_of_mem he
    obtain ⟨e', he', hk⟩ := List.mem_map.mp hmem
    rw [← hk]
    exact h.keys_pos e' he'
  · intro e he
    rw [hkeys]
    exact (hprof e he).2

/-- The records of a state whose map is cut at an iterator: the bins before
    it, the bin there with the bins after it, then the proffered records. -/
theorem extents_records_at (pre : Bins) (k : Nat) (bin : List AddressRecord) (rest : Bins)
    (proffered : List (Nat × AddressRecord)) :
    extents (records ⟨pre ++ (k, bin) :: rest, proffered⟩) =
      extents (binRecords pre) ++ extents (bin ++ binRecords rest) ++
        extents (proffered.map Prod.snd) := by
  simp only [records, binRecords_append, binRecords_cons, extents_append, List.append_assoc]

/-- The records of a state whose map is cut at an iterator, with the bin
    there and the bins after it refined to `X`, refine the records of the
    state. -/
theorem refines_at_iterator (pre : Bins) (k : Nat) (bin : List AddressRecord) (rest : Bins)
    (proffered : List (Nat × AddressRecord)) {X : List Extent}
    (href : Refines (extents (bin ++ binRecords rest)) X) :
    Refines (extents (records ⟨pre ++ (k, bin) :: rest, proffered⟩))
      (extents (binRecords pre) ++ X ++ extents (proffered.map Prod.snd)) := by
  rw [extents_records_at]
  exact Refines.append_right _ (Refines.append_left _ href)

/-- Emplacing a record whose address no entry has is a plain cons. -/
theorem emplaceInProffered_of_fresh {proffered : List (Nat × AddressRecord)} {r : AddressRecord}
    (h : ∀ e ∈ proffered, e.1 ≠ r.address) :
    emplaceInProffered proffered r = (r.address, r) :: proffered := by
  rw [emplaceInProffered, List.filter_eq_self.mpr fun e he => by simpa using h e he]

/-- What `do_request_using` does at iterator `it`. It keeps the invariant and
    the keys and refines the records; and it either returns null with
    `proffered_` untouched, or returns the address of a record of the
    iterator's bin size, which it has just added to `proffered_`. -/
theorem doRequestUsing_spec {region : Extent} (hbase : 0 < region.base) (s : Pow2Bins)
    (it : Nat) (h : Inv region s) :
    Inv region (s.doRequestUsing it).1 ∧
      (s.doRequestUsing it).1.bins.map Prod.fst = s.bins.map Prod.fst ∧
      Refines (extents s.records) (extents (s.doRequestUsing it).1.records) ∧
      ((s.doRequestUsing it).2 = 0 ∧ (s.doRequestUsing it).1.proffered = s.proffered ∨
        ∃ r e, (s.doRequestUsing it).2 = r.address ∧ 0 < r.address ∧ s.bins[it]? = some e ∧
          r.size = e.1 ∧ (s.doRequestUsing it).1.proffered = (r.address, r) :: s.proffered) := by
  unfold doRequestUsing
  cases hd : s.bins.drop it with
  | nil => exact ⟨h, rfl, Refines.refl _, Or.inl ⟨rfl, rfl⟩⟩
  | cons e rest =>
      obtain ⟨k, bin⟩ := e
      dsimp only
      obtain ⟨hsplit, hchain, hpre, hbin, hrest, hget⟩ := h.at_iterator hd
      obtain ⟨hkeys, hbin', hrest', hgot⟩ :=
        retrieveRecordFromBin_spec k bin rest hchain hbin hrest
      generalize retrieveRecordFromBin bin rest = got at hkeys hbin' hrest' hgot ⊢
      obtain ⟨r, bin', rest'⟩ := got
      dsimp only at hkeys hbin' hrest' hgot ⊢
      have hkeysAll : (s.bins.take it ++ (k, bin') :: rest').map Prod.fst =
          s.bins.map Prod.fst := by
        rw [keys_replace _ k bin bin' rest rest' hkeys, ← hsplit]
      have hsizesAll : SizesMatch (s.bins.take it ++ (k, bin') :: rest') :=
        (sizesMatch_append _ _).mpr ⟨hpre, (sizesMatch_cons _ _).mpr ⟨hbin', hrest'⟩⟩
      have hold : s = ⟨s.bins.take it ++ (k, bin) :: rest, s.proffered⟩ := by
        rw [← hsplit]
      rcases hgot with ⟨rfl, href⟩ | ⟨hr, href⟩
      · -- The bin stayed empty: the null record, and nothing is proffered.
        have hall := refines_at_iterator (s.bins.take it) k bin rest s.proffered href
        rw [← hold, ← extents_records_at] at hall
        simp only [AddressRecord.empty, ne_eq, not_true_eq_false, if_false]
        refine ⟨h.of_keys hkeysAll hsizesAll (fun e he => ⟨h.prof_keys e he, h.prof_sizes e he⟩)
          (hall.packed h.packed), hkeysAll, hall, Or.inl (by simp)⟩
      · -- A record of size `k` came out; it lies in the heap, so it is not null.
        have hall := refines_at_iterator (s.bins.take it) k bin rest s.proffered href
        rw [← hold] at hall
        have hpack := hall.packed h.packed
        have hperm : (extents (binRecords (s.bins.take it)) ++
            extents (r :: bin' ++ binRecords rest') ++ extents (s.proffered.map Prod.snd)).Perm
            (r.extent :: extents (binRecords (s.bins.take it) ++ bin' ++ binRecords rest' ++
              s.proffered.map Prod.snd)) := by
          simp only [extents_append, extents_cons, List.cons_append, List.append_assoc]
          exact List.perm_middle
        have hpack' := hpack.perm hperm
        have hrpos : 0 < r.address :=
          address_pos_of_within hbase (hpack'.within r.extent List.mem_cons_self)
        have hksz : 0 < r.size := by
          rw [hr]
          exact h.keys_pos (k, bin) (List.mem_of_getElem? hget)
        -- No proffered record starts where the new one does.
        have hfresh : ∀ e ∈ s.proffered, e.1 ≠ r.address := by
          intro e he
          have hdis := (List.pairwise_cons.mp hpack'.pairwise).1 e.2.extent (by
            simp only [extents_append, List.mem_append]
            exact Or.inr (List.mem_map_of_mem (List.mem_map_of_mem he)))
          rw [h.prof_keys e he]
          exact (address_ne_of_disjoint hdis hksz (h.prof_size_pos he)).symm
        have hnew : (r.extent :: extents (binRecords (s.bins.take it) ++ bin' ++ binRecords rest' ++
              s.proffered.map Prod.snd)).Perm
            (extents (records
              ⟨s.bins.take it ++ (k, bin') :: rest', (r.address, r) :: s.proffered⟩)) := by
          have hmid : (extents (binRecords (s.bins.take it) ++ bin' ++ binRecords rest') ++
              r.extent :: extents (s.proffered.map Prod.snd)).Perm
              (r.extent :: (extents (binRecords (s.bins.take it) ++ bin' ++ binRecords rest') ++
                extents (s.proffered.map Prod.snd))) := List.perm_middle
          rw [extents_records_at, List.map_cons, extents_cons]
          simpa only [extents_append, List.append_assoc] using hmid.symm
        simp only [ne_eq, Nat.pos_iff_ne_zero.mp hrpos, not_false_eq_true, if_true,
          emplaceInProffered_of_fresh hfresh]
        refine ⟨h.of_keys hkeysAll hsizesAll ?_ (hpack'.perm hnew), hkeysAll,
          hall.trans (Refines.of_perm (hperm.trans hnew)), Or.inr ⟨r, (k, bin), rfl, hrpos, hget,
            hr, rfl⟩⟩
        intro e he
        rcases List.mem_cons.mp he with rfl | he
        · exact ⟨rfl, by rw [hr, hsplit]; simp⟩
        · exact ⟨h.prof_keys e he, h.prof_sizes e he⟩

/-- What `alloc` does. It keeps the invariant and refines the records; and
    it either returns null with `proffered_` untouched, or hands out a fresh
    record at least as large as the request. -/
theorem alloc_spec {region : Extent} (hbase : 0 < region.base) (s : Pow2Bins) (n : Nat)
    (h : Inv region s) :
    Inv region (s.alloc n).1 ∧ Refines (extents s.records) (extents (s.alloc n).1.records) ∧
      ((s.alloc n).2 = 0 ∧ (s.alloc n).1.proffered = s.proffered ∨
        ∃ r, (s.alloc n).2 = r.address ∧ 0 < r.address ∧ n ≤ r.size ∧
          (s.alloc n).1.proffered = (r.address, r) :: s.proffered) := by
  unfold alloc
  split
  · exact ⟨h, Refines.refl _, Or.inl ⟨rfl, rfl⟩⟩
  · -- The exact power-of-two match first.
    obtain ⟨hinv₁, -, href₁, hres₁⟩ := doRequestUsing_spec hbase s (find n s.bins) h
    dsimp only
    split
    · rename_i hne
      refine ⟨hinv₁, href₁, Or.inr ?_⟩
      rcases hres₁ with ⟨hz, -⟩ | ⟨r, e, hp, hpos, he, hsize, hprof⟩
      · exact absurd hz hne
      · exact ⟨r, hp, hpos, by rw [hsize, find_key n s.bins e he], hprof⟩
    · -- Nothing there even after refilling: round up to the next bin.
      rename_i hz
      have hprof₁ : (s.doRequestUsing (find n s.bins)).1.proffered = s.proffered := by
        rcases hres₁ with ⟨-, hprof⟩ | ⟨r, e, hp, hpos, -, -, -⟩
        · exact hprof
        · rw [hp] at hz
          omega
      obtain ⟨hinv₂, -, href₂, hres₂⟩ := doRequestUsing_spec hbase
        (s.doRequestUsing (find n s.bins)).1
        (lowerBound n (s.doRequestUsing (find n s.bins)).1.bins) hinv₁
      refine ⟨hinv₂, href₁.trans href₂, ?_⟩
      rcases hres₂ with ⟨hz₂, hprof₂⟩ | ⟨r, e, hp, hpos, he, hsize, hprof₂⟩
      · exact Or.inl ⟨hz₂, hprof₂.trans hprof₁⟩
      · refine Or.inr ⟨r, hp, hpos, ?_, by rw [hprof₂, hprof₁]⟩
        rw [hsize]
        exact le_of_lowerBound n _ e he

/-- The keys increase strictly: they double and are positive. -/
theorem Inv.keys_increasing {region : Extent} {s : Pow2Bins} (h : Inv region s) :
    (s.bins.map Prod.fst).Pairwise (· < ·) := by
  have hchain : (s.bins.map Prod.fst).IsChain (· < ·) := by
    refine h.doubling.imp_of_mem_imp ?_
    intro a b ha _ hab
    obtain ⟨e, he, rfl⟩ := List.mem_map.mp ha
    have := h.keys_pos e he
    omega
  exact hchain.pairwise

/-- What `free` does to a pointer `proffered_` holds: it finds the entry,
    erases it and stacks its record in the bin of its size, keeping the
    invariant and refining the records. -/
theorem free_spec {region : Extent} (hbase : 0 < region.base) (s : Pow2Bins)
    (h : Inv region s) (p : Nat) (r : AddressRecord) (hp : (p, r) ∈ s.proffered) :
    ∃ s' e, s.free p = some s' ∧ e ∈ s.proffered ∧ e.1 = p ∧ Inv region s' ∧
      Refines (extents s.records) (extents s'.records) ∧ s'.proffered = s.proffered.erase e := by
  have hkey : p = r.address := h.prof_keys _ hp
  have hpos : 0 < p := by
    rw [hkey]
    exact address_pos_of_within hbase
      (h.packed.within _ (List.mem_map_of_mem (mem_records_of_mem_proffered hp)))
  -- The entry `proffered_.find(ptr)` lands on.
  obtain ⟨e, hfind⟩ : ∃ e, s.proffered.find? (fun e => decide (e.1 = p)) = some e :=
    Option.isSome_iff_exists.mp (List.find?_isSome.mpr ⟨(p, r), hp, by simp⟩)
  have he : e ∈ s.proffered := List.mem_of_find?_eq_some hfind
  have hep : e.1 = p := by simpa only [decide_eq_true_eq] using List.find?_some hfind
  -- The bin of the record's size, and the bins around it.
  obtain ⟨b, hb, hbk⟩ := find_of_mem e.2.size s.bins h.keys_increasing (h.prof_sizes e he)
  have hlt : find e.2.size s.bins < s.bins.length := (List.getElem?_eq_some_iff.mp hb).1
  have hd : s.bins.drop (find e.2.size s.bins) = b :: s.bins.drop (find e.2.size s.bins + 1) := by
    rw [List.drop_eq_getElem_cons hlt]
    congr 1
    exact (List.getElem?_eq_some_iff.mp hb).2
  have hfree : s.free p = some ⟨s.bins.take (find e.2.size s.bins) ++ (b.1, e.2 :: b.2) ::
      s.bins.drop (find e.2.size s.bins + 1), s.proffered.erase e⟩ := by
    simp only [free, retrieveFromProffered, Nat.pos_iff_ne_zero.mp hpos, if_false, hfind,
      emplaceRecordInBin, hd]
  rw [hfree]
  generalize find e.2.size s.bins = it at hd ⊢
  generalize s.bins.drop (it + 1) = rest at hd ⊢
  obtain ⟨k, bin⟩ := b
  dsimp only at hbk ⊢
  obtain ⟨hsplit, -, hpre, hbin, hrest, -⟩ := h.at_iterator hd
  -- The record moves from `proffered_` to the bins: a permutation.
  have hperm : (s.records).Perm
      (records ⟨s.bins.take it ++ (k, e.2 :: bin) :: rest, s.proffered.erase e⟩) := by
    have hprof : (s.proffered.map Prod.snd).Perm (e.2 :: (s.proffered.erase e).map Prod.snd) :=
      (List.perm_cons_erase he).map Prod.snd
    -- Bring the record forward through the bins after the iterator.
    have hmid : ((bin ++ binRecords rest) ++ e.2 :: (s.proffered.erase e).map Prod.snd).Perm
        (e.2 :: ((bin ++ binRecords rest) ++ (s.proffered.erase e).map Prod.snd)) :=
      List.perm_middle
    have hmove : (bin ++ (binRecords rest ++ s.proffered.map Prod.snd)).Perm
        (e.2 :: (bin ++ (binRecords rest ++ (s.proffered.erase e).map Prod.snd))) := by
      refine ((hprof.append_left _).append_left _).trans ?_
      simpa only [List.append_assoc] using hmid
    conv_lhs => rw [records, hsplit]
    simp only [records, binRecords_append, binRecords_cons, List.append_assoc, List.cons_append]
    exact hmove.append_left _
  have hperm' := hperm.map AddressRecord.extent
  refine ⟨⟨s.bins.take it ++ (k, e.2 :: bin) :: rest, s.proffered.erase e⟩, e, rfl, he, hep,
    h.of_keys ?_ ?_ ?_ (h.packed.perm hperm'), Refines.of_perm hperm', rfl⟩
  · exact keys_replace _ k bin (e.2 :: bin) rest rest rfl |>.trans (by rw [← hsplit])
  · refine (sizesMatch_append _ _).mpr ⟨hpre, (sizesMatch_cons _ _).mpr ⟨?_, hrest⟩⟩
    intro x hx
    rcases List.mem_cons.mp hx with rfl | hx
    · exact hbk.symm
    · exact hbin x hx
  · intro x hx
    have hx' := List.mem_of_mem_erase hx
    exact ⟨h.prof_keys x hx', h.prof_sizes x hx'⟩

/-- The handed-out records are pairwise disjoint. -/
theorem Inv.prof_pairwise {region : Extent} {s : Pow2Bins} (h : Inv region s) :
    s.proffered.Pairwise (fun a b => a.2.extent.Disjoint b.2.extent) := by
  have hpair := h.packed.pairwise
  simp only [records, extents, List.map_append, List.pairwise_append] at hpair
  simpa only [List.map_map, List.pairwise_map, Function.comp_apply] using hpair.2.1

/-- No address is proffered twice. -/
theorem Inv.prof_keys_nodup {region : Extent} {s : Pow2Bins} (h : Inv region s) :
    (s.proffered.map Prod.fst).Nodup := by
  rw [List.Nodup, List.pairwise_map]
  refine h.prof_pairwise.imp_of_mem ?_
  intro a b ha hb hab
  rw [h.prof_keys a ha, h.prof_keys b hb]
  exact address_ne_of_disjoint hab (h.prof_size_pos ha) (h.prof_size_pos hb)

section Construction

/-- A record put into the bin of its own size keeps every bin uniform. -/
theorem putInBin_sizesMatch (k : Nat) (r : AddressRecord) (bins : Bins) (hr : r.size = k)
    (h : SizesMatch bins) : SizesMatch (putInBin k r bins) := by
  induction bins with
  | nil => exact h
  | cons e rest ih =>
      rw [sizesMatch_cons] at h
      simp only [putInBin]
      split
      · rename_i hk
        refine (sizesMatch_cons _ _).mpr ⟨?_, h.2⟩
        intro x hx
        rcases List.mem_cons.mp hx with rfl | hx
        · exact hr.trans hk.symm
        · exact h.1 x hx
      · exact (sizesMatch_cons _ _).mpr ⟨h.1, ih h.2⟩

/-- The carving loop: while the chunk left over and the records placed so
    far are packed in the region, every round keeps them so, since it cuts
    the chunk in two; when the loop stops, the placed records are packed. -/
theorem assignHeapMemoryToBins_spec (region : Extent) (fuel : Nat) (bins : Bins)
    (chunk : AddressRecord) (hsizes : SizesMatch bins)
    (hpacked : Packed region (chunk.extent :: extents (binRecords bins))) :
    SizesMatch (assignHeapMemoryToBins fuel bins chunk) ∧
      Packed region (extents (binRecords (assignHeapMemoryToBins fuel bins chunk))) := by
  induction fuel generalizing bins chunk with
  | zero => exact ⟨hsizes, hpacked.sublist (List.sublist_cons_self _ _)⟩
  | succ fuel ih =>
      simp only [assignHeapMemoryToBins]
      split
      · exact ⟨hsizes, hpacked.sublist (List.sublist_cons_self _ _)⟩
      · unfold assignHeapChunk
        cases hfit : largestFitting chunk.size bins with
        | none =>
            -- No bin fits: the chunk becomes the null record and the loop ends.
            dsimp only
            rw [assignHeapMemoryToBins_empty]
            exact ⟨hsizes, hpacked.sublist (List.sublist_cons_self _ _)⟩
        | some k =>
            obtain ⟨hk, hle⟩ := largestFitting_spec chunk.size bins k hfit
            dsimp only
            refine ih _ _ (putInBin_sizesMatch k _ bins rfl hsizes) ?_
            -- The chunk is cut at the bin size; the first piece joins the bin.
            have hcut := hpacked.cut k hle
            refine hcut.perm ?_
            have hput := (putInBin_perm k ⟨chunk.address, k⟩ bins hk).map AddressRecord.extent
            refine (List.Perm.swap _ _ _).trans (List.Perm.cons _ hput.symm)

/-- The aligned heap region the Binner carves. -/
def heapRegion (heapPtr heapSize : Nat) : Extent :=
  (ignoreUnalignedHeapMemory ⟨heapPtr, heapSize⟩).extent

/-- The constructor establishes the invariant, over a region that does not
    start at the null address. -/
theorem init_inv (heapPtr heapSize : Nat) (s : Pow2Bins) (h : init heapPtr heapSize = some s) :
    0 < (heapRegion heapPtr heapSize).base ∧ Inv (heapRegion heapPtr heapSize) s := by
  unfold init at h
  cases hb : binnerBins heapSize with
  | none => simp only [hb, reduceCtorEq] at h
  | some bins =>
      simp only [hb] at h
      split at h
      · simp only [reduceCtorEq] at h
      · rename_i hptr
        simp only [Option.some.injEq] at h
        subst h
        obtain ⟨hdouble, hpos, hempty⟩ := binnerBins_spec heapSize bins hb
        have hbase : 0 < (heapRegion heapPtr heapSize).base := by
          have := le_ignoreUnalignedHeapMemory_address ⟨heapPtr, heapSize⟩
          simp only [heapRegion, AddressRecord.extent_base] at this ⊢
          omega
        -- At the start the bins are empty and the chunk is the whole region.
        have hsizes₀ : SizesMatch bins := fun e he r hr => by
          rw [hempty e he] at hr
          exact absurd hr List.not_mem_nil
        have hrecords₀ : binRecords bins = [] :=
          List.flatMap_eq_nil_iff.mpr (fun e he => hempty e he)
        have hpacked₀ : Packed (heapRegion heapPtr heapSize)
            ((ignoreUnalignedHeapMemory ⟨heapPtr, heapSize⟩).extent ::
              extents (binRecords bins)) := by
          rw [hrecords₀]
          refine ⟨List.pairwise_singleton _ _, ?_⟩
          intro e he
          rw [List.mem_singleton.mp he]
          exact ⟨Nat.le_refl _, Nat.le_refl _⟩
        obtain ⟨hsizes, hpacked⟩ := assignHeapMemoryToBins_spec _ _ bins _ hsizes₀ hpacked₀
        have hkeys := assignHeapMemoryToBins_keys (heapSize + 1) bins
          (ignoreUnalignedHeapMemory ⟨heapPtr, heapSize⟩)
        refine ⟨hbase, ⟨?_, ?_, hsizes, ?_, ?_, ?_⟩⟩
        · simpa only [assignHeapToBins, hkeys] using hdouble
        · intro e he
          have hmem : e.1 ∈ bins.map Prod.fst := by
            rw [← hkeys]
            exact List.mem_map_of_mem he
          obtain ⟨e', he', hk⟩ := List.mem_map.mp hmem
          rw [← hk]
          exact hpos e' he'
        · intro e he
          exact absurd he List.not_mem_nil
        · intro e he
          exact absurd he List.not_mem_nil
        · simpa only [records, assignHeapToBins, List.map_nil, List.append_nil] using hpacked

end Construction

/-- The client's view agrees with the allocator: the pointers it holds, with
    the sizes it asked for, are the keys of `proffered_`, and every handed-out
    record covers its request. -/
def Outstanding (s : Pow2Bins) (out : List (Nat × Nat)) : Prop :=
  (out.map Prod.fst).Perm (s.proffered.map Prod.fst) ∧
    ∀ q ∈ out, ∃ r, (q.1, r) ∈ s.proffered ∧ q.2 ≤ r.size

/-- The states a client reaches from construction: `out` lists the pointers
    `alloc` returned and `free` has not taken back, with the sizes requested,
    and `free` is only called on such a pointer. -/
inductive Reachable (heapPtr heapSize : Nat) : Pow2Bins → List (Nat × Nat) → Prop
  | init (s : Pow2Bins) : init heapPtr heapSize = some s → Reachable heapPtr heapSize s []
  | alloc (s : Pow2Bins) (out : List (Nat × Nat)) (n : Nat) :
      Reachable heapPtr heapSize s out →
      Reachable heapPtr heapSize (s.alloc n).1
        (if (s.alloc n).2 = 0 then out else ((s.alloc n).2, n) :: out)
  | free (s s' : Pow2Bins) (out : List (Nat × Nat)) (q : Nat × Nat) :
      Reachable heapPtr heapSize s out → q ∈ out → s.free q.1 = some s' →
      Reachable heapPtr heapSize s' (out.erase q)

theorem init_proffered (heapPtr heapSize : Nat) (s : Pow2Bins)
    (h : init heapPtr heapSize = some s) : s.proffered = [] := by
  unfold init at h
  split at h
  · simp only [reduceCtorEq] at h
  · split at h
    · simp only [reduceCtorEq] at h
    · simp only [Option.some.injEq] at h
      rw [← h]

/-- The run lemma: every reachable state satisfies the invariant, agrees with
    the client's view, and refines the records the constructor placed. The
    induction is over the calls; each case is one spec lemma. -/
theorem reachable_inv (heapPtr heapSize : Nat) (s : Pow2Bins) (out : List (Nat × Nat))
    (h : Reachable heapPtr heapSize s out) :
    ∃ s₀, init heapPtr heapSize = some s₀ ∧ Inv (heapRegion heapPtr heapSize) s ∧
      Outstanding s out ∧ Refines (extents s₀.records) (extents s.records) := by
  induction h with
  | init s hs =>
      refine ⟨s, hs, (init_inv _ _ s hs).2, ⟨?_, fun q hq => absurd hq List.not_mem_nil⟩,
        Refines.refl _⟩
      rw [init_proffered _ _ s hs]
      exact List.Perm.refl _
  | alloc s out n _ ih =>
      obtain ⟨s₀, hs₀, hinv, hout, href⟩ := ih
      obtain ⟨hinv', href', hres⟩ := alloc_spec (init_inv _ _ s₀ hs₀).1 s n hinv
      refine ⟨s₀, hs₀, hinv', ?_, href.trans href'⟩
      rcases hres with ⟨hz, hprof⟩ | ⟨r, hp, hpos, hle, hprof⟩
      · -- A null result changes neither side.
        simp only [hz, if_true]
        rw [Outstanding, hprof]
        exact hout
      · -- A fresh pointer joins both sides.
        have hne : (s.alloc n).2 ≠ 0 := by omega
        simp only [hne, if_false]
        refine ⟨?_, ?_⟩
        · rw [hprof, List.map_cons, List.map_cons, hp]
          exact hout.1.cons _
        · intro q hq
          rcases List.mem_cons.mp hq with rfl | hq
          · exact ⟨r, by rw [hprof, hp]; exact List.mem_cons_self, hle⟩
          · obtain ⟨r', hr', hle'⟩ := hout.2 q hq
            exact ⟨r', by rw [hprof]; exact List.mem_cons_of_mem _ hr', hle'⟩
  | free s s' out q _ hq hfree ih =>
      obtain ⟨s₀, hs₀, hinv, hout, href⟩ := ih
      obtain ⟨r, hr, -⟩ := hout.2 q hq
      obtain ⟨s'', e, hfree', he, hep, hinv', href', hprof⟩ :=
        free_spec (init_inv _ _ s₀ hs₀).1 s hinv q.1 r hr
      rw [hfree, Option.some.injEq] at hfree'
      subst hfree'
      -- Taking `q` out of the client's list and `e` out of `proffered_`.
      have h₁ : (out.map Prod.fst).Perm (q.1 :: (out.erase q).map Prod.fst) :=
        (List.perm_cons_erase hq).map Prod.fst
      have h₂ : (s.proffered.map Prod.fst).Perm (e.1 :: (s.proffered.erase e).map Prod.fst) :=
        (List.perm_cons_erase he).map Prod.fst
      have hnodup : (q.1 :: (out.erase q).map Prod.fst).Nodup :=
        (h₁.nodup_iff.mp (hout.1.nodup_iff.mpr hinv.prof_keys_nodup))
      refine ⟨s₀, hs₀, hinv', ⟨?_, ?_⟩, href.trans href'⟩
      · rw [hprof]
        have h₃ := h₁.symm.trans (hout.1.trans h₂)
        rw [hep] at h₃
        exact h₃.cons_inv
      · intro q' hq'
        -- The client holds each pointer once, so `q'` is not `q`'s pointer.
        have hne : q'.1 ≠ q.1 := by
          intro heq
          exact (List.nodup_cons.mp hnodup).1 (heq ▸ List.mem_map_of_mem hq')
        obtain ⟨r', hr', hle'⟩ := hout.2 q' (List.mem_of_mem_erase hq')
        refine ⟨r', ?_, hle'⟩
        rw [hprof]
        refine (List.mem_erase_of_ne ?_).mpr hr'
        intro heq
        exact hne (by rw [← hep, ← heq])

end Pow2Bins

/-- The `Pow2Bins` invariant over whole runs. After construction from a heap
    and any sequence of `alloc(n)` calls and `free(p)` calls on pointers the
    client still holds: every record in the bin keyed `k` has size `k`; all
    records in the bins and in `proffered_` are pairwise disjoint and inside
    the aligned heap; each proffered entry is keyed by its record's address;
    the total size of the records is what the Binner assigned; every pointer
    the client holds is proffered with a record at least as large as the
    request, and freeing it succeeds; and the records of two such pointers do
    not overlap. -/
theorem pow2Bins_run_invariant (heapPtr heapSize : Nat) (s : Pow2Bins) (out : List (Nat × Nat))
    (h : Pow2Bins.Reachable heapPtr heapSize s out) :
    (∀ e ∈ s.bins, ∀ r ∈ e.2, r.size = e.1) ∧
      Packed (Pow2Bins.heapRegion heapPtr heapSize) (extents s.records) ∧
      (∀ e ∈ s.proffered, e.1 = e.2.address) ∧
      (∃ s₀, Pow2Bins.init heapPtr heapSize = some s₀ ∧
        totalLen (extents s.records) = totalLen (extents (binRecords s₀.bins))) ∧
      (∀ q ∈ out, ∃ r, (q.1, r) ∈ s.proffered ∧ q.2 ≤ r.size ∧ (s.free q.1).isSome) ∧
      out.Pairwise (fun q q' => ∀ r r', (q.1, r) ∈ s.proffered → (q'.1, r') ∈ s.proffered →
        r.extent.Disjoint r'.extent) := by
  obtain ⟨s₀, hs₀, hinv, hout, href⟩ := Pow2Bins.reachable_inv heapPtr heapSize s out h
  have hbase := (Pow2Bins.init_inv _ _ s₀ hs₀).1
  refine ⟨hinv.sizes, hinv.packed, hinv.prof_keys, ⟨s₀, hs₀, ?_⟩, ?_, ?_⟩
  · rw [href.total_eq]
    simp only [Pow2Bins.records, Pow2Bins.init_proffered _ _ s₀ hs₀, List.map_nil,
      List.append_nil]
  · intro q hq
    obtain ⟨r, hr, hle⟩ := hout.2 q hq
    obtain ⟨s', -, hfree, -⟩ := Pow2Bins.free_spec hbase s hinv q.1 r hr
    exact ⟨r, hr, hle, by rw [hfree]; rfl⟩
  · -- Distinct client entries hold distinct pointers, so distinct records.
    have hnodup : (out.map Prod.fst).Nodup := hout.1.nodup_iff.mpr hinv.prof_keys_nodup
    rw [List.Nodup, List.pairwise_map] at hnodup
    refine hnodup.imp ?_
    intro q q' hne r r' hr hr'
    have : Std.Symm (fun a b : Nat × AddressRecord => a.2.extent.Disjoint b.2.extent) :=
      ⟨fun _ _ hab => hab.symm⟩
    exact hinv.prof_pairwise.forall hr hr' (fun heq => hne (Prod.mk.inj heq).1)

/-- The run invariant on a 1024-byte heap at address 128 after one request
    of 100 bytes, which is served from the 128-byte bin. -/
theorem pow2Bins_run_invariant_after_one_alloc :
    ∃ s out, Pow2Bins.Reachable 128 1024 s out ∧ out = [(128, 100)] ∧
      ((∀ e ∈ s.bins, ∀ r ∈ e.2, r.size = e.1) ∧
        Packed (Pow2Bins.heapRegion 128 1024) (extents s.records) ∧
        (∀ e ∈ s.proffered, e.1 = e.2.address) ∧
        (∃ s₀, Pow2Bins.init 128 1024 = some s₀ ∧
          totalLen (extents s.records) = totalLen (extents (binRecords s₀.bins))) ∧
        (∀ q ∈ out, ∃ r, (q.1, r) ∈ s.proffered ∧ q.2 ≤ r.size ∧ (s.free q.1).isSome) ∧
        out.Pairwise (fun q q' => ∀ r r', (q.1, r) ∈ s.proffered → (q'.1, r') ∈ s.proffered →
          r.extent.Disjoint r'.extent)) := by
  let s₀ : Pow2Bins :=
    ⟨assignHeapToBins [(128, []), (256, []), (512, []), (1024, [])] ⟨128, 1024⟩, []⟩
  have h₀ : Pow2Bins.init 128 1024 = some s₀ := rfl
  have hp : (s₀.alloc 100).2 = 128 := rfl
  have h₁ := Pow2Bins.Reachable.alloc s₀ [] 100 (Pow2Bins.Reachable.init s₀ h₀)
  simp only [hp, Nat.succ_ne_zero, if_false] at h₁
  exact ⟨_, _, h₁, rfl, pow2Bins_run_invariant 128 1024 _ _ h₁⟩

end RocShmem
