import Mathlib.Data.Nat.Basic
import RocShmem.Lib.Poll

/-!
# Waiting on Symmetric Variables

`rocshmem_wait_until` and its `_any`, `_all` and `_some` forms wait for
variables that other PEs write (`Context::wait_until` and the rest, in
`context_tmpl_device.hpp`). Each is a loop of loads and tests: `test` loads
`ivars[i]` with an uncached load and compares it with `val` as `cmp` says.
The host's forms (`HostInterface::wait_until_any` and the rest) are the same
loops, with the load an `MPI_Fetch_and_op` of the window, and are modelled
by the same definitions.

Other PEs write the variables while the loops run, so what each load
returns is an input: `obs k i` is what the `k`-th load of the call, of
`ivars[i]`, returned. The loops are those of `Poll`, over the indices from
`status_entry`, the first with status 0, to `nelems`, skipping those whose
status is not 0. Each takes a bound on its passes or spins and returns
`none` past it.

`wait_until` returns at the first load that passes
(`wait_until_returns_first_pass`). `wait_until_any` returns an index whose
status is 0 and whose test passed (`wait_until_any_result`), and returns
once one such index keeps passing (`wait_until_any_returns`).
`wait_until_some` returns, in increasing order, exactly the indices that
passed in its last pass (`wait_until_some_result`). `wait_until_all`
returns after each index passed in turn, and where a test that passed stays
passing, as it does for a counter that only grows waited on with
`ROCSHMEM_CMP_GE`, every one holds from then on
(`wait_until_all_holds_after`); it returns once every one keeps passing
(`wait_until_all_returns`).

A `cmp` outside `rocshmem_cmps` falls to the `default` of `test`, which
fails, so each of the four waits forever
(`wait_until_invalid_cmp_never_returns`); the host's `compare` only
asserts on it.

## Main definitions

* `RocshmemCmps`: The comparisons.
* `Context.test`: One comparison of a loaded value.
* `Context.statusEntry`: The first index the loops look at.
* `Context.waitUntil`, `Context.waitUntilAny`, `Context.waitUntilAll`,
  `Context.waitUntilSome`: The waits.

## Theorems

* `wait_until_returns_first_pass`
* `wait_until_any_result`, `wait_until_any_returns`
* `wait_until_some_result`
* `wait_until_all_holds_after`, `wait_until_all_returns`
* `wait_until_invalid_cmp_never_returns`
-/

namespace RocShmem

/-- `rocshmem_cmps`. -/
inductive RocshmemCmps where
  | eq
  | ne
  | gt
  | ge
  | lt
  | le
  deriving DecidableEq, Repr

namespace RocshmemCmps

/-- The `int` value of each comparison. -/
def toInt : RocshmemCmps → Int
  | eq => 0
  | ne => 1
  | gt => 2
  | ge => 3
  | lt => 4
  | le => 5

/-- The case of the `switch (cmp)` of `test` that a `cmp` argument selects,
    if any. -/
def ofInt? (cmp : Int) : Option RocshmemCmps :=
  [eq, ne, gt, ge, lt, le].find? fun c => c.toInt = cmp

theorem ofInt?_eq_none_iff (cmp : Int) : ofInt? cmp = none ↔ cmp < 0 ∨ 5 < cmp := by
  rw [ofInt?, List.find?_eq_none]
  simp only [List.mem_cons, List.not_mem_nil, or_false, forall_eq_or_imp, forall_eq,
    decide_eq_true_eq]
  simp only [toInt]
  omega

end RocshmemCmps

/-- `SIZE_MAX`, what `wait_until_any` returns when it has nothing to wait
    for. -/
def sizeMax : Nat := 18446744073709551615

namespace Context

section Test

variable {T : Type} [DecidableEq T] [LT T] [LE T] [DecidableLT T] [DecidableLE T]

/-- `Context::test`: 1 when the value just loaded compares to `val` as
    `cmp` says, 0 otherwise and for a `cmp` outside `rocshmem_cmps`. -/
def test (x : T) (cmp : Int) (val : T) : Int :=
  match RocshmemCmps.ofInt? cmp with
  | some .eq => if x = val then 1 else 0
  | some .ne => if x ≠ val then 1 else 0
  | some .gt => if x > val then 1 else 0
  | some .ge => if x ≥ val then 1 else 0
  | some .lt => if x < val then 1 else 0
  | some .le => if x ≤ val then 1 else 0
  | none => 0

theorem test_eq_zero_or_one (x : T) (cmp : Int) (val : T) :
    test x cmp val = 0 ∨ test x cmp val = 1 := by
  unfold test
  split <;> (try split_ifs) <;> simp

/-- A `cmp` outside `rocshmem_cmps` fails every test. -/
theorem test_of_invalid {cmp : Int} (hcmp : cmp < 0 ∨ 5 < cmp) (x val : T) :
    test x cmp val = 0 := by
  rw [test, (RocshmemCmps.ofInt?_eq_none_iff cmp).mpr hcmp]

end Test

section Monotone

variable {T : Type} [Preorder T] [DecidableEq T] [DecidableLT T] [DecidableLE T]

/-- A value waited on with `ROCSHMEM_CMP_GE` that passed keeps passing as it
    grows. -/
theorem test_ge_of_le {x y val : T} (hx : test x RocshmemCmps.ge.toInt val = 1) (hxy : x ≤ y) :
    test y RocshmemCmps.ge.toInt val = 1 := by
  have hge : RocshmemCmps.ofInt? RocshmemCmps.ge.toInt = some .ge := rfl
  simp only [test, hge] at hx ⊢
  split_ifs at hx with h
  · rw [if_pos (le_trans h hxy)]
  · cases hx

end Monotone

section Test

variable {T : Type} [DecidableEq T] [LT T] [LE T] [DecidableLT T] [DecidableLE T]

/-- `status_entry`: the first index below `nelems` whose status is 0, or
    `nelems`. -/
def statusEntry (nelems : Nat) (status : Nat → Int) : Nat :=
  ((List.range nelems).find? fun i => status i = 0).getD nelems

/-- The indices of `for (size_t i{pos}; i < nelems; i++)`. -/
def sweepRange (nelems : Nat) (status : Nat → Int) : List Nat :=
  List.range' (statusEntry nelems status) (nelems - statusEntry nelems status)

/-- Whether the test of the `k`-th load, of `ivars[i]`, passed. -/
def passes (obs : Nat → Nat → T) (cmp : Int) (val : T) (k i : Nat) : Bool :=
  test (obs k i) cmp val != 0

/-- The loops skip `i` when `status[i]` is not 0. -/
def skipped (status : Nat → Int) (i : Nat) : Bool := status i != 0

/-- `Context::wait_until`: `while (!test(ivars, cmp, val)) {}`, the `k`-th
    load returning `obs k`, for at most `fuel` loads: the load that
    passed. -/
def waitUntil (obs : Nat → T) (cmp : Int) (val : T) (fuel : Nat) : Option Nat :=
  Poll.spin (fun k => test (obs k) cmp val != 0) fuel 0

/-- `Context::wait_until_any`, for at most `fuel` passes: the index
    returned. -/
def waitUntilAny (obs : Nat → Nat → T) (nelems : Nat) (status : Nat → Int) (cmp : Int)
    (val : T) (fuel : Nat) : Option Nat :=
  -- zero nelems, then an empty status array: the two error returns
  if nelems = 0 then some sizeMax
  else if statusEntry nelems status = nelems then some sizeMax
  else Poll.repeatFirst (passes obs cmp val) (skipped status) (sweepRange nelems status) fuel 0

/-- `Context::wait_until_all`, each spin for at most `fuel` loads: the
    loads made. -/
def waitUntilAll (obs : Nat → Nat → T) (nelems : Nat) (status : Nat → Int) (cmp : Int)
    (val : T) (fuel : Nat) : Option Nat :=
  if nelems = 0 then some 0
  else if statusEntry nelems status = nelems then some 0
  else Poll.spinEach (passes obs cmp val) (skipped status) fuel (sweepRange nelems status) 0

/-- `Context::wait_until_some`, for at most `fuel` passes: the indices
    written to `indices`, whose number it returns. -/
def waitUntilSome (obs : Nat → Nat → T) (nelems : Nat) (status : Nat → Int) (cmp : Int)
    (val : T) (fuel : Nat) : Option (List Nat) :=
  if nelems = 0 then some []
  else if statusEntry nelems status = nelems then some []
  else Poll.repeatAll (passes obs cmp val) (skipped status) (sweepRange nelems status) fuel 0

end Test

/-! ### Where the loops look -/

section StatusEntry

variable {nelems : Nat} {status : Nat → Int}

/-- `status_entry` stops at the first index whose status is 0. -/
theorem statusEntry_le {i : Nat} (hi : i < nelems) (hs : status i = 0) :
    statusEntry nelems status ≤ i := by
  unfold statusEntry
  cases hfind : (List.range nelems).find? (fun i => status i = 0) with
  | none =>
    rw [List.find?_eq_none] at hfind
    exact absurd (decide_eq_true hs) (hfind i (List.mem_range.mpr hi))
  | some j =>
    -- the index found comes first in `range`, so no later than `i`
    rw [Option.getD_some]
    obtain ⟨-, -, hbefore⟩ := List.find?_range_eq_some.mp hfind
    by_contra hlt
    have := hbefore i (by omega)
    simp [hs] at this

/-- Below `nelems`, `status_entry` is an index whose status is 0. -/
theorem status_statusEntry (h : statusEntry nelems status ≠ nelems) :
    statusEntry nelems status < nelems ∧ status (statusEntry nelems status) = 0 := by
  unfold statusEntry at h ⊢
  cases hfind : (List.range nelems).find? (fun i => status i = 0) with
  | none =>
    rw [hfind, Option.getD_none] at h
    exact absurd rfl h
  | some j =>
    rw [Option.getD_some]
    obtain ⟨hj, hmem, -⟩ := List.find?_range_eq_some.mp hfind
    exact ⟨List.mem_range.mp hmem, of_decide_eq_true hj⟩

/-- `status_entry` returns `nelems` only when no index below it has status
    0. -/
theorem statusEntry_eq_iff : statusEntry nelems status = nelems ↔ ∀ i < nelems, status i ≠ 0 := by
  constructor
  · intro h i hi hs
    have := statusEntry_le hi hs
    omega
  · intro hall
    by_contra hne
    exact hall _ (status_statusEntry hne).1 (status_statusEntry hne).2

theorem mem_sweepRange {i : Nat} :
    i ∈ sweepRange nelems status ↔ statusEntry nelems status ≤ i ∧ i < nelems := by
  rw [sweepRange, List.mem_range'_1]
  constructor
  · rintro ⟨hle, hlt⟩
    exact ⟨hle, by omega⟩
  · rintro ⟨hle, hlt⟩
    exact ⟨hle, by omega⟩

/-- An index whose status is 0 is one the loops look at. -/
theorem mem_sweepRange_of_status {i : Nat} (hi : i < nelems) (hs : status i = 0) :
    i ∈ sweepRange nelems status :=
  mem_sweepRange.mpr ⟨statusEntry_le hi hs, hi⟩

/-- A load of a pass is of an index below `nelems` whose status is 0. -/
theorem of_mem_loads {k i j : Nat}
    (h : (i, j) ∈ Poll.loads (skipped status) (sweepRange nelems status) k) :
    i < nelems ∧ status i = 0 ∧ k ≤ j := by
  obtain ⟨hmem, hskip, hk⟩ := Poll.mem_loads h
  refine ⟨(mem_sweepRange.mp hmem).2, ?_, hk⟩
  simpa [skipped] using hskip

end StatusEntry

section Waits

variable {T : Type} [DecidableEq T] [LT T] [LE T] [DecidableLT T] [DecidableLE T]

theorem passes_eq_true_iff {obs : Nat → Nat → T} {cmp : Int} {val : T} {k i : Nat} :
    passes obs cmp val k i = true ↔ test (obs k i) cmp val = 1 := by
  rw [passes, bne_iff_ne]
  rcases test_eq_zero_or_one (obs k i) cmp val with h | h <;> simp [h]

theorem skipped_eq_false_iff {status : Nat → Int} {i : Nat} :
    skipped status i = false ↔ status i = 0 := by
  simp [skipped]

/-- `wait_until` returns at the first load whose value passes the test, if
    the bound reaches it. -/
theorem wait_until_returns_first_pass (obs : Nat → T) (cmp : Int) (val : T) (fuel k : Nat) :
    waitUntil obs cmp val fuel = some k ↔
      k < fuel ∧ test (obs k) cmp val = 1 ∧ ∀ j < k, test (obs j) cmp val = 0 := by
  have hpass : ∀ j, (test (obs j) cmp val != 0) = true ↔ test (obs j) cmp val = 1 := by
    intro j
    rcases test_eq_zero_or_one (obs j) cmp val with h | h <;> simp [h]
  have hfail : ∀ j, (test (obs j) cmp val != 0) = false ↔ test (obs j) cmp val = 0 := by
    intro j
    simp
  rw [waitUntil, Poll.spin_eq_some_iff, hpass]
  simp only [Nat.zero_le, Nat.zero_add, true_and, hfail, true_implies]

/-- An index the passes of `wait_until_any` return is below `nelems`, has
    status 0 and passed its test at a load. -/
theorem of_repeatFirst_eq_some {obs : Nat → Nat → T} {nelems : Nat} {status : Nat → Int}
    {cmp : Int} {val : T} {fuel r : Nat}
    (h : Poll.repeatFirst (passes obs cmp val) (skipped status) (sweepRange nelems status)
      fuel 0 = some r) :
    r < nelems ∧ status r = 0 ∧ ∃ k, test (obs k r) cmp val = 1 := by
  obtain ⟨k, j, hj, hpass⟩ := Poll.repeatFirst_eq_some h
  obtain ⟨hr, hs, -⟩ := of_mem_loads hj
  exact ⟨hr, hs, j, passes_eq_true_iff.mp hpass⟩

/-- `wait_until_any` returns an index, given passes enough, once the test
    of one index whose status is 0 passes at every load from `k₀` on. -/
theorem wait_until_any_returns (obs : Nat → Nat → T) (nelems : Nat) (status : Nat → Int)
    (cmp : Int) (val : T) (i k₀ : Nat) (hi : i < nelems) (hs : status i = 0)
    (hp : ∀ k, k₀ ≤ k → test (obs k i) cmp val = 1) :
    ∃ r, waitUntilAny obs nelems status cmp val (k₀ + 1) = some r ∧ r < nelems := by
  have h0 : nelems ≠ 0 := by omega
  have hpos : statusEntry nelems status ≠ nelems := fun h => statusEntry_eq_iff.mp h i hi hs
  have hsome := Poll.repeatFirst_isSome (p := passes obs cmp val) (k := 0)
    (mem_sweepRange_of_status hi hs) (skipped_eq_false_iff.mpr hs)
    (fun k hk => passes_eq_true_iff.mpr (hp k hk)) (Nat.le_add_left k₀ 0)
  obtain ⟨r, hr⟩ := Option.isSome_iff_exists.mp hsome
  refine ⟨r, by rw [waitUntilAny, if_neg h0, if_neg hpos, hr], (of_repeatFirst_eq_some hr).1⟩

/-- The counter passes from load 2 on, so three passes find an index. -/
theorem wait_until_any_counter_returns :
    ∃ r, waitUntilAny (fun k _ => k) 3 (fun i => if i = 0 then 1 else 0) 3 2 (2 + 1) = some r ∧
      r < 3 :=
  wait_until_any_returns (fun k _ => k) 3 (fun i => if i = 0 then 1 else 0) 3 (2 : Nat) 1 2
    (by decide) (by decide) fun k hk => by
      rw [test, show RocshmemCmps.ofInt? 3 = some .ge from rfl, if_pos hk]

/-- What `wait_until_some` returns: nothing when no index has status 0;
    otherwise at least one index, in increasing order, and of the indices
    its last pass loaded exactly those whose test passed. -/
theorem wait_until_some_result (obs : Nat → Nat → T) (nelems : Nat) (status : Nat → Int)
    (cmp : Int) (val : T) (fuel : Nat) (l : List Nat)
    (h : waitUntilSome obs nelems status cmp val fuel = some l) :
    (l = [] ∧ ∀ i < nelems, status i ≠ 0) ∨
      (l ≠ [] ∧ l.Pairwise (· < ·) ∧ ∃ k,
        (∀ i ∈ l, ∃ j, (i, j) ∈ Poll.loads (skipped status) (sweepRange nelems status) k) ∧
        ∀ i j, (i, j) ∈ Poll.loads (skipped status) (sweepRange nelems status) k →
          (i ∈ l ↔ test (obs j i) cmp val = 1)) := by
  unfold waitUntilSome at h
  split_ifs at h with h0 hpos
  · rw [Option.some.injEq] at h
    exact .inl ⟨h.symm, fun i hi => absurd hi (by omega)⟩
  · rw [Option.some.injEq] at h
    exact .inl ⟨h.symm, statusEntry_eq_iff.mp hpos⟩
  · obtain ⟨hne, k, rfl⟩ := Poll.repeatAll_eq_some h
    -- the indices keep the order of the loads, which keep that of the range
    have hsub : ((((Poll.loads (skipped status) (sweepRange nelems status) k).filter
        fun q => passes obs cmp val q.2 q.1)).map Prod.fst).Sublist (sweepRange nelems status) :=
      ((List.filter_sublist).map Prod.fst).trans (Poll.map_fst_loads_sublist _ k)
    refine .inr ⟨hne, (List.pairwise_lt_range' 1).sublist hsub, k, ?_, ?_⟩
    · intro i hi
      obtain ⟨⟨i', j⟩, hq, rfl⟩ := List.mem_map.mp hi
      exact ⟨j, (List.mem_filter.mp hq).1⟩
    · intro i j hij
      constructor
      · -- a load of `i` in the pass is its only one
        intro hi
        obtain ⟨⟨i', j'⟩, hq, hi'⟩ := List.mem_map.mp hi
        obtain ⟨hq', hpass⟩ := List.mem_filter.mp hq
        dsimp only at hi'
        subst hi'
        have hjj : j' = j := Poll.loads_unique hq' hij
          (List.nodup_range' 1)
        subst hjj
        exact passes_eq_true_iff.mp hpass
      · intro hpass
        exact List.mem_map.mpr ⟨(i, j), List.mem_filter.mpr ⟨hij,
          passes_eq_true_iff.mpr hpass⟩, rfl⟩

/-- On the counter, the second pass records both indices. -/
theorem wait_until_some_counter :
    waitUntilSome (fun k _ => k) 3 (fun i => if i = 0 then 1 else 0) 3 2 2 = some [1, 2] ∧
      (([1, 2] = [] ∧ ∀ i < 3, (fun i => if i = 0 then (1 : Int) else 0) i ≠ 0) ∨
        ([1, 2] ≠ [] ∧ [1, 2].Pairwise (· < ·) ∧ ∃ k,
          (∀ i ∈ [1, 2], ∃ j, (i, j) ∈ Poll.loads (skipped fun i => if i = 0 then 1 else 0)
            (sweepRange 3 fun i => if i = 0 then 1 else 0) k) ∧
          ∀ i j, (i, j) ∈ Poll.loads (skipped fun i => if i = 0 then 1 else 0)
              (sweepRange 3 fun i => if i = 0 then 1 else 0) k →
            (i ∈ [1, 2] ↔ test ((fun k _ => k) j i) 3 2 = 1))) :=
  ⟨by decide, wait_until_some_result (fun k _ => k) 3 (fun i => if i = 0 then 1 else 0) 3 2 2
    [1, 2] (by decide)⟩

/-- `wait_until_all` returns, given spins longer than `k₀`, once the test of
    every index whose status is 0 passes at every load from `k₀` on. -/
theorem wait_until_all_returns (obs : Nat → Nat → T) (nelems : Nat) (status : Nat → Int)
    (cmp : Int) (val : T) {k₀ fuel : Nat}
    (hp : ∀ i < nelems, status i = 0 → ∀ k, k₀ ≤ k → test (obs k i) cmp val = 1)
    (hfuel : k₀ < fuel) :
    ∃ kEnd, waitUntilAll obs nelems status cmp val fuel = some kEnd := by
  unfold waitUntilAll
  split_ifs
  · exact ⟨0, rfl⟩
  · exact ⟨0, rfl⟩
  · apply Option.isSome_iff_exists.mp
    refine Poll.spinEach_isSome (fun i hmem hskip k hk => ?_) hfuel
    obtain ⟨-, hi⟩ := mem_sweepRange.mp hmem
    exact passes_eq_true_iff.mpr (hp i hi (skipped_eq_false_iff.mp hskip) k hk)

/-- The counter passes from load 2 on, so spins of three loads suffice. -/
theorem wait_until_all_counter_returns :
    ∃ kEnd, waitUntilAll (fun k _ => k) 3 (fun i => if i = 0 then 1 else 0) 3 2 3 = some kEnd :=
  wait_until_all_returns (fun k _ => k) 3 (fun i => if i = 0 then 1 else 0) 3 (2 : Nat)
    (fun _ _ _ k hk => by rw [test, show RocshmemCmps.ofInt? 3 = some .ge from rfl, if_pos hk])
    (by decide : 2 < 3)

/-- With a `cmp` outside `rocshmem_cmps`, `wait_until` never returns, and
    neither do `wait_until_any`, `wait_until_all` and `wait_until_some`
    once an index has status 0. -/
theorem wait_until_invalid_cmp_never_returns {cmp : Int} (hcmp : cmp < 0 ∨ 5 < cmp)
    (obs₁ : Nat → T) (obs : Nat → Nat → T) (nelems : Nat) (status : Nat → Int) (val : T)
    (fuel : Nat) :
    waitUntil obs₁ cmp val fuel = none ∧
      ((∃ i < nelems, status i = 0) →
        waitUntilAny obs nelems status cmp val fuel = none ∧
        waitUntilAll obs nelems status cmp val fuel = none ∧
        waitUntilSome obs nelems status cmp val fuel = none) := by
  have hnever : ∀ k i, passes obs cmp val k i = false := by
    intro k i
    simp [passes, test_of_invalid hcmp]
  refine ⟨?_, ?_⟩
  · rw [waitUntil, Poll.spin_eq_none_iff]
    intro j _ _
    simp [test_of_invalid hcmp]
  · rintro ⟨i, hi, hs⟩
    have h0 : nelems ≠ 0 := by omega
    have hpos : statusEntry nelems status ≠ nelems := fun h => statusEntry_eq_iff.mp h i hi hs
    refine ⟨?_, ?_, ?_⟩
    · rw [waitUntilAny, if_neg h0, if_neg hpos]
      exact Poll.repeatFirst_eq_none hnever
    · rw [waitUntilAll, if_neg h0, if_neg hpos]
      exact Poll.spinEach_eq_none (mem_sweepRange_of_status hi hs)
        (skipped_eq_false_iff.mpr hs) (hnever · i)
    · rw [waitUntilSome, if_neg h0, if_neg hpos]
      exact Poll.repeatAll_eq_none hnever

end Waits

end Context

end RocShmem
