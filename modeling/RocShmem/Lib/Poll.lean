import Mathlib.Data.List.Basic

/-!
# Polling Loops

A thread that waits for other agents loads a location, tests what it read,
and loads again until the test passes. The other agents write in between,
so what a load returns is not the thread's to decide: the model takes it as
input. Loads are numbered from the start of the wait, and `p k i` is the
outcome of the test on what the `k`-th load, of location `i`, returned.
Each interleaving of the writers with the thread's loads is one choice of
`p`, and a result proved for every `p` holds under every interleaving.

The loops run until a test passes, so each takes a bound `fuel` and returns
`none` when it runs out. A loop that returns `none` for every bound never
returns; one that returns `some` for a bound returns, and no larger bound
changes what.

* `spin` is `while (!test) {}` on one location.
* `sweepFirst` is one pass of a `for` loop over a list of locations that
  skips some and returns the first whose test passes; `repeatFirst` repeats
  passes until one returns.
* `sweepAll` is one pass that records every location whose test passes;
  `repeatAll` repeats passes until one records a location.
* `spinEach` spins on each location of a list in turn.

What a pass reads is `loads`: the locations it does not skip, each with the
number of its load. The theorems of each loop say what its result tells of
the loads, and that it returns once the tests it waits for pass from some
load on.

## Main definitions

* `spin`, `sweepFirst`, `repeatFirst`, `sweepAll`, `repeatAll`, `spinEach`:
  The loops.
* `loads`: The loads of one pass.

## Theorems

* `spin_eq_some_iff`: A spin returns the first load that passes.
* `repeatFirst_eq_some`, `repeatFirst_isSome`: The location a repeated pass
  returns passed at its load; one that keeps passing is found.
* `repeatAll_eq_some`: A repeated recording pass returns exactly the
  locations of one pass that passed.
* `spinEach_eq_some`, `spinEach_isSome`: Each location has passed by the
  end of `spinEach`; it returns once every test keeps passing.
-/

namespace Poll

/-! ### Spinning on one location -/

section Spin

variable (p : Nat → Bool)

/-- `while (!test) {}` from load `k`, for at most `fuel` loads: the load
    whose test passed. -/
def spin : (fuel k : Nat) → Option Nat
  | 0, _ => none
  | fuel + 1, k => if p k then some k else spin fuel (k + 1)

variable {p}

/-- A spin returns the first load from `k` whose test passes, if the bound
    reaches it. -/
theorem spin_eq_some_iff {fuel k k' : Nat} :
    spin p fuel k = some k' ↔
      k ≤ k' ∧ k' < k + fuel ∧ p k' = true ∧ ∀ j, k ≤ j → j < k' → p j = false := by
  induction fuel generalizing k with
  | zero => simp only [spin, reduceCtorEq, false_iff]; omega
  | succ n ih =>
    by_cases hk : p k = true
    · rw [spin, if_pos hk, Option.some.injEq]
      constructor
      · rintro rfl
        exact ⟨Nat.le_refl k, by omega, hk, fun j hkj hjk => absurd hjk (by omega)⟩
      · -- a later load would have to skip the passing load `k`
        rintro ⟨hle, -, -, hbefore⟩
        by_contra hne
        rw [hbefore k (Nat.le_refl k) (by omega)] at hk
        exact Bool.false_ne_true hk
    · rw [spin, if_neg hk, ih]
      constructor
      · rintro ⟨hle, hlt, hpass, hbefore⟩
        refine ⟨by omega, by omega, hpass, fun j hkj hjk => ?_⟩
        rcases Nat.eq_or_lt_of_le hkj with rfl | hlt'
        · exact Bool.eq_false_iff.mpr hk
        · exact hbefore j hlt' hjk
      · rintro ⟨hle, hlt, hpass, hbefore⟩
        have hne : k ≠ k' := fun h => hk (h ▸ hpass)
        exact ⟨by omega, by omega, hpass, fun j hkj hjk => hbefore j (by omega) hjk⟩

/-- A spin runs out of its bound exactly when no load in it passes. -/
theorem spin_eq_none_iff {fuel k : Nat} :
    spin p fuel k = none ↔ ∀ j, k ≤ j → j < k + fuel → p j = false := by
  induction fuel generalizing k with
  | zero => simp only [spin, true_iff]; omega
  | succ n ih =>
    by_cases hk : p k = true
    · rw [spin, if_pos hk]
      simp only [reduceCtorEq, false_iff, not_forall]
      exact ⟨k, Nat.le_refl k, by omega, by rw [hk]; decide⟩
    · rw [spin, if_neg hk, ih]
      constructor
      · intro h j hkj hjk
        rcases Nat.eq_or_lt_of_le hkj with rfl | hlt
        · exact Bool.eq_false_iff.mpr hk
        · exact h j hlt (by omega)
      · intro h j hkj hjk
        exact h j (by omega) (by omega)

/-- A spin returns once its test passes at every load from `k₀` on, given
    a bound past `k₀`. -/
theorem spin_isSome {fuel k k₀ : Nat} (hp : ∀ j, k₀ ≤ j → p j = true) (hfuel : k₀ < fuel) :
    (spin p fuel k).isSome := by
  rw [Option.isSome_iff_ne_none, Ne, spin_eq_none_iff]
  intro hnone
  -- the load at `max k k₀` is inside the bound and passes
  have hpass := hp (max k k₀) (Nat.le_max_right k k₀)
  rw [hnone (max k k₀) (Nat.le_max_left k k₀) (by omega)] at hpass
  exact Bool.false_ne_true hpass

end Spin

/-! ### Passes over a list of locations -/

section Pass

variable {ι : Type} (p : Nat → ι → Bool) (skip : ι → Bool)

/-- The loads of one pass from load `k`: each location not skipped, with
    the number of its load. -/
def loads : List ι → Nat → List (ι × Nat)
  | [], _ => []
  | i :: is, k => if skip i then loads is k else (i, k) :: loads is (k + 1)

/-- One pass of `for (i : is) { if (skip i) continue; if (test) return i; }`
    from load `k`: the location returned, or the loads made by the end of
    the pass. -/
def sweepFirst : List ι → Nat → ι ⊕ Nat
  | [], k => .inr k
  | i :: is, k =>
    if skip i then sweepFirst is k
    else if p k i then .inl i else sweepFirst is (k + 1)

/-- One pass that records, in order, every location whose test passes, and
    the loads made by the end of the pass. -/
def sweepAll : List ι → Nat → List ι × Nat
  | [], k => ([], k)
  | i :: is, k =>
    if skip i then sweepAll is k
    else if p k i then (i :: (sweepAll is (k + 1)).1, (sweepAll is (k + 1)).2)
    else sweepAll is (k + 1)

variable {p skip}

/-- A load of a pass is of a location of the list that is not skipped, and
    numbered from `k` on. -/
theorem mem_loads {is : List ι} {k j : Nat} {i : ι} (h : (i, j) ∈ loads skip is k) :
    i ∈ is ∧ skip i = false ∧ k ≤ j := by
  induction is generalizing k with
  | nil => cases h
  | cons a is ih =>
    by_cases ha : skip a = true
    · rw [loads, if_pos ha] at h
      obtain ⟨hi, hskip, hk⟩ := ih h
      exact ⟨List.mem_cons_of_mem a hi, hskip, hk⟩
    · rw [loads, if_neg ha] at h
      rcases List.mem_cons.mp h with heq | hrest
      · obtain ⟨rfl, rfl⟩ := Prod.mk.inj heq
        exact ⟨List.mem_cons_self, Bool.eq_false_iff.mpr ha, Nat.le_refl j⟩
      · obtain ⟨hi, hskip, hk⟩ := ih hrest
        exact ⟨List.mem_cons_of_mem a hi, hskip, by omega⟩

/-- A pass loads every location of the list it does not skip. -/
theorem exists_mem_loads {is : List ι} {i : ι} (hi : i ∈ is) (hskip : skip i = false) (k : Nat) :
    ∃ j, (i, j) ∈ loads skip is k := by
  induction is generalizing k with
  | nil => cases hi
  | cons a is ih =>
    by_cases ha : skip a = true
    · rw [loads, if_pos ha]
      rcases List.mem_cons.mp hi with rfl | hrest
      · rw [hskip] at ha
        cases ha
      · exact ih hrest k
    · rw [loads, if_neg ha]
      rcases List.mem_cons.mp hi with rfl | hrest
      · exact ⟨k, List.mem_cons_self⟩
      · obtain ⟨j, hj⟩ := ih hrest (k + 1)
        exact ⟨j, List.mem_cons_of_mem _ hj⟩

/-- In a list without repeats, a pass loads each location once. -/
theorem loads_unique {is : List ι} {k j j' : Nat} {i : ι} (h : (i, j) ∈ loads skip is k)
    (h' : (i, j') ∈ loads skip is k) (hnd : is.Nodup) : j = j' := by
  induction is generalizing k with
  | nil => cases h
  | cons a is ih =>
    obtain ⟨ha_nmem, hnd'⟩ := List.nodup_cons.mp hnd
    by_cases ha : skip a = true
    · rw [loads, if_pos ha] at h h'
      exact ih h h' hnd'
    · rw [loads, if_neg ha] at h h'
      rcases List.mem_cons.mp h with heq | hrest <;>
        rcases List.mem_cons.mp h' with heq' | hrest'
      · rw [(Prod.mk.inj heq).2, (Prod.mk.inj heq').2]
      · -- `a` is loaded first and nowhere after
        obtain ⟨rfl, -⟩ := Prod.mk.inj heq
        exact absurd (mem_loads hrest').1 ha_nmem
      · obtain ⟨rfl, -⟩ := Prod.mk.inj heq'
        exact absurd (mem_loads hrest).1 ha_nmem
      · exact ih hrest hrest' hnd'

/-- A pass that returns a location returns one whose test passed at its
    load. -/
theorem sweepFirst_eq_inl {is : List ι} {k : Nat} {i : ι} (h : sweepFirst p skip is k = .inl i) :
    ∃ j, (i, j) ∈ loads skip is k ∧ p j i = true := by
  induction is generalizing k with
  | nil => cases h
  | cons a is ih =>
    by_cases ha : skip a = true
    · rw [sweepFirst, if_pos ha] at h
      rw [loads, if_pos ha]
      exact ih h
    · rw [sweepFirst, if_neg ha] at h
      rw [loads, if_neg ha]
      by_cases hpa : p k a = true
      · rw [if_pos hpa, Sum.inl.injEq] at h
        subst h
        exact ⟨k, List.mem_cons_self, hpa⟩
      · rw [if_neg hpa] at h
        obtain ⟨j, hj, hpj⟩ := ih h
        exact ⟨j, List.mem_cons_of_mem _ hj, hpj⟩

/-- A pass that returns nothing failed every test it made, and made one
    load more than it started from for each. -/
theorem sweepFirst_eq_inr {is : List ι} {k k' : Nat} (h : sweepFirst p skip is k = .inr k') :
    k' = k + (loads skip is k).length ∧ ∀ i j, (i, j) ∈ loads skip is k → p j i = false := by
  induction is generalizing k with
  | nil =>
    rw [sweepFirst, Sum.inr.injEq] at h
    exact ⟨by rw [h, loads, List.length_nil, Nat.add_zero], fun i j hij => by cases hij⟩
  | cons a is ih =>
    by_cases ha : skip a = true
    · rw [sweepFirst, if_pos ha] at h
      rw [loads, if_pos ha]
      exact ih h
    · rw [sweepFirst, if_neg ha] at h
      rw [loads, if_neg ha]
      by_cases hpa : p k a = true
      · rw [if_pos hpa] at h
        cases h
      · rw [if_neg hpa] at h
        obtain ⟨hk', hfail⟩ := ih h
        refine ⟨by rw [hk', List.length_cons]; omega, fun i j hij => ?_⟩
        rcases List.mem_cons.mp hij with heq | hrest
        · obtain ⟨rfl, rfl⟩ := Prod.mk.inj heq
          exact Bool.eq_false_iff.mpr hpa
        · exact hfail i j hrest

/-- The locations a recording pass returns, with the loads it made: those
    of its loads whose test passed. -/
theorem sweepAll_eq (is : List ι) (k : Nat) :
    sweepAll p skip is k =
      (((loads skip is k).filter fun q => p q.2 q.1).map Prod.fst,
        k + (loads skip is k).length) := by
  induction is generalizing k with
  | nil => simp [sweepAll, loads]
  | cons a is ih =>
    by_cases ha : skip a = true
    · rw [sweepAll, if_pos ha, loads, if_pos ha]
      exact ih k
    · rw [sweepAll, if_neg ha, loads, if_neg ha, ih (k + 1)]
      by_cases hpa : p k a = true
      · rw [if_pos hpa]
        simp only [List.filter_cons, hpa, if_true, List.map_cons, List.length_cons,
          Prod.mk.injEq, true_and]
        omega
      · rw [if_neg hpa]
        simp only [List.filter_cons, hpa, Bool.false_eq_true, if_false, List.length_cons,
          Prod.mk.injEq, true_and]
        omega

/-- What a pass reads keeps the order of the list. -/
theorem map_fst_loads_sublist (is : List ι) (k : Nat) :
    ((loads skip is k).map Prod.fst).Sublist is := by
  induction is generalizing k with
  | nil => exact List.Sublist.slnil
  | cons a is ih =>
    by_cases ha : skip a = true
    · rw [loads, if_pos ha]
      exact (ih k).cons a
    · rw [loads, if_neg ha, List.map_cons]
      exact (ih (k + 1)).cons_cons a

end Pass

/-! ### Repeated passes -/

section Repeat

variable {ι : Type} (p : Nat → ι → Bool) (skip : ι → Bool) (is : List ι)

/-- `while (true) { for (...) ... }`: passes of `sweepFirst` until one
    returns a location, at most `fuel` of them. -/
def repeatFirst : (fuel k : Nat) → Option ι
  | 0, _ => none
  | fuel + 1, k =>
    match sweepFirst p skip is k with
    | .inl i => some i
    | .inr k' => repeatFirst fuel k'

/-- `while (!done) { for (...) ... }`: passes of `sweepAll` until one
    records a location, at most `fuel` of them. -/
def repeatAll : (fuel k : Nat) → Option (List ι)
  | 0, _ => none
  | fuel + 1, k =>
    if (sweepAll p skip is k).1 = [] then repeatAll fuel (sweepAll p skip is k).2
    else some (sweepAll p skip is k).1

variable {p skip is}

/-- The location repeated passes return passed its test at its load in the
    last pass. -/
theorem repeatFirst_eq_some {fuel k : Nat} {i : ι} (h : repeatFirst p skip is fuel k = some i) :
    ∃ k' j, (i, j) ∈ loads skip is k' ∧ p j i = true := by
  induction fuel generalizing k with
  | zero => cases h
  | succ n ih =>
    rw [repeatFirst] at h
    split at h
    · next i' hsweep =>
      rw [Option.some.injEq] at h
      subst h
      exact ⟨k, sweepFirst_eq_inl hsweep⟩
    · exact ih h

/-- Repeated passes return once a location they load keeps passing its test
    from load `k₀` on, given a pass that starts at or past `k₀`: a pass that
    finds nothing makes at least the load of that location. -/
theorem repeatFirst_isSome {n k k₀ : Nat} {i : ι} (hi : i ∈ is) (hskip : skip i = false)
    (hp : ∀ j, k₀ ≤ j → p j i = true) (hn : k₀ ≤ k + n) :
    (repeatFirst p skip is (n + 1) k).isSome := by
  induction n generalizing k with
  | zero =>
    rw [repeatFirst]
    split
    · rfl
    · -- the pass loaded `i` at or past `k₀` and found nothing
      next k' hsweep =>
      obtain ⟨j, hj⟩ := exists_mem_loads hi hskip k
      have hfail := (sweepFirst_eq_inr hsweep).2 i j hj
      rw [hp j (by have := (mem_loads hj).2.2; omega)] at hfail
      cases hfail
  | succ n ih =>
    rw [repeatFirst]
    split
    · rfl
    · next k' hsweep =>
      obtain ⟨hk', -⟩ := sweepFirst_eq_inr hsweep
      -- the pass made the load of `i`, so it moved the count on
      obtain ⟨j, hj⟩ := exists_mem_loads hi hskip k
      have hlen : 0 < (loads skip is k).length := List.length_pos_of_mem hj
      exact ih (by omega)

/-- Repeated passes whose tests never pass never return. -/
theorem repeatFirst_eq_none {fuel k : Nat} (hnever : ∀ j i, p j i = false) :
    repeatFirst p skip is fuel k = none := by
  induction fuel generalizing k with
  | zero => rfl
  | succ n ih =>
    rw [repeatFirst]
    split
    · next i hsweep =>
      obtain ⟨j, -, hpass⟩ := sweepFirst_eq_inl hsweep
      rw [hnever j i] at hpass
      cases hpass
    · exact ih

/-- Repeated recording passes return the locations of one pass whose test
    passed, in the order of the list, and at least one. -/
theorem repeatAll_eq_some {fuel k : Nat} {l : List ι} (h : repeatAll p skip is fuel k = some l) :
    l ≠ [] ∧ ∃ k', l = ((loads skip is k').filter fun q => p q.2 q.1).map Prod.fst := by
  induction fuel generalizing k with
  | zero => cases h
  | succ n ih =>
    rw [repeatAll] at h
    split at h
    · exact ih h
    · next hne =>
      rw [Option.some.injEq] at h
      subst h
      exact ⟨hne, k, by rw [sweepAll_eq]⟩

/-- Repeated recording passes whose tests never pass never return. -/
theorem repeatAll_eq_none {fuel k : Nat} (hnever : ∀ j i, p j i = false) :
    repeatAll p skip is fuel k = none := by
  induction fuel generalizing k with
  | zero => rfl
  | succ n ih =>
    have hnil : (sweepAll p skip is k).1 = [] := by
      rw [sweepAll_eq, List.map_eq_nil_iff, List.filter_eq_nil_iff]
      intro q _
      rw [hnever q.2 q.1]
      decide
    rw [repeatAll, if_pos hnil]
    exact ih

end Repeat

/-! ### Spinning on each location in turn -/

section Each

variable {ι : Type} (p : Nat → ι → Bool) (skip : ι → Bool) (fuel : Nat)

/-- `for (i : is) { if (skip i) continue; while (!test) {} }` from load
    `k`, each spin for at most `fuel` loads: the loads made by the end. -/
def spinEach : List ι → Nat → Option Nat
  | [], k => some k
  | i :: is, k =>
    if skip i then spinEach is k
    else (spin (fun j => p j i) fuel k).bind fun j => spinEach is (j + 1)

variable {p skip fuel}

/-- By the end of `spinEach`, each location not skipped has passed its
    test at a load it made. -/
theorem spinEach_eq_some {is : List ι} {k k' : Nat} (h : spinEach p skip fuel is k = some k') :
    k ≤ k' ∧ ∀ i ∈ is, skip i = false → ∃ j, k ≤ j ∧ j < k' ∧ p j i = true := by
  induction is generalizing k with
  | nil =>
    rw [spinEach, Option.some.injEq] at h
    exact ⟨Nat.le_of_eq h, fun i hi => by cases hi⟩
  | cons a is ih =>
    by_cases ha : skip a = true
    · rw [spinEach, if_pos ha] at h
      obtain ⟨hle, hall⟩ := ih h
      refine ⟨hle, fun i hi hskip => ?_⟩
      rcases List.mem_cons.mp hi with rfl | hrest
      · rw [hskip] at ha
        cases ha
      · exact hall i hrest hskip
    · rw [spinEach, if_neg ha, Option.bind_eq_some_iff] at h
      obtain ⟨j, hspin, hrest⟩ := h
      obtain ⟨hkj, -, hpass, -⟩ := spin_eq_some_iff.mp hspin
      obtain ⟨hle, hall⟩ := ih hrest
      refine ⟨by omega, fun i hi hskip => ?_⟩
      rcases List.mem_cons.mp hi with rfl | hmem
      · exact ⟨j, hkj, by omega, hpass⟩
      · obtain ⟨j', hj', hj'k, hpass'⟩ := hall i hmem hskip
        exact ⟨j', by omega, hj'k, hpass'⟩

/-- `spinEach` returns once every location it waits for passes its test at
    every load from `k₀` on, given spins whose bound reaches past `k₀`. -/
theorem spinEach_isSome {is : List ι} {k k₀ : Nat}
    (hp : ∀ i ∈ is, skip i = false → ∀ j, k₀ ≤ j → p j i = true) (hfuel : k₀ < fuel) :
    (spinEach p skip fuel is k).isSome := by
  induction is generalizing k with
  | nil => rfl
  | cons a is ih =>
    have hrest : ∀ i ∈ is, skip i = false → ∀ j, k₀ ≤ j → p j i = true :=
      fun i hi => hp i (List.mem_cons_of_mem a hi)
    by_cases ha : skip a = true
    · rw [spinEach, if_pos ha]
      exact ih hrest
    · rw [spinEach, if_neg ha]
      -- the spin on `a` returns, and the rest runs from the load after it
      obtain ⟨j, hj⟩ := Option.isSome_iff_exists.mp
        (spin_isSome (k := k) (hp a List.mem_cons_self (Bool.eq_false_iff.mpr ha)) hfuel)
      rw [hj, Option.bind_some]
      exact ih hrest

/-- `spinEach` over a location it waits for whose test never passes never
    returns. -/
theorem spinEach_eq_none {is : List ι} {k : Nat} {i : ι} (hi : i ∈ is) (hskip : skip i = false)
    (hnever : ∀ j, p j i = false) : spinEach p skip fuel is k = none := by
  induction is generalizing k with
  | nil => cases hi
  | cons a is ih =>
    by_cases ha : skip a = true
    · rw [spinEach, if_pos ha]
      rcases List.mem_cons.mp hi with rfl | hrest
      · rw [hskip] at ha
        cases ha
      · exact ih hrest
    · rw [spinEach, if_neg ha]
      rcases List.mem_cons.mp hi with rfl | hrest
      · -- the spin on `i` itself runs out
        have hnone : spin (fun j => p j i) fuel k = none :=
          spin_eq_none_iff.mpr fun j _ _ => hnever j
        rw [hnone, Option.bind_none]
      · cases hspin : spin (fun j => p j a) fuel k with
        | none => rfl
        | some j => exact ih hrest

end Each

end Poll
