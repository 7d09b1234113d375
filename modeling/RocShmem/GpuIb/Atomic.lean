import Mathlib.Logic.Relation
import RocShmem.Lib.Poll
import RocShmem.Lib.Transition

/-!
# Fetching Atomics and `amo_set` on the GPU-IB Backend

`QueuePair::atomic_fetch` posts a fetching atomic whose answer, the old
value of the remote word, the NIC writes into a slot of `atomic_ret`.
Before posting, the thread stores `-100` into the slot; after its quiet it
spins until the slot holds something else, and returns what it then holds.
The old value may itself be `-100`: the slot then never changes, and the
thread spins forever (`atomic_fetch_returns_iff`). `amo_fetch_add`,
`amo_fetch_cas` and `amo_set` all call it when the target is not reached
through IPC.

`GPUIBContext::amo_set` has no atomic store to post, so it sets the remote
word with compare-and-swaps. It guesses 0, and after each CAS that found
another value it guesses that value, until a CAS finds its guess or answers
0. Other PEs may store to the word between two of its CASes; the loop and
their stores are a transition system (`AmoSetStep`) over the remote word
and the loop's state, with history that no step reads.

Without stores by others the loop sets the word within two CASes
(`amo_set_stores_without_interference`). A CAS that stays in the loop found
a word some other PE stored since the CAS before, so the loop makes at most
two CASes more than there are such stores (`amo_set_cas_bound`). But the
loop also leaves when a CAS answers 0, as a failed one does when another PE
stored 0 after the guess was made: from every word other than 0 and `-100`
some interleaving has `amo_set` return without having stored its value
(`amo_set_may_return_without_storing`).

The words are `int64_t`, the type `atomic_fetch` works in; for a narrower
`T` the conversions of `amo_set` are not modelled.

## Main definitions

* `QueuePair.atomicFetchWait`: The wait of `atomic_fetch` for its answer.
* `AmoSet`, `AmoSet.cas`, `AmoSetStep`: `amo_set`'s loop against stores by
  other PEs.
* `AmoSetInv`: Each CAS that stays in the loop follows another PE's store.

## Theorems

* `atomic_fetch_returns_iff`
* `amo_set_stores_without_interference`
* `amo_set_cas_bound`
* `amo_set_may_return_without_storing`
-/

namespace RocShmem

open Transition

namespace QueuePair

/-- What `atomic_fetch` stores into its slot of `atomic_ret` before posting,
    and waits to see replaced. -/
def atomicSentinel : Int64 := -100

/-- The end of `atomic_fetch`: `while (uncached_load(load_address) == -100)
    {}`, then `ret = *load_address`, the `k`-th load of the slot returning
    `obs k`, for at most `fuel` loads of the spin. -/
def atomicFetchWait (obs : Nat → Int64) (fuel : Nat) : Option Int64 :=
  (Poll.spin (fun k => obs k != atomicSentinel) fuel 0).map fun k => obs (k + 1)

/-- The slot as the thread loads it: the sentinel until load `t`, and from
    then on the NIC's answer `v`. -/
def answerAt (t : Nat) (v : Int64) (k : Nat) : Int64 := if k < t then atomicSentinel else v

end QueuePair

open QueuePair

/-- `atomic_fetch` returns, given a spin long enough, once the NIC's answer
    is in its slot, and returns the answer; unless the answer is `-100`,
    for which no spin is long enough. -/
theorem atomic_fetch_returns_iff (t : Nat) (v : Int64) :
    ((∃ fuel r, atomicFetchWait (answerAt t v) fuel = some r) ↔ v ≠ atomicSentinel) ∧
      ∀ fuel r, atomicFetchWait (answerAt t v) fuel = some r → r = v := by
  -- a load that sees something other than the sentinel is at or past `t`
  have hseen : ∀ k, (answerAt t v k != atomicSentinel) = true → t ≤ k ∧ v ≠ atomicSentinel := by
    intro k hk
    unfold answerAt at hk
    split_ifs at hk with hkt
    · simp at hk
    · exact ⟨by omega, by simpa using hk⟩
  have hresult : ∀ fuel r, atomicFetchWait (answerAt t v) fuel = some r →
      r = v ∧ v ≠ atomicSentinel := by
    intro fuel r h
    obtain ⟨k, hspin, rfl⟩ := Option.map_eq_some_iff.mp h
    obtain ⟨hkt, hv⟩ := hseen k (Poll.spin_eq_some_iff.mp hspin).2.2.1
    exact ⟨by rw [answerAt, if_neg (by omega)], hv⟩
  refine ⟨⟨fun ⟨fuel, r, h⟩ => (hresult fuel r h).2, fun hv => ?_⟩,
    fun fuel r h => (hresult fuel r h).1⟩
  -- from load `t` on every load passes, so a spin of `t + 1` loads ends
  have hpass : ∀ j, t ≤ j → (answerAt t v j != atomicSentinel) = true := by
    intro j hj
    rw [answerAt, if_neg (by omega)]
    simpa using hv
  obtain ⟨k, hk⟩ := Option.isSome_iff_exists.mp
    (Poll.spin_isSome (k := 0) hpass (Nat.lt_succ_self t))
  exact ⟨t + 1, answerAt t v (k + 1), by rw [atomicFetchWait, hk, Option.map_some]⟩

/-- Where `amo_set`'s loop is. -/
inductive AmoSetPc where
  /-- About to call `atomic_fetch` with its guess. -/
  | loop
  /-- Out of the loop: `amo_set` has returned. -/
  | done
  /-- Inside an `atomic_fetch` whose answer is `-100`. -/
  | hung
  deriving DecidableEq, Repr

/-- The remote word `base_heap[pe] + L_offset` and `amo_set`'s loop, with
    history that no step reads: whether a CAS of the loop stored `value`,
    the CASes made, and the stores of other PEs to the word. -/
structure AmoSet where
  value : Int64
  mem : Int64
  cond : Int64
  pc : AmoSetPc
  stored : Bool
  casCount : Nat
  writes : Nat
  deriving DecidableEq, Repr

namespace AmoSet

/-- `amo_set`'s entry: `T cond = 0`, with the word as other PEs left it. -/
def init (value mem : Int64) : AmoSet :=
  { value, mem, cond := 0, pc := .loop, stored := false, casCount := 0, writes := 0 }

/-- One iteration of
    `while ((ret_val = atomic_fetch(..., value, cond, ..., ATOMIC_CS))) {
      if (ret_val == cond) break; cond = ret_val; }`:
    the NIC swaps `value` in when the word holds the guess and answers the
    old word, with which the loop hangs in `atomic_fetch`, leaves, or
    guesses again. -/
def cas (s : AmoSet) : AmoSet :=
  { s with
    mem := if s.mem = s.cond then s.value else s.mem
    stored := s.stored || decide (s.mem = s.cond)
    casCount := s.casCount + 1
    pc := if s.mem = atomicSentinel then .hung
      else if s.mem = 0 then .done
      else if s.mem = s.cond then .done
      else .loop
    cond := if s.mem = atomicSentinel ∨ s.mem = 0 ∨ s.mem = s.cond then s.cond else s.mem }

/-- A store of `v` to the word by another PE. -/
def write (v : Int64) (s : AmoSet) : AmoSet := { s with mem := v, writes := s.writes + 1 }

/-- `n` CASes of the loop with no store by another PE between them, fewer if
    the loop leaves first. -/
def casRun : Nat → AmoSet → AmoSet
  | 0, s => s
  | n + 1, s => if s.pc = .loop then casRun n s.cas else s

end AmoSet

/-- A step: a CAS of the loop while it runs, or a store by another PE. -/
inductive AmoSetStep : AmoSet → AmoSet → Prop where
  | cas {s : AmoSet} (h : s.pc = .loop) : AmoSetStep s s.cas
  | write {s : AmoSet} (v : Int64) : AmoSetStep s (s.write v)

namespace AmoSet

/-- The CASes of a run without stores by others are steps of the system. -/
theorem reflTransGen_casRun (n : Nat) (s : AmoSet) :
    Relation.ReflTransGen AmoSetStep s (casRun n s) := by
  induction n generalizing s with
  | zero => exact Relation.ReflTransGen.refl
  | succ n ih =>
    rw [casRun]
    split_ifs with hloop
    · exact Relation.ReflTransGen.head (AmoSetStep.cas hloop) (ih s.cas)
    · exact Relation.ReflTransGen.refl

/-- A CAS that stays in the loop found a word other than `-100`, 0 and the
    guess, left it as it was, and guesses it. -/
theorem cas_of_loop {s : AmoSet} (h : s.cas.pc = .loop) :
    s.mem ≠ atomicSentinel ∧ s.mem ≠ 0 ∧ s.mem ≠ s.cond ∧ s.cas.mem = s.mem ∧
      s.cas.cond = s.mem := by
  simp only [cas] at h ⊢
  split_ifs at h with h1 h2 h3
  refine ⟨h1, h2, h3, ?_, ?_⟩
  · rw [if_neg h3]
  · rw [if_neg (not_or.mpr ⟨h1, not_or.mpr ⟨h2, h3⟩⟩)]

end AmoSet

/-- Each CAS that stays in the loop follows a store by another PE: while the
    loop runs, it has made at most one CAS more than there were such
    stores, and when it has made exactly one more, the word still holds its
    guess. -/
structure AmoSetInv (s : AmoSet) : Prop where
  casCount_le_two : s.casCount ≤ s.writes + 2
  casCount_le : s.pc = .loop → s.casCount ≤ s.writes + 1
  mem_eq_cond : s.pc = .loop → s.casCount = s.writes + 1 → s.mem = s.cond

namespace AmoSetInv

theorem init (value mem : Int64) : AmoSetInv (AmoSet.init value mem) where
  casCount_le_two := Nat.zero_le _
  casCount_le _ := Nat.zero_le _
  mem_eq_cond _ h := absurd h (by simp [AmoSet.init])

theorem write {s : AmoSet} (h : AmoSetInv s) (v : Int64) : AmoSetInv (s.write v) where
  casCount_le_two := by
    have := h.casCount_le_two
    simp only [AmoSet.write]
    omega
  casCount_le hloop := by
    have := h.casCount_le hloop
    simp only [AmoSet.write] at this ⊢
    omega
  -- a store leaves the loop one CAS ahead at most, never two
  mem_eq_cond hloop hcount := by
    have := h.casCount_le hloop
    simp only [AmoSet.write] at hcount
    omega

theorem cas {s : AmoSet} (h : AmoSetInv s) (hloop : s.pc = .loop) : AmoSetInv s.cas where
  casCount_le_two := by
    have := h.casCount_le hloop
    simp only [AmoSet.cas]
    omega
  casCount_le hloop' := by
    obtain ⟨-, -, hne, -, -⟩ := AmoSet.cas_of_loop hloop'
    -- the word is not the guess, so some store came after the last CAS
    have hlt : s.casCount ≠ s.writes + 1 := fun heq => hne (h.mem_eq_cond hloop heq)
    have := h.casCount_le hloop
    simp only [AmoSet.cas]
    omega
  mem_eq_cond hloop' _ := by
    obtain ⟨-, -, -, hmem, hcond⟩ := AmoSet.cas_of_loop hloop'
    rw [hmem, hcond]

theorem step {s s' : AmoSet} (h : AmoSetInv s) (hs : AmoSetStep s s') : AmoSetInv s' := by
  cases hs with
  | cas hloop => exact h.cas hloop
  | write v => exact h.write v

end AmoSetInv

theorem amoSetInv_reachable {value mem : Int64} {s : AmoSet}
    (hs : Reachable AmoSetStep (AmoSet.init value mem) s) : AmoSetInv s :=
  Reachable.invariant (AmoSetInv.init value mem) (fun _ _ _ hinv hstep => hinv.step hstep) hs

/-- Without stores by other PEs in between, `amo_set` has stored its value
    and returned after at most two CASes, unless the word holds `-100`. -/
theorem amo_set_stores_without_interference (value mem : Int64) (hmem : mem ≠ atomicSentinel) :
    Reachable AmoSetStep (AmoSet.init value mem) (AmoSet.casRun 2 (AmoSet.init value mem)) ∧
      (AmoSet.casRun 2 (AmoSet.init value mem)).pc = .done ∧
      (AmoSet.casRun 2 (AmoSet.init value mem)).stored = true ∧
      (AmoSet.casRun 2 (AmoSet.init value mem)).mem = value := by
  have hzero : (0 : Int64) ≠ atomicSentinel := by decide
  refine ⟨AmoSet.reflTransGen_casRun 2 _, ?_⟩
  by_cases h0 : mem = 0
  · -- the first guess is right: one CAS stores and leaves
    subst h0
    simp [AmoSet.casRun, AmoSet.init, AmoSet.cas, hzero]
  · -- the first CAS answers the word, which the second one finds
    simp [AmoSet.casRun, AmoSet.init, AmoSet.cas, h0, hmem]

/-- The word `5` and value `7`: two CASes store it. -/
theorem amo_set_stores_five_to_seven :
    Reachable AmoSetStep (AmoSet.init 7 5) (AmoSet.casRun 2 (AmoSet.init 7 5)) ∧
      (AmoSet.casRun 2 (AmoSet.init 7 5)).pc = .done ∧
      (AmoSet.casRun 2 (AmoSet.init 7 5)).stored = true ∧
      (AmoSet.casRun 2 (AmoSet.init 7 5)).mem = 7 :=
  amo_set_stores_without_interference 7 5 (by decide)

/-- In every interleaving with stores by other PEs, `amo_set` makes at most
    two CASes more than there were stores, and while it still loops at most
    one more. -/
theorem amo_set_cas_bound (value mem : Int64) (s : AmoSet)
    (hs : Reachable AmoSetStep (AmoSet.init value mem) s) :
    s.casCount ≤ s.writes + 2 ∧ (s.pc = .loop → s.casCount ≤ s.writes + 1) :=
  ⟨(amoSetInv_reachable hs).casCount_le_two, (amoSetInv_reachable hs).casCount_le⟩

/-- The first CAS guesses 0 and finds 5, another PE stores 3, and the
    second CAS guesses 5 and finds 3: two CASes after one store, with the
    loop still running, as many as the bound allows. -/
theorem amo_set_cas_bound_after_store :
    Reachable AmoSetStep (AmoSet.init 7 5) ((AmoSet.init 7 5).cas.write 3).cas ∧
      ((AmoSet.init 7 5).cas.write 3).cas.pc = .loop ∧
      ((AmoSet.init 7 5).cas.write 3).cas.casCount = 2 ∧
      (((AmoSet.init 7 5).cas.write 3).cas.casCount ≤
          ((AmoSet.init 7 5).cas.write 3).cas.writes + 2 ∧
        (((AmoSet.init 7 5).cas.write 3).cas.pc = .loop →
          ((AmoSet.init 7 5).cas.write 3).cas.casCount ≤
            ((AmoSet.init 7 5).cas.write 3).cas.writes + 1)) := by
  have hs : Reachable AmoSetStep (AmoSet.init 7 5) ((AmoSet.init 7 5).cas.write 3).cas :=
    ((Reachable.refl.tail (.cas rfl)).tail (.write 3)).tail (.cas (by decide))
  have h := amo_set_cas_bound 7 5 _ hs
  exact ⟨hs, by decide, by decide, h⟩

/-- From a word other than 0 and `-100`, `amo_set` may return without
    having stored its value: another PE stores 0 between its first CAS,
    which guessed wrong, and its second, which then answers 0. -/
theorem amo_set_may_return_without_storing (value mem : Int64) (h0 : mem ≠ 0)
    (hmem : mem ≠ atomicSentinel) :
    ∃ s, Reachable AmoSetStep (AmoSet.init value mem) s ∧
      s.pc = .done ∧ s.stored = false ∧ s.mem = 0 := by
  have hzero : (0 : Int64) ≠ atomicSentinel := by decide
  -- the first CAS guesses 0 and finds `mem`; it stays in the loop
  have hloop₁ : (AmoSet.init value mem).cas.pc = .loop := by
    simp [AmoSet.init, AmoSet.cas, h0, hmem]
  refine ⟨((AmoSet.init value mem).cas.write 0).cas, ?_, ?_, ?_, ?_⟩
  · have hloop₂ : ((AmoSet.init value mem).cas.write 0).pc = .loop := hloop₁
    exact Reachable.tail (Reachable.tail (Reachable.tail Reachable.refl
      (AmoSetStep.cas rfl)) (AmoSetStep.write 0)) (AmoSetStep.cas hloop₂)
  · simp [AmoSet.init, AmoSet.cas, AmoSet.write, h0, hmem, hzero]
  · simp [AmoSet.init, AmoSet.cas, AmoSet.write, h0, hmem, Ne.symm h0]
  · simp [AmoSet.init, AmoSet.cas, AmoSet.write, h0, hmem, Ne.symm h0]

/-- The word `5`, the value `7`: the second CAS answers the 0 another PE
    stored. -/
theorem amo_set_five_loses_seven :
    ∃ s, Reachable AmoSetStep (AmoSet.init 7 5) s ∧ s.pc = .done ∧ s.stored = false ∧ s.mem = 0 :=
  amo_set_may_return_without_storing 7 5 (by decide) (by decide)

end RocShmem
