import Mathlib

/-!
# Wavefront Intrinsics

The lanes of a 64-wide wavefront talk to each other through a few intrinsics:
`__ballot(p)` packs one bit per lane into a 64-bit word, `__ffsll(x)` finds the
lowest set bit of a word, and `__shfl_up` moves a 32-bit register one lane up,
so 64-bit values cross in two halves and are put back together.

Code built on them reads runs of lanes off the words: shifting a ballot down
past a lane, inverting it and taking the lowest set bit counts the lanes
above that one, before the first that fails, where the predicate holds
(`ffsll_not_ballot_shiftRight`). Shifts take their amount modulo the width,
as the hardware does, so the shift past the last lane is a shift by `0`; the
count is still right there when lane `0` never holds the predicate.

## Main definitions

* `Wave.ballot`: One bit per lane of a predicate.
* `Wave.ffsll`: One more than the index of the lowest set bit, or `0`.
* `Wave.low32`, `Wave.high32`, `Wave.combine`: A 64-bit value in two halves.
* `Wave.runLen`: How many lanes from a given one on hold a predicate.

## Theorems

* `Wave.getLsbD_ballot`: The bits of a ballot.
* `Wave.ballot_and_shiftLeft_ne_zero`: Testing one lane's bit of a ballot.
* `Wave.ffsll_eq`: `__ffsll` at the lowest set bit.
* `Wave.ffsll_not_ballot_shiftRight`: The run above a lane, read off a ballot.
* `Wave.combine_high32_low32`: The halves put back together.
-/

namespace Wave

/-- `__ballot(p)` over a wavefront of 64 lanes: bit `j` is `p j`. -/
def ballot (p : Nat → Bool) : UInt64 := UInt64.ofBitVec (BitVec.ofFnLE fun j : Fin 64 => p j)

/-- `__ffsll(x)`: one more than the index of the lowest set bit, or `0` when no
    bit is set. -/
def ffsll (x : UInt64) : UInt32 :=
  match (List.range 64).find? fun k => x.toBitVec.getLsbD k with
  | some k => k.toUInt32 + 1
  | none => 0

/-- The low half of a 64-bit value, `uint32_t(x & 0xFFFFFFFF)`. -/
def low32 (x : UInt64) : UInt32 := (x &&& 0xFFFFFFFF).toUInt32

/-- The high half of a 64-bit value, `uint32_t((x >> 32) & 0xFFFFFFFF)`. -/
def high32 (x : UInt64) : UInt32 := ((x >>> 32) &&& 0xFFFFFFFF).toUInt32

/-- Two halves put back together, `(high << 32) | low`. -/
def combine (high low : UInt32) : UInt64 := (high.toUInt64 <<< 32) ||| low.toUInt64

/-- The number of lanes `j, j + 1, ...`, at most `fuel` of them, where `p`
    holds before the first where it fails. -/
def runLen (p : Nat → Bool) (j : Nat) : (fuel : Nat) → Nat
  | 0 => 0
  | fuel + 1 => if p j then runLen p (j + 1) fuel + 1 else 0

theorem getLsbD_ballot (p : Nat → Bool) (j : Nat) :
    (ballot p).toBitVec.getLsbD j = (decide (j < 64) && p j) := by
  simp only [ballot, UInt64.toBitVec_ofBitVec, BitVec.getLsbD_ofFnLE]
  split <;> simp_all

/-- A shift amount given as a number is taken modulo the width. -/
theorem toNat_shift_amount {s : Nat} (hs : s < 2 ^ 64) :
    (s.toUInt64.toBitVec % 64).toNat = s % 64 := by
  simp only [BitVec.toNat_umod, UInt64.toNat_toBitVec, UInt64.toNat_ofNat_of_lt' hs]
  rfl

theorem getLsbD_shiftRight (x : UInt64) {s : Nat} (hs : s < 2 ^ 64) (j : Nat) :
    (x >>> s.toUInt64).toBitVec.getLsbD j = x.toBitVec.getLsbD (s % 64 + j) := by
  rw [UInt64.toBitVec_shiftRight, BitVec.ushiftRight_eq', BitVec.getLsbD_ushiftRight,
    toNat_shift_amount hs]

/-- `mask & (1 << (i - 1))` tests the bit of lane `i - 1`, for a lane `i ≥ 1`. -/
theorem ballot_and_shiftLeft_ne_zero (p : Nat → Bool) {i : Nat} (h1 : 1 ≤ i) (h64 : i < 64) :
    ((ballot p &&& ((1 : UInt64) <<< (i.toUInt64 - 1))) != 0) = p (i - 1) := by
  -- the shifted one is the power of two of lane `i - 1`
  have hpow : ((1 : UInt64) <<< (i.toUInt64 - 1)).toBitVec = BitVec.twoPow 64 (i - 1) := by
    have hamount : ((i.toUInt64 - 1).toBitVec % 64).toNat = i - 1 := by
      simp
      omega
    rw [UInt64.toBitVec_shiftLeft, BitVec.shiftLeft_eq', hamount]
    rfl
  have hword : (ballot p &&& ((1 : UInt64) <<< (i.toUInt64 - 1))).toBitVec =
      if p (i - 1) then BitVec.twoPow 64 (i - 1) else 0#64 := by
    rw [UInt64.toBitVec_and, hpow, BitVec.and_twoPow, getLsbD_ballot]
    simp [show i - 1 < 64 by omega]
  rcases hp : p (i - 1)
  · -- the lane's bit is clear, so the masked word is zero
    have hzero : ballot p &&& ((1 : UInt64) <<< (i.toUInt64 - 1)) = 0 := by
      rw [← UInt64.toBitVec_inj, hword, hp]
      rfl
    simp [hzero]
  · -- the lane's bit is set, and that power of two is not zero
    have hne : ballot p &&& ((1 : UInt64) <<< (i.toUInt64 - 1)) ≠ 0 := by
      intro h
      have hbit := congrArg (fun v : UInt64 => v.toBitVec.getLsbD (i - 1)) h
      simp only [hword, hp, if_true, BitVec.getLsbD_twoPow] at hbit
      simp at hbit
      omega
    simpa using hne

theorem ffsll_eq {x : UInt64} {k : Nat} (hk : k < 64) (hset : x.toBitVec.getLsbD k = true)
    (hbelow : ∀ j < k, x.toBitVec.getLsbD j = false) : ffsll x = k.toUInt32 + 1 := by
  have hfind : (List.range 64).find? (fun k => x.toBitVec.getLsbD k) = some k :=
    List.find?_range_eq_some.2 ⟨hset, List.mem_range.2 hk, fun j hj => by simp [hbelow j hj]⟩
  simp only [ffsll, hfind]

section RunLen

variable (p : Nat → Bool)

theorem runLen_le (j fuel : Nat) : runLen p j fuel ≤ fuel := by
  induction fuel generalizing j with
  | zero => exact Nat.le_refl 0
  | succ fuel ih =>
    unfold runLen
    by_cases h : p j
    · rw [if_pos h]
      exact Nat.succ_le_succ (ih (j + 1))
    · rw [if_neg h]
      exact Nat.zero_le _

/-- Every lane inside the run holds the predicate. -/
theorem runLen_holds (j fuel k : Nat) (hk : k < runLen p j fuel) : p (j + k) = true := by
  induction fuel generalizing j k with
  | zero => exact absurd hk (Nat.not_lt_zero k)
  | succ fuel ih =>
    unfold runLen at hk
    by_cases h : p j
    · rw [if_pos h] at hk
      rcases k with _ | k
      · exact h
      · rw [show j + (k + 1) = (j + 1) + k by omega]
        exact ih (j + 1) k (by omega)
    · rw [if_neg h] at hk
      exact absurd hk (Nat.not_lt_zero k)

/-- The run ends at the fuel or at a lane that fails the predicate. -/
theorem runLen_stop (j fuel : Nat) :
    runLen p j fuel = fuel ∨ p (j + runLen p j fuel) = false := by
  induction fuel generalizing j with
  | zero => exact .inl rfl
  | succ fuel ih =>
    unfold runLen
    by_cases h : p j
    · rw [if_pos h]
      rcases ih (j + 1) with hfuel | hstop
      · exact .inl (by omega)
      · right
        rwa [show j + (runLen p (j + 1) fuel + 1) = j + 1 + runLen p (j + 1) fuel by omega]
    · rw [if_neg h]
      exact .inr (by simpa using h)

end RunLen

/-- Shifting a ballot past lane `i`, inverting it and taking `__ffsll` gives one
    more than the run of lanes above `i` where the predicate holds. At the last
    lane the shift by `64` is a shift by `0`, and the answer is still `1`
    because lane `0` fails the predicate. -/
theorem ffsll_not_ballot_shiftRight (p : Nat → Bool) (hp0 : p 0 = false) {i : Nat} (hi : i < 64) :
    ffsll (~~~(ballot p >>> (i + 1).toUInt64)) = (runLen p (i + 1) (63 - i)).toUInt32 + 1 := by
  have hbit : ∀ k < 64, (~~~(ballot p >>> (i + 1).toUInt64)).toBitVec.getLsbD k =
      !(decide ((i + 1) % 64 + k < 64) && p ((i + 1) % 64 + k)) := fun k hk => by
    rw [UInt64.toBitVec_not, BitVec.getLsbD_not, getLsbD_shiftRight _ (by omega), getLsbD_ballot]
    simp [hk]
  rcases Nat.lt_or_ge i 63 with hlt | hge
  · -- below the last lane the shift is by `i + 1`
    rw [Nat.mod_eq_of_lt (by omega : i + 1 < 64)] at hbit
    have hle := runLen_le p (i + 1) (63 - i)
    refine ffsll_eq (by omega) ?_ fun j hj => ?_
    · rw [hbit _ (by omega)]
      rcases runLen_stop p (i + 1) (63 - i) with hfuel | hstop
      · simp [hfuel]
        omega
      · simp [hstop]
    · rw [hbit _ (by omega), runLen_holds p (i + 1) (63 - i) j hj]
      simp
      omega
  · -- at the last lane the shift by `64` is by `0`, and the run above is empty
    obtain rfl : i = 63 := by omega
    refine ffsll_eq (k := 0) (by omega) ?_ fun j hj => absurd hj (Nat.not_lt_zero j)
    rw [hbit 0 (by omega)]
    simp [hp0]

/-- The two halves of a value, put back together, are the value. -/
theorem combine_high32_low32 (x : UInt64) : combine (high32 x) (low32 x) = x := by
  apply UInt64.toNat_inj.1
  have hx := x.toNat_lt
  have hmask : ∀ n : Nat, n &&& 4294967295 = n % 2 ^ 32 := fun n =>
    Nat.and_two_pow_sub_one_eq_mod n 32
  have hlow : (low32 x).toUInt64.toNat = x.toNat % 2 ^ 32 := by
    simp only [low32, UInt32.toNat_toUInt64, UInt64.toNat_toUInt32, UInt64.toNat_and]
    rw [show (0xFFFFFFFF : UInt64).toNat = 4294967295 from rfl, hmask, Nat.mod_mod]
  have hhigh : (high32 x).toUInt64.toNat = x.toNat / 2 ^ 32 := by
    simp only [high32, UInt32.toNat_toUInt64, UInt64.toNat_toUInt32, UInt64.toNat_and,
      UInt64.toNat_shiftRight]
    rw [show (0xFFFFFFFF : UInt64).toNat = 4294967295 from rfl, hmask, Nat.mod_mod,
      show (32 : UInt64).toNat % 64 = 32 from rfl, Nat.shiftRight_eq_div_pow]
    omega
  have hfit : (x.toNat / 2 ^ 32) <<< 32 < 2 ^ 64 := by
    rw [Nat.shiftLeft_eq]
    omega
  -- the high half shifted up and the low half have no bit in common
  rw [combine, UInt64.toNat_or, UInt64.toNat_shiftLeft, hlow, hhigh,
    show (32 : UInt64).toNat % 64 = 32 from rfl, Nat.mod_eq_of_lt hfit,
    ← Nat.shiftLeft_add_eq_or_of_lt (Nat.mod_lt _ (by norm_num)), Nat.shiftLeft_eq]
  omega

end Wave
