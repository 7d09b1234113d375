import Mathlib

/-!
# Swapping Bits by Masks and Shifts

Byte swaps and bit reversals are written without loops, as a few stages
of shifts and masks: a stage shifts a word up and down by the same power
of two `2 ^ k`, keeps from each copy the bits a mask lets through, and ors
the two. When the mask of the upward copy holds exactly the positions whose
bit `k` is set, and the other mask the rest, every bit trades places with
the bit `2 ^ k` away in the other half of its block of `2 ^ (k + 1)`: bit
`i` of the result is bit `i ^^^ 2 ^ k` of the word (`getLsbD_maskSwap`). A
last stage that swaps the two halves of the word needs no mask, since the
shifts already drop what would cross the ends (`getLsbD_halfSwap`).

The index is written `flipBit k i`, as the shifts compute it: `i - 2 ^ k`
when bit `k` of `i` is set, `i + 2 ^ k` otherwise. A swap of stages
`k₁, ..., kₘ` then reads bit `flipBit k₁ (... (flipBit kₘ i))`, a fixed
permutation of the positions that can be checked position by position.

## Main definitions

* `flipBit`: The position whose bit `k` is the complement of `i`'s.
* `maskSwap`: One stage of shifts by `2 ^ k` and masks.
* `halfSwap`: The stage that swaps the two halves of the word.

## Theorems

* `getLsbD_maskSwap`: Bit `i` of a stage is bit `flipBit k i` of its input.
* `getLsbD_halfSwap`: The same for the halves.
-/

namespace BitSwap

/-- The position whose bit `k` is the complement of `i`'s, the others equal. -/
def flipBit (k i : Nat) : Nat := if i.testBit k then i - 2 ^ k else i + 2 ^ k

variable {w : Nat}

/-- `((x << 2^k) & m) | ((x >> 2^k) & m')`. -/
def maskSwap (k : Nat) (m m' x : BitVec w) : BitVec w :=
  ((x <<< 2 ^ k) &&& m) ||| ((x >>> 2 ^ k) &&& m')

/-- `(x << 2^k) | (x >> 2^k)`. -/
def halfSwap (k : Nat) (x : BitVec w) : BitVec w := (x <<< 2 ^ k) ||| (x >>> 2 ^ k)

/-- A stage moves bit `flipBit k i` to `i` when, at `i`, the upward copy's
    mask is bit `k` of `i` and the downward copy's its complement. -/
theorem getLsbD_maskSwap (k : Nat) (m m' x : BitVec w) {i : Nat} (hi : i < w)
    (hm : m.getLsbD i = i.testBit k) (hm' : m'.getLsbD i = !i.testBit k) :
    (maskSwap k m m' x).getLsbD i = x.getLsbD (flipBit k i) := by
  simp only [maskSwap, BitVec.getLsbD_or, BitVec.getLsbD_and, BitVec.getLsbD_shiftLeft,
    BitVec.getLsbD_ushiftRight, hm, hm', flipBit]
  cases hb : i.testBit k with
  | true =>
    -- the upward copy brings bit `i - 2 ^ k`, which lies inside the word
    have hle : 2 ^ k ≤ i := Nat.ge_two_pow_of_testBit hb
    simp [hi, hle]
  | false => simp [Nat.add_comm]

/-- In a word of `2 ^ (k + 1)` bits, swapping the halves moves bit
    `flipBit k i` to `i`. -/
theorem getLsbD_halfSwap {k : Nat} (hw : w = 2 ^ (k + 1)) (x : BitVec w) {i : Nat}
    (hi : i < w) : (halfSwap k x).getLsbD i = x.getLsbD (flipBit k i) := by
  simp only [halfSwap, BitVec.getLsbD_or, BitVec.getLsbD_shiftLeft, BitVec.getLsbD_ushiftRight,
    flipBit]
  cases hb : i.testBit k with
  | true =>
    -- `i` is in the upper half: the downward copy brings a bit past the end
    have hle := Nat.ge_two_pow_of_testBit hb
    have hout : w ≤ 2 ^ k + i := by
      rw [hw, Nat.pow_succ]
      omega
    simp [hle, hi, BitVec.getLsbD_of_ge x _ hout]
  | false =>
    -- `i` is in the lower half: the upward copy has nothing there
    have hlt : i < 2 ^ k := by
      by_contra h
      rw [Nat.testBit_of_two_pow_le_and_two_pow_add_one_gt (by omega) (hw ▸ hi)] at hb
      exact Bool.noConfusion hb
    simp [hlt, Nat.add_comm]

end BitSwap
