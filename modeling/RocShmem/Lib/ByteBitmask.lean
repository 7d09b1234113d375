import Mathlib.Data.List.Basic

/-!
# Bit Masks Stored as Bytes

A set of small naturals kept as an array of bytes, the way C code keeps one
in a `char` array: bit `i` lives in byte `i / CHAR_BIT`, selected by the byte
`1 << (i % CHAR_BIT)`. Bytes are `UInt8`, the bit pattern a `char` holds;
testing a bit promotes the `char` to `int`, which changes no bit below
`CHAR_BIT`, so the test reads the same bit on a signed `char`.

Everything is stated through one reading of a bit, `BitVec.getLsbD` of the
byte, so that setting, clearing, testing and the bytewise AND become
Boolean identities. A bit whose byte is past the end of the array reads as
clear.

## Main definitions

* `ByteBitmask.bitOf`: The byte that selects bit `i` in its byte.
* `ByteBitmask.testBit`, `ByteBitmask.setBit`, `ByteBitmask.clearBit`: The
  three operations on one bit.
* `ByteBitmask.band`, `ByteBitmask.bandAll`: Bytewise AND of masks.
* `ByteBitmask.lowestSet`: The lowest set bit below a bound.

## Theorems

* `ByteBitmask.testBit_setBit`, `ByteBitmask.testBit_clearBit`: Setting or
  clearing bit `i` changes bit `i` only.
* `ByteBitmask.testBit_bandAll`: A bit of the AND is set exactly when it is
  set in every mask.
* `ByteBitmask.lowestSet_eq_some`: The scan finds the lowest set bit.
-/

namespace ByteBitmask

/-- `1 << (i % CHAR_BIT)`: the byte that selects bit `i` in its byte. -/
def bitOf (i : Nat) : UInt8 := 1 <<< (i % 8).toUInt8

/-- `mask[i / CHAR_BIT] & (1 << (i % CHAR_BIT))`, as a truth value; a byte
    past the end reads as `0`. -/
def testBit (mask : List UInt8) (i : Nat) : Bool := (mask.getD (i / 8) 0 &&& bitOf i) != 0

/-- `mask[i / CHAR_BIT] |= 1 << (i % CHAR_BIT)`. -/
def setBit (mask : List UInt8) (i : Nat) : List UInt8 := mask.modify (i / 8) (· ||| bitOf i)

/-- `mask[i / CHAR_BIT] &= ~(1 << (i % CHAR_BIT))`. -/
def clearBit (mask : List UInt8) (i : Nat) : List UInt8 := mask.modify (i / 8) (· &&& ~~~bitOf i)

/-- The bytewise AND of two masks. -/
def band (m m' : List UInt8) : List UInt8 := List.zipWith (· &&& ·) m m'

/-- The bytewise AND of a non-empty family of masks; nothing for none. -/
def bandAll : List (List UInt8) → List UInt8
  | [] => []
  | m :: ms => ms.foldl band m

/-- The lowest bit below `len` that is set, scanning up from bit `0`. -/
def lowestSet (mask : List UInt8) (len : Nat) : Option Nat := (List.range len).find? (testBit mask)

theorem bitOf_toBitVec (i : Nat) : (bitOf i).toBitVec = BitVec.twoPow 8 (i % 8) := by
  rw [BitVec.twoPow_eq]
  simp only [bitOf, UInt8.toBitVec_shiftLeft, BitVec.shiftLeft_eq', BitVec.toNat_umod]
  congr 1
  simp

@[simp] theorem getLsbD_bitOf (i j : Nat) : (bitOf i).toBitVec.getLsbD j = decide (j = i % 8) := by
  rw [bitOf_toBitVec, BitVec.getLsbD_twoPow]
  simp only [Nat.mod_lt i (by decide : 8 > 0), decide_true, Bool.true_and, eq_comm]

/-- Selecting bit `i` of a byte leaves something exactly when that bit is set. -/
theorem and_bitOf_ne_zero (x : UInt8) (i : Nat) :
    x &&& bitOf i ≠ 0 ↔ x.toBitVec.getLsbD (i % 8) = true := by
  rw [ne_eq, ← UInt8.toBitVec_inj, UInt8.toBitVec_and, bitOf_toBitVec, BitVec.and_twoPow]
  split
  · rename_i hbit
    simp only [hbit, iff_true]
    -- The selecting byte itself is not zero: it has bit `i % 8` set.
    intro h0
    have hbit0 := congrArg (fun v : BitVec 8 => v.getLsbD (i % 8)) h0
    simp [Nat.mod_lt i (by decide : 8 > 0)] at hbit0
  · rename_i hbit
    simp only [UInt8.toBitVec_zero, not_true_eq_false, false_iff]
    exact hbit

/-- Bit `i` is bit `i % 8` of byte `i / 8`. -/
theorem testBit_eq (mask : List UInt8) (i : Nat) :
    testBit mask i = (mask.getD (i / 8) 0).toBitVec.getLsbD (i % 8) := by
  rw [Bool.eq_iff_iff, ← and_bitOf_ne_zero]
  simp only [testBit, bne_iff_ne]

theorem testBit_setBit (mask : List UInt8) (i j : Nat) (hi : i / 8 < mask.length) :
    testBit (setBit mask i) j = (testBit mask j || decide (j = i)) := by
  simp only [testBit_eq, setBit, List.getD_eq_getElem?_getD, List.getElem?_modify]
  by_cases hij : i / 8 = j / 8
  · -- Same byte: bit `j % 8` of the new byte, which is bit `i % 8` or was set.
    have hj : j / 8 < mask.length := hij ▸ hi
    rw [List.getElem?_eq_getElem hj]
    simp only [hij, if_true, Option.map_eq_map, Option.map_some, Option.getD_some,
      UInt8.toBitVec_or, BitVec.getLsbD_or, getLsbD_bitOf]
    congr 1
    exact decide_eq_decide.mpr (by omega)
  · have hne : j ≠ i := fun h => hij (h ▸ rfl)
    simp only [hij, if_false, Option.map_eq_map, Option.map_id', hne, decide_false, Bool.or_false]

theorem testBit_clearBit (mask : List UInt8) (i j : Nat) :
    testBit (clearBit mask i) j = (testBit mask j && !decide (j = i)) := by
  simp only [testBit_eq, clearBit, List.getD_eq_getElem?_getD, List.getElem?_modify]
  by_cases hij : i / 8 = j / 8
  · simp only [hij, if_true, Option.map_eq_map]
    cases mask[j / 8]? with
    | none => simp
    | some b =>
        -- Same byte: the bit survives unless it is the one cleared.
        simp only [Option.map_some, Option.getD_some, UInt8.toBitVec_and, UInt8.toBitVec_not,
          BitVec.getLsbD_and, BitVec.getLsbD_not, getLsbD_bitOf, Nat.mod_lt j (by decide : 8 > 0),
          decide_true, Bool.true_and]
        congr 2
        exact decide_eq_decide.mpr (by omega)
  · have hne : j ≠ i := fun h => hij (h ▸ rfl)
    simp only [hij, if_false, Option.map_eq_map, Option.map_id', hne, decide_false,
      Bool.not_false, Bool.and_true]

/-- Setting and clearing a bit keep the number of bytes. -/
@[simp] theorem length_setBit (mask : List UInt8) (i : Nat) :
    (setBit mask i).length = mask.length := List.length_modify ..

@[simp] theorem length_clearBit (mask : List UInt8) (i : Nat) :
    (clearBit mask i).length = mask.length := List.length_modify ..

@[simp] theorem length_foldl_setBit (mask : List UInt8) (l : List Nat) :
    (l.foldl setBit mask).length = mask.length := by
  induction l generalizing mask with
  | nil => rfl
  | cons i l ih => rw [List.foldl_cons, ih, length_setBit]

@[simp] theorem testBit_replicate_zero (n i : Nat) : testBit (List.replicate n 0) i = false := by
  rw [testBit_eq, List.getD_eq_getElem?_getD, List.getElem?_replicate]
  split <;> simp

/-- Setting the bits of a list one after the other, each inside the mask. -/
theorem testBit_foldl_setBit (mask : List UInt8) (l : List Nat)
    (hl : ∀ i ∈ l, i / 8 < mask.length) (j : Nat) :
    testBit (l.foldl setBit mask) j = (testBit mask j || decide (j ∈ l)) := by
  induction l generalizing mask with
  | nil => simp
  | cons i l ih =>
      have hi : i / 8 < mask.length := hl i List.mem_cons_self
      have hl' : ∀ i' ∈ l, i' / 8 < (setBit mask i).length := by
        intro i' hi'
        rw [length_setBit]
        exact hl i' (List.mem_cons_of_mem _ hi')
      rw [List.foldl_cons, ih (setBit mask i) hl', testBit_setBit mask i j hi]
      simp only [List.mem_cons, Bool.decide_or, Bool.or_assoc]

theorem testBit_band (m m' : List UInt8) (i : Nat) :
    testBit (band m m') i = (testBit m i && testBit m' i) := by
  simp only [testBit_eq, band, List.getD_eq_getElem?_getD, List.getElem?_zipWith]
  -- A byte missing from either mask reads as zero on both sides.
  cases m[i / 8]? with
  | none => simp
  | some b =>
      cases m'[i / 8]? with
      | none => simp
      | some b' => simp

theorem testBit_bandAll (m : List UInt8) (ms : List (List UInt8)) (i : Nat) :
    testBit (bandAll (m :: ms)) i = (m :: ms).all (testBit · i) := by
  simp only [bandAll]
  induction ms generalizing m with
  | nil => simp
  | cons m' ms ih =>
      simp only [List.foldl_cons]
      rw [ih, List.all_cons, List.all_cons, List.all_cons, testBit_band, Bool.and_assoc]

theorem lowestSet_eq_some {mask : List UInt8} {len i : Nat} (h : lowestSet mask len = some i) :
    i < len ∧ testBit mask i = true ∧ ∀ j < i, testBit mask j = false := by
  obtain ⟨hi, k, hk, hget, hbefore⟩ := List.find?_eq_some_iff_getElem.mp h
  rw [List.getElem_range] at hget
  subst hget
  have hlen : k < len := by simpa only [List.length_range] using hk
  refine ⟨hlen, hi, ?_⟩
  intro j hj
  have := hbefore j hj
  simpa only [List.getElem_range, Bool.not_eq_true'] using this

end ByteBitmask
