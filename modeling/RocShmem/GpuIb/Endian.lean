import Mathlib
import RocShmem.Lib.ByteStore
import RocShmem.Lib.BitSwap

/-!
# Byte Swaps of the Work Queue Entries

The NIC reads the address, key and byte-count fields of a work queue entry
in big-endian order, so `SegmentBuilder` writes each of them through
`swap_endian_store` (`gpu_ib/endian.cpp`). The generic template puts the
value in a union with a byte array, copies the bytes out in reverse with
`std::reverse_copy` and stores the result; the specialisations for 16, 32
and 64 bits instead swap bytes with shifts and masks, in one, two and three
stages, and the signed ones cast to the unsigned type of the same width and
back.

The generic template is modelled over any type stored in a fixed number of
bytes (`ObjRepr`), through the memory of `ByteStore`: its result has, at
bit `i`, the bit of the value at the same place of the mirrored byte
(`testBit_toRepr_swapEndianStore`), and that determines it
(`eq_swapEndianStore_of_testBit`). The mask stages are those of `BitSwap`,
so each specialisation puts bit `flipBit` of a fixed permutation at `i`,
and the permutation is the mirrored byte's, checked position by position.
The specialisations are then the generic template at their types
(`swapEndianStoreU64_eq` and the rest), and swapping twice gives the value
back, for the generic template at every type
(`swapEndianStore_swapEndianStore`) and so for each of them.

## Main definitions

* `swapEndianStore`: The generic template.
* `swapEndianStoreU16`, `swapEndianStoreU32`, `swapEndianStoreU64`: The mask
  specialisations.
* `swapEndianStoreI16`, `swapEndianStoreI32`, `swapEndianStoreI64`: The
  signed ones, through the unsigned type.
* `uint16Repr`, ..., `int64Repr`: How the six types are stored.

## Theorems

* `testBit_toRepr_swapEndianStore`: The generic template mirrors the bytes.
* `swapEndianStore_swapEndianStore`: It is an involution.
* `swapEndianStoreU64_eq` and the rest: Each specialisation is the generic
  template at its type.
* `cast_eq_swapEndianStore_reinterpret`: A swap between the casts is the
  template at the reinterpreted type, which gives the signed ones.
-/

namespace RocShmem

open ByteStore BitSwap

variable {T : Type}

/-! ## The generic template -/

/-- `swap_endian_store<T>(dst, val)`: `val` stored in the union, its bytes
    copied in reverse order into a second union, and that union's value
    stored at `dst`. -/
def swapEndianStore (R : ObjRepr T) (val : T) : T :=
  -- `src.val = val`
  let src := writeLE (fun _ => 0) 0 R.size (R.toRepr val)
  -- `std::reverse_copy(src.bytes, src.bytes + sizeof(T), dst_tmp.bytes)`
  let dstTmp : Nat → UInt8 := fun k => src (R.size - 1 - k)
  -- `*dst = dst_tmp.val`
  R.ofRepr (readLE dstTmp 0 R.size)

/-- Bit `i` of the swap is the bit at the same place of the value's byte
    `size - 1 - i / 8`. -/
theorem testBit_toRepr_swapEndianStore (R : ObjRepr T) (val : T) (i : Nat) :
    (R.toRepr (swapEndianStore R val)).testBit i =
      (decide (i < 8 * R.size) &&
        (R.toRepr val).testBit (8 * (R.size - 1 - i / 8) + i % 8)) := by
  rw [swapEndianStore, R.toRepr_ofRepr _ (readLE_lt _ _ _), testBit_readLE]
  by_cases hi : i < 8 * R.size
  · -- byte `i / 8` of the copy is byte `size - 1 - i / 8` of the union
    have hbyte : i / 8 < R.size := by omega
    rw [Nat.zero_add, testBit_writeLE _ _ (by omega) (Nat.mod_lt i (by norm_num)),
      Nat.sub_zero]
    simp [hi, hbyte]
  · have hbyte : ¬ i / 8 < R.size := by omega
    simp [hi, hbyte]

/-- A bit of the representation at or past `8 * size` is clear. -/
theorem testBit_toRepr_of_le (R : ObjRepr T) (val : T) {i : Nat} (hi : 8 * R.size ≤ i) :
    (R.toRepr val).testBit i = false :=
  Nat.testBit_lt_two_pow ((R.toRepr_lt val).trans_le (Nat.pow_le_pow_right (by norm_num) hi))

/-- The generic template is the only function that mirrors the bytes: one
    that puts at every bit below `8 * size` the bit of the mirrored byte is
    the generic template. -/
theorem eq_swapEndianStore_of_testBit (R : ObjRepr T) {f : T → T}
    (hf : ∀ v i, i < 8 * R.size →
      (R.toRepr (f v)).testBit i = (R.toRepr v).testBit (8 * (R.size - 1 - i / 8) + i % 8))
    (val : T) : f val = swapEndianStore R val := by
  refine R.toRepr_injective (Nat.eq_of_testBit_eq fun i => ?_)
  rw [testBit_toRepr_swapEndianStore]
  by_cases hi : i < 8 * R.size
  · rw [hf val i hi, decide_eq_true hi, Bool.true_and]
  · rw [testBit_toRepr_of_le R (f val) (i := i) (by omega), decide_eq_false hi, Bool.false_and]

/-- Swapping twice gives the value back: mirroring a byte index twice
    returns it. -/
theorem swapEndianStore_swapEndianStore (R : ObjRepr T) (val : T) :
    swapEndianStore R (swapEndianStore R val) = val := by
  refine R.toRepr_injective (Nat.eq_of_testBit_eq fun i => ?_)
  rw [testBit_toRepr_swapEndianStore, testBit_toRepr_swapEndianStore]
  by_cases hi : i < 8 * R.size
  · have hmirror : 8 * (R.size - 1 - i / 8) + i % 8 < 8 * R.size := by omega
    have hback : 8 * (R.size - 1 - (8 * (R.size - 1 - i / 8) + i % 8) / 8) +
        (8 * (R.size - 1 - i / 8) + i % 8) % 8 = i := by omega
    rw [decide_eq_true hi, decide_eq_true hmirror, hback, Bool.true_and, Bool.true_and]
  · rw [decide_eq_false hi, Bool.false_and, testBit_toRepr_of_le R val (i := i) (by omega)]

/-- The template at a type stored as another is the template there, cast. -/
theorem swapEndianStore_reinterpret {S : Type} (R : ObjRepr T) (f : T → S) (g : S → T)
    (hfg : ∀ s, f (g s) = s) (hgf : ∀ t, g (f t) = t) (val : S) :
    swapEndianStore (R.reinterpret f g hfg hgf) val = f (swapEndianStore R (g val)) := rfl

/-! ## How the six types are stored -/

/-- `uint16_t`: two bytes. -/
def uint16Repr : ObjRepr UInt16 where
  size := 2
  toRepr := UInt16.toNat
  ofRepr := UInt16.ofNat
  toRepr_lt v := v.toNat_lt
  ofRepr_toRepr _ := UInt16.ofNat_toNat
  toRepr_ofRepr _ hn := UInt16.toNat_ofNat_of_lt' hn

/-- `uint32_t`: four bytes. -/
def uint32Repr : ObjRepr UInt32 where
  size := 4
  toRepr := UInt32.toNat
  ofRepr := UInt32.ofNat
  toRepr_lt v := v.toNat_lt
  ofRepr_toRepr _ := UInt32.ofNat_toNat
  toRepr_ofRepr _ hn := UInt32.toNat_ofNat_of_lt' hn

/-- `uint64_t`: eight bytes. -/
def uint64Repr : ObjRepr UInt64 where
  size := 8
  toRepr := UInt64.toNat
  ofRepr := UInt64.ofNat
  toRepr_lt v := v.toNat_lt
  ofRepr_toRepr _ := UInt64.ofNat_toNat
  toRepr_ofRepr _ hn := UInt64.toNat_ofNat_of_lt' hn

/-- `int16_t`: the two bytes of its two's-complement bits. -/
def int16Repr : ObjRepr Int16 :=
  uint16Repr.reinterpret UInt16.toInt16 Int16.toUInt16 Int16.toInt16_toUInt16
    UInt16.toUInt16_toInt16

/-- `int32_t`: the four bytes of its two's-complement bits. -/
def int32Repr : ObjRepr Int32 :=
  uint32Repr.reinterpret UInt32.toInt32 Int32.toUInt32 Int32.toInt32_toUInt32
    UInt32.toUInt32_toInt32

/-- `int64_t`: the eight bytes of its two's-complement bits. -/
def int64Repr : ObjRepr Int64 :=
  uint64Repr.reinterpret UInt64.toInt64 Int64.toUInt64 Int64.toInt64_toUInt64
    UInt64.toUInt64_toInt64

/-! ## The specialisations -/

/-- `swap_endian_store(uint16_t *dst, const uint16_t val)`. -/
def swapEndianStoreU16 (val : UInt16) : UInt16 :=
  ((val <<< 8) &&& (0xFF00 : UInt16)) ||| ((val >>> 8) &&& (0x00FF : UInt16))

/-- `swap_endian_store(int16_t *dst, const int16_t val)`: the `uint16_t`
    swap of `(const uint16_t)val`, stored through a `uint16_t *`. -/
def swapEndianStoreI16 (val : Int16) : Int16 := (swapEndianStoreU16 val.toUInt16).toInt16

/-- `swap_endian_store(uint32_t *dst, const uint32_t val)`. -/
def swapEndianStoreU32 (val : UInt32) : UInt32 :=
  let newVal : UInt32 :=
    ((val <<< 8) &&& (0xFF00FF00 : UInt32)) ||| ((val >>> 8) &&& (0xFF00FF : UInt32))
  (newVal <<< 16) ||| (newVal >>> 16)

/-- `swap_endian_store(int32_t *dst, const int32_t val)`. -/
def swapEndianStoreI32 (val : Int32) : Int32 := (swapEndianStoreU32 val.toUInt32).toInt32

/-- `swap_endian_store(uint64_t *dst, const uint64_t val)`. -/
def swapEndianStoreU64 (val : UInt64) : UInt64 :=
  let newVal : UInt64 := ((val <<< 8) &&& (0xFF00FF00FF00FF00 : UInt64)) |||
    ((val >>> 8) &&& (0x00FF00FF00FF00FF : UInt64))
  let newVal : UInt64 := ((newVal <<< 16) &&& (0xFFFF0000FFFF0000 : UInt64)) |||
    ((newVal >>> 16) &&& (0x0000FFFF0000FFFF : UInt64))
  (newVal <<< 32) ||| (newVal >>> 32)

/-- `swap_endian_store(int64_t *dst, const int64_t val)`. -/
def swapEndianStoreI64 (val : Int64) : Int64 := (swapEndianStoreU64 val.toUInt64).toInt64

/-! ## The stages -/

theorem toBitVec_swapEndianStoreU16 (val : UInt16) :
    (swapEndianStoreU16 val).toBitVec = maskSwap 3 0xFF00#16 0x00FF#16 val.toBitVec := rfl

theorem toBitVec_swapEndianStoreU32 (val : UInt32) :
    (swapEndianStoreU32 val).toBitVec =
      halfSwap 4 (maskSwap 3 0xFF00FF00#32 0x00FF00FF#32 val.toBitVec) := rfl

theorem toBitVec_swapEndianStoreU64 (val : UInt64) :
    (swapEndianStoreU64 val).toBitVec =
      halfSwap 5 (maskSwap 4 0xFFFF0000FFFF0000#64 0x0000FFFF0000FFFF#64
        (maskSwap 3 0xFF00FF00FF00FF00#64 0x00FF00FF00FF00FF#64 val.toBitVec)) := rfl

/-! ## Each specialisation is the template

A stage's masks hold, at every position, bit `k` of the position or its
complement, and the stages together send position `i` to the mirrored
byte's: both are facts about the finitely many positions of a word, checked
one position at a time. -/

theorem getLsbD_masks16 : ∀ i < 16,
    (0xFF00#16).getLsbD i = i.testBit 3 ∧ (0x00FF#16).getLsbD i = !i.testBit 3 := by
  decide

theorem flipBit_mirror16 : ∀ i < 16, flipBit 3 i = 8 * (2 - 1 - i / 8) + i % 8 := by
  decide

theorem getLsbD_masks32 : ∀ i < 32,
    (0xFF00FF00#32).getLsbD i = i.testBit 3 ∧ (0x00FF00FF#32).getLsbD i = !i.testBit 3 := by
  decide

theorem flipBit_mirror32 : ∀ i < 32, flipBit 4 i < 32 ∧
    flipBit 3 (flipBit 4 i) = 8 * (4 - 1 - i / 8) + i % 8 := by
  decide

theorem getLsbD_masks64 : ∀ i < 64,
    (0xFF00FF00FF00FF00#64).getLsbD i = i.testBit 3 ∧
      (0x00FF00FF00FF00FF#64).getLsbD i = !i.testBit 3 ∧
      (0xFFFF0000FFFF0000#64).getLsbD i = i.testBit 4 ∧
      (0x0000FFFF0000FFFF#64).getLsbD i = !i.testBit 4 := by
  decide

theorem flipBit_mirror64 : ∀ i < 64, flipBit 5 i < 64 ∧ flipBit 4 (flipBit 5 i) < 64 ∧
    flipBit 3 (flipBit 4 (flipBit 5 i)) = 8 * (8 - 1 - i / 8) + i % 8 := by
  decide

theorem swapEndianStoreU16_eq (val : UInt16) :
    swapEndianStoreU16 val = swapEndianStore uint16Repr val := by
  refine eq_swapEndianStore_of_testBit uint16Repr (fun v i hi => ?_) val
  -- the word has 16 bits
  replace hi : i < 16 := hi
  obtain ⟨m8, m8'⟩ := getLsbD_masks16 i hi
  -- bit `i` of a `uint16_t` is bit `i` of its bits
  show (swapEndianStoreU16 v).toBitVec.getLsbD i =
    v.toBitVec.getLsbD (8 * (2 - 1 - i / 8) + i % 8)
  rw [toBitVec_swapEndianStoreU16, getLsbD_maskSwap 3 _ _ _ hi m8 m8', flipBit_mirror16 i hi]

theorem swapEndianStoreU32_eq (val : UInt32) :
    swapEndianStoreU32 val = swapEndianStore uint32Repr val := by
  refine eq_swapEndianStore_of_testBit uint32Repr (fun v i hi => ?_) val
  -- the word has 32 bits
  replace hi : i < 32 := hi
  obtain ⟨h4, hperm⟩ := flipBit_mirror32 i hi
  obtain ⟨m8, m8'⟩ := getLsbD_masks32 _ h4
  show (swapEndianStoreU32 v).toBitVec.getLsbD i =
    v.toBitVec.getLsbD (8 * (4 - 1 - i / 8) + i % 8)
  rw [toBitVec_swapEndianStoreU32, getLsbD_halfSwap (k := 4) rfl _ hi,
    getLsbD_maskSwap 3 _ _ _ h4 m8 m8', hperm]

theorem swapEndianStoreU64_eq (val : UInt64) :
    swapEndianStoreU64 val = swapEndianStore uint64Repr val := by
  refine eq_swapEndianStore_of_testBit uint64Repr (fun v i hi => ?_) val
  -- the word has 64 bits
  replace hi : i < 64 := hi
  obtain ⟨h5, h4, hperm⟩ := flipBit_mirror64 i hi
  obtain ⟨-, -, m16, m16'⟩ := getLsbD_masks64 _ h5
  obtain ⟨m8, m8', -, -⟩ := getLsbD_masks64 _ h4
  show (swapEndianStoreU64 v).toBitVec.getLsbD i =
    v.toBitVec.getLsbD (8 * (8 - 1 - i / 8) + i % 8)
  rw [toBitVec_swapEndianStoreU64, getLsbD_halfSwap (k := 5) rfl _ hi,
    getLsbD_maskSwap 4 _ _ _ h5 m16 m16', getLsbD_maskSwap 3 _ _ _ h4 m8 m8', hperm]

/-! The signed specialisations are the unsigned ones on the same bits. -/

/-- A function that is the template at `T`, between the casts, is the
    template at the type reinterpreted through them. -/
theorem cast_eq_swapEndianStore_reinterpret {S : Type} (R : ObjRepr T) (f : T → S) (g : S → T)
    (hfg : ∀ s, f (g s) = s) (hgf : ∀ t, g (f t) = t) {swap : T → T}
    (hswap : ∀ v, swap v = swapEndianStore R v) (val : S) :
    f (swap (g val)) = swapEndianStore (R.reinterpret f g hfg hgf) val := by
  rw [swapEndianStore_reinterpret, hswap]

theorem swapEndianStoreI16_eq (val : Int16) :
    swapEndianStoreI16 val = swapEndianStore int16Repr val :=
  cast_eq_swapEndianStore_reinterpret uint16Repr _ _ _ _ swapEndianStoreU16_eq val

theorem swapEndianStoreI32_eq (val : Int32) :
    swapEndianStoreI32 val = swapEndianStore int32Repr val :=
  cast_eq_swapEndianStore_reinterpret uint32Repr _ _ _ _ swapEndianStoreU32_eq val

theorem swapEndianStoreI64_eq (val : Int64) :
    swapEndianStoreI64 val = swapEndianStore int64Repr val :=
  cast_eq_swapEndianStore_reinterpret uint64Repr _ _ _ _ swapEndianStoreU64_eq val

/-- A function that is the template at its type undoes itself. -/
theorem involutive_of_eq_swapEndianStore (R : ObjRepr T) {f : T → T}
    (hf : ∀ v, f v = swapEndianStore R v) (val : T) : f (f val) = val := by
  rw [hf, hf, swapEndianStore_swapEndianStore]

/-- Every specialisation of `swap_endian_store` stores what the generic
    template stores, the value with its bytes in reverse order, and
    applying it twice gives the value back. -/
theorem swap_endian_store_matches_reverse_copy :
    (∀ v : UInt16, swapEndianStoreU16 v = swapEndianStore uint16Repr v ∧
      swapEndianStoreU16 (swapEndianStoreU16 v) = v) ∧
    (∀ v : Int16, swapEndianStoreI16 v = swapEndianStore int16Repr v ∧
      swapEndianStoreI16 (swapEndianStoreI16 v) = v) ∧
    (∀ v : UInt32, swapEndianStoreU32 v = swapEndianStore uint32Repr v ∧
      swapEndianStoreU32 (swapEndianStoreU32 v) = v) ∧
    (∀ v : Int32, swapEndianStoreI32 v = swapEndianStore int32Repr v ∧
      swapEndianStoreI32 (swapEndianStoreI32 v) = v) ∧
    (∀ v : UInt64, swapEndianStoreU64 v = swapEndianStore uint64Repr v ∧
      swapEndianStoreU64 (swapEndianStoreU64 v) = v) ∧
    (∀ v : Int64, swapEndianStoreI64 v = swapEndianStore int64Repr v ∧
      swapEndianStoreI64 (swapEndianStoreI64 v) = v) :=
  ⟨fun v => ⟨swapEndianStoreU16_eq v,
      involutive_of_eq_swapEndianStore uint16Repr swapEndianStoreU16_eq v⟩,
    fun v => ⟨swapEndianStoreI16_eq v,
      involutive_of_eq_swapEndianStore int16Repr swapEndianStoreI16_eq v⟩,
    fun v => ⟨swapEndianStoreU32_eq v,
      involutive_of_eq_swapEndianStore uint32Repr swapEndianStoreU32_eq v⟩,
    fun v => ⟨swapEndianStoreI32_eq v,
      involutive_of_eq_swapEndianStore int32Repr swapEndianStoreI32_eq v⟩,
    fun v => ⟨swapEndianStoreU64_eq v,
      involutive_of_eq_swapEndianStore uint64Repr swapEndianStoreU64_eq v⟩,
    fun v => ⟨swapEndianStoreI64_eq v,
      involutive_of_eq_swapEndianStore int64Repr swapEndianStoreI64_eq v⟩⟩

end RocShmem
