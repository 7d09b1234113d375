import Mathlib

/-!
# Byte Stores

A flat byte-addressed memory, as a function from addresses to bytes, and the
stores that change it. A store of `width` bytes reads the bytes at `src` and
writes them at `dst`, as one GPU store instruction of a loaded value does:
all bytes are read before any is written. Stores run one after another
(`applyAll`).

A copy is a list of stores that each move a piece of a source range to the
same offset of a destination range (`Copies`). When no store writes a byte
that some store reads, every written byte ends up holding the source byte at
its offset, whatever order the stores run in (`applyAll_copies`): this is
what makes a copy split over many threads well defined. A byte no store
writes keeps its value (`applyAll_of_not_written`).

Machine words sit in memory as little-endian bytes: `readLE` reads `n`
bytes as a number and `writeLE` writes the low `n` bytes of one. Bit `i` of
such a number is bit `i % 8` of its byte `i / 8` (`testBit_readLE`,
`testBit_writeLE`). A type whose values are stored in a fixed number of
bytes, as a union of the type and a byte array sees them, is an `ObjRepr`.

## Main definitions

* `Store`, `Store.apply`: One store, and the memory after it.
* `applyAll`: A list of stores run in order.
* `Copies`: A store that copies at matching offsets of two ranges.
* `readLE`, `writeLE`: A number in consecutive bytes, least significant first.
* `ObjRepr`: The object representation of a type stored in `size` bytes.

## Theorems

* `applyAll_of_not_written`: The frame rule.
* `applyAll_copies`: A copy that reads no byte it writes, in any order.
* `readLE_writeLE`: Reading back a written number gives it modulo the width.
* `testBit_readLE`, `testBit_writeLE`: Bits of a number in memory, byte by
  byte.
-/

namespace ByteStore

variable {α : Type}

/-- A store of `width` bytes read at `src` and written at `dst`. -/
structure Store where
  dst : Nat
  src : Nat
  width : Nat
deriving DecidableEq, Repr

namespace Store

/-- The store writes address `a`. -/
def Writes (st : Store) (a : Nat) : Prop := st.dst ≤ a ∧ a < st.dst + st.width

instance (st : Store) (a : Nat) : Decidable (st.Writes a) :=
  inferInstanceAs (Decidable (_ ∧ _))

/-- The store reads address `b`. -/
def Reads (st : Store) (b : Nat) : Prop := st.src ≤ b ∧ b < st.src + st.width

/-- The memory after the store: a written byte holds the source byte at the
    same offset, read before the store. -/
def apply (st : Store) (mem : Nat → α) : Nat → α := fun a =>
  if st.Writes a then mem (st.src + (a - st.dst)) else mem a

theorem apply_of_writes (st : Store) (mem : Nat → α) {a : Nat} (h : st.Writes a) :
    st.apply mem a = mem (st.src + (a - st.dst)) := if_pos h

theorem apply_of_not_writes (st : Store) (mem : Nat → α) {a : Nat} (h : ¬ st.Writes a) :
    st.apply mem a = mem a := if_neg h

end Store

/-- The stores run one after another. -/
def applyAll (sts : List Store) (mem : Nat → α) : Nat → α :=
  sts.foldl (fun m st => st.apply m) mem

@[simp] theorem applyAll_nil (mem : Nat → α) : applyAll [] mem = mem := rfl

@[simp] theorem applyAll_cons (st : Store) (sts : List Store) (mem : Nat → α) :
    applyAll (st :: sts) mem = applyAll sts (st.apply mem) := rfl

/-- A byte that no store writes keeps its value. -/
theorem applyAll_of_not_written {sts : List Store} {a : Nat}
    (h : ∀ st ∈ sts, ¬ st.Writes a) (mem : Nat → α) : applyAll sts mem a = mem a := by
  induction sts generalizing mem with
  | nil => rfl
  | cons st sts ih =>
      rw [applyAll_cons, ih (fun st' hst' => h st' (List.mem_cons_of_mem _ hst')),
        Store.apply_of_not_writes _ _ (h st List.mem_cons_self)]

/-- The store moves bytes of the range at `src` to the same offsets of the
    range at `dst`. -/
def Copies (dst src : Nat) (st : Store) : Prop := dst ≤ st.dst ∧ st.src = src + (st.dst - dst)

/-- A store that copies at matching offsets writes `a` with the source byte
    at `a`'s offset, and reads that byte. -/
theorem Copies.apply_of_writes {dst src : Nat} {st : Store} (hc : Copies dst src st)
    (mem : Nat → α) {a : Nat} (h : st.Writes a) :
    st.apply mem a = mem (src + (a - dst)) := by
  rw [Store.apply_of_writes _ _ h, hc.2]
  congr 1
  have := hc.1
  have := h.1
  omega

theorem Copies.reads_of_writes {dst src : Nat} {st : Store} (hc : Copies dst src st) {a : Nat}
    (h : st.Writes a) : st.Reads (src + (a - dst)) := by
  obtain ⟨hle, hsrc⟩ := hc
  obtain ⟨h₁, h₂⟩ := h
  unfold Store.Reads
  rw [hsrc]
  omega

/-- The copy lemma. Stores that copy at matching offsets, none of which
    writes a byte any of them reads, leave every byte one of them writes
    holding the source byte at its offset, in whatever order they run: each
    such write writes the same value, read from a byte nothing changes. -/
theorem applyAll_copies {dst src : Nat} {sts : List Store} (hc : ∀ st ∈ sts, Copies dst src st)
    (hfree : ∀ st ∈ sts, ∀ st' ∈ sts, ∀ b, st.Reads b → ¬ st'.Writes b) (mem : Nat → α)
    {a : Nat} (ha : ∃ st ∈ sts, st.Writes a) : applyAll sts mem a = mem (src + (a - dst)) := by
  induction sts generalizing mem with
  | nil => simp at ha
  | cons st sts ih =>
      have hc' : ∀ st' ∈ sts, Copies dst src st' := fun st' h => hc st' (List.mem_cons_of_mem _ h)
      have hfree' : ∀ s ∈ sts, ∀ s' ∈ sts, ∀ b, s.Reads b → ¬ s'.Writes b :=
        fun s hs s' hs' => hfree s (List.mem_cons_of_mem _ hs) s' (List.mem_cons_of_mem _ hs')
      rw [applyAll_cons]
      by_cases hlater : ∃ st' ∈ sts, st'.Writes a
      · -- A later store writes `a`; the first store leaves the byte it reads alone.
        obtain ⟨st', hst', hw⟩ := hlater
        rw [ih hc' hfree' _ ⟨st', hst', hw⟩, Store.apply_of_not_writes]
        exact hfree st' (List.mem_cons_of_mem _ hst') st List.mem_cons_self _
          ((hc' st' hst').reads_of_writes hw)
      · -- Only the first store writes `a`.
        simp only [not_exists, not_and] at hlater
        obtain ⟨st', hst', hw⟩ := ha
        rcases List.mem_cons.mp hst' with rfl | hst'
        · rw [applyAll_of_not_written hlater, (hc st' List.mem_cons_self).apply_of_writes _ hw]
        · exact absurd hw (hlater st' hst')

section Words

/-- The `n` bytes at `a` read as a number, least significant byte first. -/
def readLE (mem : Nat → UInt8) (a : Nat) : Nat → Nat
  | 0 => 0
  | n + 1 => (mem a).toNat + 256 * readLE mem (a + 1) n

/-- The memory with the low `n` bytes of `v` written at `a`, least
    significant first. -/
def writeLE (mem : Nat → UInt8) (a n v : Nat) : Nat → UInt8 := fun b =>
  if a ≤ b ∧ b < a + n then UInt8.ofNat (v / 256 ^ (b - a)) else mem b

theorem writeLE_of_not_mem (mem : Nat → UInt8) {a n b : Nat} (v : Nat)
    (h : ¬ (a ≤ b ∧ b < a + n)) : writeLE mem a n v b = mem b := if_neg h

/-- A read sees only its own bytes: two reads agree when their bytes do,
    offset by offset. -/
theorem readLE_congr {mem mem' : Nat → UInt8} {a a' n : Nat}
    (h : ∀ k, k < n → mem (a + k) = mem' (a' + k)) : readLE mem a n = readLE mem' a' n := by
  induction n generalizing a a' with
  | zero => rfl
  | succ n ih =>
      simp only [readLE]
      have h0 := h 0 (by omega)
      rw [Nat.add_zero, Nat.add_zero] at h0
      have hrest : readLE mem (a + 1) n = readLE mem' (a' + 1) n :=
        @ih (a + 1) (a' + 1) fun k hk => by
          rw [Nat.add_assoc, Nat.add_assoc, Nat.add_comm 1 k]
          exact h (k + 1) (by omega)
      rw [h0, hrest]

/-- Reading back the `n` bytes of a write gives the value modulo `256 ^ n`:
    the first byte holds `v % 256`, the rest the bytes of `v / 256`. -/
theorem readLE_writeLE (mem : Nat → UInt8) (a n v : Nat) :
    readLE (writeLE mem a n v) a n = v % 256 ^ n := by
  induction n generalizing a v with
  | zero => simp [readLE, Nat.mod_one]
  | succ n ih =>
      have hrest : readLE (writeLE mem a (n + 1) v) (a + 1) n =
          readLE (writeLE mem (a + 1) n (v / 256)) (a + 1) n := by
        refine readLE_congr fun k hk => ?_
        -- Byte `k + 1` of `v` is byte `k` of `v / 256`.
        have hpow : 256 ^ (a + 1 + k - a) = 256 * 256 ^ (a + 1 + k - (a + 1)) := by
          rw [show a + 1 + k - a = a + 1 + k - (a + 1) + 1 by omega, Nat.pow_succ, Nat.mul_comm]
        simp only [writeLE, if_pos (show a ≤ a + 1 + k ∧ a + 1 + k < a + (n + 1) by omega),
          if_pos (show a + 1 ≤ a + 1 + k ∧ a + 1 + k < a + 1 + n by omega), hpow,
          Nat.div_div_eq_div_mul]
      have hbyte : (UInt8.ofNat v).toNat = v % 256 := by simp
      rw [readLE, hrest, ih, writeLE, if_pos (by omega), Nat.sub_self, Nat.pow_zero, Nat.div_one,
        hbyte, Nat.pow_succ', Nat.mod_mul]

/-- `n` bytes hold less than `2 ^ (8 * n)`. -/
theorem readLE_lt (mem : Nat → UInt8) (a n : Nat) : readLE mem a n < 2 ^ (8 * n) := by
  induction n generalizing a with
  | zero => simp [readLE]
  | succ n ih =>
    have hb : (mem a).toNat < 256 := (mem a).toNat_lt
    have hle : 256 * (readLE mem (a + 1) n + 1) ≤ 2 ^ (8 * n) * 256 := by
      rw [Nat.mul_comm]
      exact Nat.mul_le_mul_right _ (ih (a + 1))
    rw [readLE, Nat.mul_succ, Nat.pow_add]
    omega

/-- Bit `i` of a read is bit `i % 8` of byte `i / 8`. -/
theorem testBit_readLE (mem : Nat → UInt8) (a n i : Nat) :
    (readLE mem a n).testBit i =
      (decide (i / 8 < n) && (mem (a + i / 8)).toNat.testBit (i % 8)) := by
  induction n generalizing a i with
  | zero => simp [readLE]
  | succ n ih =>
    have hb : (mem a).toNat < 2 ^ 8 := (mem a).toNat_lt
    rw [readLE, Nat.add_comm, show (256 : Nat) = 2 ^ 8 from rfl,
      Nat.testBit_two_pow_mul_add _ hb]
    by_cases hi : i < 8
    · -- a bit of the first byte
      have h0 : i / 8 = 0 := Nat.div_eq_of_lt hi
      rw [if_pos hi, h0, Nat.mod_eq_of_lt hi, Nat.add_zero]
      simp
    · -- a bit of the later bytes, at the same place one byte on
      have hdiv : (i - 8) / 8 + 1 = i / 8 := by omega
      have hmod : (i - 8) % 8 = i % 8 := by omega
      rw [if_neg hi, ih, hmod, Nat.add_assoc, Nat.add_comm 1, hdiv]
      congr 1
      simp only [decide_eq_decide]
      omega

/-- Bit `j` of a byte a write covers is bit `j` of the value's byte at its
    offset. -/
theorem testBit_writeLE (mem : Nat → UInt8) {a n b : Nat} (v : Nat) (hb : a ≤ b ∧ b < a + n)
    {j : Nat} (hj : j < 8) :
    (writeLE mem a n v b).toNat.testBit j = v.testBit (8 * (b - a) + j) := by
  rw [writeLE, if_pos hb]
  have hbyte : (UInt8.ofNat (v / 256 ^ (b - a))).toNat = v / 2 ^ (8 * (b - a)) % 2 ^ 8 := by
    rw [Nat.pow_mul]
    simp
  rw [hbyte, Nat.testBit_mod_two_pow, Nat.testBit_div_two_pow]
  simp [hj, Nat.add_comm]

end Words

/-! ## Object representations -/

/-- A type whose values are stored in `size` bytes: its object
    representation as a number below `2 ^ (8 * size)`, read as
    little-endian bytes, and back. Storing a value and reading it back
    gives the value, and every such number is the representation of the
    value read from it. -/
structure ObjRepr (T : Type) where
  size : Nat
  toRepr : T → Nat
  ofRepr : Nat → T
  toRepr_lt : ∀ v, toRepr v < 2 ^ (8 * size)
  ofRepr_toRepr : ∀ v, ofRepr (toRepr v) = v
  toRepr_ofRepr : ∀ n, n < 2 ^ (8 * size) → toRepr (ofRepr n) = n

namespace ObjRepr

variable {S T : Type}

/-- Values with the same representation are equal. -/
theorem toRepr_injective (R : ObjRepr T) {v v' : T} (h : R.toRepr v = R.toRepr v') : v = v' := by
  rw [← R.ofRepr_toRepr v, h, R.ofRepr_toRepr]

/-- A type stored as another through a bijection between them, as a
    `reinterpret_cast` of one's storage to the other's sees it. -/
def reinterpret (R : ObjRepr T) (f : T → S) (g : S → T) (hfg : ∀ s, f (g s) = s)
    (hgf : ∀ t, g (f t) = t) : ObjRepr S where
  size := R.size
  toRepr s := R.toRepr (g s)
  ofRepr n := f (R.ofRepr n)
  toRepr_lt s := R.toRepr_lt (g s)
  ofRepr_toRepr s := by rw [R.ofRepr_toRepr, hfg]
  toRepr_ofRepr n hn := by rw [hgf, R.toRepr_ofRepr n hn]

end ObjRepr

end ByteStore
