import Mathlib

/-!
# Rings with a Phase Bit

A producer hands entries to a consumer through a ring of `2 ^ L` slots. It
numbers its entries `0, 1, 2, ...`; entry `k` goes to slot `k % 2 ^ L` and
carries the phase of its revolution, the parity of `k / 2 ^ L`, read off
the counter as `(k >>> L) &&& 1`. Nothing else tells the consumer whether a
slot has been refilled since it last looked: to take entry `c` it reads
slot `c % 2 ^ L` and accepts what it finds there when the phase matches the
phase of `c`.

The test is exact as long as producer and consumer are less than a
revolution apart. The slot then holds either entry `c` itself or the entry
one revolution before it, whose phase is the other one
(`phaseMatches_iff`). An entry two revolutions old would pass the test,
which is why the window matters.

The ring is described by what each slot last received (`Holds`), which
every write of the next entry keeps (`Holds.write`).

## Main definitions

* `phase`: The phase of an entry.
* `Holds`: Each slot holds the last entry written to it, or nothing.
* `write`: The producer's write of its next entry.
* `PhaseMatches`: The consumer's test.

## Theorems

* `phase_add_ne`: An entry a revolution later has the other phase.
* `Holds.write`: Writing the next entry keeps the description.
* `phaseMatches_iff`: Within a revolution of the producer, the test passes
  exactly for entries already written.
-/

namespace PhaseRing

variable (L : Nat)

/-- The phase of entry `k`: the parity of the revolution it is written in. -/
def phase (k : Nat) : Nat := (k >>> L) &&& 1

theorem phase_eq (k : Nat) : phase L k = k / 2 ^ L % 2 := by
  rw [phase, Nat.shiftRight_eq_div_pow, Nat.and_one_is_mod]

theorem phase_lt_two (k : Nat) : phase L k < 2 := by
  rw [phase_eq]
  exact Nat.mod_lt _ (by norm_num)

/-- An entry and the one a revolution after it have different phases. -/
theorem phase_add_ne (k : Nat) : phase L (k + 2 ^ L) ≠ phase L k := by
  rw [phase_eq, phase_eq, Nat.add_div_right _ (Nat.two_pow_pos L)]
  omega

/-- The slots once the producer has written entries `0, ..., p - 1`: slot
    `j` holds the last of them written to it, or nothing if none was. -/
def Holds (p : Nat) (ring : Nat → Option Nat) : Prop :=
  ∀ j < 2 ^ L, (ring j = none ∧ p ≤ j) ∨
    ∃ k, ring j = some k ∧ k < p ∧ k % 2 ^ L = j ∧ p ≤ k + 2 ^ L

theorem holds_zero : Holds L 0 fun _ => none :=
  fun j _ => Or.inl ⟨rfl, Nat.zero_le j⟩

/-- The producer writes entry `p` into its slot. -/
def write (p : Nat) (ring : Nat → Option Nat) : Nat → Option Nat :=
  Function.update ring (p % 2 ^ L) (some p)

variable {L}

theorem Holds.write {p : Nat} {ring : Nat → Option Nat} (h : Holds L p ring) :
    Holds L (p + 1) (PhaseRing.write L p ring) := by
  intro j hj
  by_cases hslot : j = p % 2 ^ L
  · -- the slot just written holds entry `p`
    have hpos := Nat.two_pow_pos L
    refine Or.inr ⟨p, ?_, Nat.lt_succ_self p, hslot.symm, by omega⟩
    rw [PhaseRing.write, hslot, Function.update_self]
  · rw [PhaseRing.write, Function.update_of_ne hslot]
    rcases h j hj with ⟨hnone, hle⟩ | ⟨k, hk, hkp, hkj, hpk⟩
    · -- `p` itself would have gone to slot `j`
      have hne : p ≠ j := fun hp => hslot (by rw [← hp, Nat.mod_eq_of_lt (hp ▸ hj)])
      exact Or.inl ⟨hnone, by omega⟩
    · -- entry `k + 2 ^ L` would have gone to slot `j`
      have hne : p ≠ k + 2 ^ L := fun hp => hslot (by rw [hp, Nat.add_mod_right, hkj])
      exact Or.inr ⟨k, hk, by omega, hkj, by omega⟩

variable (L)

/-- The consumer's test for entry `c`: its slot holds an entry of the phase
    of `c`. -/
def PhaseMatches (c : Nat) (ring : Nat → Option Nat) : Prop :=
  ∃ k, ring (c % 2 ^ L) = some k ∧ phase L k = phase L c

variable {L}

/-- Entries less than a revolution apart in the same slot are equal, in a
    ring of any size. -/
theorem eq_of_mod_eq {N a b : Nat} (h : a % N = b % N) (hab : a < b + N) (hba : b < a + N) :
    a = b := by
  have hmod : a ≡ b [MOD N] := h
  exact hmod.eq_of_abs_lt (abs_lt.mpr ⟨by omega, by omega⟩)

/-- Within a revolution of the producer's count `p`, on either side, the
    consumer's test passes for entry `c` exactly when `c` has been written. -/
theorem phaseMatches_iff {p c : Nat} {ring : Nat → Option Nat} (h : Holds L p ring)
    (hlo : p ≤ c + 2 ^ L) (hhi : c < p + 2 ^ L) : PhaseMatches L c ring ↔ c < p := by
  have hj : c % 2 ^ L < 2 ^ L := Nat.mod_lt c (Nat.two_pow_pos L)
  rcases h (c % 2 ^ L) hj with ⟨hnone, hle⟩ | ⟨k, hk, hkp, hkj, hpk⟩
  · -- an empty slot: nothing at or below `c` has been written
    have hcle : c % 2 ^ L ≤ c := Nat.mod_le c _
    constructor
    · rintro ⟨k, hk, -⟩
      rw [hnone] at hk
      cases hk
    · intro hc
      omega
  · constructor
    · -- an entry of the same phase cannot be the one a revolution before `c`
      rintro ⟨k', hk', hphase⟩
      rw [hk, Option.some.injEq] at hk'
      subst hk'
      by_contra hcp
      have hlt : k + 2 ^ L ≤ c := by
        by_contra hlt
        exact hcp (eq_of_mod_eq hkj.symm (by omega) (by omega) ▸ hkp)
      obtain ⟨d, rfl⟩ : ∃ d, c = d + 2 ^ L := ⟨c - 2 ^ L, by omega⟩
      have hdk : d = k := eq_of_mod_eq (by rw [hkj, Nat.add_mod_right]) (by omega) (by omega)
      exact phase_add_ne L k (hdk ▸ hphase.symm)
    · -- both `k` and `c` lie in the last revolution below `p`
      intro hc
      have hkc : k = c := eq_of_mod_eq hkj (by omega) (by omega)
      exact ⟨k, hk, by rw [hkc]⟩

end PhaseRing
