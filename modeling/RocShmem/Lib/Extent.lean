import Mathlib

/-!
# Byte Extents

Half-open ranges of addresses `[base, base + len)` and the facts an allocator
needs about them: when two ranges share no byte, when one lies inside
another, how a range splits into two halves, and how all of this moves under
a translation of every address by the same amount.

Nothing here knows what an allocator is. The allocator layers keep a list of
extents (the free blocks and the handed-out blocks together), and the one
thing they need to know about that list is `Packed`: its members share no
byte and all lie inside one region. Every allocator operation either
reorders that list or cuts one member in half, and `Refines` is the
reflexive-transitive closure of exactly those two moves. `Packed` and the
total length are invariant under it, which is what lets the allocator proofs
say once, for a whole cascade of splits, that nothing overlapped and nothing
was lost.

Disjointness is the arithmetic form `a.stop ≤ b.base ∨ b.stop ≤ a.base`,
which `omega` can use directly.

## Main definitions

* `Extent`: A base address and a length.
* `Extent.Disjoint`: Two extents share no byte.
* `Extent.Within`: One extent lies inside another.
* `Extent.lowerHalf`, `Extent.upperHalf`: The two halves of an extent.
* `Extent.shift`: An extent translated by a fixed offset.
* `Packed`: A list of pairwise disjoint extents inside one region.
* `Refines`: Reordering and halving, any number of times.

## Theorems

* `Packed.perm`: Packing does not depend on the order of the list.
* `Packed.replace`: Replacing an extent by two disjoint pieces of it.
* `Refines.packed`: Refining a packed list keeps it packed.
* `Refines.total_eq`: Refining keeps the total length.
* `Packed.shift`: Translating every extent keeps the packing.
-/

/-- The half-open range of addresses `[base, base + len)`. -/
structure Extent where
  base : Nat
  len : Nat
deriving DecidableEq, Repr

namespace Extent

/-- One past the last address of the extent. -/
def stop (e : Extent) : Nat := e.base + e.len

/-- An address lies in the extent. -/
def Mem (x : Nat) (e : Extent) : Prop := e.base ≤ x ∧ x < e.stop

/-- The two extents share no byte: one ends before the other starts. -/
def Disjoint (a b : Extent) : Prop := a.stop ≤ b.base ∨ b.stop ≤ a.base

/-- The first extent lies inside the second. -/
def Within (a r : Extent) : Prop := r.base ≤ a.base ∧ a.stop ≤ r.stop

instance (x : Nat) (e : Extent) : Decidable (Mem x e) :=
  inferInstanceAs (Decidable (_ ∧ _))

instance (a b : Extent) : Decidable (Disjoint a b) :=
  inferInstanceAs (Decidable (_ ∨ _))

instance (a r : Extent) : Decidable (Within a r) :=
  inferInstanceAs (Decidable (_ ∧ _))

/-- The lower half of an extent. -/
def lowerHalf (e : Extent) : Extent := ⟨e.base, e.len / 2⟩

/-- The upper half of an extent. -/
def upperHalf (e : Extent) : Extent := ⟨e.base + e.len / 2, e.len / 2⟩

/-- The extent translated by `d`. -/
def shift (d : Nat) (e : Extent) : Extent := ⟨e.base + d, e.len⟩

@[simp] theorem stop_mk (b n : Nat) : (Extent.mk b n).stop = b + n := rfl

@[simp] theorem shift_base (d : Nat) (e : Extent) : (e.shift d).base = e.base + d := rfl

@[simp] theorem shift_len (d : Nat) (e : Extent) : (e.shift d).len = e.len := rfl

theorem Disjoint.symm {a b : Extent} (h : Disjoint a b) : Disjoint b a := by
  rcases h with h | h
  · exact Or.inr h
  · exact Or.inl h

theorem Within.trans {a b c : Extent} (hab : Within a b) (hbc : Within b c) : Within a c := by
  simp only [Within, stop] at *
  omega

/-- An extent inside one of two disjoint extents is disjoint from the other. -/
theorem Disjoint.of_within {a b c : Extent} (h : Disjoint b c) (hab : Within a b) :
    Disjoint a c := by
  simp only [Disjoint, Within, stop] at *
  omega

theorem lowerHalf_disjoint_upperHalf (e : Extent) : Disjoint e.lowerHalf e.upperHalf :=
  Or.inl (Nat.le_refl _)

theorem lowerHalf_within (e : Extent) : Within e.lowerHalf e := by
  simp only [Within, lowerHalf, stop]
  omega

theorem upperHalf_within (e : Extent) : Within e.upperHalf e := by
  simp only [Within, upperHalf, stop]
  omega

theorem shift_disjoint_iff (d : Nat) (a b : Extent) :
    Disjoint (a.shift d) (b.shift d) ↔ Disjoint a b := by
  simp only [Disjoint, shift, stop]
  omega

theorem shift_within_iff (d : Nat) (a r : Extent) :
    Within (a.shift d) (r.shift d) ↔ Within a r := by
  simp only [Within, shift, stop]
  omega

end Extent

/-- The extents of the list share no byte and all lie inside `region`. -/
structure Packed (region : Extent) (l : List Extent) : Prop where
  pairwise : l.Pairwise Extent.Disjoint
  within : ∀ e ∈ l, e.Within region

/-- The sum of the lengths of a list of extents. -/
def totalLen (l : List Extent) : Nat := (l.map Extent.len).sum

@[simp] theorem totalLen_nil : totalLen [] = 0 := rfl

@[simp] theorem totalLen_cons (e : Extent) (l : List Extent) :
    totalLen (e :: l) = e.len + totalLen l := by
  simp only [totalLen, List.map_cons, List.sum_cons]

@[simp] theorem totalLen_append (l₁ l₂ : List Extent) :
    totalLen (l₁ ++ l₂) = totalLen l₁ + totalLen l₂ := by
  simp only [totalLen, List.map_append, List.sum_append]

theorem totalLen_perm {l₁ l₂ : List Extent} (h : l₁.Perm l₂) : totalLen l₁ = totalLen l₂ :=
  (h.map Extent.len).sum_nat

theorem Packed.perm {region : Extent} {l₁ l₂ : List Extent} (h : Packed region l₁)
    (hp : l₁.Perm l₂) : Packed region l₂ :=
  ⟨hp.pairwise h.pairwise Extent.Disjoint.symm, fun e he => h.within e (hp.mem_iff.mpr he)⟩

/-- Replacing one extent of a packed list by two disjoint pieces of it keeps
    the list packed: the pieces lie inside the extent they came from, so
    inside the region and away from everything else. -/
theorem Packed.replace {region e a b : Extent} {rest : List Extent}
    (h : Packed region (e :: rest)) (ha : a.Within e) (hb : b.Within e) (hab : a.Disjoint b) :
    Packed region (a :: b :: rest) := by
  obtain ⟨hpair, hwithin⟩ := h
  rw [List.pairwise_cons] at hpair
  obtain ⟨he, hrest⟩ := hpair
  have hwe : e.Within region := hwithin e List.mem_cons_self
  refine ⟨?_, ?_⟩
  · refine List.Pairwise.cons ?_ (List.Pairwise.cons ?_ hrest)
    · intro x hx
      rcases List.mem_cons.mp hx with rfl | hx
      · exact hab
      · exact (he x hx).of_within ha
    · intro x hx
      exact (he x hx).of_within hb
  · intro x hx
    rcases List.mem_cons.mp hx with rfl | hx
    · exact ha.trans hwe
    rcases List.mem_cons.mp hx with rfl | hx
    · exact hb.trans hwe
    · exact hwithin x (List.mem_cons_of_mem e hx)

/-- Cutting one extent of a packed list into its halves keeps it packed. -/
theorem Packed.halve {region e : Extent} {rest : List Extent}
    (h : Packed region (e :: rest)) :
    Packed region (e.lowerHalf :: e.upperHalf :: rest) :=
  h.replace e.lowerHalf_within e.upperHalf_within e.lowerHalf_disjoint_upperHalf

/-- Cutting the first `k` bytes off one extent of a packed list keeps it
    packed. -/
theorem Packed.cut {region e : Extent} {rest : List Extent} (k : Nat) (hk : k ≤ e.len)
    (h : Packed region (e :: rest)) :
    Packed region (⟨e.base, k⟩ :: ⟨e.base + k, e.len - k⟩ :: rest) := by
  refine h.replace ?_ ?_ (Or.inl (Nat.le_refl _)) <;>
    simp only [Extent.Within, Extent.stop] <;> omega

/-- A sublist of a packed list is packed. -/
theorem Packed.sublist {region : Extent} {l₁ l₂ : List Extent} (h : Packed region l₂)
    (hs : l₁.Sublist l₂) : Packed region l₁ :=
  ⟨h.pairwise.sublist hs, fun e he => h.within e (hs.subset he)⟩

/-- One move of a refinement: reorder the list, or cut one extent of even
    length into its halves. -/
def Regroup (l l' : List Extent) : Prop :=
  l.Perm l' ∨ ∃ e rest, e.len % 2 = 0 ∧ l.Perm (e :: rest) ∧
    l'.Perm (e.lowerHalf :: e.upperHalf :: rest)

/-- Any number of reorderings and halvings. -/
def Refines : List Extent → List Extent → Prop := Relation.ReflTransGen Regroup

namespace Refines

theorem refl (l : List Extent) : Refines l l := Relation.ReflTransGen.refl

theorem trans {l₁ l₂ l₃ : List Extent} (h₁ : Refines l₁ l₂) (h₂ : Refines l₂ l₃) :
    Refines l₁ l₃ :=
  Relation.ReflTransGen.trans h₁ h₂

theorem of_perm {l l' : List Extent} (h : l.Perm l') : Refines l l' :=
  Relation.ReflTransGen.single (Or.inl h)

/-- Cutting the head of a list in half is a refinement. -/
theorem halve (e : Extent) (rest : List Extent) (he : e.len % 2 = 0) :
    Refines (e :: rest) (e.lowerHalf :: e.upperHalf :: rest) :=
  Relation.ReflTransGen.single (Or.inr ⟨e, rest, he, List.Perm.refl _, List.Perm.refl _⟩)

theorem regroup_append_left (ctx : List Extent) {l l' : List Extent} (h : Regroup l l') :
    Regroup (ctx ++ l) (ctx ++ l') := by
  rcases h with hp | ⟨e, rest, he, hl, hl'⟩
  · exact Or.inl (hp.append_left ctx)
  · refine Or.inr ⟨e, ctx ++ rest, he, ?_, ?_⟩
    · exact (hl.append_left ctx).trans List.perm_middle
    · exact (hl'.append_left ctx).trans (List.perm_middle.trans
        (List.Perm.cons _ List.perm_middle))

/-- A refinement of part of a list refines the whole list. -/
theorem append_left (ctx : List Extent) {l l' : List Extent} (h : Refines l l') :
    Refines (ctx ++ l) (ctx ++ l') := by
  induction h with
  | refl => exact refl _
  | tail _ hstep ih => exact Relation.ReflTransGen.tail ih (regroup_append_left ctx hstep)

theorem append_right (ctx : List Extent) {l l' : List Extent} (h : Refines l l') :
    Refines (l ++ ctx) (l' ++ ctx) :=
  (of_perm List.perm_append_comm).trans
    ((append_left ctx h).trans (of_perm List.perm_append_comm))

theorem regroup_packed {region : Extent} {l l' : List Extent} (h : Regroup l l')
    (hp : Packed region l) : Packed region l' := by
  rcases h with hperm | ⟨e, rest, -, hl, hl'⟩
  · exact hp.perm hperm
  · exact ((hp.perm hl).halve).perm hl'.symm

/-- Refining a packed list keeps it packed. -/
theorem packed {region : Extent} {l l' : List Extent} (h : Refines l l')
    (hp : Packed region l) : Packed region l' := by
  induction h with
  | refl => exact hp
  | tail _ hstep ih => exact regroup_packed hstep ih

theorem regroup_total_eq {l l' : List Extent} (h : Regroup l l') : totalLen l' = totalLen l := by
  rcases h with hperm | ⟨e, rest, he, hl, hl'⟩
  · exact (totalLen_perm hperm).symm
  · rw [totalLen_perm hl', totalLen_perm hl]
    simp only [totalLen_cons, Extent.lowerHalf, Extent.upperHalf]
    omega

/-- Refining keeps the total length: halving an even extent loses nothing. -/
theorem total_eq {l l' : List Extent} (h : Refines l l') : totalLen l' = totalLen l := by
  induction h with
  | refl => rfl
  | tail _ hstep ih => rw [regroup_total_eq hstep, ih]

end Refines

/-- Translating every extent, and the region with them, keeps the packing. -/
theorem Packed.shift {region : Extent} {l : List Extent} (d : Nat) (h : Packed region l) :
    Packed (region.shift d) (l.map (Extent.shift d)) := by
  refine ⟨?_, ?_⟩
  · rw [List.pairwise_map]
    exact h.pairwise.imp (fun hab => (Extent.shift_disjoint_iff d _ _).mpr hab)
  · intro e he
    obtain ⟨e', he', rfl⟩ := List.mem_map.mp he
    exact (Extent.shift_within_iff d e' region).mpr (h.within e' he')
