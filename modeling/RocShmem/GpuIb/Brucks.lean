import Mathlib
import RocShmem.Lib.CopyRound
import RocShmem.GpuIb.Reduce
import RocShmem.Ipc.Alltoall
import RocShmem.Ipc.WrkSync

/-!
# The GPU-IB Bruck All-to-All and Fcollect

`GPUIBContext::alltoall_brucks` and `GPUIBContext::fcollect_brucks`
(`gpu_ib/context_ib_tmpl_device.hpp`) move blocks of `nelems` elements
between the `P` members of a team in about `log₂ P` rounds, each a put to
the member `2^shift` places further on. Between two synchronisations a
member only copies elements, so every phase is a round of moves of
`CopyRound`, and the members run the phases in lock step.

The all-to-all rotates its `src` into the first half of the team's `pAta`
(`pAta1`). Round `shift` packs the blocks whose position has bit `shift`
set into the second half (`pAta2`), puts the first `data_size` elements of
it into the next member's `dst`, and unpacks them from there into `pAta1`.
After the rounds below `s`, block `pos` on member `me` holds the block that
member `me - pos mod 2^s` sent towards `me - pos mod 2^s + pos`
(`BrucksRotated`), so at the end it holds what member `me - pos` sent to
`me`, and the inverse rotation writes it into `dst`. The unpack reads
`dst` up to the last packed element, which the put has delivered only when
`data_size` covers it: `data_size` adds the positions of the last, partial
region without the factor `nelems`. So the result is the transpose when
`nelems = 1` or `P` is a power of two (`alltoallBrucks_transpose`), and
otherwise some unpack reads past what its round delivered
(`brucksDataSize_short`).

The collect keeps its blocks in `pAta`: after the round for `shift` the
first `min (2^(shift+1)) P` blocks on member `me` are the `src` of members
`me, me - 1, ...` (`FcollectGathered`), and the same inverse rotation puts
every member's block into place.

## Main definitions

* `AtaBuf`, `AtaCell`: The buffers and cells of the algorithms.
* `GPUIBTeamInfo.getPeInWorld`: A member's world rank.
* `alltoallBrucksRounds`, `alltoallBrucks`: The all-to-all, round by round,
  and every member running it in lock step.
* `fcollectBrucksRounds`, `fcollectBrucks`: The same for the collect.
* `BrucksRotated`, `FcollectGathered`: What `pAta` holds after a round.

## Theorems

* `brucksShifts_eq`: The shift loop runs `⌈log₂ P⌉` rounds.
* `brucksIndex_inj`, `brucksIndex_lt`: Packing puts distinct positions at
  distinct places below the positions' count.
* `brucksRotated_round`: A round of the all-to-all carries its invariant.
* `alltoallBrucks_transpose`: The all-to-all transposes when `data_size`
  covers every round.
* `brucksDataSize_short`: Otherwise a round delivers less than it unpacks.
* `fcollectGathered_round`, `fcollectBrucks_gather`: The collect.
-/

namespace RocShmem

open CopyRound

variable {α : Type}

/-- The buffers the all-to-all and collect algorithms touch on a PE: the
    caller's `src` and `dst`, and the team's `pAta`. -/
inductive AtaBuf
  | src
  | dst
  | pAta
deriving DecidableEq, Repr

/-- A cell of the all-to-all and collect algorithms: a world PE, a buffer and
    an element index. -/
abbrev AtaCell := Nat × AtaBuf × Nat

/-- Cells of two different buffers are different cells. -/
theorem cell_ne_of_buf_ne {p q k k' : Nat} {b b' : AtaBuf} (h : b ≠ b') :
    ((p, b, k) : AtaCell) ≠ (q, b', k') :=
  fun heq => h (Prod.mk.inj (Prod.mk.inj heq).2).1

/-- `Team::get_pe_in_world(pe)`: `pe_start + stride * pe`. -/
def GPUIBTeamInfo.getPeInWorld (team : GPUIBTeamInfo) (pe : Nat) : Nat :=
  team.peStart + 2 ^ team.logStride * pe

theorem GPUIBTeamInfo.getPeInWorld_inj (team : GPUIBTeamInfo) {a b : Nat}
    (h : team.getPeInWorld a = team.getPeInWorld b) : a = b := by
  simp only [GPUIBTeamInfo.getPeInWorld, Nat.add_left_cancel_iff] at h
  exact Nat.eq_of_mul_eq_mul_left (Nat.two_pow_pos _) h

/-- `n` elements from `src` on PE `srcPe` into `dst` on PE `dstPe`, what
    `put_wg`, `put_nbi_wg` and `get_nbi_wg` move. -/
def copyElems (dstPe : Nat) (dst : AtaBuf × Nat) (srcPe : Nat) (src : AtaBuf × Nat) (n : Nat) :
    List (Move AtaCell) :=
  loopMoves n (fun _ => true) fun o => ⟨(dstPe, dst.1, dst.2 + o), (srcPe, src.1, src.2 + o)⟩

/-- `put_wg(dst, src, n, pe)` run by `self`. -/
def putWg (self : Nat) (dst src : AtaBuf × Nat) (n pe : Nat) : List (Move AtaCell) :=
  copyElems pe dst self src n

/-! ## The shifts and the packing -/

/-- The shifts of `for (shift = 0; (1 << shift) < pe_size; shift++)`, from
    `shift` on, with `fuel` iterations at most. -/
def brucksShifts (peSize : Nat) : (fuel shift : Nat) → List Nat
  | 0, _ => []
  | fuel + 1, shift =>
    if 1 <<< shift < peSize then shift :: brucksShifts peSize fuel (shift + 1) else []

/-- `(pos >> shift) & 1`: position `pos` is sent in round `shift`. -/
def brucksSends (shift pos : Nat) : Bool := (pos >>> shift) &&& 1 != 0

/-- Where round `shift` packs a position it sends:
    `((pos >> (shift + 1)) << shift) + (pos & (shift_decimal - 1))`. -/
def brucksIndex (shift pos : Nat) : Nat :=
  ((pos >>> (shift + 1)) <<< shift) + (pos &&& ((1 <<< shift) - 1))

/-- `data_size` of round `shift`: `nelems` times the positions of the full
    regions, plus the positions of the last region. -/
def brucksDataSize (peSize nelems shift : Nat) : Nat :=
  let shiftDecimal := 1 <<< shift
  let regionSize := shiftDecimal * 2
  let dataSize := nelems * (peSize / regionSize * shiftDecimal)
  if peSize % regionSize > shiftDecimal then dataSize + (peSize % regionSize - shiftDecimal)
  else dataSize

/-- The loop runs the shifts below `⌈log₂ P⌉`, given enough fuel. -/
theorem brucksShifts_eq (peSize : Nat) {fuel shift : Nat}
    (hfuel : Nat.clog 2 peSize ≤ shift + fuel) :
    brucksShifts peSize fuel shift = List.range' shift (Nat.clog 2 peSize - shift) := by
  induction fuel generalizing shift with
  | zero =>
    rw [brucksShifts, Nat.sub_eq_zero_of_le (by omega), List.range'_zero]
  | succ fuel ih =>
    rw [brucksShifts, Nat.one_shiftLeft]
    by_cases h : 2 ^ shift < peSize
    · -- the loop goes on: `shift` is below the bound
      have hlt : shift < Nat.clog 2 peSize := (Nat.lt_clog_iff_pow_lt (by norm_num)).2 h
      rw [if_pos h, ih (by omega), show Nat.clog 2 peSize - shift =
        (Nat.clog 2 peSize - (shift + 1)) + 1 by omega, List.range'_succ]
    · -- the loop stops: the bound is reached
      have hge : Nat.clog 2 peSize ≤ shift :=
        Nat.not_lt.1 fun hlt => h ((Nat.lt_clog_iff_pow_lt (by norm_num)).1 hlt)
      rw [if_neg h, Nat.sub_eq_zero_of_le hge, List.range'_zero]

/-- With `pe_size` iterations of fuel, the loop runs every shift below
    `⌈log₂ P⌉`. -/
theorem brucksShifts_range (peSize : Nat) :
    brucksShifts peSize peSize 0 = List.range (Nat.clog 2 peSize) := by
  rw [brucksShifts_eq peSize (Nat.clog_le_of_le_pow Nat.lt_two_pow_self.le |>.trans
    (Nat.le_add_left _ _)), List.range_eq_range']
  rfl

theorem brucksSends_iff (shift pos : Nat) :
    brucksSends shift pos = true ↔ pos / 2 ^ shift % 2 = 1 := by
  rw [brucksSends, Nat.shiftRight_eq_div_pow, Nat.and_one_is_mod]
  rcases Nat.mod_two_eq_zero_or_one (pos / 2 ^ shift) with h | h <;> simp [h]

/-- A sent position has bit `shift` set: its residue modulo `2^(shift+1)`
    is `2^shift` above its residue modulo `2^shift`. -/
theorem mod_two_pow_succ_of_sends {shift pos : Nat} (h : brucksSends shift pos = true) :
    pos % 2 ^ (shift + 1) = pos % 2 ^ shift + 2 ^ shift := by
  rw [Nat.mod_pow_succ, (brucksSends_iff shift pos).1 h, Nat.mul_one]

theorem mod_two_pow_succ_of_not_sends {shift pos : Nat} (h : brucksSends shift pos = false) :
    pos % 2 ^ (shift + 1) = pos % 2 ^ shift := by
  have h0 : pos / 2 ^ shift % 2 = 0 := by
    have := (brucksSends_iff shift pos).not.1 (by simp [h])
    omega
  rw [Nat.mod_pow_succ, h0, Nat.mul_zero, Nat.add_zero]

/-- A number is its regions of `2^(shift+1)`, each two blocks of `2^shift`,
    and its residue. -/
theorem region_split (x shift : Nat) :
    2 * (x / 2 ^ (shift + 1) * 2 ^ shift) + x % 2 ^ (shift + 1) = x := by
  conv_rhs => rw [← Nat.div_add_mod x (2 ^ (shift + 1))]
  rw [Nat.pow_succ]
  ring

theorem brucksIndex_eq (shift pos : Nat) :
    brucksIndex shift pos = pos / 2 ^ (shift + 1) * 2 ^ shift + pos % 2 ^ shift := by
  rw [brucksIndex, Nat.shiftRight_eq_div_pow, Nat.shiftLeft_eq, Nat.one_shiftLeft,
    Nat.and_two_pow_sub_one_eq_mod]

/-- A sent position is recovered from where it is packed. -/
theorem brucksIndex_inj {shift pos pos' : Nat} (h : brucksSends shift pos = true)
    (h' : brucksSends shift pos' = true) (heq : brucksIndex shift pos = brucksIndex shift pos') :
    pos = pos' := by
  rw [brucksIndex_eq, brucksIndex_eq] at heq
  have hlow := Nat.mod_lt pos (Nat.two_pow_pos shift)
  have hlow' := Nat.mod_lt pos' (Nat.two_pow_pos shift)
  -- the packed index splits into the region and the low bits
  obtain ⟨hq, hr⟩ := block_inj hlow hlow' heq
  rw [← Nat.div_add_mod pos (2 ^ (shift + 1)), ← Nat.div_add_mod pos' (2 ^ (shift + 1)),
    mod_two_pow_succ_of_sends h, mod_two_pow_succ_of_sends h', hq, hr]

/-- A sent position below `P` is packed below the number of sent positions,
    `P / 2^(shift+1) * 2^shift` in the full regions and the rest in the last. -/
theorem brucksIndex_lt {shift pos peSize : Nat} (h : brucksSends shift pos = true)
    (hpos : pos < peSize) :
    brucksIndex shift pos + 1 ≤
      peSize / 2 ^ (shift + 1) * 2 ^ shift + (peSize % 2 ^ (shift + 1) - 2 ^ shift) := by
  rw [brucksIndex_eq]
  have hmod := mod_two_pow_succ_of_sends h
  have hlow := Nat.mod_lt pos (Nat.two_pow_pos shift)
  have hP := region_split peSize shift
  have hpos' := region_split pos shift
  rcases Nat.lt_or_ge (pos / 2 ^ (shift + 1)) (peSize / 2 ^ (shift + 1)) with hlt | hge
  · -- an earlier region: all of it lies below the full regions' count
    have := Nat.mul_le_mul_right (2 ^ shift) (Nat.succ_le_of_lt hlt)
    rw [Nat.succ_mul] at this
    omega
  · -- the last region: the position lies below `P` inside it
    have heq : pos / 2 ^ (shift + 1) = peSize / 2 ^ (shift + 1) :=
      Nat.le_antisymm (Nat.div_le_div_right hpos.le) hge
    rw [heq] at hpos' ⊢
    omega

/-- `data_size` as a number: `nelems` times the full regions' positions plus,
    once, the last region's. -/
theorem brucksDataSize_eq (peSize nelems shift : Nat) :
    brucksDataSize peSize nelems shift = nelems * (peSize / 2 ^ (shift + 1) * 2 ^ shift) +
      (peSize % 2 ^ (shift + 1) - 2 ^ shift) := by
  rw [brucksDataSize, Nat.one_shiftLeft, show 2 ^ shift * 2 = 2 ^ (shift + 1) from
    (Nat.pow_succ 2 shift).symm]
  split <;> omega

/-- `data_size` covers every element round `shift` packs when `nelems = 1`,
    or when the last region holds no sent position. -/
theorem brucksDataSize_covers {peSize nelems shift : Nat}
    (hcover : nelems = 1 ∨ peSize % 2 ^ (shift + 1) ≤ 2 ^ shift) {pos off : Nat}
    (h : brucksSends shift pos = true) (hpos : pos < peSize) (hoff : off < nelems) :
    brucksIndex shift pos * nelems + off < brucksDataSize peSize nelems shift := by
  have hlt := brucksIndex_lt h hpos
  rw [brucksDataSize_eq]
  rcases hcover with rfl | hlast
  · omega
  · -- no partial region: the packed block ends within `nelems` full blocks
    have hfull : brucksIndex shift pos + 1 ≤ peSize / 2 ^ (shift + 1) * 2 ^ shift := by
      rwa [Nat.sub_eq_zero_of_le hlast, Nat.add_zero] at hlt
    have := Nat.mul_le_mul_right nelems hfull
    rw [Nat.succ_mul] at this
    rw [Nat.sub_eq_zero_of_le hlast, Nat.add_zero, Nat.mul_comm nelems]
    omega

/-! ## Rotations modulo the team size -/

section Rotation

variable {P : Nat}

/-- Element `off` of block `pos` lies inside `P` blocks. -/
theorem block_lt {n pos off : Nat} (hpos : pos < P) (hoff : off < n) : pos * n + off < P * n := by
  have := Nat.mul_le_mul_right n (Nat.succ_le_of_lt hpos)
  rw [Nat.succ_mul] at this
  omega

/-- Element `off` of block `a` modulo `P` blocks. -/
theorem block_mod {n a off : Nat} (hP : 0 < P) (hoff : off < n) :
    (a * n + off) % (P * n) = a % P * n + off := by
  have ha : a * n + off = a % P * n + off + a / P * (P * n) := by
    conv_lhs => rw [← Nat.mod_add_div a P]
    ring
  rw [ha, Nat.add_mul_mod_self_right, Nat.mod_eq_of_lt (block_lt (Nat.mod_lt a hP) hoff)]

/-- Adding the same shift to two members is injective. -/
theorem add_mod_inj {a b d : Nat} (ha : a < P) (hb : b < P) (h : (a + d) % P = (b + d) % P) :
    a = b := by
  have := Nat.ModEq.add_right_cancel' d h
  rwa [Nat.ModEq, Nat.mod_eq_of_lt ha, Nat.mod_eq_of_lt hb] at this

/-- Going `d` members back and then `d` forward returns to the member. -/
theorem sub_add_mod {me d : Nat} (hme : me < P) (hd : d ≤ P) : ((me + P - d) % P + d) % P = me := by
  rw [Nat.mod_add_mod, Nat.sub_add_cancel (by omega), Nat.add_mod_right, Nat.mod_eq_of_lt hme]

/-- Going back `d` members and then `e` more is going back `d + e`. -/
theorem sub_mod_sub {me d e : Nat} (hde : d + e ≤ P) :
    ((me + P - d) % P + P - e) % P = (me + P - (d + e)) % P := by
  rw [Nat.add_sub_assoc (by omega), Nat.mod_add_mod,
    show me + P - d + (P - e) = me + P - (d + e) + P by omega, Nat.add_mod_right]

/-- The member `i` is `(j - i) mod P` members back from `j`. -/
theorem sub_sub_mod {i j : Nat} (hi : i < P) : (j + P - (j + P - i) % P) % P = i := by
  have hle : (j + P - i) % P ≤ j + P := (Nat.mod_le _ _).trans (by omega)
  have hmod : j + P - (j + P - i) % P + (j + P - i) % P ≡ i + (j + P - i) % P [MOD P] := by
    rw [Nat.sub_add_cancel hle]
    calc j + P = i + (j + P - i) := by omega
      _ ≡ i + (j + P - i) % P [MOD P] := ((Nat.mod_modEq _ _).symm).add_left i
  rw [Nat.ModEq.add_right_cancel' _ hmod, Nat.mod_eq_of_lt hi]

/-- Going from `i` forward `(j - i) mod P` members reaches `j`. -/
theorem add_sub_mod {i j : Nat} (hi : i ≤ j + P) (hj : j < P) : (i + (j + P - i) % P) % P = j := by
  rw [Nat.add_mod_mod, Nat.add_sub_cancel' hi, Nat.add_mod_right, Nat.mod_eq_of_lt hj]

end Rotation

/-! ## The all-to-all -/

section Alltoall

variable (team : GPUIBTeamInfo) (nelems : Nat)

/-- Phase 1 on member `me`: `pAta1[i] = src[(i + my_pe_in_team * nelems) %
    (pe_size * nelems)]`, so that block `pos` is the one for member
    `me + pos`. -/
def alltoallBrucksRotate (me : Nat) : List (Move AtaCell) :=
  loopMoves (team.size * nelems) (fun _ => true) fun i =>
    ⟨(team.getPeInWorld me, .pAta, i),
      (team.getPeInWorld me, .src, (i + me * nelems) % (team.size * nelems))⟩

/-- Step 1 of round `shift` on member `me`: the positions the round sends
    are packed into `pAta2`, which is `pAta1` from `pe_size * nelems` on. -/
def alltoallBrucksPack (shift me : Nat) : List (Move AtaCell) :=
  loopMoves (team.size * nelems) (fun i => brucksSends shift (i / nelems)) fun i =>
    ⟨(team.getPeInWorld me, .pAta,
        team.size * nelems + (brucksIndex shift (i / nelems) * nelems + i % nelems)),
      (team.getPeInWorld me, .pAta, i)⟩

/-- Step 2 of round `shift` on member `me`: `put_wg(dst, pAta2, data_size,
    dest_pe)` to member `(me + 2^shift) % pe_size`. -/
def alltoallBrucksPut (shift me : Nat) : List (Move AtaCell) :=
  putWg (team.getPeInWorld me) (.dst, 0) (.pAta, team.size * nelems)
    (brucksDataSize team.size nelems shift) (team.getPeInWorld ((me + (1 <<< shift)) % team.size))

/-- Step 3 of round `shift` on member `me`: the positions the round sends are
    unpacked from `dst` into `pAta1`. -/
def alltoallBrucksUnpack (shift me : Nat) : List (Move AtaCell) :=
  loopMoves (team.size * nelems) (fun i => brucksSends shift (i / nelems)) fun i =>
    ⟨(team.getPeInWorld me, .pAta, i),
      (team.getPeInWorld me, .dst, brucksIndex shift (i / nelems) * nelems + i % nelems)⟩

/-- The inverse rotation on member `me`, phase 3 of the all-to-all and phase 2
    of the collect: `dst[((pe_size + me - i / nelems) % pe_size) * nelems +
    i % nelems] = pAta[i]`. -/
def brucksInverseRotate (me : Nat) : List (Move AtaCell) :=
  loopMoves (team.size * nelems) (fun _ => true) fun i =>
    ⟨(team.getPeInWorld me, .dst, (team.size + me - i / nelems) % team.size * nelems + i % nelems),
      (team.getPeInWorld me, .pAta, i)⟩

/-- The rounds of `alltoall_brucks`, cut at its synchronisations: the
    rotation, the three steps of every shift, and the inverse rotation. -/
def alltoallBrucksRounds : List (Nat → List (Move AtaCell)) :=
  alltoallBrucksRotate team nelems ::
    ((brucksShifts team.size team.size 0).flatMap fun shift =>
      [alltoallBrucksPack team nelems shift, alltoallBrucksPut team nelems shift,
        alltoallBrucksUnpack team nelems shift]) ++
    [brucksInverseRotate team nelems]

/-- Every member of the team running `alltoall_brucks` in lock step. -/
def alltoallBrucks (m : AtaCell → α) : AtaCell → α :=
  lockStep (List.range team.size) (alltoallBrucksRounds team nelems) m

/-! ### What each round does -/

theorem iterates_alltoallBrucksRotate :
    Iterates (alltoallBrucksRotate team nelems) (fun _ i => i < team.size * nelems)
      fun me i => ⟨(team.getPeInWorld me, .pAta, i),
        (team.getPeInWorld me, .src, (i + me * nelems) % (team.size * nelems))⟩ := by
  intro me mv
  simp only [alltoallBrucksRotate, mem_loopMoves, true_and]

/-- The rotation: element `i` of `pAta1` on member `me` gets element
    `(i + me * nelems) % (pe_size * nelems)` of its `src`. -/
theorem rotate_pAta (m : AtaCell → α) {me i : Nat} (hme : me < team.size)
    (hi : i < team.size * nelems) :
    applyMoves m ((List.range team.size).flatMap (alltoallBrucksRotate team nelems))
        (team.getPeInWorld me, .pAta, i) =
      m (team.getPeInWorld me, .src, (i + me * nelems) % (team.size * nelems)) := by
  have h := iterates_alltoallBrucksRotate team nelems
  refine h.applyMoves_of_mem (h.simultaneous ?_ ?_) hme hi m
  · -- the rotation reads `src` and writes `pAta`
    exact fun _ _ _ _ _ _ _ _ => cell_ne_of_buf_ne (by decide)
  · intro p _ x _ p' _ x' _ heq
    simp only [Prod.mk.injEq] at heq
    obtain ⟨hp, -, rfl⟩ := heq
    rw [team.getPeInWorld_inj hp]

theorem rotate_of_ne_pAta (m : AtaCell → α) {q : Nat} {b : AtaBuf} (hb : b ≠ .pAta) (k : Nat) :
    applyMoves m ((List.range team.size).flatMap (alltoallBrucksRotate team nelems)) (q, b, k) =
      m (q, b, k) :=
  (iterates_alltoallBrucksRotate team nelems).applyMoves_of_not_mem
    (fun _ _ _ _ => cell_ne_of_buf_ne (Ne.symm hb)) m

theorem iterates_alltoallBrucksPack (shift : Nat) :
    Iterates (alltoallBrucksPack team nelems shift)
      (fun _ i => i < team.size * nelems ∧ brucksSends shift (i / nelems) = true)
      fun me i => ⟨(team.getPeInWorld me, .pAta,
          team.size * nelems + (brucksIndex shift (i / nelems) * nelems + i % nelems)),
        (team.getPeInWorld me, .pAta, i)⟩ := by
  intro me mv
  simp only [alltoallBrucksPack, mem_loopMoves, and_assoc]

/-- Packing: element `off` of a sent block `pos` of member `me` goes to its
    packed place in `pAta2`. -/
theorem pack_pAta (m : AtaCell → α) {shift me pos off : Nat} (hme : me < team.size)
    (hpos : pos < team.size) (hoff : off < nelems) (hsend : brucksSends shift pos = true) :
    applyMoves m ((List.range team.size).flatMap (alltoallBrucksPack team nelems shift))
        (team.getPeInWorld me, .pAta, team.size * nelems + (brucksIndex shift pos * nelems + off)) =
      m (team.getPeInWorld me, .pAta, pos * nelems + off) := by
  have h := iterates_alltoallBrucksPack team nelems shift
  have hsim : Simultaneous
      ((List.range team.size).flatMap (alltoallBrucksPack team nelems shift)) := by
    refine h.simultaneous ?_ ?_
    · -- `pAta2` lies above the `pAta1` it is read from
      rintro p - x - p' - x' ⟨hx', -⟩ heq
      simp only [Prod.mk.injEq] at heq
      obtain ⟨-, -, hidx⟩ := heq
      omega
    · rintro p - x ⟨hx, hs⟩ p' - x' ⟨-, hs'⟩ heq
      simp only [Prod.mk.injEq] at heq
      obtain ⟨hp, -, hidx⟩ := heq
      -- the packed place gives back the block and the element
      have hn : 0 < nelems := Nat.pos_of_ne_zero fun h0 => by simp [h0] at hx
      obtain ⟨hb, ho⟩ := block_inj (Nat.mod_lt x hn) (Nat.mod_lt x' hn) (Nat.add_left_cancel hidx)
      have hdiv := brucksIndex_inj hs hs' hb
      rw [team.getPeInWorld_inj hp, ← Nat.div_add_mod x nelems, ← Nat.div_add_mod x' nelems,
        hdiv, ho]
  have hval := h.applyMoves_of_mem hsim hme ⟨block_lt hpos hoff, by rwa [div_block hoff]⟩ m
  simp only [div_block hoff, mod_block hoff] at hval
  exact hval

theorem pack_of_lt (m : AtaCell → α) (shift : Nat) {q k : Nat} {b : AtaBuf}
    (hk : b ≠ .pAta ∨ k < team.size * nelems) :
    applyMoves m ((List.range team.size).flatMap (alltoallBrucksPack team nelems shift))
      (q, b, k) = m (q, b, k) := by
  refine (iterates_alltoallBrucksPack team nelems shift).applyMoves_of_not_mem
    (fun p _ x _ heq => ?_) m
  simp only [Prod.mk.injEq] at heq
  obtain ⟨-, rfl, rfl⟩ := heq
  rcases hk with hb | hk
  · exact hb rfl
  · omega

theorem iterates_alltoallBrucksPut (shift : Nat) :
    Iterates (alltoallBrucksPut team nelems shift)
      (fun _ k => k < brucksDataSize team.size nelems shift)
      fun me k => ⟨(team.getPeInWorld ((me + (1 <<< shift)) % team.size), .dst, k),
        (team.getPeInWorld me, .pAta, team.size * nelems + k)⟩ := by
  intro me mv
  simp only [alltoallBrucksPut, putWg, copyElems, mem_loopMoves, true_and, Nat.zero_add]

/-- The put: element `k < data_size` of `dst` on member `me` gets element
    `k` of `pAta2` of the member `2^shift` before it. -/
theorem put_dst (m : AtaCell → α) {shift me k : Nat} (hme : me < team.size)
    (hs : 2 ^ shift ≤ team.size) (hk : k < brucksDataSize team.size nelems shift) :
    applyMoves m ((List.range team.size).flatMap (alltoallBrucksPut team nelems shift))
        (team.getPeInWorld me, .dst, k) =
      m (team.getPeInWorld ((me + team.size - 2 ^ shift) % team.size), .pAta,
        team.size * nelems + k) := by
  have h := iterates_alltoallBrucksPut team nelems shift
  have hsim : Simultaneous
      ((List.range team.size).flatMap (alltoallBrucksPut team nelems shift)) := by
    refine h.simultaneous ?_ ?_
    · -- the put reads `pAta` and writes `dst`
      exact fun _ _ _ _ _ _ _ _ => cell_ne_of_buf_ne (by decide)
    · -- distinct senders put to distinct receivers
      intro p hp x _ p' hp' x' _ heq
      simp only [Prod.mk.injEq] at heq
      obtain ⟨hq, -, rfl⟩ := heq
      rw [add_mod_inj hp hp' (team.getPeInWorld_inj hq)]
  have hval := h.applyMoves_of_mem hsim (p := (me + team.size - 2 ^ shift) % team.size)
    (Nat.mod_lt _ (by omega)) hk m
  simp only [Nat.one_shiftLeft, sub_add_mod hme hs] at hval
  exact hval

theorem put_of_ne_dst (m : AtaCell → α) (shift : Nat) {q k : Nat} {b : AtaBuf}
    (hb : b ≠ .dst) :
    applyMoves m ((List.range team.size).flatMap (alltoallBrucksPut team nelems shift))
      (q, b, k) = m (q, b, k) :=
  (iterates_alltoallBrucksPut team nelems shift).applyMoves_of_not_mem
    (fun _ _ _ _ => cell_ne_of_buf_ne (Ne.symm hb)) m

theorem iterates_alltoallBrucksUnpack (shift : Nat) :
    Iterates (alltoallBrucksUnpack team nelems shift)
      (fun _ i => i < team.size * nelems ∧ brucksSends shift (i / nelems) = true)
      fun me i => ⟨(team.getPeInWorld me, .pAta, i),
        (team.getPeInWorld me, .dst, brucksIndex shift (i / nelems) * nelems + i % nelems)⟩ := by
  intro me mv
  simp only [alltoallBrucksUnpack, mem_loopMoves, and_assoc]

/-- Unpacking: element `off` of a sent block `pos` of member `me` is read
    back from its packed place in `dst`. -/
theorem unpack_pAta (m : AtaCell → α) {shift me pos off : Nat} (hme : me < team.size)
    (hpos : pos < team.size) (hoff : off < nelems) (hsend : brucksSends shift pos = true) :
    applyMoves m ((List.range team.size).flatMap (alltoallBrucksUnpack team nelems shift))
        (team.getPeInWorld me, .pAta, pos * nelems + off) =
      m (team.getPeInWorld me, .dst, brucksIndex shift pos * nelems + off) := by
  have h := iterates_alltoallBrucksUnpack team nelems shift
  have hsim : Simultaneous
      ((List.range team.size).flatMap (alltoallBrucksUnpack team nelems shift)) := by
    refine h.simultaneous ?_ ?_
    · -- the unpack reads `dst` and writes `pAta`
      exact fun _ _ _ _ _ _ _ _ => cell_ne_of_buf_ne (by decide)
    · intro p _ x _ p' _ x' _ heq
      simp only [Prod.mk.injEq] at heq
      obtain ⟨hp, -, rfl⟩ := heq
      rw [team.getPeInWorld_inj hp]
  have hval := h.applyMoves_of_mem hsim hme ⟨block_lt hpos hoff, by rwa [div_block hoff]⟩ m
  simp only [div_block hoff, mod_block hoff] at hval
  exact hval

/-- A block the round does not send stays in `pAta1`. -/
theorem unpack_of_not_sends (m : AtaCell → α) {shift q pos off : Nat} (hoff : off < nelems)
    (hsend : brucksSends shift pos = false) :
    applyMoves m ((List.range team.size).flatMap (alltoallBrucksUnpack team nelems shift))
        (q, .pAta, pos * nelems + off) = m (q, .pAta, pos * nelems + off) := by
  refine (iterates_alltoallBrucksUnpack team nelems shift).applyMoves_of_not_mem
    (fun p _ x ⟨_, hs⟩ heq => ?_) m
  simp only [Prod.mk.injEq] at heq
  obtain ⟨-, -, rfl⟩ := heq
  rw [div_block hoff, hsend] at hs
  exact Bool.false_ne_true hs

theorem unpack_of_ne_pAta (m : AtaCell → α) (shift : Nat) {q k : Nat} {b : AtaBuf}
    (hb : b ≠ .pAta) :
    applyMoves m ((List.range team.size).flatMap (alltoallBrucksUnpack team nelems shift))
      (q, b, k) = m (q, b, k) :=
  (iterates_alltoallBrucksUnpack team nelems shift).applyMoves_of_not_mem
    (fun _ _ _ _ => cell_ne_of_buf_ne (Ne.symm hb)) m

theorem iterates_brucksInverseRotate :
    Iterates (brucksInverseRotate team nelems) (fun _ i => i < team.size * nelems)
      fun me i => ⟨(team.getPeInWorld me, .dst,
          (team.size + me - i / nelems) % team.size * nelems + i % nelems),
        (team.getPeInWorld me, .pAta, i)⟩ := by
  intro me mv
  simp only [brucksInverseRotate, mem_loopMoves, true_and]

/-- The inverse rotation: block `(me - pos) mod P` of `dst` on member `me`
    gets block `pos` of its `pAta`. -/
theorem inverseRotate_dst (m : AtaCell → α) {me pos off : Nat} (hme : me < team.size)
    (hpos : pos < team.size) (hoff : off < nelems) :
    applyMoves m ((List.range team.size).flatMap (brucksInverseRotate team nelems))
        (team.getPeInWorld me, .dst, (team.size + me - pos) % team.size * nelems + off) =
      m (team.getPeInWorld me, .pAta, pos * nelems + off) := by
  have h := iterates_brucksInverseRotate team nelems
  have hsim : Simultaneous
      ((List.range team.size).flatMap (brucksInverseRotate team nelems)) := by
    refine h.simultaneous ?_ ?_
    · -- the rotation reads `pAta` and writes `dst`
      exact fun _ _ _ _ _ _ _ _ => cell_ne_of_buf_ne (by decide)
    · intro p _ x hx p' _ x' hx' heq
      simp only [Prod.mk.injEq] at heq
      obtain ⟨hp, -, hidx⟩ := heq
      obtain rfl := team.getPeInWorld_inj hp
      have hn : 0 < nelems := Nat.pos_of_ne_zero fun h0 => by simp [h0] at hx
      obtain ⟨hb, ho⟩ := block_inj (Nat.mod_lt x hn) (Nat.mod_lt x' hn) hidx
      -- the destination block gives back the source block
      have hdiv : x / nelems = x' / nelems := by
        have hback := congrArg (fun t => (p + team.size - t) % team.size) hb
        simp only [Nat.add_comm team.size p] at hback
        have hq : x / nelems < team.size :=
          Nat.div_lt_of_lt_mul (Nat.mul_comm team.size nelems ▸ hx)
        have hq' : x' / nelems < team.size :=
          Nat.div_lt_of_lt_mul (Nat.mul_comm team.size nelems ▸ hx')
        rwa [sub_sub_mod hq, sub_sub_mod hq'] at hback
      rw [← Nat.div_add_mod x nelems, ← Nat.div_add_mod x' nelems, hdiv, ho]
  have hval := h.applyMoves_of_mem hsim hme (block_lt hpos hoff) m
  simp only [div_block hoff, mod_block hoff] at hval
  exact hval

/-! ### The invariant of the rounds -/

/-- After the rounds of the shifts below `s`, started from `m₀`: no `src`
    cell has changed, and block `pos` of `pAta1` on member `me` is the block
    that member `(me - pos mod 2^s) mod P` rotated into position `pos`, the
    one it holds for member `(me - pos mod 2^s + pos) mod P`. -/
structure BrucksRotated (m₀ m : AtaCell → α) (s : Nat) : Prop where
  src_eq : ∀ q k, m (q, .src, k) = m₀ (q, .src, k)
  pAta_eq : ∀ me < team.size, ∀ pos < team.size, ∀ off < nelems,
    m (team.getPeInWorld me, .pAta, pos * nelems + off) =
      m₀ (team.getPeInWorld ((me + team.size - pos % 2 ^ s) % team.size), .src,
        ((me + team.size - pos % 2 ^ s) % team.size + pos) % team.size * nelems + off)

/-- The rotation sets the invariant up, with no shift done. -/
theorem brucksRotated_rotate (m₀ : AtaCell → α) :
    BrucksRotated team nelems m₀
      (applyMoves m₀ ((List.range team.size).flatMap (alltoallBrucksRotate team nelems))) 0 := by
  constructor
  · intro q k
    exact rotate_of_ne_pAta team nelems m₀ (by simp) k
  · intro me hme pos hpos off hoff
    -- element `off` of block `pos` is read from block `me + pos`
    have hidx : (pos * nelems + off + me * nelems) % (team.size * nelems) =
        (me + pos) % team.size * nelems + off := by
      rw [show pos * nelems + off + me * nelems = (me + pos) * nelems + off by ring,
        block_mod (by omega) hoff]
    rw [rotate_pAta team nelems m₀ hme (block_lt hpos hoff), hidx, Nat.pow_zero, Nat.mod_one,
      Nat.sub_zero, Nat.add_mod_right, Nat.mod_eq_of_lt hme]

/-- A round for shift `s`, with `2^s < P`, carries the invariant from `s` to
    `s + 1` when its `data_size` covers every element it packs. -/
theorem brucksRotated_round {m₀ m : AtaCell → α} {s : Nat} (hs : 2 ^ s < team.size)
    (hcover : ∀ pos < team.size, brucksSends s pos = true → ∀ off < nelems,
      brucksIndex s pos * nelems + off < brucksDataSize team.size nelems s)
    (h : BrucksRotated team nelems m₀ m s) :
    BrucksRotated team nelems m₀ (lockStep (List.range team.size)
      [alltoallBrucksPack team nelems s, alltoallBrucksPut team nelems s,
        alltoallBrucksUnpack team nelems s] m) (s + 1) := by
  simp only [lockStep_cons, lockStep_nil]
  constructor
  · intro q k
    rw [unpack_of_ne_pAta team nelems _ s (by simp), put_of_ne_dst team nelems _ s (by simp),
      pack_of_lt team nelems _ s (.inl (by simp)), h.src_eq]
  · intro me hme pos hpos off hoff
    cases hsend : brucksSends s pos
    · -- a block the round does not send stays where it was
      rw [unpack_of_not_sends team nelems _ hoff hsend, put_of_ne_dst team nelems _ s (by simp),
        pack_of_lt team nelems _ s (.inr (block_lt hpos hoff)),
        h.pAta_eq me hme pos hpos off hoff, mod_two_pow_succ_of_not_sends hsend]
    · -- a sent block comes from the member `2^s` before, where it sat at the
      -- same position with one bit fewer counted
      have hlow : 2 ^ s + pos % 2 ^ s ≤ team.size := by
        have := Nat.mod_le pos (2 ^ (s + 1))
        rw [mod_two_pow_succ_of_sends hsend] at this
        omega
      have hsender : (me + team.size - 2 ^ s) % team.size < team.size := Nat.mod_lt _ (by omega)
      rw [unpack_pAta team nelems _ hme hpos hoff hsend,
        put_dst team nelems _ hme hs.le (hcover pos hpos hsend off hoff),
        pack_pAta team nelems _ hsender hpos hoff hsend, h.pAta_eq _ hsender pos hpos off hoff,
        sub_mod_sub hlow, mod_two_pow_succ_of_sends hsend, Nat.add_comm (pos % 2 ^ s)]

/-- The rounds of the shifts below `k ≤ ⌈log₂ P⌉` carry the invariant to `k`. -/
theorem brucksRotated_shifts
    (hcover : ∀ s, 2 ^ s < team.size → ∀ pos < team.size, brucksSends s pos = true →
      ∀ off < nelems, brucksIndex s pos * nelems + off < brucksDataSize team.size nelems s)
    {m₀ m : AtaCell → α} (h : BrucksRotated team nelems m₀ m 0) {k : Nat}
    (hk : k ≤ Nat.clog 2 team.size) :
    BrucksRotated team nelems m₀ (lockStep (List.range team.size)
      ((List.range k).flatMap fun s => [alltoallBrucksPack team nelems s,
        alltoallBrucksPut team nelems s, alltoallBrucksUnpack team nelems s]) m) k := by
  induction k with
  | zero => exact h
  | succ k ih =>
    have hs : 2 ^ k < team.size := Nat.pow_lt_of_lt_clog (by omega)
    rw [List.range_succ, List.flatMap_append, lockStep_append, List.flatMap_singleton]
    exact brucksRotated_round team nelems hs (hcover k hs) (ih (by omega))

/-- When every round's `data_size` covers what it packs, the all-to-all
    transposes: element `o` of block `i` of `dst` on member `j` is element `o`
    of block `j` of `src` on member `i`. -/
theorem alltoallBrucks_transpose
    (hcover : ∀ s, 2 ^ s < team.size → ∀ pos < team.size, brucksSends s pos = true →
      ∀ off < nelems, brucksIndex s pos * nelems + off < brucksDataSize team.size nelems s)
    (m₀ : AtaCell → α) {i j o : Nat} (hi : i < team.size) (hj : j < team.size)
    (ho : o < nelems) :
    alltoallBrucks team nelems m₀ (team.getPeInWorld j, .dst, i * nelems + o) =
      m₀ (team.getPeInWorld i, .src, j * nelems + o) := by
  have hP : 0 < team.size := by omega
  have hrounds : alltoallBrucksRounds team nelems = alltoallBrucksRotate team nelems ::
      ((List.range (Nat.clog 2 team.size)).flatMap fun s => [alltoallBrucksPack team nelems s,
        alltoallBrucksPut team nelems s, alltoallBrucksUnpack team nelems s]) ++
      [brucksInverseRotate team nelems] := by
    rw [alltoallBrucksRounds, brucksShifts_range]
  have hinv := brucksRotated_shifts team nelems hcover (brucksRotated_rotate team nelems m₀) le_rfl
  -- block `(j - i) mod P` of `pAta1` on `j` is the one `i` sent to `j`
  have hpos : (j + team.size - i) % team.size < team.size := Nat.mod_lt _ hP
  have hfull : (j + team.size - i) % team.size % 2 ^ Nat.clog 2 team.size =
      (j + team.size - i) % team.size :=
    Nat.mod_eq_of_lt (hpos.trans_le (Nat.le_pow_clog (by norm_num) _))
  have hdst := inverseRotate_dst team nelems (lockStep (List.range team.size)
    ((List.range (Nat.clog 2 team.size)).flatMap fun s => [alltoallBrucksPack team nelems s,
      alltoallBrucksPut team nelems s, alltoallBrucksUnpack team nelems s])
    (applyMoves m₀ ((List.range team.size).flatMap (alltoallBrucksRotate team nelems))))
    hj hpos ho
  rw [Nat.add_comm team.size j, sub_sub_mod hi] at hdst
  rw [alltoallBrucks, hrounds, List.cons_append, lockStep_cons, lockStep_append, lockStep_cons,
    lockStep_nil, hdst, hinv.pAta_eq j hj _ hpos o ho, hfull, sub_sub_mod hi,
    add_sub_mod (by omega) hj]

end Alltoall

/-- When `P` is not a power of two and `nelems ≥ 2`, the highest round puts
    less than it unpacks: the last element of the last position's block is
    packed at or beyond `data_size`, where no put of the round writes. -/
theorem brucksDataSize_short {peSize nelems : Nat} (hP : 1 ≤ peSize)
    (hpow : ¬ ∃ k, peSize = 2 ^ k) (hn : 2 ≤ nelems) :
    ∃ shift, 2 ^ shift < peSize ∧ brucksSends shift (peSize - 1) = true ∧
      brucksDataSize peSize nelems shift ≤
        brucksIndex shift (peSize - 1) * nelems + (nelems - 1) := by
  -- the highest round: `2^shift ≤ P < 2^(shift+1)`, and `P` is not `2^shift`
  have hlo : 2 ^ Nat.log 2 peSize ≤ peSize := Nat.pow_log_le_self 2 (by omega)
  have hhi : peSize < 2 ^ (Nat.log 2 peSize + 1) := Nat.lt_pow_succ_log_self (by norm_num) peSize
  have hlt : 2 ^ Nat.log 2 peSize < peSize :=
    lt_of_le_of_ne hlo fun h => hpow ⟨Nat.log 2 peSize, h.symm⟩
  have hregion : 2 ^ (Nat.log 2 peSize + 1) = 2 * 2 ^ Nat.log 2 peSize := by
    rw [Nat.pow_succ, Nat.mul_comm]
  have hsend : brucksSends (Nat.log 2 peSize) (peSize - 1) = true := by
    rw [brucksSends_iff, Nat.div_eq_of_lt_le (k := 1) (by omega) (by omega)]
  refine ⟨Nat.log 2 peSize, hlt, hsend, ?_⟩
  -- the last region is the only one: `P - 2^shift` positions are packed
  -- from `0`, and `data_size` counts them once
  rw [brucksDataSize_eq, brucksIndex_eq, Nat.div_eq_of_lt hhi, Nat.div_eq_of_lt (by omega),
    Nat.mod_eq_of_lt hhi, Nat.mod_eq_sub_mod (by omega), Nat.mod_eq_of_lt (by omega)]
  have := Nat.mul_le_mul_left (peSize - 1 - 2 ^ Nat.log 2 peSize) hn
  simp only [Nat.zero_mul, Nat.mul_zero, Nat.zero_add]
  omega

section Fcollect

variable (team : GPUIBTeamInfo) (nelems : Nat)

/-- The initial `put_wg(pAta, src, nelems, get_pe_in_world(my_pe_in_team))` on
    member `me`: its own `src` becomes block `0` of its `pAta`. -/
def fcollectBrucksInit (me : Nat) : List (Move AtaCell) :=
  putWg (team.getPeInWorld me) (.pAta, 0) (.src, 0) nelems (team.getPeInWorld me)

/-- Round `shift` on member `me`: `put_wg(&pAta[shift_decimal * nelems], pAta,
    data_size, dest_pe)`, with `data_size = min(shift_decimal, pe_size -
    shift_decimal) * nelems`, to member `(me + 2^shift) % pe_size`. -/
def fcollectBrucksPut (shift me : Nat) : List (Move AtaCell) :=
  putWg (team.getPeInWorld me) (.pAta, (1 <<< shift) * nelems) (.pAta, 0)
    (min (1 <<< shift) (team.size - (1 <<< shift)) * nelems)
    (team.getPeInWorld ((me + (1 <<< shift)) % team.size))

/-- The rounds of `fcollect_brucks`, cut at its synchronisations: the copy of
    `src`, the put of every shift, and the inverse rotation. -/
def fcollectBrucksRounds : List (Nat → List (Move AtaCell)) :=
  fcollectBrucksInit team nelems ::
    (brucksShifts team.size team.size 0).map (fcollectBrucksPut team nelems) ++
    [brucksInverseRotate team nelems]

/-- Every member of the team running `fcollect_brucks` in lock step. -/
def fcollectBrucks (m : AtaCell → α) : AtaCell → α :=
  lockStep (List.range team.size) (fcollectBrucksRounds team nelems) m

theorem iterates_fcollectBrucksInit :
    Iterates (fcollectBrucksInit team nelems) (fun _ o => o < nelems)
      fun me o => ⟨(team.getPeInWorld me, .pAta, o), (team.getPeInWorld me, .src, o)⟩ := by
  intro me mv
  simp only [fcollectBrucksInit, putWg, copyElems, mem_loopMoves, true_and, Nat.zero_add]

/-- The initial copy: element `o` of block `0` of `pAta` gets element `o` of
    the own `src`. -/
theorem fcollectInit_pAta (m : AtaCell → α) {me o : Nat} (hme : me < team.size)
    (ho : o < nelems) :
    applyMoves m ((List.range team.size).flatMap (fcollectBrucksInit team nelems))
      (team.getPeInWorld me, .pAta, o) = m (team.getPeInWorld me, .src, o) := by
  have h := iterates_fcollectBrucksInit team nelems
  refine h.applyMoves_of_mem (h.simultaneous ?_ ?_) hme ho m
  · -- the copy reads `src` and writes `pAta`
    exact fun _ _ _ _ _ _ _ _ => cell_ne_of_buf_ne (by decide)
  · intro p _ x _ p' _ x' _ heq
    simp only [Prod.mk.injEq] at heq
    obtain ⟨hp, -, rfl⟩ := heq
    rw [team.getPeInWorld_inj hp]

theorem fcollectInit_of_ne_pAta (m : AtaCell → α) {q k : Nat} {b : AtaBuf} (hb : b ≠ .pAta) :
    applyMoves m ((List.range team.size).flatMap (fcollectBrucksInit team nelems)) (q, b, k) =
      m (q, b, k) :=
  (iterates_fcollectBrucksInit team nelems).applyMoves_of_not_mem
    (fun _ _ _ _ => cell_ne_of_buf_ne (Ne.symm hb)) m

theorem iterates_fcollectBrucksPut (shift : Nat) :
    Iterates (fcollectBrucksPut team nelems shift)
      (fun _ k => k < min (1 <<< shift) (team.size - (1 <<< shift)) * nelems)
      fun me k => ⟨(team.getPeInWorld ((me + (1 <<< shift)) % team.size), .pAta,
          (1 <<< shift) * nelems + k), (team.getPeInWorld me, .pAta, k)⟩ := by
  intro me mv
  simp only [fcollectBrucksPut, putWg, copyElems, mem_loopMoves, true_and, Nat.zero_add]

/-- Round `shift` of the collect: element `k` past block `2^shift` of `pAta`
    on member `me` gets element `k` of `pAta` on the member `2^shift` before
    it, for `k` below `data_size`. -/
theorem fcollectPut_pAta (m : AtaCell → α) {shift me k : Nat} (hme : me < team.size)
    (hs : 2 ^ shift ≤ team.size) (hk : k < min (2 ^ shift) (team.size - 2 ^ shift) * nelems) :
    applyMoves m ((List.range team.size).flatMap (fcollectBrucksPut team nelems shift))
        (team.getPeInWorld me, .pAta, 2 ^ shift * nelems + k) =
      m (team.getPeInWorld ((me + team.size - 2 ^ shift) % team.size), .pAta, k) := by
  have h := iterates_fcollectBrucksPut team nelems shift
  have hsize : min (2 ^ shift) (team.size - 2 ^ shift) * nelems ≤ 2 ^ shift * nelems :=
    Nat.mul_le_mul_right nelems (min_le_left _ _)
  have hsim : Simultaneous
      ((List.range team.size).flatMap (fcollectBrucksPut team nelems shift)) := by
    refine h.simultaneous ?_ ?_
    · -- the put reads below block `2^shift` and writes from there on
      intro p _ x _ p' _ x' hx' heq
      simp only [Prod.mk.injEq, Nat.one_shiftLeft] at heq hx'
      obtain ⟨-, -, hidx⟩ := heq
      omega
    · -- distinct senders put to distinct receivers
      intro p hp x _ p' hp' x' _ heq
      simp only [Prod.mk.injEq, Nat.add_left_cancel_iff] at heq
      obtain ⟨hq, -, rfl⟩ := heq
      rw [add_mod_inj hp hp' (team.getPeInWorld_inj hq)]
  have hval := h.applyMoves_of_mem hsim (p := (me + team.size - 2 ^ shift) % team.size)
    (Nat.mod_lt _ (by omega)) (x := k) (by rwa [Nat.one_shiftLeft]) m
  simp only [Nat.one_shiftLeft, sub_add_mod hme hs] at hval
  exact hval

/-- Round `shift` writes nothing below block `2^shift` of `pAta`. -/
theorem fcollectPut_of_lt (m : AtaCell → α) (shift : Nat) {q k : Nat} {b : AtaBuf}
    (hk : b ≠ .pAta ∨ k < 2 ^ shift * nelems) :
    applyMoves m ((List.range team.size).flatMap (fcollectBrucksPut team nelems shift))
      (q, b, k) = m (q, b, k) := by
  refine (iterates_fcollectBrucksPut team nelems shift).applyMoves_of_not_mem
    (fun p _ x _ heq => ?_) m
  simp only [Prod.mk.injEq, Nat.one_shiftLeft] at heq
  obtain ⟨-, rfl, rfl⟩ := heq
  rcases hk with hb | hk
  · exact hb rfl
  · omega

/-- After the copy of `src` and the rounds of the shifts below `s`: no `src`
    cell has changed, and the first `min (2^s) P` blocks of `pAta` on member
    `me` hold the `src` of members `me, me - 1, ...`, block `k` that of
    member `(me - k) mod P`. -/
structure FcollectGathered (m₀ m : AtaCell → α) (s : Nat) : Prop where
  src_eq : ∀ q k, m (q, .src, k) = m₀ (q, .src, k)
  pAta_eq : ∀ me < team.size, ∀ k < min (2 ^ s) team.size, ∀ o < nelems,
    m (team.getPeInWorld me, .pAta, k * nelems + o) =
      m₀ (team.getPeInWorld ((me + team.size - k) % team.size), .src, o)

/-- The copy of `src` gathers block `0`. -/
theorem fcollectGathered_init (m₀ : AtaCell → α) :
    FcollectGathered team nelems m₀
      (applyMoves m₀ ((List.range team.size).flatMap (fcollectBrucksInit team nelems))) 0 := by
  constructor
  · intro q k
    exact fcollectInit_of_ne_pAta team nelems m₀ (by simp)
  · intro me hme k hk o ho
    obtain rfl : k = 0 := by
      rw [Nat.pow_zero] at hk
      omega
    rw [Nat.zero_mul, Nat.zero_add, fcollectInit_pAta team nelems m₀ hme ho, Nat.sub_zero,
      Nat.add_mod_right, Nat.mod_eq_of_lt hme]

/-- Round `s`, with `2^s < P`, doubles the gathered blocks, up to `P`: the
    blocks from `2^s` on come from the member `2^s` before. -/
theorem fcollectGathered_round {m₀ m : AtaCell → α} {s : Nat} (hs : 2 ^ s < team.size)
    (h : FcollectGathered team nelems m₀ m s) :
    FcollectGathered team nelems m₀
      (applyMoves m ((List.range team.size).flatMap (fcollectBrucksPut team nelems s)))
      (s + 1) := by
  constructor
  · intro q k
    rw [fcollectPut_of_lt team nelems m s (.inl (by simp)), h.src_eq]
  · intro me hme k hk o ho
    rw [Nat.pow_succ] at hk
    rcases Nat.lt_or_ge k (2 ^ s) with hlow | hhigh
    · -- a block gathered before stays
      have hblock : k * nelems + o < 2 ^ s * nelems := block_lt hlow ho
      rw [fcollectPut_of_lt team nelems m s (.inr hblock),
        h.pAta_eq me hme k (lt_min hlow (by omega)) o ho]
    · -- a new block is block `k - 2^s` of the member `2^s` before
      obtain ⟨k, rfl⟩ : ∃ k', k = 2 ^ s + k' := ⟨k - 2 ^ s, by omega⟩
      have hk' : k < min (2 ^ s) (team.size - 2 ^ s) := lt_min (by omega) (by omega)
      have hsender : (me + team.size - 2 ^ s) % team.size < team.size := Nat.mod_lt _ (by omega)
      rw [show (2 ^ s + k) * nelems + o = 2 ^ s * nelems + (k * nelems + o) by ring,
        fcollectPut_pAta team nelems m hme hs.le (block_lt hk' ho),
        h.pAta_eq _ hsender k (lt_min (by omega) (by omega)) o ho, sub_mod_sub (by omega)]

/-- The rounds of the shifts below `k ≤ ⌈log₂ P⌉` gather `min (2^k) P`
    blocks. -/
theorem fcollectGathered_shifts {m₀ m : AtaCell → α} (h : FcollectGathered team nelems m₀ m 0)
    {k : Nat} (hk : k ≤ Nat.clog 2 team.size) :
    FcollectGathered team nelems m₀
      (lockStep (List.range team.size) ((List.range k).map (fcollectBrucksPut team nelems)) m)
      k := by
  induction k with
  | zero => exact h
  | succ k ih =>
    have hs : 2 ^ k < team.size := Nat.pow_lt_of_lt_clog (by omega)
    rw [List.range_succ, List.map_append, lockStep_append, List.map_singleton, lockStep_cons,
      lockStep_nil]
    exact fcollectGathered_round team nelems hs (ih (by omega))

/-- The rounds up to and including the round for `shift`: the copy and the
    puts of the shifts `0, ..., shift`. -/
theorem take_fcollectBrucksRounds {shift : Nat} (hs : 2 ^ shift < team.size) :
    (fcollectBrucksRounds team nelems).take (shift + 2) =
      fcollectBrucksInit team nelems ::
        (List.range (shift + 1)).map (fcollectBrucksPut team nelems) := by
  have hlt : shift < Nat.clog 2 team.size := (Nat.lt_clog_iff_pow_lt (by norm_num)).2 hs
  rw [fcollectBrucksRounds, brucksShifts_range, List.take_append_of_le_length (by simp; omega),
    show shift + 2 = shift + 1 + 1 from rfl, List.take_succ_cons, ← List.map_take,
    List.take_range, Nat.min_eq_left (by omega)]

/-- After the last round every member has gathered all `P` blocks, and the
    inverse rotation puts block `i` of `dst` on every member `j` in place: it
    is the `src` of member `i`. -/
theorem fcollectBrucks_gather (m₀ : AtaCell → α) {i j o : Nat} (hi : i < team.size)
    (hj : j < team.size) (ho : o < nelems) :
    fcollectBrucks team nelems m₀ (team.getPeInWorld j, .dst, i * nelems + o) =
      m₀ (team.getPeInWorld i, .src, o) := by
  have hP : 0 < team.size := by omega
  have hgathered := fcollectGathered_shifts team nelems (fcollectGathered_init team nelems m₀)
    (le_refl (Nat.clog 2 team.size))
  have hpos : (j + team.size - i) % team.size < team.size := Nat.mod_lt _ hP
  have hall : (j + team.size - i) % team.size < min (2 ^ Nat.clog 2 team.size) team.size :=
    lt_min (hpos.trans_le (Nat.le_pow_clog (by norm_num) _)) hpos
  have hdst := inverseRotate_dst team nelems (lockStep (List.range team.size)
    ((List.range (Nat.clog 2 team.size)).map (fcollectBrucksPut team nelems))
    (applyMoves m₀ ((List.range team.size).flatMap (fcollectBrucksInit team nelems))))
    hj hpos ho
  rw [Nat.add_comm team.size j, sub_sub_mod hi] at hdst
  rw [fcollectBrucks, fcollectBrucksRounds, brucksShifts_range, List.cons_append, lockStep_cons,
    lockStep_append, lockStep_cons, lockStep_nil, hdst, hgathered.pAta_eq j hj _ hall o ho,
    sub_sub_mod hi]

end Fcollect

end RocShmem
