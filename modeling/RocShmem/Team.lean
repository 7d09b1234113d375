import Mathlib.Tactic.Ring

/-!
# Teams and Strided Splits

A team is a strided set of world PEs: member `i` is the world PE
`pe_start + stride * i`, for `i < num_pes` (`team.cpp`). `TEAM_WORLD` starts
at `0` with stride `1`, and `rocshmem_team_split_strided` (`rocshmem.cpp`)
describes a new team by its `(start, stride, size)` relative to the parent,
composes that with the parent's own world-relative triple, and hands the team
to exactly the PEs `pe_in_active_set` places in it.

C `int` arithmetic is modelled by `Int`, with `/` and `%` as the truncating
`Int.tdiv` and `Int.tmod`. Overflow is not modelled: an `int` product that
overflows is undefined behaviour, outside what the code means.

The split checks `start` and `size` against the parent's size, and the last
world PE `pe_start + stride * (size - 1)` against the world size with `>`.
What that buys is stated by `Team.WellFormed`: every team a PE holds has a
positive stride and size, knows its own index, and has its last member at a
world rank of at most the world size. At most: the comparison admits a last
member equal to the world size, one past the last PE, and nothing compares
the last parent index `start + stride * (size - 1)` with the parent's size.

## Main definitions

* `TeamInfo`, `Team`: The world-relative triple and the team's own fields.
* `Team.getPeInWorld`, `Team.getPeInMyTeam`: The two index translations.
* `teamTranslatePe`: A member's index in another team, through the world.
* `peInActiveSet`: A world PE's index in a triple, or `-1`.
* `teamWorld`, `teamSplitStrided`: The world team and the split.
* `Team.Held`: The teams a PE holds after any sequence of splits.

## Theorems

* `Team.getPeInMyTeam_eq_iff`: The translations are inverse to each other.
* `team_translate_pe_partial_bijection`: Translating a member to another
  team and back gives the member again.
* `teamSplitStrided_eq_some_team`: What a split that hands out a team checked.
* `Team.held_wellFormed`: The invariant of every team a PE holds.
* `teamSplitStrided_getPeInWorld`: A new member is the parent's member
  `start + i * stride`.
-/

namespace RocShmem

/-- `TeamInfo`: the PEs `pe_start + stride * i` for `i < size`. The parent
    pointer and `log_stride` are not read by anything modelled. -/
structure TeamInfo where
  peStart : Int
  stride : Int
  size : Int
deriving DecidableEq, Repr

/-- The fields of `Team` the split and the collectives read: the triple
    relative to `TEAM_WORLD`, the size and this PE's index. -/
structure Team where
  tinfoWrtWorld : TeamInfo
  numPes : Int
  myPe : Int
deriving DecidableEq, Repr

namespace Team

/-- `Team::get_pe_in_world`. -/
def getPeInWorld (t : Team) (pe : Int) : Int :=
  t.tinfoWrtWorld.peStart + t.tinfoWrtWorld.stride * pe

/-- `Team::get_pe_in_my_team`: the index of a world PE, or `-1` when it is
    before the start, off the stride, or past the end. -/
def getPeInMyTeam (t : Team) (peInWorld : Int) : Int :=
  let peStart := t.tinfoWrtWorld.peStart
  let stride := t.tinfoWrtWorld.stride
  if peInWorld < peStart then -1
  else if (peInWorld - peStart).tmod stride ≠ 0 then -1
  else
    let peInMyTeam := (peInWorld - peStart).tdiv stride
    if peInMyTeam ≥ t.numPes then -1 else peInMyTeam

end Team

/-- `pe_in_active_set`: the index of world PE `pe` in the triple, or `-1`. -/
def peInActiveSet (start stride size pe : Int) : Int :=
  let translatedPe := (pe - start).tdiv stride
  if pe < start ∨ (pe - start).tmod stride ≠ 0 ∨ translatedPe ≥ size then -1 else translatedPe

/-- `team_translate_pe(src_team, src_pe, dst_team)`: the index in `dst_team`
    of member `src_pe` of `src_team`, through its world rank; `-1` when either
    team is `ROCSHMEM_TEAM_INVALID` (`none`). -/
def teamTranslatePe (srcTeam : Option Team) (srcPe : Int) (dstTeam : Option Team) : Int :=
  match srcTeam, dstTeam with
  | some src, some dst => dst.getPeInMyTeam (src.getPeInWorld srcPe)
  | _, _ => -1

/-- `setup_team_world`: start `0`, stride `1`, every PE. -/
def teamWorld (numPes myPe : Int) : Team := ⟨⟨0, 1, numPes⟩, numPes, myPe⟩

/-- `rocshmem_team_split_strided` on world PE `myPe` of `numPes`, with the
    team tracker at `numUserTeams` of `maxNumTeams`. `none` where it aborts;
    otherwise the return code and the new team, `none` standing for
    `ROCSHMEM_TEAM_INVALID` (also for an invalid parent). The new team is what
    `create_new_team` builds from the two triples, the size and the index. -/
def teamSplitStrided (numPes myPe numUserTeams maxNumTeams : Int) (parent : Option Team)
    (start stride size : Int) : Option (Int × Option Team) :=
  if numUserTeams ≥ maxNumTeams - 1 then none
  else
    match parent with
    | none => some (0, none)
    | some p =>
        if start < 0 ∨ start ≥ p.numPes ∨ size < 1 ∨ size > p.numPes ∨ stride < 1 then
          some (-1, none)
        else
          let peStartInWorld := p.getPeInWorld start
          let strideInWorld := stride * p.tinfoWrtWorld.stride
          let peEndInWorld := peStartInWorld + strideInWorld * (size - 1)
          -- Only the last world PE is checked, and against `num_pes` with `>`.
          if peEndInWorld > numPes then some (-1, none)
          else
            let myPeInNewTeam := peInActiveSet peStartInWorld strideInWorld size myPe
            if myPeInNewTeam < 0 then some (0, none)
            else some (0, some ⟨⟨peStartInWorld, strideInWorld, size⟩, size, myPeInNewTeam⟩)

namespace Team

/-- `pe_in_active_set` on a team's own triple is `get_pe_in_my_team`: the
    same three tests, made in one condition. -/
theorem peInActiveSet_eq_getPeInMyTeam (t : Team) (pe : Int) :
    peInActiveSet t.tinfoWrtWorld.peStart t.tinfoWrtWorld.stride t.numPes pe =
      t.getPeInMyTeam pe := by
  unfold peInActiveSet getPeInMyTeam
  dsimp only
  generalize (pe - t.tinfoWrtWorld.peStart).tmod t.tinfoWrtWorld.stride = m
  generalize (pe - t.tinfoWrtWorld.peStart).tdiv t.tinfoWrtWorld.stride = q
  by_cases h₁ : pe < t.tinfoWrtWorld.peStart
  · rw [if_pos (Or.inl h₁), if_pos h₁]
  · by_cases h₂ : m ≠ 0
    · rw [if_pos (Or.inr (Or.inl h₂)), if_neg h₁, if_pos h₂]
    · by_cases h₃ : q ≥ t.numPes
      · rw [if_pos (Or.inr (Or.inr h₃)), if_neg h₁, if_neg h₂, if_pos h₃]
      · rw [if_neg (by tauto), if_neg h₁, if_neg h₂, if_neg h₃]

/-- Over a positive stride, the index of world PE `pe` is `i ≥ 0` exactly
    when `pe` is member `i`. -/
theorem getPeInMyTeam_eq_iff (t : Team) (hstride : 0 < t.tinfoWrtWorld.stride) (pe i : Int)
    (hi : 0 ≤ i) : t.getPeInMyTeam pe = i ↔ i < t.numPes ∧ pe = t.getPeInWorld i := by
  unfold getPeInMyTeam getPeInWorld
  dsimp only
  constructor
  · intro h
    split at h
    · omega
    · split at h
      · omega
      · rename_i hge hmod
        split at h
        · omega
        · rename_i hlt
          -- Past the start and on the stride: the difference is `stride * i`.
          have hnn : 0 ≤ pe - t.tinfoWrtWorld.peStart := by omega
          rw [Int.tdiv_eq_ediv_of_nonneg hnn] at h hlt
          rw [Int.tmod_eq_emod_of_nonneg hnn] at hmod
          have hdiv := Int.mul_ediv_add_emod (pe - t.tinfoWrtWorld.peStart) t.tinfoWrtWorld.stride
          rw [not_not.mp hmod, h] at hdiv
          refine ⟨by omega, by omega⟩
  · rintro ⟨hlt, rfl⟩
    have hmul : 0 ≤ t.tinfoWrtWorld.stride * i := Int.mul_nonneg (Int.le_of_lt hstride) hi
    have hsub : t.tinfoWrtWorld.peStart + t.tinfoWrtWorld.stride * i - t.tinfoWrtWorld.peStart =
        t.tinfoWrtWorld.stride * i := by omega
    have hne : t.tinfoWrtWorld.stride ≠ 0 := by omega
    simp only [hsub, Int.mul_tmod_right, Int.mul_tdiv_cancel_left _ hne, ne_eq,
      not_true_eq_false, if_false]
    split
    · omega
    · split
      · omega
      · rfl

/-- A member's world rank translates back to its index. -/
theorem getPeInMyTeam_getPeInWorld (t : Team) (hstride : 0 < t.tinfoWrtWorld.stride) (i : Int)
    (hi : 0 ≤ i) (hlt : i < t.numPes) : t.getPeInMyTeam (t.getPeInWorld i) = i :=
  (getPeInMyTeam_eq_iff t hstride _ i hi).mpr ⟨hlt, rfl⟩

/-- What the split guarantees of every team a PE holds. -/
structure WellFormed (numPes myPe : Int) (t : Team) : Prop where
  start_nonneg : 0 ≤ t.tinfoWrtWorld.peStart
  stride_pos : 0 < t.tinfoWrtWorld.stride
  size_eq : t.tinfoWrtWorld.size = t.numPes
  size_pos : 0 < t.numPes
  last_le : t.getPeInWorld (t.numPes - 1) ≤ numPes
  my_pe : t.myPe = t.getPeInMyTeam myPe
  my_pe_nonneg : 0 ≤ t.myPe

/-- The teams world PE `myPe` holds: `TEAM_WORLD`, and every team a split of
    a team it holds returns to it. -/
inductive Held (numPes myPe : Int) : Team → Prop
  | world : Held numPes myPe (teamWorld numPes myPe)
  | split {p t : Team} (numUserTeams maxNumTeams start stride size : Int) :
      Held numPes myPe p →
      teamSplitStrided numPes myPe numUserTeams maxNumTeams (some p) start stride size =
        some (0, some t) →
      Held numPes myPe t

end Team

/-- The inversion lemma of the split: a split that hands out a team passed
    every check, and the team is built from the composed triple with this
    PE's index in it. -/
theorem teamSplitStrided_eq_some_team {numPes myPe numUserTeams maxNumTeams : Int} {p t : Team}
    {start stride size : Int}
    (h : teamSplitStrided numPes myPe numUserTeams maxNumTeams (some p) start stride size =
      some (0, some t)) :
    0 ≤ start ∧ start < p.numPes ∧ 1 ≤ size ∧ size ≤ p.numPes ∧ 1 ≤ stride ∧
      p.getPeInWorld start + stride * p.tinfoWrtWorld.stride * (size - 1) ≤ numPes ∧
      0 ≤ peInActiveSet (p.getPeInWorld start) (stride * p.tinfoWrtWorld.stride) size myPe ∧
      t = ⟨⟨p.getPeInWorld start, stride * p.tinfoWrtWorld.stride, size⟩, size,
        peInActiveSet (p.getPeInWorld start) (stride * p.tinfoWrtWorld.stride) size myPe⟩ := by
  unfold teamSplitStrided at h
  split at h
  · exact absurd h (Option.some_ne_none _).symm
  · dsimp only at h
    split at h
    · simp only [Option.some.injEq, Prod.mk.injEq] at h
      omega
    · rename_i hchecks
      split at h
      · simp only [Option.some.injEq, Prod.mk.injEq] at h
        omega
      · rename_i hend
        split at h
        · simp only [Option.some.injEq, Prod.mk.injEq, reduceCtorEq, and_false] at h
        · rename_i hpe
          simp only [Option.some.injEq, Prod.mk.injEq, Option.some.injEq, true_and] at h
          refine ⟨by omega, by omega, by omega, by omega, by omega, by omega, by omega, h.symm⟩

namespace Team

/-- The run lemma: every team a PE holds is well formed, by induction over
    the splits, with the inversion lemma in the step. -/
theorem held_wellFormed {numPes myPe : Int} (hpe : 0 ≤ myPe) (hlt : myPe < numPes) {t : Team}
    (h : Held numPes myPe t) : WellFormed numPes myPe t := by
  induction h with
  | world =>
      -- World rank and world index coincide.
      have hidx : (teamWorld numPes myPe).getPeInMyTeam myPe = myPe := by
        have := getPeInMyTeam_getPeInWorld (teamWorld numPes myPe) Int.one_pos myPe hpe hlt
        simpa only [getPeInWorld, teamWorld, Int.one_mul, Int.zero_add] using this
      have hsize : 0 < numPes := by omega
      refine ⟨le_refl _, Int.one_pos, rfl, hsize, ?_, hidx.symm, hpe⟩
      simp only [getPeInWorld, teamWorld]
      omega
  | @split p t numUserTeams maxNumTeams start stride size _ hsplit ih =>
      obtain ⟨hstart, -, hsize, -, hstride, hend, hpos, rfl⟩ := teamSplitStrided_eq_some_team hsplit
      have hstride' : 0 < stride * _ := Int.mul_pos (by omega) ih.stride_pos
      have hsize' : 0 < size := by omega
      refine ⟨?_, hstride', rfl, hsize', ?_, ?_, hpos⟩
      · -- The new start is a parent member at a non-negative index.
        have hmul := Int.mul_nonneg (Int.le_of_lt ih.stride_pos) hstart
        have h0 := ih.start_nonneg
        simp only [getPeInWorld] at hmul ⊢
        omega
      · simpa only [getPeInWorld] using hend
      · exact peInActiveSet_eq_getPeInMyTeam
          ⟨⟨p.getPeInWorld start, stride * p.tinfoWrtWorld.stride, size⟩, size,
            peInActiveSet (p.getPeInWorld start) (stride * p.tinfoWrtWorld.stride) size myPe⟩
          myPe

end Team

/-- A member of the new team is the parent's member `start + i * stride`. -/
theorem teamSplitStrided_getPeInWorld {numPes myPe numUserTeams maxNumTeams : Int} {p t : Team}
    {start stride size : Int}
    (h : teamSplitStrided numPes myPe numUserTeams maxNumTeams (some p) start stride size =
      some (0, some t)) (i : Int) :
    t.getPeInWorld i = p.getPeInWorld (start + i * stride) := by
  obtain ⟨-, -, -, -, -, -, -, rfl⟩ := teamSplitStrided_eq_some_team h
  simp only [Team.getPeInWorld]
  ring

/-- The world ranks of a held team's members: every member before the last
    is a PE of the world, and the last is at most the world size. -/
theorem Team.held_getPeInWorld_le {numPes myPe : Int} (hpe : 0 ≤ myPe) (hlt : myPe < numPes)
    {t : Team} (h : Held numPes myPe t) (i : Int) (hi : 0 ≤ i) (hin : i < t.numPes) :
    0 ≤ t.getPeInWorld i ∧ t.getPeInWorld i ≤ numPes ∧
      (i < t.numPes - 1 → t.getPeInWorld i < numPes) := by
  have hwf := held_wellFormed hpe hlt h
  -- Member ranks grow with the index, by a positive stride each step.
  have hmono : ∀ j, i < j → t.getPeInWorld i < t.getPeInWorld j := by
    intro j hij
    simp only [getPeInWorld]
    have := Int.mul_lt_mul_of_pos_left hij hwf.stride_pos
    omega
  have hnn : 0 ≤ t.tinfoWrtWorld.stride * i := Int.mul_nonneg (Int.le_of_lt hwf.stride_pos) hi
  have hlast := hwf.last_le
  have hfirst : 0 ≤ t.getPeInWorld i := by
    have h0 := hwf.start_nonneg
    simp only [getPeInWorld]
    omega
  refine ⟨hfirst, ?_, ?_⟩
  · rcases Int.lt_or_eq_of_le (show i ≤ t.numPes - 1 by omega) with hlt' | heq
    · exact Int.le_of_lt (Int.lt_of_lt_of_le (hmono _ hlt') hlast)
    · rw [heq]
      exact hlast
  · intro hlt'
    exact Int.lt_of_lt_of_le (hmono _ hlt') hlast

/-- The translation between two teams goes back: a member `p` of `A` that
    `B` holds at `q` is translated from `B` back to `p`. -/
theorem teamTranslatePe_back (A B : Team) (hA : 0 < A.tinfoWrtWorld.stride)
    (hB : 0 < B.tinfoWrtWorld.stride) {p q : Int} (hp : 0 ≤ p) (hpA : p < A.numPes)
    (hq : teamTranslatePe (some A) p (some B) = q) (hq0 : 0 ≤ q) :
    teamTranslatePe (some B) q (some A) = p := by
  -- `q` is `B`'s index of `p`'s world rank, so `B` puts `q` at that rank.
  have hworld : A.getPeInWorld p = B.getPeInWorld q :=
    ((Team.getPeInMyTeam_eq_iff B hB _ q hq0).mp hq).2
  change A.getPeInMyTeam (B.getPeInWorld q) = p
  rw [← hworld]
  exact Team.getPeInMyTeam_getPeInWorld A hA p hp hpA

/-- Over positive strides, `get_pe_in_my_team` and `get_pe_in_world` are
    inverse on the members, every non-negative index `get_pe_in_my_team`
    returns is a member's, and `team_translate_pe` from `A` to `B` and back
    returns the member it started from. -/
theorem team_translate_pe_partial_bijection (A B : Team) (hA : 0 < A.tinfoWrtWorld.stride)
    (hB : 0 < B.tinfoWrtWorld.stride) :
    (∀ w p : Int, A.getPeInMyTeam w = p → 0 ≤ p → p < A.numPes ∧ A.getPeInWorld p = w) ∧
      (∀ p : Int, 0 ≤ p → p < A.numPes → A.getPeInMyTeam (A.getPeInWorld p) = p) ∧
      (∀ p q : Int, 0 ≤ p → p < A.numPes → teamTranslatePe (some A) p (some B) = q → 0 ≤ q →
        teamTranslatePe (some B) q (some A) = p) := by
  refine ⟨fun w p hw hp => ?_, fun p hp hpA => Team.getPeInMyTeam_getPeInWorld A hA p hp hpA,
    fun p q hp hpA hq hq0 => teamTranslatePe_back A B hA hB hp hpA hq hq0⟩
  obtain ⟨hlt, hrank⟩ := (Team.getPeInMyTeam_eq_iff A hA w p hp).mp hw
  exact ⟨hlt, hrank.symm⟩

/-- The world team of four PEs and the team `{1, 3}` of it. -/
theorem team_translate_pe_partial_bijection_world_and_odd :
    0 < (teamWorld 4 0).tinfoWrtWorld.stride ∧ 0 < (⟨⟨1, 2, 2⟩, 2, 0⟩ : Team).tinfoWrtWorld.stride ∧
      ((∀ w p : Int, (teamWorld 4 0).getPeInMyTeam w = p → 0 ≤ p →
          p < (teamWorld 4 0).numPes ∧ (teamWorld 4 0).getPeInWorld p = w) ∧
        (∀ p : Int, 0 ≤ p → p < (teamWorld 4 0).numPes →
          (teamWorld 4 0).getPeInMyTeam ((teamWorld 4 0).getPeInWorld p) = p) ∧
        (∀ p q : Int, 0 ≤ p → p < (teamWorld 4 0).numPes →
          teamTranslatePe (some (teamWorld 4 0)) p (some ⟨⟨1, 2, 2⟩, 2, 0⟩) = q → 0 ≤ q →
          teamTranslatePe (some ⟨⟨1, 2, 2⟩, 2, 0⟩) q (some (teamWorld 4 0)) = p)) :=
  ⟨by decide, by decide,
    team_translate_pe_partial_bijection (teamWorld 4 0) ⟨⟨1, 2, 2⟩, 2, 0⟩ (by decide) (by decide)⟩

/-- In a world of four PEs, splitting `TEAM_WORLD` with start `0`, stride `2`
    and size `3` returns `0` and a team on PE 0, but member `2` of that team is
    parent member `4`, past the parent's four PEs, and world PE `4`, past the
    world: the end check compares with `>` where `>=` is needed. -/
theorem teamSplitStrided_member_past_parent :
    ∃ t, teamSplitStrided 4 0 0 40 (some (teamWorld 4 0)) 0 2 3 = some (0, some t) ∧
      t.getPeInWorld 2 = (teamWorld 4 0).getPeInWorld (0 + 2 * 2) ∧
      ¬ (0 + 2 * 2 < (teamWorld 4 0).numPes) ∧ ¬ (t.getPeInWorld 2 < 4) :=
  ⟨⟨⟨0, 2, 3⟩, 3, 0⟩, by decide, by decide, by decide, by decide⟩

-- Nothing compares the last parent index with the parent's size either:
-- split the team {0, 2} of eight PEs at start 1, stride 1, size 2, and PE 2
-- is handed the team {2, 4}, whose member 4 is not in the parent.
example : teamSplitStrided 8 2 1 40 (some ⟨⟨0, 2, 2⟩, 2, 1⟩) 1 1 2 =
    some (0, some ⟨⟨2, 2, 2⟩, 2, 0⟩) := by
  decide

end RocShmem
