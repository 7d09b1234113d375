import RocShmem.Lib.ByteBitmask
import Mathlib.Data.List.Nodup

/-!
# Pool Indices of IPC Teams

Every IPC team owns one slot in each of the backend's pools of work and sync
arrays, `pool_index_`, and every PE keeps its own record of which slots its
teams use: `pool_bitmask_`, with bit `i` set while slot `i` is free
(`ipc/backend_ipc.cpp`). Slot `0` is `TEAM_WORLD`'s, so `teams_init` sets
every bit but bit `0`. Creating a team is collective over its members only:
they AND their bitmasks together with `MPI_Allreduce`, every member takes
the lowest bit set in the result and clears it in its own bitmask.
Destroying a team on a PE sets its bit again there.

The model keeps, for each PE, its bitmask and the user teams it holds, each
with the index it obtained (`PoolView`); the PEs and the team handles are of
any types. A collective creation is one step in which every member runs the
pool part of `create_new_team` on the same reduced bitmask, which is what
the `MPI_Allreduce` hands to each of them; a destruction is a step of one PE.

`PoolView.Inv` is the per-PE invariant: bit `0` is clear, the indices held
are distinct and between `1` and `max_num_teams`, and bit `i` is set exactly
when no team held there has index `i`. The one fact the creation step needs
is that a bit set in the AND is set on every member, hence free on every
member.

## Main definitions

* `bitmaskSize`, `teamsInitBitmask`: The bitmask `teams_init` builds.
* `getLsNonZeroBit`: The lowest set bit, or `-1`.
* `createNewTeam`, `teamDestroy`: The pool parts of the two calls, on one PE.
* `PoolView`, `PoolReachable`: The per-PE bookkeeping and the runs.

## Theorems

* `PoolView.init_inv`, `PoolView.create_inv`, `PoolView.destroy_inv`: The
  invariant holds initially and is kept by both steps.
* `team_pool_indices_agree`: Agreement, the reserved index, no aliasing and
  the meaning of the bitmask, in every reachable state.
-/

namespace RocShmem

open ByteBitmask

/-- `bitmask_size_`: enough bytes for `max_num_teams` bits. -/
def bitmaskSize (maxNumTeams : Nat) : Nat :=
  if maxNumTeams % 8 ≠ 0 then maxNumTeams / 8 + 1 else maxNumTeams / 8

/-- The `pool_bitmask_` that `teams_init` leaves: zeroed, then every bit from
    `1` below `max_num_teams` set. -/
def teamsInitBitmask (maxNumTeams : Nat) : List UInt8 :=
  (List.range' 1 (maxNumTeams - 1)).foldl setBit (List.replicate (bitmaskSize maxNumTeams) 0)

/-- `get_ls_non_zero_bit`: the first bit below `mask_length` that is set,
    scanning up from bit `0`, or `-1`. -/
def getLsNonZeroBit (bitmask : List UInt8) (maskLength : Nat) : Int :=
  match lowestSet bitmask maskLength with
  | some i => i
  | none => -1

/-- The pool part of `create_new_team` on one member, from `reduced_bitmask_`
    after the `MPI_Allreduce`: the common index and the member's new
    `pool_bitmask_`, or `none` where it aborts for want of a free slot. -/
def createNewTeam (maxNumTeams : Nat) (reduced poolBitmask : List UInt8) :
    Option (Nat × List UInt8) :=
  let commonIndex := getLsNonZeroBit reduced maxNumTeams
  if commonIndex < 0 then none
  else some (commonIndex.toNat, clearBit poolBitmask commonIndex.toNat)

/-- The pool part of `team_destroy`: the team's slot is free again. -/
def teamDestroy (poolBitmask : List UInt8) (poolIndex : Nat) : List UInt8 :=
  setBit poolBitmask poolIndex

/-- The pool bookkeeping of one PE: `pool_bitmask_`, and the user teams it
    holds, each with the `pool_index_` it obtained. -/
structure PoolView (T : Type) where
  poolBitmask : List UInt8
  teams : List (T × Nat)

section Runs

variable {P T : Type} [DecidableEq P] [DecidableEq T]

/-- The state after `members` create team `id`, each member with the result
    its own `create_new_team` returned. -/
def createStep (s : P → PoolView T) (members : List P) (id : T) (results : P → Nat × List UInt8) :
    P → PoolView T :=
  fun q => if q ∈ members then ⟨(results q).2, (id, (results q).1) :: (s q).teams⟩ else s q

/-- The state after PE `q` destroys its team entry `e`. -/
def destroyStep (s : P → PoolView T) (q : P) (e : T × Nat) : P → PoolView T :=
  fun r => if r = q then ⟨teamDestroy (s q).poolBitmask e.2, (s q).teams.erase e⟩ else s r

/-- The states of all PEs over any sequence of collective creations, each by
    a non-empty set of members with a handle no PE holds yet, and of
    destructions of a team on one PE that holds it. -/
inductive PoolReachable (maxNumTeams : Nat) : (P → PoolView T) → Prop
  | init : PoolReachable maxNumTeams fun _ => ⟨teamsInitBitmask maxNumTeams, []⟩
  | create {s : P → PoolView T} (members : List P) (id : T) (results : P → Nat × List UInt8) :
      PoolReachable maxNumTeams s → members ≠ [] → (∀ q, ∀ e ∈ (s q).teams, e.1 ≠ id) →
      (∀ q ∈ members, createNewTeam maxNumTeams
        (bandAll (members.map fun r => (s r).poolBitmask)) (s q).poolBitmask = some (results q)) →
      PoolReachable maxNumTeams (createStep s members id results)
  | destroy {s : P → PoolView T} (q : P) (e : T × Nat) :
      PoolReachable maxNumTeams s → e ∈ (s q).teams →
      PoolReachable maxNumTeams (destroyStep s q e)

end Runs

/-- Every bit below `max_num_teams` lives in a byte of the bitmask. -/
theorem div_lt_bitmaskSize {maxNumTeams i : Nat} (h : i < maxNumTeams) :
    i / 8 < bitmaskSize maxNumTeams := by
  unfold bitmaskSize
  split <;> omega

theorem testBit_teamsInitBitmask (maxNumTeams i : Nat) :
    testBit (teamsInitBitmask maxNumTeams) i = decide (1 ≤ i ∧ i < maxNumTeams) := by
  unfold teamsInitBitmask
  rw [testBit_foldl_setBit]
  · simp only [testBit_replicate_zero, Bool.false_or, List.mem_range'_1]
    congr 1
    exact propext ⟨fun h => ⟨h.1, by omega⟩, fun h => ⟨h.1, by omega⟩⟩
  · intro j hj
    rw [List.length_replicate]
    exact div_lt_bitmaskSize (by rw [List.mem_range'_1] at hj; omega)

/-- What a `create_new_team` that did not abort returns: the lowest bit set
    in the reduced mask, cleared in the member's own. -/
theorem createNewTeam_eq_some {maxNumTeams : Nat} {reduced poolBitmask : List UInt8}
    {idx : Nat} {mask : List UInt8}
    (h : createNewTeam maxNumTeams reduced poolBitmask = some (idx, mask)) :
    lowestSet reduced maxNumTeams = some idx ∧ mask = clearBit poolBitmask idx := by
  unfold createNewTeam getLsNonZeroBit at h
  cases hlow : lowestSet reduced maxNumTeams with
  | none => simp only [hlow] at h; exact absurd h (by simp)
  | some i =>
      have hnn : ¬ ((i : Int) < 0) := by omega
      simp only [hlow, hnn, if_false, Option.some.injEq, Prod.mk.injEq, Int.toNat_natCast] at h
      obtain ⟨rfl, rfl⟩ := h
      exact ⟨rfl, rfl⟩

namespace PoolView

variable {T : Type}

/-- The per-PE invariant of the pool bookkeeping. -/
structure Inv (maxNumTeams : Nat) (v : PoolView T) : Prop where
  length_eq : v.poolBitmask.length = bitmaskSize maxNumTeams
  world_taken : testBit v.poolBitmask 0 = false
  index_range : ∀ e ∈ v.teams, 1 ≤ e.2 ∧ e.2 < maxNumTeams
  index_nodup : (v.teams.map Prod.snd).Nodup
  free_iff : ∀ i, 1 ≤ i → i < maxNumTeams →
    (testBit v.poolBitmask i = true ↔ ∀ e ∈ v.teams, e.2 ≠ i)

theorem init_inv (maxNumTeams : Nat) :
    Inv maxNumTeams (⟨teamsInitBitmask maxNumTeams, []⟩ : PoolView T) := by
  refine ⟨?_, ?_, ?_, List.nodup_nil, ?_⟩
  · simp only [teamsInitBitmask, length_foldl_setBit, List.length_replicate]
  · simp [testBit_teamsInitBitmask]
  · intro e he
    exact absurd he List.not_mem_nil
  · intro i hi hlt
    simp [testBit_teamsInitBitmask, hi, hlt]

/-- Taking a free slot: clear its bit and hold the new team with it. -/
theorem Inv.take {maxNumTeams : Nat} {v : PoolView T} (h : Inv maxNumTeams v) {idx : Nat}
    (hfree : testBit v.poolBitmask idx = true) (hlt : idx < maxNumTeams) (id : T) :
    Inv maxNumTeams ⟨clearBit v.poolBitmask idx, (id, idx) :: v.teams⟩ := by
  -- The slot is not `TEAM_WORLD`'s, whose bit is never set.
  have hpos : 1 ≤ idx := by
    rcases Nat.eq_zero_or_pos idx with rfl | hpos
    · rw [h.world_taken] at hfree
      exact absurd hfree Bool.false_ne_true
    · exact hpos
  have hnew : ∀ e ∈ v.teams, e.2 ≠ idx := (h.free_iff idx hpos hlt).mp hfree
  refine ⟨?_, ?_, ?_, ?_, ?_⟩
  · rw [length_clearBit]
    exact h.length_eq
  · rw [testBit_clearBit, h.world_taken, Bool.false_and]
  · intro e he
    rcases List.mem_cons.mp he with rfl | he
    · exact ⟨hpos, hlt⟩
    · exact h.index_range e he
  · refine List.nodup_cons.mpr ⟨?_, h.index_nodup⟩
    intro hmem
    obtain ⟨e, he, heq⟩ := List.mem_map.mp hmem
    exact hnew e he heq
  · intro i hi hlt'
    rw [testBit_clearBit, Bool.and_eq_true, h.free_iff i hi hlt', List.forall_mem_cons]
    simp only [Bool.not_eq_true', decide_eq_false_iff_not]
    exact ⟨fun ⟨hall, hne⟩ => ⟨Ne.symm hne, hall⟩, fun ⟨hne, hall⟩ => ⟨hall, Ne.symm hne⟩⟩

/-- In a list whose indices are distinct, no other entry has the index of
    the one erased. -/
theorem index_ne_of_mem_erase [DecidableEq T] {l : List (T × Nat)} (hnodup : (l.map Prod.snd).Nodup)
    {e e' : T × Nat} (he : e ∈ l) (he' : e' ∈ l.erase e) : e'.2 ≠ e.2 := by
  have hperm := (List.perm_cons_erase he).map Prod.snd
  have hnodup' := hperm.nodup_iff.mp hnodup
  rw [List.map_cons, List.nodup_cons] at hnodup'
  intro heq
  exact hnodup'.1 (heq ▸ List.mem_map_of_mem he')

/-- Releasing the slot of a team the PE holds: set its bit and drop the team. -/
theorem Inv.release [DecidableEq T] {maxNumTeams : Nat} {v : PoolView T} (h : Inv maxNumTeams v)
    {e : T × Nat} (he : e ∈ v.teams) :
    Inv maxNumTeams ⟨teamDestroy v.poolBitmask e.2, v.teams.erase e⟩ := by
  have hrange := h.index_range e he
  have hbyte : e.2 / 8 < v.poolBitmask.length := by
    rw [h.length_eq]
    exact div_lt_bitmaskSize hrange.2
  refine ⟨?_, ?_, ?_, ?_, ?_⟩
  · rw [teamDestroy, length_setBit]
    exact h.length_eq
  · rw [teamDestroy, testBit_setBit _ _ _ hbyte, h.world_taken, Bool.false_or,
      decide_eq_false_iff_not]
    omega
  · intro e' he'
    exact h.index_range e' (List.mem_of_mem_erase he')
  · exact h.index_nodup.sublist (List.erase_sublist.map Prod.snd)
  · intro i hi hlt
    rw [teamDestroy, testBit_setBit _ _ _ hbyte, Bool.or_eq_true, decide_eq_true_eq,
      h.free_iff i hi hlt]
    by_cases hie : i = e.2
    · -- The released slot: no team left on the PE has that index.
      subst hie
      simp only [or_true, true_iff]
      exact fun e' he' => index_ne_of_mem_erase h.index_nodup he he'
    · simp only [hie, or_false]
      constructor
      · exact fun hall e' he' => hall e' (List.mem_of_mem_erase he')
      · intro hall e' he'
        by_cases heq : e' = e
        · subst heq
          exact Ne.symm hie
        · exact hall e' ((List.mem_erase_of_ne heq).mpr he')

end PoolView

/-- A bit set in the AND of the members' bitmasks is set on every member. -/
theorem testBit_of_bandAll {P T : Type} {s : P → PoolView T} {members : List P} (hne : members ≠ [])
    {i : Nat} (hbit : testBit (bandAll (members.map fun r => (s r).poolBitmask)) i = true)
    {q : P} (hq : q ∈ members) : testBit (s q).poolBitmask i = true := by
  obtain ⟨m, ms, rfl⟩ := List.exists_cons_of_ne_nil hne
  rw [List.map_cons, testBit_bandAll, List.all_eq_true] at hbit
  exact hbit _ (List.mem_map_of_mem (f := fun r => (s r).poolBitmask) hq)

section Invariant

variable {P T : Type} [DecidableEq P]

/-- The invariant of a whole state: every PE's own, and agreement between
    PEs on the index of every team handle. -/
structure PoolInv (maxNumTeams : Nat) (s : P → PoolView T) : Prop where
  view : ∀ q, (s q).Inv maxNumTeams
  agree : ∀ q q' (e e' : T × Nat), e ∈ (s q).teams → e' ∈ (s q').teams → e.1 = e'.1 → e.2 = e'.2

/-- The creation step: all members obtain the lowest bit of the AND, the same
    for each, and each keeps its invariant. -/
theorem create_inv {maxNumTeams : Nat} {s : P → PoolView T} (h : PoolInv maxNumTeams s)
    (members : List P) (id : T) (results : P → Nat × List UInt8) (hne : members ≠ [])
    (hfresh : ∀ q, ∀ e ∈ (s q).teams, e.1 ≠ id)
    (hres : ∀ q ∈ members, createNewTeam maxNumTeams
      (bandAll (members.map fun r => (s r).poolBitmask)) (s q).poolBitmask = some (results q)) :
    PoolInv maxNumTeams (createStep s members id results) := by
  -- Every member's index is the lowest set bit of the same reduced mask.
  have hlow : ∀ q ∈ members, lowestSet (bandAll (members.map fun r => (s r).poolBitmask))
      maxNumTeams = some (results q).1 ∧ (results q).2 = clearBit (s q).poolBitmask (results q).1 :=
    fun q hq => createNewTeam_eq_some (hres q hq)
  have hsame : ∀ q ∈ members, ∀ q' ∈ members, (results q).1 = (results q').1 := by
    intro q hq q' hq'
    exact Option.some.inj ((hlow q hq).1.symm.trans (hlow q' hq').1)
  refine ⟨?_, ?_⟩
  · intro q
    unfold createStep
    split
    · rename_i hq
      obtain ⟨hidx, hmask⟩ := hlow q hq
      obtain ⟨hlt, hbit, -⟩ := lowestSet_eq_some hidx
      rw [hmask]
      exact (h.view q).take (testBit_of_bandAll hne hbit hq) hlt id
    · exact h.view q
  · intro q q' e e' he he' hid
    unfold createStep at he he'
    -- A new entry carries the fresh handle; an old one never does.
    split at he <;> split at he'
    · rename_i hq hq'
      rcases List.mem_cons.mp he with rfl | he <;> rcases List.mem_cons.mp he' with rfl | he'
      · exact hsame q hq q' hq'
      · exact absurd hid.symm (hfresh q' e' he')
      · exact absurd hid (hfresh q e he)
      · exact h.agree q q' e e' he he' hid
    · rcases List.mem_cons.mp he with rfl | he
      · exact absurd hid.symm (hfresh q' e' he')
      · exact h.agree q q' e e' he he' hid
    · rcases List.mem_cons.mp he' with rfl | he'
      · exact absurd hid (hfresh q e he)
      · exact h.agree q q' e e' he he' hid
    · exact h.agree q q' e e' he he' hid

end Invariant

section Reachable

variable {P T : Type} [DecidableEq P] [DecidableEq T]

/-- The destruction step: the PE releases the slot; the others do nothing. -/
theorem destroy_inv {maxNumTeams : Nat} {s : P → PoolView T} (h : PoolInv maxNumTeams s)
    (q : P) (e : T × Nat) (he : e ∈ (s q).teams) :
    PoolInv maxNumTeams (destroyStep s q e) := by
  -- A team held after the step was held before it.
  have hold : ∀ r, ∀ e' ∈ (destroyStep s q e r).teams, e' ∈ (s r).teams := by
    intro r e' he'
    unfold destroyStep at he'
    split at he'
    · rename_i hr
      subst hr
      exact List.mem_of_mem_erase he'
    · exact he'
  refine ⟨?_, fun r r' e₁ e₂ h₁ h₂ hid => h.agree r r' e₁ e₂ (hold r e₁ h₁) (hold r' e₂ h₂) hid⟩
  intro r
  unfold destroyStep
  split
  · rename_i hr
    subst hr
    exact (h.view r).release he
  · exact h.view r

/-- The run lemma: every reachable state satisfies the invariant. -/
theorem poolReachable_inv {maxNumTeams : Nat} {s : P → PoolView T}
    (h : PoolReachable maxNumTeams s) : PoolInv maxNumTeams s := by
  induction h with
  | init =>
      exact ⟨fun _ => PoolView.init_inv maxNumTeams,
        fun _ _ e _ he => absurd he List.not_mem_nil⟩
  | create members id results _ hne hfresh hres ih =>
      exact create_inv ih members id results hne hfresh hres
  | destroy q e _ he ih =>
      exact destroy_inv ih q e he

/-- Team pool indices agree and never alias. Over any sequence of collective
    creations and per-PE destructions: two PEs holding the same team hold it
    with the same index; no user team has index `0`, `TEAM_WORLD`'s; no PE
    holds two teams with the same index; and on every PE, bit `i` of
    `pool_bitmask_`, for `1 ≤ i < max_num_teams`, is set exactly when no
    team the PE holds has index `i`. -/
theorem team_pool_indices_agree (maxNumTeams : Nat) (s : P → PoolView T)
    (h : PoolReachable maxNumTeams s) :
    (∀ q q' (e e' : T × Nat), e ∈ (s q).teams → e' ∈ (s q').teams → e.1 = e'.1 → e.2 = e'.2) ∧
      (∀ q, ∀ e ∈ (s q).teams, e.2 ≠ 0) ∧
      (∀ q (e e' : T × Nat), e ∈ (s q).teams → e' ∈ (s q).teams → e.2 = e'.2 → e = e') ∧
      (∀ q i, 1 ≤ i → i < maxNumTeams →
        (testBit (s q).poolBitmask i = true ↔ ∀ e ∈ (s q).teams, e.2 ≠ i)) := by
  have hinv := poolReachable_inv h
  refine ⟨hinv.agree, ?_, ?_, fun q => (hinv.view q).free_iff⟩
  · intro q e he
    have := ((hinv.view q).index_range e he).1
    omega
  · intro q e e' he he' heq
    -- Distinct indices: the index determines the entry.
    exact List.inj_on_of_nodup_map (hinv.view q).index_nodup he he' heq

/-- PEs `0` and `1` of a run with 40 pool slots split off team `7`, which
    gets slot `1` on both. -/
theorem team_pool_indices_agree_after_one_split :
    ∃ s : Nat → PoolView Nat, PoolReachable 40 s ∧ (s 0).teams = [(7, 1)] ∧
      (s 1).teams = [(7, 1)] ∧
      ((∀ q q' (e e' : Nat × Nat), e ∈ (s q).teams → e' ∈ (s q').teams → e.1 = e'.1 → e.2 = e'.2) ∧
        (∀ q, ∀ e ∈ (s q).teams, e.2 ≠ 0) ∧
        (∀ q (e e' : Nat × Nat), e ∈ (s q).teams → e' ∈ (s q).teams → e.2 = e'.2 → e = e') ∧
        (∀ q i, 1 ≤ i → i < 40 →
          (testBit (s q).poolBitmask i = true ↔ ∀ e ∈ (s q).teams, e.2 ≠ i))) := by
  have hreach : PoolReachable 40 (createStep (fun _ => ⟨teamsInitBitmask 40, []⟩) [0, 1] 7
      fun _ => (1, clearBit (teamsInitBitmask 40) 1)) :=
    PoolReachable.create [0, 1] 7 _ PoolReachable.init (List.cons_ne_nil _ _)
      (fun _ e he => absurd he List.not_mem_nil) (fun _ _ => rfl)
  exact ⟨_, hreach, rfl, rfl, team_pool_indices_agree 40 _ hreach⟩

end Reachable

end RocShmem
