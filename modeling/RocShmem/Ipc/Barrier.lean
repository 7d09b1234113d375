import RocShmem.Ipc.Context
import RocShmem.Lib.Signal

/-!
# The IPC Barriers

`internal_direct_barrier` and `internal_atomic_barrier`
(`ipc/context_ipc_device_coll.cpp`) synchronise the PEs
`PE_start + stride * i`, `i < n_pes`, through a sync array `pSync`, with
the first of them as leader. In the direct barrier every other member
stores `1` into its own slot `pSync[i]` on the leader; the leader waits for
each slot in turn and clears it, then stores `1` into `pSync[0]` on every
member, who waits for it and clears it. In the atomic barrier, used from 64
members on, the members add `1` to `pSync[0]` on the leader instead, and the
leader waits for the count `n_pes - 1`. `internal_sync` picks one of the two.

`IPCContext::sync(team)` and `sync_all` pass the context's `barrier_sync`,
one array per PE for every team, not the team's own `barrier_pSync`. Two
teams with the same leader then share the leader's slots: a member of one
team can satisfy the leader's wait in the other team's barrier.
`sync_overlapping_teams_early_return` runs that interleaving.

On a team's own array, and with nobody else writing it, one barrier is safe:
every slot has one setter and is cleared by its owner after waiting for it,
and the atomic barrier's counter has one adder per member, so the rules of
`Pgas.Signal` and `Pgas.Count` apply, and a member that has returned knows
that every member has entered (`SyncsAfter.members_entered`).

## Main definitions

* `internalDirectBarrier`, `internalAtomicBarrier`, `internalSync`: The
  barrier of one PE, as instructions.
* `IPCContext.sync`, `IPCContext.syncAll`: The barriers of the API.
* `initConfig`: Every PE at the start, every flag at `ROCSHMEM_SYNC_VALUE`.
* `SyncsAfter`: The programs of a team that runs one barrier on its own
  array after some code of its own.

## Theorems

* `sync_overlapping_teams_early_return`: With two teams that share a leader,
  the leader returns from a barrier before a member of its team enters it.
* `internalDirectBarrier_flagTarget`, `internalAtomicBarrier_flagTarget`:
  Every flag a barrier writes.
* `SyncsAfter.markSignal`, `SyncsAfter.directReleaseSignal`,
  `SyncsAfter.counterCount`, `SyncsAfter.atomicReleaseSignal`: The flags of
  the two barriers are signals and a count.
* `SyncsAfter.members_entered`: No member returns before every member has
  entered.
-/

namespace RocShmem

variable {α : Type}

/-- `internal_direct_barrier` on world PE `pe`: as leader, wait for and clear
    every member's slot, then release every member; otherwise, mark the own
    slot on the leader, wait for the release and clear it. -/
def internalDirectBarrier (pe peStart stride nPes : Nat) (pSync : SyncArray) : List (IpcInstr α) :=
  if pe = peStart then
    ((List.range' 1 (nPes - 1)).flatMap fun i =>
        [.waitFlag (pSync, i) 1, .putFlag pe (pSync, i) syncValue]) ++
      (List.range' 1 (nPes - 1)).map fun i => .putFlag (peStart + stride * i) (pSync, 0) 1
  else
    [.putFlag peStart (pSync, (pe - peStart) / stride) 1, .waitFlag (pSync, 0) 1,
      .putFlag pe (pSync, 0) syncValue]

/-- `internal_atomic_barrier` on world PE `pe`: the members count themselves
    into `pSync[0]` on the leader, which waits for `n_pes - 1` of them. -/
def internalAtomicBarrier (pe peStart stride nPes : Nat) (pSync : SyncArray) : List (IpcInstr α) :=
  if pe = peStart then
    [.waitFlag (pSync, 0) ((nPes : Int) - 1), .putFlag pe (pSync, 0) syncValue] ++
      (List.range' 1 (nPes - 1)).map fun i => .putFlag (peStart + stride * i) (pSync, 0) 1
  else
    [.addFlag peStart (pSync, 0) 1, .waitFlag (pSync, 0) 1, .putFlag pe (pSync, 0) syncValue]

/-- `internal_sync`: the direct barrier below 64 members, the atomic one from
    64 on. -/
def internalSync (pe peStart stride peSize : Nat) (pSync : SyncArray) : List (IpcInstr α) :=
  if peSize < 64 then internalDirectBarrier pe peStart stride peSize pSync
  else internalAtomicBarrier pe peStart stride peSize pSync

namespace IPCContext

/-- `IPCContext::sync(team)`: the team's members, but the context's
    `barrier_sync`. -/
def sync (team : IPCTeam) : List (IpcInstr α) :=
  internalSync team.myPeInWorld team.peStart team.stride team.size .barrierSync

/-- `IPCContext::sync_all`: the whole world, on `barrier_sync`. -/
def syncAll (ctx : IPCContext) : List (IpcInstr α) :=
  internalSync ctx.myPe 0 1 ctx.numPes .barrierSync

end IPCContext

/-- Every PE at the start of its program, the data as given, and every sync
    cell at `ROCSHMEM_SYNC_VALUE`, as `teams_init` and the backend leave
    them. -/
def initConfig (data : Nat → DataAddr → α) : Pgas.Config DataAddr FlagAddr α :=
  ⟨fun _ => 0, ⟨data, fun _ _ => syncValue⟩⟩

/-- Three PEs and two teams with leader PE 0: PE 0 syncs on `{0, 1}` and then
    on `{0, 2}`, PE 1 syncs on `{0, 1}`, PE 2 on `{0, 2}`. The teams are
    those the splits of `sync_overlapping_teams_early_return` hand out, with
    pool indices `1` and `2`. -/
def overlappingSyncs (α : Type) : Pgas.Prog DataAddr FlagAddr α := fun p =>
  if p = 0 then
    IPCContext.sync (IPCTeam.ofTeam ⟨⟨0, 1, 2⟩, 2, 0⟩ 0 1) ++
      IPCContext.sync (IPCTeam.ofTeam ⟨⟨0, 2, 2⟩, 2, 0⟩ 0 2)
  else if p = 1 then IPCContext.sync (IPCTeam.ofTeam ⟨⟨0, 1, 2⟩, 2, 1⟩ 1 1)
  else if p = 2 then IPCContext.sync (IPCTeam.ofTeam ⟨⟨0, 2, 2⟩, 2, 1⟩ 2 2)
  else []

/-- Two teams split from a world of three PEs, `{0, 1}` and `{0, 2}`, share
    their leader. If PE 2 enters its barrier on `{0, 2}` first, its mark in
    `barrier_sync[1]` on PE 0 satisfies PE 0's wait in the barrier on
    `{0, 1}`: PE 0 returns from that barrier while PE 1, a member, has not
    entered it. -/
theorem sync_overlapping_teams_early_return :
    teamSplitStrided 3 0 0 40 (some (teamWorld 3 0)) 0 1 2 = some (0, some ⟨⟨0, 1, 2⟩, 2, 0⟩) ∧
      teamSplitStrided 3 1 0 40 (some (teamWorld 3 1)) 0 1 2 = some (0, some ⟨⟨0, 1, 2⟩, 2, 1⟩) ∧
      teamSplitStrided 3 0 1 40 (some (teamWorld 3 0)) 0 2 2 = some (0, some ⟨⟨0, 2, 2⟩, 2, 0⟩) ∧
      teamSplitStrided 3 2 0 40 (some (teamWorld 3 2)) 0 2 2 = some (0, some ⟨⟨0, 2, 2⟩, 2, 1⟩) ∧
      ∃ c, Pgas.Reachable (overlappingSyncs Int) (initConfig fun _ _ => 0) c ∧
        (IPCContext.sync (α := Int) (IPCTeam.ofTeam ⟨⟨0, 1, 2⟩, 2, 0⟩ 0 1)).length ≤ c.pc 0 ∧
        c.pc 1 = 0 := by
  refine ⟨by decide, by decide, by decide, by decide, ?_⟩
  -- PE 2 marks its slot, then PE 0 runs its whole first barrier.
  have hsome : (Pgas.run (overlappingSyncs Int) (initConfig fun _ _ => 0) [2, 0, 0, 0]).isSome := by
    decide
  obtain ⟨c, hc⟩ := Option.isSome_iff_exists.mp hsome
  have hpc : (Pgas.run (overlappingSyncs Int) (initConfig fun _ _ => 0) [2, 0, 0, 0]).map
      (fun c => (c.pc 0, c.pc 1)) = some (3, 0) := by
    decide
  rw [hc, Option.map_some, Option.some.injEq, Prod.mk.injEq] at hpc
  refine ⟨c, Pgas.reachable_of_run hc, ?_, hpc.2⟩
  rw [hpc.1]
  decide


theorem getElem?_internalDirectBarrier_leader (peStart stride nPes n : Nat) (pSync : SyncArray) :
    (internalDirectBarrier (α := α) peStart peStart stride nPes pSync)[n]? =
      if n < 2 * (nPes - 1) then
        some (if n % 2 = 0 then .waitFlag (pSync, n / 2 + 1) 1
          else .putFlag peStart (pSync, n / 2 + 1) syncValue)
      else if n < 3 * (nPes - 1) then
        some (.putFlag (peStart + stride * (n - 2 * (nPes - 1) + 1)) (pSync, 0) 1)
      else none := by
  have hlen : ((List.range' 1 (nPes - 1)).flatMap fun i =>
      [(.waitFlag (pSync, i) 1 : IpcInstr α), .putFlag peStart (pSync, i) syncValue]).length =
        2 * (nPes - 1) := by
    rw [Pgas.length_flatMap_of_length (n := 2) fun _ _ => rfl, List.length_range']
  rw [internalDirectBarrier, if_pos rfl]
  by_cases h1 : n < 2 * (nPes - 1)
  · -- The waits and resets, two instructions for each member after the leader.
    rw [List.getElem?_append_left (by omega), Pgas.getElem?_flatMap_of_length (n := 2) (by decide)
      (fun _ _ => rfl), List.getElem?_range' (by omega), if_pos h1, Option.bind_some]
    rcases Nat.mod_two_eq_zero_or_one n with h | h
    · simp [h, Nat.add_comm]
    · simp [h, Nat.add_comm]
  · -- The announcements, one for each member after the leader.
    rw [List.getElem?_append_right (by omega), hlen, List.getElem?_map, if_neg h1]
    by_cases h2 : n < 3 * (nPes - 1)
    · rw [List.getElem?_range' (by omega), if_pos h2, Option.map_some]
      simp [Nat.add_comm]
    · rw [List.getElem?_eq_none (by rw [List.length_range']; omega), if_neg h2, Option.map_none]

theorem getElem?_internalAtomicBarrier_leader (peStart stride nPes n : Nat) (pSync : SyncArray) :
    (internalAtomicBarrier (α := α) peStart peStart stride nPes pSync)[n]? =
      if n = 0 then some (.waitFlag (pSync, 0) ((nPes : Int) - 1))
      else if n = 1 then some (.putFlag peStart (pSync, 0) syncValue)
      else if n < nPes + 1 then some (.putFlag (peStart + stride * (n - 1)) (pSync, 0) 1)
      else none := by
  rw [internalAtomicBarrier, if_pos rfl]
  match n with
  | 0 => rfl
  | 1 => rfl
  | n + 2 =>
      -- The announcements follow the wait and the reset.
      rw [List.cons_append, List.cons_append, List.getElem?_cons_succ, List.getElem?_cons_succ,
        List.nil_append, List.getElem?_map, if_neg (by omega), if_neg (by omega)]
      by_cases h : n + 2 < nPes + 1
      · rw [List.getElem?_range' (by omega), if_pos h, Option.map_some]
        rw [show n + 2 - 1 = 1 + 1 * n by omega]
      · rw [List.getElem?_eq_none (by rw [List.length_range']; omega), if_neg h, Option.map_none]

/-- Every flag the direct barrier of team rank `j` writes: as leader, it
    resets slot `x` and releases member `k`; otherwise it marks its own slot
    on the leader and resets its own release flag. -/
theorem internalDirectBarrier_flagTarget {peStart stride nPes j n q : Nat} {pSync : SyncArray}
    {y : FlagAddr} {i : IpcInstr α} (hstride : 0 < stride)
    (hi : (internalDirectBarrier (α := α) (peStart + stride * j) peStart stride nPes pSync)[n]? =
      some i)
    (hy : i.flagTarget = some (q, y)) :
    y.1 = pSync ∧
      (j = 0 ∧ q = peStart ∧ 1 ≤ y.2 ∧ y.2 < nPes ∧ n = 2 * (y.2 - 1) + 1 ∨
        j = 0 ∧ y.2 = 0 ∧ (∃ k, 1 ≤ k ∧ k < nPes ∧ q = peStart + stride * k ∧
          n = 2 * (nPes - 1) + (k - 1)) ∨
        j ≠ 0 ∧ q = peStart ∧ y.2 = j ∧ n = 0 ∨
        j ≠ 0 ∧ q = peStart + stride * j ∧ y.2 = 0 ∧ n = 2) := by
  by_cases hj : j = 0
  · subst hj
    rw [Nat.mul_zero, Nat.add_zero, getElem?_internalDirectBarrier_leader] at hi
    split_ifs at hi with h1 h2 h3
    · rw [Option.some.injEq] at hi
      subst hi
      exact absurd hy (by simp [Pgas.Instr.flagTarget])
    · -- A reset of slot `n / 2 + 1`.
      rw [Option.some.injEq] at hi
      subst hi
      obtain ⟨rfl, rfl⟩ := Pgas.Instr.eq_of_flagTarget_putFlag hy
      refine ⟨rfl, Or.inl ⟨rfl, rfl, ?_, ?_, ?_⟩⟩ <;> omega
    · -- A release of member `n - 2 (nPes - 1) + 1`.
      rw [Option.some.injEq] at hi
      subst hi
      obtain ⟨rfl, rfl⟩ := Pgas.Instr.eq_of_flagTarget_putFlag hy
      refine ⟨rfl, Or.inr (Or.inl ⟨rfl, rfl, n - 2 * (nPes - 1) + 1, ?_, ?_, rfl, ?_⟩)⟩ <;> omega
  · have hne : peStart + stride * j ≠ peStart := rank_ne_start hstride hj
    have hslot : (peStart + stride * j - peStart) / stride = j := slot_of_rank hstride j
    rw [internalDirectBarrier, if_neg hne, hslot] at hi
    -- one case per instruction of the member's three
    rcases n with _ | _ | _ | n
    · rw [List.getElem?_cons_zero, Option.some.injEq] at hi
      subst hi
      obtain ⟨rfl, rfl⟩ := Pgas.Instr.eq_of_flagTarget_putFlag hy
      exact ⟨rfl, Or.inr (Or.inr (Or.inl ⟨hj, rfl, rfl, rfl⟩))⟩
    · simp only [List.getElem?_cons_succ, List.getElem?_cons_zero, Option.some.injEq] at hi
      subst hi
      exact absurd hy (by simp [Pgas.Instr.flagTarget])
    · simp only [List.getElem?_cons_succ, List.getElem?_cons_zero, Option.some.injEq] at hi
      subst hi
      obtain ⟨rfl, rfl⟩ := Pgas.Instr.eq_of_flagTarget_putFlag hy
      exact ⟨rfl, Or.inr (Or.inr (Or.inr ⟨hj, rfl, rfl, rfl⟩))⟩
    · simp at hi

/-- Every flag the atomic barrier of team rank `j` writes: the leader resets
    the counter and releases each member; any other member adds itself to
    the counter and resets its own release flag. -/
theorem internalAtomicBarrier_flagTarget {peStart stride nPes j n q : Nat} {pSync : SyncArray}
    {y : FlagAddr} {i : IpcInstr α} (hstride : 0 < stride)
    (hi : (internalAtomicBarrier (α := α) (peStart + stride * j) peStart stride nPes pSync)[n]? =
      some i)
    (hy : i.flagTarget = some (q, y)) :
    y = (pSync, 0) ∧
      (j = 0 ∧ q = peStart ∧ n = 1 ∨
        j = 0 ∧ (∃ k, 1 ≤ k ∧ k < nPes ∧ q = peStart + stride * k ∧ n = k + 1) ∨
        j ≠ 0 ∧ q = peStart ∧ n = 0 ∨
        j ≠ 0 ∧ q = peStart + stride * j ∧ n = 2) := by
  by_cases hj : j = 0
  · subst hj
    rw [Nat.mul_zero, Nat.add_zero, getElem?_internalAtomicBarrier_leader] at hi
    split_ifs at hi with h0 h1 h2
    · rw [Option.some.injEq] at hi
      subst hi
      exact absurd hy (by simp [Pgas.Instr.flagTarget])
    · -- The reset of the counter.
      rw [Option.some.injEq] at hi
      subst hi
      obtain ⟨rfl, rfl⟩ := Pgas.Instr.eq_of_flagTarget_putFlag hy
      exact ⟨rfl, Or.inl ⟨rfl, rfl, h1⟩⟩
    · -- A release of member `n - 1`.
      rw [Option.some.injEq] at hi
      subst hi
      obtain ⟨rfl, rfl⟩ := Pgas.Instr.eq_of_flagTarget_putFlag hy
      refine ⟨rfl, Or.inr (Or.inl ⟨rfl, n - 1, ?_, ?_, rfl, ?_⟩)⟩ <;> omega
  · have hne : peStart + stride * j ≠ peStart := rank_ne_start hstride hj
    rw [internalAtomicBarrier, if_neg hne] at hi
    -- one case per instruction of the member's three
    rcases n with _ | _ | _ | n
    · rw [List.getElem?_cons_zero, Option.some.injEq] at hi
      subst hi
      obtain ⟨rfl, rfl⟩ := Pgas.Instr.eq_of_flagTarget_addFlag hy
      exact ⟨rfl, Or.inr (Or.inr (Or.inl ⟨hj, rfl, rfl⟩))⟩
    · simp only [List.getElem?_cons_succ, List.getElem?_cons_zero, Option.some.injEq] at hi
      subst hi
      exact absurd hy (by simp [Pgas.Instr.flagTarget])
    · simp only [List.getElem?_cons_succ, List.getElem?_cons_zero, Option.some.injEq] at hi
      subst hi
      obtain ⟨rfl, rfl⟩ := Pgas.Instr.eq_of_flagTarget_putFlag hy
      exact ⟨rfl, Or.inr (Or.inr (Or.inr ⟨hj, rfl, rfl⟩))⟩
    · simp at hi

section Safety

/-- A team's programs around one barrier on `pSync`: the member of team
    rank `j`, world rank `peStart + stride * j`, runs code `pre j` that
    writes no flag of `pSync` and then `internal_sync` on `pSync`, and no
    other PE writes a flag of `pSync`. -/
structure SyncsAfter (prog : Pgas.Prog DataAddr FlagAddr α) (peStart stride size : Nat)
    (pSync : SyncArray) (pre : Nat → List (IpcInstr α)) : Prop where
  member : ∀ j < size, prog (peStart + stride * j) =
    pre j ++ internalSync (peStart + stride * j) peStart stride size pSync
  pre_free : ∀ j < size, ∀ i ∈ pre j, ∀ q x, i.flagTarget ≠ some (q, (pSync, x))
  outsider : ∀ p, (∀ j < size, p ≠ peStart + stride * j) →
    ∀ i ∈ prog p, ∀ q x, i.flagTarget ≠ some (q, (pSync, x))

variable {prog : Pgas.Prog DataAddr FlagAddr α} {peStart stride size : Nat} {pSync : SyncArray}
  {pre : Nat → List (IpcInstr α)}

theorem SyncsAfter.getElem?_sync (hs : SyncsAfter prog peStart stride size pSync pre) {j : Nat}
    (hj : j < size) (n : Nat) :
    (prog (peStart + stride * j))[(pre j).length + n]? =
      (internalSync (α := α) (peStart + stride * j) peStart stride size pSync)[n]? := by
  rw [hs.member j hj, List.getElem?_append_right (by omega), Nat.add_sub_cancel_left]

/-- Every write of a flag of `pSync` is one of a member's barrier. -/
theorem SyncsAfter.flagWrite (hs : SyncsAfter prog peStart stride size pSync pre) {p n q x : Nat}
    {i : IpcInstr α} (hi : (prog p)[n]? = some i) (hx : i.flagTarget = some (q, (pSync, x))) :
    ∃ j < size, p = peStart + stride * j ∧ (pre j).length ≤ n ∧
      (internalSync (α := α) (peStart + stride * j) peStart stride size
        pSync)[n - (pre j).length]? = some i := by
  by_cases hmem : ∃ j < size, p = peStart + stride * j
  · obtain ⟨j, hj, rfl⟩ := hmem
    rw [hs.member j hj] at hi
    by_cases hn : n < (pre j).length
    · -- Not in the code before the barrier: it writes no flag of `pSync`.
      rw [List.getElem?_append_left hn] at hi
      exact absurd hx (hs.pre_free j hj i (List.mem_of_getElem? hi) q x)
    · rw [List.getElem?_append_right (by omega)] at hi
      exact ⟨j, hj, rfl, by omega, hi⟩
  · have hout : ∀ j < size, p ≠ peStart + stride * j := fun j hj hp => hmem ⟨j, hj, hp⟩
    exact absurd hx (hs.outsider p hout i (List.mem_of_getElem? hi) q x)

theorem SyncsAfter.getElem?_sync_leader (hs : SyncsAfter prog peStart stride size pSync pre)
    (hsize : 0 < size) (n : Nat) :
    (prog peStart)[(pre 0).length + n]? =
      (internalSync (α := α) peStart peStart stride size pSync)[n]? := by
  have h0 := hs.getElem?_sync hsize n
  rw [Nat.mul_zero, Nat.add_zero] at h0
  exact h0

theorem length_internalDirectBarrier (pe peStart stride nPes : Nat) (pSync : SyncArray) :
    (internalDirectBarrier (α := α) pe peStart stride nPes pSync).length =
      if pe = peStart then 3 * (nPes - 1) else 3 := by
  rw [internalDirectBarrier]
  split
  · rw [List.length_append, Pgas.length_flatMap_of_length (n := 2) fun _ _ => rfl, List.length_map,
      List.length_range']
    omega
  · rfl

theorem length_internalAtomicBarrier (pe peStart stride nPes : Nat) (pSync : SyncArray) :
    (internalAtomicBarrier (α := α) pe peStart stride nPes pSync).length =
      if pe = peStart then 2 + (nPes - 1) else 3 := by
  rw [internalAtomicBarrier]
  split
  · rw [List.length_append, List.length_map, List.length_range']
    simp only [List.length_cons, List.length_nil]
  · rfl

section Direct

/-- In the direct barrier, member `i`'s mark in its slot on the leader is a
    signal to the leader's wait for that slot. -/
theorem SyncsAfter.markSignal (hs : SyncsAfter prog peStart stride size pSync pre)
    (hstride : 0 < stride) (hsmall : size < 64) {i : Nat} (hi1 : 1 ≤ i) (hi : i < size) :
    Pgas.Signal prog peStart (pSync, i) 1 (peStart + stride * i) (pre i).length
      ((pre 0).length + 2 * (i - 1)) ((pre 0).length + 2 * (i - 1) + 1) where
  set := by
    have hne : peStart + stride * i ≠ peStart := rank_ne_start hstride (by omega)
    have hslot : (peStart + stride * i - peStart) / stride = i := slot_of_rank hstride i
    rw [← Nat.add_zero (pre i).length, hs.getElem?_sync hi, internalSync, if_pos hsmall,
      internalDirectBarrier, if_neg hne, hslot]
    rfl
  wait := by
    rw [hs.getElem?_sync_leader (by omega), internalSync, if_pos hsmall,
      getElem?_internalDirectBarrier_leader, if_pos (by omega), if_pos (by omega),
      show 2 * (i - 1) / 2 + 1 = i by omega]
  clear := by
    rw [Nat.add_assoc, hs.getElem?_sync_leader (by omega), internalSync, if_pos hsmall,
      getElem?_internalDirectBarrier_leader, if_pos (by omega), if_neg (by omega),
      show (2 * (i - 1) + 1) / 2 + 1 = i by omega]
    rfl
  wait_lt_clear := by omega
  value_ne := by decide
  setter_ne := rank_ne_start hstride (by omega)
  writers := by
    intro p n instr hp hx
    obtain ⟨k, hk, rfl, hle, hsync⟩ := hs.flagWrite hp hx
    rw [internalSync, if_pos hsmall] at hsync
    obtain ⟨-, hcase⟩ := internalDirectBarrier_flagTarget hstride hsync hx
    rcases hcase with ⟨rfl, -, -, -, hn⟩ | ⟨-, h0, -⟩ | ⟨-, -, hki, hn⟩ | ⟨hk0, hq, -, -⟩
    · -- The leader's reset of slot `i`.
      exact Or.inr ⟨by rw [Nat.mul_zero, Nat.add_zero], by omega⟩
    · exact absurd h0 (by omega)
    · -- The mark of member `i` itself.
      have hki : k = i := hki.symm
      subst hki
      exact Or.inl ⟨rfl, by omega⟩
    · exact absurd ((rank_eq_start_iff hstride).mp hq.symm) hk0

/-- In the direct barrier, the leader's release of member `j` is a signal to
    that member's wait. -/
theorem SyncsAfter.directReleaseSignal (hs : SyncsAfter prog peStart stride size pSync pre)
    (hstride : 0 < stride) (hsmall : size < 64) {j : Nat} (hj1 : 1 ≤ j) (hj : j < size) :
    Pgas.Signal prog (peStart + stride * j) (pSync, 0) 1 peStart
      ((pre 0).length + (2 * (size - 1) + (j - 1))) ((pre j).length + 1) ((pre j).length + 2) where
  set := by
    rw [hs.getElem?_sync_leader (by omega), internalSync, if_pos hsmall,
      getElem?_internalDirectBarrier_leader, if_neg (by omega), if_pos (by omega),
      show 2 * (size - 1) + (j - 1) - 2 * (size - 1) + 1 = j by omega]
  wait := by
    have hne : peStart + stride * j ≠ peStart := rank_ne_start hstride (by omega)
    rw [hs.getElem?_sync hj, internalSync, if_pos hsmall, internalDirectBarrier, if_neg hne]
    rfl
  clear := by
    have hne : peStart + stride * j ≠ peStart := rank_ne_start hstride (by omega)
    rw [hs.getElem?_sync hj, internalSync, if_pos hsmall, internalDirectBarrier, if_neg hne]
    rfl
  wait_lt_clear := by omega
  value_ne := by decide
  setter_ne := fun h => rank_ne_start hstride (by omega) h.symm
  writers := by
    intro p n instr hp hx
    obtain ⟨k, hk, rfl, hle, hsync⟩ := hs.flagWrite hp hx
    rw [internalSync, if_pos hsmall] at hsync
    obtain ⟨-, hcase⟩ := internalDirectBarrier_flagTarget hstride hsync hx
    rcases hcase with ⟨-, hq, -⟩ | ⟨rfl, -, k', -, -, hq, hn⟩ | ⟨-, hq, -⟩ | ⟨-, hq, -, hn⟩
    · exact absurd hq (rank_ne_start hstride (by omega))
    · -- The leader's release of member `j`.
      have hk' : k' = j := ((rank_inj hstride).mp hq).symm
      subst hk'
      exact Or.inl ⟨by rw [Nat.mul_zero, Nat.add_zero], by omega⟩
    · exact absurd hq (rank_ne_start hstride (by omega))
    · -- Member `j`'s own reset.
      have hkj : k = j := ((rank_inj hstride).mp hq).symm
      subst hkj
      exact Or.inr ⟨rfl, by omega⟩

end Direct

section Atomic

/-- The members after the leader, with where each adds itself to the
    counter. -/
def atomicAdders (peStart stride size : Nat) (pre : Nat → List (IpcInstr α)) : List (Nat × Nat) :=
  (List.range' 1 (size - 1)).map fun k => (peStart + stride * k, (pre k).length)

/-- In the atomic barrier, the members' additions to `pSync[0]` on the
    leader are a count for the leader's wait. -/
theorem SyncsAfter.counterCount (hs : SyncsAfter prog peStart stride size pSync pre)
    (hstride : 0 < stride) (hlarge : ¬ size < 64) :
    Pgas.Count prog peStart (pSync, 0) (atomicAdders peStart stride size pre) (pre 0).length
      ((pre 0).length + 1) where
  add := by
    intro w hw
    obtain ⟨k, hk, rfl⟩ := List.mem_map.mp hw
    obtain ⟨hk1, hk⟩ : 1 ≤ k ∧ k < size := by
      rw [List.mem_range'_1] at hk
      omega
    have hne : peStart + stride * k ≠ peStart := rank_ne_start hstride (by omega)
    rw [← Nat.add_zero (pre k).length, hs.getElem?_sync hk, internalSync, if_neg hlarge,
      internalAtomicBarrier, if_neg hne]
    rfl
  nodup := by
    refine List.Pairwise.map _ (fun a b hab heq => hab ?_) List.nodup_range'
    exact (rank_inj hstride).mp (Prod.mk.inj heq).1
  adder_ne := by
    intro w hw
    obtain ⟨k, hk, rfl⟩ := List.mem_map.mp hw
    rw [List.mem_range'_1] at hk
    exact rank_ne_start hstride (by omega)
  wait := by
    have hlen : ((atomicAdders peStart stride size pre).length : Int) = (size : Int) - 1 := by
      rw [atomicAdders, List.length_map, List.length_range']
      omega
    rw [hlen, ← Nat.add_zero (pre 0).length, hs.getElem?_sync_leader (by omega), internalSync,
      if_neg hlarge, getElem?_internalAtomicBarrier_leader, if_pos rfl]
  clear := by
    rw [hs.getElem?_sync_leader (by omega), internalSync, if_neg hlarge,
      getElem?_internalAtomicBarrier_leader]
    rfl
  wait_lt_clear := by omega
  writers := by
    intro p n instr hp hx
    obtain ⟨k, hk, rfl, hle, hsync⟩ := hs.flagWrite hp hx
    rw [internalSync, if_neg hlarge] at hsync
    obtain ⟨-, hcase⟩ := internalAtomicBarrier_flagTarget hstride hsync hx
    rcases hcase with ⟨rfl, -, hn⟩ | ⟨-, k', hk1, -, hq, -⟩ | ⟨hk0, -, hn⟩ | ⟨hk0, hq, -⟩
    · -- The leader's reset of the counter.
      exact Or.inr ⟨by rw [Nat.mul_zero, Nat.add_zero], by omega⟩
    · exact absurd hq.symm (rank_ne_start hstride (by omega))
    · -- A member's addition.
      refine Or.inl (List.mem_map.mpr ⟨k, ?_, ?_⟩)
      · rw [List.mem_range'_1]
        omega
      · rw [show n = (pre k).length by omega]
    · exact absurd ((rank_eq_start_iff hstride).mp hq.symm) hk0

/-- In the atomic barrier, the leader's release of member `j` is a signal
    to that member's wait. -/
theorem SyncsAfter.atomicReleaseSignal (hs : SyncsAfter prog peStart stride size pSync pre)
    (hstride : 0 < stride) (hlarge : ¬ size < 64) {j : Nat} (hj1 : 1 ≤ j) (hj : j < size) :
    Pgas.Signal prog (peStart + stride * j) (pSync, 0) 1 peStart ((pre 0).length + (j + 1))
      ((pre j).length + 1) ((pre j).length + 2) where
  set := by
    rw [hs.getElem?_sync_leader (by omega), internalSync, if_neg hlarge,
      getElem?_internalAtomicBarrier_leader, if_neg (by omega), if_neg (by omega),
      if_pos (by omega), show j + 1 - 1 = j by omega]
  wait := by
    have hne : peStart + stride * j ≠ peStart := rank_ne_start hstride (by omega)
    rw [hs.getElem?_sync hj, internalSync, if_neg hlarge, internalAtomicBarrier, if_neg hne]
    rfl
  clear := by
    have hne : peStart + stride * j ≠ peStart := rank_ne_start hstride (by omega)
    rw [hs.getElem?_sync hj, internalSync, if_neg hlarge, internalAtomicBarrier, if_neg hne]
    rfl
  wait_lt_clear := by omega
  value_ne := by decide
  setter_ne := fun h => rank_ne_start hstride (by omega) h.symm
  writers := by
    intro p n instr hp hx
    obtain ⟨k, hk, rfl, hle, hsync⟩ := hs.flagWrite hp hx
    rw [internalSync, if_neg hlarge] at hsync
    obtain ⟨-, hcase⟩ := internalAtomicBarrier_flagTarget hstride hsync hx
    rcases hcase with ⟨-, hq, -⟩ | ⟨rfl, k', -, -, hq, hn⟩ | ⟨-, hq, -⟩ | ⟨-, hq, hn⟩
    · exact absurd hq (rank_ne_start hstride (by omega))
    · -- The leader's release of member `j`.
      have hk' : k' = j := ((rank_inj hstride).mp hq).symm
      subst hk'
      exact Or.inl ⟨by rw [Nat.mul_zero, Nat.add_zero], by omega⟩
    · exact absurd hq (rank_ne_start hstride (by omega))
    · -- Member `j`'s own reset.
      have hkj : k = j := ((rank_inj hstride).mp hq).symm
      subst hkj
      exact Or.inr ⟨rfl, by omega⟩

end Atomic

/-- One barrier on a team's own sync array, from the start with every flag
    at `ROCSHMEM_SYNC_VALUE`: once any member has returned from it, every
    member has run all the code before its barrier. -/
theorem SyncsAfter.members_entered (hs : SyncsAfter prog peStart stride size pSync pre)
    (hstride : 0 < stride) {data : Nat → DataAddr → α} {c : Pgas.Config DataAddr FlagAddr α}
    (hc : Pgas.Reachable prog (initConfig data) c) {j : Nat} (hj : j < size)
    (hdone : Pgas.Done prog c (peStart + stride * j)) :
    ∀ i < size, (pre i).length ≤ c.pc (peStart + stride * i) := by
  have hpc := hdone
  rw [Pgas.Done, hs.member j hj, List.length_append, internalSync] at hpc
  have hne : j ≠ 0 → peStart + stride * j ≠ peStart := rank_ne_start hstride
  by_cases hsmall : size < 64
  · rw [if_pos hsmall, length_internalDirectBarrier] at hpc
    -- Past its waits, the leader has seen every member's mark.
    have hlead : (pre 0).length + 2 * (size - 1) ≤ c.pc peStart →
        ∀ i < size, (pre i).length ≤ c.pc (peStart + stride * i) := by
      intro hpast i hi
      by_cases hi0 : i = 0
      · subst hi0
        rw [Nat.mul_zero, Nat.add_zero]
        omega
      · have hmark := (hs.markSignal hstride hsmall (by omega) hi).set_of_waited rfl
          (Nat.zero_le _) (Nat.zero_le _) hc (by omega)
        omega
    by_cases hj0 : j = 0
    · subst hj0
      rw [Nat.mul_zero, Nat.add_zero, if_pos rfl] at hpc
      exact hlead (by omega)
    · -- A member past its wait has been released, after the leader's waits.
      rw [if_neg (hne hj0)] at hpc
      have hrel := (hs.directReleaseSignal hstride hsmall (by omega) hj).set_of_waited rfl
        (Nat.zero_le _) (Nat.zero_le _) hc (by omega)
      exact hlead (by omega)
  · rw [if_neg hsmall, length_internalAtomicBarrier] at hpc
    -- Past its wait, the leader has counted every member.
    have hlead : (pre 0).length < c.pc peStart →
        ∀ i < size, (pre i).length ≤ c.pc (peStart + stride * i) := by
      intro hpast i hi
      by_cases hi0 : i = 0
      · subst hi0
        rw [Nat.mul_zero, Nat.add_zero]
        omega
      · have hadd := (hs.counterCount hstride hsmall).added_of_waited rfl
          (fun _ _ => Nat.zero_le _) (Nat.zero_le _) hc hpast _
          (List.mem_map.mpr ⟨i, List.mem_range'_1.mpr (by omega), rfl⟩)
        exact Nat.le_of_lt hadd
    by_cases hj0 : j = 0
    · subst hj0
      rw [Nat.mul_zero, Nat.add_zero, if_pos rfl] at hpc
      exact hlead (by omega)
    · rw [if_neg (hne hj0)] at hpc
      have hrel := (hs.atomicReleaseSignal hstride hsmall (by omega) hj).set_of_waited rfl
        (Nat.zero_le _) (Nat.zero_le _) hc (by omega)
      exact hlead (by omega)

end Safety

end RocShmem
