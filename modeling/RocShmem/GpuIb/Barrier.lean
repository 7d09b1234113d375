import RocShmem.Lib.AsyncSignal
import RocShmem.Ipc.Context
import RocShmem.GpuIb.Reduce

/-!
# The GPU-IB Barriers over the Network

`GPUIBContext::internal_direct_barrier` and `internal_atomic_barrier`
(`gpu_ib/context_ib_device_coll.cpp`) run the algorithms of the IPC
barriers through the network. A member's mark and the leader's releases are
`put_nbi`s of `flag_val` into `pSync` on the leader and on the members, and
in the atomic barrier a member counts itself in with `amo_add`. A `put_nbi`
posts a write and returns: the write reaches its destination when the
network delivers it. `amo_add` is `atomic_nofetch`, which posts the addition
and quiets the queue pair, so it returns once the addition has arrived.
`quiet()` runs `quiet_single_heavy` on the queue pair of every PE, each
returning once everything posted to that PE has executed
(`runs_post_quiet_drains`). The model runs these calls over `AsyncPgas`,
whose queue from a PE to a destination is the context's queue pair to that
PE; only thread zero of the block runs the barrier, so the wavefront
coalescing of `put_nbi` sends its one message as it is.

The leader still learns of every member only through a flag the member
wrote, and a member of its release only through the leader's write, so the
rules of `AsyncPgas.Signal` and `AsyncPgas.Count` apply as the direct rules
did to the IPC barriers: one barrier on flags nobody else writes returns no
member before every member has entered it (`SyncsAfter.members_entered`),
for the barrier of every team `sync(team)` is called with
(`gpu_ib_team_sync_members_entered`).

`barrier_all` quiets every queue pair before its barrier. So when a member
returns from it, every member has drained its queues after the code before
its `barrier_all`, and every write still in flight was posted by
`barrier_all` itself (`barrier_all_no_earlier_write_in_flight`). `sync_all`
has no quiet: `rocshmem_sync_all` "does not ensure completion of remote
memory updates".

Like `IPCContext::sync`, `GPUIBContext::sync` passes the context's one
`barrier_sync` for every team, so a mark sent for one team's barrier can
release the leader of another that shares it
(`gpu_ib_sync_overlapping_teams_early_return`).

## Main definitions

* `GPUIBContext.amoAddFlag`, `GPUIBContext.quietAll`: `amo_add` and `quiet`
  as instructions over the network.
* `GPUIBContext.internalDirectBarrier`, `GPUIBContext.internalAtomicBarrier`,
  `GPUIBContext.internalSync`: The barrier of one PE.
* `GPUIBContext.sync`, `GPUIBContext.syncAll`, `GPUIBContext.barrierAll`:
  The barriers of the API.
* `GPUIBContext.SyncsAfter`, `GPUIBContext.BarrierAllAfter`: The programs
  of a team that runs one barrier after some code of its own.

## Theorems

* `GPUIBContext.SyncsAfter.markSignal`,
  `GPUIBContext.SyncsAfter.directReleaseSignal`,
  `GPUIBContext.SyncsAfter.counterCount`,
  `GPUIBContext.SyncsAfter.atomicReleaseSignal`: The flags of the two
  barriers are signals and a count over the network.
* `GPUIBContext.SyncsAfter.members_entered`: No member returns before every
  member has entered.
* `gpu_ib_team_sync_members_entered`: The same for `sync(team)`.
* `barrier_all_no_earlier_write_in_flight`: After `barrier_all`, nothing
  posted before it is in flight.
* `gpu_ib_sync_overlapping_teams_early_return`: Teams that share a leader
  share its flags, and one returns the leader early.
-/

namespace RocShmem

open AsyncPgas Transition

namespace GPUIBContext

variable {A α : Type}

/-- An instruction of a GPU-IB PE over the network; a flag is an index into
    the context's `barrier_sync`. -/
abbrev NetInstr (A α : Type) := AsyncPgas.Instr A Nat α

/-- `amo_add` of `v` to flag `x` of `pe` on the network path:
    `atomic_nofetch` posts the addition and quiets the queue pair of `pe`. -/
def amoAddFlag (pe x : Nat) (v : Int) : List (NetInstr A α) := [.putNbi pe (.add x v), .quietTo pe]

/-- `quiet()` on the network path: `quiet_single_heavy` on the queue pair of
    every PE `k < getNumDest()`, which is `num_pes` on a reliable
    connection. -/
def quietAll (numPes : Nat) : List (NetInstr A α) := (List.range numPes).map .quietTo

/-- `internal_direct_barrier` of world PE `pe`: as leader, wait for and
    clear every member's slot, then release every member with a `put_nbi`;
    otherwise, mark the own slot on the leader with a `put_nbi`, wait for the
    release and clear it. -/
def internalDirectBarrier (pe peStart stride nPes : Nat) : List (NetInstr A α) :=
  if pe = peStart then
    ((List.range' 1 (nPes - 1)).flatMap fun i => [.waitFlag i 1, .store i syncValue]) ++
      (List.range' 1 (nPes - 1)).map fun i => .putNbi (peStart + stride * i) (.flag 0 1)
  else
    [.putNbi peStart (.flag ((pe - peStart) / stride) 1), .waitFlag 0 1, .store 0 syncValue]

/-- `internal_atomic_barrier` of world PE `pe`: the members count themselves
    into `pSync[0]` on the leader with `amo_add`, and the leader waits for
    `n_pes - 1` of them. -/
def internalAtomicBarrier (pe peStart stride nPes : Nat) : List (NetInstr A α) :=
  if pe = peStart then
    [.waitFlag 0 ((nPes : Int) - 1), .store 0 syncValue] ++
      (List.range' 1 (nPes - 1)).map fun i => .putNbi (peStart + stride * i) (.flag 0 1)
  else
    amoAddFlag peStart 0 1 ++ [.waitFlag 0 1, .store 0 syncValue]

/-- `internal_sync`, as thread zero of the block runs it: the direct
    barrier below 64 members, the atomic one from 64 on. -/
def internalSync (pe peStart stride peSize : Nat) : List (NetInstr A α) :=
  if peSize < 64 then internalDirectBarrier pe peStart stride peSize
  else internalAtomicBarrier pe peStart stride peSize

/-- `GPUIBContext::sync(team)` on the member of world rank `myPeInWorld`:
    the team's `pe_start`, stride `1 << log_stride` and size, on the
    context's `barrier_sync`. -/
def sync (team : GPUIBTeamInfo) (myPeInWorld : Nat) : List (NetInstr A α) :=
  internalSync myPeInWorld team.peStart (2 ^ team.logStride) team.size

/-- `GPUIBContext::sync_all`: the whole world. -/
def syncAll (ctx : GPUIBContext) : List (NetInstr A α) := internalSync ctx.myPe 0 1 ctx.numPes

/-- `GPUIBContext::barrier_all`: thread zero quiets, then `sync_all`. -/
def barrierAll (ctx : GPUIBContext) : List (NetInstr A α) := quietAll ctx.numPes ++ syncAll ctx

theorem getElem?_internalDirectBarrier_leader (peStart stride nPes n : Nat) :
    (internalDirectBarrier (A := A) (α := α) peStart peStart stride nPes)[n]? =
      if n < 2 * (nPes - 1) then
        some (if n % 2 = 0 then .waitFlag (n / 2 + 1) 1 else .store (n / 2 + 1) syncValue)
      else if n < 3 * (nPes - 1) then
        some (.putNbi (peStart + stride * (n - 2 * (nPes - 1) + 1)) (.flag 0 1))
      else none := by
  have hlen : ((List.range' 1 (nPes - 1)).flatMap fun i =>
      [(.waitFlag i 1 : NetInstr A α), .store i syncValue]).length = 2 * (nPes - 1) := by
    rw [Pgas.length_flatMap_of_length (n := 2) fun _ _ => rfl, List.length_range']
  rw [internalDirectBarrier, if_pos rfl]
  by_cases h1 : n < 2 * (nPes - 1)
  · -- The waits and clears, two instructions for each member after the leader.
    rw [List.getElem?_append_left (by omega), Pgas.getElem?_flatMap_of_length (n := 2) (by decide)
      (fun _ _ => rfl), List.getElem?_range' (by omega), if_pos h1, Option.bind_some]
    rcases Nat.mod_two_eq_zero_or_one n with h | h
    · simp [h, Nat.add_comm]
    · simp [h, Nat.add_comm]
  · -- The releases, one for each member after the leader.
    rw [List.getElem?_append_right (by omega), hlen, List.getElem?_map, if_neg h1]
    by_cases h2 : n < 3 * (nPes - 1)
    · rw [List.getElem?_range' (by omega), if_pos h2, Option.map_some]
      simp [Nat.add_comm]
    · rw [List.getElem?_eq_none (by rw [List.length_range']; omega), if_neg h2, Option.map_none]

theorem getElem?_internalAtomicBarrier_leader (peStart stride nPes n : Nat) :
    (internalAtomicBarrier (A := A) (α := α) peStart peStart stride nPes)[n]? =
      if n = 0 then some (.waitFlag 0 ((nPes : Int) - 1))
      else if n = 1 then some (.store 0 syncValue)
      else if n < nPes + 1 then some (.putNbi (peStart + stride * (n - 1)) (.flag 0 1))
      else none := by
  rw [internalAtomicBarrier, if_pos rfl]
  match n with
  | 0 => rfl
  | 1 => rfl
  | n + 2 =>
      -- The releases follow the wait and the clear.
      rw [List.cons_append, List.cons_append, List.getElem?_cons_succ, List.getElem?_cons_succ,
        List.nil_append, List.getElem?_map, if_neg (by omega), if_neg (by omega)]
      by_cases h : n + 2 < nPes + 1
      · rw [List.getElem?_range' (by omega), if_pos h, Option.map_some]
        rw [show n + 2 - 1 = 1 + 1 * n by omega]
      · rw [List.getElem?_eq_none (by rw [List.length_range']; omega), if_neg h, Option.map_none]

/-- Every flag the direct barrier of team rank `j` writes: as leader, it
    clears slot `y` and releases member `k`; otherwise it marks its own slot
    on the leader and clears its own release flag. -/
theorem internalDirectBarrier_flagTarget {peStart stride nPes j n q y : Nat}
    {i : NetInstr A α} (hstride : 0 < stride)
    (hi : (internalDirectBarrier (A := A) (α := α) (peStart + stride * j) peStart stride
      nPes)[n]? = some i)
    (hy : i.flagTarget (peStart + stride * j) = some (q, y)) :
    j = 0 ∧ q = peStart ∧ 1 ≤ y ∧ y < nPes ∧ n = 2 * (y - 1) + 1 ∨
      j = 0 ∧ y = 0 ∧ (∃ k, 1 ≤ k ∧ k < nPes ∧ q = peStart + stride * k ∧
        n = 2 * (nPes - 1) + (k - 1)) ∨
      j ≠ 0 ∧ q = peStart ∧ y = j ∧ n = 0 ∨
      j ≠ 0 ∧ q = peStart + stride * j ∧ y = 0 ∧ n = 2 := by
  by_cases hj : j = 0
  · subst hj
    rw [Nat.mul_zero, Nat.add_zero, getElem?_internalDirectBarrier_leader] at hi
    rw [Nat.mul_zero, Nat.add_zero] at hy
    split_ifs at hi with h1 h2 h3
    · rw [Option.some.injEq] at hi
      subst hi
      exact absurd hy (by simp)
    · -- A clear of slot `n / 2 + 1`.
      rw [Option.some.injEq] at hi
      subst hi
      rw [Instr.flagTarget_store, Option.some.injEq, Prod.mk.injEq] at hy
      obtain ⟨rfl, rfl⟩ := hy
      refine Or.inl ⟨rfl, rfl, ?_, ?_, ?_⟩ <;> omega
    · -- A release of member `n - 2 (nPes - 1) + 1`.
      rw [Option.some.injEq] at hi
      subst hi
      rw [Instr.flagTarget_putNbi_flag, Option.some.injEq, Prod.mk.injEq] at hy
      obtain ⟨rfl, rfl⟩ := hy
      refine Or.inr (Or.inl ⟨rfl, rfl, n - 2 * (nPes - 1) + 1, ?_, ?_, rfl, ?_⟩) <;> omega
  · have hne : peStart + stride * j ≠ peStart := rank_ne_start hstride hj
    have hslot : (peStart + stride * j - peStart) / stride = j := slot_of_rank hstride j
    rw [internalDirectBarrier, if_neg hne, hslot] at hi
    -- one case per instruction of the member's three
    rcases n with _ | _ | _ | n
    · rw [List.getElem?_cons_zero, Option.some.injEq] at hi
      subst hi
      rw [Instr.flagTarget_putNbi_flag, Option.some.injEq, Prod.mk.injEq] at hy
      obtain ⟨rfl, rfl⟩ := hy
      exact Or.inr (Or.inr (Or.inl ⟨hj, rfl, rfl, rfl⟩))
    · simp only [List.getElem?_cons_succ, List.getElem?_cons_zero, Option.some.injEq] at hi
      subst hi
      exact absurd hy (by simp)
    · simp only [List.getElem?_cons_succ, List.getElem?_cons_zero, Option.some.injEq] at hi
      subst hi
      rw [Instr.flagTarget_store, Option.some.injEq, Prod.mk.injEq] at hy
      obtain ⟨rfl, rfl⟩ := hy
      exact Or.inr (Or.inr (Or.inr ⟨hj, rfl, rfl, rfl⟩))
    · simp at hi

/-- Every flag the atomic barrier of team rank `j` writes: the leader clears
    the counter and releases each member; any other member adds itself to
    the counter and clears its own release flag. -/
theorem internalAtomicBarrier_flagTarget {peStart stride nPes j n q y : Nat}
    {i : NetInstr A α} (hstride : 0 < stride)
    (hi : (internalAtomicBarrier (A := A) (α := α) (peStart + stride * j) peStart stride
      nPes)[n]? = some i)
    (hy : i.flagTarget (peStart + stride * j) = some (q, y)) :
    y = 0 ∧
      (j = 0 ∧ q = peStart ∧ n = 1 ∨
        j = 0 ∧ (∃ k, 1 ≤ k ∧ k < nPes ∧ q = peStart + stride * k ∧ n = k + 1) ∨
        j ≠ 0 ∧ q = peStart ∧ n = 0 ∨
        j ≠ 0 ∧ q = peStart + stride * j ∧ n = 3) := by
  by_cases hj : j = 0
  · subst hj
    rw [Nat.mul_zero, Nat.add_zero, getElem?_internalAtomicBarrier_leader] at hi
    rw [Nat.mul_zero, Nat.add_zero] at hy
    split_ifs at hi with h0 h1 h2
    · rw [Option.some.injEq] at hi
      subst hi
      exact absurd hy (by simp)
    · -- The clear of the counter.
      rw [Option.some.injEq] at hi
      subst hi
      rw [Instr.flagTarget_store, Option.some.injEq, Prod.mk.injEq] at hy
      obtain ⟨rfl, rfl⟩ := hy
      exact ⟨rfl, Or.inl ⟨rfl, rfl, h1⟩⟩
    · -- A release of member `n - 1`.
      rw [Option.some.injEq] at hi
      subst hi
      rw [Instr.flagTarget_putNbi_flag, Option.some.injEq, Prod.mk.injEq] at hy
      obtain ⟨rfl, rfl⟩ := hy
      refine ⟨rfl, Or.inr (Or.inl ⟨rfl, n - 1, ?_, ?_, rfl, ?_⟩)⟩ <;> omega
  · have hne : peStart + stride * j ≠ peStart := rank_ne_start hstride hj
    rw [internalAtomicBarrier, if_neg hne, amoAddFlag] at hi
    -- one case per instruction of the member's four
    rcases n with _ | _ | _ | _ | n
    · rw [List.cons_append, List.getElem?_cons_zero, Option.some.injEq] at hi
      subst hi
      rw [Instr.flagTarget_putNbi_add, Option.some.injEq, Prod.mk.injEq] at hy
      obtain ⟨rfl, rfl⟩ := hy
      exact ⟨rfl, Or.inr (Or.inr (Or.inl ⟨hj, rfl, rfl⟩))⟩
    · simp only [List.cons_append, List.getElem?_cons_succ, List.getElem?_cons_zero,
        Option.some.injEq] at hi
      subst hi
      exact absurd hy (by simp)
    · simp only [List.cons_append, List.nil_append, List.getElem?_cons_succ,
        List.getElem?_cons_zero, Option.some.injEq] at hi
      subst hi
      exact absurd hy (by simp)
    · simp only [List.cons_append, List.nil_append, List.getElem?_cons_succ,
        List.getElem?_cons_zero, Option.some.injEq] at hi
      subst hi
      rw [Instr.flagTarget_store, Option.some.injEq, Prod.mk.injEq] at hy
      obtain ⟨rfl, rfl⟩ := hy
      exact ⟨rfl, Or.inr (Or.inr (Or.inr ⟨hj, rfl, rfl⟩))⟩
    · simp at hi

section Safety

/-- A team's programs around one barrier: the member of team rank `j`,
    world rank `peStart + stride * j`, runs code `pre j` that writes no flag
    and then `internal_sync`, and no other PE writes a flag. -/
structure SyncsAfter (prog : AsyncPgas.Prog A Nat α) (peStart stride size : Nat)
    (pre : Nat → List (NetInstr A α)) : Prop where
  member : ∀ j < size, prog (peStart + stride * j) =
    pre j ++ internalSync (peStart + stride * j) peStart stride size
  pre_free : ∀ j < size, ∀ i ∈ pre j, i.flagTarget (peStart + stride * j) = none
  outsider : ∀ p, (∀ j < size, p ≠ peStart + stride * j) → ∀ i ∈ prog p, i.flagTarget p = none

variable {prog : AsyncPgas.Prog A Nat α} {peStart stride size : Nat}
  {pre : Nat → List (NetInstr A α)}

theorem SyncsAfter.getElem?_sync (hs : SyncsAfter prog peStart stride size pre) {j : Nat}
    (hj : j < size) (n : Nat) :
    (prog (peStart + stride * j))[(pre j).length + n]? =
      (internalSync (A := A) (α := α) (peStart + stride * j) peStart stride size)[n]? := by
  rw [hs.member j hj, List.getElem?_append_right (by omega), Nat.add_sub_cancel_left]

theorem SyncsAfter.getElem?_sync_leader (hs : SyncsAfter prog peStart stride size pre)
    (hsize : 0 < size) (n : Nat) :
    (prog peStart)[(pre 0).length + n]? =
      (internalSync (A := A) (α := α) peStart peStart stride size)[n]? := by
  have h0 := hs.getElem?_sync hsize n
  rw [Nat.mul_zero, Nat.add_zero] at h0
  exact h0

/-- Every write of a flag is one of a member's barrier. -/
theorem SyncsAfter.flagWrite (hs : SyncsAfter prog peStart stride size pre) {p n q y : Nat}
    {i : NetInstr A α} (hi : (prog p)[n]? = some i) (hy : i.flagTarget p = some (q, y)) :
    ∃ j < size, p = peStart + stride * j ∧ (pre j).length ≤ n ∧
      (internalSync (A := A) (α := α) (peStart + stride * j) peStart stride
        size)[n - (pre j).length]? = some i := by
  by_cases hmem : ∃ j < size, p = peStart + stride * j
  · obtain ⟨j, hj, rfl⟩ := hmem
    rw [hs.member j hj] at hi
    by_cases hn : n < (pre j).length
    · -- Not in the code before the barrier: it writes no flag.
      rw [List.getElem?_append_left hn] at hi
      rw [hs.pre_free j hj i (List.mem_of_getElem? hi)] at hy
      exact absurd hy (by simp)
    · rw [List.getElem?_append_right (by omega)] at hi
      exact ⟨j, hj, rfl, by omega, hi⟩
  · have hout : ∀ j < size, p ≠ peStart + stride * j := fun j hj hp => hmem ⟨j, hj, hp⟩
    rw [hs.outsider p hout i (List.mem_of_getElem? hi)] at hy
    exact absurd hy (by simp)

theorem length_internalDirectBarrier (pe peStart stride nPes : Nat) :
    (internalDirectBarrier (A := A) (α := α) pe peStart stride nPes).length =
      if pe = peStart then 3 * (nPes - 1) else 3 := by
  rw [internalDirectBarrier]
  split
  · rw [List.length_append, Pgas.length_flatMap_of_length (n := 2) fun _ _ => rfl,
      List.length_map, List.length_range']
    omega
  · rfl

theorem length_internalAtomicBarrier (pe peStart stride nPes : Nat) :
    (internalAtomicBarrier (A := A) (α := α) pe peStart stride nPes).length =
      if pe = peStart then 2 + (nPes - 1) else 4 := by
  rw [internalAtomicBarrier]
  split
  · rw [List.length_append, List.length_map, List.length_range']
    simp only [List.length_cons, List.length_nil]
  · rfl

section Direct

/-- In the direct barrier, member `i`'s mark in its slot on the leader is a
    signal to the leader's wait for that slot. -/
theorem SyncsAfter.markSignal (hs : SyncsAfter prog peStart stride size pre)
    (hstride : 0 < stride) (hsmall : size < 64) {i : Nat} (hi1 : 1 ≤ i) (hi : i < size) :
    AsyncPgas.Signal prog peStart i 1 (peStart + stride * i) (pre i).length
      ((pre 0).length + 2 * (i - 1)) ((pre 0).length + 2 * (i - 1) + 1) where
  set := by
    have hne : peStart + stride * i ≠ peStart := rank_ne_start hstride (by omega)
    have hslot : (peStart + stride * i - peStart) / stride = i := slot_of_rank hstride i
    rw [← Nat.add_zero (pre i).length, hs.getElem?_sync hi, internalSync, if_pos hsmall,
      internalDirectBarrier, if_neg hne, hslot]
    rfl
  wait := by
    rw [hs.getElem?_sync_leader (by omega), internalSync, if_pos hsmall,
      getElem?_internalDirectBarrier_leader, if_pos (by omega), if_pos (by omega),
      show 2 * (i - 1) / 2 + 1 = i by omega]
  clear := by
    rw [Nat.add_assoc, hs.getElem?_sync_leader (by omega), internalSync, if_pos hsmall,
      getElem?_internalDirectBarrier_leader, if_pos (by omega), if_neg (by omega),
      show (2 * (i - 1) + 1) / 2 + 1 = i by omega]
    rfl
  wait_lt_clear := by omega
  value_ne := by decide
  setter_ne := rank_ne_start hstride (by omega)
  writers := by
    intro p n instr hp hx
    obtain ⟨k, hk, rfl, hle, hsync⟩ := hs.flagWrite hp hx
    rw [internalSync, if_pos hsmall] at hsync
    rcases internalDirectBarrier_flagTarget hstride hsync hx with
      ⟨rfl, -, -, -, hn⟩ | ⟨-, h0, -⟩ | ⟨-, -, hki, hn⟩ | ⟨hk0, hq, -, -⟩
    · -- The leader's clear of slot `i`.
      exact Or.inr ⟨by rw [Nat.mul_zero, Nat.add_zero], by omega⟩
    · exact absurd h0 (by omega)
    · -- The mark of member `i` itself.
      have hki : k = i := hki.symm
      subst hki
      exact Or.inl ⟨rfl, by omega⟩
    · exact absurd ((rank_eq_start_iff hstride).mp hq.symm) hk0

/-- In the direct barrier, the leader's release of member `j` is a signal
    to that member's wait. -/
theorem SyncsAfter.directReleaseSignal (hs : SyncsAfter prog peStart stride size pre)
    (hstride : 0 < stride) (hsmall : size < 64) {j : Nat} (hj1 : 1 ≤ j) (hj : j < size) :
    AsyncPgas.Signal prog (peStart + stride * j) 0 1 peStart
      ((pre 0).length + (2 * (size - 1) + (j - 1))) ((pre j).length + 1)
      ((pre j).length + 2) where
  set := by
    rw [hs.getElem?_sync_leader (by omega), internalSync, if_pos hsmall,
      getElem?_internalDirectBarrier_leader, if_neg (by omega), if_pos (by omega),
      show 2 * (size - 1) + (j - 1) - 2 * (size - 1) + 1 = j by omega]
  wait := by
    have hne : peStart + stride * j ≠ peStart := rank_ne_start hstride (by omega)
    rw [hs.getElem?_sync hj, internalSync, if_pos hsmall, internalDirectBarrier, if_neg hne]
    rfl
  clear := by
    have hne : peStart + stride * j ≠ peStart := rank_ne_start hstride (by omega)
    rw [hs.getElem?_sync hj, internalSync, if_pos hsmall, internalDirectBarrier, if_neg hne]
    rfl
  wait_lt_clear := by omega
  value_ne := by decide
  setter_ne := fun h => rank_ne_start hstride (by omega) h.symm
  writers := by
    intro p n instr hp hx
    obtain ⟨k, hk, rfl, hle, hsync⟩ := hs.flagWrite hp hx
    rw [internalSync, if_pos hsmall] at hsync
    rcases internalDirectBarrier_flagTarget hstride hsync hx with
      ⟨-, hq, -⟩ | ⟨rfl, -, k', -, -, hq, hn⟩ | ⟨-, hq, -⟩ | ⟨-, hq, -, hn⟩
    · exact absurd hq (rank_ne_start hstride (by omega))
    · -- The leader's release of member `j`.
      have hk' : k' = j := ((rank_inj hstride).mp hq).symm
      subst hk'
      exact Or.inl ⟨by rw [Nat.mul_zero, Nat.add_zero], by omega⟩
    · exact absurd hq (rank_ne_start hstride (by omega))
    · -- Member `j`'s own clear.
      have hkj : k = j := ((rank_inj hstride).mp hq).symm
      subst hkj
      exact Or.inr ⟨rfl, by omega⟩

end Direct

section Atomic

/-- The members after the leader, with where each posts its addition to the
    counter. -/
def atomicAdders (peStart stride size : Nat) (pre : Nat → List (NetInstr A α)) :
    List (Nat × Nat) :=
  (List.range' 1 (size - 1)).map fun k => (peStart + stride * k, (pre k).length)

/-- In the atomic barrier, the members' additions to `pSync[0]` on the
    leader are a count for the leader's wait. -/
theorem SyncsAfter.counterCount (hs : SyncsAfter prog peStart stride size pre)
    (hstride : 0 < stride) (hlarge : ¬ size < 64) :
    AsyncPgas.Count prog peStart 0 (atomicAdders peStart stride size pre) (pre 0).length
      ((pre 0).length + 1) where
  add := by
    intro w hw
    obtain ⟨k, hk, rfl⟩ := List.mem_map.mp hw
    obtain ⟨hk1, hk⟩ : 1 ≤ k ∧ k < size := by
      rw [List.mem_range'_1] at hk
      omega
    have hne : peStart + stride * k ≠ peStart := rank_ne_start hstride (by omega)
    rw [← Nat.add_zero (pre k).length, hs.getElem?_sync hk, internalSync, if_neg hlarge,
      internalAtomicBarrier, if_neg hne]
    rfl
  nodup := by
    rw [atomicAdders, List.map_map]
    refine List.Nodup.map (fun a b heq => (rank_inj hstride).mp heq) List.nodup_range'
  adder_ne := by
    intro w hw
    obtain ⟨k, hk, rfl⟩ := List.mem_map.mp hw
    rw [List.mem_range'_1] at hk
    exact rank_ne_start hstride (by omega)
  wait := by
    have hlen : ((atomicAdders peStart stride size pre).length : Int) = (size : Int) - 1 := by
      rw [atomicAdders, List.length_map, List.length_range']
      omega
    rw [hlen, ← Nat.add_zero (pre 0).length, hs.getElem?_sync_leader (by omega), internalSync,
      if_neg hlarge, getElem?_internalAtomicBarrier_leader, if_pos rfl]
  clear := by
    rw [hs.getElem?_sync_leader (by omega), internalSync, if_neg hlarge,
      getElem?_internalAtomicBarrier_leader]
    rfl
  wait_lt_clear := by omega
  writers := by
    intro p n instr hp hx
    obtain ⟨k, hk, rfl, hle, hsync⟩ := hs.flagWrite hp hx
    rw [internalSync, if_neg hlarge] at hsync
    obtain ⟨-, hcase⟩ := internalAtomicBarrier_flagTarget hstride hsync hx
    rcases hcase with ⟨rfl, -, hn⟩ | ⟨-, k', hk1, -, hq, -⟩ | ⟨hk0, -, hn⟩ | ⟨hk0, hq, -⟩
    · -- The leader's clear of the counter.
      exact Or.inr ⟨by rw [Nat.mul_zero, Nat.add_zero], by omega⟩
    · exact absurd hq.symm (rank_ne_start hstride (by omega))
    · -- A member's addition.
      refine Or.inl (List.mem_map.mpr ⟨k, ?_, ?_⟩)
      · rw [List.mem_range'_1]
        omega
      · rw [show n = (pre k).length by omega]
    · exact absurd ((rank_eq_start_iff hstride).mp hq.symm) hk0

/-- In the atomic barrier, the leader's release of member `j` is a signal
    to that member's wait. -/
theorem SyncsAfter.atomicReleaseSignal (hs : SyncsAfter prog peStart stride size pre)
    (hstride : 0 < stride) (hlarge : ¬ size < 64) {j : Nat} (hj1 : 1 ≤ j) (hj : j < size) :
    AsyncPgas.Signal prog (peStart + stride * j) 0 1 peStart ((pre 0).length + (j + 1))
      ((pre j).length + 2) ((pre j).length + 3) where
  set := by
    rw [hs.getElem?_sync_leader (by omega), internalSync, if_neg hlarge,
      getElem?_internalAtomicBarrier_leader, if_neg (by omega), if_neg (by omega),
      if_pos (by omega), show j + 1 - 1 = j by omega]
  wait := by
    have hne : peStart + stride * j ≠ peStart := rank_ne_start hstride (by omega)
    rw [hs.getElem?_sync hj, internalSync, if_neg hlarge, internalAtomicBarrier, if_neg hne]
    rfl
  clear := by
    have hne : peStart + stride * j ≠ peStart := rank_ne_start hstride (by omega)
    rw [hs.getElem?_sync hj, internalSync, if_neg hlarge, internalAtomicBarrier, if_neg hne]
    rfl
  wait_lt_clear := by omega
  value_ne := by decide
  setter_ne := fun h => rank_ne_start hstride (by omega) h.symm
  writers := by
    intro p n instr hp hx
    obtain ⟨k, hk, rfl, hle, hsync⟩ := hs.flagWrite hp hx
    rw [internalSync, if_neg hlarge] at hsync
    obtain ⟨-, hcase⟩ := internalAtomicBarrier_flagTarget hstride hsync hx
    rcases hcase with ⟨-, hq, -⟩ | ⟨rfl, k', -, -, hq, hn⟩ | ⟨-, hq, -⟩ | ⟨-, hq, hn⟩
    · exact absurd hq (rank_ne_start hstride (by omega))
    · -- The leader's release of member `j`.
      have hk' : k' = j := ((rank_inj hstride).mp hq).symm
      subst hk'
      exact Or.inl ⟨by rw [Nat.mul_zero, Nat.add_zero], by omega⟩
    · exact absurd hq (rank_ne_start hstride (by omega))
    · -- Member `j`'s own clear.
      have hkj : k = j := ((rank_inj hstride).mp hq).symm
      subst hkj
      exact Or.inr ⟨rfl, by omega⟩

end Atomic

/-- One barrier over the network, from the start with every flag at
    `ROCSHMEM_SYNC_VALUE` and nothing in flight: once any member has
    returned from it, every member has run all the code before its
    barrier. -/
theorem SyncsAfter.members_entered [DecidableEq A] (hs : SyncsAfter prog peStart stride size pre)
    (hstride : 0 < stride) {m : Pgas.Memory A Nat α} (hm : ∀ p x, m.flag p x = syncValue)
    {c : AsyncPgas.Config A Nat α} (hc : Reachable (AsyncPgas.Step prog) (Config.start m) c)
    {j : Nat} (hj : j < size) (hdone : AsyncPgas.Done prog c (peStart + stride * j)) :
    ∀ i < size, (pre i).length ≤ c.pc (peStart + stride * i) := by
  have h0 : ∀ p x, (Config.start m).mem.flag p x = 0 := hm
  have hsent : ∀ p d, (Config.start m : AsyncPgas.Config A Nat α).sent p d = [] :=
    fun _ _ => rfl
  have hpc := hdone
  rw [AsyncPgas.Done, hs.member j hj, List.length_append, internalSync] at hpc
  have hne : j ≠ 0 → peStart + stride * j ≠ peStart := rank_ne_start hstride
  by_cases hsmall : size < 64
  · rw [if_pos hsmall, length_internalDirectBarrier] at hpc
    -- Past its waits, the leader has seen every member's mark arrive.
    have hlead : (pre 0).length + 2 * (size - 1) ≤ c.pc peStart →
        ∀ i < size, (pre i).length ≤ c.pc (peStart + stride * i) := by
      intro hpast i hi
      by_cases hi0 : i = 0
      · subst hi0
        rw [Nat.mul_zero, Nat.add_zero]
        omega
      · have hmark := (hs.markSignal hstride hsmall (by omega) hi).set_of_waited (h0 _ _) hsent
          (Nat.zero_le _) (Nat.zero_le _) hc (by omega)
        omega
    by_cases hj0 : j = 0
    · subst hj0
      rw [Nat.mul_zero, Nat.add_zero, if_pos rfl] at hpc
      exact hlead (by omega)
    · -- A member past its wait has been released, after the leader's waits.
      rw [if_neg (hne hj0)] at hpc
      have hrel := (hs.directReleaseSignal hstride hsmall (by omega) hj).set_of_waited (h0 _ _)
        hsent (Nat.zero_le _) (Nat.zero_le _) hc (by omega)
      exact hlead (by omega)
  · rw [if_neg hsmall, length_internalAtomicBarrier] at hpc
    -- Past its wait, the leader has seen every member's addition arrive.
    have hlead : (pre 0).length < c.pc peStart →
        ∀ i < size, (pre i).length ≤ c.pc (peStart + stride * i) := by
      intro hpast i hi
      by_cases hi0 : i = 0
      · subst hi0
        rw [Nat.mul_zero, Nat.add_zero]
        omega
      · have hadd := (hs.counterCount hstride hsmall).added_of_waited (h0 _ _) hsent
          (fun _ _ => Nat.zero_le _) (Nat.zero_le _) hc hpast _
          (List.mem_map.mpr ⟨i, List.mem_range'_1.mpr (by omega), rfl⟩)
        exact Nat.le_of_lt hadd
    by_cases hj0 : j = 0
    · subst hj0
      rw [Nat.mul_zero, Nat.add_zero, if_pos rfl] at hpc
      exact hlead (by omega)
    · rw [if_neg (hne hj0)] at hpc
      have hrel := (hs.atomicReleaseSignal hstride hsmall (by omega) hj).set_of_waited (h0 _ _)
        hsent (Nat.zero_le _) (Nat.zero_le _) hc (by omega)
      exact hlead (by omega)

/-- Every PE `p` of a world of `numPes` runs code `pre p` that writes no flag
    and posts only to PEs of the world, then `barrier_all`; no other PE runs
    anything. -/
structure BarrierAllAfter (prog : AsyncPgas.Prog A Nat α) (numPes : Nat)
    (pre : Nat → List (NetInstr A α)) : Prop where
  member : ∀ p < numPes, prog p = pre p ++ barrierAll ⟨p, numPes⟩
  pre_free : ∀ p < numPes, ∀ i ∈ pre p, i.flagTarget p = none
  pre_targets : ∀ p < numPes, ∀ d op, Instr.putNbi d op ∈ pre p → d < numPes
  outsider : ∀ p, numPes ≤ p → prog p = []

/-- `barrier_all` is one barrier of the whole world after the code before it
    and the quiet. -/
theorem BarrierAllAfter.syncsAfter {numPes : Nat} (hs : BarrierAllAfter prog numPes pre) :
    SyncsAfter prog 0 1 numPes fun p => pre p ++ quietAll numPes where
  member := fun j hj => by
    rw [Nat.zero_add, Nat.one_mul, hs.member j hj, barrierAll, syncAll, List.append_assoc]
  pre_free := fun j hj i hi => by
    rw [Nat.zero_add, Nat.one_mul]
    rcases List.mem_append.mp hi with hi | hi
    · exact hs.pre_free j hj i hi
    · obtain ⟨k, -, rfl⟩ := List.mem_map.mp hi
      rfl
  outsider := fun p hout i hi => by
    have hp : numPes ≤ p :=
      Nat.le_of_not_lt fun hp => hout p hp (by rw [Nat.zero_add, Nat.one_mul])
    rw [hs.outsider p hp] at hi
    exact absurd hi List.not_mem_nil

/-- Where the quiet of `barrier_all` waits for the queue to `d`. -/
theorem BarrierAllAfter.getElem?_quiet {numPes : Nat} (hs : BarrierAllAfter prog numPes pre)
    {p d : Nat} (hp : p < numPes) (hd : d < numPes) :
    (prog p)[(pre p).length + d]? = some (.quietTo d) := by
  rw [hs.member p hp, List.getElem?_append_right (by omega), Nat.add_sub_cancel_left, barrierAll,
    List.getElem?_append_left (by rw [quietAll, List.length_map, List.length_range]; exact hd),
    quietAll, List.getElem?_map, List.getElem?_range hd, Option.map_some]

end Safety

/-- Every flag at `ROCSHMEM_SYNC_VALUE`, every data cell `()`. -/
def restMemory : Pgas.Memory Unit Nat Unit := ⟨fun _ _ => (), fun _ _ => syncValue⟩

/-- Every member of `team`, of world rank `pe_start + (1 << log_stride) * j`,
    runs code `pre j` that writes no flag and then `sync(team)`, and no PE
    outside the team writes a flag. From the start, with every flag at
    `ROCSHMEM_SYNC_VALUE` and nothing in flight, once any member has
    returned from the barrier every member has run all the code before it,
    whenever the network delivers the barrier's writes. -/
theorem gpu_ib_team_sync_members_entered [DecidableEq A] (team : GPUIBTeamInfo)
    {prog : AsyncPgas.Prog A Nat α} {pre : Nat → List (NetInstr A α)}
    (hmember : ∀ j < team.size, prog (team.peStart + 2 ^ team.logStride * j) =
      pre j ++ sync team (team.peStart + 2 ^ team.logStride * j))
    (hpre : ∀ j < team.size, ∀ i ∈ pre j,
      i.flagTarget (team.peStart + 2 ^ team.logStride * j) = none)
    (houtsider : ∀ p, p ∉ team.members → ∀ i ∈ prog p, i.flagTarget p = none)
    {m : Pgas.Memory A Nat α} (hm : ∀ p x, m.flag p x = syncValue)
    {c : AsyncPgas.Config A Nat α} (hc : Reachable (AsyncPgas.Step prog) (Config.start m) c)
    {j : Nat} (hj : j < team.size)
    (hdone : AsyncPgas.Done prog c (team.peStart + 2 ^ team.logStride * j)) :
    ∀ i < team.size, (pre i).length ≤ c.pc (team.peStart + 2 ^ team.logStride * i) := by
  have hs : SyncsAfter prog team.peStart (2 ^ team.logStride) team.size pre := by
    refine ⟨hmember, hpre, fun p hout => houtsider p fun hmem => ?_⟩
    obtain ⟨k, hk, rfl⟩ := List.mem_range'.mp hmem
    exact hout k hk rfl
  exact hs.members_entered (Nat.two_pow_pos _) hm hc hj hdone


/-- The team `{0, 1}` of a world of two, each member putting one element to
    the other and then calling `sync(team)`. -/
def putThenTeamSync : AsyncPgas.Prog Unit Nat Unit := fun p =>
  if p < 2 then [.putNbi (1 - p) (.data () ())] ++ sync ⟨0, 0, 2⟩ p else []

/-- On the team `{0, 1}`, the member's mark arrives, the leader returns, and
    both members have run their put. -/
theorem team_of_two_sync_after_put :
    ∃ c, Reachable (AsyncPgas.Step putThenTeamSync) (Config.start restMemory) c ∧
      AsyncPgas.Done putThenTeamSync c 0 ∧ ∀ i < 2, 1 ≤ c.pc (0 + 2 ^ 0 * i) := by
  -- Both put, PE 1 marks, its put and then its mark arrive, PE 0 waits, clears and
  -- releases.
  have hsome : (AsyncPgas.run putThenTeamSync (Config.start restMemory)
      [.pe 0, .pe 1, .pe 1, .nic 1 0, .nic 1 0, .pe 0, .pe 0, .pe 0]).isSome := by
    decide
  obtain ⟨c, hc⟩ := Option.isSome_iff_exists.mp hsome
  have hpc : (AsyncPgas.run putThenTeamSync (Config.start restMemory)
      [.pe 0, .pe 1, .pe 1, .nic 1 0, .nic 1 0, .pe 0, .pe 0, .pe 0]).map
        (fun c => c.pc 0) = some 4 := by
    decide
  rw [hc, Option.map_some, Option.some.injEq] at hpc
  have hreach := AsyncPgas.reachable_of_run hc
  have hdone : AsyncPgas.Done putThenTeamSync c (0 + 2 ^ 0 * 0) := by
    show (putThenTeamSync 0).length ≤ c.pc 0
    rw [hpc]
    decide
  have hmember : ∀ j < 2, putThenTeamSync (0 + 2 ^ 0 * j) =
      [.putNbi (1 - j) (.data () ())] ++ sync ⟨0, 0, 2⟩ (0 + 2 ^ 0 * j) := by
    intro j hj
    rcases j with _ | _ | j
    · rfl
    · rfl
    · omega
  have h := gpu_ib_team_sync_members_entered ⟨0, 0, 2⟩ hmember
    (fun j _ i hi => by
      rw [List.mem_singleton] at hi
      rw [hi]
      rfl)
    (fun p hp i hi => by
      have hp2 : ¬ p < 2 := fun hlt => hp (List.mem_range'.mpr ⟨p, hlt, by simp⟩)
      rw [putThenTeamSync, if_neg hp2] at hi
      exact absurd hi List.not_mem_nil)
    (fun _ _ => rfl) hreach (by decide) hdone
  exact ⟨c, hreach, hdone, h⟩

/-- Three PEs and two teams with leader PE 0, `{0, 1}` and `{0, 2}` (stride
    `1 << 1`): PE 0 syncs on the first and then on the second, PE 1 on the
    first, PE 2 on the second. -/
def overlappingTeamSyncs : AsyncPgas.Prog Unit Nat Unit := fun p =>
  if p = 0 then sync ⟨0, 0, 2⟩ 0 ++ sync ⟨0, 1, 2⟩ 0
  else if p = 1 then sync ⟨0, 0, 2⟩ 1
  else if p = 2 then sync ⟨0, 1, 2⟩ 2
  else []

/-- `sync(team)` runs on the context's `barrier_sync`, shared by every team,
    not on the team's own array. With teams `{0, 1}` and `{0, 2}`, PE 2's
    mark in slot `1` of PE 0 arrives and satisfies PE 0's wait in the
    barrier of `{0, 1}`: PE 0 returns from that barrier while PE 1, a
    member, has not entered it. -/
theorem gpu_ib_sync_overlapping_teams_early_return :
    (⟨0, 0, 2⟩ : GPUIBTeamInfo).members = [0, 1] ∧ (⟨0, 1, 2⟩ : GPUIBTeamInfo).members = [0, 2] ∧
      ∃ c, Reachable (AsyncPgas.Step overlappingTeamSyncs) (Config.start restMemory) c ∧
        (sync (A := Unit) (α := Unit) ⟨0, 0, 2⟩ 0).length ≤ c.pc 0 ∧ c.pc 1 = 0 := by
  refine ⟨rfl, rfl, ?_⟩
  -- PE 2 marks, the mark arrives, PE 0 runs its whole first barrier.
  have hsome : (AsyncPgas.run overlappingTeamSyncs (Config.start restMemory)
      [.pe 2, .nic 2 0, .pe 0, .pe 0, .pe 0]).isSome := by
    decide
  obtain ⟨c, hc⟩ := Option.isSome_iff_exists.mp hsome
  have hpc : (AsyncPgas.run overlappingTeamSyncs (Config.start restMemory)
      [.pe 2, .nic 2 0, .pe 0, .pe 0, .pe 0]).map (fun c => (c.pc 0, c.pc 1)) = some (3, 0) := by
    decide
  rw [hc, Option.map_some, Option.some.injEq, Prod.mk.injEq] at hpc
  refine ⟨c, AsyncPgas.reachable_of_run hc, ?_, hpc.2⟩
  rw [hpc.1]
  decide

/-- Every PE of a world runs some code and then `barrier_all`. From the
    start, with every flag at `ROCSHMEM_SYNC_VALUE` and nothing in flight,
    once any PE has returned from `barrier_all`, every operation still in
    flight, from any PE to any PE, was posted by `barrier_all` itself:
    nothing posted before it is still on its way. -/
theorem barrier_all_no_earlier_write_in_flight [DecidableEq A] {prog : AsyncPgas.Prog A Nat α}
    {numPes : Nat} {pre : Nat → List (NetInstr A α)} (hs : BarrierAllAfter prog numPes pre)
    {m : Pgas.Memory A Nat α} (hm : ∀ p x, m.flag p x = syncValue)
    {c : AsyncPgas.Config A Nat α} (hc : Reachable (AsyncPgas.Step prog) (Config.start m) c)
    {j : Nat} (hj : j < numPes) (hdone : AsyncPgas.Done prog c j) :
    ∀ p < numPes, ∀ d op, op ∈ c.sent p d →
      ∃ n, (pre p).length ≤ n ∧ (prog p)[n]? = some (.putNbi d op) := by
  intro p hp d op hop
  -- Every PE has passed the quiet before its barrier.
  have hentered := hs.syncsAfter.members_entered Nat.one_pos hm hc hj
    (by rwa [Nat.zero_add, Nat.one_mul]) p hp
  rw [Nat.zero_add, Nat.one_mul, List.length_append, quietAll, List.length_map,
    List.length_range] at hentered
  have hP := posted_reachable (fun _ _ => rfl) hc
  obtain ⟨n, -, hpost⟩ := hP.posted hop
  by_cases hpre : n < (pre p).length
  · -- A post of the code before went to a PE of the world, whose queue the quiet drained.
    rw [hs.member p hp, List.getElem?_append_left hpre] at hpost
    have hd : d < numPes := hs.pre_targets p hp d op (List.mem_of_getElem? hpost)
    obtain ⟨n', hlt, -, hpost'⟩ := hP.lt_of_quietTo hop (hs.getElem?_quiet hp hd) (by omega)
    exact ⟨n', by omega, hpost'⟩
  · exact ⟨n, by omega, hpost⟩

/-- Two PEs, each putting one element to the other and then calling
    `barrier_all`. -/
def putThenBarrierAll : AsyncPgas.Prog Unit Nat Unit := fun p =>
  if p < 2 then [.putNbi (1 - p) (.data () ())] ++ barrierAll ⟨p, 2⟩ else []

/-- In a world of two, PE 0 returns from `barrier_all` with its release of
    PE 1 still in flight, and nothing of the puts before. -/
theorem put_then_barrier_all_leaves_only_barrier_writes :
    ∃ c, Reachable (AsyncPgas.Step putThenBarrierAll) (Config.start restMemory) c ∧
      AsyncPgas.Done putThenBarrierAll c 0 ∧
      ∀ p < 2, ∀ d op, op ∈ c.sent p d →
        ∃ n, 1 ≤ n ∧ (putThenBarrierAll p)[n]? = some (.putNbi d op) := by
  -- Both put, the puts arrive, both quiet, PE 1 marks, the mark arrives, PE 0 finishes.
  have hsome : (AsyncPgas.run putThenBarrierAll (Config.start restMemory)
      [.pe 0, .pe 1, .nic 0 1, .nic 1 0, .pe 0, .pe 0, .pe 1, .pe 1, .pe 1, .nic 1 0,
        .pe 0, .pe 0, .pe 0]).isSome := by
    decide
  obtain ⟨c, hc⟩ := Option.isSome_iff_exists.mp hsome
  have hpc : (AsyncPgas.run putThenBarrierAll (Config.start restMemory)
      [.pe 0, .pe 1, .nic 0 1, .nic 1 0, .pe 0, .pe 0, .pe 1, .pe 1, .pe 1, .nic 1 0,
        .pe 0, .pe 0, .pe 0]).map (fun c => c.pc 0) = some 6 := by
    decide
  rw [hc, Option.map_some, Option.some.injEq] at hpc
  have hreach := AsyncPgas.reachable_of_run hc
  have hdone : AsyncPgas.Done putThenBarrierAll c 0 := by
    rw [AsyncPgas.Done, hpc]
    decide
  have hs : BarrierAllAfter putThenBarrierAll 2 fun p => [.putNbi (1 - p) (.data () ())] :=
    ⟨fun p hp => by rw [putThenBarrierAll, if_pos hp],
      fun p _ i hi => by
        rw [List.mem_singleton] at hi
        rw [hi]
        rfl,
      fun p _ d op hi => by
        rw [List.mem_singleton, Instr.putNbi.injEq] at hi
        omega,
      fun p hp => by rw [putThenBarrierAll, if_neg (by omega)]⟩
  have h := barrier_all_no_earlier_write_in_flight hs (fun _ _ => rfl) hreach (by decide) hdone
  exact ⟨c, hreach, hdone, h⟩

end GPUIBContext

end RocShmem
