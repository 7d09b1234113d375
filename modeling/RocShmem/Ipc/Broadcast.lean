import RocShmem.Ipc.Barrier

/-!
# The IPC Broadcast

`IPCContext::broadcast` (`ipc/context_ipc_tmpl_device.hpp`) copies `nelems`
elements of the root's `source` into every other member's `dest`, then
synchronises the team on its `bcast_pSync` slice. Which side moves the data
depends on the world's size, not the team's: below four PEs the root puts
into every member (`internal_put_broadcast`), from four on every other
member gets from the root (`internal_get_broadcast`).

The get happens as soon as a member enters, with nothing between it and
the root's own entry: a member can read the root's `source` before the
root's last write to it, and the closing barrier does not undo that
(`broadcast_get_reads_before_root_write`).

## Main definitions

* `internalPutBroadcast`, `internalGetBroadcast`, `internalBroadcast`: The
  two ways of moving the data, and the choice with the closing barrier.
* `IPCContext.broadcast`: The API call.

## Theorems

* `broadcast_get_reads_before_root_write`: On the get path, a member ends
  with a value of the root's source older than the root's call.
-/

namespace RocShmem

variable {α : Type}

/-- `internal_put_broadcast(dest + dst, source + src, nelems, pe_root,
    pe_start, stride, pe_size)`: the root puts into every other member. -/
def internalPutBroadcast (ctx : IPCContext) (dst src nelems peRoot peStart stride peSize : Nat) :
    List (IpcInstr α) :=
  if ctx.myPe = peRoot then
    (List.range' peStart peSize stride).flatMap fun i =>
      if i ≠ ctx.myPe then putmemElems ctx.myPe .dest dst .source src nelems i else []
  else []

/-- `internal_get_broadcast(dest + dst, source + src, nelems, pe_root)`:
    every PE but the root gets from the root. -/
def internalGetBroadcast (ctx : IPCContext) (dst src nelems peRoot : Nat) : List (IpcInstr α) :=
  if ctx.myPe ≠ peRoot then getmemElems ctx.myPe .dest dst .source src nelems peRoot else []

/-- `internal_broadcast`: put below four PEs in the world, get from four on,
    then `internal_sync` on `p_sync`. -/
def internalBroadcast (ctx : IPCContext) (dst src nelems peRoot peStart stride peSize : Nat)
    (pSync : SyncArray) : List (IpcInstr α) :=
  (if ctx.numPes < 4 then internalPutBroadcast ctx dst src nelems peRoot peStart stride peSize
    else internalGetBroadcast ctx dst src nelems peRoot) ++
    internalSync ctx.myPe peStart stride peSize pSync

/-- `IPCContext::broadcast(team, dest + dst, source + src, nelems, pe_root)`
    with `pe_root` a team rank. -/
def IPCContext.broadcast (ctx : IPCContext) (team : IPCTeam) (dst src nelems peRoot : Nat) :
    List (IpcInstr α) :=
  internalBroadcast ctx dst src nelems (team.getPeInWorld peRoot) team.peStart team.stride
    team.size (.bcastPSync team.poolIndex)

/-- A world of four PEs broadcasting one element of PE 0's `source` over the
    world team. PE 0 writes `5` into `source[0]` and then calls `broadcast`;
    the others call it at once. -/
def broadcastAfterWrite : Pgas.Prog DataAddr FlagAddr Int := fun p =>
  if p < 4 then
    (if p = 0 then [.store (.source, 0) 5] else []) ++
      IPCContext.broadcast ⟨p, 4⟩ (IPCTeam.ofTeam (teamWorld 4 p) p 0) 0 0 1 0
  else []

/-- On the get path, PE 1 gets `source[0]` from PE 0 before PE 0's write of
    `5` to it; every member then returns from the barrier, and PE 1's
    `dest[0]` holds the old `0`, not what the root wrote before its call. -/
theorem broadcast_get_reads_before_root_write :
    ∃ c, Pgas.Reachable broadcastAfterWrite (initConfig fun _ _ => 0) c ∧
      (∀ p < 4, Pgas.Done broadcastAfterWrite c p) ∧
      c.mem.data 0 (.source, 0) = 5 ∧ c.mem.data 1 (.dest, 0) = 0 := by
  -- PE 1 gets first, then PE 0 writes; then the barrier runs to the end.
  let sched := [1, 0, 2, 3, 1, 2, 3, 0, 0, 0, 0, 0, 0, 0, 0, 0, 1, 1, 2, 2, 3, 3]
  have hsome : (Pgas.run broadcastAfterWrite (initConfig fun _ _ => 0) sched).isSome := by
    decide
  obtain ⟨c, hc⟩ := Option.isSome_iff_exists.mp hsome
  have hview : (Pgas.run broadcastAfterWrite (initConfig fun _ _ => 0) sched).map
      (fun c => ((List.range 4).all fun p => decide (Pgas.Done broadcastAfterWrite c p),
        c.mem.data 0 (.source, 0), c.mem.data 1 (.dest, 0))) = some (true, 5, 0) := by
    decide
  rw [hc, Option.map_some, Option.some.injEq, Prod.mk.injEq, Prod.mk.injEq] at hview
  obtain ⟨hdone, hsrc, hdst⟩ := hview
  refine ⟨c, Pgas.reachable_of_run hc, fun p hp => ?_, hsrc, hdst⟩
  exact of_decide_eq_true (List.all_eq_true.mp hdone p (List.mem_range.mpr hp))

end RocShmem
