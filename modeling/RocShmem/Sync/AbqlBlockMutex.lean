import Mathlib.Logic.Function.Basic
import Mathlib.Tactic.Simps.Basic
import RocShmem.Lib.Transition

/-!
# The ABQL Block Mutex

`ABQLBlockMutex` is an array-based queue lock. `lock()` takes a ticket with
an `atomicAdd` on `ticket_` and spins until the slot `turns_[ticket % 32]`
holds its ticket; `unlock(ticket)` stores `ticket + 1` into the slot of the
next ticket. The 32 slots sit on different memory channels, so waiters do
not all spin on one word; but tickets `t` and `t + 32` share a slot.

The lock is modelled together with the threads that use it (`LockSystem`):
each thread is idle, waiting with a ticket, or holding the lock with one,
and a step is one atomic action of one thread, the ticket's `atomicAdd`, the
read of `wait_turn_` that finds its turn, or the store of `unlock`. A read
that does not find its turn changes nothing and is not a step. The system
also records, as history that no step reads, the tickets `lock()` returned
and `unlock()` was given, in order.

Tickets are numbers: the source's are 64-bit, and wrap only after `2 ^ 64`
calls of `lock()`.

The invariant (`LockInv`) is the queue discipline. With `s` the number of
released tickets, slot `s % 32` holds `s`, and every other slot holds a
value that no ticket at or above `s` that maps to it has; so the only
waiter that can find its turn is the one with ticket `s`. Tickets in use are
distinct and lie between `s` and `ticket_`, and a thread inside holds `s`.

## Main definitions

* `ABQLBlockMutex`: The lock's memory, and its operations.
* `LockSystem`, `LockStep`: The lock with its threads, and their steps.
* `LockInv`: The queue discipline.

## Theorems

* `LockInv.enter_served`: The waiter that finds its turn holds the next
  ticket to be served.
* `lockInv_reachable`: The queue discipline holds in every reachable state.
* `abql_block_mutex_fifo_exclusion`: One thread inside at a time, entering
  in ticket order, each after all earlier tickets were released.
-/

namespace RocShmem

open Transition

/-- `memory_channels_`: the number of slots of `turns_`. -/
def memoryChannels : Nat := 32

/-- The lock's memory: `ticket_` and the `vol_` field of each slot of
    `turns_`. Only slots below `memoryChannels` are read or written. -/
structure ABQLBlockMutex where
  ticket : Nat
  turns : Nat → Nat

namespace ABQLBlockMutex

/-- A fresh lock: `ticket_{0}` and every `vol_{0}`. -/
def init : ABQLBlockMutex := ⟨0, fun _ => 0⟩

/-- `grab_ticket_`: the `atomicAdd` on `ticket_`, which returns the old
    value. -/
def grabTicket (m : ABQLBlockMutex) : Nat × ABQLBlockMutex :=
  (m.ticket, { m with ticket := m.ticket + 1 })

/-- `is_turn_`: the slot of `ticket` holds it. `wait_turn_` spins until
    this read succeeds. -/
def isTurn (m : ABQLBlockMutex) (ticket : Nat) : Bool :=
  m.turns (ticket % memoryChannels) == ticket

/-- `signal_next_`: the store of `ticket` into its slot. -/
def signalNext (m : ABQLBlockMutex) (ticket : Nat) : ABQLBlockMutex :=
  { m with turns := fun i => if i = ticket % memoryChannels then ticket else m.turns i }

/-- `unlock`: signal the ticket after `myTicket`. -/
def unlock (m : ABQLBlockMutex) (myTicket : Nat) : ABQLBlockMutex :=
  m.signalNext (myTicket + 1)

@[simp] theorem grabTicket_fst (m : ABQLBlockMutex) : m.grabTicket.1 = m.ticket := rfl

@[simp] theorem grabTicket_turns (m : ABQLBlockMutex) : m.grabTicket.2.turns = m.turns := rfl

@[simp] theorem grabTicket_ticket (m : ABQLBlockMutex) :
    m.grabTicket.2.ticket = m.ticket + 1 := rfl

@[simp] theorem unlock_ticket (m : ABQLBlockMutex) (t : Nat) : (m.unlock t).ticket = m.ticket := rfl

theorem unlock_turns (m : ABQLBlockMutex) (t i : Nat) :
    (m.unlock t).turns i = if i = (t + 1) % memoryChannels then t + 1 else m.turns i := rfl

theorem isTurn_iff (m : ABQLBlockMutex) (t : Nat) :
    m.isTurn t = true ↔ m.turns (t % memoryChannels) = t := by
  simp [isTurn]

end ABQLBlockMutex

/-- Where a thread is in its `lock()`/`unlock()` pairs. -/
inductive LockPc where
  /-- Before `lock()`, or after `unlock()`. -/
  | idle
  /-- `grab_ticket_` returned `ticket`; spinning in `wait_turn_`. -/
  | waiting (ticket : Nat)
  /-- `lock()` returned `ticket`. -/
  | holding (ticket : Nat)
deriving DecidableEq, Repr

/-- The ticket a thread has taken and not yet passed on. -/
@[simp]
def LockPc.ticket? : LockPc → Option Nat
  | .idle => none
  | .waiting t | .holding t => some t

/-- The lock, the threads `τ` that use it, and the tickets `lock()`
    returned (`entered`) and `unlock()` was given (`released`), in order. -/
structure LockSystem (τ : Type) where
  mutex : ABQLBlockMutex
  pc : τ → LockPc
  entered : List Nat
  released : List Nat

variable {τ : Type}

/-- A fresh lock, every thread idle. -/
def LockSystem.init : LockSystem τ := ⟨ABQLBlockMutex.init, fun _ => .idle, [], []⟩

/-- The queue discipline, with `s.released.length` the number of tickets
    released so far. -/
structure LockInv (s : LockSystem τ) : Prop where
  released_eq : s.released = List.range s.released.length
  served_le : s.released.length ≤ s.mutex.ticket
  turn_served : s.mutex.turns (s.released.length % memoryChannels) = s.released.length
  turn_other : ∀ j t, j ≠ s.released.length % memoryChannels → s.released.length ≤ t →
    t % memoryChannels = j → s.mutex.turns j ≠ t
  ticket_range : ∀ p t, (s.pc p).ticket? = some t → s.released.length ≤ t ∧ t < s.mutex.ticket
  ticket_unique : ∀ p q t, (s.pc p).ticket? = some t → (s.pc q).ticket? = some t → p = q
  holding_served : ∀ p t, s.pc p = .holding t → t = s.released.length
  entered_eq : s.entered = List.range s.entered.length
  entered_of_holding : ∀ p t, s.pc p = .holding t → s.entered.length = t + 1
  entered_of_free : (∀ p t, s.pc p ≠ .holding t) → s.entered.length = s.released.length

theorem lockInv_init : LockInv (LockSystem.init : LockSystem τ) where
  released_eq := rfl
  served_le := Nat.zero_le _
  turn_served := rfl
  turn_other := fun _ t hj _ hslot h0 => by
    -- Every slot holds `0`, and ticket `0` lives in the served slot.
    have ht : t = 0 := h0.symm
    subst ht
    exact hj hslot.symm
  ticket_range := fun _ _ h => by simp [LockSystem.init, LockPc.ticket?] at h
  ticket_unique := fun _ _ _ h => by simp [LockSystem.init, LockPc.ticket?] at h
  holding_served := fun _ _ h => by simp [LockSystem.init] at h
  entered_eq := rfl
  entered_of_holding := fun _ _ h => by simp [LockSystem.init] at h
  entered_of_free := fun _ => rfl

namespace LockInv

variable {s : LockSystem τ}

theorem holding_unique (hs : LockInv s) {p q : τ} {t t' : Nat} (hp : s.pc p = .holding t)
    (hq : s.pc q = .holding t') : p = q := by
  have ht : t = t' := by rw [hs.holding_served p t hp, hs.holding_served q t' hq]
  subst ht
  exact hs.ticket_unique p q t (by simp [hp, LockPc.ticket?]) (by simp [hq, LockPc.ticket?])

/-- The waiter that finds its turn holds the ticket to be served next: a
    slot other than the served one holds no waiting ticket, and the served
    slot holds the served ticket. -/
theorem enter_served (hs : LockInv s) {p : τ} {t : Nat} (hp : s.pc p = .waiting t)
    (hturn : s.mutex.isTurn t = true) : t = s.released.length := by
  rw [ABQLBlockMutex.isTurn_iff] at hturn
  have hge := (hs.ticket_range p t (by simp [hp, LockPc.ticket?])).1
  by_cases hslot : t % memoryChannels = s.released.length % memoryChannels
  · rw [hslot, hs.turn_served] at hturn
    exact hturn.symm
  · exact absurd hturn (hs.turn_other _ t hslot hge rfl)

end LockInv

variable [DecidableEq τ]

namespace LockSystem

/-- Thread `p` takes a ticket (`grab_ticket_`). -/
@[simps]
def grab (s : LockSystem τ) (p : τ) : LockSystem τ :=
  { s with
    mutex := s.mutex.grabTicket.2
    pc := Function.update s.pc p (.waiting s.mutex.grabTicket.1) }

/-- Thread `p`'s read of `wait_turn_` finds the turn of `t`; `lock()`
    returns it. -/
@[simps]
def enter (s : LockSystem τ) (p : τ) (t : Nat) : LockSystem τ :=
  { s with
    pc := Function.update s.pc p (.holding t)
    entered := s.entered ++ [t] }

/-- Thread `p` calls `unlock(t)`. -/
@[simps]
def release (s : LockSystem τ) (p : τ) (t : Nat) : LockSystem τ :=
  { s with
    mutex := s.mutex.unlock t
    pc := Function.update s.pc p .idle
    released := s.released ++ [t] }

end LockSystem

/-- One atomic action of one thread `p`. The steps of `lock()` are taken
    from idle, and `unlock` is given the ticket `lock()` returned. -/
inductive LockStep : LockSystem τ → LockSystem τ → Prop where
  | grab (s : LockSystem τ) (p : τ) (hp : s.pc p = .idle) : LockStep s (s.grab p)
  | enter (s : LockSystem τ) (p : τ) (t : Nat) (hp : s.pc p = .waiting t)
      (hturn : s.mutex.isTurn t = true) : LockStep s (s.enter p t)
  | release (s : LockSystem τ) (p : τ) (t : Nat) (hp : s.pc p = .holding t) :
      LockStep s (s.release p t)

/-- After one thread's change, that thread has the new value and every other
    the old one. -/
theorem update_cases {β : Type} (f : τ → β) (p q : τ) (v : β) :
    (q = p ∧ Function.update f p v q = v) ∨ (q ≠ p ∧ Function.update f p v q = f q) := by
  by_cases hq : q = p
  · subst hq
    exact Or.inl ⟨rfl, Function.update_self q v f⟩
  · exact Or.inr ⟨hq, Function.update_of_ne hq v f⟩

namespace LockInv

variable {s : LockSystem τ}

theorem grab (hs : LockInv s) {p : τ} (hp : s.pc p = .idle) : LockInv (s.grab p) := by
  -- The new ticket is the old `ticket_`, above every ticket in use.
  have hticket : ∀ q t, ((s.grab p).pc q).ticket? = some t →
      (q = p ∧ t = s.mutex.ticket) ∨ (s.pc q).ticket? = some t := by
    intro q t h
    rcases update_cases s.pc p q (.waiting s.mutex.ticket) with ⟨rfl, he⟩ | ⟨-, he⟩ <;>
      simp only [LockSystem.grab_pc, ABQLBlockMutex.grabTicket_fst, he] at h
    · exact Or.inl ⟨rfl, (Option.some.inj h).symm⟩
    · exact Or.inr h
  have hhold : ∀ q t, (s.grab p).pc q = .holding t → s.pc q = .holding t := by
    intro q t h
    rcases update_cases s.pc p q (.waiting s.mutex.ticket) with ⟨rfl, he⟩ | ⟨-, he⟩ <;>
      simp only [LockSystem.grab_pc, ABQLBlockMutex.grabTicket_fst, he] at h
    · exact LockPc.noConfusion h
    · exact h
  refine ⟨hs.released_eq, Nat.le_succ_of_le hs.served_le, hs.turn_served, hs.turn_other, ?_, ?_,
    fun q t h => hs.holding_served q t (hhold q t h), hs.entered_eq,
    fun q t h => hs.entered_of_holding q t (hhold q t h), ?_⟩
  · intro q t h
    simp only [LockSystem.grab_released, LockSystem.grab_mutex, ABQLBlockMutex.grabTicket_ticket]
    rcases hticket q t h with ⟨-, rfl⟩ | h
    · exact ⟨hs.served_le, Nat.lt_succ_self _⟩
    · have := hs.ticket_range q t h
      omega
  · intro q r t hq hr
    rcases hticket q t hq with ⟨hqp, hqt⟩ | hq' <;> rcases hticket r t hr with ⟨hrp, hrt⟩ | hr'
    · rw [hqp, hrp]
    · exact absurd (hs.ticket_range r t hr').2 (by rw [hqt]; exact Nat.lt_irrefl _)
    · exact absurd (hs.ticket_range q t hq').2 (by rw [hrt]; exact Nat.lt_irrefl _)
    · exact hs.ticket_unique q r t hq' hr'
  · intro hfree
    exact hs.entered_of_free fun q t h => by
      -- A holder keeps holding: the thread that moved was idle.
      refine hfree q t ?_
      rcases update_cases s.pc p q (.waiting s.mutex.ticket) with ⟨rfl, -⟩ | ⟨-, he⟩
      · rw [hp] at h
        exact LockPc.noConfusion h
      · rw [LockSystem.grab_pc, ABQLBlockMutex.grabTicket_fst, he, h]

theorem enter (hs : LockInv s) {p : τ} {t : Nat} (hp : s.pc p = .waiting t)
    (hturn : s.mutex.isTurn t = true) : LockInv (s.enter p t) := by
  have ht := hs.enter_served hp hturn
  -- Nobody holds the lock: a holder would have the served ticket, `p`'s.
  have hfree : ∀ q t', s.pc q ≠ .holding t' := by
    intro q t' hq
    have hqp : q = p := hs.ticket_unique q p t
      (by rw [hq, LockPc.ticket?, hs.holding_served q t' hq, ht]) (by rw [hp, LockPc.ticket?])
    rw [hqp, hp] at hq
    exact LockPc.noConfusion hq
  -- Every thread keeps its ticket; only `p` moves, from waiting to holding.
  have hticket : ∀ q, ((s.enter p t).pc q).ticket? = (s.pc q).ticket? := by
    intro q
    rcases update_cases s.pc p q (.holding t) with ⟨rfl, he⟩ | ⟨-, he⟩ <;>
      rw [LockSystem.enter_pc, he]
    rw [hp, LockPc.ticket?, LockPc.ticket?]
  have hhold : ∀ q t', (s.enter p t).pc q = .holding t' → q = p ∧ t' = t := by
    intro q t' h
    rcases update_cases s.pc p q (.holding t) with ⟨rfl, he⟩ | ⟨-, he⟩ <;>
      rw [LockSystem.enter_pc, he] at h
    · exact ⟨rfl, (LockPc.holding.inj h).symm⟩
    · exact absurd h (hfree q t')
  have hlen : s.entered.length = s.released.length := hs.entered_of_free hfree
  refine ⟨hs.released_eq, hs.served_le, hs.turn_served, hs.turn_other,
    fun q t' h => hs.ticket_range q t' (by rwa [← hticket q]),
    fun q r t' hq hr => hs.ticket_unique q r t' (by rwa [← hticket q]) (by rwa [← hticket r]),
    ?_, ?_, ?_, ?_⟩
  · intro q t' h
    rw [(hhold q t' h).2, ht, LockSystem.enter_released]
  · -- `lock()` returns the served ticket, the next after those entered.
    have hentered : s.entered = List.range s.released.length := by rw [hs.entered_eq, hlen]
    rw [LockSystem.enter_entered, hentered, ht, List.length_append, List.length_range,
      List.length_singleton, List.range_succ]
  · intro q t' h
    rw [(hhold q t' h).2, LockSystem.enter_entered, List.length_append, List.length_singleton, hlen,
      ht]
  · intro hnone
    exact absurd (by rw [LockSystem.enter_pc, Function.update_self]) (hnone p t)

theorem release (hs : LockInv s) {p : τ} {t : Nat} (hp : s.pc p = .holding t) :
    LockInv (s.release p t) := by
  have ht := hs.holding_served p t hp
  have hpt : (s.pc p).ticket? = some t := by rw [hp, LockPc.ticket?]
  have hlt := (hs.ticket_range p t hpt).2
  -- Every other thread keeps its ticket, which is not the released one.
  have hticket : ∀ q t', ((s.release p t).pc q).ticket? = some t' →
      (s.pc q).ticket? = some t' ∧ t' ≠ t := by
    intro q t' h
    rcases update_cases s.pc p q .idle with ⟨rfl, he⟩ | ⟨hqp, he⟩ <;>
      rw [LockSystem.release_pc, he] at h
    · exact absurd h (by simp)
    · refine ⟨h, fun htt => hqp ?_⟩
      rw [htt] at h
      exact hs.ticket_unique q p t h hpt
  -- Nobody holds the lock afterwards.
  have hfree : ∀ q t', (s.release p t).pc q ≠ .holding t' := by
    intro q t' h
    rcases update_cases s.pc p q .idle with ⟨rfl, he⟩ | ⟨hqp, he⟩ <;>
      rw [LockSystem.release_pc, he] at h
    · exact LockPc.noConfusion h
    · exact hqp (hs.holding_unique h hp)
  have hlen : (s.release p t).released.length = s.released.length + 1 := by
    rw [LockSystem.release_released, List.length_append, List.length_singleton]
  refine ⟨?_, ?_, ?_, ?_, ?_, ?_, fun q t' h => absurd h (hfree q t'), hs.entered_eq,
    fun q t' h => absurd h (hfree q t'), ?_⟩
  · rw [hlen, LockSystem.release_released, hs.released_eq, List.length_range, List.range_succ,
      ht]
  · rw [hlen, LockSystem.release_mutex, ABQLBlockMutex.unlock_ticket]
    omega
  · -- The store of `unlock` serves the next ticket.
    rw [hlen, LockSystem.release_mutex, ABQLBlockMutex.unlock_turns, ← ht, if_pos rfl]
  · -- Slot `s % 32` keeps `s`, which is below every later ticket; the other
    -- slots are as before.
    intro j t' hj hge hslot
    rw [hlen, ← ht] at hj hge
    rw [LockSystem.release_mutex, ABQLBlockMutex.unlock_turns, if_neg hj]
    by_cases hserved : j = t % memoryChannels
    · rw [hserved, ht, hs.turn_served]
      omega
    · exact hs.turn_other j t' (by rwa [← ht]) (by omega) hslot
  · intro q t' h
    obtain ⟨h, hne⟩ := hticket q t' h
    have := hs.ticket_range q t' h
    rw [hlen, LockSystem.release_mutex, ABQLBlockMutex.unlock_ticket]
    omega
  · intro q r t' hq hr
    exact hs.ticket_unique q r t' (hticket q t' hq).1 (hticket r t' hr).1
  · intro _
    rw [hlen, LockSystem.release_entered, hs.entered_of_holding p t hp, ht]

/-- One atomic step keeps the queue discipline. -/
theorem step (hs : LockInv s) {s' : LockSystem τ} (h : LockStep s s') : LockInv s' := by
  cases h with
  | grab p hp => exact hs.grab hp
  | enter p t hp hturn => exact hs.enter hp hturn
  | release p t hp => exact hs.release hp

end LockInv

/-- The queue discipline holds in every state the threads can reach. -/
theorem lockInv_reachable {s : LockSystem τ} (h : Reachable LockStep LockSystem.init s) :
    LockInv s :=
  Reachable.invariant lockInv_init (fun _ _ _ hs hstep => hs.step hstep) h

/-- The ABQL lock is a FIFO mutex for any set of threads and any interleaving
    of their atomic steps: at most one thread is between `lock()` and
    `unlock()`; `lock()` returns the tickets `0, 1, 2, ...` in that order; the
    thread holding ticket `t` entered after exactly the tickets `0, ..., t - 1`
    were released; and once the tickets below `n` are released, slot
    `n % 32` holds `n` and every other slot differs from every ticket at or
    above `n` that maps to it. -/
theorem abql_block_mutex_fifo_exclusion (s : LockSystem τ)
    (h : Reachable LockStep LockSystem.init s) :
    (∀ p q t t', s.pc p = .holding t → s.pc q = .holding t' → p = q) ∧
    s.entered = List.range s.entered.length ∧
    (∀ p t, s.pc p = .holding t → s.released = List.range t) ∧
    ∀ n, s.released = List.range n →
      s.mutex.turns (n % memoryChannels) = n ∧
      ∀ j t, j ≠ n % memoryChannels → n ≤ t → t % memoryChannels = j → s.mutex.turns j ≠ t := by
  have hs := lockInv_reachable h
  refine ⟨fun p q t t' hp hq => hs.holding_unique hp hq, hs.entered_eq, ?_, ?_⟩
  · intro p t hp
    rw [hs.released_eq, ← hs.holding_served p t hp]
  · intro n hn
    have hlen : s.released.length = n := by rw [hn, List.length_range]
    subst hlen
    exact ⟨hs.turn_served, hs.turn_other⟩

/-- Two threads: `true` took ticket `0` and holds the lock, `false` took
    ticket `1` and waits. -/
theorem abql_block_mutex_fifo_exclusion_two_threads :
    ∃ s : LockSystem Bool, Reachable LockStep LockSystem.init s ∧ s.pc true = .holding 0 ∧
      s.pc false = .waiting 1 ∧
      ((∀ p q t t', s.pc p = .holding t → s.pc q = .holding t' → p = q) ∧
        s.entered = List.range s.entered.length ∧
        (∀ p t, s.pc p = .holding t → s.released = List.range t) ∧
        ∀ n, s.released = List.range n →
          s.mutex.turns (n % memoryChannels) = n ∧
          ∀ j t, j ≠ n % memoryChannels → n ≤ t → t % memoryChannels = j →
            s.mutex.turns j ≠ t) := by
  have hreach : Reachable LockStep LockSystem.init
      (((LockSystem.init.grab true).grab false).enter true 0) :=
    ((Reachable.refl.tail (LockStep.grab _ true rfl)).tail (LockStep.grab _ false rfl)).tail
      (LockStep.enter _ true 0 rfl rfl)
  exact ⟨_, hreach, rfl, rfl, abql_block_mutex_fifo_exclusion _ hreach⟩

end RocShmem
