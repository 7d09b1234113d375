import RocShmem.Lib.Pgas
import RocShmem.Lib.Transition

/-!
# Processing Elements over an Asynchronous Network

The PEs of `Pgas` reach each other's memory through a network instead of
directly. A PE posts an operation to a destination (write a data cell, write
a flag, add to a flag) and goes on. The operation waits in the queue from
the PE to the destination, and the network delivers the operations of each
queue in the order they were posted, each at a time of its own, as a
reliable connection does. A PE can also wait for its queue to one
destination to drain (`quietTo`), write its own flags, and wait until a flag
of its own holds a value.

A step is a PE running its next instruction, if that instruction can run,
or the network delivering the oldest operation of one queue. Memory is
sequentially consistent and each step atomic, as in `Pgas`; what is new is
that a write reaches its destination at a time the interleaving picks.

Every proof over this semantics starts from `Posted`: whatever is in a queue
was posted by its PE at an instruction it has run, and the PE has not waited
for that queue to drain since. It holds in every reachable configuration
(`posted_reachable`), so an operation still in flight past a wait for its
queue was posted after the wait (`Posted.lt_of_quietTo`).

## Main definitions

* `Op`, `Instr`: What a PE posts, and its instructions.
* `Config`: Program counters, memory, and the operations in flight.
* `step`, `Config.deliver`, `Step`: A PE's step, the network's, and either.
* `run`: A given schedule of events, for exhibiting one interleaving.
* `inFlight`: How many operations in flight write a given flag.
* `Posted`: Everything in flight has been posted and not waited for.

## Theorems

* `step_cases`, `deliver_eq_some`: What each kind of step does, stated once.
* `step_putNbi`, `step_store`, `step_waitFlag`: What each instruction does.
* `step_flag_of_ne`, `step_inFlight_of_ne`, `deliver_flag_of_ne`,
  `inFlight_deliver`: What a step leaves of a flag and of what is in flight
  towards it.
* `step_pc_lt_iff_of_flagTarget`: Only the instruction that writes a flag
  moves its PE past it.
* `posted_reachable`: `Posted` holds in every reachable configuration.
* `Posted.lt_of_quietTo`: What is in flight past a wait for its queue was
  posted after the wait.
-/

namespace AsyncPgas

open Pgas (Memory)
open Transition

/-- An operation a PE posts to a destination PE: write data cell `a`, write
    flag `x`, or add to flag `x`. -/
inductive Op (A F α : Type) where
  | data (a : A) (v : α)
  | flag (x : F) (v : Int)
  | add (x : F) (v : Int)

/-- One instruction of a PE. The PE running it is `self`. -/
inductive Instr (A F α : Type) where
  /-- Post `op` to PE `pe` and go on. -/
  | putNbi (pe : Nat) (op : Op A F α)
  /-- Block until everything `self` posted to PE `pe` has been delivered. -/
  | quietTo (pe : Nat)
  /-- Flag `x` of `self` gets `v`. -/
  | store (x : F) (v : Int)
  /-- Block until flag `x` of `self` holds `v`. -/
  | waitFlag (x : F) (v : Int)

/-- A configuration: where each PE is in its program, the memory, and what
    each PE has posted to each destination and the network has not yet
    delivered, oldest first. -/
structure Config (A F α : Type) where
  pc : Nat → Nat
  mem : Memory A F α
  sent : Nat → Nat → List (Op A F α)

/-- The program of every PE. -/
abbrev Prog (A F α : Type) := Nat → List (Instr A F α)

variable {A F α : Type}

namespace Op

/-- The flag an operation writes on its destination, if any. -/
def flagTarget : Op A F α → Option F
  | data _ _ => none
  | flag x _ => some x
  | add x _ => some x

variable [DecidableEq A] [DecidableEq F]

/-- What an operation does on arriving at PE `pe`. -/
def apply (pe : Nat) (m : Memory A F α) : Op A F α → Memory A F α
  | data a v => m.setData pe a v
  | flag x v => m.setFlag pe x v
  | add x v => m.setFlag pe x (m.flag pe x + v)

/-- An operation changes no flag but its target on its destination. -/
theorem apply_flag_of_ne {pe q : Nat} {y : F} (m : Memory A F α) {op : Op A F α}
    (h : pe = q → op.flagTarget ≠ some y) : (op.apply pe m).flag q y = m.flag q y := by
  cases op with
  | data a v => rfl
  | flag x v =>
      refine Memory.setFlag_flag_of_ne m v fun heq => ?_
      obtain ⟨rfl, rfl⟩ := Prod.mk.inj heq
      exact h rfl rfl
  | add x v =>
      refine Memory.setFlag_flag_of_ne m _ fun heq => ?_
      obtain ⟨rfl, rfl⟩ := Prod.mk.inj heq
      exact h rfl rfl

end Op

namespace Instr

/-- The flag an instruction run by `self` writes, on which PE: a posted
    write or add, when it arrives, or a store. -/
def flagTarget (self : Nat) : Instr A F α → Option (Nat × F)
  | putNbi pe op => op.flagTarget.map fun x => (pe, x)
  | store x _ => some (self, x)
  | _ => none

@[simp] theorem flagTarget_putNbi_data (self pe : Nat) (a : A) (v : α) :
    (putNbi pe (.data a v) : Instr A F α).flagTarget self = none := rfl

@[simp] theorem flagTarget_putNbi_flag (self pe : Nat) (x : F) (v : Int) :
    (putNbi pe (.flag x v) : Instr A F α).flagTarget self = some (pe, x) := rfl

@[simp] theorem flagTarget_putNbi_add (self pe : Nat) (x : F) (v : Int) :
    (putNbi pe (.add x v) : Instr A F α).flagTarget self = some (pe, x) := rfl

@[simp] theorem flagTarget_quietTo (self pe : Nat) :
    (quietTo pe : Instr A F α).flagTarget self = none := rfl

@[simp] theorem flagTarget_store (self : Nat) (x : F) (v : Int) :
    (store x v : Instr A F α).flagTarget self = some (self, x) := rfl

@[simp] theorem flagTarget_waitFlag (self : Nat) (x : F) (v : Int) :
    (waitFlag x v : Instr A F α).flagTarget self = none := rfl

end Instr

namespace Config

/-- Every PE at the start of its program, nothing in flight. -/
def start (m : Memory A F α) : Config A F α := ⟨fun _ => 0, m, fun _ _ => []⟩

/-- `op` joins the back of the queue from `p` to `d`. -/
def post (c : Config A F α) (p d : Nat) (op : Op A F α) : Config A F α :=
  { c with sent := fun q e => if q = p ∧ e = d then c.sent p d ++ [op] else c.sent q e }

@[simp] theorem post_pc (c : Config A F α) (p d : Nat) (op : Op A F α) :
    (c.post p d op).pc = c.pc := rfl

@[simp] theorem post_mem (c : Config A F α) (p d : Nat) (op : Op A F α) :
    (c.post p d op).mem = c.mem := rfl

@[simp] theorem post_sent (c : Config A F α) (p d : Nat) (op : Op A F α) (q e : Nat) :
    (c.post p d op).sent q e = if q = p ∧ e = d then c.sent p d ++ [op] else c.sent q e := rfl

end Config

section Posted

variable {prog : Prog A F α}

/-- Instruction `n` of `l` posted `op` to `d`, and none of the instructions
    after it and before `pc` waits for the queue to `d`. -/
def PostedAt (l : List (Instr A F α)) (pc n d : Nat) (op : Op A F α) : Prop :=
  n < pc ∧ l[n]? = some (.putNbi d op) ∧ ∀ k, n < k → k < pc → l[k]? ≠ some (.quietTo d)

/-- Everything in flight from `p` to `d` was posted by an instruction `p`
    has run, and `p` has not waited for the queue to `d` since. -/
def Posted (prog : Prog A F α) (c : Config A F α) : Prop :=
  ∀ p d op, op ∈ c.sent p d → ∃ n, PostedAt (prog p) (c.pc p) n d op

theorem PostedAt.succ {l : List (Instr A F α)} {pc n d : Nat} {op : Op A F α}
    (h : PostedAt l pc n d op) (hpc : l[pc]? ≠ some (.quietTo d)) :
    PostedAt l (pc + 1) n d op := by
  obtain ⟨hn, hpost, hquiet⟩ := h
  refine ⟨by omega, hpost, fun k hnk hk => ?_⟩
  rcases Nat.lt_succ_iff_lt_or_eq.mp hk with hk | rfl
  · exact hquiet k hnk hk
  · exact hpc

/-- An operation in flight was posted by an instruction its PE has run. -/
theorem Posted.posted {c : Config A F α} (hP : Posted prog c) {p d : Nat} {op : Op A F α}
    (hop : op ∈ c.sent p d) : ∃ n < c.pc p, (prog p)[n]? = some (.putNbi d op) := by
  obtain ⟨n, hn, hpost, -⟩ := hP p d op hop
  exact ⟨n, hn, hpost⟩

/-- An operation still in flight after its PE passed a wait for its queue
    was posted after that wait. -/
theorem Posted.lt_of_quietTo {c : Config A F α} (hP : Posted prog c) {p d : Nat}
    {op : Op A F α} (hop : op ∈ c.sent p d) {kq : Nat}
    (hq : (prog p)[kq]? = some (.quietTo d)) (hpast : kq < c.pc p) :
    ∃ n, kq < n ∧ n < c.pc p ∧ (prog p)[n]? = some (.putNbi d op) := by
  obtain ⟨n, hn, hpost, hquiet⟩ := hP p d op hop
  refine ⟨n, ?_, hn, hpost⟩
  rcases Nat.lt_trichotomy kq n with hlt | rfl | hgt
  · exact hlt
  · rw [hq] at hpost
    exact absurd (Option.some.inj hpost) (by simp)
  · exact absurd hq (hquiet kq hgt hpast)

end Posted

variable [DecidableEq F]

namespace Instr

/-- Run one instruction as PE `self`: the new configuration, counters
    unchanged, or `none` while the instruction blocks. -/
def exec (self : Nat) (c : Config A F α) : Instr A F α → Option (Config A F α)
  | putNbi pe op => some (c.post self pe op)
  | quietTo pe => if (c.sent self pe).isEmpty then some c else none
  | store x v => some { c with mem := c.mem.setFlag self x v }
  | waitFlag x v => if c.mem.flag self x = v then some c else none

end Instr

/-- PE `p` runs its next instruction: the new configuration, or `none` when
    it has finished its program or its next instruction blocks. -/
def step (prog : Prog A F α) (p : Nat) (c : Config A F α) : Option (Config A F α) :=
  match (prog p)[c.pc p]? with
  | none => none
  | some i => (i.exec p c).map fun c' =>
      { c' with pc := fun q => if q = p then c.pc p + 1 else c.pc q }

/-- PE `p` has run its whole program. -/
def Done (prog : Prog A F α) (c : Config A F α) (p : Nat) : Prop := (prog p).length ≤ c.pc p

instance (prog : Prog A F α) (c : Config A F α) (p : Nat) : Decidable (Done prog c p) :=
  inferInstanceAs (Decidable (_ ≤ _))

/-- How many operations in flight from `p` to `q` write flag `f`. -/
def inFlight (c : Config A F α) (p q : Nat) (f : F) : Nat :=
  (c.sent p q).countP fun op => op.flagTarget = some f

/-- The inversion lemma of a PE's step: it ran the instruction at its
    program counter, which moved by one and nobody else's did, and the
    instruction posted, passed a drained queue, stored, or passed a wait. -/
theorem step_cases {prog : Prog A F α} {p : Nat} {c c' : Config A F α}
    (h : step prog p c = some c') :
    ∃ i, (prog p)[c.pc p]? = some i ∧ c'.pc p = c.pc p + 1 ∧
      (∀ q, q ≠ p → c'.pc q = c.pc q) ∧
      ((∃ d op, i = .putNbi d op ∧ c'.mem = c.mem ∧ c'.sent = (c.post p d op).sent) ∨
        (∃ d, i = .quietTo d ∧ c.sent p d = [] ∧ c'.mem = c.mem ∧ c'.sent = c.sent) ∨
        (∃ x v, i = .store x v ∧ c'.mem = c.mem.setFlag p x v ∧ c'.sent = c.sent) ∨
        (∃ x v, i = .waitFlag x v ∧ c.mem.flag p x = v ∧ c'.mem = c.mem ∧ c'.sent = c.sent)) := by
  unfold step at h
  split at h
  · exact absurd h (Option.some_ne_none _).symm
  · rename_i i hi
    obtain ⟨c₁, hexec, rfl⟩ := Option.map_eq_some_iff.mp h
    refine ⟨i, hi, by simp, fun q hq => by simp [hq], ?_⟩
    -- one case per instruction
    cases i with
    | putNbi d op =>
        obtain rfl := Option.some.inj hexec
        exact .inl ⟨d, op, rfl, rfl, rfl⟩
    | quietTo d =>
        simp only [Instr.exec] at hexec
        split at hexec
        · rename_i hd
          obtain rfl := Option.some.inj hexec
          exact .inr (.inl ⟨d, rfl, List.isEmpty_iff.mp hd, rfl, rfl⟩)
        · exact absurd hexec (Option.some_ne_none _).symm
    | store x v =>
        obtain rfl := Option.some.inj hexec
        exact .inr (.inr (.inl ⟨x, v, rfl, rfl, rfl⟩))
    | waitFlag x v =>
        simp only [Instr.exec] at hexec
        split at hexec
        · rename_i hv
          obtain rfl := Option.some.inj hexec
          exact .inr (.inr (.inr ⟨x, v, rfl, hv, rfl, rfl⟩))
        · exact absurd hexec (Option.some_ne_none _).symm

/-- A post adds one write of a flag to what is in flight towards it, if it
    writes that flag. -/
theorem inFlight_post (c : Config A F α) (p d : Nat) (op : Op A F α) (r q : Nat) (y : F) :
    inFlight (c.post p d op) r q y =
      inFlight c r q y + if r = p ∧ q = d ∧ op.flagTarget = some y then 1 else 0 := by
  unfold inFlight
  rw [Config.post_sent]
  by_cases hrd : r = p ∧ q = d
  · obtain ⟨rfl, rfl⟩ := hrd
    simp [List.countP_append]
  · have hne : ¬(r = p ∧ q = d ∧ op.flagTarget = some y) := fun h => hrd ⟨h.1, h.2.1⟩
    rw [if_neg hrd, if_neg hne, Nat.add_zero]

section Instructions

variable {prog : Prog A F α} {p : Nat} {c c' : Config A F α}

/-- A post changes no memory and adds its operation to its queue. -/
theorem step_putNbi (h : step prog p c = some c') {d : Nat} {op : Op A F α}
    (hi : (prog p)[c.pc p]? = some (.putNbi d op)) :
    c'.mem = c.mem ∧ ∀ r q y, inFlight c' r q y = inFlight (c.post p d op) r q y := by
  obtain ⟨i, hi', -, -, hcase⟩ := step_cases h
  rw [hi, Option.some.injEq] at hi'
  subst hi'
  rcases hcase with ⟨d', op', heq, hmem, hsent⟩ | ⟨_, heq, -⟩ | ⟨_, _, heq, -⟩ |
    ⟨_, _, heq, -⟩
  · cases heq
    exact ⟨hmem, fun r q y => by rw [inFlight, hsent]; rfl⟩
  all_goals cases heq

/-- A store writes its flag and leaves the queues. -/
theorem step_store (h : step prog p c = some c') {x : F} {v : Int}
    (hi : (prog p)[c.pc p]? = some (.store x v)) :
    c'.mem = c.mem.setFlag p x v ∧ c'.sent = c.sent := by
  obtain ⟨i, hi', -, -, hcase⟩ := step_cases h
  rw [hi, Option.some.injEq] at hi'
  subst hi'
  rcases hcase with ⟨_, _, heq, -⟩ | ⟨_, heq, -⟩ | ⟨x', v', heq, hmem, hsent⟩ |
    ⟨_, _, heq, -⟩
  · cases heq
  · cases heq
  · cases heq
    exact ⟨hmem, hsent⟩
  · cases heq

/-- A wait passes only when its flag holds the value, and changes nothing. -/
theorem step_waitFlag (h : step prog p c = some c') {x : F} {v : Int}
    (hi : (prog p)[c.pc p]? = some (.waitFlag x v)) :
    c.mem.flag p x = v ∧ c'.mem = c.mem ∧ c'.sent = c.sent := by
  obtain ⟨i, hi', -, -, hcase⟩ := step_cases h
  rw [hi, Option.some.injEq] at hi'
  subst hi'
  rcases hcase with ⟨_, _, heq, -⟩ | ⟨_, heq, -⟩ | ⟨_, _, heq, -⟩ |
    ⟨x', v', heq, hv, hmem, hsent⟩
  · cases heq
  · cases heq
  · cases heq
  · cases heq
    exact ⟨hv, hmem, hsent⟩

/-- A PE's step touches no other PE's queues. -/
theorem step_sent_of_ne (h : step prog p c = some c') {r : Nat} (hr : r ≠ p) (e : Nat) :
    c'.sent r e = c.sent r e := by
  obtain ⟨i, -, -, -, hcase⟩ := step_cases h
  rcases hcase with ⟨d, op, -, -, hsent⟩ | ⟨d, -, -, -, hsent⟩ | ⟨x, v, -, -, hsent⟩ |
    ⟨x, v, -, -, -, hsent⟩
  · rw [hsent, Config.post_sent, if_neg fun h => hr h.1]
  all_goals rw [hsent]

/-- A PE's step changes no flag but the one its instruction writes. -/
theorem step_flag_of_ne (h : step prog p c = some c') {i : Instr A F α}
    (hi : (prog p)[c.pc p]? = some i) {q : Nat} {y : F} (hx : i.flagTarget p ≠ some (q, y)) :
    c'.mem.flag q y = c.mem.flag q y := by
  obtain ⟨i', hi', -, -, hcase⟩ := step_cases h
  rw [hi, Option.some.injEq] at hi'
  subst hi'
  rcases hcase with ⟨d, op, -, hmem, -⟩ | ⟨d, -, -, hmem, -⟩ | ⟨x, v, rfl, hmem, -⟩ |
    ⟨x, v, -, -, hmem, -⟩
  · rw [hmem]
  · rw [hmem]
  · -- A store writes the flag it names.
    rw [hmem]
    exact Memory.setFlag_flag_of_ne c.mem v fun heq => hx (by rw [← heq]; rfl)
  · rw [hmem]

/-- A PE's step adds to what is in flight towards a flag only by posting a
    write to it. -/
theorem step_inFlight_of_ne (h : step prog p c = some c') {i : Instr A F α}
    (hi : (prog p)[c.pc p]? = some i) {q : Nat} {y : F} (hx : i.flagTarget p ≠ some (q, y))
    (r : Nat) : inFlight c' r q y = inFlight c r q y := by
  obtain ⟨i', hi', -, -, hcase⟩ := step_cases h
  rw [hi, Option.some.injEq] at hi'
  subst hi'
  rcases hcase with ⟨d, op, rfl, -, hsent⟩ | ⟨d, -, -, -, hsent⟩ | ⟨x, v, -, -, hsent⟩ |
    ⟨x, v, -, -, -, hsent⟩
  · -- The posted operation writes another flag, or the same flag on another PE.
    have hop : ¬(r = p ∧ q = d ∧ op.flagTarget = some y) := fun ⟨_, hqd, hy⟩ =>
      hx (by simp [Instr.flagTarget, hy, hqd])
    rw [show inFlight c' r q y = inFlight (c.post p d op) r q y by rw [inFlight, hsent]; rfl,
      inFlight_post, if_neg hop, Nat.add_zero]
  all_goals rw [inFlight, hsent]; rfl

end Instructions

/-- A PE's step moves a counter past a threshold `t` only by running the
    instruction at `t`. -/
theorem step_pc_lt_iff {prog : Prog A F α} {p : Nat} {c c' : Config A F α}
    (h : step prog p c = some c') {r t : Nat} (hrt : r = p → c.pc p ≠ t) :
    t < c'.pc r ↔ t < c.pc r := by
  obtain ⟨-, -, hself, hother, -⟩ := step_cases h
  by_cases hr : r = p
  · subst hr
    have hne := hrt rfl
    rw [hself]
    omega
  · rw [hother r hr]

/-- A step whose instruction does not write flag `y` of `q` moves no
    counter past an instruction that does. -/
theorem step_pc_lt_iff_of_flagTarget {prog : Prog A F α} {p : Nat} {c c' : Config A F α}
    (h : step prog p c = some c') {i : Instr A F α} (hi : (prog p)[c.pc p]? = some i) {q : Nat}
    {y : F} (hx : i.flagTarget p ≠ some (q, y)) {r k : Nat} {i' : Instr A F α}
    (hk : (prog r)[k]? = some i') (hk' : i'.flagTarget r = some (q, y)) :
    k < c'.pc r ↔ k < c.pc r := by
  refine step_pc_lt_iff h fun hrp hpk => hx ?_
  subst hrp
  rw [hpk, hk, Option.some.injEq] at hi
  rw [← hi]
  exact hk'

/-- A PE's step keeps `Posted`: a post adds an operation posted now, a wait
    for a queue finds it empty, and nothing else touches a queue. -/
theorem Posted.step {prog : Prog A F α} {c c' : Config A F α} {p : Nat} (hP : Posted prog c)
    (h : step prog p c = some c') : Posted prog c' := by
  obtain ⟨i, hi, hself, hother, hcase⟩ := step_cases h
  intro r e op' hop
  by_cases hrp : r = p
  · subst hrp
    rw [hself]
    rcases hcase with ⟨d, op, rfl, -, hsent⟩ | ⟨d, rfl, hd, -, hsent⟩ | ⟨x, v, rfl, -, hsent⟩ |
      ⟨x, v, rfl, -, -, hsent⟩
    · rw [hsent, Config.post_sent] at hop
      by_cases hed : r = r ∧ e = d
      · rw [if_pos hed] at hop
        obtain ⟨-, rfl⟩ := hed
        rcases List.mem_append.mp hop with hold | hnew
        · obtain ⟨n, hn⟩ := hP r e op' hold
          exact ⟨n, hn.succ (by rw [hi]; simp)⟩
        · -- The operation posted by this very step.
          rw [List.mem_singleton] at hnew
          subst hnew
          exact ⟨c.pc r, by omega, hi, fun k hk hk' => absurd hk' (by omega)⟩
      · rw [if_neg hed] at hop
        obtain ⟨n, hn⟩ := hP r e op' hop
        exact ⟨n, hn.succ (by rw [hi]; simp)⟩
    · rw [hsent] at hop
      -- The drained queue holds nothing; a wait for another queue is no wait for this one.
      by_cases hed : e = d
      · subst hed
        rw [hd] at hop
        exact absurd hop List.not_mem_nil
      · obtain ⟨n, hn⟩ := hP r e op' hop
        exact ⟨n, hn.succ (by rw [hi]; simp [Ne.symm hed])⟩
    · rw [hsent] at hop
      obtain ⟨n, hn⟩ := hP r e op' hop
      exact ⟨n, hn.succ (by rw [hi]; simp)⟩
    · rw [hsent] at hop
      obtain ⟨n, hn⟩ := hP r e op' hop
      exact ⟨n, hn.succ (by rw [hi]; simp)⟩
  · -- Another PE's queues and counter are untouched.
    have hsent : c'.sent r e = c.sent r e := by
      rcases hcase with ⟨d, op, -, -, hsent⟩ | ⟨d, -, -, -, hsent⟩ | ⟨x, v, -, -, hsent⟩ |
        ⟨x, v, -, -, -, hsent⟩
      · rw [hsent, Config.post_sent, if_neg fun h => hrp h.1]
      all_goals rw [hsent]
    rw [hsent] at hop
    rw [hother r hrp]
    exact hP r e op' hop

variable [DecidableEq A]

/-- The network delivers the oldest operation from `p` to `d`, if there is
    one. -/
def Config.deliver (c : Config A F α) (p d : Nat) : Option (Config A F α) :=
  match c.sent p d with
  | [] => none
  | op :: rest =>
      some ⟨c.pc, op.apply d c.mem, fun q e => if q = p ∧ e = d then rest else c.sent q e⟩

/-- Who moves: a PE, or the network on the queue from `p` to `d`. -/
inductive Event where
  | pe (p : Nat)
  | nic (p d : Nat)
deriving DecidableEq, Repr

/-- The configuration after an event, if it can happen. -/
def next (prog : Prog A F α) (c : Config A F α) : Event → Option (Config A F α)
  | .pe p => step prog p c
  | .nic p d => c.deliver p d

/-- Some PE or the network takes one step. -/
def Step (prog : Prog A F α) (c c' : Config A F α) : Prop := ∃ e, next prog c e = some c'

/-- Run the events in the order the schedule names them; `none` as soon as
    one cannot happen. -/
def run (prog : Prog A F α) : Config A F α → List Event → Option (Config A F α)
  | c, [] => some c
  | c, e :: es =>
      match next prog c e with
      | none => none
      | some c' => run prog c' es

/-- The inversion lemma of the network's step: the oldest operation of the
    queue arrives and leaves the queue. -/
theorem deliver_eq_some {c c' : Config A F α} {p d : Nat} (h : c.deliver p d = some c') :
    ∃ op rest, c.sent p d = op :: rest ∧ c'.pc = c.pc ∧ c'.mem = op.apply d c.mem ∧
      c'.sent = fun q e => if q = p ∧ e = d then rest else c.sent q e := by
  unfold Config.deliver at h
  split at h
  · exact absurd h (Option.some_ne_none _).symm
  · rename_i op rest hsent
    obtain rfl := Option.some.inj h
    exact ⟨op, rest, hsent, rfl, rfl, rfl⟩

/-- The network's step changes no flag but the target of what arrives. -/
theorem deliver_flag_of_ne {c c' : Config A F α} {p d : Nat} (h : c.deliver p d = some c')
    {op : Op A F α} {rest : List (Op A F α)} (hsent : c.sent p d = op :: rest) {q : Nat} {y : F}
    (hx : d = q → op.flagTarget ≠ some y) : c'.mem.flag q y = c.mem.flag q y := by
  obtain ⟨op', rest', hsent', -, hmem, -⟩ := deliver_eq_some h
  rw [hsent] at hsent'
  obtain ⟨rfl, rfl⟩ := List.cons.inj hsent'
  rw [hmem]
  exact Op.apply_flag_of_ne c.mem hx

/-- What the network's step takes out of flight: the operation that arrives. -/
theorem inFlight_deliver {c c' : Config A F α} {p d : Nat} (h : c.deliver p d = some c')
    {op : Op A F α} {rest : List (Op A F α)} (hsent : c.sent p d = op :: rest) (r q : Nat)
    (y : F) :
    inFlight c' r q y + (if r = p ∧ q = d ∧ op.flagTarget = some y then 1 else 0) =
      inFlight c r q y := by
  obtain ⟨op', rest', hsent', -, -, hsent''⟩ := deliver_eq_some h
  rw [hsent] at hsent'
  obtain ⟨rfl, rfl⟩ := List.cons.inj hsent'
  unfold inFlight
  rw [hsent'']
  by_cases hrq : r = p ∧ q = d
  · obtain ⟨rfl, rfl⟩ := hrq
    simp only [and_self, if_true, hsent, List.countP_cons, true_and, decide_eq_true_eq]
  · have hne : ¬(r = p ∧ q = d ∧ op.flagTarget = some y) := fun h => hrq ⟨h.1, h.2.1⟩
    simp only [if_neg hrq, if_neg hne, Nat.add_zero]

theorem reachable_of_run {prog : Prog A F α} {c c' : Config A F α} {es : List Event}
    (h : run prog c es = some c') : Reachable (Step prog) c c' := by
  induction es generalizing c with
  | nil =>
      simp only [run, Option.some.injEq] at h
      subst h
      exact Reachable.refl
  | cons e es ih =>
      simp only [run] at h
      split at h
      · exact absurd h (Option.some_ne_none _).symm
      · rename_i c'' hnext
        exact Relation.ReflTransGen.head ⟨e, hnext⟩ (ih h)

/-- The network's step keeps `Posted`: it only takes from a queue. -/
theorem Posted.deliver {prog : Prog A F α} {c c' : Config A F α} {p d : Nat}
    (hP : Posted prog c) (h : c.deliver p d = some c') : Posted prog c' := by
  obtain ⟨op, rest, hsent, hpc, -, hsent'⟩ := deliver_eq_some h
  intro r e op' hop
  have hop : op' ∈ if r = p ∧ e = d then rest else c.sent r e := by rwa [hsent'] at hop
  rw [hpc]
  by_cases hre : r = p ∧ e = d
  · rw [if_pos hre] at hop
    obtain ⟨rfl, rfl⟩ := hre
    exact hP r e op' (by rw [hsent]; exact List.mem_cons_of_mem op hop)
  · rw [if_neg hre] at hop
    exact hP r e op' hop

/-- `Posted` holds in every configuration reachable from one with nothing in
    flight. -/
theorem posted_reachable {prog : Prog A F α} {c₀ c : Config A F α}
    (h0 : ∀ p d, c₀.sent p d = [])
    (h : Reachable (Step prog) c₀ c) : Posted prog c := by
  refine Reachable.invariant (fun p d op hop => ?_) (fun s s' _ hP hstep => ?_) h
  · rw [h0] at hop
    exact absurd hop List.not_mem_nil
  · obtain ⟨e, he⟩ := hstep
    cases e with
    | pe p => exact hP.step he
    | nic p d => exact hP.deliver he

end AsyncPgas
