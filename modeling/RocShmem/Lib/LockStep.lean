import RocShmem.Lib.Pgas

/-!
# Lock-Step Runs

Collective algorithms are often described in rounds: in each round every PE
runs one block of its code, and the next round starts when all are done.
This module builds such runs from the interleaving semantics of `Pgas`. A
round in lock step names every PE of a list once per instruction of its
block, PE after PE (`roundSchedule`); its effect on memory is every PE's
block run to its end in that order (`execRound`). A sequence of rounds is
the rounds one after another (`execLockStep`).

`run_lockStep` says that when each PE's code, from its program counter on,
starts with its blocks of the rounds in order, the lock-step schedule is a
run of the program that executes exactly those blocks. What the rounds do
can then be worked out block by block, with `execList` the semantics of one
PE running a block, and its frame lemma for the cells a block does not
write.

## Main definitions

* `execList`: One PE runs a list of instructions.
* `roundSchedule`, `execRound`: One round in lock step.
* `lockStepSchedule`, `execLockStep`: Rounds one after another.

## Theorems

* `run_append`: A schedule split in two.
* `run_replicate`: Naming a PE once per instruction of its next block runs
  the block.
* `run_execRound`, `run_lockStep`: Lock-step schedules run the rounds.
* `execRound_induction`, `execLockStep_induction`: Induction over the PEs of
  a round, and over rounds.
* `execList_data_of_ne`: A cell no instruction of a block writes keeps its
  value.
-/

namespace Pgas

variable {A F α : Type} [DecidableEq A] [DecidableEq F]

/-- PE `p` runs the instructions `l` one after another: the memory after
    them, or `none` if a wait blocks. -/
def execList (p : Nat) (m : Memory A F α) : List (Instr A F α) → Option (Memory A F α)
  | [] => some m
  | i :: l => (i.exec p m).bind fun m' => execList p m' l

@[simp] theorem execList_nil (p : Nat) (m : Memory A F α) : execList p m [] = some m := rfl

@[simp] theorem execList_cons (p : Nat) (m : Memory A F α) (i : Instr A F α)
    (l : List (Instr A F α)) :
    execList p m (i :: l) = (i.exec p m).bind fun m' => execList p m' l := rfl

theorem execList_append (p : Nat) (m : Memory A F α) (l₁ l₂ : List (Instr A F α)) :
    execList p m (l₁ ++ l₂) = (execList p m l₁).bind fun m' => execList p m' l₂ := by
  induction l₁ generalizing m with
  | nil => rfl
  | cons i l₁ ih =>
      rw [List.cons_append, execList_cons, execList_cons, Option.bind_assoc]
      congr 1
      funext m'
      exact ih m'

/-- A cell that no instruction of the block writes keeps its value. -/
theorem execList_data_of_ne {p : Nat} {m m' : Memory A F α} {l : List (Instr A F α)}
    (h : execList p m l = some m') {q : Nat} {a : A}
    (hnone : ∀ i ∈ l, i.dataTarget p ≠ some (q, a)) : m'.data q a = m.data q a := by
  induction l generalizing m with
  | nil =>
      rw [execList_nil, Option.some.injEq] at h
      rw [h]
  | cons i l ih =>
      rw [execList_cons, Option.bind_eq_some_iff] at h
      obtain ⟨m₁, hi, hl⟩ := h
      rw [ih hl fun i' hi' => hnone i' (List.mem_cons_of_mem _ hi'),
        Instr.exec_data_of_ne hi (hnone i List.mem_cons_self)]

/-- A block whose instructions never block runs to its end. -/
theorem execList_exists {p : Nat} {l : List (Instr A F α)}
    (hrun : ∀ i ∈ l, ∀ m : Memory A F α, ∃ m', i.exec p m = some m') (m : Memory A F α) :
    ∃ m', execList p m l = some m' := by
  induction l generalizing m with
  | nil => exact ⟨m, rfl⟩
  | cons i l ih =>
      obtain ⟨m₁, hi⟩ := hrun i List.mem_cons_self m
      obtain ⟨m₂, hl⟩ := ih (fun i' hi' => hrun i' (List.mem_cons_of_mem _ hi')) m₁
      exact ⟨m₂, by rw [execList_cons, hi, Option.bind_some, hl]⟩

variable {prog : Prog A F α}

theorem run_append (c : Config A F α) (ps qs : List Nat) :
    run prog c (ps ++ qs) = (run prog c ps).bind fun c' => run prog c' qs := by
  induction ps generalizing c with
  | nil => rfl
  | cons p ps ih =>
      rw [List.cons_append]
      simp only [run]
      split
      · rfl
      · exact ih _

/-- Naming PE `p` once per instruction of the block `l` that its code holds
    at its program counter runs that block, and moves the counter past it. -/
theorem run_replicate {c : Config A F α} {p : Nat} {l post : List (Instr A F α)}
    (hl : (prog p).drop (c.pc p) = l ++ post) :
    run prog c (List.replicate l.length p) =
      (execList p c.mem l).map fun m =>
        ⟨fun q => if q = p then c.pc p + l.length else c.pc q, m⟩ := by
  induction l generalizing c with
  | nil =>
      simp only [List.length_nil, List.replicate_zero, run, execList_nil, Option.map_some,
        Nat.add_zero, Option.some.injEq]
      cases c
      congr 1
      funext q
      split <;> simp_all
  | cons i l ih =>
      -- The instruction at the counter is `i`; after it, the counter holds
      -- the rest of the block.
      have hi : (prog p)[c.pc p]? = some i := by
        rw [← Nat.add_zero (c.pc p), ← List.getElem?_drop, hl]
        rfl
      rw [List.length_cons, List.replicate_succ, execList_cons]
      simp only [run, step, hi]
      cases hexec : i.exec p c.mem with
      | none => rfl
      | some m' =>
          have hl' : (prog p).drop (c.pc p + 1) = l ++ post := by
            rw [← List.drop_drop, hl]
            rfl
          simp only [Option.map_some, Option.bind_some]
          rw [ih (by simpa using hl')]
          congr 1
          funext m
          congr 1
          funext q
          by_cases hq : q = p
          · simp only [hq, if_true]
            omega
          · simp only [hq, if_false]

/-- The schedule of one round: every PE of `ps`, in order, once per
    instruction of its block. -/
def roundSchedule (ps : List Nat) (blk : Nat → List (Instr A F α)) : List Nat :=
  ps.flatMap fun p => List.replicate (blk p).length p

/-- One round in lock step: every PE of `ps`, in order, runs its block. -/
def execRound (blk : Nat → List (Instr A F α)) : List Nat → Memory A F α → Option (Memory A F α)
  | [], m => some m
  | p :: ps, m => (execList p m (blk p)).bind fun m' => execRound blk ps m'

theorem execRound_append (blk : Nat → List (Instr A F α)) (ps qs : List Nat)
    (m : Memory A F α) :
    execRound blk (ps ++ qs) m = (execRound blk ps m).bind fun m' => execRound blk qs m' := by
  induction ps generalizing m with
  | nil => rfl
  | cons p ps ih =>
      simp only [List.cons_append, execRound, Option.bind_assoc]
      congr 1
      funext m'
      exact ih m'

/-- Induction over the PEs of a round, numbered `f 0, f 1, …`: an invariant
    indexed by how many PEs have run their blocks, which each block carries
    one PE further. -/
theorem execRound_induction (blk : Nat → List (Instr A F α)) (f : Nat → Nat) (n : Nat)
    (m : Memory A F α) (Inv : Nat → Memory A F α → Prop) (h₀ : Inv 0 m)
    (hstep : ∀ j < n, ∀ m', Inv j m' → ∃ m'', execList (f j) m' (blk (f j)) = some m'' ∧
      Inv (j + 1) m'') :
    ∃ m', execRound blk ((List.range n).map f) m = some m' ∧ Inv n m' := by
  induction n with
  | zero => exact ⟨m, rfl, h₀⟩
  | succ n ih =>
      obtain ⟨m', hround, hinv⟩ := ih fun j hj => hstep j (Nat.lt_succ_of_lt hj)
      obtain ⟨m'', hblk, hinv'⟩ := hstep n (Nat.lt_succ_self n) m' hinv
      refine ⟨m'', ?_, hinv'⟩
      rw [List.range_succ, List.map_append, execRound_append, hround, Option.bind_some,
        List.map_singleton, execRound, hblk, Option.bind_some]
      rfl

/-- The schedule of rounds one after another. -/
def lockStepSchedule (ps : List Nat) (rounds : List (Nat → List (Instr A F α))) : List Nat :=
  rounds.flatMap (roundSchedule ps)

/-- Rounds in lock step, one after another. -/
def execLockStep (ps : List Nat) :
    List (Nat → List (Instr A F α)) → Memory A F α → Option (Memory A F α)
  | [], m => some m
  | blk :: rounds, m => (execRound blk ps m).bind fun m' => execLockStep ps rounds m'

theorem execLockStep_append (ps : List Nat) (r₁ r₂ : List (Nat → List (Instr A F α)))
    (m : Memory A F α) :
    execLockStep ps (r₁ ++ r₂) m = (execLockStep ps r₁ m).bind fun m' => execLockStep ps r₂ m' := by
  induction r₁ generalizing m with
  | nil => rfl
  | cons blk r₁ ih =>
      simp only [List.cons_append, execLockStep, Option.bind_assoc]
      congr 1
      funext m'
      exact ih m'

/-- Induction over the rounds `rounds s, rounds (s + 1), …`: an invariant
    indexed by how many of them have run, which each carries one further. -/
theorem execLockStep_induction (ps : List Nat) (rounds : Nat → List (Nat → List (Instr A F α)))
    (s n : Nat) (m : Memory A F α) (Inv : Nat → Memory A F α → Prop) (h₀ : Inv 0 m)
    (hstep : ∀ j < n, ∀ m', Inv j m' → ∃ m'', execLockStep ps (rounds (s + j)) m' = some m'' ∧
      Inv (j + 1) m'') :
    ∃ m', execLockStep ps ((List.range' s n).flatMap rounds) m = some m' ∧ Inv n m' := by
  induction n with
  | zero => exact ⟨m, rfl, h₀⟩
  | succ n ih =>
      obtain ⟨m', hfirst, hinv⟩ := ih fun j hj => hstep j (Nat.lt_succ_of_lt hj)
      obtain ⟨m'', hlast, hinv'⟩ := hstep n (Nat.lt_succ_self n) m' hinv
      refine ⟨m'', ?_, hinv'⟩
      rw [List.range'_1_concat, List.flatMap_append, execLockStep_append, hfirst, Option.bind_some,
        List.flatMap_singleton, hlast]

/-- A round in lock step runs every PE's block, when the code of each PE of
    `ps` holds its block at its counter. -/
theorem run_execRound {ps : List Nat} (hnodup : ps.Nodup) {blk : Nat → List (Instr A F α)}
    {c : Config A F α} (hprog : ∀ p ∈ ps, ∃ post, (prog p).drop (c.pc p) = blk p ++ post) :
    run prog c (roundSchedule ps blk) =
      (execRound blk ps c.mem).map fun m =>
        ⟨fun q => if q ∈ ps then c.pc q + (blk q).length else c.pc q, m⟩ := by
  induction ps generalizing c with
  | nil =>
      simp only [roundSchedule, List.flatMap_nil, run, execRound, Option.map_some,
        List.not_mem_nil, if_false]
  | cons p ps ih =>
      obtain ⟨hp, hnodup⟩ := List.nodup_cons.mp hnodup
      obtain ⟨post, hpost⟩ := hprog p List.mem_cons_self
      rw [roundSchedule, List.flatMap_cons, run_append, run_replicate hpost, execRound]
      cases hblk : execList p c.mem (blk p) with
      | none => rfl
      | some m' =>
          simp only [Option.map_some, Option.bind_some]
          -- The other PEs' counters did not move.
          rw [← roundSchedule, ih hnodup fun q hq => by
            obtain ⟨post', h⟩ := hprog q (List.mem_cons_of_mem _ hq)
            exact ⟨post', by simpa [show q ≠ p from fun h => hp (h ▸ hq)] using h⟩]
          congr 1
          funext m
          congr 1
          funext q
          by_cases hqp : q = p
          · subst hqp
            simp [hp]
          · simp [hqp]

/-- Rounds in lock step run every PE's blocks, when the code of each PE of
    `ps` holds its blocks of the rounds, in order, at its counter. -/
theorem run_lockStep {ps : List Nat} (hnodup : ps.Nodup)
    {rounds : List (Nat → List (Instr A F α))} {c : Config A F α}
    (hprog : ∀ p ∈ ps, ∃ post, (prog p).drop (c.pc p) = rounds.flatMap (· p) ++ post) :
    run prog c (lockStepSchedule ps rounds) =
      (execLockStep ps rounds c.mem).map fun m =>
        ⟨fun q => if q ∈ ps then c.pc q + (rounds.flatMap (· q)).length else c.pc q, m⟩ := by
  induction rounds generalizing c with
  | nil =>
      simp only [lockStepSchedule, List.flatMap_nil, run, execLockStep, Option.map_some,
        List.length_nil, Nat.add_zero, ite_self]
  | cons blk rounds ih =>
      rw [lockStepSchedule, List.flatMap_cons, run_append, ← lockStepSchedule,
        run_execRound hnodup fun p hp => by
          obtain ⟨post, h⟩ := hprog p hp
          exact ⟨_, by rw [h, List.flatMap_cons, List.append_assoc]⟩,
        execLockStep]
      cases hround : execRound blk ps c.mem with
      | none => rfl
      | some m' =>
          simp only [Option.map_some, Option.bind_some]
          rw [ih fun p hp => by
            obtain ⟨post, h⟩ := hprog p hp
            refine ⟨post, ?_⟩
            simp only [hp, if_true]
            rw [← List.drop_drop, h, List.flatMap_cons, List.append_assoc,
              List.drop_left]]
          congr 1
          funext m
          congr 1
          funext q
          by_cases hq : q ∈ ps
          · simp only [hq, if_true, List.flatMap_cons, List.length_append]
            omega
          · simp only [hq, if_false]

end Pgas
