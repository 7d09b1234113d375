import Mathlib.Logic.Relation

/-!
# Processing Elements Sharing Memory One-Sidedly

An interleaving semantics for programs of several processing elements (PEs)
that read and write each other's memory directly, as GPU kernels do over
peer-to-peer mappings. Each PE has data cells, addressed by `A`, and flag
cells, addressed by `F` and holding 64-bit signed integers modelled as
`Int`. A PE runs a straight-line list of instructions: copy a data cell from
any PE to any PE, combine a local data cell with another, store a value,
store or atomically add to a flag on any PE, and wait until one of its own
flags holds a value.

A step picks one PE and runs its next instruction, if that instruction can
run: a wait blocks until its flag holds the value. Memory is sequentially
consistent and every instruction is atomic. Fences therefore do nothing and
are not instructions. A run is any sequence of steps, so a property of every
reachable configuration is a property of every interleaving.

Loops whose bounds are known when a call starts become straight-line code
by unrolling, which is how the collective algorithms are given to this
semantics; the only control that depends on other PEs is waiting.

## Main definitions

* `Instr`: The instructions.
* `Memory`, `Config`: The cells of all PEs, and a configuration with a
  program counter for each PE.
* `step`: One PE runs its next instruction, or cannot.
* `Reachable`: Any number of steps of any PEs.
* `run`: A given schedule of PEs, for exhibiting one interleaving.

## Theorems

* `step_eq_some`: What a step does, stated once.
* `Reachable.data_of_no_writer`: A cell no instruction writes keeps its value.
* `Reachable.data_of_unique_writer`: A cell with one writer holds its
  initial value until that writer runs, and the copied value after.
* `Reachable.eq_of_stuck`: Nothing follows a configuration where no PE can
  move.
* `getElem?_flatMap_of_length`: Where an unrolled loop puts each
  instruction.
-/

namespace Pgas

/-- One instruction of a PE. The PE running it is `self`. -/
inductive Instr (A F α : Type) where
  /-- Data cell `dst` on PE `dstPe` gets data cell `src` of PE `srcPe`. -/
  | copy (dstPe : Nat) (dst : A) (srcPe : Nat) (src : A)
  /-- Data cell `dst` of `self` gets `op` of itself and data cell `src` of `self`. -/
  | combine (op : α → α → α) (dst src : A)
  /-- Data cell `a` of `self` gets the value `v`. -/
  | store (a : A) (v : α)
  /-- Flag `x` on PE `pe` gets `v`. -/
  | putFlag (pe : Nat) (x : F) (v : Int)
  /-- Flag `x` on PE `pe` is atomically increased by `v`. -/
  | addFlag (pe : Nat) (x : F) (v : Int)
  /-- Block until flag `x` of `self` holds `v`. -/
  | waitFlag (x : F) (v : Int)

/-- The cells of every PE. -/
structure Memory (A F α : Type) where
  data : Nat → A → α
  flag : Nat → F → Int

/-- A configuration: where each PE is in its program, and the memory. -/
structure Config (A F α : Type) where
  pc : Nat → Nat
  mem : Memory A F α

/-- The program of every PE. -/
abbrev Prog (A F α : Type) := Nat → List (Instr A F α)

variable {A F α : Type}

namespace Memory

/-- Write one data cell. -/
def setData [DecidableEq A] (m : Memory A F α) (pe : Nat) (a : A) (v : α) : Memory A F α :=
  { m with data := fun q b => if q = pe ∧ b = a then v else m.data q b }

/-- Write one flag. -/
def setFlag [DecidableEq F] (m : Memory A F α) (pe : Nat) (x : F) (v : Int) : Memory A F α :=
  { m with flag := fun q y => if q = pe ∧ y = x then v else m.flag q y }

@[simp] theorem setData_data [DecidableEq A] (m : Memory A F α) (pe : Nat) (a : A) (v : α)
    (q : Nat) (b : A) :
    (m.setData pe a v).data q b = if q = pe ∧ b = a then v else m.data q b := rfl

@[simp] theorem setData_flag [DecidableEq A] (m : Memory A F α) (pe : Nat) (a : A) (v : α) :
    (m.setData pe a v).flag = m.flag := rfl

@[simp] theorem setFlag_flag [DecidableEq F] (m : Memory A F α) (pe : Nat) (x : F) (v : Int)
    (q : Nat) (y : F) :
    (m.setFlag pe x v).flag q y = if q = pe ∧ y = x then v else m.flag q y := rfl

@[simp] theorem setFlag_data [DecidableEq F] (m : Memory A F α) (pe : Nat) (x : F) (v : Int) :
    (m.setFlag pe x v).data = m.data := rfl

theorem setData_data_of_ne [DecidableEq A] (m : Memory A F α) {pe q : Nat} {a b : A} (v : α)
    (h : (pe, a) ≠ (q, b)) : (m.setData pe a v).data q b = m.data q b := by
  rw [setData_data, if_neg]
  rintro ⟨rfl, rfl⟩
  exact h rfl

theorem setFlag_flag_of_ne [DecidableEq F] (m : Memory A F α) {pe q : Nat} {x y : F} (v : Int)
    (h : (pe, x) ≠ (q, y)) : (m.setFlag pe x v).flag q y = m.flag q y := by
  rw [setFlag_flag, if_neg]
  rintro ⟨rfl, rfl⟩
  exact h rfl

end Memory

variable [DecidableEq A] [DecidableEq F]

namespace Instr

/-- The data cell an instruction run by `self` writes, if any. -/
def dataTarget (self : Nat) : Instr A F α → Option (Nat × A)
  | copy dstPe dst _ _ => some (dstPe, dst)
  | combine _ dst _ => some (self, dst)
  | store a _ => some (self, a)
  | _ => none

/-- The flag an instruction writes, if any. -/
def flagTarget : Instr A F α → Option (Nat × F)
  | putFlag pe x _ => some (pe, x)
  | addFlag pe x _ => some (pe, x)
  | _ => none

omit [DecidableEq A] [DecidableEq F] in
/-- A flag put writes the flag it names, on the PE it names. -/
theorem eq_of_flagTarget_putFlag {pe q : Nat} {x y : F} {v : Int}
    (h : (putFlag pe x v : Instr A F α).flagTarget = some (q, y)) : pe = q ∧ x = y := by
  simpa only [flagTarget, Option.some.injEq, Prod.mk.injEq] using h

omit [DecidableEq A] [DecidableEq F] in
/-- A flag add writes the flag it names, on the PE it names. -/
theorem eq_of_flagTarget_addFlag {pe q : Nat} {x y : F} {v : Int}
    (h : (addFlag pe x v : Instr A F α).flagTarget = some (q, y)) : pe = q ∧ x = y := by
  simpa only [flagTarget, Option.some.injEq, Prod.mk.injEq] using h

/-- Run one instruction as PE `self`: the new memory, or `none` while a
    wait blocks. -/
def exec (self : Nat) (m : Memory A F α) : Instr A F α → Option (Memory A F α)
  | copy dstPe dst srcPe src => some (m.setData dstPe dst (m.data srcPe src))
  | combine op dst src => some (m.setData self dst (op (m.data self dst) (m.data self src)))
  | store a v => some (m.setData self a v)
  | putFlag pe x v => some (m.setFlag pe x v)
  | addFlag pe x v => some (m.setFlag pe x (m.flag pe x + v))
  | waitFlag x v => if m.flag self x = v then some m else none

@[simp] theorem exec_putFlag (self pe : Nat) (m : Memory A F α) (x : F) (v : Int) :
    (putFlag pe x v : Instr A F α).exec self m = some (m.setFlag pe x v) := rfl

@[simp] theorem exec_addFlag (self pe : Nat) (m : Memory A F α) (x : F) (v : Int) :
    (addFlag pe x v : Instr A F α).exec self m = some (m.setFlag pe x (m.flag pe x + v)) := rfl

/-- A wait runs exactly when its flag holds the value, and changes nothing. -/
theorem exec_waitFlag_eq_some {self : Nat} {m m' : Memory A F α} {x : F} {v : Int} :
    (waitFlag x v : Instr A F α).exec self m = some m' ↔ m.flag self x = v ∧ m' = m := by
  simp only [exec]
  split
  · rename_i hv
    simp only [Option.some.injEq, hv, true_and, eq_comm]
  · rename_i hv
    simp only [reduceCtorEq, hv, false_and]

/-- What an instruction does to memory, stated once: it writes its data
    target, or writes its flag target, or changes nothing. -/
theorem exec_eq_some {self : Nat} {m m' : Memory A F α} {i : Instr A F α}
    (h : i.exec self m = some m') :
    (∃ q a v, i.dataTarget self = some (q, a) ∧ m' = m.setData q a v) ∨
      (∃ q x v, i.flagTarget = some (q, x) ∧ m' = m.setFlag q x v) ∨
      (i.dataTarget self = none ∧ i.flagTarget = none ∧ m' = m) := by
  cases i with
  | copy dstPe dst srcPe src => exact .inl ⟨_, _, _, rfl, (Option.some.inj h).symm⟩
  | combine op dst src => exact .inl ⟨_, _, _, rfl, (Option.some.inj h).symm⟩
  | store a v => exact .inl ⟨_, _, _, rfl, (Option.some.inj h).symm⟩
  | putFlag pe x v => exact .inr (.inl ⟨_, _, _, rfl, (Option.some.inj h).symm⟩)
  | addFlag pe x v => exact .inr (.inl ⟨_, _, _, rfl, (Option.some.inj h).symm⟩)
  | waitFlag x v => exact .inr (.inr ⟨rfl, rfl, (exec_waitFlag_eq_some.mp h).2⟩)

/-- An instruction changes no data cell but its target. -/
theorem exec_data_of_ne {self : Nat} {m m' : Memory A F α} {i : Instr A F α}
    (h : i.exec self m = some m') {q : Nat} {a : A} (hq : i.dataTarget self ≠ some (q, a)) :
    m'.data q a = m.data q a := by
  rcases exec_eq_some h with ⟨q', a', v, ht, rfl⟩ | ⟨q', x, v, -, rfl⟩ | ⟨-, -, rfl⟩
  · exact Memory.setData_data_of_ne m v fun heq => hq (by rw [ht, heq])
  · rfl
  · rfl

/-- An instruction changes no flag but its target. -/
theorem exec_flag_of_ne {self : Nat} {m m' : Memory A F α} {i : Instr A F α}
    (h : i.exec self m = some m') {q : Nat} {x : F} (hq : i.flagTarget ≠ some (q, x)) :
    m'.flag q x = m.flag q x := by
  rcases exec_eq_some h with ⟨q', a, v, -, rfl⟩ | ⟨q', y, v, ht, rfl⟩ | ⟨-, -, rfl⟩
  · rfl
  · exact Memory.setFlag_flag_of_ne m v fun heq => hq (by rw [ht, heq])
  · rfl

end Instr

/-- PE `p` runs its next instruction: the new configuration, or `none` when
    it has finished its program or its next instruction blocks. -/
def step (prog : Prog A F α) (p : Nat) (c : Config A F α) : Option (Config A F α) :=
  match (prog p)[c.pc p]? with
  | none => none
  | some i => (i.exec p c.mem).map fun m => ⟨fun q => if q = p then c.pc p + 1 else c.pc q, m⟩

/-- Some PE takes one step. -/
def Step (prog : Prog A F α) (c c' : Config A F α) : Prop := ∃ p, step prog p c = some c'

/-- The configurations any interleaving reaches from `c`. -/
def Reachable (prog : Prog A F α) (c : Config A F α) : Config A F α → Prop :=
  Relation.ReflTransGen (Step prog) c

/-- Run the PEs in the order the schedule names them; `none` as soon as a
    named PE cannot move. -/
def run (prog : Prog A F α) : Config A F α → List Nat → Option (Config A F α)
  | c, [] => some c
  | c, p :: ps =>
      match step prog p c with
      | none => none
      | some c' => run prog c' ps

/-- PE `p` has run its whole program. -/
def Done (prog : Prog A F α) (c : Config A F α) (p : Nat) : Prop := (prog p).length ≤ c.pc p

instance (prog : Prog A F α) (c : Config A F α) (p : Nat) : Decidable (Done prog c p) :=
  inferInstanceAs (Decidable (_ ≤ _))

/-- The inversion lemma of a step: PE `p` ran the instruction at its program
    counter, which moved by one, and nobody else's did. -/
theorem step_eq_some {prog : Prog A F α} {p : Nat} {c c' : Config A F α}
    (h : step prog p c = some c') :
    ∃ i, (prog p)[c.pc p]? = some i ∧ i.exec p c.mem = some c'.mem ∧
      c'.pc p = c.pc p + 1 ∧ ∀ q, q ≠ p → c'.pc q = c.pc q := by
  unfold step at h
  split at h
  · exact absurd h (Option.some_ne_none _).symm
  · rename_i i hi
    obtain ⟨m, hm, rfl⟩ := Option.map_eq_some_iff.mp h
    refine ⟨i, hi, hm, by simp, fun q hq => by simp [hq]⟩

/-- A PE that has finished its program cannot move. -/
theorem step_eq_none_of_done {prog : Prog A F α} {p : Nat} {c : Config A F α} (h : Done prog c p) :
    step prog p c = none := by
  unfold step
  rw [List.getElem?_eq_none h]

/-- A step moves no counter back, and moves one counter past a threshold `t`
    only by running the instruction at `t`. -/
theorem step_pc_lt_iff {prog : Prog A F α} {p : Nat} {c c' : Config A F α}
    (h : step prog p c = some c') {r t : Nat} (hrt : r = p → c.pc p ≠ t) :
    t < c'.pc r ↔ t < c.pc r := by
  obtain ⟨-, -, -, hself, hother⟩ := step_eq_some h
  by_cases hr : r = p
  · subst hr
    have hne := hrt rfl
    rw [hself]
    omega
  · rw [hother r hr]

theorem step_pc_le {prog : Prog A F α} {p : Nat} {c c' : Config A F α}
    (h : step prog p c = some c') (r : Nat) : c.pc r ≤ c'.pc r := by
  obtain ⟨-, -, -, hself, hother⟩ := step_eq_some h
  by_cases hr : r = p
  · subst hr
    omega
  · exact Nat.le_of_eq (hother r hr).symm

theorem reachable_of_run {prog : Prog A F α} {c c' : Config A F α} {ps : List Nat}
    (h : run prog c ps = some c') : Reachable prog c c' := by
  induction ps generalizing c with
  | nil =>
      simp only [run, Option.some.injEq] at h
      subst h
      exact Relation.ReflTransGen.refl
  | cons p ps ih =>
      simp only [run] at h
      split at h
      · exact absurd h (Option.some_ne_none _).symm
      · rename_i c'' hstep
        exact Relation.ReflTransGen.head ⟨p, hstep⟩ (ih h)

namespace Reachable

variable {prog : Prog A F α} {c₀ : Config A F α}

/-- Induction over runs from `c₀`: a property of `c₀` that every step keeps. -/
theorem induction {P : Config A F α → Prop} (h₀ : P c₀)
    (hstep : ∀ c c' p, Reachable prog c₀ c → P c → step prog p c = some c' → P c')
    {c : Config A F α} (h : Reachable prog c₀ c) : P c := by
  induction h with
  | refl => exact h₀
  | tail hr hs ih =>
      obtain ⟨p, hp⟩ := hs
      exact hstep _ _ p hr ih hp

/-- A data cell that no instruction of any PE writes keeps its value. -/
theorem data_of_no_writer {q : Nat} {a : A}
    (hnone : ∀ (p n : Nat) (i : Instr A F α), (prog p)[n]? = some i → i.dataTarget p ≠ some (q, a))
    {c : Config A F α} (h : Reachable prog c₀ c) : c.mem.data q a = c₀.mem.data q a := by
  induction h with
  | refl => rfl
  | tail _ hs ih =>
      obtain ⟨p, hp⟩ := hs
      obtain ⟨i, hi, hexec, -⟩ := step_eq_some hp
      rw [Instr.exec_data_of_ne hexec (hnone p _ i hi), ih]

/-- A data cell written by exactly one instruction, a copy from a cell that
    no instruction writes, and not yet run at the start: it holds its initial
    value until that copy runs, and the copied value afterwards. -/
theorem data_of_unique_writer {w k : Nat} {x y : Nat × A}
    (hw : (prog w)[k]? = some (.copy x.1 x.2 y.1 y.2))
    (huniq : ∀ (p n : Nat) (i : Instr A F α), (prog p)[n]? = some i → i.dataTarget p = some x →
      p = w ∧ n = k)
    (hy : ∀ (p n : Nat) (i : Instr A F α), (prog p)[n]? = some i → i.dataTarget p ≠ some y)
    (hstart : c₀.pc w ≤ k) {c : Config A F α} (h : Reachable prog c₀ c) :
    c.mem.data x.1 x.2 = if k < c.pc w then c₀.mem.data y.1 y.2 else c₀.mem.data x.1 x.2 := by
  induction h with
  | refl => simp only [Nat.not_lt.mpr hstart, if_false]
  | @tail c c' hr hs ih =>
      obtain ⟨p, hp⟩ := hs
      obtain ⟨i, hi, hexec, hself, hother⟩ := step_eq_some hp
      by_cases hwrite : i.dataTarget p = some x
      · -- The writer itself runs: it copies the source, which never changed.
        obtain ⟨rfl, hk⟩ := huniq p _ i hi hwrite
        rw [hk, hw, Option.some.injEq] at hi
        subst hi
        simp only [Instr.exec, Option.some.injEq] at hexec
        rw [← hexec, hself, hk]
        simp only [Memory.setData_data, and_self, if_true, Nat.lt_succ_self]
        exact data_of_no_writer hy hr
      · rw [Instr.exec_data_of_ne hexec hwrite, ih]
        -- Another instruction: the writer's position relative to `k` is unchanged.
        by_cases hpw : p = w
        · subst hpw
          have hne : c.pc p ≠ k := by
            intro hck
            rw [hck, hw, Option.some.injEq] at hi
            subst hi
            exact hwrite rfl
          rw [hself]
          congr 1
          exact propext ⟨fun hlt => by omega, fun hlt => by omega⟩
        · rw [hother w (Ne.symm hpw)]

/-- Nothing follows a configuration in which no PE can move. -/
theorem eq_of_stuck {c c' : Config A F α} (hstuck : ∀ p, step prog p c = none)
    (h : Reachable prog c c') : c' = c := by
  induction h with
  | refl => rfl
  | tail _ hs ih =>
      subst ih
      obtain ⟨p, hp⟩ := hs
      rw [hstuck p] at hp
      exact absurd hp (Option.some_ne_none _).symm

end Reachable

theorem length_flatMap_of_length {β γ : Type} {l : List β} {f : β → List γ} {n : Nat}
    (hf : ∀ x ∈ l, (f x).length = n) : (l.flatMap f).length = n * l.length := by
  induction l with
  | nil => rfl
  | cons x l ih =>
      rw [List.flatMap_cons, List.length_append, hf x List.mem_cons_self,
        ih fun y hy => hf y (List.mem_cons_of_mem _ hy), List.length_cons, Nat.mul_succ,
        Nat.add_comm]

/-- Straight-line code unrolled from a loop whose body has `n` instructions:
    instruction `t` is instruction `t % n` of iteration `t / n`. -/
theorem getElem?_flatMap_of_length {β γ : Type} {l : List β} {f : β → List γ} {n : Nat} (hn : 0 < n)
    (hf : ∀ x ∈ l, (f x).length = n) (t : Nat) :
    (l.flatMap f)[t]? = l[t / n]?.bind fun x => (f x)[t % n]? := by
  induction l generalizing t with
  | nil => simp
  | cons x l ih =>
      have hx : (f x).length = n := hf x List.mem_cons_self
      have hl : ∀ y ∈ l, (f y).length = n := fun y hy => hf y (List.mem_cons_of_mem _ hy)
      rw [List.flatMap_cons]
      by_cases ht : t < n
      · rw [List.getElem?_append_left (by omega), Nat.div_eq_of_lt ht, Nat.mod_eq_of_lt ht]
        simp
      · -- Iteration `t / n` of `x :: l` is iteration `t / n - 1` of `l`.
        have hdiv : t / n = (t - n) / n + 1 := Nat.div_eq_sub_div hn (by omega)
        have hmod : (t - n) % n = t % n := (Nat.mod_eq_sub_mod (by omega)).symm
        rw [List.getElem?_append_right (by omega), hx, ih hl, hdiv, List.getElem?_cons_succ, hmod]

end Pgas
