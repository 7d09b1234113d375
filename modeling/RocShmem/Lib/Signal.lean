import RocShmem.Lib.Pgas

/-!
# Flags as Signals

Two ways of using a flag that synchronisation is built from, each with the
rule that makes it safe over every interleaving.

A *signal*: one PE sets a flag of another PE to a value `v ≠ 0`; the owner
waits for `v` and later clears the flag; nothing else writes the flag. Once
the owner is past its wait, the setter has run (`Signal.set_of_waited`).

A *count*: several PEs each add one to a flag of another PE; the owner waits
for the number of them and later clears the flag; nothing else writes it.
Once the owner is past its wait, every adder has run
(`Count.added_of_waited`).

Each rests on an invariant over the reachable configurations that gives the
flag's value as a function of the program counters involved, with one lemma
for a step.

## Main definitions

* `Signal`, `Count`: The two patterns, as facts about a program.
* `Handshake`, `Counted`: Their invariants.
* `ranCount`: How many of a list of instructions have run.

## Theorems

* `Signal.set_of_waited`, `Count.added_of_waited`: Past the wait, the
  writers waited for have run.
-/

namespace Pgas

variable {A F α : Type} [DecidableEq A] [DecidableEq F]

section Signal

/-- Flag `f` of PE `q` as a one-shot signal of value `v ≠ 0`: PE `ws ≠ q`
    sets it at position `ks` of its program, `q` waits for it at `kw` and
    clears it at `kc > kw`, and no other instruction writes it. -/
structure Signal (prog : Prog A F α) (q : Nat) (f : F) (v : Int) (ws ks kw kc : Nat) : Prop where
  set : (prog ws)[ks]? = some (.putFlag q f v)
  wait : (prog q)[kw]? = some (.waitFlag f v)
  clear : (prog q)[kc]? = some (.putFlag q f 0)
  wait_lt_clear : kw < kc
  value_ne : v ≠ 0
  setter_ne : ws ≠ q
  writers : ∀ (p n : Nat) (i : Instr A F α), (prog p)[n]? = some i → i.flagTarget = some (q, f) →
    p = ws ∧ n = ks ∨ p = q ∧ n = kc

/-- A signal's flag holds `v` between the set and the clear and `0`
    otherwise, and its owner is past the wait only after the set. -/
structure Handshake (q : Nat) (f : F) (v : Int) (ws ks kw kc : Nat) (c : Config A F α) : Prop where
  set_of_waited : kw < c.pc q → ks < c.pc ws
  flag_eq : c.mem.flag q f = if ks < c.pc ws ∧ c.pc q ≤ kc then v else 0

variable {prog : Prog A F α} {q ws ks kw kc : Nat} {f : F} {v : Int}

theorem Signal.handshake_step (hs : Signal prog q f v ws ks kw kc) {c c' : Config A F α} {p : Nat}
    (hc : Handshake q f v ws ks kw kc c) (hstep : step prog p c = some c') :
    Handshake q f v ws ks kw kc c' := by
  obtain ⟨i, hi, hexec, hself, hother⟩ := step_eq_some hstep
  by_cases hx : i.flagTarget = some (q, f)
  · rcases hs.writers p _ i hi hx with ⟨rfl, hn⟩ | ⟨rfl, hn⟩
    · -- The setter runs. The owner is not past the clear, or it would be past its wait.
      rw [hn, hs.set, Option.some.injEq] at hi
      subst hi
      have hq : c.pc q ≤ kc := Nat.le_of_not_lt fun hlt => by
        have hset := hc.set_of_waited (by have := hs.wait_lt_clear; omega)
        omega
      have hpc : c'.pc q = c.pc q := hother q (Ne.symm hs.setter_ne)
      rw [Instr.exec_putFlag, Option.some.injEq] at hexec
      refine ⟨fun _ => by omega, ?_⟩
      rw [← hexec, Memory.setFlag_flag, if_pos ⟨rfl, rfl⟩, if_pos ⟨by omega, by omega⟩]
    · -- The owner clears, after its wait, so after the set.
      rw [hn, hs.clear, Option.some.injEq] at hi
      subst hi
      rw [Instr.exec_putFlag, Option.some.injEq] at hexec
      have hws : c'.pc ws = c.pc ws := hother ws hs.setter_ne
      refine ⟨fun _ => ?_, ?_⟩
      · rw [hws]
        exact hc.set_of_waited (by have := hs.wait_lt_clear; omega)
      · rw [← hexec, Memory.setFlag_flag, if_pos ⟨rfl, rfl⟩, if_neg (by omega)]
  · have hflag : c'.mem.flag q f = c.mem.flag q f := Instr.exec_flag_of_ne hexec hx
    by_cases hw : p = q ∧ c.pc p = kw
    · -- The owner passes its wait: the flag holds `v`, so the setter has run.
      obtain ⟨rfl, hn⟩ := hw
      rw [hn, hs.wait, Option.some.injEq] at hi
      subst hi
      obtain ⟨hv, -⟩ := Instr.exec_waitFlag_eq_some.mp hexec
      have hset : ks < c.pc ws ∧ c.pc p ≤ kc := by
        refine Classical.byContradiction fun hno => hs.value_ne ?_
        rw [hc.flag_eq, if_neg hno] at hv
        exact hv.symm
      have hws : c'.pc ws = c.pc ws := hother ws hs.setter_ne
      have hlt := hs.wait_lt_clear
      refine ⟨fun _ => by omega, ?_⟩
      rw [hflag, hc.flag_eq, if_pos hset, if_pos ⟨by omega, by omega⟩]
    · -- Any other step moves no counter past the set, the wait or the clear.
      have hkw : kw < c'.pc q ↔ kw < c.pc q :=
        step_pc_lt_iff hstep fun hqp hpk => hw ⟨hqp.symm, hpk⟩
      have hkc : kc < c'.pc q ↔ kc < c.pc q := by
        refine step_pc_lt_iff hstep fun hqp hpk => hx ?_
        rw [hpk, ← hqp, hs.clear, Option.some.injEq] at hi
        rw [← hi]
        rfl
      have hks : ks < c'.pc ws ↔ ks < c.pc ws := by
        refine step_pc_lt_iff hstep fun hwp hpk => hx ?_
        rw [hpk, ← hwp, hs.set, Option.some.injEq] at hi
        rw [← hi]
        rfl
      have hkc' : c'.pc q ≤ kc ↔ c.pc q ≤ kc := by
        rw [← Nat.not_lt, ← Nat.not_lt, hkc]
      refine ⟨fun h => hks.mpr (hc.set_of_waited (hkw.mp h)), ?_⟩
      rw [hflag, hc.flag_eq]
      simp only [hks, hkc']

/-- Past its wait, the owner of a signal has seen the set: the setter has
    run. -/
theorem Signal.set_of_waited (hs : Signal prog q f v ws ks kw kc) {c₀ c : Config A F α}
    (h0 : c₀.mem.flag q f = 0) (hws : c₀.pc ws ≤ ks) (hq : c₀.pc q ≤ kw)
    (h : Reachable prog c₀ c) : kw < c.pc q → ks < c.pc ws := by
  have hinit : Handshake q f v ws ks kw kc c₀ :=
    ⟨fun hlt => absurd hlt (by omega), by rw [h0, if_neg (by omega)]⟩
  exact (Reachable.induction hinit (fun _ _ _ _ hc hstep => hs.handshake_step hc hstep)
    h).set_of_waited

end Signal

section Count

/-- How many of the instructions `adders`, each a PE and a position in its
    program, have run. -/
def ranCount (c : Config A F α) (adders : List (Nat × Nat)) : Nat :=
  adders.countP fun w => decide (w.2 < c.pc w.1)

/-- Changing whether one element of a list without repeats is counted, from
    no to yes, and nothing else, adds one to the count. -/
theorem countP_eq_succ_of_flip {β : Type} {P P' : β → Bool} {l : List β} {w₀ : β} (hl : l.Nodup)
    (hw : w₀ ∈ l) (hP : P w₀ = false) (hP' : P' w₀ = true)
    (hsame : ∀ w ∈ l, w ≠ w₀ → P' w = P w) : l.countP P' = l.countP P + 1 := by
  induction l with
  | nil => exact absurd hw List.not_mem_nil
  | cons x l ih =>
      obtain ⟨hx, hl⟩ := List.nodup_cons.mp hl
      rw [List.countP_cons, List.countP_cons]
      rcases List.mem_cons.mp hw with rfl | hw'
      · -- The head flips; the rest is not the head, so it is counted as before.
        have hrest : l.countP P' = l.countP P :=
          List.countP_congr fun w hwl => by
            rw [hsame w (List.mem_cons_of_mem _ hwl) fun h => hx (h ▸ hwl)]
        rw [hrest, hP, hP']
        simp
      · have hxne : x ≠ w₀ := fun h => hx (h ▸ hw')
        rw [ih hl hw' fun w hwl hne => hsame w (List.mem_cons_of_mem _ hwl) hne,
          hsame x List.mem_cons_self hxne]
        omega

variable {prog : Prog A F α} {q kw kc : Nat} {f : F} {adders : List (Nat × Nat)}

theorem ranCount_step_of_not_mem {c c' : Config A F α} {p : Nat} (hstep : step prog p c = some c')
    (h : (p, c.pc p) ∉ adders) : ranCount c' adders = ranCount c adders :=
  List.countP_congr fun w hw => by
    have hcross : w.2 < c'.pc w.1 ↔ w.2 < c.pc w.1 :=
      step_pc_lt_iff hstep fun hwp hpk =>
        h (by rw [show (p, c.pc p) = w by rw [hpk, ← hwp]]; exact hw)
    simp only [decide_eq_true_eq, hcross]

theorem ranCount_step_of_mem {c c' : Config A F α} {p : Nat} (hstep : step prog p c = some c')
    (hl : adders.Nodup) (h : (p, c.pc p) ∈ adders) :
    ranCount c' adders = ranCount c adders + 1 := by
  obtain ⟨-, -, -, hself, -⟩ := step_eq_some hstep
  refine countP_eq_succ_of_flip hl h (by simp) (by simp [hself]) fun w hw hne => ?_
  have hcross : w.2 < c'.pc w.1 ↔ w.2 < c.pc w.1 :=
    step_pc_lt_iff hstep fun hwp hpk => hne (by rw [hpk, ← hwp])
  simp only [hcross]

/-- Flag `f` of PE `q` as a counter: each instruction of `adders` adds one
    to it, `q` waits for it to hold their number at `kw` and clears it at
    `kc > kw`, and no other instruction writes it. -/
structure Count (prog : Prog A F α) (q : Nat) (f : F) (adders : List (Nat × Nat)) (kw kc : Nat) :
    Prop where
  add : ∀ w ∈ adders, (prog w.1)[w.2]? = some (.addFlag q f 1)
  nodup : adders.Nodup
  adder_ne : ∀ w ∈ adders, w.1 ≠ q
  wait : (prog q)[kw]? = some (.waitFlag f adders.length)
  clear : (prog q)[kc]? = some (.putFlag q f 0)
  wait_lt_clear : kw < kc
  writers : ∀ (p n : Nat) (i : Instr A F α), (prog p)[n]? = some i → i.flagTarget = some (q, f) →
    (p, n) ∈ adders ∨ p = q ∧ n = kc

/-- A counter holds how many adders have run until it is cleared, and `0`
    after; its owner is past the wait only once all have run. -/
structure Counted (q : Nat) (f : F) (adders : List (Nat × Nat)) (kw kc : Nat) (c : Config A F α) :
    Prop where
  added_of_waited : kw < c.pc q → ∀ w ∈ adders, w.2 < c.pc w.1
  flag_eq : c.mem.flag q f = if c.pc q ≤ kc then (ranCount c adders : Int) else 0

theorem Count.counted_step (hs : Count prog q f adders kw kc) {c c' : Config A F α} {p : Nat}
    (hc : Counted q f adders kw kc c) (hstep : step prog p c = some c') :
    Counted q f adders kw kc c' := by
  obtain ⟨i, hi, hexec, hself, hother⟩ := step_eq_some hstep
  have hlt := hs.wait_lt_clear
  by_cases hx : i.flagTarget = some (q, f)
  · rcases hs.writers p _ i hi hx with hadd | ⟨rfl, hn⟩
    · -- An adder runs. The owner has not waited: the adder would have run before.
      have hpq : p ≠ q := hs.adder_ne _ hadd
      rw [hs.add _ hadd, Option.some.injEq] at hi
      subst hi
      have hnw : ¬ kw < c.pc q := fun hw => by
        have hran := hc.added_of_waited hw _ hadd
        exact Nat.lt_irrefl _ hran
      have hq : c'.pc q = c.pc q := hother q (Ne.symm hpq)
      rw [Instr.exec_addFlag, Option.some.injEq] at hexec
      refine ⟨fun hw => absurd (hq ▸ hw) hnw, ?_⟩
      rw [← hexec, Memory.setFlag_flag, if_pos ⟨rfl, rfl⟩, hc.flag_eq, hq, if_pos (by omega),
        if_pos (by omega), ranCount_step_of_mem hstep hs.nodup hadd]
      push_cast
      rfl
    · -- The owner clears, after its wait, so after every adder.
      rw [hn, hs.clear, Option.some.injEq] at hi
      subst hi
      rw [Instr.exec_putFlag, Option.some.injEq] at hexec
      refine ⟨fun _ w hw => ?_, ?_⟩
      · exact Nat.lt_of_lt_of_le (hc.added_of_waited (by omega) w hw) (step_pc_le hstep w.1)
      · rw [← hexec, Memory.setFlag_flag, if_pos ⟨rfl, rfl⟩, if_neg (by omega)]
  · have hflag : c'.mem.flag q f = c.mem.flag q f := Instr.exec_flag_of_ne hexec hx
    -- No adder runs in this step: its instruction would write the counter.
    have hnot : (p, c.pc p) ∉ adders := fun hadd => by
      rw [hs.add _ hadd, Option.some.injEq] at hi
      exact hx (by rw [← hi]; rfl)
    have hcount := ranCount_step_of_not_mem hstep hnot
    by_cases hw : p = q ∧ c.pc p = kw
    · -- The owner passes its wait: the counter holds the number of adders.
      obtain ⟨rfl, hn⟩ := hw
      rw [hn, hs.wait, Option.some.injEq] at hi
      subst hi
      obtain ⟨hv, -⟩ := Instr.exec_waitFlag_eq_some.mp hexec
      rw [hc.flag_eq, if_pos (by omega)] at hv
      have hran : ranCount c adders = adders.length := by omega
      have hall : ∀ w ∈ adders, w.2 < c.pc w.1 := by
        intro w hw
        have := List.countP_eq_length.mp hran w hw
        simpa only [decide_eq_true_eq] using this
      refine ⟨fun _ w hw => Nat.lt_of_lt_of_le (hall w hw) (step_pc_le hstep w.1), ?_⟩
      rw [hflag, hc.flag_eq, hcount, hself, hn, if_pos (by omega), if_pos (by omega)]
    · -- Any other step moves the owner past neither the wait nor the clear.
      have hkw : kw < c'.pc q ↔ kw < c.pc q :=
        step_pc_lt_iff hstep fun hqp hpk => hw ⟨hqp.symm, hpk⟩
      have hkc : kc < c'.pc q ↔ kc < c.pc q := by
        refine step_pc_lt_iff hstep fun hqp hpk => hx ?_
        rw [hpk, ← hqp, hs.clear, Option.some.injEq] at hi
        rw [← hi]
        rfl
      have hkc' : c'.pc q ≤ kc ↔ c.pc q ≤ kc := by
        rw [← Nat.not_lt, ← Nat.not_lt, hkc]
      refine ⟨fun h w hw => ?_, ?_⟩
      · exact Nat.lt_of_lt_of_le (hc.added_of_waited (hkw.mp h) w hw) (step_pc_le hstep w.1)
      · rw [hflag, hc.flag_eq, hcount]
        simp only [hkc']

/-- Past its wait, the owner of a counter has seen every adder: all of them
    have run. -/
theorem Count.added_of_waited (hs : Count prog q f adders kw kc) {c₀ c : Config A F α}
    (h0 : c₀.mem.flag q f = 0) (hadd : ∀ w ∈ adders, c₀.pc w.1 ≤ w.2) (hq : c₀.pc q ≤ kw)
    (h : Reachable prog c₀ c) : kw < c.pc q → ∀ w ∈ adders, w.2 < c.pc w.1 := by
  have hnone : ranCount c₀ adders = 0 :=
    List.countP_eq_zero.mpr fun w hw => by
      have := hadd w hw
      simp only [decide_eq_true_eq]
      omega
  have hinit : Counted q f adders kw kc c₀ :=
    ⟨fun hlt => absurd hlt (by omega), by
      rw [h0, hnone, if_pos (by have := hs.wait_lt_clear; omega)]
      rfl⟩
  exact (Reachable.induction hinit (fun _ _ _ _ hc hstep => hs.counted_step hc hstep)
    h).added_of_waited

end Count

end Pgas
