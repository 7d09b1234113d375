import Mathlib.Data.List.Nodup
import RocShmem.Lib.AsyncPgas
import RocShmem.Lib.Signal

/-!
# Flags as Signals over an Asynchronous Network

The two rules of `Pgas.Signal`, for flags written through the network.

A *signal*: one PE posts a write of `v ≠ 0` to a flag of another PE; the
owner waits for `v` and later clears the flag with a store; nothing else
writes the flag. Once the owner is past its wait, the write has arrived, so
the setter has posted it and nothing it wrote to the flag is still in flight
(`Signal.set_of_waited`).

A *count*: several PEs each post an addition of one to a flag of another PE;
the owner waits for their number and later clears the flag; nothing else
writes it. Once the owner is past its wait, every addition has arrived
(`Count.added_of_waited`).

What is new over the direct rules is the time between a post and its
arrival. The invariants give the flag's value from the program counters and
from how many writes to it are in flight, and they use `Posted` to know
that a write in flight towards the flag is one the rule names.

## Main definitions

* `Signal`, `Count`: The two patterns, as facts about a program.
* `Handshake`, `Counted`: Their invariants.
* `landed`: How many of the additions have arrived.

## Theorems

* `Signal.set_of_waited`, `Count.added_of_waited`: Past the wait, the
  writes waited for have been posted and have arrived.
-/

namespace AsyncPgas

open Transition

variable {A F α : Type} [DecidableEq A] [DecidableEq F]

section Signal

/-- Flag `f` of PE `q` as a one-shot signal of value `v ≠ 0`: PE `ws ≠ q`
    posts the write at position `ks` of its program, `q` waits for it at
    `kw` and clears it at `kc > kw`, and no other instruction writes it. -/
structure Signal (prog : Prog A F α) (q : Nat) (f : F) (v : Int) (ws ks kw kc : Nat) : Prop where
  set : (prog ws)[ks]? = some (.putNbi q (.flag f v))
  wait : (prog q)[kw]? = some (.waitFlag f v)
  clear : (prog q)[kc]? = some (.store f 0)
  wait_lt_clear : kw < kc
  value_ne : v ≠ 0
  setter_ne : ws ≠ q
  writers : ∀ (p n : Nat) (i : Instr A F α), (prog p)[n]? = some i →
    i.flagTarget p = some (q, f) → p = ws ∧ n = ks ∨ p = q ∧ n = kc

/-- The write of a signal is in flight at most once, and only after it was
    posted; the flag holds `v` from its arrival to the clear and `0`
    otherwise; and its owner is past the wait only after the arrival. -/
structure Handshake (q : Nat) (f : F) (v : Int) (ws ks kw kc : Nat) (c : Config A F α) :
    Prop where
  in_flight_le : inFlight c ws q f ≤ if ks < c.pc ws then 1 else 0
  set_of_waited : kw < c.pc q → ks < c.pc ws ∧ inFlight c ws q f = 0
  flag_eq : c.mem.flag q f = if ks < c.pc ws ∧ inFlight c ws q f = 0 ∧ c.pc q ≤ kc then v else 0

variable {prog : Prog A F α} {q ws ks kw kc : Nat} {f : F} {v : Int}

omit [DecidableEq A] [DecidableEq F] in
/-- A write in flight towards a signal's flag is the setter's. -/
theorem Signal.eq_of_inFlight (hs : Signal prog q f v ws ks kw kc) {c : Config A F α}
    (hP : Posted prog c) {p : Nat} {op : Op A F α} (hop : op ∈ c.sent p q)
    (hf : op.flagTarget = some f) : p = ws ∧ op = .flag f v := by
  obtain ⟨n, -, hn⟩ := hP.posted hop
  have hx : (Instr.putNbi q op : Instr A F α).flagTarget p = some (q, f) := by
    simp [Instr.flagTarget, hf]
  rcases hs.writers p n _ hn hx with ⟨rfl, rfl⟩ | ⟨rfl, rfl⟩
  · rw [hs.set, Option.some.injEq, Instr.putNbi.injEq] at hn
    exact ⟨rfl, hn.2.symm⟩
  · rw [hs.clear] at hn
    exact absurd (Option.some.inj hn) (by simp)

omit [DecidableEq A] in
theorem Signal.handshake_pe (hs : Signal prog q f v ws ks kw kc) {c c' : Config A F α} {p : Nat}
    (hc : Handshake q f v ws ks kw kc c) (hstep : step prog p c = some c') :
    Handshake q f v ws ks kw kc c' := by
  obtain ⟨i, hi, hself, hother, -⟩ := step_cases hstep
  have hlt := hs.wait_lt_clear
  by_cases hx : i.flagTarget p = some (q, f)
  · rcases hs.writers p _ i hi hx with ⟨rfl, hn⟩ | ⟨rfl, hn⟩
    · -- The setter posts. Nothing was in flight, and the owner has not waited.
      rw [hn, hs.set, Option.some.injEq] at hi
      subst hi
      obtain ⟨hmem, hinf⟩ := step_putNbi hstep (by rw [hn, hs.set])
      have h0 : inFlight c p q f = 0 := by
        have := hc.in_flight_le
        rw [hn, if_neg (Nat.lt_irrefl _)] at this
        omega
      have h1 : inFlight c' p q f = 1 := by
        rw [hinf, inFlight_post, h0, if_pos ⟨rfl, rfl, rfl⟩]
      have hq : c'.pc q = c.pc q := hother q (Ne.symm hs.setter_ne)
      have hnw : ¬ kw < c.pc q := fun hw => by
        have := (hc.set_of_waited hw).1
        omega
      have hle : inFlight c' p q f ≤ if ks < c'.pc p then 1 else 0 :=
        Nat.le_of_eq (by rw [h1, hself, if_pos (by omega)])
      refine ⟨hle, fun hw => absurd (hq ▸ hw) hnw, ?_⟩
      rw [hmem, hc.flag_eq, if_neg (by omega), if_neg (by omega)]
    · -- The owner clears, after its wait, so after the arrival.
      rw [hn, hs.clear, Option.some.injEq] at hi
      subst hi
      obtain ⟨hmem, hsent⟩ := step_store hstep (by rw [hn, hs.clear])
      have hws : c'.pc ws = c.pc ws := hother ws hs.setter_ne
      have hinf : inFlight c' ws p f = inFlight c ws p f := by rw [inFlight, hsent]; rfl
      refine ⟨by rw [hinf, hws]; exact hc.in_flight_le, fun _ => ?_, ?_⟩
      · rw [hinf, hws]
        exact hc.set_of_waited (by omega)
      · rw [hmem, Pgas.Memory.setFlag_flag, if_pos ⟨rfl, rfl⟩, if_neg (by omega)]
  · have hflag : c'.mem.flag q f = c.mem.flag q f := step_flag_of_ne hstep hi hx
    have hinf : inFlight c' ws q f = inFlight c ws q f := step_inFlight_of_ne hstep hi hx ws
    -- No step but the set moves the setter past it, and none but the clear the owner.
    have hks : ks < c'.pc ws ↔ ks < c.pc ws :=
      step_pc_lt_iff_of_flagTarget hstep hi hx hs.set rfl
    have hkc : kc < c'.pc q ↔ kc < c.pc q :=
      step_pc_lt_iff_of_flagTarget hstep hi hx hs.clear rfl
    have hkc' : c'.pc q ≤ kc ↔ c.pc q ≤ kc := by
      rw [← Nat.not_lt, ← Nat.not_lt, hkc]
    have hflag_eq : c'.mem.flag q f =
        if ks < c'.pc ws ∧ inFlight c' ws q f = 0 ∧ c'.pc q ≤ kc then v else 0 := by
      rw [hflag, hc.flag_eq, hinf]
      simp only [hks, hkc']
    refine ⟨by rw [hinf]; simpa only [hks] using hc.in_flight_le, fun hw => ?_, hflag_eq⟩
    by_cases hwait : p = q ∧ c.pc p = kw
    · -- The owner passes its wait: the flag holds `v`, so the write has arrived.
      obtain ⟨rfl, hn⟩ := hwait
      obtain ⟨hv, -⟩ := step_waitFlag hstep (by rw [hn, hs.wait])
      rw [hc.flag_eq] at hv
      have hset : ks < c.pc ws ∧ inFlight c ws p f = 0 ∧ c.pc p ≤ kc :=
        Classical.byContradiction fun hno => hs.value_ne (by rw [if_neg hno] at hv; exact hv.symm)
      rw [hks, hinf]
      exact ⟨hset.1, hset.2.1⟩
    · have hkw : kw < c'.pc q ↔ kw < c.pc q :=
        step_pc_lt_iff hstep fun hqp hpk => hwait ⟨hqp.symm, hpk⟩
      rw [hks, hinf]
      exact hc.set_of_waited (hkw.mp hw)

theorem Signal.handshake_nic (hs : Signal prog q f v ws ks kw kc) {c c' : Config A F α}
    {p d : Nat} (hP : Posted prog c) (hc : Handshake q f v ws ks kw kc c)
    (hdel : c.deliver p d = some c') : Handshake q f v ws ks kw kc c' := by
  obtain ⟨op, rest, hsent, hpc, hmem, -⟩ := deliver_eq_some hdel
  have hlt := hs.wait_lt_clear
  have hinf := inFlight_deliver hdel hsent ws q f
  by_cases hx : d = q ∧ op.flagTarget = some f
  · -- The setter's write arrives: it was in flight once, so the owner had not waited.
    obtain ⟨rfl, hf⟩ := hx
    obtain ⟨rfl, rfl⟩ := hs.eq_of_inFlight hP (by rw [hsent]; exact List.mem_cons_self) hf
    rw [if_pos ⟨rfl, rfl, hf⟩] at hinf
    have hle := hc.in_flight_le
    have hks : ks < c.pc p := Classical.byContradiction fun hno => by
      rw [if_neg hno] at hle
      omega
    rw [if_pos hks] at hle
    have h0 : inFlight c' p d f = 0 := by omega
    have hnw : ¬ kw < c.pc d := fun hw => by
      have := (hc.set_of_waited hw).2
      omega
    refine ⟨by rw [h0]; exact Nat.zero_le _, fun hw => absurd (by rwa [hpc] at hw) hnw, ?_⟩
    rw [hmem, hpc, h0, Op.apply, Pgas.Memory.setFlag_flag, if_pos ⟨rfl, rfl⟩,
      if_pos ⟨hks, rfl, by omega⟩]
  · have hflag : c'.mem.flag q f = c.mem.flag q f :=
      deliver_flag_of_ne hdel hsent fun hdq hf => hx ⟨hdq, hf⟩
    rw [if_neg fun h => hx ⟨h.2.1.symm, h.2.2⟩, Nat.add_zero] at hinf
    refine ⟨?_, ?_, ?_⟩
    · rw [hinf, hpc]
      exact hc.in_flight_le
    · rw [hinf, hpc]
      exact hc.set_of_waited
    · rw [hflag, hinf, hpc]
      exact hc.flag_eq

/-- Past its wait, the owner of a signal has seen the write arrive: the
    setter has posted it. -/
theorem Signal.set_of_waited (hs : Signal prog q f v ws ks kw kc) {c₀ c : Config A F α}
    (h0 : c₀.mem.flag q f = 0) (hsent : ∀ p d, c₀.sent p d = []) (hws : c₀.pc ws ≤ ks)
    (hq : c₀.pc q ≤ kw) (h : Reachable (Step prog) c₀ c) : kw < c.pc q → ks < c.pc ws := by
  have hinit : Handshake q f v ws ks kw kc c₀ := by
    have hnone : inFlight c₀ ws q f = 0 := by rw [inFlight, hsent]; rfl
    refine ⟨by rw [hnone]; exact Nat.zero_le _, fun hlt => absurd hlt (by omega), ?_⟩
    rw [h0, if_neg (by omega)]
  have hinv := Reachable.invariant (I := Handshake q f v ws ks kw kc) hinit
    (fun s s' hr hc hstep => by
      obtain ⟨e, he⟩ := hstep
      cases e with
      | pe p => exact hs.handshake_pe hc he
      | nic p d => exact hs.handshake_nic (posted_reachable hsent hr) hc he) h
  exact fun hw => (hinv.set_of_waited hw).1

end Signal

section Count

/-- How many of the additions `adders` have arrived: each is a PE and a
    position in its program, and it has arrived when the PE has run it and
    nothing it posted to the flag is still in flight. -/
def landed (c : Config A F α) (q : Nat) (f : F) (adders : List (Nat × Nat)) : Nat :=
  adders.countP fun w => decide (w.2 < c.pc w.1 ∧ inFlight c w.1 q f = 0)

/-- Flag `f` of PE `q` as a counter: each instruction of `adders`, on PEs
    of their own, posts an addition of one to it, `q` waits for it to hold
    their number at `kw` and clears it at `kc > kw`, and no other instruction
    writes it. -/
structure Count (prog : Prog A F α) (q : Nat) (f : F) (adders : List (Nat × Nat)) (kw kc : Nat) :
    Prop where
  add : ∀ w ∈ adders, (prog w.1)[w.2]? = some (.putNbi q (.add f 1))
  nodup : (adders.map Prod.fst).Nodup
  adder_ne : ∀ w ∈ adders, w.1 ≠ q
  wait : (prog q)[kw]? = some (.waitFlag f adders.length)
  clear : (prog q)[kc]? = some (.store f 0)
  wait_lt_clear : kw < kc
  writers : ∀ (p n : Nat) (i : Instr A F α), (prog p)[n]? = some i →
    i.flagTarget p = some (q, f) → (p, n) ∈ adders ∨ p = q ∧ n = kc

/-- Each addition is in flight at most once, and only after it was posted;
    the counter holds how many have arrived until it is cleared, and `0`
    after; its owner is past the wait only once all have arrived. -/
structure Counted (q : Nat) (f : F) (adders : List (Nat × Nat)) (kw kc : Nat) (c : Config A F α) :
    Prop where
  in_flight_le : ∀ w ∈ adders, inFlight c w.1 q f ≤ if w.2 < c.pc w.1 then 1 else 0
  added_of_waited : kw < c.pc q → ∀ w ∈ adders, w.2 < c.pc w.1 ∧ inFlight c w.1 q f = 0
  flag_eq : c.mem.flag q f = if c.pc q ≤ kc then (landed c q f adders : Int) else 0

variable {prog : Prog A F α} {q kw kc : Nat} {f : F} {adders : List (Nat × Nat)}

omit [DecidableEq A] [DecidableEq F] in
/-- Two adders on one PE are one. -/
theorem Count.eq_of_fst_eq (hs : Count prog q f adders kw kc) {w w' : Nat × Nat}
    (hw : w ∈ adders) (hw' : w' ∈ adders) (h : w.1 = w'.1) : w = w' :=
  List.inj_on_of_nodup_map hs.nodup hw hw' h

omit [DecidableEq A] [DecidableEq F] in
/-- A write in flight towards a counter is an addition of one, posted by an
    adder. -/
theorem Count.eq_of_inFlight (hs : Count prog q f adders kw kc) {c : Config A F α}
    (hP : Posted prog c) {p : Nat} {op : Op A F α} (hop : op ∈ c.sent p q)
    (hf : op.flagTarget = some f) : ∃ w ∈ adders, w.1 = p ∧ op = .add f 1 := by
  obtain ⟨n, -, hn⟩ := hP.posted hop
  have hx : (Instr.putNbi q op : Instr A F α).flagTarget p = some (q, f) := by
    simp [Instr.flagTarget, hf]
  rcases hs.writers p n _ hn hx with hadd | ⟨rfl, rfl⟩
  · rw [hs.add _ hadd, Option.some.injEq, Instr.putNbi.injEq] at hn
    exact ⟨(p, n), hadd, rfl, hn.2.symm⟩
  · rw [hs.clear] at hn
    exact absurd (Option.some.inj hn) (by simp)

omit [DecidableEq A] in
/-- No PE's step changes how many additions have arrived: a post is not yet
    an arrival, and nothing else touches an adder's queue to the counter. -/
theorem Count.landed_pe (hs : Count prog q f adders kw kc) {c c' : Config A F α} {p : Nat}
    (hc : Counted q f adders kw kc c) (hstep : step prog p c = some c') :
    landed c' q f adders = landed c q f adders := by
  obtain ⟨i, hi, hself, hother, -⟩ := step_cases hstep
  refine List.countP_congr fun w hw => ?_
  simp only [decide_eq_true_eq]
  by_cases hwp : w.1 = p
  · by_cases hn : c.pc p = w.2
    · -- The adder posts its addition: not arrived before, in flight after.
      have hpost : (prog p)[c.pc p]? = some (.putNbi q (.add f 1)) := by
        rw [hn, ← hwp]
        exact hs.add w hw
      obtain ⟨-, hinf⟩ := step_putNbi hstep hpost
      have h1 : 0 < inFlight c' w.1 q f := by
        rw [hinf, inFlight_post, hwp, if_pos ⟨rfl, rfl, rfl⟩]
        omega
      constructor
      · intro hlanded
        omega
      · intro hlanded
        rw [hwp] at hlanded
        omega
    · -- Any other instruction of the adder writes no counter.
      have hx : i.flagTarget p ≠ some (q, f) := fun hx => by
        rcases hs.writers p _ i hi hx with hadd | ⟨rfl, -⟩
        · exact hn (congrArg Prod.snd (hs.eq_of_fst_eq hadd hw hwp.symm))
        · exact hs.adder_ne w hw hwp
      have hlt : w.2 < c'.pc w.1 ↔ w.2 < c.pc w.1 :=
        step_pc_lt_iff hstep fun _ hpk => hn hpk
      rw [hlt, step_inFlight_of_ne hstep hi hx w.1]
  · -- Another PE's step moves neither the adder nor its queue.
    have hinf : inFlight c' w.1 q f = inFlight c w.1 q f := by
      rw [inFlight, step_sent_of_ne hstep hwp]
      rfl
    rw [hother w.1 hwp, hinf]

omit [DecidableEq A] in
theorem Count.counted_pe (hs : Count prog q f adders kw kc) {c c' : Config A F α} {p : Nat}
    (hc : Counted q f adders kw kc c) (hstep : step prog p c = some c') :
    Counted q f adders kw kc c' := by
  obtain ⟨i, hi, hself, hother, -⟩ := step_cases hstep
  have hlt := hs.wait_lt_clear
  have hlanded := hs.landed_pe hc hstep
  by_cases hx : i.flagTarget p = some (q, f)
  · rcases hs.writers p _ i hi hx with hadd | ⟨rfl, hn⟩
    · -- An adder posts. The owner has not waited: it would have seen this addition.
      have hpq : p ≠ q := hs.adder_ne _ hadd
      rw [hs.add _ hadd, Option.some.injEq] at hi
      subst hi
      obtain ⟨hmem, hinf⟩ := step_putNbi hstep (hs.add _ hadd)
      have hnw : ¬ kw < c.pc q := fun hw => by
        have := (hc.added_of_waited hw _ hadd).1
        exact Nat.lt_irrefl _ this
      have hq : c'.pc q = c.pc q := hother q (Ne.symm hpq)
      refine ⟨fun w hw => ?_, fun hw => absurd (hq ▸ hw) hnw, ?_⟩
      · by_cases hwp : w.1 = p
        · -- The poster itself: one addition in flight, now posted.
          have hwe : w = (p, c.pc p) := hs.eq_of_fst_eq hw hadd hwp
          have h0 : inFlight c p q f = 0 := by
            have := hc.in_flight_le _ hadd
            dsimp only at this
            rw [if_neg (Nat.lt_irrefl _)] at this
            omega
          refine Nat.le_of_eq ?_
          rw [hwe, hinf, inFlight_post, h0, if_pos ⟨rfl, rfl, rfl⟩, hself, if_pos (by omega)]
        · have hinf' : inFlight c' w.1 q f = inFlight c w.1 q f := by
            rw [inFlight, step_sent_of_ne hstep hwp]
            rfl
          rw [hinf', hother w.1 hwp]
          exact hc.in_flight_le w hw
      · rw [hmem, hc.flag_eq, hq, hlanded]
    · -- The owner clears, after its wait, so after every arrival.
      rw [hn, hs.clear, Option.some.injEq] at hi
      subst hi
      obtain ⟨hmem, hsent⟩ := step_store hstep (by rw [hn, hs.clear])
      have hsame : ∀ w ∈ adders, c'.pc w.1 = c.pc w.1 ∧ inFlight c' w.1 p f = inFlight c w.1 p f :=
        fun w hw => ⟨hother w.1 (hs.adder_ne w hw), by rw [inFlight, hsent]; rfl⟩
      refine ⟨fun w hw => ?_, fun _ w hw => ?_, ?_⟩
      · rw [(hsame w hw).1, (hsame w hw).2]
        exact hc.in_flight_le w hw
      · rw [(hsame w hw).1, (hsame w hw).2]
        exact hc.added_of_waited (by omega) w hw
      · rw [hmem, Pgas.Memory.setFlag_flag, if_pos ⟨rfl, rfl⟩, if_neg (by omega)]
  · have hflag : c'.mem.flag q f = c.mem.flag q f := step_flag_of_ne hstep hi hx
    -- No adder posts in this step: its instruction would write the counter.
    have hpc : ∀ w ∈ adders, (w.2 < c'.pc w.1 ↔ w.2 < c.pc w.1) := fun w hw =>
      step_pc_lt_iff_of_flagTarget hstep hi hx (hs.add w hw) rfl
    have hinf : ∀ w ∈ adders, inFlight c' w.1 q f = inFlight c w.1 q f :=
      fun w _ => step_inFlight_of_ne hstep hi hx w.1
    have hkc : kc < c'.pc q ↔ kc < c.pc q :=
      step_pc_lt_iff_of_flagTarget hstep hi hx hs.clear rfl
    have hkc' : c'.pc q ≤ kc ↔ c.pc q ≤ kc := by
      rw [← Nat.not_lt, ← Nat.not_lt, hkc]
    have hadded : ∀ w ∈ adders, (w.2 < c'.pc w.1 ∧ inFlight c' w.1 q f = 0 ↔
        w.2 < c.pc w.1 ∧ inFlight c w.1 q f = 0) := fun w hw => by
      rw [hpc w hw, hinf w hw]
    refine ⟨fun w hw => ?_, fun hw w hwa => ?_, ?_⟩
    · rw [hinf w hw]
      simpa only [hpc w hw] using hc.in_flight_le w hw
    · by_cases hwait : p = q ∧ c.pc p = kw
      · -- The owner passes its wait: the counter holds the number of adders.
        obtain ⟨rfl, hn⟩ := hwait
        obtain ⟨hv, -⟩ := step_waitFlag hstep (by rw [hn, hs.wait])
        rw [hc.flag_eq, if_pos (by omega)] at hv
        have hall : landed c p f adders = adders.length := by omega
        have := List.countP_eq_length.mp hall w hwa
        rw [hadded w hwa]
        simpa only [decide_eq_true_eq] using this
      · have hkw : kw < c'.pc q ↔ kw < c.pc q :=
          step_pc_lt_iff hstep fun hqp hpk => hwait ⟨hqp.symm, hpk⟩
        rw [hadded w hwa]
        exact hc.added_of_waited (hkw.mp hw) w hwa
    · rw [hflag, hc.flag_eq, hlanded]
      simp only [hkc']

theorem Count.counted_nic (hs : Count prog q f adders kw kc) {c c' : Config A F α} {p d : Nat}
    (hP : Posted prog c) (hc : Counted q f adders kw kc c) (hdel : c.deliver p d = some c') :
    Counted q f adders kw kc c' := by
  obtain ⟨op, rest, hsent, hpc, hmem, -⟩ := deliver_eq_some hdel
  have hlt := hs.wait_lt_clear
  have hinf := fun r => inFlight_deliver hdel hsent r q f
  by_cases hx : d = q ∧ op.flagTarget = some f
  · -- An adder's addition arrives: the counter and the number arrived go up by one.
    obtain ⟨rfl, hf⟩ := hx
    obtain ⟨w₀, hw₀, rfl, rfl⟩ := hs.eq_of_inFlight hP (by rw [hsent]; exact List.mem_cons_self) hf
    have hone := hinf w₀.1
    rw [if_pos ⟨rfl, rfl, hf⟩] at hone
    have hle := hc.in_flight_le w₀ hw₀
    have hks : w₀.2 < c.pc w₀.1 := Classical.byContradiction fun hno => by
      rw [if_neg hno] at hle
      omega
    rw [if_pos hks] at hle
    have hnw : ¬ kw < c.pc d := fun hw => by
      have := (hc.added_of_waited hw w₀ hw₀).2
      omega
    -- Every other adder is on another PE, so its queue is untouched.
    have hother : ∀ w ∈ adders, w ≠ w₀ → inFlight c' w.1 d f = inFlight c w.1 d f := by
      intro w hw hne
      have hne1 : w.1 ≠ w₀.1 := fun h => hne (hs.eq_of_fst_eq hw hw₀ h)
      have := hinf w.1
      rwa [if_neg fun h => hne1 h.1, Nat.add_zero] at this
    have hcount : landed c' d f adders = landed c d f adders + 1 := by
      refine Pgas.countP_eq_succ_of_flip (hs.nodup.of_map Prod.fst) hw₀
        (by simp only [decide_eq_false_iff_not, not_and]; omega)
        (by rw [hpc]; simp only [decide_eq_true_eq]; omega) fun w hw hne => ?_
      rw [hpc, hother w hw hne]
    refine ⟨fun w hw => ?_, fun hw => absurd (by rwa [hpc] at hw) hnw, ?_⟩
    · by_cases hne : w = w₀
      · subst hne
        rw [hpc, if_pos hks]
        omega
      · rw [hother w hw hne, hpc]
        exact hc.in_flight_le w hw
    · rw [hmem, hpc, hcount, Op.apply, Pgas.Memory.setFlag_flag, if_pos ⟨rfl, rfl⟩,
        hc.flag_eq, if_pos (by omega), if_pos (by omega)]
      push_cast
      rfl
  · -- Anything else arrives elsewhere.
    have hflag : c'.mem.flag q f = c.mem.flag q f :=
      deliver_flag_of_ne hdel hsent fun hdq hf => hx ⟨hdq, hf⟩
    have hsame : ∀ r, inFlight c' r q f = inFlight c r q f := fun r => by
      have := hinf r
      rwa [if_neg fun h => hx ⟨h.2.1.symm, h.2.2⟩, Nat.add_zero] at this
    have hlanded : landed c' q f adders = landed c q f adders := by
      unfold landed
      simp only [hsame, hpc]
    refine ⟨?_, ?_, ?_⟩
    · simpa only [hsame, hpc] using hc.in_flight_le
    · simpa only [hsame, hpc] using hc.added_of_waited
    · rw [hflag, hlanded, hpc]
      exact hc.flag_eq

/-- Past its wait, the owner of a counter has seen every addition arrive:
    every adder has posted it. -/
theorem Count.added_of_waited (hs : Count prog q f adders kw kc) {c₀ c : Config A F α}
    (h0 : c₀.mem.flag q f = 0) (hsent : ∀ p d, c₀.sent p d = [])
    (hadd : ∀ w ∈ adders, c₀.pc w.1 ≤ w.2) (hq : c₀.pc q ≤ kw)
    (h : Reachable (Step prog) c₀ c) : kw < c.pc q → ∀ w ∈ adders, w.2 < c.pc w.1 := by
  have hnone : ∀ r, inFlight c₀ r q f = 0 := fun r => by rw [inFlight, hsent]; rfl
  have hinit : Counted q f adders kw kc c₀ := by
    have hzero : landed c₀ q f adders = 0 :=
      List.countP_eq_zero.mpr fun w hw => by
        have := hadd w hw
        simp only [decide_eq_true_eq, not_and]
        omega
    refine ⟨fun w _ => by rw [hnone]; exact Nat.zero_le _, fun hlt => absurd hlt (by omega), ?_⟩
    rw [h0, hzero, if_pos (by have := hs.wait_lt_clear; omega)]
    rfl
  have hinv := Reachable.invariant (I := Counted q f adders kw kc) hinit
    (fun s s' hr hc hstep => by
      obtain ⟨e, he⟩ := hstep
      cases e with
      | pe p => exact hs.counted_pe hc he
      | nic p d => exact hs.counted_nic (posted_reachable hsent hr) hc he) h
  exact fun hw w hwa => (hinv.added_of_waited hw w hwa).1

end Count

end AsyncPgas
