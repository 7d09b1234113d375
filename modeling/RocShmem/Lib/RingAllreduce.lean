import Mathlib.Data.ZMod.Basic
import Mathlib.Tactic.IntervalCases
import Mathlib.Tactic.LinearCombination
import Mathlib.Tactic.Ring

/-!
# Ring Allreduce

`P` members stand on a ring, each holding `P` chunks of data; member and
chunk numbers are taken modulo `P`. The ring allreduce combines the chunks
of all members with an operator `op` and leaves the result at every member,
sending only to the successor on the ring, in two phases of `P - 1` rounds
each.

In the reduce-scatter, round `iter` has every member `me` fold into its
chunk `me - iter` the chunk its predecessor holds there, its own value on
the left (`reduceRound`). A chunk `c` thus travels from member `c - 1`
around the ring, each member folding its own value in (`chain`), and after
`P - 1` rounds member `me` holds the whole fold of chunk `me + 2`
(`reduceScatter_complete`). In the allgather, round `iter` has member `me`
take its predecessor's chunk `me - iter` (`gatherRound`); the complete
chunks travel on, and after `P - 1` more rounds every member holds every
complete chunk (`ringAllreduce_eq`).

Which order the values of a chunk are folded in depends on the chunk. For a
commutative and associative `op` every order gives the fold of the members'
values in member order (`chain_eq_fold1`).

## Main definitions

* `reduceRound`, `gatherRound`: One round of each phase.
* `reduceScatter`, `gatherRounds`: Rounds run one after another.
* `chain`: The value a chunk has after travelling part of the ring.
* `fold1`: The fold of a sequence from its first element.

## Theorems

* `reduceScatter_apply`: What every member holds after some reduce rounds.
* `reduceScatter_complete`: After `P - 1` rounds member `me` holds the whole
  fold of chunk `me + 2`.
* `gatherRounds_apply`: The complete chunks a member holds during the
  allgather.
* `ringAllreduce_eq`: After both phases every member holds every chunk's
  whole fold.
* `chain_eq_fold1`: For a commutative associative operator, a chunk's whole
  fold is the fold in member order.
-/

namespace RingAllreduce

variable {α : Type} (op : α → α → α) {P : Nat}

/-- Round `iter` of the reduce-scatter: member `me` folds into its chunk
    `me - iter` its predecessor's chunk there. -/
def reduceRound (d : ZMod P → ZMod P → α) (iter : Nat) : ZMod P → ZMod P → α :=
  fun me c => if c = me - iter then op (d me c) (d (me - 1) c) else d me c

/-- Round `iter` of the allgather: member `me` takes its predecessor's chunk
    `me - iter`. -/
def gatherRound (d : ZMod P → ZMod P → α) (iter : Nat) : ZMod P → ZMod P → α :=
  fun me c => if c = me - iter then d (me - 1) c else d me c

/-- The reduce rounds `0, …, n - 1`. -/
def reduceScatter (d : ZMod P → ZMod P → α) (n : Nat) : ZMod P → ZMod P → α :=
  (List.range n).foldl (reduceRound op) d

/-- The gather rounds `start, …, start + n - 1`. -/
def gatherRounds (d : ZMod P → ZMod P → α) (start n : Nat) : ZMod P → ZMod P → α :=
  (List.range' start n).foldl gatherRound d

/-- Chunk `c` after it left member `c - 1` and the next `n` members folded
    their values into it. -/
def chain (x : ZMod P → ZMod P → α) (c : ZMod P) : Nat → α
  | 0 => x (c - 1) c
  | n + 1 => op (x (c + n) c) (chain x c n)

/-- `f 0`, `f 1`, …, `f n` folded from the left. -/
def fold1 (f : Nat → α) : Nat → α
  | 0 => f 0
  | n + 1 => op (fold1 f n) (f (n + 1))

theorem reduceScatter_succ (d : ZMod P → ZMod P → α) (n : Nat) :
    reduceScatter op d (n + 1) = reduceRound op (reduceScatter op d n) n := by
  rw [reduceScatter, List.range_succ, List.foldl_append]
  rfl

theorem gatherRounds_succ (d : ZMod P → ZMod P → α) (start n : Nat) :
    gatherRounds d start (n + 1) = gatherRound (gatherRounds d start n) (start + n) := by
  rw [gatherRounds, List.range'_1_concat, List.foldl_append]
  rfl

/-- A count taken modulo `P` after adding whole turns of the ring, as the
    code computes `(my_pe - iter + 2 P) mod P` in unsigned arithmetic. -/
theorem natCast_add_mul_sub {a n k : Nat} (h : k ≤ n * P) :
    ((a + n * P - k : Nat) : ZMod P) = a - k := by
  rw [Nat.cast_sub (by omega), Nat.cast_add, Nat.cast_mul, ZMod.natCast_self, mul_zero, add_zero]

section Rounds

variable [NeZero P]

/-- How far along the ring from member `c - 1` member `me` is. -/
theorem val_add_one_eq {me c : ZMod P} {n : Nat} (h : (me - c + 1).val = n) :
    me = c - 1 + n := by
  have hcast : ((me - c + 1).val : ZMod P) = me - c + 1 := ZMod.natCast_zmod_val _
  rw [h] at hcast
  rw [hcast]
  ring

/-- After `t` reduce rounds, the members from `c - 1` on to `t` steps past it
    hold chunk `c` folded along the way; the others hold their own value. -/
theorem reduceScatter_apply (x : ZMod P → ZMod P → α) {t : Nat} (ht : t < P)
    (me c : ZMod P) :
    reduceScatter op x t me c =
      if (me - c + 1).val ≤ t then chain op x c (me - c + 1).val else x me c := by
  induction t generalizing me c with
  | zero =>
      rw [reduceScatter, List.range_zero, List.foldl_nil]
      split
      · -- Only member `c - 1` is at distance `0`.
        rename_i h0
        have hme := val_add_one_eq (Nat.le_zero.mp h0)
        rw [Nat.le_zero.mp h0, hme, Nat.cast_zero, add_zero]
        rfl
      · rfl
  | succ t ih =>
      have ht' : t < P := by omega
      rw [reduceScatter_succ, reduceRound]
      by_cases hc : c = me - t
      · -- The chunk member `me` folds in this round: it was `t + 1` steps
        -- from `c - 1`, its predecessor `t`.
        have hdist : (me - c + 1).val = t + 1 := by
          rw [hc, show me - (me - t) + 1 = ((t + 1 : Nat) : ZMod P) by push_cast; ring,
            ZMod.val_natCast_of_lt ht]
        have hpred : (me - 1 - c + 1).val = t := by
          rw [hc, show me - 1 - (me - t) + 1 = ((t : Nat) : ZMod P) by ring,
            ZMod.val_natCast_of_lt ht']
        rw [if_pos hc, hdist, if_pos le_rfl, ih ht', ih ht', hdist, hpred, if_neg (by omega),
          if_pos le_rfl, chain, hc, sub_add_cancel]
      · -- Any other chunk keeps its value, and its distance is not `t + 1`.
        have hne : (me - c + 1).val ≠ t + 1 := fun h => hc (by
          have := val_add_one_eq h
          rw [this]
          push_cast
          ring)
        rw [if_neg hc, ih ht']
        by_cases hle : (me - c + 1).val ≤ t
        · rw [if_pos hle, if_pos (by omega)]
        · rw [if_neg hle, if_neg (by omega)]

/-- After the `P - 1` reduce rounds member `me` holds the whole fold of
    chunk `me + 2`. -/
theorem reduceScatter_complete (x : ZMod P → ZMod P → α) (me : ZMod P) :
    reduceScatter op x (P - 1) me (me + 2) = chain op x (me + 2) (P - 1) := by
  have hP : 0 < P := Nat.pos_of_neZero P
  have hdist : (me - (me + 2) + 1).val = P - 1 := by
    have hcast : ((P - 1 : Nat) : ZMod P) = -1 := by
      rw [Nat.cast_sub (by omega), ZMod.natCast_self, Nat.cast_one, zero_sub]
    rw [show me - (me + 2) + 1 = -1 by ring, ← hcast, ZMod.val_natCast_of_lt (by omega)]
  rw [reduceScatter_apply op x (by omega), hdist, if_pos le_rfl]

/-- During the allgather, after `g` rounds member `me` holds the complete
    chunks `me + 2`, `me + 1`, …, `me + 2 - g`. -/
theorem gatherRounds_apply (x : ZMod P → ZMod P → α) {g : Nat} (hg : g ≤ P - 1)
    (me : ZMod P) {j : Nat} (hj : j ≤ g) :
    gatherRounds (reduceScatter op x (P - 1)) (P - 1) g me (me + 2 - j) =
      chain op x (me + 2 - j) (P - 1) := by
  have hP : 0 < P := Nat.pos_of_neZero P
  induction g generalizing me j with
  | zero =>
      rw [Nat.le_zero.mp hj, Nat.cast_zero, sub_zero]
      exact reduceScatter_complete op x me
  | succ g ih =>
      rw [gatherRounds_succ, gatherRound]
      -- Round `P - 1 + g` brings member `me` the chunk `me + 1 - g`.
      have hround : me - ((P - 1 + g : Nat) : ZMod P) = me + 2 - (g + 1 : Nat) := by
        rw [Nat.cast_add, Nat.cast_sub (by omega), ZMod.natCast_self]
        push_cast
        ring
      by_cases hjg : j = g + 1
      · subst hjg
        rw [if_pos hround.symm, show me + 2 - ((g + 1 : Nat) : ZMod P) = me - 1 + 2 - g by
          push_cast; ring]
        exact ih (by omega) (me - 1) le_rfl
      · have hne : me + 2 - (j : ZMod P) ≠ me - ((P - 1 + g : Nat) : ZMod P) := by
          rw [hround]
          intro h
          have hcast : (j : ZMod P) = ((g + 1 : Nat) : ZMod P) := by
            linear_combination -h
          have := congrArg ZMod.val hcast
          rw [ZMod.val_natCast_of_lt (by omega), ZMod.val_natCast_of_lt (by omega)] at this
          omega
        rw [if_neg hne]
        exact ih (by omega) me (by omega)

/-- After both phases every member holds the whole fold of every chunk. -/
theorem ringAllreduce_eq (x : ZMod P → ZMod P → α) (me c : ZMod P) :
    gatherRounds (reduceScatter op x (P - 1)) (P - 1) (P - 1) me c = chain op x c (P - 1) := by
  have hP : 0 < P := Nat.pos_of_neZero P
  -- Chunk `c` is `me + 2 - j` for `j` the distance from `c` to `me + 2`.
  have hc : me + 2 - ((me + 2 - c).val : ZMod P) = c := by
    rw [ZMod.natCast_zmod_val]
    ring
  have hj : (me + 2 - c).val ≤ P - 1 := by
    have := ZMod.val_lt (me + 2 - c)
    omega
  have h := gatherRounds_apply op x le_rfl me hj
  rwa [hc] at h

end Rounds

section Fold

variable {op}

/-- A chunk's fold along the ring from member `c - 1`, with a commutative
    `op`, is a fold from the left. -/
theorem chain_eq_foldl (hcomm : ∀ a b, op a b = op b a) (x : ZMod P → ZMod P → α)
    (c : ZMod P) (n : Nat) :
    chain op x c n =
      (List.range' 1 n).foldl (fun acc (i : Nat) => op acc (x (c - 1 + i) c)) (x (c - 1) c) := by
  induction n with
  | zero => rfl
  | succ n ih =>
      rw [chain, ih, List.range'_1_concat, List.foldl_append, List.foldl_cons, List.foldl_nil,
        hcomm]
      congr 2
      push_cast
      ring

theorem fold1_eq_foldl (f : Nat → α) (n : Nat) :
    fold1 op f n = (List.range' 1 n).foldl (fun acc i => op acc (f i)) (f 0) := by
  induction n with
  | zero => rfl
  | succ n ih =>
      rw [fold1, ih, List.range'_1_concat, List.foldl_append, List.foldl_cons, List.foldl_nil,
        Nat.add_comm 1 n]

theorem fold1_congr {f g : Nat → α} {n : Nat} (h : ∀ i ≤ n, f i = g i) :
    fold1 op f n = fold1 op g n := by
  induction n with
  | zero => exact h 0 (Nat.le_refl 0)
  | succ n ih => rw [fold1, fold1, ih fun i hi => h i (Nat.le_succ_of_le hi), h (n + 1) le_rfl]

/-- The fold of all `P` values from member `s` on around the ring. -/
theorem foldl_rotate_succ [NeZero P] (hcomm : ∀ a b, op a b = op b a)
    (hassoc : ∀ a b c, op (op a b) c = op a (op b c)) (y : ZMod P → α) (s : ZMod P) :
    (List.range' 1 (P - 1)).foldl (fun acc (i : Nat) => op acc (y (s + 1 + i))) (y (s + 1)) =
      (List.range' 1 (P - 1)).foldl (fun acc (i : Nat) => op acc (y (s + i))) (y s) := by
  have : Std.Associative op := ⟨hassoc⟩
  have hP0 : 0 < P := Nat.pos_of_neZero P
  rcases Nat.lt_or_ge P 2 with hP | hP
  · -- With one member the ring has one position.
    obtain rfl : P = 1 := by omega
    rw [show (1 : ZMod 1) = 0 from rfl, add_zero]
  · obtain ⟨n, hn⟩ : ∃ n, P - 1 = n + 1 := ⟨P - 2, by omega⟩
    -- Both sides fold the middle `s + 1, …, s + n` and `y s`, once on the
    -- left and once on the right.
    have hlast : s + 1 + ((1 + n : Nat) : ZMod P) = s := by
      rw [show (1 + n : Nat) = P - 1 by omega, Nat.cast_sub (by omega), ZMod.natCast_self]
      ring
    have hmid : (List.range' 2 n).map (fun (i : Nat) => y (s + i)) =
        (List.range' 1 n).map (fun (i : Nat) => y (s + 1 + i)) := by
      rw [show (2 : Nat) = 1 + 1 from rfl, ← List.map_add_range', List.map_map]
      congr 1
      funext i
      simp only [Function.comp_apply, Nat.cast_add, Nat.cast_one]
      ring_nf
    -- The fold from `s + 1` ends with `y s`; the one from `s` starts with it.
    have hleft : (List.range' 1 (n + 1)).foldl (fun acc (i : Nat) => op acc (y (s + 1 + i)))
        (y (s + 1)) =
        op (((List.range' 1 n).map fun (i : Nat) => y (s + 1 + i)).foldl op (y (s + 1))) (y s) := by
      rw [List.range'_1_concat, List.foldl_append, List.foldl_cons, List.foldl_nil, hlast,
        List.foldl_map]
    have hright : (List.range' 1 (n + 1)).foldl (fun acc (i : Nat) => op acc (y (s + i))) (y s) =
        op (y s) (((List.range' 2 n).map fun (i : Nat) => y (s + i)).foldl op (y (s + 1))) := by
      rw [List.range'_succ, List.foldl_cons, Nat.cast_one,
        ← @List.foldl_assoc _ op _ _ (y s) (y (s + 1)), List.foldl_map]
    rw [hn, hleft, hright, hmid, hcomm]

/-- For a commutative associative `op`, a chunk's whole fold along the ring
    is the fold of the members' values in member order. -/
theorem chain_eq_fold1 [NeZero P] (hcomm : ∀ a b, op a b = op b a)
    (hassoc : ∀ a b c, op (op a b) c = op a (op b c)) (x : ZMod P → ZMod P → α) (c : ZMod P) :
    chain op x c (P - 1) = fold1 op (fun i => x (i : ZMod P) c) (P - 1) := by
  -- The fold from any member `s` around the ring is the one from member `0`.
  have hrot : ∀ k : Nat,
      (List.range' 1 (P - 1)).foldl (fun acc (i : Nat) => op acc (x ((k : ZMod P) + i) c))
        (x (k : ZMod P) c) =
      (List.range' 1 (P - 1)).foldl (fun acc (i : Nat) => op acc (x (0 + i) c)) (x 0 c) := by
    intro k
    induction k with
    | zero => rw [Nat.cast_zero]
    | succ k ih =>
        rw [Nat.cast_succ]
        exact (foldl_rotate_succ hcomm hassoc (fun m => x m c) (k : ZMod P)).trans ih
  rw [chain_eq_foldl hcomm, fold1_eq_foldl, ← ZMod.natCast_zmod_val (c - 1), hrot,
    Nat.cast_zero]
  simp only [zero_add]

end Fold

end RingAllreduce
