import RocShmem.Lib.WaveIntrinsics
import RocShmem.Lib.Dim3
import RocShmem.Util.Memcpy

/-!
# Wavefront Coalescing

With `USE_WF_COAL`, a put or get of the reverse-offload and GPU-IB backends
first calls `WfCoalOn::coalesce` in every active lane of the wavefront, and
only the lanes for which it returns true go on to send a message, with the
size it wrote back. A lane is coalescable when its lower neighbour is active
and its own request continues the neighbour's: same target and size, source
and destination `size` bytes above. The lanes that are not coalescable lead:
each counts the coalescable lanes right above it from a ballot and sends one
message for all of them.

The lanes learn their neighbour's request through `__shfl_up`, 32 bits at a
time. The addresses cross in halves and come back whole
(`Wave.combine_high32_low32`), but the size crosses as an `unsigned int`, so
the test compares only the neighbour's low 32 bits of size (`MergesWith`).
The leader adds the sizes up in an `int` and stores that back into the
`size_t`: a message of `2 ^ 31` bytes or more comes out with the value the
`int` held, sign-extended (`intWrap`).

What the code does is stated exactly: a lane sends just when it does not
continue its lower neighbour, and a leader's size is its own times the run,
through the `int` (`coalescable_iff`, `coalesce_of_not_coalescable`). Below
`2 ^ 31` bytes in all, the messages sent move exactly the bytes the lanes
asked for, in lane order (`sentBytes_eq_requestedBytes`): the lanes split
into runs, and a run's bytes are its leader's one message.

## Main definitions

* `LaneRequest`, `Wavefront`: One lane's arguments, and a wavefront of them.
* `WfCoalOn.coalescable`, `WfCoalOn.coalesce`: The lane's test and the call.
* `WfCoalOn.intWrap`: A `size_t` stored in an `int` and read back.
* `WfCoalOn.sentMessages`, `WfCoalOn.activeRequests`: What the lanes send
  and what they asked for.

## Theorems

* `WfCoalOn.coalescable_iff`: The test, read off the ballots and shuffles.
* `WfCoalOn.coalesce_of_not_coalescable`: A leader's size, from the ballot
  of its run.
* `WfCoalOn.run_lane`: The lanes of a run continue their leader's request.
* `WfCoalOn.sentBytes_eq_requestedBytes`: Below `2 ^ 31` bytes, the messages
  move each requested byte once.
-/

namespace RocShmem

/-- One lane's arguments to `coalesce`: the target `pe`, the `source` and
    `dest` addresses and `*size`. -/
structure LaneRequest where
  pe : Int
  source : UInt64
  dest : UInt64
  size : UInt64
deriving DecidableEq, Repr

namespace LaneRequest

/-- The bytes a request moves: the target with each source byte and the
    destination byte it goes to. -/
def bytes (r : LaneRequest) : List (Int × UInt64 × UInt64) :=
  (List.range r.size.toNat).map fun k => (r.pe, r.source + k.toUInt64, r.dest + k.toUInt64)

/-- `b` continues `a` as the code tests it: `a`'s size, as it arrives through
    an `unsigned int`, is `b`'s, and `b` starts `b.size` bytes above `a` in
    both buffers, on the same target. -/
def MergesWith (a b : LaneRequest) : Prop :=
  a.size.toUInt32.toUInt64 = b.size ∧ a.source + b.size = b.source ∧
    a.dest + b.size = b.dest ∧ b.pe = a.pe

instance (a b : LaneRequest) : Decidable (a.MergesWith b) :=
  inferInstanceAs (Decidable (_ ∧ _ ∧ _ ∧ _))

@[simp] theorem length_bytes (r : LaneRequest) : r.bytes.length = r.size.toNat := by
  simp [bytes]

end LaneRequest

/-- A wavefront at a call of `coalesce`: each lane's arguments, or `none` for
    a lane that is not active. Lanes from `WF_SIZE` on are not read. -/
structure Wavefront where
  lane : Nat → Option LaneRequest

namespace WfCoalOn

/-- The active lanes, `__ballot(1)`. -/
def activeMask (w : Wavefront) : UInt64 := Wave.ballot fun j => (w.lane j).isSome

/-- `coalescable` in lane `wvId` with arguments `r`: the lower lane is active
    and `r` continues its request. -/
def coalescable (w : Wavefront) (wvId : Nat) (r : LaneRequest) : Bool :=
  -- `__shfl_up(·, 1)` reads the lower lane, and lane `0` reads itself; an
  -- inactive lower lane is never read, as the mask test fails first
  let lower := (w.lane (wvId - 1)).getD r
  let lowerSrc := Wave.combine (Wave.high32 lower.source) (Wave.low32 lower.source)
  let lowerDst := Wave.combine (Wave.high32 lower.dest) (Wave.low32 lower.dest)
  let lowerSize : UInt64 := lower.size.toUInt32.toUInt64
  (activeMask w &&& ((1 : UInt64) <<< (wvId.toUInt64 - 1))) != 0 &&
    lowerSize == r.size && lowerSrc + r.size == r.source && lowerDst + r.size == r.dest &&
    r.pe == lower.pe && wvId != 0

/-- Whether lane `j` is active and coalescable, its bit in the second ballot. -/
def coalBit (w : Wavefront) (j : Nat) : Bool :=
  match w.lane j with
  | some q => coalescable w j q
  | none => false

/-- `lowerNeighborCoal`, `__ballot(coalescable)`. -/
def lowerNeighborCoal (w : Wavefront) : UInt64 := Wave.ballot (coalBit w)

/-- `WfCoalOn::coalesce` in lane `wvId` with arguments `r`: whether the lane
    sends a message, and `*size` afterwards. -/
def coalesce (w : Wavefront) (wvId : Nat) (r : LaneRequest) : Bool × UInt64 :=
  if coalescable w wvId r then (false, r.size)
  else
    -- `int coal_size = *size`
    let coalSize : Int32 := r.size.toUInt32.toInt32
    let coalMsgs := Wave.ffsll (~~~(lowerNeighborCoal w >>> (wvId + 1).toUInt64))
    -- `coal_size += *size * (coalMsgs - 1)`, added as a `size_t` and stored in the `int`
    let coalSize := if coalMsgs != 0 then
        (coalSize.toInt64.toUInt64 + r.size * (coalMsgs - 1).toUInt64).toUInt32.toInt32
      else coalSize
    -- `*size = coal_size`
    (true, coalSize.toInt64.toUInt64)

/-- A `size_t` stored in an `int` and read back as a `size_t`. -/
def intWrap (x : UInt64) : UInt64 := x.toUInt32.toInt32.toInt64.toUInt64

/-- The number of coalescable lanes directly above lane `i`. -/
def runAbove (w : Wavefront) (i : Nat) : Nat := Wave.runLen (coalBit w) (i + 1) (63 - i)

/-- The requests of the active lanes, lowest lane first. -/
def activeRequests (w : Wavefront) : List LaneRequest := (List.range wfSize).filterMap w.lane

/-- The message lane `j` sends: its request with the size `coalesce` wrote
    back, when `coalesce` returns true (the put or get returns early otherwise). -/
def sentMessage (w : Wavefront) (j : Nat) : Option LaneRequest :=
  (w.lane j).bind fun r =>
    if (coalesce w j r).1 then some { r with size := (coalesce w j r).2 } else none

/-- The messages the wavefront sends, lowest lane first. -/
def sentMessages (w : Wavefront) : List LaneRequest := (List.range wfSize).filterMap (sentMessage w)

section Spec

variable (w : Wavefront)

/-- The test of lane `i`, read off the ballot of active lanes and the
    shuffled halves: lane `i` is coalescable just when it is not lane `0` and
    continues an active lower lane. -/
theorem coalescable_iff {i : Nat} (hi : i < wfSize) (r : LaneRequest) :
    coalescable w i r = true ↔ i ≠ 0 ∧ ∃ a, w.lane (i - 1) = some a ∧ a.MergesWith r := by
  rcases Nat.eq_zero_or_pos i with rfl | hpos
  · simp [coalescable]
  · have hmask := Wave.ballot_and_shiftLeft_ne_zero (fun j => (w.lane j).isSome) hpos hi
    cases hlow : w.lane (i - 1) with
    | none => simp [coalescable, activeMask, hmask, hlow]
    | some a =>
      have hi0 : i ≠ 0 := Nat.pos_iff_ne_zero.1 hpos
      simp only [coalescable, activeMask, hmask, hlow, Option.getD_some,
        Wave.combine_high32_low32, LaneRequest.MergesWith]
      simp [hi0, and_assoc]

theorem coalBit_zero : coalBit w 0 = false := by
  unfold coalBit
  split
  · rw [Bool.eq_false_iff]
    intro h
    exact ((coalescable_iff w (by decide) _).1 h).1 rfl
  · rfl

/-- Above an inactive lane no lane is coalescable. -/
theorem coalBit_succ_of_none {i : Nat} (hi : i + 1 < wfSize) (h : w.lane i = none) :
    coalBit w (i + 1) = false := by
  unfold coalBit
  split
  · rw [Bool.eq_false_iff]
    intro hc
    obtain ⟨-, a, ha, -⟩ := (coalescable_iff w hi _).1 hc
    simp [h] at ha
  · rfl

theorem coalesce_of_coalescable {i : Nat} {r : LaneRequest} (h : coalescable w i r = true) :
    coalesce w i r = (false, r.size) := by
  simp [coalesce, h]

/-- The low 32 bits of a `size_t` survive the round trip through an `int`. -/
theorem toUInt32_intWrap (x : UInt64) : (intWrap x).toUInt32 = x.toUInt32 := by
  apply UInt32.toBitVec_inj.1
  apply BitVec.eq_of_getLsbD_eq
  intro i hi
  simp [intWrap, BitVec.getLsbD_signExtend, hi]
  omega

/-- Below `2 ^ 31` a `size_t` survives the round trip through an `int`. -/
theorem intWrap_of_lt {x : UInt64} (h : x.toNat < 2 ^ 31) : intWrap x = x := by
  apply UInt64.toBitVec_inj.1
  have hmsb : (BitVec.setWidth 32 x.toBitVec).msb = false := by
    rw [BitVec.msb_eq_decide]
    simp
    omega
  simp only [intWrap, Int64.toBitVec_toUInt64, Int32.toBitVec_toInt64, UInt32.toBitVec_toInt32,
    UInt64.toBitVec_toUInt32]
  rw [BitVec.signExtend_eq_setWidth_of_msb_false hmsb]
  apply BitVec.eq_of_toNat_eq
  simp
  omega

/-- A leader sends, with its size times one more than the run above it,
    passed through the `int`. -/
theorem coalesce_of_not_coalescable {i : Nat} (hi : i < wfSize) {r : LaneRequest}
    (h : coalescable w i r = false) :
    coalesce w i r = (true, intWrap (r.size * (runAbove w i + 1).toUInt64)) := by
  have hffs : Wave.ffsll (~~~(lowerNeighborCoal w >>> (i + 1).toUInt64)) =
      (runAbove w i).toUInt32 + 1 :=
    Wave.ffsll_not_ballot_shiftRight (coalBit w) (coalBit_zero w) hi
  have hrun : runAbove w i < 64 := by
    have := Wave.runLen_le (coalBit w) (i + 1) (63 - i)
    simp only [runAbove]
    omega
  have hmsgs : ((runAbove w i).toUInt32 + 1 != 0) = true := by
    simp only [bne_iff_ne, ne_eq, ← UInt32.toNat_inj]
    simp
    omega
  have hcast : (runAbove w i).toUInt32.toUInt64 = (runAbove w i).toUInt64 := by
    apply UInt64.toNat_inj.1
    simp
    omega
  have hsucc : (runAbove w i + 1).toUInt64 = (runAbove w i).toUInt64 + 1 := by
    apply UInt64.toNat_inj.1
    simp [UInt64.toNat_add]
  simp only [coalesce, h, hffs, hmsgs, Bool.false_eq_true, if_false, if_true,
    UInt32.add_sub_cancel, hcast]
  -- both sizes agree in their low 32 bits, which is all the `int` keeps
  show (true, intWrap (intWrap r.size + r.size * (runAbove w i).toUInt64)) = _
  rw [hsucc, UInt64.mul_succ, UInt64.add_comm (r.size * _)]
  simp only [intWrap, UInt64.toUInt32_add]
  rw [show r.size.toUInt32.toInt32.toInt64.toUInt64.toUInt32 = r.size.toUInt32 from
    toUInt32_intWrap r.size]

end Spec

/-! ## Runs of lanes -/

/-- The request `k` lanes up a run led by `r`: the same target and size, `k`
    sizes further on in both buffers. -/
def runMember (r : LaneRequest) (k : Nat) : LaneRequest :=
  { r with source := r.source + k.toUInt64 * r.size, dest := r.dest + k.toUInt64 * r.size }

/-- The bytes lane `j` asked to move. -/
def laneBytes (w : Wavefront) (j : Nat) : List (Int × UInt64 × UInt64) :=
  ((w.lane j).map LaneRequest.bytes).getD []

/-- The bytes the message of lane `j` moves. -/
def sentLaneBytes (w : Wavefront) (j : Nat) : List (Int × UInt64 × UInt64) :=
  ((sentMessage w j).map LaneRequest.bytes).getD []

theorem toUInt64_succ (k : Nat) : (k + 1).toUInt64 = k.toUInt64 + 1 := by
  apply UInt64.toNat_inj.1
  simp [UInt64.toNat_add]

theorem toUInt64_mul_add (k t : Nat) (s : UInt64) :
    (k * s.toNat + t).toUInt64 = k.toUInt64 * s + t.toUInt64 := by
  apply UInt64.toNat_inj.1
  simp [UInt64.toNat_add, UInt64.toNat_mul, Nat.add_mod, Nat.mul_mod]

theorem toNat_mul_succ (s : UInt64) (m : Nat) (h : (m + 1) * s.toNat < 2 ^ 64) :
    (s * (m + 1).toUInt64).toNat = (m + 1) * s.toNat := by
  rw [UInt64.toNat_mul]
  simp
  rw [Nat.mul_comm]
  exact Nat.mod_eq_of_lt h

theorem length_flatMap_runMember (r : LaneRequest) (m : Nat) :
    ((List.range m).flatMap fun k => (runMember r k).bytes).length = m * r.size.toNat := by
  simp [List.length_flatMap, runMember]

/-- The bytes of `m + 1` requests of a run, one after another, are the bytes
    of one request `m + 1` times the size. -/
theorem flatMap_bytes_runMember (r : LaneRequest) (m : Nat)
    (hfit : (m + 1) * r.size.toNat < 2 ^ 64) :
    (List.range (m + 1)).flatMap (fun k => (runMember r k).bytes) =
      { r with size := r.size * (m + 1).toUInt64 }.bytes := by
  simp only [LaneRequest.bytes, toNat_mul_succ r.size m hfit]
  rw [Dim3.range_mul_eq_flatMap, List.map_flatMap]
  refine List.flatMap_congr fun k _ => ?_
  rw [List.map_map]
  refine List.map_congr_left fun t _ => ?_
  simp only [runMember, Function.comp, toUInt64_mul_add, UInt64.add_assoc]

section Runs

variable (w : Wavefront)

/-- The lanes of a leader's run continue its request, one size further each,
    when its size fits the `unsigned int` it crosses in. -/
theorem run_lane {i : Nat} {r : LaneRequest} (hr : w.lane i = some r)
    (hsize : r.size.toNat < 2 ^ 32) :
    ∀ k ≤ runAbove w i, w.lane (i + k) = some (runMember r k) := by
  have hle := Wave.runLen_le (coalBit w) (i + 1) (63 - i)
  intro k
  induction k with
  | zero =>
    intro _
    simpa [runMember] using hr
  | succ k ih =>
    intro hk
    simp only [runAbove] at hk
    -- lane `i + k + 1` lies in the run, so it is active and coalescable
    have hbit : coalBit w (i + (k + 1)) = true := by
      rw [show i + (k + 1) = i + 1 + k by omega]
      exact Wave.runLen_holds (coalBit w) (i + 1) (63 - i) k (by omega)
    have hlt : i + (k + 1) < wfSize := by
      simp only [wfSize]
      omega
    unfold coalBit at hbit
    split at hbit
    · rename_i q hq
      obtain ⟨-, a, ha, hsz, hsrc, hdst, hpe⟩ := (coalescable_iff w hlt q).1 hbit
      rw [show i + (k + 1) - 1 = i + k by omega, ih (by simp only [runAbove]; omega),
        Option.some.injEq] at ha
      subst ha
      -- the size arrives whole, so the lane's size is the leader's
      have hq_size : q.size = r.size := by
        rw [← hsz]
        apply UInt64.toNat_inj.1
        simp [runMember]
        omega
      obtain ⟨qpe, qsrc, qdst, qsz⟩ := q
      simp only at hq_size hsrc hdst hpe
      subst hq_size hpe
      rw [hq, ← hsrc, ← hdst]
      simp only [runMember, toUInt64_succ, UInt64.succ_mul, UInt64.add_assoc]
    · exact absurd hbit (by simp)

/-- A lane of a run, above its leader, sends nothing. -/
theorem sentMessage_of_coalescable {j : Nat} {q : LaneRequest} (hq : w.lane j = some q)
    (h : coalescable w j q = true) : sentMessage w j = none := by
  simp [sentMessage, hq, coalesce_of_coalescable w h]

/-- A leader sends its request with the size of its run, through the `int`. -/
theorem sentMessage_of_leader {i : Nat} (hi : i < wfSize) {r : LaneRequest}
    (hr : w.lane i = some r) (h : coalescable w i r = false) :
    sentMessage w i = some { r with size := intWrap (r.size * (runAbove w i + 1).toUInt64) } := by
  simp [sentMessage, hr, coalesce_of_not_coalescable w hi h]

/-- The lanes of a run ask for the run's members' bytes. -/
theorem flatMap_laneBytes_run {i : Nat} {r : LaneRequest} (hr : w.lane i = some r)
    (hsize : r.size.toNat < 2 ^ 32) :
    (List.range' i (runAbove w i + 1)).flatMap (laneBytes w) =
      (List.range (runAbove w i + 1)).flatMap fun k => (runMember r k).bytes := by
  rw [List.range'_eq_map_range, List.flatMap_map]
  refine List.flatMap_congr fun k hk => ?_
  rw [laneBytes, run_lane w hr hsize k (by simpa [Nat.lt_succ_iff] using hk)]
  rfl

/-- Of a run, only the leader sends. -/
theorem flatMap_sentLaneBytes_run {i : Nat} (hi : i < wfSize) {r : LaneRequest}
    (hr : w.lane i = some r) (h : coalescable w i r = false) :
    (List.range' i (runAbove w i + 1)).flatMap (sentLaneBytes w) =
      { r with size := intWrap (r.size * (runAbove w i + 1).toUInt64) }.bytes := by
  rw [List.range'_succ, List.flatMap_cons, List.flatMap_eq_nil_iff.2, List.append_nil]
  · simp [sentLaneBytes, sentMessage_of_leader w hi hr h]
  intro j hj
  rw [List.mem_range'_1] at hj
  -- lane `j` lies in the run, so it is coalescable
  have hbit : coalBit w j = true := by
    rw [show j = i + 1 + (j - (i + 1)) by omega]
    exact Wave.runLen_holds (coalBit w) (i + 1) (63 - i) _ (by simp only [runAbove] at hj; omega)
  unfold coalBit at hbit
  split at hbit
  · rename_i q hq
    simp [sentLaneBytes, sentMessage_of_coalescable w hq hbit]
  · exact absurd hbit (by simp)

/-- Lane `i` asks for at least its own bytes. -/
theorem length_laneBytes_le {i n : Nat} (hn : 0 < n) :
    (laneBytes w i).length ≤ ((List.range' i n).flatMap (laneBytes w)).length := by
  rw [show n = (n - 1) + 1 by omega, List.range'_succ, List.flatMap_cons, List.length_append]
  exact Nat.le_add_right _ _

/-- From a lane that does not continue the one below it, the messages sent
    move the bytes asked for, when those are fewer than `2 ^ 31`. The
    induction takes a whole run, or an inactive lane, at a time. -/
theorem segment_bytes (n : Nat) : ∀ i, wfSize - i = n → (i < wfSize → coalBit w i = false) →
    ((List.range' i n).flatMap (laneBytes w)).length < 2 ^ 31 →
    (List.range' i n).flatMap (sentLaneBytes w) = (List.range' i n).flatMap (laneBytes w) := by
  induction n using Nat.strong_induction_on with
  | _ n ih =>
  intro i hn hlead hlen
  rcases Nat.eq_zero_or_pos n with rfl | hpos
  · rfl
  have hi : i < wfSize := by omega
  cases hr : w.lane i with
  | none =>
    -- an inactive lane asks for and sends nothing, and the lane above it leads
    have hreq : laneBytes w i = [] := by simp [laneBytes, hr]
    have hsent : sentLaneBytes w i = [] := by simp [sentLaneBytes, sentMessage, hr]
    have hstep : List.range' i n = i :: List.range' (i + 1) (n - 1) := by
      rw [← List.range'_succ, Nat.sub_add_cancel hpos]
    rw [hstep, List.flatMap_cons, hreq, List.nil_append] at hlen
    rw [hstep, List.flatMap_cons, List.flatMap_cons, hreq, hsent]
    exact ih (n - 1) (by omega) (i + 1) (by omega) (fun h => coalBit_succ_of_none w h hr) hlen
  | some r =>
    have hcoal : coalescable w i r = false := by simpa [coalBit, hr] using hlead hi
    have hsize : r.size.toNat < 2 ^ 31 := by
      have := length_laneBytes_le w (i := i) hpos
      simp only [laneBytes, hr, Option.map_some, Option.getD_some, LaneRequest.length_bytes] at this
      omega
    -- the run of lane `i` fits in what is left of the wavefront
    have hmle : runAbove w i + 1 ≤ n := by
      have := Wave.runLen_le (coalBit w) (i + 1) (63 - i)
      simp only [wfSize] at hn
      simp only [runAbove]
      omega
    have hsplit : List.range' i n = List.range' i (runAbove w i + 1) ++
        List.range' (i + (runAbove w i + 1)) (n - (runAbove w i + 1)) := by
      rw [List.range'_append_1, Nat.add_sub_cancel' hmle]
    have hreq := flatMap_laneBytes_run w hr (by omega)
    have hrunlen := length_flatMap_runMember r (runAbove w i + 1)
    rw [hsplit, List.flatMap_append, List.length_append, hreq, hrunlen] at hlen
    -- the lane just above the run leads its own
    have hnext : i + (runAbove w i + 1) < wfSize → coalBit w (i + (runAbove w i + 1)) = false := by
      intro hlt
      rcases Wave.runLen_stop (coalBit w) (i + 1) (63 - i) with hfull | hstop
      · simp only [runAbove, wfSize] at hlt
        omega
      · rwa [show i + (runAbove w i + 1) = i + 1 + runAbove w i by omega]
    rw [hsplit, List.flatMap_append, List.flatMap_append, flatMap_sentLaneBytes_run w hi hr hcoal,
      hreq, flatMap_bytes_runMember r _ (by omega),
      intWrap_of_lt (by rw [toNat_mul_succ r.size _ (by omega)]; omega)]
    congr 1
    exact ih _ (by omega) _ (by omega) hnext (by omega)

end Runs

/-- A list gathered from what a partial function picks out of a list is
    gathered from every element, with nothing for the rest. -/
theorem flatMap_filterMap_eq {α β γ : Type} (l : List α) (f : α → Option β) (g : β → List γ) :
    (l.filterMap f).flatMap g = l.flatMap fun a => ((f a).map g).getD [] := by
  induction l with
  | nil => rfl
  | cons a l ih =>
    cases h : f a <;> simp [h, ih]

/-- Below `2 ^ 31` bytes in all, the messages the wavefront sends move
    exactly the bytes its lanes asked for, in lane order. -/
theorem sentBytes_eq_requestedBytes (w : Wavefront)
    (hlen : ((activeRequests w).flatMap LaneRequest.bytes).length < 2 ^ 31) :
    (sentMessages w).flatMap LaneRequest.bytes = (activeRequests w).flatMap LaneRequest.bytes := by
  rw [activeRequests, flatMap_filterMap_eq, List.range_eq_range'] at hlen ⊢
  rw [sentMessages, flatMap_filterMap_eq, List.range_eq_range']
  exact segment_bytes w wfSize 0 (Nat.sub_zero _) (fun _ => coalBit_zero w) hlen

theorem wf_coal_on_coalesce (w : Wavefront) :
    (∀ i < wfSize, ∀ r, w.lane i = some r →
      ((coalesce w i r).1 = true ↔ ¬ (i ≠ 0 ∧ ∃ a, w.lane (i - 1) = some a ∧ a.MergesWith r)) ∧
      ((coalesce w i r).1 = true →
        (coalesce w i r).2 = intWrap (r.size * (runAbove w i + 1).toUInt64))) ∧
    (((activeRequests w).flatMap LaneRequest.bytes).length < 2 ^ 31 →
      (sentMessages w).flatMap LaneRequest.bytes =
        (activeRequests w).flatMap LaneRequest.bytes) := by
  refine ⟨fun i hi r _ => ⟨?_, fun hsend => ?_⟩, sentBytes_eq_requestedBytes w⟩
  · -- a lane sends just when its test fails
    rw [← coalescable_iff w hi r]
    cases hc : coalescable w i r
    · simp [coalesce_of_not_coalescable w hi hc]
    · simp [coalesce_of_coalescable w hc]
  · cases hc : coalescable w i r
    · rw [coalesce_of_not_coalescable w hi hc]
    · rw [coalesce_of_coalescable w hc] at hsend
      exact absurd hsend Bool.false_ne_true

/-- Two lanes asking for eight contiguous bytes each, to the same target. -/
theorem wf_coal_on_coalesce_two_lanes :
    let w : Wavefront := ⟨fun j => if j = 0 then some ⟨1, 0, 4096, 8⟩
      else if j = 1 then some ⟨1, 8, 4104, 8⟩ else none⟩
    ((activeRequests w).flatMap LaneRequest.bytes).length < 2 ^ 31 ∧
      (sentMessages w).flatMap LaneRequest.bytes = (activeRequests w).flatMap LaneRequest.bytes :=
  ⟨by decide, (wf_coal_on_coalesce _).2 (by decide)⟩

/-- A lone lane asking for `2 ^ 31` bytes sends a message whose size is the
    `int` it passed through, sign-extended: `2 ^ 64 - 2 ^ 31`. -/
theorem coalesce_two_gib_lane :
    coalesce ⟨fun j => if j = 0 then some ⟨0, 0, 0, 2 ^ 31⟩ else none⟩ 0 ⟨0, 0, 0, 2 ^ 31⟩ =
      (true, 18446744071562067968) := by
  have hc : coalescable ⟨fun j => if j = 0 then some ⟨0, 0, 0, 2 ^ 31⟩ else none⟩ 0
      ⟨0, 0, 0, 2 ^ 31⟩ = false := by
    rw [Bool.eq_false_iff, ne_eq, coalescable_iff _ (by decide)]
    simp
  rw [coalesce_of_not_coalescable _ (by decide) hc]
  -- no lane above is active, so the run is the lane alone
  have hrun : runAbove ⟨fun j => if j = 0 then some ⟨0, 0, 0, 2 ^ 31⟩ else none⟩ 0 = 0 := by
    simp [runAbove, Wave.runLen, coalBit]
  rw [hrun]
  decide

end WfCoalOn

end RocShmem
