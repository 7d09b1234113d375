import RocShmem.Lib.ByteStore

/-!
# The Device Byte Copies

`memcpy`, `memcpy_wg` and `memcpy_wave` (`util.hpp`) copy `size` bytes with
8-, 4- and 2-byte stores (`store_asm`) and a last single byte. They are what
`ipcCopy`, `ipcCopy_wg` and `ipcCopy_wave` run, so every IPC put and get
moves its bytes through them.

`memcpy` walks one pair of cursors: `size / 8` stores of 8 bytes, then of
4 and of 2 on what is left, then the last byte when one is left. It copies
exactly `[dst, dst + size)` from `[src, src + size)` (`memcpy_copies`).

The cooperative versions split each width's chunks over the threads of a
block, or the lanes of a wavefront: thread `id` of `n` stores chunks
`id, id + n, …` and the bases move past the width's chunks. The last byte
is stored by thread zero through its own `dst_bytes` and `src_bytes`, which
still point at the start of the last chunk that thread stored, not at the
tail. For an odd `size` of at least 3 the last byte is therefore never
written, by any thread in any order (`memcpy_wg_wave_drop_last_odd_byte`).

`store_asm` is modelled as the store of `width` bytes it compiles to on the
targets that define it.

## Main definitions

* `memcpyWhile`, `memcpy`: The single-thread copy.
* `coopWidth`, `memcpyCoop`: One thread's part of a cooperative copy.
* `memcpyWg`, `memcpyWave`: The block and wavefront copies.
* `memcpyWgBlock`, `memcpyWaveFull`: All stores of a block, of a wavefront.

## Theorems

* `memcpy_copies`: `memcpy` copies exactly the `size` bytes.
* `memcpyCoop_not_writes_last`: No thread writes the last byte of an odd
  copy.
* `memcpy_wg_wave_drop_last_odd_byte`: The cooperative copies leave the last
  byte of an odd copy as it was, where `memcpy` copies it.
-/

namespace RocShmem

open ByteStore

variable {α : Type}

/-- `WF_SIZE`: the lanes of a wavefront. -/
def wfSize : Nat := 64

/-- The widths of the store loops, `for (i = 8; i > 1; i >>= 1)`. -/
def storeWidths : List Nat := [8, 4, 2]

/-- The values of `i` in `for (i = start; i < bound; i += step)`. -/
def stridedRange (start bound step : Nat) : List Nat :=
  List.range' start ((bound - start + step - 1) / step) step

theorem lt_of_mem_stridedRange {start bound step i : Nat} (h : i ∈ stridedRange start bound step) :
    i < bound := by
  obtain ⟨k, hk, rfl⟩ := List.mem_range'.mp h
  -- `k` is below the rounded-up count of the loop, so `step * (k + 1)` fits.
  have hstep : 0 < step := by
    rcases Nat.eq_zero_or_pos step with h0 | h0
    · simp [h0] at hk
    · exact h0
  have hle : (k + 1) * step ≤ bound - start + step - 1 :=
    (Nat.le_div_iff_mul_le hstep).mp hk
  rw [Nat.succ_mul, Nat.mul_comm] at hle
  omega

/-- The loops over the widths, one after another, each continuing from
    where the last stopped. -/
def runWidths {σ : Type} (f : Nat → σ → List Store × σ) : List Nat → σ → List Store × σ
  | [], c => ([], c)
  | j :: js, c =>
      let first := f j c
      let rest := runWidths f js first.2
      (first.1 ++ rest.1, rest.2)

/-- The invariant rule of the width loops: a property of the cursor that each
    width keeps, with a property of every store each width makes. -/
theorem runWidths_inv {σ : Type} (f : Nat → σ → List Store × σ) (P : σ → Prop)
    (R : Store → Prop) :
    ∀ (js : List Nat), (∀ j ∈ js, ∀ c, P c → P (f j c).2 ∧ ∀ st ∈ (f j c).1, R st) →
      ∀ c, P c → P (runWidths f js c).2 ∧ ∀ st ∈ (runWidths f js c).1, R st
  | [], _, _, hc => ⟨hc, fun _ h => absurd h List.not_mem_nil⟩
  | j :: js, hstep, c, hc => by
      obtain ⟨hc', hR⟩ := hstep j List.mem_cons_self c hc
      obtain ⟨hfin, hR'⟩ :=
        runWidths_inv f P R js (fun j' hj' => hstep j' (List.mem_cons_of_mem _ hj')) _ hc'
      refine ⟨hfin, fun st hst => ?_⟩
      rcases List.mem_append.mp hst with h | h
      · exact hR st h
      · exact hR' st h

/-- The rule for what the width loops write: when each width writes exactly
    the addresses from one position of the cursor to the next, the loops
    write exactly from the first position to the last. -/
theorem runWidths_writes_iff {σ : Type} (f : Nat → σ → List Store × σ) (pos : σ → Nat) :
    ∀ (js : List Nat), (∀ j ∈ js, ∀ c, pos c ≤ pos (f j c).2 ∧
        ∀ a, (∃ st ∈ (f j c).1, st.Writes a) ↔ pos c ≤ a ∧ a < pos (f j c).2) →
      ∀ c, pos c ≤ pos (runWidths f js c).2 ∧
        ∀ a, (∃ st ∈ (runWidths f js c).1, st.Writes a) ↔ pos c ≤ a ∧ a < pos (runWidths f js c).2
  | [], _, c => ⟨Nat.le_refl _, fun _ => ⟨fun ⟨_, h, _⟩ => absurd h List.not_mem_nil,
      fun h => absurd h.2 (Nat.not_lt.mpr h.1)⟩⟩
  | j :: js, hstep, c => by
      obtain ⟨hmono, hiff⟩ := hstep j List.mem_cons_self c
      obtain ⟨hmono', hiff'⟩ := runWidths_writes_iff f pos js
        (fun j' hj' => hstep j' (List.mem_cons_of_mem _ hj')) (f j c).2
      refine ⟨Nat.le_trans hmono hmono', fun a => ?_⟩
      simp only [runWidths, List.mem_append]
      -- The first width's range and the rest's meet at the first width's end.
      constructor
      · rintro ⟨st, hst | hst, hw⟩
        · have := (hiff a).mp ⟨st, hst, hw⟩
          omega
        · have := (hiff' a).mp ⟨st, hst, hw⟩
          omega
      · intro ha
        by_cases hfirst : a < pos (f j c).2
        · obtain ⟨st, hst, hw⟩ := (hiff a).mpr ⟨ha.1, hfirst⟩
          exact ⟨st, Or.inl hst, hw⟩
        · obtain ⟨st, hst, hw⟩ := (hiff' a).mpr ⟨by omega, ha.2⟩
          exact ⟨st, Or.inr hst, hw⟩

section Memcpy

/-- Where `memcpy` has got to: `dst_bytes`, `src_bytes` and the bytes left. -/
structure CopyCursor where
  dstBytes : Nat
  srcBytes : Nat
  size : Nat

/-- `while (size >= i) { store_asm(src_bytes, dst_bytes, i); ... += i; size -= i; }`:
    the loop runs `size / i` times and leaves `size % i` bytes. -/
def memcpyWhile (i : Nat) (c : CopyCursor) : List Store × CopyCursor :=
  ((List.range (c.size / i)).map fun k => ⟨c.dstBytes + k * i, c.srcBytes + k * i, i⟩,
    ⟨c.dstBytes + c.size / i * i, c.srcBytes + c.size / i * i, c.size % i⟩)

/-- `memcpy(dst, src, size)`: the 8-, 4- and 2-byte loops, then
    `*dst_bytes = *src_bytes` when one byte is left. -/
def memcpy (dst src size : Nat) : List Store :=
  let loops := runWidths memcpyWhile storeWidths ⟨dst, src, size⟩
  loops.1 ++ if loops.2.size = 1 then [⟨loops.2.dstBytes, loops.2.srcBytes, 1⟩] else []

/-- The cursor of `memcpy` on a copy of `size` bytes from `src` to `dst`:
    both pointers are as far along as the bytes already copied. -/
def CopyCursor.Along (dst src size : Nat) (c : CopyCursor) : Prop :=
  c.dstBytes + c.size = dst + size ∧ c.srcBytes + c.size = src + size ∧ dst ≤ c.dstBytes

/-- What a store of the copy does: it copies at matching offsets, writes
    inside `[dst, dst + size)` and reads inside `[src, src + size)`. -/
def CopyStore (dst src size : Nat) (st : Store) : Prop :=
  Copies dst src st ∧ (∀ a, st.Writes a → dst ≤ a ∧ a < dst + size) ∧
    ∀ b, st.Reads b → src ≤ b ∧ b < src + size

theorem memcpyWhile_spec {dst src size i : Nat} {c : CopyCursor}
    (hc : c.Along dst src size) :
    (memcpyWhile i c).2.Along dst src size ∧
      ∀ st ∈ (memcpyWhile i c).1, CopyStore dst src size st := by
  obtain ⟨hd, hs, hle⟩ := hc
  -- The loop stores whole chunks only: `size / i * i + size % i = size`.
  have hdiv := Nat.div_add_mod c.size i
  rw [Nat.mul_comm] at hdiv
  refine ⟨⟨by simp only [memcpyWhile]; omega, by simp only [memcpyWhile]; omega,
    by simp only [memcpyWhile]; omega⟩, fun st hst => ?_⟩
  obtain ⟨k, hk, rfl⟩ := List.mem_map.mp hst
  have hfit : k * i + i ≤ c.size / i * i := by
    rw [← Nat.succ_mul]
    exact Nat.mul_le_mul_right _ (List.mem_range.mp hk)
  simp only [CopyStore, Copies, Store.Writes, Store.Reads]
  refine ⟨⟨by omega, by omega⟩, fun a ha => by omega, fun b hb => by omega⟩

theorem memcpyWhile_writes_iff (i : Nat) (hi : 0 < i) (c : CopyCursor) :
    c.dstBytes ≤ (memcpyWhile i c).2.dstBytes ∧
      ∀ a, (∃ st ∈ (memcpyWhile i c).1, st.Writes a) ↔
        c.dstBytes ≤ a ∧ a < (memcpyWhile i c).2.dstBytes := by
  refine ⟨Nat.le_add_right _ _, fun a => ⟨?_, fun ha => ?_⟩⟩
  · rintro ⟨st, hst, hw⟩
    obtain ⟨k, hk, rfl⟩ := List.mem_map.mp hst
    have hfit : k * i + i ≤ c.size / i * i := by
      rw [← Nat.succ_mul]
      exact Nat.mul_le_mul_right _ (List.mem_range.mp hk)
    simp only [Store.Writes] at hw
    simp only [memcpyWhile]
    omega
  · -- The chunk of `a` is its offset divided by the width.
    obtain ⟨h₁, h₂⟩ := ha
    simp only [memcpyWhile] at h₂
    have hq : (a - c.dstBytes) / i < c.size / i := by
      rw [Nat.div_lt_iff_lt_mul hi]
      omega
    have hmod := Nat.div_add_mod (a - c.dstBytes) i
    have hlt := Nat.mod_lt (a - c.dstBytes) hi
    refine ⟨⟨c.dstBytes + (a - c.dstBytes) / i * i, c.srcBytes + (a - c.dstBytes) / i * i, i⟩,
      List.mem_map.mpr ⟨_, List.mem_range.mpr hq, rfl⟩, ?_⟩
    rw [Nat.mul_comm] at hmod
    simp only [Store.Writes]
    omega

/-- Every store of `memcpy` copies at matching offsets inside the two ranges,
    and the last byte store, when there is one, is at the tail. -/
theorem memcpy_copyStore {dst src size : Nat} {st : Store} (h : st ∈ memcpy dst src size) :
    CopyStore dst src size st := by
  have hloops := runWidths_inv memcpyWhile (CopyCursor.Along dst src size) (CopyStore dst src size)
    storeWidths (fun _ _ _ hc => memcpyWhile_spec hc)
    ⟨dst, src, size⟩ ⟨rfl, rfl, Nat.le_refl _⟩
  rcases List.mem_append.mp h with h | h
  · exact hloops.2 st h
  · split at h
    · rename_i hone
      obtain ⟨hd, hs, hle⟩ := hloops.1
      rw [List.mem_singleton.mp h]
      refine ⟨⟨hle, by simp only; omega⟩, fun a ha => ?_, fun b hb => ?_⟩
      · obtain ⟨h₁, h₂⟩ := ha
        simp only at h₁ h₂
        omega
      · obtain ⟨h₁, h₂⟩ := hb
        simp only at h₁ h₂
        omega
    · exact absurd h List.not_mem_nil

/-- `memcpy` writes exactly `[dst, dst + size)`. -/
theorem memcpy_writes_iff (dst src size a : Nat) :
    (∃ st ∈ memcpy dst src size, st.Writes a) ↔ dst ≤ a ∧ a < dst + size := by
  have hloops := runWidths_writes_iff memcpyWhile CopyCursor.dstBytes storeWidths
    (fun j hj c => memcpyWhile_writes_iff j (by simp [storeWidths] at hj; omega) c) ⟨dst, src, size⟩
  have halong := (runWidths_inv memcpyWhile (CopyCursor.Along dst src size)
    (CopyStore dst src size) storeWidths
    (fun _ _ _ hc => memcpyWhile_spec hc)
    ⟨dst, src, size⟩ ⟨rfl, rfl, Nat.le_refl _⟩).1
  -- After the loops at most one byte is left.
  have hleft : (runWidths memcpyWhile storeWidths ⟨dst, src, size⟩).2.size = size % 8 % 4 % 2 := rfl
  have hlt : size % 8 % 4 % 2 < 2 := Nat.mod_lt _ (by decide)
  obtain ⟨hd, -, -⟩ := halong
  simp only [memcpy, List.mem_append]
  constructor
  · rintro ⟨st, hst | hst, hw⟩
    · have := (hloops.2 a).mp ⟨st, hst, hw⟩
      simp only at this
      omega
    · split at hst
      · obtain ⟨h₁, h₂⟩ := (List.mem_singleton.mp hst) ▸ hw
        simp only at h₁ h₂
        omega
      · exact absurd hst List.not_mem_nil
  · intro ha
    by_cases hin : a < (runWidths memcpyWhile storeWidths ⟨dst, src, size⟩).2.dstBytes
    · obtain ⟨st, hst, hw⟩ := (hloops.2 a).mpr ⟨ha.1, hin⟩
      exact ⟨st, Or.inl hst, hw⟩
    · -- The byte left over is the last one.
      have hone : (runWidths memcpyWhile storeWidths ⟨dst, src, size⟩).2.size = 1 := by omega
      refine ⟨_, Or.inr (by rw [if_pos hone]; exact List.mem_singleton_self _), ?_⟩
      constructor <;> simp only <;> omega

/-- `memcpy` copies exactly the `size` bytes: with the two ranges apart,
    every byte of `[dst, dst + size)` ends with the source byte at its
    offset, and no other byte changes. -/
theorem memcpy_copies (dst src size : Nat) (hsep : src + size ≤ dst ∨ dst + size ≤ src)
    (mem : Nat → α) (a : Nat) :
    applyAll (memcpy dst src size) mem a =
      if dst ≤ a ∧ a < dst + size then mem (src + (a - dst)) else mem a := by
  split
  · rename_i ha
    refine applyAll_copies (fun st h => (memcpy_copyStore h).1) (fun st h st' h' b hb hw => ?_)
      mem ((memcpy_writes_iff dst src size a).mpr ha)
    have := (memcpy_copyStore h).2.2 b hb
    have := (memcpy_copyStore h').2.1 b hw
    omega
  · rename_i ha
    exact applyAll_of_not_written
      (fun st h hw => ha ((memcpy_writes_iff dst src size a).mp ⟨st, h, hw⟩)) mem

theorem width_mem_memcpy {dst src size : Nat} {st : Store} (h : st ∈ memcpy dst src size) :
    st.width = 8 ∨ st.width = 4 ∨ st.width = 2 ∨ st.width = 1 := by
  rcases List.mem_append.mp h with h | h
  · -- Each width loop stores at its own width.
    have hw := (runWidths_inv memcpyWhile (fun _ => True) (fun st => st.width ∈ storeWidths)
      storeWidths (fun j hj c _ => ⟨trivial, fun st hst => by
        obtain ⟨k, -, rfl⟩ := List.mem_map.mp hst
        exact hj⟩) ⟨dst, src, size⟩ trivial).2 st h
    simp only [storeWidths, List.mem_cons, List.not_mem_nil, or_false] at hw
    omega
  · split at h
    · rw [List.mem_singleton.mp h]
      exact Or.inr (Or.inr (Or.inr rfl))
    · exact absurd h List.not_mem_nil

end Memcpy

section Cooperative

/-- One thread's state in `memcpy_wg` or `memcpy_wave`: the bytes left, the
    start of the current width's chunks `dst_def`/`src_def`, and the pointers
    of the thread's own last store `dst_bytes`/`src_bytes`. -/
structure CoopCursor where
  size : Nat
  dstDef : Nat
  srcDef : Nat
  dstBytes : Nat
  srcBytes : Nat

/-- One pass of the outer loop at width `j` by thread `id` of `n`: the stores
    of `for (i = id; i < cpy_size; i += n)`, each setting `dst_bytes` and
    `src_bytes` to its own chunk, then the bases move past the
    `cpy_size = size / j` chunks. -/
def coopWidth (id n j : Nat) (c : CoopCursor) : List Store × CoopCursor :=
  let cpySize := c.size / j
  let iters := stridedRange id cpySize n
  (iters.map fun i => ⟨c.dstDef + i * j, c.srcDef + i * j, j⟩,
    { size := c.size - cpySize * j
      dstDef := c.dstDef + cpySize * j
      srcDef := c.srcDef + cpySize * j
      -- The pointers of the last iteration, or unchanged when there was none.
      dstBytes := (iters.getLast?.map fun i => c.dstDef + i * j).getD c.dstBytes
      srcBytes := (iters.getLast?.map fun i => c.srcDef + i * j).getD c.srcBytes })

/-- The body `memcpy_wg` and `memcpy_wave` share, run by thread `id` of a
    group of `n`: the width loops, then `*dst_bytes = *src_bytes` by thread
    zero when one byte is left. -/
def memcpyCoop (id n dst src size : Nat) : List Store :=
  let loops := runWidths (coopWidth id n) storeWidths ⟨size, dst, src, dst, src⟩
  loops.1 ++
    if loops.2.size = 1 ∧ id = 0 then [⟨loops.2.dstBytes, loops.2.srcBytes, 1⟩] else []

/-- `memcpy_wg(dst, src, size)` by thread `thread_id` of a block of
    `block_size`; `is_thread_zero_in_block` is `thread_id = 0`. -/
def memcpyWg (threadId blockSize dst src size : Nat) : List Store :=
  memcpyCoop threadId blockSize dst src size

/-- `memcpy_wave(dst, src, size)` by the thread of flat block id `flatId` in a
    wave of `waveSize` active lanes; `is_thread_zero_in_wave` is
    `flatId % WF_SIZE = 0`. -/
def memcpyWave (flatId waveSize dst src size : Nat) : List Store :=
  memcpyCoop (flatId % wfSize) waveSize dst src size

/-- All stores of a block of `blockSize` threads running `memcpy_wg`. -/
def memcpyWgBlock (blockSize dst src size : Nat) : List Store :=
  (List.range blockSize).flatMap fun t => memcpyWg t blockSize dst src size

/-- All stores of the full wavefront `wave` running `memcpy_wave`: its lanes
    have flat ids `wave * WF_SIZE + l` and the wave has `WF_SIZE` active lanes. -/
def memcpyWaveFull (wave dst src size : Nat) : List Store :=
  (List.range wfSize).flatMap fun l => memcpyWave (wave * wfSize + l) wfSize dst src size

/-- A thread's cursor on an odd copy of `size` bytes at `dst`: the bases are
    as far along as the bytes already copied, an odd number of bytes is
    left, and the thread's `dst_bytes` is below the base, or still `dst`. -/
def CoopCursor.Behind (dst size : Nat) (c : CoopCursor) : Prop :=
  c.dstDef + c.size = dst + size ∧ c.size % 2 = 1 ∧ dst ≤ c.dstDef ∧
    (c.dstBytes < c.dstDef ∨ c.dstBytes = dst)

/-- A width of an odd copy keeps the cursor behind, and its stores write
    below the new base. -/
theorem coopWidth_spec {id n j dst size : Nat} (hj : 0 < j) (heven : j % 2 = 0) {c : CoopCursor}
    (hc : c.Behind dst size) :
    (coopWidth id n j c).2.Behind dst size ∧
      ∀ st ∈ (coopWidth id n j c).1, ∀ a, st.Writes a → a < (coopWidth id n j c).2.dstDef := by
  obtain ⟨hdef, hodd, hle, hbytes⟩ := hc
  have hdiv := Nat.div_add_mod c.size j
  rw [Nat.mul_comm] at hdiv
  -- A chunk `i` below `cpy_size` ends inside the width's chunks.
  have hfit : ∀ i ∈ stridedRange id (c.size / j) n, i * j + j ≤ c.size / j * j := fun i hi => by
    rw [← Nat.succ_mul]
    exact Nat.mul_le_mul_right _ (lt_of_mem_stridedRange hi)
  have hleft : (c.size - c.size / j * j) % 2 = 1 := by
    rw [show c.size - c.size / j * j = c.size % j by omega,
      Nat.mod_mod_of_dvd _ (Nat.dvd_of_mod_eq_zero heven)]
    exact hodd
  refine ⟨⟨by simp only [coopWidth]; omega, hleft, by simp only [coopWidth]; omega, ?_⟩, ?_⟩
  · simp only [coopWidth]
    cases hlast : (stridedRange id (c.size / j) n).getLast? with
    | none =>
        simp only [Option.map_none, Option.getD_none]
        omega
    | some i =>
        have := hfit i (List.mem_of_getLast? hlast)
        simp only [Option.map_some, Option.getD_some]
        omega
  · intro st hst a ha
    obtain ⟨i, hi, rfl⟩ := List.mem_map.mp hst
    have := hfit i hi
    obtain ⟨h₁, h₂⟩ := ha
    simp only [coopWidth] at h₁ h₂ ⊢
    omega

/-- No thread of a cooperative copy of an odd `size ≥ 3` writes the last
    byte: the width loops stop one byte short, and thread zero's last byte
    goes through a `dst_bytes` that is below that byte. -/
theorem memcpyCoop_not_writes_last (id n dst src size : Nat) (hodd : size % 2 = 1) (h3 : 3 ≤ size)
    {st : Store} (h : st ∈ memcpyCoop id n dst src size) : ¬ st.Writes (dst + (size - 1)) := by
  have hloops := runWidths_inv (coopWidth id n) (CoopCursor.Behind dst size)
    (fun st => ∀ a, st.Writes a → a < dst + (size - 1)) storeWidths
    (fun j hj c hc => by
      have hj' : 0 < j ∧ j % 2 = 0 := by simp [storeWidths] at hj; omega
      obtain ⟨hc', hw⟩ := coopWidth_spec hj'.1 hj'.2 hc
      refine ⟨hc', fun st hst a ha => ?_⟩
      -- The new base is at most one byte short of the end: an odd number is left.
      have := hw st hst a ha
      obtain ⟨hdef, hodd', -, -⟩ := hc'
      omega)
    ⟨size, dst, src, dst, src⟩ ⟨rfl, hodd, Nat.le_refl _, Or.inr rfl⟩
  intro hw
  rcases List.mem_append.mp h with h | h
  · exact absurd (hloops.2 st h _ hw) (Nat.lt_irrefl _)
  · split at h
    · -- The last byte store goes to thread zero's `dst_bytes`.
      rename_i hone
      obtain ⟨hdef, -, hle, hbytes⟩ := hloops.1
      rw [List.mem_singleton.mp h] at hw
      obtain ⟨h₁, h₂⟩ := hw
      simp only at h₁ h₂
      omega
    · exact absurd h List.not_mem_nil

/-- For every odd `size ≥ 3` and two ranges apart, `memcpy` gives the last
    byte of `[dst, dst + size)` the source's last byte, while the stores of
    a whole block running `memcpy_wg`, of any size, and of a full wavefront
    running `memcpy_wave`, in any order, leave that byte as it was. -/
theorem memcpy_wg_wave_drop_last_odd_byte (dst src size : Nat) (hodd : size % 2 = 1)
    (h3 : 3 ≤ size) (hsep : src + size ≤ dst ∨ dst + size ≤ src) (mem : Nat → α) :
    applyAll (memcpy dst src size) mem (dst + (size - 1)) = mem (src + (size - 1)) ∧
      (∀ (blockSize : Nat) (order : List Store), order.Perm (memcpyWgBlock blockSize dst src size) →
        applyAll order mem (dst + (size - 1)) = mem (dst + (size - 1))) ∧
      (∀ (wave : Nat) (order : List Store), order.Perm (memcpyWaveFull wave dst src size) →
        applyAll order mem (dst + (size - 1)) = mem (dst + (size - 1))) := by
  refine ⟨?_, fun blockSize order horder => ?_, fun wave order horder => ?_⟩
  · rw [memcpy_copies dst src size hsep, if_pos ⟨Nat.le_add_right _ _, by omega⟩]
    congr 1
    omega
  · refine applyAll_of_not_written (fun st hst => ?_) mem
    obtain ⟨t, -, ht⟩ := List.mem_flatMap.mp (horder.subset hst)
    exact memcpyCoop_not_writes_last t blockSize dst src size hodd h3 ht
  · refine applyAll_of_not_written (fun st hst => ?_) mem
    obtain ⟨l, -, hl⟩ := List.mem_flatMap.mp (horder.subset hst)
    exact memcpyCoop_not_writes_last _ wfSize dst src size hodd h3 hl

/-- Three bytes `1, 2, 3` at `src = 8` copied to `dst = 0` by a block of one
    thread: `memcpy` puts `3` in `dst[2]`, `memcpy_wg` leaves the `0` there. -/
theorem memcpy_wg_wave_drop_last_odd_byte_three_bytes :
    3 % 2 = 1 ∧ 3 ≤ 3 ∧ (8 + 3 ≤ 0 ∨ 0 + 3 ≤ 8) ∧
      (applyAll (memcpy 0 8 3) (fun a => if 8 ≤ a ∧ a < 11 then a - 7 else 0) (0 + (3 - 1)) =
          (fun a => if 8 ≤ a ∧ a < 11 then a - 7 else 0) (8 + (3 - 1)) ∧
        (∀ (blockSize : Nat) (order : List Store), order.Perm (memcpyWgBlock blockSize 0 8 3) →
          applyAll order (fun a => if 8 ≤ a ∧ a < 11 then a - 7 else 0) (0 + (3 - 1)) =
            (fun a => if 8 ≤ a ∧ a < 11 then a - 7 else 0) (0 + (3 - 1))) ∧
        (∀ (wave : Nat) (order : List Store), order.Perm (memcpyWaveFull wave 0 8 3) →
          applyAll order (fun a => if 8 ≤ a ∧ a < 11 then a - 7 else 0) (0 + (3 - 1)) =
            (fun a => if 8 ≤ a ∧ a < 11 then a - 7 else 0) (0 + (3 - 1)))) :=
  ⟨by decide, by decide, by decide,
    memcpy_wg_wave_drop_last_odd_byte 0 8 3 (by decide) (by decide) (by decide) _⟩

-- With one thread, the block's stores are its own: a 2-byte store at `dst`,
-- then the last byte again at `dst`.
example : memcpyWgBlock 1 0 8 3 = [⟨0, 8, 2⟩, ⟨0, 8, 1⟩] := by decide

end Cooperative

end RocShmem
