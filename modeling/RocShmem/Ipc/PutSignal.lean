import RocShmem.Util.Memcpy
import RocShmem.Ipc.Context

/-!
# Put with Signal

`IPCContext::putmem_signal` (`ipc/context_ipc_device.cpp`) puts `nelems`
bytes into PE `pe`'s copy of `dest`, then updates the 64-bit signal word at
`sig_addr` there: `ROCSHMEM_SIGNAL_SET` stores `signal`, `ROCSHMEM_SIGNAL_ADD`
adds it. The `_wg` and `_wave` variants copy cooperatively and let thread
zero do the signal; the `_nbi` variants call the blocking ones.

The memory is the flat address space of the process, in which each PE's
symmetric heap is mapped at `ipc_bases[pe]`. A symmetric address `addr` of
this PE is PE `pe`'s `ipc_bases[pe] + (addr - ipc_bases[my_pe])`
(`ipcAddress`), and the atomics of `amo_set`/`amo_add` are 8-byte
little-endian words there. `fence` stores into the fence pool, outside the
heap, and orders nothing this sequential model could reorder.

The `SET` branch does what it should (`putmemSignal_set_spec`). The `ADD`
branch passes `dest` to `amo_add` where `sig_addr` is meant: the signal word
keeps its old value and the first word of the data just put is increased
by `signal` (`putmem_signal_add_hits_dest`).

## Main definitions

* `ipcAddress`: The address translation of the IPC conduit.
* `IPCContext.putmem`, `IPCContext.amoSet`, `IPCContext.amoAdd`: The
  operations the signalling puts are built from.
* `IPCContext.putmemSignal` and its `Wg`, `Wave` and `Nbi` variants.

## Theorems

* `IPCContext.putmemSignal_set_spec`: The data and the signal word after a
  `SET`.
* `putmem_signal_add_hits_dest`: An `ADD` leaves the signal word alone and
  adds to the data.
-/

namespace RocShmem

open ByteStore

/-- `ROCSHMEM_SIGNAL_SET`, the first value of its enum, as the `int sig_op`
    the calls take. -/
def rocshmemSignalSet : Int := 0

/-- `ROCSHMEM_SIGNAL_ADD`, the second value of the enum. -/
def rocshmemSignalAdd : Int := 1

/-- `ipc_bases[pe] + (addr - ipc_bases[my_pe])`: where PE `pe`'s copy of the
    symmetric address `addr` is mapped in this process. -/
def ipcAddress (ipcBases : Nat → Nat) (myPe pe addr : Nat) : Nat :=
  ipcBases pe + (addr - ipcBases myPe)

namespace IPCContext

/-- `IPCContext::putmem(dest, source, nelems, pe)`: `ipcCopy`, which is
    `memcpy`, into PE `pe`'s copy of `dest`. -/
def putmem (ctx : IPCContext) (ipcBases : Nat → Nat) (dest source nelems pe : Nat) : List Store :=
  memcpy (ipcAddress ipcBases ctx.myPe pe dest) source nelems

/-- `IPCContext::putmem_wg`: `ipcCopy_wg`, which is `memcpy_wg`, by every
    thread of a block of `blockSize`, then `__syncthreads`. -/
def putmemWg (ctx : IPCContext) (ipcBases : Nat → Nat) (blockSize dest source nelems pe : Nat) :
    List Store :=
  memcpyWgBlock blockSize (ipcAddress ipcBases ctx.myPe pe dest) source nelems

/-- `IPCContext::putmem_wave`: `ipcCopy_wave`, which is `memcpy_wave`, by
    every lane of the full wavefront `wave`. -/
def putmemWave (ctx : IPCContext) (ipcBases : Nat → Nat) (wave dest source nelems pe : Nat) :
    List Store :=
  memcpyWaveFull wave (ipcAddress ipcBases ctx.myPe pe dest) source nelems

/-- `amo_set<uint64_t>(dest, value, pe)`: an atomic store of the word. -/
def amoSet (ctx : IPCContext) (ipcBases : Nat → Nat) (dest : Nat) (value : UInt64) (pe : Nat)
    (mem : Nat → UInt8) : Nat → UInt8 :=
  writeLE mem (ipcAddress ipcBases ctx.myPe pe dest) 8 value.toNat

/-- `amo_add<uint64_t>(dest, value, pe)`: an atomic add to the word, modulo
    `2 ^ 64` as the write keeps its low 8 bytes. -/
def amoAdd (ctx : IPCContext) (ipcBases : Nat → Nat) (dest : Nat) (value : UInt64) (pe : Nat)
    (mem : Nat → UInt8) : Nat → UInt8 :=
  let a := ipcAddress ipcBases ctx.myPe pe dest
  writeLE mem a 8 (readLE mem a 8 + value.toNat)

/-- The `switch (sig_op)` every variant runs once the data is in. The `ADD`
    case passes `dest`, as the source does; any other value only prints. -/
def signalSwitch (ctx : IPCContext) (ipcBases : Nat → Nat) (dest sigAddr : Nat) (signal : UInt64)
    (sigOp : Int) (pe : Nat) (mem : Nat → UInt8) : Nat → UInt8 :=
  if sigOp = rocshmemSignalSet then ctx.amoSet ipcBases sigAddr signal pe mem
  else if sigOp = rocshmemSignalAdd then ctx.amoAdd ipcBases dest signal pe mem
  else mem

/-- `IPCContext::putmem_signal(dest, source, nelems, sig_addr, signal,
    sig_op, pe)`: the memory after the call. -/
def putmemSignal (ctx : IPCContext) (ipcBases : Nat → Nat) (dest source nelems sigAddr : Nat)
    (signal : UInt64) (sigOp : Int) (pe : Nat) (mem : Nat → UInt8) : Nat → UInt8 :=
  ctx.signalSwitch ipcBases dest sigAddr signal sigOp pe
    (applyAll (ctx.putmem ipcBases dest source nelems pe) mem)

/-- `IPCContext::putmem_signal_wg`: the block's copy, then thread zero's
    signal. -/
def putmemSignalWg (ctx : IPCContext) (ipcBases : Nat → Nat)
    (blockSize dest source nelems sigAddr : Nat) (signal : UInt64) (sigOp : Int) (pe : Nat)
    (mem : Nat → UInt8) : Nat → UInt8 :=
  ctx.signalSwitch ipcBases dest sigAddr signal sigOp pe
    (applyAll (ctx.putmemWg ipcBases blockSize dest source nelems pe) mem)

/-- `IPCContext::putmem_signal_wave`: the wavefront's copy, then lane zero's
    signal. -/
def putmemSignalWave (ctx : IPCContext) (ipcBases : Nat → Nat)
    (wave dest source nelems sigAddr : Nat) (signal : UInt64) (sigOp : Int) (pe : Nat)
    (mem : Nat → UInt8) : Nat → UInt8 :=
  ctx.signalSwitch ipcBases dest sigAddr signal sigOp pe
    (applyAll (ctx.putmemWave ipcBases wave dest source nelems pe) mem)

/-- `IPCContext::putmem_signal_nbi`: the blocking call. -/
def putmemSignalNbi (ctx : IPCContext) (ipcBases : Nat → Nat) (dest source nelems sigAddr : Nat)
    (signal : UInt64) (sigOp : Int) (pe : Nat) (mem : Nat → UInt8) : Nat → UInt8 :=
  ctx.putmemSignal ipcBases dest source nelems sigAddr signal sigOp pe mem

/-- `IPCContext::putmem_signal_nbi_wg`: the blocking `_wg` call. -/
def putmemSignalNbiWg (ctx : IPCContext) (ipcBases : Nat → Nat)
    (blockSize dest source nelems sigAddr : Nat) (signal : UInt64) (sigOp : Int) (pe : Nat)
    (mem : Nat → UInt8) : Nat → UInt8 :=
  ctx.putmemSignalWg ipcBases blockSize dest source nelems sigAddr signal sigOp pe mem

/-- `IPCContext::putmem_signal_nbi_wave`: the blocking `_wave` call. -/
def putmemSignalNbiWave (ctx : IPCContext) (ipcBases : Nat → Nat)
    (wave dest source nelems sigAddr : Nat) (signal : UInt64) (sigOp : Int) (pe : Nat)
    (mem : Nat → UInt8) : Nat → UInt8 :=
  ctx.putmemSignalWave ipcBases wave dest source nelems sigAddr signal sigOp pe mem

section Spec

variable (ctx : IPCContext) (ipcBases : Nat → Nat) {dest source nelems sigAddr pe : Nat}

/-- After a `SET`, PE `pe`'s signal word is `signal`, its copy of
    `[dest, dest + nelems)` outside that word holds the source bytes, and
    every other byte stays. -/
theorem putmemSignal_set_spec (signal : UInt64) (mem : Nat → UInt8)
    (hsrc : source + nelems ≤ ipcAddress ipcBases ctx.myPe pe dest ∨
      ipcAddress ipcBases ctx.myPe pe dest + nelems ≤ source) (b : Nat) :
    ctx.putmemSignal ipcBases dest source nelems sigAddr signal rocshmemSignalSet pe mem b =
      if ipcAddress ipcBases ctx.myPe pe sigAddr ≤ b ∧
          b < ipcAddress ipcBases ctx.myPe pe sigAddr + 8
      then UInt8.ofNat (signal.toNat / 256 ^ (b - ipcAddress ipcBases ctx.myPe pe sigAddr))
      else if ipcAddress ipcBases ctx.myPe pe dest ≤ b ∧
          b < ipcAddress ipcBases ctx.myPe pe dest + nelems
      then mem (source + (b - ipcAddress ipcBases ctx.myPe pe dest))
      else mem b := by
  simp only [putmemSignal, signalSwitch, if_pos rfl, amoSet, writeLE, putmem]
  split
  · rfl
  · rw [memcpy_copies _ _ _ hsrc]

end Spec

end IPCContext

/-- An `ADD` goes to `dest`: on PE `pe` the signal word keeps its old value,
    and the first word of the data holds the source's first word plus
    `signal`, modulo `2 ^ 64`. -/
theorem putmem_signal_add_hits_dest (ctx : IPCContext) (ipcBases : Nat → Nat)
    (dest source nelems sigAddr : Nat) (signal : UInt64) (pe : Nat) (mem : Nat → UInt8)
    (hdest : ipcBases ctx.myPe ≤ dest) (hsig : ipcBases ctx.myPe ≤ sigAddr)
    (hapart : sigAddr + 8 ≤ dest ∨ dest + nelems ≤ sigAddr) (h8 : 8 ≤ nelems)
    (hsrc : source + nelems ≤ ipcAddress ipcBases ctx.myPe pe dest ∨
      ipcAddress ipcBases ctx.myPe pe dest + nelems ≤ source) :
    readLE (ctx.putmemSignal ipcBases dest source nelems sigAddr signal rocshmemSignalAdd pe mem)
        (ipcAddress ipcBases ctx.myPe pe sigAddr) 8 =
      readLE mem (ipcAddress ipcBases ctx.myPe pe sigAddr) 8 ∧
    readLE (ctx.putmemSignal ipcBases dest source nelems sigAddr signal rocshmemSignalAdd pe mem)
        (ipcAddress ipcBases ctx.myPe pe dest) 8 =
      (readLE mem source 8 + signal.toNat) % 2 ^ 64 := by
  -- The copy: the data word holds the source's, the signal word is untouched.
  have hcopy := memcpy_copies (ipcAddress ipcBases ctx.myPe pe dest) source nelems hsrc mem
  have hdata : readLE (applyAll (ctx.putmem ipcBases dest source nelems pe) mem)
      (ipcAddress ipcBases ctx.myPe pe dest) 8 = readLE mem source 8 := by
    refine readLE_congr fun k hk => ?_
    rw [IPCContext.putmem, hcopy, if_pos (by omega)]
    congr 1
    omega
  have hsigWord : ∀ (m : Nat → UInt8), (∀ b, ¬ (ipcAddress ipcBases ctx.myPe pe dest ≤ b ∧
      b < ipcAddress ipcBases ctx.myPe pe dest + nelems) → m b = mem b) →
      readLE m (ipcAddress ipcBases ctx.myPe pe sigAddr) 8 =
        readLE mem (ipcAddress ipcBases ctx.myPe pe sigAddr) 8 := fun m hm =>
    readLE_congr fun k hk => hm _ (by simp only [ipcAddress] at *; omega)
  have hadd : ¬ (rocshmemSignalAdd = rocshmemSignalSet) := by decide
  simp only [IPCContext.putmemSignal, IPCContext.signalSwitch, if_neg hadd, if_true,
    IPCContext.amoAdd]
  constructor
  · -- `amo_add` writes the data word, not the signal word.
    refine hsigWord _ fun b hb => ?_
    by_cases hw : ipcAddress ipcBases ctx.myPe pe dest ≤ b ∧
        b < ipcAddress ipcBases ctx.myPe pe dest + 8
    · exact absurd ⟨hw.1, by omega⟩ hb
    · rw [writeLE_of_not_mem _ _ hw, IPCContext.putmem, hcopy, if_neg hb]
  · rw [readLE_writeLE, hdata]
    rfl

/-- PE 0 puts 8 zero bytes from `source = 64` into PE 1's copy of
    `dest = 4096` and adds `1` to the signal word at `4160`, the heaps mapped
    at `4096 * (pe + 1)`: the signal word stays `0`, the data word becomes
    `1`. -/
theorem putmem_signal_add_hits_dest_on_zero_heap :
    (fun p => 4096 * (p + 1)) (⟨0, 2⟩ : IPCContext).myPe ≤ 4096 ∧
      (fun p => 4096 * (p + 1)) (⟨0, 2⟩ : IPCContext).myPe ≤ 4160 ∧
      (4160 + 8 ≤ 4096 ∨ 4096 + 8 ≤ 4160) ∧ 8 ≤ 8 ∧
      (64 + 8 ≤ ipcAddress (fun p => 4096 * (p + 1)) (⟨0, 2⟩ : IPCContext).myPe 1 4096 ∨
        ipcAddress (fun p => 4096 * (p + 1)) (⟨0, 2⟩ : IPCContext).myPe 1 4096 + 8 ≤ 64) ∧
      (readLE ((⟨0, 2⟩ : IPCContext).putmemSignal (fun p => 4096 * (p + 1)) 4096 64 8 4160 1
            rocshmemSignalAdd 1 fun _ => 0)
          (ipcAddress (fun p => 4096 * (p + 1)) (⟨0, 2⟩ : IPCContext).myPe 1 4160) 8 =
        readLE (fun _ => 0)
          (ipcAddress (fun p => 4096 * (p + 1)) (⟨0, 2⟩ : IPCContext).myPe 1 4160) 8 ∧
      readLE ((⟨0, 2⟩ : IPCContext).putmemSignal (fun p => 4096 * (p + 1)) 4096 64 8 4160 1
            rocshmemSignalAdd 1 fun _ => 0)
          (ipcAddress (fun p => 4096 * (p + 1)) (⟨0, 2⟩ : IPCContext).myPe 1 4096) 8 =
        (readLE (fun _ => 0) 64 8 + (1 : UInt64).toNat) % 2 ^ 64) :=
  ⟨by decide, by decide, by decide, by decide, by decide,
    putmem_signal_add_hits_dest ⟨0, 2⟩ (fun p => 4096 * (p + 1)) 4096 64 8 4160 1 1 (fun _ => 0)
      (by decide) (by decide) (by decide) (by decide) (by decide)⟩

end RocShmem
