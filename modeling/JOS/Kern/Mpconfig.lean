import JOS.Kern.MemInit

/-!
# The multiprocessor configuration table

`kern/mpconfig.c` finds the table that the firmware has left in physical memory and
fills `cpus` from it; `cpunum` (`kern/lapic.c`) reads the number of a CPU from its
local APIC.

Physical memory is bytes here. A kernel virtual address is named by the physical address
it stands for; `KADDR` checks that this is memory.
-/

namespace JOS

/-- Physical memory as the firmware leaves it. -/
structure Firmware where
  /-- Amount of physical memory, in pages. -/
  npages : ℕ
  byte : Word → BitVec 8

namespace Firmware

/-- A `uint16_t`, little end first. -/
def half (f : Firmware) (a : Word) : BitVec 16 := f.byte (a + 1) ++ f.byte a

/-- A `uint32_t`. -/
def word (f : Firmware) (a : Word) : Word := f.half (a + 2) ++ f.half a

/-- `KADDR`. -/
def kaddr (f : Firmware) (pa : Word) : Except Stop Word :=
  if PGNUM pa ≥ f.npages then .error .panic else .ok pa

/-- `sum`. -/
def sum (f : Firmware) (addr : Word) (len : ℕ) : BitVec 8 :=
  (List.range len).foldl (fun s i => s + f.byte (addr + BitVec.ofNat 32 i)) 0

/-- `memcmp(addr, s, n) == 0`, for a literal of length `n`. -/
def signature (f : Firmware) (addr : Word) (s : List (BitVec 8)) : Bool :=
  (List.range s.length).all fun i => f.byte (addr + BitVec.ofNat 32 i) == s.getD i 0

end Firmware

/-- `"_MP_"`. -/
def sigMp : List (BitVec 8) := [0x5f, 0x4d, 0x50, 0x5f]

/-- `"PCMP"`. -/
def sigPcmp : List (BitVec 8) := [0x50, 0x43, 0x4d, 0x50]

/-- `mpsearch1`: `struct mp` has 16 bytes. -/
def mpsearch1 (f : Firmware) (a : Word) (len : ℕ) : Except Stop (Option Word) := do
  let mp ← f.kaddr a
  let _ ← f.kaddr (a + BitVec.ofNat 32 len)
  return ((List.range ((len + 15) / 16)).map fun i => mp + BitVec.ofNat 32 (16 * i)).find? fun mp =>
    f.signature mp sigMp && f.sum mp 16 == 0

/-- `mpsearch`. -/
def mpsearch (f : Firmware) : Except Stop (Option Word) := do
  let bda ← f.kaddr (0x40 <<< 4)
  let p : Word := (f.half (bda + 0x0E)).setWidth 32
  let mp ←
    if p ≠ 0 then mpsearch1 f (p <<< 4) 1024
    else
      let p : Word := (f.half (bda + 0x13)).setWidth 32 * 1024
      mpsearch1 f (p - 1024) 1024
  match mp with
  | some mp => return some mp
  | none => mpsearch1 f 0xF0000 0x10000

/-- `mpconfig`: the `struct mpconf`, if there is one that is accepted. -/
def mpconfig (f : Firmware) : Except Stop (Option Word) := do
  match ← mpsearch f with
  | none => return none
  | some mp =>
    if f.word (mp + 4) = 0 ∨ f.byte (mp + 11) ≠ 0 then return none
    else
      let conf ← f.kaddr (f.word (mp + 4))
      let length := f.half (conf + 4)
      let version := f.byte (conf + 6)
      let xlength := f.half (conf + 40)
      if !f.signature conf sigPcmp then return none
      else if f.sum conf length.toNat ≠ 0 then return none
      else if version ≠ 1 ∧ version ≠ 4 then return none
      else if f.sum (conf + length.setWidth 32) xlength.toNat + f.byte (conf + 42) ≠
        0 then return none
      else return some conf

/-- What `mp_init` sets. -/
structure MpState where
  /-- The next table entry. -/
  p : Word
  /-- How many CPUs there are. -/
  ncpu : ℕ
  /-- `cpus[i].cpu_id`. -/
  cpuId : ℕ → BitVec 8
  /-- The index of `bootcpu`. -/
  bootcpu : ℕ
  /-- Whether the table has been understood. -/
  ismp : Bool
  /-- The address of the local APIC. -/
  lapicaddr : Word
  /-- Not in the source: the processor entries with the index of the element of `cpus` filled for
  each. -/
  filled : List (Word × ℕ)

/-- `sizeof(struct mpproc)`. -/
def sizeofMpproc : Word := 20#32

/-- `proc->apicid` and `proc->flags` of the processor entry at `proc`. -/
def apicid (f : Firmware) (proc : Word) : BitVec 8 := f.byte (proc + 1)
def procFlags (f : Firmware) (proc : Word) : BitVec 8 := f.byte (proc + 3)

/-- `MPPROC_BOOT`. -/
def MPPROC_BOOT : BitVec 8 := 2#8

/-- One table entry: `MPPROC`, a type without a meaning to the kernel, or an unknown one. -/
def mpEntry (f : Firmware) (s : MpState) : MpState :=
  let type := f.byte s.p
  if type = 0 then
    let s := if procFlags f s.p &&& MPPROC_BOOT ≠ 0 then { s with bootcpu := s.ncpu } else s
    let s := if s.ncpu < NCPU then
        { s with
          cpuId := Function.update s.cpuId s.ncpu (BitVec.ofNat 8 s.ncpu)
          filled := s.filled ++ [(s.p, s.ncpu)]
          ncpu := s.ncpu + 1 }
      else s
    { s with p := s.p + sizeofMpproc }
  else if type ≤ 4 then { s with p := s.p + 8 }
  else { s with ismp := false }

/-- The loop of `mp_init`, with `n` entries left; an unknown entry is the last. -/
def mpWalk (f : Firmware) : ℕ → MpState → MpState
  | 0, s => s
  | n + 1, s => if (mpEntry f s).ismp then mpWalk f n (mpEntry f s) else mpEntry f s

/-- The bytes of the table that a pass of the loop reads: the type, the flags of a processor, and
the number of one that there is no element for. -/
def entryReads (f : Firmware) (s : MpState) : List Word :=
  if f.byte s.p = 0 then if s.ncpu < NCPU then [s.p, s.p + 3]
    else [s.p, s.p + 3, s.p + 1] else [s.p]

/-- The bytes of the table that the loop reads. -/
def walkReads (f : Firmware) : ℕ → MpState → List Word
  | 0, _ => []
  | n + 1, s => entryReads f s ++ if (mpEntry f s).ismp then walkReads f n (mpEntry f s) else []

/-- The state in which the loop begins. -/
def mpStart (f : Firmware) (conf : Word) : MpState :=
  ⟨conf + 44, 0, fun _ => 0, 0, true, f.word (conf + 36), []⟩

/-- `mp_init` when `mpconfig` accepts the table at `conf`. -/
def mpInitConf (f : Firmware) (conf : Word) : MpState :=
  let s := mpWalk f (f.half (conf + 34)).toNat ⟨conf + 44, 0, fun _ => 0, 0, true,
    f.word (conf + 36), []⟩
  if s.ismp then s else { s with ncpu := 1, lapicaddr := 0 }

/-- `mp_init`; without a table nothing but `bootcpu` is set. -/
def mpInit (f : Firmware) : Except Stop MpState := do
  match ← mpconfig f with
  | none => return ⟨0, 0, fun _ => 0, 0, false, 0, []⟩
  | some conf => return mpInitConf f conf

/-- `cpunum`: the register `lapic[ID]` of the CPU it runs on, if the local APIC is mapped. -/
def cpunum (lapicId : Option Word) : ℕ :=
  match lapicId with
  | some id => (id >>> 24).toNat
  | none => 0

end JOS
