import JOS.Kern.Icode

/-!
# The boot loader

`boot/main.c`. Sector 0 of the disk holds the boot loader itself, and the kernel image begins
at sector 1. Paging is off, so memory is a function of the physical address, and there is memory
at every address.

The loader is in memory too: its code in the sector to which the BIOS has loaded it, and the
return addresses and the locals of its functions on the stack below (`Loader`). When `readsect`
is told to read a sector over it, the CPU goes on with what that sector holds; this is not
followed further, and the result is `none`.

`waitdisk` returns when the disk is ready; here it always is. A loop takes fuel, and gives
`none` when that does not suffice.
-/

namespace JOS

def SECTSIZE : Word := 512#32

/-- Scratch space. -/
def ELFHDR : Word := 0x10000#32

/-- The kernel image, on a disk. -/
def image (disk : ℕ → BitVec 8) (j : ℕ) : BitVec 8 := disk (SECTSIZE.toNat + j)

/-! ### The loader -/

/-- `start`, in `boot/boot.S`: the sector of the loader's code begins there, and its stack ends. -/
def bootStart : Word := 0x7c00#32

/-- The loader in memory, with the lowest address of its stack that it uses. The call of `bootmain`
pushes a return address. -/
structure Loader where
  stack : Word
  below : stack.toNat < bootStart.toNat

/-- The code and the stack. -/
def Loader.Has (l : Loader) (a : Word) : Prop := l.stack.toNat ≤ a.toNat ∧
    a.toNat < bootStart.toNat + SECTSIZE.toNat

/-- The sector of memory at `dst` meets them. -/
def Loader.Meets (l : Loader) (dst : Word) : Prop :=
  l.stack.toNat < dst.toNat + SECTSIZE.toNat ∧ dst.toNat < bootStart.toNat + SECTSIZE.toNat

instance (l : Loader) (dst : Word) : Decidable (l.Meets dst) := inferInstanceAs (Decidable (_ ∧ _))

/-! ### The disk -/

/-- The first IDE disk: its bytes, and what has been written to the ports of the controller. -/
structure Ide where
  disk : ℕ → BitVec 8
  reg : Word → BitVec 8

def Ide.outb (d : Ide) (port : Word) (data : BitVec 8) : Ide :=
  { d with reg := Function.update d.reg port data }

/-- The sector that is addressed; the high half of `0x1F6` selects the disk and the mode. -/
def Ide.lba (d : Ide) : ℕ :=
  ((d.reg 0x1F6 &&& 0x0F) ++ d.reg 0x1F5 ++ d.reg 0x1F4 ++ d.reg 0x1F3).toNat

/-- `insl`, of `cnt` words from the data port, into memory at `dst`. -/
def Ide.insl (d : Ide) (mem : Word → BitVec 8) (dst : Word) (cnt : ℕ) : Word → BitVec 8 := fun a =>
  if (a - dst).toNat < 4 * cnt then d.disk (SECTSIZE.toNat * d.lba + (a - dst).toNat) else mem a

/-- `readsect`: every port is set, so what was written to them before does not count. `none` when
the loader itself is overwritten. -/
def readsect (l : Loader) (disk : ℕ → BitVec 8) (mem : Word → BitVec 8) (dst offset : Word) :
    Option (Word → BitVec 8) :=
  let d : Ide := ⟨disk, fun _ => 0⟩
  -- count = 1
  let d := d.outb 0x1F2 1
  let d := d.outb 0x1F3 (offset.setWidth 8)
  let d := d.outb 0x1F4 ((offset >>> 8).setWidth 8)
  let d := d.outb 0x1F5 ((offset >>> 16).setWidth 8)
  let d := d.outb 0x1F6 (((offset >>> 24) ||| 0xE0).setWidth 8)
  -- cmd 0x20 - read sectors
  let d := d.outb 0x1F7 0x20
  if l.Meets dst then none else some (d.insl mem dst (SECTSIZE / 4).toNat)

/-- The loop of `readseg`. -/
def readsegLoop (l : Loader) (disk : ℕ → BitVec 8) (endPa : Word) : ℕ → Word → Word →
    (Word → BitVec 8) →
    Option (Word → BitVec 8)
  | 0, _, _, _ => none
  | fuel + 1, pa, offset, mem =>
    if pa < endPa then do
      let mem ← readsect l disk mem pa offset
      readsegLoop l disk endPa fuel (pa + SECTSIZE) (offset + 1) mem
    else some mem

/-- `readseg`. -/
def readseg (l : Loader) (disk : ℕ → BitVec 8) (fuel : ℕ) (mem : Word → BitVec 8)
    (pa count offset : Word) :
    Option (Word → BitVec 8) :=
  let endPa := pa + count
  -- round down to sector boundary
  let pa := pa &&& ~~~(SECTSIZE - 1)
  -- translate from bytes to sectors, and kernel starts at sector 1
  let offset := offset / SECTSIZE + 1
  readsegLoop l disk endPa fuel pa offset mem

/-! ### The headers -/

/-- A `uint16_t` in memory, little end first. -/
def halfAt (mem : Word → BitVec 8) (a : Word) : BitVec 16 := mem (a + 1) ++ mem a

/-- A `uint32_t` in memory. -/
def wordAt (mem : Word → BitVec 8) (a : Word) : Word := halfAt mem (a + 2) ++ halfAt mem a

/-- `struct Proghdr`, the fields `bootmain` reads. -/
structure BootProghdr where
  pOffset : Word
  pPa : Word
  pMemsz : Word
  deriving DecidableEq

/-- `sizeof(struct Proghdr)`. -/
def sizeofProghdr : Word := 32#32

/-- `*ph`. -/
def proghdrAt (mem : Word → BitVec 8) (ph : Word) : BootProghdr where
  pOffset := wordAt mem (ph + 4)
  pPa := wordAt mem (ph + 12)
  pMemsz := wordAt mem (ph + 20)

/-! ### `bootmain` -/

/-- `for (; ph < eph; ph++)`. -/
def phLoop (l : Loader) (disk : ℕ → BitVec 8) (eph : Word) : ℕ → Word → (Word → BitVec 8) →
    Option (Word → BitVec 8)
  | 0, _, _ => none
  | fuel + 1, ph, mem =>
    if ph < eph then do
      let h := proghdrAt mem ph
      let mem ← readseg l disk fuel mem h.pPa h.pMemsz h.pOffset
      phLoop l disk eph fuel (ph + sizeofProghdr) mem
    else some mem

/-- How `bootmain` ends. -/
inductive BootEnd where
  /-- With the call of the entry point. -/
  | entry (mem : Word → BitVec 8) (eEntry : Word)
  /-- At `bad`, where it stays. -/
  | bad

/-- `bootmain`. -/
def bootmain (l : Loader) (disk : ℕ → BitVec 8) (fuel : ℕ) (mem : Word → BitVec 8) :
    Option BootEnd := do
  -- read 1st page off disk
  let mem ← readseg l disk fuel mem ELFHDR (SECTSIZE * 8) 0
  -- is this a valid ELF?
  if wordAt mem ELFHDR ≠ ELF_MAGIC then return .bad
  -- load each program segment (ignores ph flags)
  let ph := ELFHDR + wordAt mem (ELFHDR + 28)
  let eph := ph + (halfAt mem (ELFHDR + 44)).setWidth 32 * sizeofProghdr
  let mem ← phLoop l disk eph fuel ph mem
  return .entry mem (wordAt mem (ELFHDR + 24))

end JOS
