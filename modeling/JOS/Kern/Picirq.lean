import JOS.Kern.TrapInit

/-!
# Device interrupts

Which interrupts devices raise, and with which vectors: `kern/picirq.c` programs the two
8259A controllers, `kbd_init` (`kern/console.c`) unmasks the keyboard, and `lapic_init`
(`kern/lapic.c`) gives the local APIC the vectors of its timer and of spurious
interrupts. A controller is modelled by what its two ports do: a command that starts its
initialisation, the initialisation words that follow, and from then on the mask.
-/

namespace JOS

def MAX_IRQS : ℕ := 16
def IO_PIC1 : Word := 0x20#32
def IO_PIC2 : Word := 0xA0#32
def IRQ_TIMER : Word := 0#32
def IRQ_SLAVE : ℕ := 2

/-! ### The controllers -/

/-- What the next byte written to the data port of an 8259A is. -/
inductive PicData where
  /-- The vector of its first line. -/
  | icw2
  /-- How it is wired to the other one. -/
  | icw3
  /-- Its mode. -/
  | icw4
  /-- The mask. -/
  | ocw1
  deriving DecidableEq, Repr

/-- An 8259A. -/
structure Pic where
  /-- The lines that are masked. -/
  imr : BitVec 8
  /-- The vector of its first line. -/
  offset : BitVec 8
  /-- The byte that started its initialisation. -/
  icw1 : BitVec 8
  next : PicData
  deriving DecidableEq, Repr

/-- A byte to the command port. Bit 4 starts the initialisation, which clears the mask. -/
def Pic.command (p : Pic) (b : BitVec 8) : Pic :=
  if b &&& 0x10 ≠ 0 then { p with imr := 0, icw1 := b, next := .icw2 } else p

/-- A byte to the data port. -/
def Pic.data (p : Pic) (b : BitVec 8) : Pic :=
  match p.next with
  | .icw2 =>
    { p with
      offset := b &&& 0xF8
      next := if p.icw1 &&& 2 = 0 then .icw3 else if p.icw1 &&& 1 = 0 then .ocw1 else .icw4 }
  | .icw3 => { p with next := if p.icw1 &&& 1 = 0 then .ocw1 else .icw4 }
  | .icw4 => { p with next := .ocw1 }
  | .ocw1 => { p with imr := b }

/-- The controllers, and the variables of `kern/picirq.c`. -/
structure Irqs where
  irqMask8259A : BitVec 16
  didinit : Bool
  /-- The master. -/
  pic1 : Pic
  /-- The slave. -/
  pic2 : Pic
  deriving DecidableEq, Repr

namespace Irqs

/-- `outb`, to the ports of the controllers. -/
def outb (s : Irqs) (port : Word) (b : BitVec 8) : Irqs :=
  if port = IO_PIC1 then { s with pic1 := s.pic1.command b }
  else if port = IO_PIC1 + 1 then { s with pic1 := s.pic1.data b }
  else if port = IO_PIC2 then { s with pic2 := s.pic2.command b }
  else if port = IO_PIC2 + 1 then { s with pic2 := s.pic2.data b }
  else s

end Irqs

/-! ### `kern/picirq.c` -/

/-- `irq_setmask_8259A`. -/
def irqSetmask8259A (s : Irqs) (mask : BitVec 16) : Irqs :=
  let s := { s with irqMask8259A := mask }
  if !s.didinit then s
  else (s.outb (IO_PIC1 + 1) (mask.setWidth 8)).outb (IO_PIC2 + 1) ((mask >>> 8).setWidth 8)

/-- What `pic_init` writes to the ports, in its order. -/
def picInitOutb : List (Word × BitVec 8) :=
  [(IO_PIC1 + 1, 0xFF), (IO_PIC2 + 1, 0xFF),
    (IO_PIC1, 0x11), (IO_PIC1 + 1, IRQ_OFFSET.setWidth 8), (IO_PIC1 + 1, 1 <<< IRQ_SLAVE),
    (IO_PIC1 + 1, 0x3),
    (IO_PIC2, 0x11), (IO_PIC2 + 1, (IRQ_OFFSET + 8).setWidth 8),
    (IO_PIC2 + 1, BitVec.ofNat 8 IRQ_SLAVE), (IO_PIC2 + 1, 0x01),
    (IO_PIC1, 0x68), (IO_PIC1, 0x0a), (IO_PIC2, 0x68), (IO_PIC2, 0x0a)]

/-- `pic_init`. -/
def picInit (s : Irqs) : Irqs :=
  let s := picInitOutb.foldl (fun s w => s.outb w.1 w.2) { s with didinit := true }
  if s.irqMask8259A ≠ 0xFFFF then irqSetmask8259A s s.irqMask8259A else s

/-- `kbd_init`. -/
def kbdInit (s : Irqs) : Irqs := irqSetmask8259A s (s.irqMask8259A &&& ~~~(1#16 <<< 1))

/-- What `i386_init` makes of controllers in any state: `cons_init`, and later `pic_init`. -/
def bootIrqs (pic1 pic2 : Pic) : Irqs :=
  picInit (kbdInit ⟨0xFFFF#16 &&& ~~~(1#16 <<< IRQ_SLAVE), false, pic1, pic2⟩)

/-! ### `kern/lapic.c` -/

/-- What `lapic_init` writes to `TIMER`: `PERIODIC | (IRQ_OFFSET + IRQ_TIMER)`. -/
def lapicTimer : Word := 0x20000#32 ||| (IRQ_OFFSET + IRQ_TIMER)

/-- What `lapic_init` writes to `SVR`: `ENABLE | (IRQ_OFFSET + IRQ_SPURIOUS)`. -/
def lapicSvr : Word := 0x100#32 ||| (IRQ_OFFSET + IRQ_SPURIOUS)

/-! ### Interrupts -/

/-- A hardware interrupt. -/
inductive Interrupt where
  /-- The timer of the local APIC. -/
  | timer
  /-- A spurious interrupt of the local APIC. -/
  | spurious
  /-- A line of the controllers. -/
  | line (i : ℕ)
  deriving DecidableEq, Repr

namespace Irqs

/-- The interrupts that can be delivered. -/
def Delivers (s : Irqs) : Interrupt → Prop
  | .line i => i < MAX_IRQS ∧ s.irqMask8259A.getLsbD i = false
  | _ => True

/-- The vector of an interrupt. -/
def vector (s : Irqs) : Interrupt → Word
  | .timer => lapicTimer &&& 0xFF
  | .spurious => lapicSvr &&& 0xFF
  | .line i => if i < 8 then s.pic1.offset.setWidth 32 + BitVec.ofNat 32 i
      else s.pic2.offset.setWidth 32 + BitVec.ofNat 32 (i - 8)

/-- The number that the handler of an interrupt pushes, in `tf_trapno`. -/
def trapno (s : Irqs) (cpl : ℕ) (i : Interrupt) : Word :=
  (idt ((Cause.hardware (s.vector i)).vector cpl)).gdOff.num

end Irqs

variable {pic1 pic2 : Pic} {cpl : ℕ} {i : Interrupt}

/-- The initialisation leaves nothing of the state a controller was in. -/
theorem Pic.init (p : Pic) (offset : BitVec 8) (w₁ w₂ : BitVec 8) :
    (((p.command 0x11).data offset).data w₁).data w₂ = ⟨0, offset &&& 0xF8, 0x11, .ocw1⟩ := by
  have h₁ : p.command 0x11 = ⟨0, p.offset, 0x11, .icw2⟩ := if_pos (by decide)
  have h₂ : (Pic.mk 0 p.offset 0x11 .icw2).data offset = ⟨0, offset &&& 0xF8, 0x11, .icw3⟩ := by
    simp [Pic.data]
  have h₃ : (Pic.mk 0 (offset &&& 0xF8) 0x11 .icw3).data w₁ = ⟨0, offset &&& 0xF8, 0x11,
    .icw4⟩ := by simp [Pic.data]
  rw [h₁, h₂, h₃]
  rfl

/-- `pic_init` programs both controllers, with the mask that was asked for. -/
theorem picInit_eq {mask : BitVec 16} (h : mask ≠ 0xFFFF) : picInit ⟨mask, false, pic1, pic2⟩ =
    ⟨mask, true, ⟨mask.setWidth 8, 0x20, 0x11, .ocw1⟩,
        ⟨(mask >>> 8).setWidth 8, 0x28, 0x11, .ocw1⟩⟩ := by
  have hinit : picInitOutb.foldl (fun s w => s.outb w.1 w.2) (Irqs.mk mask true pic1 pic2) =
      ⟨mask, true, (((((((pic1.data 0xFF).command 0x11).data 0x20).data 4).data 3).command
        0x68).command 0x0a),
        (((((((pic2.data 0xFF).command 0x11).data 0x28).data 2).data 1).command 0x68).command
          0x0a)⟩ := rfl
  rw [Pic.init, Pic.init] at hinit
  simp only [picInit]
  rw [hinit, if_pos h]
  rfl

/-- The keyboard's line and the slave's line are unmasked. -/
theorem bootIrqs_eq (pic1 pic2 : Pic) : bootIrqs pic1 pic2 =
    ⟨0xFFF9, true, ⟨0xF9, 0x20, 0x11, .ocw1⟩, ⟨0xFF, 0x28, 0x11, .ocw1⟩⟩ := by
  have hmask : (0xFFFF#16 &&& ~~~(1#16 <<< IRQ_SLAVE)) &&& ~~~(1#16 <<< 1) = 0xFFF9#16 := by decide
  have hkbd : kbdInit ⟨0xFFFF#16 &&& ~~~(1#16 <<< IRQ_SLAVE), false, pic1, pic2⟩ =
      ⟨0xFFF9#16, false, pic1, pic2⟩ := by
    rw [kbdInit, hmask]
    rfl
  have hne : (0xFFF9#16 : BitVec 16) ≠ 0xFFFF := by decide
  rw [bootIrqs, hkbd, picInit_eq hne]
  decide

/-- The interrupts that are delivered. -/
theorem delivers_bootIrqs : (bootIrqs pic1 pic2).Delivers i ↔ i = .timer ∨ i = .spurious ∨
    i = .line 1 ∨ i = .line IRQ_SLAVE := by
  rw [bootIrqs_eq]
  cases i with
  | timer => simp [Irqs.Delivers]
  | spurious => simp [Irqs.Delivers]
  | line i =>
    simp only [Irqs.Delivers, MAX_IRQS, IRQ_SLAVE, reduceCtorEq, false_or, Interrupt.line.injEq]
    constructor
    · rintro ⟨hi, hmask⟩
      interval_cases i <;> simp_all
    · rintro (rfl | rfl) <;> decide

/-- Every interrupt has a gate, whose handler pushes its own vector. -/
theorem trapno_bootIrqs (cpl : ℕ) : ∀ i, (bootIrqs pic1 pic2).Delivers i →
    (bootIrqs pic1 pic2).trapno cpl i =
    match i with
    | .timer => IRQ_OFFSET
    | .spurious => IRQ_OFFSET + IRQ_SPURIOUS
    | .line i => IRQ_OFFSET + BitVec.ofNat 32 i := by
  intro i hi
  have hcpl : ∀ v, (Cause.hardware v).vector cpl = (Cause.hardware v).vector 0 := fun _ => rfl
  rw [Irqs.trapno, hcpl, bootIrqs_eq]
  rcases delivers_bootIrqs.mp hi with rfl | rfl | rfl | rfl <;> decide

end JOS
