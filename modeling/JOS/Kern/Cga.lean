import JOS.Lib.String

/-!
# The text display

`cga_putc` of `kern/console.c`, and `cons_putc`, which sends a character to the serial
port, to the parallel port and to the display, and is called by `cga_putc` for a tab.

The cells of the display are in memory, two bytes each, from `crt_buf` on. What is sent to
a port is recorded; the loops that wait for a port to be ready end after 12800 passes and
send what they have to send then.
-/

namespace JOS

def MONO_BASE : Word := 0x3B4
def MONO_BUF : Word := 0xB0000
def CGA_BASE : Word := 0x3D4
def CGA_BUF : Word := 0xB8000

def CRT_ROWS : ℕ := 25
def CRT_COLS : ℕ := 80
def CRT_SIZE : ℕ := CRT_ROWS * CRT_COLS

/-- What can be seen: memory, and `crt_pos`. -/
structure Display where
  mem : Word → BitVec 8
  crtPos : BitVec 16

/-- The state of the display. -/
structure Crt extends Display where
  /-- Whether `cga_init` has found a monochrome display. -/
  mono : Bool
  /-- What the ports have been sent. -/
  outs : List (Word × BitVec 8)
  /-- Not in the source: the indices of `crt_buf` that have been read or written. -/
  touched : List ℕ
  /-- Not in the source: for every call of `cga_putc` so far, the display after the character and at
  the end. -/
  calls : List (Display × Display)

namespace Crt

/-- `crt_buf` and `addr_6845`, as `cga_init` sets them. -/
def crtBuf (s : Crt) : Word := if s.mono then KERNBASE + MONO_BUF else KERNBASE + CGA_BUF
def addr6845 (s : Crt) : Word := if s.mono then MONO_BASE else CGA_BASE

/-- `outb`. -/
def outb (s : Crt) (port : Word) (data : BitVec 8) : Crt :=
  { s with outs := s.outs ++ [(port, data)] }

/-- `crt_buf[i] = w`, little end first. -/
def setCell (s : Crt) (i : ℕ) (w : BitVec 16) : Crt :=
  let p := s.crtBuf + BitVec.ofNat 32 (2 * i)
  { s with
    mem := Function.update (Function.update s.mem p (w.setWidth 8)) (p + 1) ((w >>> 8).setWidth 8)
    touched := s.touched ++ [i] }

end Crt

/-- `COM1 + COM_TX`. -/
def COM1 : Word := 0x3F8

/-- `serial_putc`. -/
def serialPutc (c : Word) (s : Crt) : Crt := s.outb COM1 (c.setWidth 8)

/-- `lpt_putc`. -/
def lptPutc (c : Word) (s : Crt) : Crt := ((s.outb 0x378 (c.setWidth 8)).outb (0x378 + 2) 0x0d).outb
    (0x378 + 2) 0x08

/-- If no attribute is given, then black on white. -/
def withAttribute (c : Word) : Word := if c &&& ~~~0xff = 0 then c ||| 0x0700 else c

/-- The text moves up by a row. -/
def crtScroll (s : Crt) : Crt :=
  let n := CRT_SIZE - CRT_COLS
  let s := { s with
    mem := (memmove s.mem s.crtBuf (s.crtBuf + BitVec.ofNat 32 (2 * CRT_COLS))
      (BitVec.ofNat 32 (2 * n))).2.1
    touched := s.touched ++ (List.range n).map (· + CRT_COLS) ++ List.range n }
  let s := ((List.range CRT_COLS).map (· + n)).foldl (fun s i => s.setCell i (0x0700 ||| 0x20)) s
  { s with crtPos := s.crtPos - BitVec.ofNat 16 CRT_COLS }

/-- `cga_putc` after the `switch`. -/
def cgaFinish (s : Crt) : Crt :=
  let written := s.toDisplay
  let s := if s.crtPos.toNat ≥ CRT_SIZE then crtScroll s else s
  -- move that little blinky thing
  let s := s.outb s.addr6845 14
  let s := s.outb (s.addr6845 + 1) ((s.crtPos >>> 8).setWidth 8)
  let s := s.outb s.addr6845 15
  let s := s.outb (s.addr6845 + 1) (s.crtPos.setWidth 8)
  { s with calls := s.calls ++ [(written, s.toDisplay)] }

/-- `'\t'`, for the low byte of a character. -/
def isTab (c : Word) : Bool := c &&& 0xff = 0x09

theorem isTab_withAttribute (c : Word) : isTab (withAttribute c) = isTab c := by
  have h : (c ||| 0x0700) &&& 0xff = c &&& 0xff := by
    rw [BitVec.and_comm, BitVec.and_or_distrib_left, BitVec.and_comm,
      show (0xff &&& 0x0700 : Word) = 0#32 from rfl,
      BitVec.or_zero]
  rw [isTab, isTab, withAttribute]
  split_ifs
  · rw [h]
  · rfl

-- The calls for a tab are calls for a space.
mutual

/-- The `switch` of `cga_putc`. -/
def cgaSwitch (c : Word) (s : Crt) : Crt :=
  if c &&& 0xff = 0x08 then
    if s.crtPos > 0 then
      let s := { s with crtPos := s.crtPos - 1 }
      s.setCell s.crtPos.toNat (((c &&& ~~~0xff) ||| 0x20).setWidth 16)
    else s
  else if c &&& 0xff = 0x0a then
    let s := { s with crtPos := s.crtPos + BitVec.ofNat 16 CRT_COLS }
    { s with crtPos := s.crtPos - s.crtPos % BitVec.ofNat 16 CRT_COLS }
  else if c &&& 0xff = 0x0d then { s with crtPos := s.crtPos - s.crtPos % BitVec.ofNat 16 CRT_COLS }
  else if _h : isTab c = true then
    let s := consPutc 0x20 s
    let s := consPutc 0x20 s
    let s := consPutc 0x20 s
    let s := consPutc 0x20 s
    consPutc 0x20 s
  else
    -- write the character
    let s := s.setCell s.crtPos.toNat (c.setWidth 16)
    { s with crtPos := s.crtPos + 1 }
termination_by if isTab c then 3 else 0
decreasing_by all_goals rw [if_pos _h]; decide

/-- `cga_putc`. -/
def cgaPutc (c : Word) (s : Crt) : Crt := cgaFinish (cgaSwitch (withAttribute c) s)
termination_by (if isTab c then 3 else 0) + 1
decreasing_by rw [isTab_withAttribute]; exact Nat.lt_succ_self _

/-- `cons_putc`. -/
def consPutc (c : Word) (s : Crt) : Crt := cgaPutc c (lptPutc c (serialPutc c s))
termination_by (if isTab c then 3 else 0) + 2
decreasing_by exact Nat.lt_succ_self _

end

end JOS
