import Mathlib.Data.Nat.Notation
import Mathlib.Logic.Function.Basic

/-!
# The console's input buffer

`cons_intr` and `cons_getc` of `kern/console.c`. A device is asked for characters until it has no
more: what it answers before that is a list of bytes.
-/

namespace JOS

def CONSBUFSIZE : ℕ := 512

/-- `cons`. -/
structure Cons where
  buf : ℕ → BitVec 8
  rpos : ℕ
  wpos : ℕ

/-- One pass of the loop of `cons_intr`. -/
def Cons.put (s : Cons) (c : BitVec 8) : Cons :=
  if c = 0 then s
  else
    let s := { s with buf := Function.update s.buf s.wpos c, wpos := s.wpos + 1 }
    if s.wpos = CONSBUFSIZE then { s with wpos := 0 } else s

/-- `cons_intr`, for a device that answers `cs`. -/
def consIntr (s : Cons) (cs : List (BitVec 8)) : Cons := cs.foldl Cons.put s

/-- `cons_getc`. `serial_intr` and `kbd_intr` are `cons_intr` for the two devices. -/
def consGetc (s : Cons) (serial kbd : List (BitVec 8)) : BitVec 8 × Cons :=
  let s := consIntr s serial
  let s := consIntr s kbd
  if s.rpos ≠ s.wpos then
    let c := s.buf s.rpos
    let s := { s with rpos := s.rpos + 1 }
    (c, if s.rpos = CONSBUFSIZE then { s with rpos := 0 } else s)
  else (0, s)

end JOS
