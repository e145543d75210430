import JOS.Inc.Mmu
import Mathlib.Logic.Function.Basic

/-!
# Strings

`lib/string.c`: `memmove`, which is written twice, with the string instructions of the x86 (`ASM`)
and in plain C; and `strtol`.

Memory is a function of the address. A string instruction moves a byte or four; `rep` repeats it
`ecx` times, and the direction flag says which way `edi` and `esi` go. A move reads all its bytes
before it writes any.
-/

namespace JOS

/-! ### `rep movs` -/

/-- What `movs` works on. -/
structure Movs where
  mem : Word → BitVec 8
  edi : Word
  esi : Word
  /-- The direction flag. -/
  df : Bool

/-- `movsb` moves `k = 1` byte, `movsl` moves `k = 4`. -/
def Movs.move (k : ℕ) (s : Movs) : Movs where
  mem a := if (a - s.edi).toNat < k then s.mem (s.esi + (a - s.edi)) else s.mem a
  edi := if s.df then s.edi - BitVec.ofNat 32 k else s.edi + BitVec.ofNat 32 k
  esi := if s.df then s.esi - BitVec.ofNat 32 k else s.esi + BitVec.ofNat 32 k
  df := s.df

/-- `rep` with the count `ecx`. -/
def Movs.rep (k : ℕ) : ℕ → Movs → Movs
  | 0, s => s
  | ecx + 1, s => rep k ecx (s.move k)

/-! ### `memmove` -/

/-- `(int) p % 4 == 0`. -/
def wordAligned (p : Word) : Bool := p.srem 4 = 0

/-- `memmove`, with `ASM`: what it returns, memory, and the direction flag. -/
def memmove (mem : Word → BitVec 8) (dst src n : Word) : Word × (Word → BitVec 8) × Bool :=
  let s := src
  let d := dst
  if s < d ∧ s + n > d then
    let s := s + n
    let d := d + n
    let r :=
      if wordAligned s ∧ wordAligned d ∧ n % 4 = 0 then Movs.rep 4 (n / 4).toNat
        ⟨mem, d - 4, s - 4, true⟩
      else Movs.rep 1 n.toNat ⟨mem, d - 1, s - 1, true⟩
    -- `cld`
    let r := { r with df := false }
    (dst, r.mem, r.df)
  else
    let r :=
      if wordAligned s ∧ wordAligned d ∧ n % 4 = 0 then Movs.rep 4 (n / 4).toNat ⟨mem, d, s, false⟩
      else Movs.rep 1 n.toNat ⟨mem, d, s, false⟩
    (dst, r.mem, r.df)

/-- `while (n-- > 0) *--d = *--s;` -/
def copyDown (mem : Word → BitVec 8) (d s : Word) : ℕ → Word → BitVec 8
  | 0 => mem
  | n + 1 => copyDown (Function.update mem (d - 1) (mem (s - 1))) (d - 1) (s - 1) n

/-- `while (n-- > 0) *d++ = *s++;` -/
def copyUp (mem : Word → BitVec 8) (d s : Word) : ℕ → Word → BitVec 8
  | 0 => mem
  | n + 1 => copyUp (Function.update mem d (mem s)) (d + 1) (s + 1) n

/-- `memmove`, without `ASM`: what it returns, and memory. -/
def memmovePlain (mem : Word → BitVec 8) (dst src n : Word) : Word × (Word → BitVec 8) :=
  let s := src
  let d := dst
  if s < d ∧ s + n > d then (dst, copyDown mem (d + n) (s + n) n.toNat)
    else (dst, copyUp mem d s n.toNat)

/-! ### `strtol` -/

/-- The digit that a character stands for. -/
def strtolDigit (c : BitVec 8) : Option Word :=
  if 0x30 ≤ c ∧ c ≤ 0x39 then some (c.setWidth 32 - 0x30)
  else if 0x61 ≤ c ∧ c ≤ 0x7a then some (c.setWidth 32 - 0x61 + 10)
  else if 0x41 ≤ c ∧ c ≤ 0x5a then some (c.setWidth 32 - 0x41 + 10)
  else none

/-- `while (*s == ' ' || *s == '\t') s++;`. After `2 ^ 32` bytes every address has been read. -/
def skipBlanks (mem : Word → BitVec 8) : ℕ → Word → Option Word
  | 0, _ => none
  | f + 1, s => if mem s = 0x20 ∨ mem s = 0x09 then skipBlanks mem f (s + 1) else some s

/-- The loop over the digits: `val`, and `s` where it stops. -/
def strtolLoop (mem : Word → BitVec 8) (base : Word) : ℕ → Word → Word → Option (Word × Word)
  | 0, _, _ => none
  | f + 1, s, val =>
    match strtolDigit (mem s) with
    | none => some (val, s)
    | some dig => if dig.toInt ≥ base.toInt then some (val, s)
        else strtolLoop mem base f (s + 1) (val * base + dig)

/-- `strtol`: what it returns, and `*endptr`; `none` when a loop does not end. -/
def strtol (mem : Word → BitVec 8) (s base : Word) : Option (Word × Word) := do
  let s ← skipBlanks mem (2 ^ 32) s
  let (s, neg) := if mem s = 0x2b then (s + 1, false) else if mem s = 0x2d then (s + 1, true)
    else (s, false)
  let (s, base) : Word × Word :=
    if (base = 0 ∨ base = 16) ∧ mem s = 0x30 ∧ mem (s + 1) = 0x78 then (s + 2, 16)
    else if base = 0 ∧ mem s = 0x30 then (s + 1, 8)
    else if base = 0 then (s, 10)
    else (s, base)
  let (val, s) ← strtolLoop mem base (2 ^ 32) s 0
  return (if neg then -val else val, s)

end JOS
