import Mathlib.Data.Nat.Notation
import Mathlib.Logic.Function.Basic
import Mathlib.Data.Int.Notation

/-!
# `readline`

`lib/readline.c`. `getchar` answers an `int`, a character of eight bits or a negative error; what it
will answer, call after call, is a list, and `readline` waits when the list is at its end. What is
printed is recorded.
-/

namespace JOS

def BUFLEN : ℕ := 1024

/-- What `readline` prints. -/
inductive ReadlineOut where
  /-- `cprintf("%s", prompt)`. -/
  | prompt (s : List (BitVec 8))
  /-- `cputchar(c)`. -/
  | char (c : ℤ)
  /-- `cprintf("read error: %e\n", c)`. -/
  | readError (c : ℤ)
  deriving DecidableEq

/-- The variables of `readline`. -/
structure Readline where
  buf : ℕ → BitVec 8
  i : ℕ
  out : List ReadlineOut
  /-- Not in the source: the value of `i` in every pass, which is the only index that is written. -/
  indices : List ℕ

namespace Readline

/-- `if (echoing) cputchar(c)`. -/
def echo (s : Readline) (echoing : Bool) (c : ℤ) : Readline :=
  if echoing then { s with out := s.out ++ [.char c] } else s

/-- `buf[i] = c`. -/
def store (s : Readline) (c : ℤ) : Readline :=
  { s with buf := Function.update s.buf s.i (BitVec.ofInt 8 c) }

end Readline

/-- The loop: `true` when `buf` is returned, `false` for a null pointer; `none` when it goes on
waiting. -/
def readlineLoop (echoing : Bool) : List ℤ → Readline → Option (Bool × Readline × List ℤ)
  | [], _ => none
  | c :: cs, s =>
    let s := { s with indices := s.indices ++ [s.i] }
    if c < 0 then some (false, { s with out := s.out ++ [.readError c] }, cs)
    else if (c = 0x08 ∨ c = 0x7f) ∧ s.i > 0 then
      let s := s.echo echoing 0x08
      readlineLoop echoing cs { s with i := s.i - 1 }
    else if c ≥ 0x20 ∧ s.i < BUFLEN - 1 then
      let s := s.echo echoing c
      let s := s.store c
      readlineLoop echoing cs { s with i := s.i + 1 }
    else if c = 0x0a ∨ c = 0x0d then
      let s := s.echo echoing 0x0a
      some (true, s.store 0, cs)
    else readlineLoop echoing cs s

/-- `readline`, when `buf` holds what the last line has left there. -/
def readline (prompt : Option (List (BitVec 8))) (echoing : Bool) (buf : ℕ → BitVec 8)
    (input : List ℤ) :
    Option (Bool × Readline × List ℤ) :=
  let out := match prompt with
    | some p => [.prompt p]
    | none => []
  readlineLoop echoing input ⟨buf, 0, out, []⟩

end JOS
