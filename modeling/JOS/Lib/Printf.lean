import JOS.Lib.Printfmt

/-!
# The three users of `vprintfmt`

`vcprintf` of the kernel (`kern/printf.c`) and of user programs (`lib/printf.c`), and
`vsnprintf` (`lib/printfmt.c`). Each gives `vprintfmt` a function `putch` and a pointer
`putdat` to what that function works on.

`vprintfmt` hands its characters to `putch` one by one and looks at nothing that `putch`
may write, so that `putch` is run on the characters in order (`runPutch`). When
`vprintfmt` does not come back, neither do its callers.

The console is the list of the bytes it has been sent: of the `int` that `cputchar` gets,
the devices take the low eight bits.
-/

namespace JOS

/-- `vprintfmt((void*) putch, putdat, fmt, ap)`: what `putdat` points to at the end. -/
def runPutch {σ : Type} (putch : Word → σ → σ) (putdat : σ) (rd : Word → Option (BitVec 8))
    (fmt : List (BitVec 8))
    (ap : List Word) : Except Stop σ :=
  match (vprintfmt rd fmt ap).halt with
  | some w => .error w
  | none => .ok ((vprintfmt rd fmt ap).out.foldl (fun d ch => putch ch d) putdat)

/-! ### `kern/printf.c` -/

/-- The counter `cnt` of `vcprintf`, and the console. -/
structure KernPrint where
  cnt : Word
  console : List (BitVec 8)

/-- `cputchar`. -/
def cputchar (console : List (BitVec 8)) (ch : Word) : List (BitVec 8) := console ++ [ch.setWidth 8]

/-- `putch` of the kernel. `*cnt++` increments the parameter `cnt`, which is a pointer, and leaves
alone what it points to. -/
def KernPrint.putch (ch : Word) (p : KernPrint) : KernPrint :=
  { p with console := cputchar p.console ch }

/-- `vcprintf` of the kernel: the return value, and the console. -/
def kernVcprintf (rd : Word → Option (BitVec 8)) (console : List (BitVec 8)) (fmt : List (BitVec 8))
    (ap : List Word) :
    Except Stop (Word × List (BitVec 8)) := do
  let p ← runPutch KernPrint.putch ⟨0, console⟩ rd fmt ap
  return (p.cnt, p.console)

/-! ### `lib/printf.c` -/

/-- `struct printbuf`. -/
structure PrintBuf where
  /-- Current buffer index. -/
  idx : ℕ
  /-- Total bytes printed so far. -/
  cnt : Word
  /-- The buffer, of 256 bytes. -/
  buf : ℕ → BitVec 8

/-- Memory with the buffer at `b`. -/
def PrintBuf.load (b : Word) (rd : Word → Option (BitVec 8)) (p : PrintBuf) (a : Word) :
    Option (BitVec 8) :=
  if (a - b).toNat < 256 then some (p.buf (a - b).toNat) else rd a

/-- `sys_cputs(b->buf, len)`, for a buffer that the program may read: the console afterwards. The
kernel prints it with `cprintf("%.*s", len, s)`. -/
def PrintBuf.sysCputs (b : Word) (rd : Word → Option (BitVec 8)) (p : PrintBuf) (len : Word)
    (console : List (BitVec 8)) :
    Except Stop (List (BitVec 8)) := do
  let r ← kernVcprintf (p.load b rd) console (bytes "%.*s") [len, b]
  return r.2

/-- A `struct printbuf`, and the console. -/
structure UserPrint where
  buf : PrintBuf
  console : Except Stop (List (BitVec 8))

/-- `putch` of user programs, with the buffer at `b`. -/
def UserPrint.putch (b : Word) (rd : Word → Option (BitVec 8)) (ch : Word) (p : UserPrint) :
    UserPrint :=
  let buf := { p.buf with
    buf := Function.update p.buf.buf p.buf.idx (ch.setWidth 8), idx := p.buf.idx + 1 }
  let p : UserPrint :=
    if buf.idx = 256 - 1 then
      { buf := { buf with idx := 0 }
        console := do buf.sysCputs b rd (BitVec.ofNat 32 buf.idx) (← p.console) }
    else { p with buf := buf }
  { p with buf := { p.buf with cnt := p.buf.cnt + 1 } }

/-- `vcprintf` of user programs: the return value, and the console. The buffer at `b` begins as
`buf`. -/
def userVcprintf (b : Word) (buf : ℕ → BitVec 8) (rd : Word → Option (BitVec 8))
    (console : List (BitVec 8))
    (fmt : List (BitVec 8)) (ap : List Word) : Except Stop (Word × List (BitVec 8)) := do
  let p ← runPutch (UserPrint.putch b rd) ⟨⟨0, 0, buf⟩, .ok console⟩ rd fmt ap
  let console ← p.buf.sysCputs b rd (BitVec.ofNat 32 p.buf.idx) (← p.console)
  return (p.buf.cnt, console)

/-! ### `vsnprintf` -/

/-- `struct sprintbuf`, and memory. -/
structure SprintBuf where
  /-- Where the next character goes. -/
  buf : Word
  /-- The last byte of the buffer. -/
  ebuf : Word
  /-- How many characters there were. -/
  cnt : Word
  mem : Word → BitVec 8

/-- `sprintputch`. -/
def sprintputch (ch : Word) (b : SprintBuf) : SprintBuf :=
  let b := { b with cnt := b.cnt + 1 }
  if b.buf < b.ebuf then { b with
    mem := Function.update b.mem b.buf (ch.setWidth 8), buf := b.buf + 1 } else b

/-- `vsnprintf`: the return value, and memory. -/
def vsnprintf (rd : Word → Option (BitVec 8)) (mem : Word → BitVec 8) (buf n : Word)
    (fmt : List (BitVec 8)) (ap : List Word) :
    Except Stop (Word × (Word → BitVec 8)) :=
  if buf = 0 ∨ n.toInt < 1 then .ok (-E_INVAL, mem)
  else do
    let b ← runPutch sprintputch ⟨buf, buf + n - 1, 0, mem⟩ rd fmt ap
    return (b.cnt, Function.update b.mem b.buf 0)

end JOS
