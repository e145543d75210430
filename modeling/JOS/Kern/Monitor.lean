import JOS.Lib.String

/-!
# The kernel monitor

`kern/monitor.c`: `runcmd`, which parses a command line in place and runs the command it names, and
`mon_backtrace`, which follows the saved frame pointers. Of a command it is recorded that it has
been run.

Memory is bytes for `runcmd`, where a string is scanned, and words for `mon_backtrace`. A string
literal is the list of its bytes before the NUL.
-/

namespace JOS

def MAXARGS : ℕ := 16

/-- `"\t\r\n "`. -/
def WHITESPACE : List (BitVec 8) := [0x09, 0x0d, 0x0a, 0x20]

/-- `strchr`, for a literal: the index of the first `c`. -/
def strchr : List (BitVec 8) → BitVec 8 → Option ℕ
  | [], _ => none
  | b :: s, c => if b = c then some 0 else (strchr s c).map (· + 1)

/-- `strcmp`, for a string in memory and a literal. -/
def strcmp (mem : Word → BitVec 8) (p : Word) : List (BitVec 8) → ℤ
  | [] => (mem p).toNat
  | q :: qs => if mem p ≠ 0 ∧ mem p = q then strcmp mem (p + 1) qs else (mem p).toNat - q.toNat

/-- The names in `commands`: `help`, `kerninfo` and `backtrace`. -/
def commands : List (List (BitVec 8)) :=
  [[0x68, 0x65, 0x6c, 0x70], [0x6b, 0x65, 0x72, 0x6e, 0x69, 0x6e, 0x66, 0x6f],
    [0x62, 0x61, 0x63, 0x6b, 0x74, 0x72, 0x61, 0x63, 0x65]]

/-- What `runcmd` works on. -/
structure Cmd where
  mem : Word → BitVec 8
  argc : ℕ
  argv : ℕ → Word
  /-- Not in the source: the addresses and the elements of `argv` that have been written. -/
  written : List Word
  argvWritten : List ℕ

/-- `argv[argc] = p`. -/
def Cmd.setArg (s : Cmd) (p : Word) : Cmd :=
  { s with argv := Function.update s.argv s.argc p, argvWritten := s.argvWritten ++ [s.argc] }

/-- `while (*buf && strchr(WHITESPACE, *buf)) *buf++ = 0;`. After `2 ^ 32` bytes every address has
been read. -/
def gobble : ℕ → Cmd → Word → Option (Cmd × Word)
  | 0, _, _ => none
  | f + 1, s, buf =>
    if s.mem buf ≠ 0 ∧ (strchr WHITESPACE (s.mem buf)).isSome then
      gobble f { s with mem := Function.update s.mem buf 0, written := s.written ++ [buf] }
        (buf + 1)
    else some (s, buf)

/-- `while (*buf && !strchr(WHITESPACE, *buf)) buf++;` -/
def scanArg (mem : Word → BitVec 8) : ℕ → Word → Option Word
  | 0, _ => none
  | f + 1, buf => if mem buf ≠ 0 ∧ ¬ (strchr WHITESPACE (mem buf)).isSome then scanArg mem f
      (buf + 1) else some buf

/-- The parsing loop: whether there is room for the arguments. Every pass but the last fills an
element of `argv`. -/
def parseArgs : ℕ → Cmd → Word → Option (Bool × Cmd)
  | 0, _, _ => none
  | f + 1, s, buf => do
    -- gobble whitespace
    let (s, buf) ← gobble (2 ^ 32) s buf
    if s.mem buf = 0 then return (true, s.setArg 0)
    -- save and scan past next arg
    else if s.argc = MAXARGS - 1 then return (false, s)
    else
      let s := { s.setArg buf with argc := s.argc + 1 }
      let buf ← scanArg s.mem (2 ^ 32) buf
      parseArgs f s buf

/-- What `runcmd` does after the parsing. -/
inductive Ran where
  /-- `"Too many arguments (max %d)\n"`. -/
  | tooMany
  /-- There is no argument. -/
  | nothing
  /-- `commands[i].func(argc, argv, tf)`. -/
  | command (i : ℕ)
  /-- `"Unknown command '%s'\n"`. -/
  | unknown
  deriving DecidableEq

/-- `runcmd`; `none` when a loop does not end. -/
def runcmd (mem : Word → BitVec 8) (argv : ℕ → Word) (buf : Word) : Option (Ran × Cmd) := do
  let (ok, s) ← parseArgs MAXARGS ((⟨mem, 0, argv, [], []⟩ : Cmd).setArg 0) buf
  if !ok then return (.tooMany, s)
  else if s.argc = 0 then return (.nothing, s)
  else
    match commands.findIdx? fun name => strcmp s.mem (s.argv 0) name = 0 with
    | some i => return (.command i, s)
    | none => return (.unknown, s)

/-! ### `mon_backtrace` -/

/-- Memory as the kernel sees it: words, and which of them can be read. -/
structure Stack where
  word : Word → Word
  mapped : Word → Bool

/-- What `mon_backtrace` prints. -/
inductive BacktraceOut where
  /-- `"Stack backtrace:"`. -/
  | header
  /-- `"ebp %08x  eip %08x"`. -/
  | frame (ebp eip : Word)
  /-- `"    arg "`. -/
  | argLabel
  /-- `"%08x "`. -/
  | arg (w : Word)
  /-- `"\n"`. -/
  | newline
  deriving DecidableEq

/-- What has been printed, and, not in the source, what has been read: the pointer and the index. -/
structure Backtrace where
  out : List BacktraceOut
  reads : List (Word × ℕ)

def Backtrace.print (t : Backtrace) (o : BacktraceOut) : Backtrace := { t with out := t.out ++ [o] }

/-- `*(p + i)`; a word that is not mapped is a page fault, after which nothing counts. -/
def Stack.deref (m : Stack) (t : Backtrace) (p : Word) (i : ℕ) :
    Except Backtrace (Word × Backtrace) :=
  let t := { t with reads := t.reads ++ [(p, i)] }
  let a := p + BitVec.ofNat 32 (4 * i)
  if m.mapped a then .ok (m.word a, t) else .error t

/-- One pass of the loop: the new `ebp` and `eip`. -/
def backtracePass (m : Stack) (ebp eip : Word) (t : Backtrace) :
    Except Backtrace (Word × Word × Backtrace) := do
  let t := (t.print (.frame ebp eip)).print .argLabel
  let t ← (List.range 5).foldlM (fun t i => do
    let (w, t) ← m.deref t ebp (i + 2)
    return t.print (.arg w)) t
  let t := t.print .newline
  let (ebp, t) ← m.deref t ebp 0
  let (eip, t) ← m.deref t ebp 1
  return (ebp, eip, t)

/-- `while (ebp != NULL)`; `none` when the passes do not suffice. -/
def backtraceLoop (m : Stack) : ℕ → Word → Word → Backtrace → Option (Except Backtrace Backtrace)
  | 0, _, _, _ => none
  | f + 1, ebp, eip, t =>
    if ebp ≠ 0 then
      match backtracePass m ebp eip t with
      | .error t => some (.error t)
      | .ok (ebp, eip, t) => backtraceLoop m f ebp eip t
    else some (.ok t)

/-- `mon_backtrace`, when `read_ebp` returns `ebp`. -/
def monBacktrace (m : Stack) (f : ℕ) (ebp : Word) : Option (Except Backtrace Backtrace) :=
  match m.deref ⟨[], []⟩ ebp 1 with
  | .error t => some (.error t)
  | .ok (eip, t) => backtraceLoop m f ebp eip (t.print .header)

end JOS
