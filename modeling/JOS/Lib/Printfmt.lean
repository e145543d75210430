import JOS.Kern.Pmap

/-!
# Formatted output

`lib/printfmt.c`: `printnum` and `vprintfmt`, which the kernel's `cprintf` and the
user's share.

## The model

A format string is a list of bytes with its terminating NUL left off; `fmt` is a
position in it. A `va_list` is the list of 32-bit words of the arguments, a `long
long` taking two. The text is the list of the characters handed to `putch`. Bytes
that `%s` fetches through its argument come from `rd`, where `none` is a page fault;
`reads` records the address of each fetch, in order, the faulting one included.

`vprintfmt` is a loop with a `goto`: the two places control comes back to are the two
modes, `text` (the outer loop) and `esc` (the label `reswitch`, with the escape's
flags). `fmtStep` is one pass.
-/

namespace JOS

/-- The ASCII code of a character. -/
def chr (c : Char) : Word := BitVec.ofNat 32 c.toNat

/-- The bytes of a string literal. -/
def bytes (s : String) : List (BitVec 8) := s.toList.map fun c => BitVec.ofNat 8 c.toNat

/-- The comparisons of C on `int`. -/
def isNeg (w : Word) : Bool := w.msb

/-- What an escape sequence has set so far. -/
structure Esc where
  /-- The padding character. -/
  padc : Word
  /-- The field width; `-1` is none. -/
  width : Word
  /-- The precision; `-1` is none. -/
  precision : Word
  /-- How many `l` there were. -/
  lflag : ℕ
  /-- Whether there was a `#`. -/
  altflag : Bool

/-- The flags at a `%`. -/
def Esc.init : Esc := ⟨chr ' ', -1, -1, 0, false⟩

/-- The state of `vprintfmt`. -/
structure Fmt where
  /-- The position of `fmt`. -/
  pos : ℕ
  /-- The arguments left. -/
  ap : List Word
  /-- The characters handed to `putch`. -/
  out : List Word
  /-- The addresses fetched through a `%s` argument. -/
  reads : List Word
  /-- Why the output did not go on, if it did not. -/
  halt : Option Stop

/-- Where control is. -/
inductive FmtMode where
  /-- The outer loop. -/
  | text
  /-- The label `reswitch`. -/
  | esc (e : Esc)

namespace Fmt

/-- `putch` of each character. -/
def put (s : Fmt) (cs : List Word) : Fmt := { s with out := s.out ++ cs }

/-- `va_arg(ap, int)`. An argument that is not there is read as `0`. -/
def vaArg (s : Fmt) : Word × Fmt := (s.ap.headD 0, { s with ap := s.ap.tail })

/-- `va_arg(ap, long long)`: the low word comes first. -/
def vaArg64 (s : Fmt) : BitVec 64 × Fmt :=
  ((s.ap.tail.headD 0).setWidth 64 <<< 32 ||| (s.ap.headD 0).setWidth 64,
    { s with ap := s.ap.tail.tail })

end Fmt

/-- `printnum`: the digits of `num`, the most significant first, the first of them after the
padding that `width` leaves room for. A number has at most 64 digits. -/
def printnum (base : ℕ) (padc : Word) : ℕ → ℕ → ℤ → List Word
  | 0, _, _ => []
  | f + 1, num, width =>
    (if base ≤ num then printnum base padc f (num / base) (width - 1)
      else List.replicate (width - 1).toNat padc) ++
    [((bytes "0123456789abcdef").getD (num % base) 0).setWidth 32]

/-- `getuint`. -/
def getuint (s : Fmt) (lflag : ℕ) : ℕ × Fmt :=
  if lflag ≥ 2 then (s.vaArg64.1.toNat, s.vaArg64.2) else (s.vaArg.1.toNat, s.vaArg.2)

/-- `getint`. -/
def getint (s : Fmt) (lflag : ℕ) : ℤ × Fmt :=
  if lflag ≥ 2 then (s.vaArg64.1.toInt, s.vaArg64.2) else (s.vaArg.1.toInt, s.vaArg.2)

/-- `error_string[err]`. -/
def errorString : ℕ → Option String
  | 1 => some "unspecified error"
  | 2 => some "bad environment"
  | 3 => some "invalid parameter"
  | 4 => some "out of memory"
  | 5 => some "out of environments"
  | 6 => some "segmentation fault"
  | 8 => some "env is not recving"
  | 9 => some "unexpected end of file"
  | _ => none

/-- `MAXERROR`. -/
def MAXERROR : ℕ := 10

/-- The characters of a literal. -/
def chars (s : String) : List Word := s.toList.map chr

/-- A signed number in decimal, as `%d` prints it. -/
def printInt (n : ℤ) (width : ℤ) (padc : Word) : List Word :=
  (if n < 0 then [chr '-'] else []) ++ printnum 10 padc 64 n.natAbs width

/-! ### Strings -/

/-- Byte `k` of the string a `%s` prints: `p` itself, or `"(null)"` for a null pointer. -/
def strByte (rd : Word → Option (BitVec 8)) (p : Word) (k : ℕ) : Option (BitVec 8) :=
  if p = 0 then some ((bytes "(null)").getD k 0) else rd (p + BitVec.ofNat 32 k)

/-- The address fetched for byte `k`, if it is one of the argument's. -/
def strRead (p : Word) (k : ℕ) : List Word := if p = 0 then [] else [p + BitVec.ofNat 32 k]

/-- `strnlen` from byte `k` on, with `size` left: the length counted on from `k`, the addresses
fetched, and whether a fetch faulted. -/
def strnlen (rd : Word → Option (BitVec 8)) (p : Word) : ℕ → ℕ → ℕ × List Word × Option Stop
  | 0, k => (k, [], none)
  | size + 1, k =>
    match strByte rd p k with
    | none => (k, strRead p k, some .panic)
    | some ch =>
      if ch = 0 then (k, strRead p k, none)
      else
        let r := strnlen rd p size (k + 1)
        (r.1, strRead p k ++ r.2.1, r.2.2)

/-- `for (; (ch = *p++) != '\0' && (precision < 0 || --precision >= 0); width--)` from byte `k`
on. A string that never ends is read for ever: after `2 ^ 32` bytes every address has been. -/
def strLoop (rd : Word → Option (BitVec 8)) (p : Word) (altflag : Bool) :
    ℕ → ℕ → Word → Word → Fmt → Word × Fmt
  | 0, _, _, width, s => (width, { s with halt := some .diverge })
  | f + 1, k, precision, width, s =>
    let s := { s with reads := s.reads ++ strRead p k }
    match strByte rd p k with
    | none => (width, { s with halt := some .panic })
    | some ch =>
      if ch = 0 then (width, s)
      else if !isNeg precision && isNeg (precision - 1) then (width, s)
      else
        let precision := if isNeg precision then precision else precision - 1
        let c : Word := ch.signExtend 32
        let c := if altflag && (isNeg (c - chr ' ') || isNeg (chr '~' - c)) then chr '?' else c
        strLoop rd p altflag f (k + 1) precision (width - 1) (s.put [c])

/-- Passes enough for a string that fills the address space. -/
def strFuel : ℕ := 2 ^ 32 + 1

/-- `case 's'`. -/
def fmtString (rd : Word → Option (BitVec 8)) (e : Esc) (s : Fmt) : Fmt :=
  let (p, s) := s.vaArg
  let r := if !isNeg e.width && e.width != 0 && e.padc != chr '-' then
      let r := strnlen rd p e.precision.toNat 0
      let width := e.width - BitVec.ofNat 32 r.1
      (if isNeg width then width else 0,
        { s.put (List.replicate (if isNeg width then 0 else width.toNat) e.padc) with
          reads := s.reads ++ r.2.1, halt := r.2.2 })
    else (e.width, s)
  if r.2.halt.isSome then r.2
  else
    let r := strLoop rd p e.altflag strFuel 0 e.precision r.1 r.2
    if r.2.halt.isSome then r.2
    else r.2.put (List.replicate (if isNeg r.1 then 0 else r.1.toNat) (chr ' '))

/-! ### The loop -/

/-- The byte at a position of the format; the terminating NUL after the last. -/
def fmtAt (fmt : List (BitVec 8)) (i : ℕ) : BitVec 8 := fmt.getD i 0

/-- `for (fmt--; fmt[-1] != '%'; fmt--)` from just before position `i`. -/
def rewind (fmt : List (BitVec 8)) : ℕ → ℕ
  | 0 => 0
  | i + 1 => if fmtAt fmt i = 0x25 then i + 1 else rewind fmt i

/-- The width loop: `ch` is the digit before position `i`. -/
def scanNumber (fmt : List (BitVec 8)) : ℕ → ℕ → Word → Word → ℕ × Word
  | 0, i, _, precision => (i, precision)
  | f + 1, i, ch, precision =>
    let precision := precision * 10 + ch - chr '0'
    let ch := fmtAt fmt i
    if ch < 0x30 || ch > 0x39 then (i, precision)
    else scanNumber fmt f (i + 1) (ch.setWidth 32) precision

/-- `process_precision`. -/
def Esc.processPrecision (e : Esc) : Esc :=
  if isNeg e.width then { e with width := e.precision, precision := -1 } else e

/-- One pass of the outer loop or of `reswitch`; `none` when the format is done. -/
def fmtStep (rd : Word → Option (BitVec 8)) (fmt : List (BitVec 8)) :
    FmtMode × Fmt → Option (FmtMode × Fmt)
  | (.text, s) =>
    let ch := fmtAt fmt s.pos
    let s := { s with pos := s.pos + 1 }
    if ch = 0x25 then some (.esc .init, s)
    else if ch = 0 then none
    else some (.text, s.put [ch.setWidth 32])
  | (.esc e, s) =>
    let ch := fmtAt fmt s.pos
    let s := { s with pos := s.pos + 1 }
    if ch = 0x2d then some (.esc { e with padc := chr '-' }, s)
    else if ch = 0x30 then some (.esc { e with padc := chr '0' }, s)
    else if 0x31 ≤ ch ∧ ch ≤ 0x39 then
      let r := scanNumber fmt (fmt.length + 1) s.pos (ch.setWidth 32) 0
      some (.esc { e with precision := r.2 }.processPrecision, { s with pos := r.1 })
    else if ch = 0x2a then
      some (.esc { e with precision := s.vaArg.1 }.processPrecision, s.vaArg.2)
    else if ch = 0x2e then some (.esc (if isNeg e.width then { e with width := 0 } else e), s)
    else if ch = 0x23 then some (.esc { e with altflag := true }, s)
    else if ch = 0x6c then some (.esc { e with lflag := e.lflag + 1 }, s)
    else if ch = 0x63 then some (.text, s.vaArg.2.put [s.vaArg.1])
    else if ch = 0x65 then
      let err := s.vaArg.1.toInt.natAbs
      -- `-err` of the least integer is the least integer, and its entry of the table is entry 0:
      -- four times it is 0
      if s.vaArg.1 = BitVec.intMin 32 then
        some (.text, s.vaArg.2.put (chars "error " ++ printInt s.vaArg.1.toInt (-1) (chr ' ')))
      else some (.text, s.vaArg.2.put <|
        if err ≥ MAXERROR then chars "error " ++ printInt err (-1) (chr ' ')
        else match errorString err with
          | some p => chars p
          | none => chars "error " ++ printInt err (-1) (chr ' '))
    else if ch = 0x73 then some (.text, fmtString rd e s)
    else if ch = 0x64 then
      let r := getint s e.lflag
      some (.text, r.2.put (printInt r.1 e.width.toInt e.padc))
    else if ch = 0x75 then
      let r := getuint s e.lflag
      some (.text, r.2.put (printnum 10 e.padc 64 r.1 e.width.toInt))
    else if ch = 0x6f then some (.text, s.put (chars "XXX"))
    else if ch = 0x70 then
      some (.text, s.vaArg.2.put
        (chars "0x" ++ printnum 16 e.padc 64 s.vaArg.1.toNat e.width.toInt))
    else if ch = 0x78 then
      let r := getuint s e.lflag
      some (.text, r.2.put (printnum 16 e.padc 64 r.1 e.width.toInt))
    else if ch = 0x25 then some (.text, s.put [ch.setWidth 32])
    else some (.text, { s.put [chr '%'] with pos := rewind fmt (s.pos - 1) })

/-- Pass after pass, until the format is done or the output stops. -/
def fmtRun (rd : Word → Option (BitVec 8)) (fmt : List (BitVec 8)) : ℕ → FmtMode × Fmt → Fmt
  | 0, s => { s.2 with halt := some .diverge }
  | f + 1, s =>
    if s.2.halt.isSome then s.2
    else match fmtStep rd fmt s with
      | none => s.2
      | some s' => fmtRun rd fmt f s'

/-- `vprintfmt`. A pass consumes a byte of the format, and an escape that is not recognised is
gone through once more as text. -/
def vprintfmt (rd : Word → Option (BitVec 8)) (fmt : List (BitVec 8)) (ap : List Word) : Fmt :=
  fmtRun rd fmt (2 * fmt.length + 2) (.text, ⟨0, ap, [], [], none⟩)

end JOS
