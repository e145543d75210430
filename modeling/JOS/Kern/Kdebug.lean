import JOS.Kern.Pmap
import JOS.Lib.Printfmt

/-!
# Debugging information

`kern/kdebug.c`: `stab_binsearch`, which looks for the entry of one type that contains an
address, and `debuginfo_eip`, which looks up a file, in it a function, and in that the
name of the source file. For a user address the tables are those that the program names
at `USTABDATA`, and `debuginfo_eip` checks first that the program may read them.

## The model

The `int`s that index the table are integers; a table of 12-byte entries has no index
that comes near `2 ^ 30`. `stabs` gives an entry for every integer, also outside the
table, and every index that is read is recorded, in order. What is not read (`n_other`,
`n_desc`) is left out. A string is the literal `"<unknown>"` or the address of its first
byte, and the addresses of the string table's bytes that are read are recorded too.

User memory is read through the directory of `curenv`, which CR3 holds. A page that is not
mapped gives a page fault, after which nothing counts; the address has been recorded.
-/

namespace JOS

/-- `struct Stab`. -/
structure Stab where
  /-- Index into the string table of the name. -/
  nStrx : Word
  /-- Type of the symbol. -/
  nType : BitVec 8
  /-- Value of the symbol. -/
  nValue : Word
  deriving DecidableEq

/-- Main source file name. -/
def N_SO : ℤ := 0x64
/-- Procedure name. -/
def N_FUN : ℤ := 0x24
/-- Included source file name. -/
def N_SOL : ℤ := 0x84
/-- Parameter variable. -/
def N_PSYM : ℤ := 0xa0

/-- `n_type == type`; `type` is an `int`. -/
def Stab.isType (x : Stab) (type : ℤ) : Bool := x.nType.toNat == type

/-! ### `stab_binsearch` -/

/-- A loop `while (m >= l && !(stop on stabs[m])) m--;`: where it ends, and the indices read. It
ends at `l - 1` when there is nothing to stop on. -/
def scanDown (stabs : ℤ → Stab) (stop : Stab → Bool) (l : ℤ) : ℕ → ℤ → ℤ × List ℤ
  | 0, m => (m, [])
  | f + 1, m =>
    if l ≤ m then
      if stop (stabs m) then (m, [m])
      else
        let q := scanDown stabs stop l f (m - 1)
        (q.1, m :: q.2)
    else (m, [])

/-- `m` goes from `m` down to `l - 1`. -/
def scanFuel (l m : ℤ) : ℕ := (m + 1 - l).toNat

/-- The variables of `stab_binsearch`. -/
structure Search where
  l : ℤ
  r : ℤ
  /-- `*region_left`. -/
  left : ℤ
  /-- `*region_right`. -/
  right : ℤ
  addr : Word
  anyMatches : Bool
  /-- The indices read so far. -/
  reads : List ℤ

/-- One pass of the search; `none` when `l > r`. -/
def searchStep (stabs : ℤ → Stab) (type : ℤ) (s : Search) : Option Search :=
  if s.l ≤ s.r then
    let trueM := (s.l + s.r).tdiv 2
    -- search for earliest stab with right type
    let q := scanDown stabs (Stab.isType · type) s.l (scanFuel s.l trueM) trueM
    let m := q.1
    let s := { s with reads := s.reads ++ q.2 }
    if m < s.l then some { s with l := trueM + 1 }
    else
      let s := { s with anyMatches := true }
      if (stabs m).nValue < s.addr then some { s with
        left := m, l := trueM + 1, reads := s.reads ++ [m] }
      else if (stabs m).nValue > s.addr then some
        { s with right := m - 1, r := m - 1, reads := s.reads ++ [m, m] }
      -- exact match for `addr`, but continue loop to find `*region_right`
      else some { s with left := m, l := m, addr := s.addr + 1, reads := s.reads ++ [m, m] }
  else none

/-- The search, pass after pass; `none` when the passes do not suffice. -/
def stabSearch (stabs : ℤ → Stab) (type : ℤ) : ℕ → Search → Option Search
  | 0, _ => none
  | f + 1, s =>
    match searchStep stabs type s with
    | none => some s
    | some s' => stabSearch stabs type f s'

/-- Of two passes one makes `[l, r]` smaller. -/
def searchFuel (l r : ℤ) : ℕ := 2 * (r + 1 - l).toNat + 2

/-- `stab_binsearch`: `*region_left`, `*region_right` and the indices read. -/
def stabBinsearch (stabs : ℤ → Stab) (left right : ℤ) (type : ℤ) (addr : Word) :
    Option (ℤ × ℤ × List ℤ) := do
  let s ← stabSearch stabs type (searchFuel left right) ⟨left, right, left, right, addr, false, []⟩
  if !s.anyMatches then return (s.left, s.left - 1, s.reads)
  else
    -- find rightmost region containing `addr`
    let q := scanDown stabs (Stab.isType · type) (s.left + 1)
      (scanFuel (s.left + 1) s.right) s.right
    return (q.1, s.right, s.reads ++ q.2)

/-! ### `debuginfo_eip` -/

/-- A `const char *` of `struct Eipdebuginfo`. -/
inductive DebugStr where
  /-- The literal `"<unknown>"`. -/
  | unknown
  /-- The address of the first byte. -/
  | at (p : Word)
  deriving DecidableEq

/-- `struct Eipdebuginfo`. -/
structure Eipdebuginfo where
  /-- Source code filename for EIP. -/
  eipFile : DebugStr
  /-- Source code line number for EIP. -/
  eipLine : ℤ
  /-- Name of function containing EIP. -/
  eipFnName : DebugStr
  /-- Length of function name. -/
  eipFnNamelen : ℤ
  /-- Address of start of function. -/
  eipFnAddr : Word
  /-- Number of function arguments. -/
  eipFnNarg : ℤ
  deriving DecidableEq

/-- What `*info` is set to at first. -/
def Eipdebuginfo.init (addr : Word) : Eipdebuginfo := ⟨.unknown, 0, .unknown, 9, addr, 0⟩

/-- The tables of debugging information. -/
structure DebugTables where
  /-- `stabs[i]`. -/
  stabs : ℤ → Stab
  /-- `stab_end - stabs`. -/
  count : ℤ
  stabstr : Word
  stabstrEnd : Word
  /-- The bytes of the string table. -/
  byte : Word → BitVec 8

/-- What `debuginfo_eip` returns, `*info`, and what it has read. -/
structure DebugRun where
  ret : ℤ
  info : Eipdebuginfo
  /-- The indices of the table read. -/
  stabReads : List ℤ
  /-- The addresses of the string table read. -/
  strReads : List Word

/-- `strfind`: where it stops, and the addresses read. -/
def strfind (byte : Word → BitVec 8) (c : BitVec 8) : ℕ → Word → Option (Word × List Word)
  | 0, _ => none
  | f + 1, s =>
    if byte s = 0 ∨ byte s = c then some (s, [s])
    else (strfind byte c f (s + 1)).map fun q => (q.1, s :: q.2)

/-- `strfind(name, ':') - name`, and the addresses read. After `2 ^ 32` bytes every address has
been. -/
def fnNamelen (byte : Word → BitVec 8) : DebugStr → Option (ℤ × List Word)
  | .unknown => some (((bytes "<unknown>").takeWhile (· != 0x3a)).length, [])
  | .at p => (strfind byte 0x3a (2 ^ 32) p).map fun q => ((q.1 - p).toInt, q.2)

/-- `for (lline = lfun + 1; lline < rfun && stabs[lline].n_type == N_PSYM; lline++)`: how many
passes, and the indices read. -/
def countArgs (stabs : ℤ → Stab) (rfun : ℤ) : ℕ → ℤ → ℕ × List ℤ
  | 0, _ => (0, [])
  | f + 1, lline =>
    if lline < rfun then
      if (stabs lline).isType N_PSYM then
        let q := countArgs stabs rfun f (lline + 1)
        (q.1 + 1, lline :: q.2)
      else (0, [lline])
    else (0, [])

/-- The stab the search for the file name stops on. -/
def isFileStab (x : Stab) : Bool := x.isType N_SOL || (x.isType N_SO && x.nValue != 0)

/-- `debuginfo_eip` from the string table validity checks on; `none` when a loop does not end. -/
def lookupEip (t : DebugTables) (addr : Word) : Option DebugRun := do
  let info := Eipdebuginfo.init addr
  if t.stabstrEnd ≤ t.stabstr then return ⟨-1, info, [], []⟩
  else if t.byte (t.stabstrEnd - 1) ≠ 0 then return ⟨-1, info, [], [t.stabstrEnd - 1]⟩
  else
    let strReads := [t.stabstrEnd - 1]
    -- search the entire set of stabs for the source file
    let (lfile, rfile, reads) ← stabBinsearch t.stabs 0 (t.count - 1) N_SO addr
    let stabReads := reads
    if lfile = 0 then return ⟨-1, info, stabReads, strReads⟩
    else
      -- search within that file's stabs for the function definition
      let (lfun, rfun, reads) ← stabBinsearch t.stabs lfile rfile N_FUN addr
      let stabReads := stabReads ++ reads
      let (info, lline, stabReads) :=
        if lfun ≤ rfun then
          let fn := t.stabs lfun
          let info :=
            if fn.nStrx < t.stabstrEnd - t.stabstr then
              { info with eipFnName := .at (t.stabstr + fn.nStrx) } else info
          ({ info with eipFnAddr := fn.nValue }, lfun, stabReads ++ [lfun])
        else ({ info with eipFnAddr := addr }, lfile, stabReads)
      -- ignore stuff after the colon
      let (len, reads) ← fnNamelen t.byte info.eipFnName
      let strReads := strReads ++ reads
      let info := { info with eipFnNamelen := len }
      -- search backwards from the line number for the relevant filename stab
      let q := scanDown t.stabs isFileStab lfile (scanFuel lfile lline) lline
      let stabReads := stabReads ++ q.2
      let (info, stabReads) :=
        if q.1 ≥ lfile then
          let info :=
            if (t.stabs q.1).nStrx < t.stabstrEnd - t.stabstr then
              { info with eipFile := .at (t.stabstr + (t.stabs q.1).nStrx) }
            else info
          (info, stabReads ++ [q.1])
        else (info, stabReads)
      -- the number of arguments taken by the function
      if lfun < rfun then
        let n := countArgs t.stabs rfun (rfun - (lfun + 1)).toNat (lfun + 1)
        return ⟨0, { info with eipFnNarg := n.1 }, stabReads ++ n.2, strReads⟩
      else return ⟨0, info, stabReads, strReads⟩

/-! ### The tables of a program -/

/-- `USTABDATA`. -/
def USTABDATA : Word := 0x200000

/-- `struct UserStabData`. -/
structure UserStabData where
  stabs : Word
  stabEnd : Word
  stabstr : Word
  stabstrEnd : Word
  deriving DecidableEq

/-- A byte of user memory. -/
def userByte (m : Mem) (pgdir : ℕ) (a : Word) : BitVec 8 := (loadByte m pgdir a).getD 0

/-- A word of user memory, little end first. -/
def userWord (m : Mem) (pgdir : ℕ) (a : Word) : Word :=
  userByte m pgdir (a + 3) ++ userByte m pgdir (a + 2) ++ userByte m pgdir (a + 1) ++
    userByte m pgdir a

/-- The entry at an address; it has 12 bytes. -/
def userStab (m : Mem) (pgdir : ℕ) (a : Word) : Stab where
  nStrx := userWord m pgdir a
  nType := userByte m pgdir (a + 4)
  nValue := userWord m pgdir (a + 8)

/-- `*usd`. -/
def userStabData (m : Mem) (pgdir : ℕ) : UserStabData where
  stabs := userWord m pgdir USTABDATA
  stabEnd := userWord m pgdir (USTABDATA + 4)
  stabstr := userWord m pgdir (USTABDATA + 8)
  stabstrEnd := userWord m pgdir (USTABDATA + 12)

/-- `&stabs[i]`. -/
def stabAddr (stabs : Word) (i : ℤ) : Word := stabs + BitVec.ofInt 32 (12 * i)

/-- `stab_end - stabs`; for pointers that are not a whole number of entries apart C does not say
what it is. -/
def UserStabData.count (usd : UserStabData) : Option ℤ :=
  if (usd.stabEnd - usd.stabs).toInt % 12 = 0 then
    some ((usd.stabEnd - usd.stabs).toInt / 12) else none

/-- The tables of a program, with `n` entries. -/
def UserStabData.tables (usd : UserStabData) (m : Mem) (pgdir : ℕ) (n : ℤ) : DebugTables where
  stabs i := userStab m pgdir (stabAddr usd.stabs i)
  count := n
  stabstr := usd.stabstr
  stabstrEnd := usd.stabstrEnd
  byte := userByte m pgdir

/-- The addresses of `n` bytes. -/
def addrsFrom (a : Word) (n : ℕ) : List Word := (List.range n).map fun k => a + BitVec.ofNat 32 k

/-- What `debuginfo_eip` returns, `*info`, and what it has done with user memory. -/
structure EipRun where
  ret : ℤ
  info : Eipdebuginfo
  /-- `va` and `len` of the calls of `user_mem_check` that have returned 0. -/
  checked : List (Word × Word)
  /-- The user addresses read; of an entry of the table all twelve. -/
  reads : List Word

/-- `debuginfo_eip`, with the kernel's own tables and the directory of `curenv`. -/
def debuginfoEip (kern : DebugTables) (m : Mem) (pgdir : ℕ) (addr : Word) : Except Stop EipRun :=
  if addr ≥ ULIM then
    match lookupEip kern addr with
    | none => .error .diverge
    | some run => .ok ⟨run.ret, run.info, [], []⟩
  else do
    let info := Eipdebuginfo.init addr
    let (r, _) ← userMemCheck m pgdir USTABDATA 16 PTE_U
    if r ≠ 0 then return ⟨-1, info, [], []⟩
    else
      let usd := userStabData m pgdir
      let reads := addrsFrom USTABDATA 16
      let checked := [(USTABDATA, 16)]
      match usd.count with
      | none => .error .undef
      | some n =>
        let (r, _) ← userMemCheck m pgdir usd.stabs (BitVec.ofInt 32 n) PTE_U
        if r ≠ 0 then return ⟨-1, info, checked, reads⟩
        else
          let checked := checked ++ [(usd.stabs, BitVec.ofInt 32 n)]
          let (r, _) ← userMemCheck m pgdir usd.stabstr (usd.stabstrEnd - usd.stabstr) PTE_U
          if r ≠ 0 then return ⟨-1, info, checked, reads⟩
          else
            let checked := checked ++ [(usd.stabstr, usd.stabstrEnd - usd.stabstr)]
            match lookupEip (usd.tables m pgdir n) addr with
            | none => .error .diverge
            | some run =>
              return ⟨run.ret, run.info, checked,
                reads ++ run.stabReads.flatMap (fun i => addrsFrom (stabAddr usd.stabs i) 12) ++
                  run.strReads⟩

end JOS
