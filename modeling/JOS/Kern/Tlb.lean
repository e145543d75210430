import JOS.Kern.Machine
import Mathlib.Data.Finset.Insert
import Mathlib.Data.Finset.Filter

/-!
# Translation caches

`tlb_invalidate` and the places where `kern/pmap.c` calls it, and the machine with a TLB
on each CPU. By the rules of the x86 a CPU may at any time cache a translation that it
finds through the directory in its CR3. It forgets one when it executes `invlpg` for the
address, and all of them when it loads CR3. User programs get at memory through what
their CPU has cached; `store` is the only access that changes anything.

The system calls that map pages go through several states of the page tables, and a CPU
may cache what it finds in any of them. `page_remove` clears an entry and then invalidates
it. `page_insert` of another page does so before it stores the new entry; but when the
page is there already, it invalidates the entry first and stores the new one afterwards.
So a call is a list of acts (`syscallActs`), and CPUs cache entries before each of them,
and after the last one (`actsTlb`).

`env_run`, `sched_halt` and the end of `load_icode` load CR3, so that a CPU comes out of
the kernel with an empty TLB. The kernel itself uses user addresses of the CPU's own
environment only, and goes by the directory. In the runs considered here, other entries
into the kernel change only address spaces that no other CPU has loaded, so that what the
others cache meanwhile they might have cached before.
-/

namespace JOS

/-- The cached translations of each CPU: virtual pages with the entries found for them. -/
abbrev Tlb := ℕ → Finset (ℕ × Word)

namespace Tlb

/-- `invlpg(va)` on CPU `c`. -/
def invlpg (t : Tlb) (c : ℕ) (va : Word) : Tlb :=
  Function.update t c ((t c).filter fun x => x.1 ≠ PGNUM va)

/-- A load of CR3 on CPU `c`. -/
def flush (t : Tlb) (c : ℕ) : Tlb := Function.update t c ∅

/-- CPU `c` caches the entry `pte` for `va`. -/
def fill (t : Tlb) (c : ℕ) (va pte : Word) : Tlb :=
  Function.update t c (insert (PGNUM va, pte) (t c))

theorem mem_invlpg {t : Tlb} {c c' v : ℕ} {va pte : Word} :
    (v, pte) ∈ t.invlpg c va c' ↔ (v, pte) ∈ t c' ∧ (c' = c → v ≠ PGNUM va) := by
  by_cases hc : c' = c
  · subst hc
    simp [invlpg]
  · simp [invlpg, hc]

theorem mem_flush {t : Tlb} {c c' v : ℕ} {pte : Word} : (v, pte) ∈ t.flush c c' ↔ c' ≠ c ∧
    (v, pte) ∈ t c' := by
  by_cases hc : c' = c
  · subst hc
    simp [flush]
  · simp [flush, hc]

theorem mem_fill {t : Tlb} {c c' v : ℕ} {va pte pte' : Word} :
    (v, pte') ∈ t.fill c va pte c' ↔ (v, pte') ∈ t c' ∨ c' = c ∧ v = PGNUM va ∧ pte' = pte := by
  by_cases hc : c' = c
  · subst hc
    simp [fill, or_comm]
  · simp [fill, hc]

end Tlb

/-- `tlb_invalidate(pgdir, va)` on CPU `c`. -/
def tlbInvalidate (s : KState) (c pgdir : ℕ) (va : Word) (t : Tlb) : Tlb :=
  match s.curenv c with
  | none => t.invlpg c va
  | some e => if (s.envs e).envPgdir = some pgdir then t.invlpg c va else t

/-! ### What a TLB can notice of a system call -/

/-- What the kernel does to page tables and TLBs. -/
inductive TlbAct where
  /-- It stores to page tables; memory is `m` afterwards. -/
  | store (m : Mem)
  /-- `tlb_invalidate(pgdir, va)`. -/
  | invalidate (pgdir : ℕ) (va : Word)

/-- The acts of `page_remove`: the entry that it finds is cleared, and then invalidated. -/
def pageRemoveActs (m : Mem) (pgdir : ℕ) (va : Word) : List TlbAct :=
  match pageLookup m pgdir va, pageRemove m pgdir va with
  | .ok (some _), .ok m => [.store m, .invalidate pgdir va]
  | _, _ => []

/-- The acts of `page_insert`: a new page table, what becomes of the old entry, and the new
entry. -/
def pageInsertActs (m : Mem) (pgdir pp : ℕ) (va perm : Word) : List TlbAct :=
  match pgdirWalk m pgdir va true, pageInsert m pgdir pp va perm with
  | .ok (some pte, m₁), .ok (_, m') =>
    .store m₁ :: ((if test (m₁.word pte) PTE_P then
        -- the same page: its entry stays until the new one is stored
        if PTE_ADDR (m₁.word pte) = page2pa pp then [.invalidate pgdir va]
          else pageRemoveActs m₁ pgdir va
      else []) ++ [.store m'])
  | _, _ => []

/-- The acts of `sys_page_alloc`. -/
def sysPageAllocActs (s : KState) (cur : ℕ) (envid va perm : Word) : List TlbAct :=
  match envid2env s cur envid true with
  | none => []
  | some e =>
    if !vaOk va then []
    else if !permOk perm then []
    else match pageAlloc s.mem true, (s.envs e).envPgdir with
      | .ok (some page, m), some pgdir => .store (m.markUser page true) :: pageInsertActs
          (m.markUser page true) pgdir page va perm
      | _, _ => []

/-- The acts of `sys_page_map`. -/
def sysPageMapActs (s : KState) (cur : ℕ) (srcenvid srcva dstenvid dstva perm : Word) :
    List TlbAct :=
  match pageMapArgs s cur srcenvid srcva dstenvid dstva perm with
  | .error _ => []
  | .ok (e₁, e₂) =>
    match (s.envs e₁).envPgdir, (s.envs e₂).envPgdir with
    | some pgdir₁, some pgdir₂ =>
      match pageLookup s.mem pgdir₁ srcva with
      | .ok (some (page, pte)) =>
        if s.mem.word pte &&& PTE_W = 0 ∧ perm &&& PTE_W = 1 then []
          else pageInsertActs s.mem pgdir₂ page dstva perm
      | _ => []
    | _, _ => []

/-- The acts of `sys_page_unmap`. -/
def sysPageUnmapActs (s : KState) (cur : ℕ) (envid va : Word) : List TlbAct :=
  match envid2env s cur envid true with
  | none => []
  | some e =>
    if !vaOk va then []
    else match (s.envs e).envPgdir with
      | some pgdir => pageRemoveActs s.mem pgdir va
      | none => []

/-- The acts of `sys_ipc_try_send`. -/
def sysIpcTrySendActs (s : KState) (cur : ℕ) (envid srcva perm : Word) : List TlbAct :=
  match ipcSendArgs s cur envid with
  | .error _ => []
  | .ok e =>
    if srcva < UTOP then
      match (s.envs cur).envPgdir, (s.envs e).envPgdir with
      | some pgdir, some dst =>
        match pageLookup s.mem pgdir srcva with
        | .ok (some (pg, pte)) =>
          if !ipcPageOk (s.mem.word pte) srcva perm then []
          else if (s.envs e).envIpcDstva < UTOP then pageInsertActs s.mem dst pg
            (s.envs e).envIpcDstva perm
          else []
        | _ => []
      | _, _ => []
    else []

/-- The acts of a system call that returns to `trap_dispatch`. `sys_exofork` makes an address space
that is loaded nowhere, and `sys_env_destroy` takes one away. -/
def syscallActs (s : KState) (cur : ℕ) (a : SysArgs) : List TlbAct :=
  match SysNo.ofWord a.no with
  | some .pageAlloc => sysPageAllocActs s cur a.a1 a.a2 a.a3
  | some .pageMap => sysPageMapActs s cur a.a1 a.a2 a.a3 a.a4 a.a5
  | some .pageUnmap => sysPageUnmapActs s cur a.a1 a.a2
  | some .ipcTrySend => sysIpcTrySendActs s cur a.a1 a.a3 a.a4
  | _ => []

/-! ### What is cached meanwhile -/

/-- CPUs cache translations that they find in the memory `m`, through the directories in their
CR3. -/
def Tlb.fills (t : Tlb) (s : KState) (m : Mem) (l : List (ℕ × Word)) : Tlb :=
  l.foldl (fun t x => match translate m (s.cpus x.1).cr3 x.2 with
    | some pte => t.fill x.1 x.2 pte
    | none => t) t

/-- The TLBs after the acts of CPU `c`, in memory `m` at first. Before act `i` the CPUs cache the
translations `fs i`. -/
def actsTlb (s : KState) (c : ℕ) : Mem → List TlbAct → (ℕ → List (ℕ × Word)) → Tlb → Tlb
  | m, [], fs, t => t.fills s m (fs 0)
  | m, .store m' :: as, fs, t => actsTlb s c m' as (fun i => fs (i + 1)) (t.fills s m (fs 0))
  | m, .invalidate pgdir va :: as, fs, t =>
    actsTlb s c m as (fun i => fs (i + 1)) (tlbInvalidate s c pgdir va (t.fills s m (fs 0)))

/-- The TLBs when a system call returns to `trap_dispatch`. -/
def syscallTlb (s : KState) (c cur : ℕ) (a : SysArgs) (fs : ℕ → List (ℕ × Word)) (t : Tlb) : Tlb :=
  actsTlb s c s.mem (syscallActs s cur a) fs t

/-! ### The machine -/

/-- The kernel and the TLBs. -/
structure TlbState where
  kern : KState
  tlb : Tlb

/-- What can happen next. -/
inductive TlbEvent where
  /-- A kernel entry; during a system call the CPUs cache the translations `fs`. -/
  | kern (ev : Event) (fs : ℕ → List (ℕ × Word))
  /-- CPU `c` caches the translation of `va`. -/
  | fill (c : ℕ) (va : Word)
  /-- The program on CPU `c` stores a byte at `va` through the cached entry `pte`. -/
  | store (c : ℕ) (va pte : Word) (b : BitVec 8)

/-- The TLBs when the kernel has done what the event asks for. -/
def kernTlb (s : KState) (fs : ℕ → List (ℕ × Word)) (t : Tlb) : Event → Tlb
  | .trap c tr =>
    match s.curenv c with
    | some cur =>
      if s.status cur ≠ .dying ∧ tr.tf.tfTrapno = T_SYSCALL then
        syscallTlb (trapEntry s.reset c cur tr) c cur tr.args fs t
      else t
    | none => t
  | _ => t

/-- One step of the machine with TLBs. -/
def tlbStep (t : TlbState) : TlbEvent → Option TlbState
  | .kern (.store _ _ _) _ => none
  | .kern ev fs => (step t.kern ev).map fun s => ⟨s, (kernTlb t.kern fs t.tlb ev).flush ev.cpu⟩
  | .fill c va => (translate t.kern.mem (t.kern.cpus c).cr3 va).map fun pte =>
      ⟨t.kern, t.tlb.fill c va pte⟩
  | .store c va pte b =>
    if t.kern.curenv c ≠ none ∧ va < UTOP ∧ (PGNUM va, pte) ∈ t.tlb c ∧ test pte PTE_W ∧
      test pte PTE_U then
      some ⟨{ t.kern.reset with mem := t.kern.mem.storeAt pte va b }, t.tlb⟩
    else none

end JOS
