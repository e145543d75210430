import JOS.Kern.Trapentry
import JOS.Lib.Access

/-!
# Trap frames

The way into the kernel leaves a `struct Trapframe` on the kernel's stack that holds the registers
of the program, the vector and the error code (`readFrame_enter`), and `env_pop_tf` gives a CPU the
registers of the frame it is called with (`envPopTf_prog`).
-/

namespace JOS

variable {m m' : Word → BitVec 8} {a c d w t : Word} {n : ℕ} {x : Core} {ts : Taskstate}
  {cause : Cause} {err next v : Word}

/-! ### Words in memory -/

theorem storeLow_add {k : ℕ} (h : k < n) (hn : n ≤ 4) :
    storeLow n m a w (a + BitVec.ofNat 32 k) = byteOf w k := by
  have hoff : (a + BitVec.ofNat 32 k - a).toNat = k := by
    rw [BitVec.add_comm, BitVec.add_sub_cancel, BitVec.toNat_ofNat]
    omega
  rw [storeLow, hoff, if_pos h]

theorem load32_congr (h : ∀ k < 4, m (a + BitVec.ofNat 32 k) = m' (a + BitVec.ofNat 32 k)) :
    load32 m a = load32 m' a := by
  have h0 := h 0 (by decide)
  rw [BitVec.add_zero] at h0
  rw [load32, load32, h0]
  exact congrArg₂ _ (congrArg₂ _ (congrArg₂ _ (h 3 (by decide)) (h 2 (by decide)))
    (h 1 (by decide))) rfl

theorem load16_congr (h : ∀ k < 2, m (a + BitVec.ofNat 32 k) = m' (a + BitVec.ofNat 32 k)) :
    load16 m a = load16 m' a := by
  have h0 := h 0 (by decide)
  rw [BitVec.add_zero] at h0
  rw [load16, load16, h0]
  exact congrArg₂ _ (h 1 (by decide)) rfl

/-- What is stored is loaded. -/
@[simp] theorem load32_storeLow : load32 (storeLow 4 m a w) a = w := by
  have hbytes : load32 (storeLow 4 m a w) a = byteOf w 3 ++ byteOf w 2 ++ byteOf w 1 ++
      byteOf w 0 := by
    have h0 := storeLow_add (m := m) (a := a) (w := w) (n := 4) (k := 0) (by decide) (by decide)
    rw [BitVec.add_zero] at h0
    rw [load32, h0]
    exact congrArg₂ _ (congrArg₂ _ (congrArg₂ _ (storeLow_add (by decide) (by decide))
      (storeLow_add (by decide) (by decide)))
      (storeLow_add (by decide) (by decide))) rfl
  rw [hbytes, Running.append_byteOf]

theorem load16_storeLow (hn : 2 ≤ n) (hn' : n ≤ 4) :
    load16 (storeLow n m a w) a = w.setWidth 16 := by
  have hbytes : load16 (storeLow n m a w) a = byteOf w 1 ++ byteOf w 0 := by
    have h0 := storeLow_add (m := m) (a := a) (w := w) (n := n) (k := 0) (by omega) hn'
    rw [BitVec.add_zero] at h0
    rw [load16, h0]
    exact congrArg₂ _ (storeLow_add (k := 1) (by omega) hn') rfl
  rw [hbytes]
  unfold byteOf
  refine BitVec.eq_of_getLsbD_eq fun i hi => ?_
  simp only [BitVec.getLsbD_append, BitVec.getLsbD_setWidth, BitVec.getLsbD_ushiftRight]
  rcases Nat.lt_or_ge i 8 with h | h
  · simp [h, hi]
  · simp [show ¬ i < 8 by omega, show i - 8 < 8 by omega, show 8 + (i - 8) = i by omega, hi]

/-! ### The stack -/

/-- What a slot of the stack holds. -/
inductive StackSlot where
  | word (w : Word)
  | sel (sel : BitVec 16)

/-- The slot at `a` holds this. -/
def StackSlot.At (m : Word → BitVec 8) (a : Word) : StackSlot → Prop
  | .word w => load32 m a = w
  | .sel s => load16 m a = s

/-- The slots from `a` up. -/
def ShowsSlots (m : Word → BitVec 8) : Word → List StackSlot → Prop
  | _, [] => True
  | a, s :: l => s.At m a ∧ ShowsSlots m (a + 4) l

theorem storeLow_above {j k : ℕ} (hn : n ≤ k) (hj : k + j < 2 ^ 32) :
    storeLow n m c w (c + BitVec.ofNat 32 k + BitVec.ofNat 32 j) =
        m (c + BitVec.ofNat 32 k + BitVec.ofNat 32 j) := by
  have hoff : (c + BitVec.ofNat 32 k + BitVec.ofNat 32 j - c).toNat = k + j := by
    rw [BitVec.add_assoc, BitVec.add_comm, BitVec.add_sub_cancel, ← BitVec.ofNat_add,
      BitVec.toNat_ofNat]
    omega
  rw [storeLow, hoff, if_neg (by omega)]

/-- A store below leaves them as they are. -/
theorem ShowsSlots.storeLow {l : List StackSlot} {k : ℕ}
    (h : ShowsSlots m (c + BitVec.ofNat 32 k) l) (hn : n ≤ k)
    (hk : k + 4 * l.length < 2 ^ 32) : ShowsSlots (storeLow n m c w) (c + BitVec.ofNat 32 k) l := by
  induction l generalizing k with
  | nil => trivial
  | cons s l ih =>
    rw [List.length_cons] at hk
    obtain ⟨hs, hl⟩ := h
    have hnext : c + BitVec.ofNat 32 k + 4 = c + BitVec.ofNat 32 (k + 4) := by
      rw [BitVec.add_assoc, BitVec.ofNat_add]
      rfl
    rw [hnext] at hl
    refine ⟨?_, ?_⟩
    · cases s with
      | word v => exact (load32_congr fun j hj => storeLow_above hn (by omega)).trans hs
      | sel v => exact (load16_congr fun j hj => storeLow_above hn (by omega)).trans hs
    · rw [hnext]
      exact ih hl (by omega) (by omega)

/-- The stack of `x`, from its top. -/
def Core.Stack (x : Core) (l : List StackSlot) : Prop := ShowsSlots x.mem x.regs.esp l ∧
    l.length < 64

theorem Core.Stack.push {l : List StackSlot} (h : x.Stack l) (w : Word)
    (hlen : (.word w :: l).length < 64) :
    (x.push w).Stack (.word w :: l) := by
  have hesp : x.regs.esp = x.regs.esp - 4 + BitVec.ofNat 32 4 := (BitVec.sub_add_cancel _ _).symm
  have habove : ShowsSlots x.mem (x.regs.esp - 4 + BitVec.ofNat 32 4) l := by
    rw [← hesp]
    exact h.1
  rw [List.length_cons] at hlen
  exact ⟨⟨load32_storeLow, habove.storeLow (by decide) (by omega)⟩, hlen⟩

theorem Core.Stack.pushSel {l : List StackSlot} (h : x.Stack l) (s : BitVec 16)
    (hlen : (.sel s :: l).length < 64) :
    (x.pushSel s).Stack (.sel s :: l) := by
  have hesp : x.regs.esp = x.regs.esp - 4 + BitVec.ofNat 32 4 := (BitVec.sub_add_cancel _ _).symm
  have habove : ShowsSlots x.mem (x.regs.esp - 4 + BitVec.ofNat 32 4) l := by
    rw [← hesp]
    exact h.1
  have hself : load16 (JOS.storeLow 2 x.mem (x.regs.esp - 4) (s.setWidth 32))
      (x.regs.esp - 4) = s := by
    rw [load16_storeLow (by decide) (by decide), BitVec.setWidth_setWidth_of_le _ (by decide),
      BitVec.setWidth_eq]
  rw [List.length_cons] at hlen
  exact ⟨⟨hself, habove.storeLow (by decide) (by omega)⟩, hlen⟩

/-! ### The way out -/

/-- **`env_pop_tf`** goes back to a program with the registers of its frame. -/
theorem envPopTf_prog (h : (readFrame x.mem a).tfCs &&& 3 ≠ x.cpl) :
    (x.execAll (envPopTf a)).toProgRegs = (readFrame x.mem a).prog := by
  have hcs : ¬ load16 x.mem (a + 52#32) &&& 3#16 = x.cs &&& 3#16 := h
  simp only [Core.execAll, envPopTf, List.foldl_cons, List.foldl_nil, Core.exec, Core.setEsp,
    Core.popal, Core.setSeg, Core.iret,
    ProgRegs.cpl, BitVec.add_assoc, BitVec.ofNat_eq_ofNat, BitVec.reduceAdd]
  rw [if_neg hcs]
  rfl

/-! ### The way in -/

/-- What `trap_init` has set, gate by gate. -/
theorem idt_present (hp : (idt v).gdP ≠ 0) : (idt v).gdSel = GD_KT ∧
    (idt v).gdOff = ⟨v, v ∈ errorVectors⟩ := by
  have hall : ∀ x ∈ trapInit, x.2.gdSel = GD_KT ∧ x.2.gdOff = ⟨x.1, x.1 ∈ errorVectors⟩ := by decide
  rw [idt] at hp ⊢
  cases hl : trapInit.lookup v with
  | none =>
    rw [hl] at hp
    exact absurd rfl hp
  | some g =>
    obtain ⟨l₁, l₂, heq, -⟩ := List.lookup_eq_some_iff.mp hl
    refine hall (v, g) ?_
    rw [heq]
    exact List.mem_append_right l₁ List.mem_cons_self

theorem not_errorVector_of_open (hdpl : ¬ (idt v).gdDpl.toNat < 3) : v ∉ errorVectors := by
  have hall : errorVectors.all (fun v => (idt v).gdDpl.toNat < 3) = true := by decide
  exact fun hv => hdpl (of_decide_eq_true (List.all_eq_true.mp hall v hv))

theorem not_errorVector_of_device (hv : IRQ_OFFSET ≤ v) : v ∉ errorVectors := by
  have hall : errorVectors.all (fun v => v < IRQ_OFFSET) = true := by decide
  exact fun hmem => absurd hv
    (BitVec.not_le.mpr (of_decide_eq_true (List.all_eq_true.mp hall v hmem)))

/-- **A stub pushes a zero where the CPU has not pushed an error code.** -/
theorem errorCode_eq (hpos : cause.possible 3) :
    (idt (cause.vector 3)).gdOff.errorCode = cause.pushesError 3 := by
  have hgpflt : T_GPFLT ∈ errorVectors := by decide
  have hsegnp : T_SEGNP ∈ errorVectors := by decide
  rw [(idt_present (present_vector 3 cause)).2]
  cases cause with
  | exception v => rw [Cause.pushesError]
  | software v =>
    rw [Cause.pushesError, Cause.vector]
    split_ifs with hdpl hp
    · exact decide_eq_decide.mpr (iff_of_true hgpflt (Or.inl hdpl))
    · exact decide_eq_decide.mpr (iff_of_true hsegnp (Or.inr hp))
    · exact decide_eq_decide.mpr
        (iff_of_false (not_errorVector_of_open hdpl) (not_or.mpr ⟨hdpl, hp⟩))
  | hardware v =>
    rw [Cause.pushesError, Cause.vector]
    split_ifs with hp
    · exact decide_eq_decide.mpr (iff_of_true hsegnp hp)
    · exact decide_eq_decide.mpr
        (iff_of_false (not_errorVector_of_device (of_decide_eq_true hpos)) hp)

/-- The frame of a trap of a program. -/
def ProgRegs.frame (x : ProgRegs) (ts : Taskstate) (trapno err : Word) : Trapframe where
  tfRegs :=
    { regEdi := x.regs.edi
      regEsi := x.regs.esi
      regEbp := x.regs.ebp
      regOesp := ts.tsEsp0 - 36
      regEbx := x.regs.ebx
      regEdx := x.regs.edx
      regEcx := x.regs.ecx
      regEax := x.regs.eax }
  tfEs := x.es
  tfDs := x.ds
  tfTrapno := trapno
  tfErr := err
  tfEip := x.regs.eip
  tfCs := x.cs
  tfEflags := x.regs.eflags
  tfEsp := x.regs.esp
  tfSs := x.ss

/-- The CPU and the stub push the vector and an error code, be it a zero. -/
theorem execAll_stub {g : Gatedesc} {pushes : Bool} (hoff : g.gdOff = ⟨v, pushes⟩) :
    (x.deliver ts g (if pushes then some err else none)).execAll g.gdOff.code =
      let y := (((((x.switchStack ts g.gdSel).push x.regs.eflags).pushSel x.cs).push
        x.regs.eip).push (if pushes then err else 0)).push v
      { y with cs := g.gdSel, regs := { y.regs with eflags := g.eflags x.regs.eflags } } := by
  rw [Core.deliver, hoff, TrapHandler.code]
  cases pushes <;> rfl

theorem switchStack_user (hcpl : x.cpl = 3) : x.switchStack ts GD_KT =
    ({ x.setEsp ts.tsEsp0 with ss := ts.tsSs0 }.pushSel x.ss).push x.regs.esp := by
  rw [Core.switchStack, hcpl, if_neg (by decide)]

/-- The words that `pushal` leaves, from the lowest up. -/
def pushalSlots (r : UserRegs) : List StackSlot :=
  [.word r.edi, .word r.esi, .word r.ebp, .word r.esp, .word r.ebx, .word r.edx, .word r.ecx,
    .word r.eax]

theorem Core.Stack.pushal {l : List StackSlot} (h : x.Stack l)
    (hlen : (pushalSlots x.regs ++ l).length < 64) :
    x.pushal.Stack (pushalSlots x.regs ++ l) := by
  have hlen : l.length + 8 < 64 := by
    rw [List.length_append] at hlen
    exact (Nat.add_comm _ _).trans_lt hlen
  have hle : ∀ {l' : List StackSlot}, l'.length ≤ l.length + 8 → l'.length < 64 :=
    fun h => lt_of_le_of_lt h hlen
  have h₁ := h.push x.regs.eax (hle (by simp only [List.length_cons]; omega))
  have h₂ := h₁.push x.regs.ecx (hle (by simp only [List.length_cons]; omega))
  have h₃ := h₂.push x.regs.edx (hle (by simp only [List.length_cons]; omega))
  have h₄ := h₃.push x.regs.ebx (hle (by simp only [List.length_cons]; omega))
  have h₅ := h₄.push x.regs.esp (hle (by simp only [List.length_cons]; omega))
  have h₆ := h₅.push x.regs.ebp (hle (by simp only [List.length_cons]; omega))
  have h₇ := h₆.push x.regs.esi (hle (by simp only [List.length_cons]; omega))
  exact h₇.push x.regs.edi (hle (by simp only [List.length_cons]; omega))

/-- A segment register is loaded by a push and a pop. -/
theorem Core.Stack.loadSeg {l : List StackSlot} (h : x.Stack l) (hlen : l.length < 63)
    (w : Word) (s : Seg) :
    ((x.push w).exec (.popSeg s)).Stack l ∧ ((x.push w).exec (.popSeg s)).regs = x.regs := by
  have hpush := (h.push w (by rw [List.length_cons]; omega)).1.2
  have hesp : x.regs.esp - 4 + 4 = x.regs.esp := BitVec.sub_add_cancel _ _
  cases s with
  | ds => exact ⟨⟨hpush, h.2⟩, by simp only [Core.exec, Core.setEsp, Core.setSeg, Core.push, hesp]⟩
  | es => exact ⟨⟨hpush, h.2⟩, by simp only [Core.exec, Core.setEsp, Core.setSeg, Core.push, hesp]⟩

theorem pushal_esp (x : Core) : x.pushal.regs.esp = x.regs.esp - 32 := by
  simp only [Core.pushal, Core.push, Core.setEsp, BitVec.sub_eq_add_neg,
    BitVec.add_assoc, BitVec.ofNat_eq_ofNat, BitVec.reduceNeg,
    BitVec.reduceAdd]

/-- **`_alltraps`** pushes the registers, the address of the frame, and where `trap` would return
to. -/
theorem execAll_alltraps {l : List StackSlot} (next : Word) (h : x.Stack l) (hlen : l.length < 16) :
    (x.execAll (alltraps next)).Stack (.word next :: .word (x.regs.esp - 40) ::
      (pushalSlots { x.regs with esp := x.regs.esp - 8 } ++ .sel x.es :: .sel x.ds :: l)) ∧
      (x.execAll (alltraps next)).regs.esp = x.regs.esp - 48 := by
  have hsub : ∀ a b c : Word, a - b - c = a - (b + c) := fun a b c => by bv_omega
  have h₁ := h.pushSel x.ds (by simp only [List.length_cons]; omega)
  have h₂ := h₁.pushSel x.es (by simp only [List.length_cons]; omega)
  have h₃ := h₂.pushal (by simp only [pushalSlots, List.length_append,
    List.length_cons, List.length_nil]; omega)
  have hregs : ((x.pushSel x.ds).pushSel x.es).regs = { x.regs with esp := x.regs.esp - 8 } := by
    simp only [Core.pushSel, Core.setEsp, hsub]
    rfl
  have hesp : (((x.pushSel x.ds).pushSel x.es).pushal).regs.esp = x.regs.esp - 40 := by
    rw [pushal_esp, hregs, hsub]
    rfl
  rw [hregs] at h₃
  have hlen₃ : (pushalSlots { x.regs with esp := x.regs.esp - 8 } ++ .sel x.es :: .sel x.ds ::
      l).length < 62 := by
    simp only [pushalSlots, List.length_append, List.length_cons, List.length_nil]
    omega
  obtain ⟨h₄, hregs₄⟩ := h₃.loadSeg (lt_trans hlen₃ (by decide)) (GD_KD.setWidth 32) .ds
  obtain ⟨h₅, hregs₅⟩ := h₄.loadSeg (lt_trans hlen₃ (by decide)) (GD_KD.setWidth 32) .es
  have h₆ := (h₅.push (x.regs.esp - 40) (by rw [List.length_cons]; omega)).push next
    (by rw [List.length_cons, List.length_cons]; omega)
  have hexec : x.execAll (alltraps next) = Core.push
      (Core.push (Core.exec (Core.push (Core.exec (Core.push
      (((x.pushSel x.ds).pushSel x.es).pushal) (GD_KD.setWidth 32)) (.popSeg .ds))
        (GD_KD.setWidth 32)) (.popSeg .es))
      (x.regs.esp - 40)) next := by
    rw [← hesp, ← hregs₄, ← hregs₅]
    rfl
  rw [hexec]
  refine ⟨h₆, ?_⟩
  have hpush : ∀ (y : Core) (w : Word), (y.push w).regs.esp = y.regs.esp - 4 := fun _ _ => rfl
  rw [hpush, hpush, hregs₅, hregs₄, hesp, hsub, hsub]
  rfl

/-- The slots of a `struct Trapframe`. -/
def frameSlots (tf : Trapframe) : List StackSlot :=
  [.word tf.tfRegs.regEdi, .word tf.tfRegs.regEsi, .word tf.tfRegs.regEbp, .word tf.tfRegs.regOesp,
    .word tf.tfRegs.regEbx,
    .word tf.tfRegs.regEdx, .word tf.tfRegs.regEcx, .word tf.tfRegs.regEax, .sel tf.tfEs,
    .sel tf.tfDs, .word tf.tfTrapno,
    .word tf.tfErr, .word tf.tfEip, .sel tf.tfCs, .word tf.tfEflags, .word tf.tfEsp, .sel tf.tfSs]

theorem readFrame_of_shows {tf : Trapframe} (h : ShowsSlots m a (frameSlots tf)) :
    readFrame m a = tf := by
  simp only [frameSlots, ShowsSlots, StackSlot.At, BitVec.add_assoc, BitVec.ofNat_eq_ofNat,
    BitVec.reduceAdd, and_true] at h
  obtain ⟨h₀, h₁, h₂, h₃, h₄, h₅, h₆, h₇, h₈, h₉, h₁₀, h₁₁, h₁₂, h₁₃, h₁₄, h₁₅, h₁₆⟩ := h
  simp only [readFrame, BitVec.ofNat_eq_ofNat, h₀, h₁, h₂, h₃, h₄, h₅, h₆, h₇, h₈, h₉, h₁₀, h₁₁,
    h₁₂, h₁₃, h₁₄, h₁₅, h₁₆]

theorem push_prog (x : Core) (w : Word) :
    (x.push w).toProgRegs = { x.toProgRegs with regs := { x.regs with esp := x.regs.esp - 4 } } :=
      rfl

theorem pushSel_prog (x : Core) (s : BitVec 16) :
    (x.pushSel s).toProgRegs = { x.toProgRegs with
      regs := { x.regs with esp := x.regs.esp - 4 } } := rfl

/-- What the CPU and the stub push for a program. -/
theorem stub_stack (ts : Taskstate) (hcpl : x.cpl = 3) (v w : Word) : ∃ y : Core,
    y = (((((x.switchStack ts GD_KT).push x.regs.eflags).pushSel x.cs).push x.regs.eip).push w).push
      v ∧
    y.Stack [.word v, .word w, .word x.regs.eip, .sel x.cs, .word x.regs.eflags, .word x.regs.esp,
      .sel x.ss] ∧
    y.toProgRegs = { x.toProgRegs with
      ss := ts.tsSs0, regs := { x.regs with esp := ts.tsEsp0 - 28 } } := by
  have h₀ : ({ x.setEsp ts.tsEsp0 with ss := ts.tsSs0 } : Core).Stack [] := ⟨trivial, by decide⟩
  have h₁ := ((h₀.pushSel x.ss (by simp)).push x.regs.esp (by simp)).push x.regs.eflags (by simp)
  have h₂ := (((h₁.pushSel x.cs (by simp)).push x.regs.eip (by simp)).push w (by simp)).push v
    (by simp)
  rw [switchStack_user hcpl]
  refine ⟨_, rfl, h₂, ?_⟩
  simp only [push_prog, pushSel_prog, Core.setEsp, BitVec.sub_eq_add_neg, BitVec.add_assoc,
    BitVec.ofNat_eq_ofNat, BitVec.reduceNeg,
    BitVec.reduceAdd]

/-- **The way into the kernel** leaves the frame on its stack, and calls `trap` with it. -/
theorem readFrame_enter (ts : Taskstate) (err next : Word) (hcpl : x.cpl = 3)
    (hpos : cause.possible 3) :
    (x.enter ts cause err next).trapArg = ts.tsEsp0 - 68 ∧
      readFrame (x.enter ts cause err next).mem (ts.tsEsp0 - 68) =
      x.frame ts (cause.vector 3) (if cause.pushesError 3 then err else 0) := by
  obtain ⟨hsel, hoff⟩ := idt_present (present_vector 3 cause)
  have hoff' : (idt (cause.vector 3)).gdOff = ⟨cause.vector 3, cause.pushesError 3⟩ := by
    rw [← errorCode_eq hpos, hoff]
  have henter : x.enter ts cause err next = (((x.deliver ts (idt (cause.vector 3))
      (if cause.pushesError 3 then some err else none)).execAll
          (idt (cause.vector 3)).gdOff.code).execAll (alltraps next)) := by
    rw [Core.enter, hcpl, Core.execAll, List.foldl_append]
    rfl
  rw [execAll_stub hoff', hsel] at henter
  obtain ⟨y, hy, hstack, hregs⟩ :=
    stub_stack ts hcpl (cause.vector 3) (if cause.pushesError 3 then err else 0)
  rw [← hy] at henter
  generalize (idt (cause.vector 3)).eflags x.regs.eflags = fl at henter
  have hall := execAll_alltraps (x := { y with cs := GD_KT, regs := { y.regs with eflags := fl } })
    next hstack (by simp)
  rw [← henter] at hall
  obtain ⟨⟨⟨-, harg, hframe⟩, -⟩, hesp⟩ := hall
  have hy_regs : y.regs = { x.regs with esp := ts.tsEsp0 - 28 } := by rw [hregs]
  have hy_es : y.es = x.es := by rw [hregs]
  have hy_ds : y.ds = x.ds := by rw [hregs]
  simp only [hy_regs] at hesp
  have htop : (x.enter ts cause err next).regs.esp + 4 + 4 = ts.tsEsp0 - 68 := by
    rw [hesp]
    bv_omega
  refine ⟨harg.trans ?_, readFrame_of_shows ?_⟩
  · simp only [hy_regs]
    bv_omega
  · rw [← htop]
    simp only [hy_regs, hy_es, hy_ds] at hframe
    have hoesp : ts.tsEsp0 - 28 - 8 = ts.tsEsp0 - 36 := by bv_omega
    rw [hoesp] at hframe
    exact hframe

end JOS
