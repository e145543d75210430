import JOS.General.Queue
import JOS.General.Run
import JOS.Kern.Console

/-!
# The console's input buffer is a queue

While no more than 511 characters wait, `cons_intr` appends to the queue that the buffer represents,
and `cons_getc` takes from it: what `cons_getc` has returned and what waits are what the devices
have sent (`fifo_of_reach`).
-/

namespace JOS

open JOS.General

variable {s s' : Cons} {c : BitVec 8} {cs serial kbd : List (BitVec 8)}

/-- The characters that are waiting. -/
def Cons.waiting (s : Cons) : List (BitVec 8) := queue CONSBUFSIZE s.buf s.rpos s.wpos

/-- Both positions are in the buffer. -/
structure Cons.InBuf (s : Cons) : Prop where
  rpos : s.rpos < CONSBUFSIZE
  wpos : s.wpos < CONSBUFSIZE

/-- The characters among what a device sends. -/
def sent (cs : List (BitVec 8)) : List (BitVec 8) := cs.filter (· ≠ 0)

theorem sent_append (cs cs' : List (BitVec 8)) : sent (cs ++ cs') = sent cs ++ sent cs' :=
  List.filter_append _ _

theorem ne_zero_of_mem_sent (h : c ∈ sent cs) : c ≠ 0 := by
  simpa using List.of_mem_filter h

theorem sent_sent (cs : List (BitVec 8)) : sent (sent cs) = sent cs :=
  List.filter_eq_self.mpr fun _ hc => by simpa using ne_zero_of_mem_sent hc

/-! ### `cons_intr` and `cons_getc` -/

/-- `cons.wpos` goes around. -/
theorem Cons.put_of_ne (hc : c ≠ 0) :
    s.put c = { s with
      buf := Function.update s.buf s.wpos c, wpos := next CONSBUFSIZE s.wpos } := by
  simp only [Cons.put, if_neg hc, next]
  split_ifs <;> rfl

/-- One character. -/
theorem Cons.InBuf.put (h : s.InBuf) (c : BitVec 8)
    (hroom : (s.waiting ++ sent [c]).length < CONSBUFSIZE) :
    (s.put c).InBuf ∧ (s.put c).waiting = s.waiting ++ sent [c] := by
  by_cases hc : c = 0
  · have hsent : sent [c] = [] := by simp [sent, hc]
    rw [Cons.put, if_pos hc, hsent, List.append_nil]
    exact ⟨h, rfl⟩
  · have hsent : sent [c] = [c] := List.filter_cons_of_pos (by simpa using hc)
    rw [hsent, List.length_append] at hroom
    rw [Cons.put_of_ne hc, hsent]
    exact ⟨⟨h.rpos, next_lt h.wpos⟩, queue_put h.rpos h.wpos c hroom⟩

/-- **`cons_intr`** appends what the device sends. -/
theorem Cons.InBuf.consIntr (h : s.InBuf) (hroom : (s.waiting ++ sent cs).length < CONSBUFSIZE) :
    (consIntr s cs).InBuf ∧ (consIntr s cs).waiting = s.waiting ++ sent cs := by
  induction cs generalizing s with
  | nil => exact ⟨h, (List.append_nil _).symm⟩
  | cons c cs ih =>
    rw [← List.singleton_append, sent_append, ← List.append_assoc] at hroom ⊢
    have hfirst : (s.waiting ++ sent [c]).length < CONSBUFSIZE := by
      rw [List.length_append] at hroom
      exact lt_of_le_of_lt (Nat.le_add_right _ _) hroom
    obtain ⟨hput, hwaiting⟩ := h.put c hfirst
    rw [← hwaiting] at hroom ⊢
    exact ih hput hroom

/-- **`cons_getc`** returns the character that has waited longest, or 0 when none waits. -/
theorem Cons.InBuf.consGetc (h : s.InBuf)
    (hroom : (s.waiting ++ sent serial ++ sent kbd).length < CONSBUFSIZE) :
    (consGetc s serial kbd).2.InBuf ∧
      (s.waiting ++ sent serial ++ sent kbd = [] ∧ (consGetc s serial kbd).1 = 0 ∧
        (consGetc s serial kbd).2.waiting = [] ∨
        s.waiting ++ sent serial ++ sent kbd = (consGetc s serial kbd).1 ::
            (consGetc s serial kbd).2.waiting) := by
  have hserial : (s.waiting ++ sent serial).length < CONSBUFSIZE := by
    rw [List.length_append] at hroom
    exact lt_of_le_of_lt (Nat.le_add_right _ _) hroom
  obtain ⟨h₁, hwaiting₁⟩ := h.consIntr hserial
  rw [← hwaiting₁] at hroom ⊢
  obtain ⟨h₂, hwaiting₂⟩ := h₁.consIntr hroom
  rw [← hwaiting₂, JOS.consGetc]
  generalize JOS.consIntr (JOS.consIntr s serial) kbd = t at h₂
  by_cases hne : t.rpos = t.wpos
  · have hnil : t.waiting = [] := by rw [Cons.waiting, hne, queue_self]
    rw [if_neg (not_not.mpr hne)]
    exact ⟨h₂, .inl ⟨hnil, rfl, hnil⟩⟩
  · have hnext : (if t.rpos + 1 = CONSBUFSIZE then ({ t with rpos := 0 } : Cons)
        else { t with rpos := t.rpos + 1 }) =
        { t with rpos := next CONSBUFSIZE t.rpos } := by
      rw [next]
      split_ifs <;> rfl
    simp only [ne_eq, hne, not_false_eq_true, if_true, hnext]
    exact ⟨⟨next_lt h₂.rpos, h₂.wpos⟩, .inr (queue_take h₂.rpos h₂.wpos hne)⟩

/-! ### Runs -/

/-- What happens to the buffer. -/
inductive ConsEvent where
  /-- `cons_intr` for a device that answers `cs`. -/
  | intr (cs : List (BitVec 8))
  /-- `cons_getc`, with what the devices answer when they are polled. -/
  | getc (serial kbd : List (BitVec 8))

/-- The characters that come. -/
def ConsEvent.arriving : ConsEvent → List (BitVec 8)
  | .intr cs => sent cs
  | .getc serial kbd => sent serial ++ sent kbd

/-- The buffer, and what has gone through it. -/
structure ConsRun where
  cons : Cons
  /-- The characters the devices have sent. -/
  arrived : List (BitVec 8)
  /-- The values other than 0 that `cons_getc` has returned. -/
  returned : List (BitVec 8)

/-- One event. -/
def consStep (s : ConsRun) (ev : ConsEvent) : Option ConsRun :=
  match ev with
  | .intr cs => some { s with cons := consIntr s.cons cs, arrived := s.arrived ++ ev.arriving }
  | .getc serial kbd =>
    let r := consGetc s.cons serial kbd
    some { cons := r.2, arrived := s.arrived ++ ev.arriving, returned := s.returned ++ sent [r.1] }

/-- With what comes, no more than `CONSBUFSIZE - 1` characters have not been delivered. -/
def ConsFits (s : ConsRun) (ev : ConsEvent) : Prop :=
  (s.arrived ++ ev.arriving).length ≤ s.returned.length + (CONSBUFSIZE - 1)

instance (s : ConsRun) (ev : ConsEvent) : Decidable (ConsFits s ev) :=
  inferInstanceAs (Decidable (_ ≤ _))

/-- The buffer is a queue. -/
structure Fifo (s : ConsRun) : Prop where
  pos : s.cons.InBuf
  /-- Nothing is lost, duplicated or reordered. -/
  order : s.arrived = s.returned ++ s.cons.waiting
  /-- `cons_getc` returns 0 only when nothing waits. -/
  empty : ∀ serial kbd, ConsFits s (.getc serial kbd) → (consGetc s.cons serial kbd).1 = 0 →
    s.arrived ++ (sent serial ++ sent kbd) = s.returned

/-- What the step lemma needs. -/
structure FifoInv (s : ConsRun) : Prop where
  pos : s.cons.InBuf
  order : s.arrived = s.returned ++ s.cons.waiting
  chars : sent s.arrived = s.arrived

theorem FifoInv.room {s : ConsRun} {ev : ConsEvent} (h : FifoInv s) (hok : ConsFits s ev) :
    (s.cons.waiting ++ ev.arriving).length < CONSBUFSIZE := by
  have hsize : CONSBUFSIZE = 512 := rfl
  rw [ConsFits, h.order, List.length_append, List.length_append] at hok
  rw [List.length_append]
  omega

theorem FifoInv.step {s s' : ConsRun} {ev : ConsEvent} (h : FifoInv s) (hok : ConsFits s ev)
    (hs : consStep s ev = some s') :
    FifoInv s' := by
  have hroom := h.room hok
  cases ev with
  | intr cs =>
    cases hs
    obtain ⟨hpos, hwaiting⟩ := h.pos.consIntr hroom
    refine ⟨hpos, ?_, ?_⟩
    · dsimp only
      rw [hwaiting, h.order, List.append_assoc]
      rfl
    · dsimp only [ConsEvent.arriving]
      rw [sent_append, h.chars, sent_sent]
  | getc serial kbd =>
    cases hs
    rw [ConsEvent.arriving, ← List.append_assoc] at hroom
    obtain ⟨hpos, hcase⟩ := h.pos.consGetc hroom
    have hchars : sent (s.arrived ++ (sent serial ++ sent kbd)) = s.arrived ++
        (sent serial ++ sent kbd) := by
      rw [sent_append, sent_append, h.chars, sent_sent, sent_sent]
    refine ⟨hpos, ?_, hchars⟩
    dsimp only [ConsEvent.arriving]
    rw [h.order, List.append_assoc, List.append_assoc, ← List.append_assoc s.cons.waiting]
    rcases hcase with ⟨hnil, hzero, hnil'⟩ | hcons
    · rw [hnil, hzero, hnil']
      rfl
    · have hne : (consGetc s.cons serial kbd).1 ≠ 0 := by
        refine @ne_zero_of_mem_sent _ (s.arrived ++ (sent serial ++ sent kbd)) ?_
        rw [hchars, h.order, List.append_assoc, ← List.append_assoc s.cons.waiting, hcons]
        exact List.mem_append_right _ List.mem_cons_self
      rw [hcons, sent, List.filter_cons_of_pos (by simpa using hne)]
      rfl

/-- **The console's input buffer is a queue** in every run in which no more than 511 characters
wait. -/
theorem fifo_of_reach {buf : ℕ → BitVec 8} {s : ConsRun}
    (h : Reach consStep ConsFits ⟨⟨buf, 0, 0⟩, [], []⟩ s) : Fifo s := by
  have hinv : FifoInv s := by
    refine h.invariant (I := FifoInv) ⟨⟨Nat.zero_lt_succ _, Nat.zero_lt_succ _⟩, ?_, rfl⟩
      fun t t' ev ht hok hs => ht.step hok hs
    exact (queue_self CONSBUFSIZE buf 0).symm
  refine ⟨hinv.pos, hinv.order, fun serial kbd hok hzero => ?_⟩
  have hroom := hinv.room hok
  rw [ConsEvent.arriving, ← List.append_assoc] at hroom
  rw [hinv.order, List.append_assoc, ← List.append_assoc s.cons.waiting]
  obtain ⟨-, ⟨hnil, -, -⟩ | hcons⟩ := hinv.pos.consGetc hroom
  · rw [hnil, List.append_nil]
  · -- a character that waits is not 0
    have hmem : (consGetc s.cons serial kbd).1 ∈ sent (s.arrived ++ (sent serial ++ sent kbd)) := by
      rw [sent_append, sent_append, hinv.chars, sent_sent, sent_sent, hinv.order, List.append_assoc,
        ← List.append_assoc s.cons.waiting, hcons]
      exact List.mem_append_right _ List.mem_cons_self
    exact absurd hzero (ne_zero_of_mem_sent hmem)

/-- Two characters come, with a 0 between them, and the first is read. -/
theorem fifo_two : ∃ s, s.returned = [65] ∧ s.cons.waiting = [66] ∧ Fifo s := by
  let events : List ConsEvent := [.intr [65, 0, 66], .getc [] [0]]
  let start : ConsRun := ⟨⟨fun _ => 0, 0, 0⟩, [], []⟩
  have hrun : (events.foldlM (fun t ev => if decide (ConsFits t ev) then consStep t ev
    else none) start).map
      (fun s => (s.returned, s.cons.waiting)) = some ([65], [66]) := by decide +kernel
  obtain ⟨s, hs, hout⟩ := Option.map_eq_some_iff.mp hrun
  have hreach : Reach consStep ConsFits start s := Reach.of_guarded hs fun _ _ => of_decide_eq_true
  exact ⟨s, congrArg Prod.fst hout, congrArg Prod.snd hout, fifo_of_reach hreach⟩

end JOS
