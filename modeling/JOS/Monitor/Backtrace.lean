import JOS.General.Except
import JOS.Kern.Monitor

/-!
# The backtrace

On a chain of frames `mon_backtrace` prints what it should, a frame after the other
(`backtraceLoop_frames`). But with the saved frame pointer of a frame it reads at once
the return address behind it, before it looks whether there is a frame; so it reads
through the null pointer at the end of every chain (`monBacktrace_strays`).
-/

namespace JOS

open JOS.General

variable {m : Stack} {ebp eip : Word} {t : Backtrace} {l : List Word} {f : ℕ}

/-- The frames from `ebp` on are `l`: each holds the pointer to the next, and the last one a null
pointer. -/
inductive Frames (m : Stack) : Word → List Word → Prop where
  | nil : Frames m 0 []
  | cons {ebp : Word} {l : List Word} : ebp ≠ 0 → Frames m (m.word ebp) l → Frames m ebp (ebp :: l)

/-- The stack is mapped where the frames are: the saved frame pointer, the return address, and the
five words behind. -/
def FramesMapped (m : Stack) (l : List Word) : Prop :=
  ∀ p ∈ l, ∀ i < 7, m.mapped (p + BitVec.ofNat 32 (4 * i)) = true

/-- Word `i` of the frame at `p`. -/
def Stack.frameWord (m : Stack) (p : Word) (i : ℕ) : Word := m.word (p + BitVec.ofNat 32 (4 * i))

/-- The entry of a frame, with its return address. -/
def entry (m : Stack) (p : Word) : List BacktraceOut :=
  [.frame p (m.frameWord p 1), .argLabel, .arg (m.frameWord p 2), .arg (m.frameWord p 3),
    .arg (m.frameWord p 4),
    .arg (m.frameWord p 5), .arg (m.frameWord p 6), .newline]

/-- The words that a pass for the frame at `p` reads. -/
def passReads (m : Stack) (p : Word) : List (Word × ℕ) :=
  [(p, 2), (p, 3), (p, 4), (p, 5), (p, 6), (p, 0), (m.word p, 1)]

theorem deref_mapped {p : Word} {i : ℕ} (h : m.mapped (p + BitVec.ofNat 32 (4 * i)) = true) :
    m.deref t p i = .ok (m.frameWord p i, { t with reads := t.reads ++ [(p, i)] }) := if_pos h

theorem deref_unmapped {p : Word} {i : ℕ} (h : m.mapped (p + BitVec.ofNat 32 (4 * i)) = false) :
    m.deref t p i = .error { t with reads := t.reads ++ [(p, i)] } := by
  rw [Stack.deref, h]
  rfl

/-- The loop over the arguments. -/
theorem printArgs_eq (p : Word) (t : Backtrace) : ∀ n ≤ 5,
    (∀ i < 7, m.mapped (p + BitVec.ofNat 32 (4 * i)) = true) →
    (List.range n).foldlM (fun t i => do
      let (w, t) ← m.deref t p (i + 2)
      return t.print (.arg w)) t =
    (.ok ⟨t.out ++ (List.range n).map (fun i => .arg (m.frameWord p (i + 2))),
      t.reads ++ (List.range n).map (fun i => (p, i + 2))⟩ :
      Except Backtrace Backtrace) := by
  intro n
  induction n with
  | zero =>
    intro _ _
    simp
  | succ n ih =>
    intro hn hmapped
    rw [foldlM_range_succ, ih (Nat.le_of_succ_le hn) hmapped, ok_bind,
      deref_mapped (hmapped (n + 2) (by omega)), ok_bind,
      List.range_succ, List.map_append, List.map_append, ← List.append_assoc, ← List.append_assoc]
    rfl

/-- A pass, when what `ebp` points to can be read; it ends with the read through the new `ebp`. -/
theorem backtracePass_eq (hmapped : ∀ i < 7, m.mapped (ebp + BitVec.ofNat 32 (4 * i)) = true)
    (t : Backtrace) :
    backtracePass m ebp (m.frameWord ebp 1) t =
      if m.mapped (m.word ebp + 4) then
        .ok (m.word ebp, m.frameWord (m.word ebp) 1,
          ⟨t.out ++ entry m ebp, t.reads ++ passReads m ebp⟩)
      else .error ⟨t.out ++ entry m ebp, t.reads ++ passReads m ebp⟩ := by
  have hword : m.frameWord ebp 0 = m.word ebp := congrArg m.word (BitVec.add_zero ebp)
  have hout : t.out ++ [.frame ebp (m.frameWord ebp 1)] ++ [.argLabel] ++
      (List.range 5).map (fun i => .arg (m.frameWord ebp (i + 2))) ++ [.newline] = t.out ++
          entry m ebp := by
    simp only [List.append_assoc]
    rfl
  have hreads : t.reads ++ (List.range 5).map (fun i => (ebp, i + 2)) ++ [(ebp, 0)] ++
      [(m.word ebp, 1)] = t.reads ++ passReads m ebp := by
    simp only [List.append_assoc]
    rfl
  rw [backtracePass]
  dsimp only
  rw [printArgs_eq ebp _ 5 le_rfl hmapped, ok_bind, deref_mapped (hmapped 0 (by decide)),
    ok_bind, hword]
  rw [← hout, ← hreads]
  cases hnext : m.mapped (m.word ebp + 4) with
  | true =>
    rw [deref_mapped hnext]
    rfl
  | false =>
    rw [deref_unmapped hnext]
    rfl

/-! ### The loop -/

/-- After the entries of `l`. -/
def Backtrace.through (t : Backtrace) (m : Stack) (l : List Word) : Backtrace :=
  ⟨t.out ++ l.flatMap (entry m), t.reads ++ l.flatMap (passReads m)⟩

/-- How the walk over the frames ends: with a read through the null pointer. -/
def atNull (m : Stack) (t : Backtrace) : Except Backtrace Backtrace :=
  if m.mapped 4 then .ok t else .error t

theorem Frames.eq_zero (h : Frames m ebp []) : ebp = 0 := by
  cases h
  rfl

theorem Frames.eq_head {p : Word} (h : Frames m ebp (p :: l)) : ebp = p ∧ p ≠ 0 := by
  cases h with
  | cons hne _ => exact ⟨rfl, hne⟩

/-- **The loop** prints the frames, and comes to the null pointer. -/
theorem backtraceLoop_frames (h : Frames m ebp l) : ∀ {f : ℕ} (t : Backtrace), FramesMapped m l →
    l ≠ [] → l.length < f →
    backtraceLoop m f ebp (m.frameWord ebp 1) t = some (atNull m (t.through m l)) := by
  induction h with
  | nil => exact fun _ _ hne => absurd rfl hne
  | @cons ebp l hebp hl ih =>
    intro f t hmapped _ hf
    obtain ⟨f, rfl⟩ : ∃ g, f = g + 1 := ⟨f - 1, by omega⟩
    have hthrough : t.through m (ebp :: l) = Backtrace.through ⟨t.out ++ entry m ebp,
        t.reads ++ passReads m ebp⟩ m l := by
      rw [Backtrace.through, Backtrace.through, List.flatMap_cons, List.flatMap_cons,
        List.append_assoc, List.append_assoc]
    rw [backtraceLoop, if_pos hebp, backtracePass_eq (hmapped ebp List.mem_cons_self), hthrough]
    cases l with
    | nil =>
      -- the last frame
      have hthrough' : ∀ t : Backtrace, t.through m [] = t := fun t => by
        rw [Backtrace.through, List.flatMap_nil, List.flatMap_nil, List.append_nil, List.append_nil]
      obtain ⟨g, rfl⟩ : ∃ g, f = g + 1 := ⟨f - 1, by rw [List.length_singleton] at hf; omega⟩
      have hzero : (0 : Word) + 4 = 4 := rfl
      rw [hl.eq_zero, hzero, hthrough', atNull]
      cases m.mapped 4 with
      | true => rfl
      | false => rfl
    | cons p l =>
      have hnext : m.mapped (m.word ebp + 4) = true := by
        rw [hl.eq_head.1]
        exact hmapped p (List.mem_cons_of_mem _ List.mem_cons_self) 1 (by decide)
      rw [if_pos hnext]
      exact ih _ (fun q hq => hmapped q (List.mem_cons_of_mem _ hq)) (List.cons_ne_nil _ _)
        (Nat.lt_of_succ_lt_succ hf)

/-- More passes than are needed do not matter. -/
theorem backtraceLoop_mono {r : Except Backtrace Backtrace} (k : ℕ) :
    ∀ (f : ℕ) (ebp eip : Word) (t : Backtrace),
    backtraceLoop m f ebp eip t = some r → backtraceLoop m (f + k) ebp eip t = some r := by
  intro f
  induction f with
  | zero =>
    intro ebp eip t h
    cases h
  | succ f ih =>
    intro ebp eip t h
    rw [Nat.add_right_comm, backtraceLoop]
    rw [backtraceLoop] at h
    split_ifs at h ⊢ with hebp
    · cases hpass : backtracePass m ebp eip t with
      | error t' =>
        rw [hpass] at h
        exact h
      | ok q =>
        rw [hpass] at h
        exact ih _ _ _ h
    · exact h

/-! ### `mon_backtrace` -/

/-- **What `mon_backtrace` does** on a chain of frames: it prints the entry of every frame, and then
reads through the null pointer, so that it comes back only if there is memory at address 4. -/
theorem monBacktrace_frames (h : Frames m ebp l) (hmapped : FramesMapped m l) (hne : l ≠ [])
    (hf : l.length < f) :
    monBacktrace m f ebp = some
        (atNull m ⟨.header :: l.flatMap (entry m), (ebp, 1) :: l.flatMap (passReads m)⟩) := by
  obtain ⟨p, t, rfl⟩ := List.exists_cons_of_ne_nil hne
  obtain ⟨rfl, -⟩ := h.eq_head
  rw [monBacktrace, deref_mapped (hmapped _ List.mem_cons_self 1 (by decide))]
  exact backtraceLoop_frames h _ hmapped hne hf

/-- The walk that is asked for: `mon_backtrace` comes back, has printed an entry for each frame, in
order, with its return address, and has read nothing but words of the frames. -/
def WalksFrames (m : Stack) (ebp : Word) (l : List Word) : Prop :=
  ∃ f t, monBacktrace m f ebp = some (.ok t) ∧ t.out = .header :: l.flatMap (entry m) ∧
    ∀ r ∈ t.reads, r.1 ∈ l ∧ r.2 < 7

/-- A frame is not at the null pointer. -/
theorem Frames.ne_zero (h : Frames m ebp l) : 0 ∉ l := by
  induction h with
  | nil => exact List.not_mem_nil
  | cons hebp _ ih => exact fun hmem => (List.mem_cons.mp hmem).elim (fun heq => hebp heq.symm) ih

/-- The read through the null pointer is one of those that a pass makes. -/
theorem Frames.null_read (h : Frames m ebp l) (hne : l ≠ []) :
    ((0, 1) : Word × ℕ) ∈ l.flatMap (passReads m) := by
  induction h with
  | nil => exact absurd rfl hne
  | @cons ebp l _ hl ih =>
    rw [List.flatMap_cons, List.mem_append]
    cases l with
    | nil =>
      left
      rw [passReads, hl.eq_zero]
      simp
    | cons p l => exact .inr (ih (List.cons_ne_nil _ _))

theorem monBacktrace_mono {r : Except Backtrace Backtrace} (k : ℕ)
    (h : monBacktrace m f ebp = some r) :
    monBacktrace m (f + k) ebp = some r := by
  rw [monBacktrace] at h ⊢
  cases hread : m.deref ⟨[], []⟩ ebp 1 with
  | error t =>
    rw [hread] at h
    exact h
  | ok q =>
    rw [hread] at h
    exact backtraceLoop_mono k f _ _ _ h

/-- Without a frame, too. -/
theorem monBacktrace_zero (h : monBacktrace m f 0 = some (.ok t)) : t.reads = [(0, 1)] := by
  rw [monBacktrace] at h
  cases hnull : m.mapped 4 with
  | true =>
    rw [deref_mapped hnull] at h
    cases f with
    | zero => cases h
    | succ f =>
      cases h
      rfl
  | false =>
    rw [deref_unmapped hnull] at h
    cases h

/-- **No chain is walked exactly**: `mon_backtrace` reads through the null pointer at the end of
every one. -/
theorem monBacktrace_strays (h : Frames m ebp l) (hmapped : FramesMapped m l) :
    ¬ WalksFrames m ebp l := by
  rintro ⟨f, t, hrun, -, hreads⟩
  suffices hnull : ((0, 1) : Word × ℕ) ∈ t.reads from h.ne_zero (hreads _ hnull).1
  by_cases hne : l = []
  · subst hne
    obtain rfl := h.eq_zero
    rw [monBacktrace_zero hrun]
    exact List.mem_cons_self
  · have hrun' := monBacktrace_mono (l.length + 1) hrun
    rw [monBacktrace_frames h hmapped hne (by omega), atNull] at hrun'
    split_ifs at hrun' with hnull
    · obtain rfl := Except.ok.inj (Option.some.inj hrun')
      exact List.mem_cons_of_mem _ (h.null_read hne)
    · cases hrun'

/-- A stack of two frames, at `0xf0117fb8` and `0xf0117ff8`; the rest of the page is zero, and no
other is mapped. -/
def twoFrames : Stack where
  word a := if a = 0xf0117fb8 then 0xf0117ff8 else if a = 0xf0117fbc then 0xf0100143
    else if a = 0xf0117ffc then 0xf010003e else 0
  mapped a := 0xf0117000 ≤ a ∧ a < 0xf0119000

theorem twoFrames_frames : Frames twoFrames 0xf0117fb8 [0xf0117fb8, 0xf0117ff8] ∧
    FramesMapped twoFrames [0xf0117fb8, 0xf0117ff8] := by
  refine ⟨.cons (by decide) (.cons (by decide) .nil), fun p hp => ?_⟩
  rcases List.mem_cons.mp hp with rfl | hp
  · decide
  · rw [List.mem_singleton.mp hp]
    decide

theorem monBacktrace_strays_twoFrames : ¬ WalksFrames twoFrames 0xf0117fb8
    [0xf0117fb8, 0xf0117ff8] :=
  monBacktrace_strays twoFrames_frames.1 twoFrames_frames.2

/-- One frame, which has a page of its own: the entry is printed, and then there is a page fault at
address 4. -/
def oneFrame : Stack where
  word a := if a = 0xf0117ffc then 0xf010003e else 0
  mapped a := 0xf0117000 ≤ a ∧ a < 0xf0119000

theorem not_walksFrames : Frames oneFrame 0xf0117ff8 [0xf0117ff8] ∧
    FramesMapped oneFrame [0xf0117ff8] ∧
    ¬ WalksFrames oneFrame 0xf0117ff8 [0xf0117ff8] := by
  refine ⟨.cons (by decide) .nil, fun p hp => ?_, ?_⟩
  · rw [List.mem_singleton.mp hp]
    decide
  rintro ⟨f, t, hrun, -, -⟩
  match f with
  | 0 => cases hrun
  | f + 1 => cases hrun

end JOS
