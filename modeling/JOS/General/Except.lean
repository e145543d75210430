import Mathlib.Data.Nat.Notation
import Mathlib.Logic.Function.Basic

/-!
# Computations that may fail

What a successful run of a computation in `Except` says about its parts: a sequence
succeeds when both parts do (`bind_eq_ok`), and a loop over a list keeps what every
pass keeps (`foldlM_invariant`).
-/

namespace JOS.General

universe u v

variable {ε : Type u} {α β : Type v}

/-- A sequence succeeds when its parts do. -/
theorem bind_eq_ok {x : Except ε α} {f : α → Except ε β} {b : β} :
    x >>= f = .ok b ↔ ∃ a, x = .ok a ∧ f a = .ok b := by
  cases x with
  | error e => simp [bind, Except.bind]
  | ok a => simp [bind, Except.bind]

/-- A sequence fails when its first part does, or the second. -/
theorem bind_eq_error {x : Except ε α} {f : α → Except ε β} {e : ε} :
    x >>= f = .error e ↔ x = .error e ∨ ∃ a, x = .ok a ∧ f a = .error e := by
  cases x with
  | error e' => simp [bind, Except.bind]
  | ok a => simp [bind, Except.bind]

/-- Running the second part after a first that succeeds. -/
@[simp] theorem ok_bind (a : α) (f : α → Except ε β) : (Except.ok a : Except ε α) >>= f = f a := rfl

@[simp] theorem error_bind (e : ε) (f : α → Except ε β) :
    (Except.error e : Except ε α) >>= f = .error e := rfl

@[simp] theorem pure_eq_ok (a : α) : (pure a : Except ε α) = .ok a := rfl

/-- **The loop rule**: what every pass keeps, the loop keeps. -/
theorem foldlM_invariant {f : β → α → Except ε β} {I : β → Prop} {l : List α} {b b' : β}
    (h : l.foldlM f b = .ok b') (h₀ : I b)
    (hstep : ∀ b b', ∀ a ∈ l, I b → f b a = .ok b' → I b') : I b' := by
  induction l generalizing b with
  | nil =>
    simp only [List.foldlM_nil, pure_eq_ok, Except.ok.injEq] at h
    exact h ▸ h₀
  | cons a l ih =>
    obtain ⟨c, hc, h⟩ := bind_eq_ok.mp h
    exact ih h (hstep _ _ a List.mem_cons_self h₀ hc) fun b b' x hx =>
      hstep b b' x (List.mem_cons_of_mem _ hx)

/-- **The loop rule** for what each pass establishes of its element, and keeps of all others. -/
theorem foldlM_forall {f : β → α → Except ε β} {I : β → Prop} {P : α → β → Prop}
    {l : List α} {b b' : β}
    (h : l.foldlM f b = .ok b') (h₀ : I b)
    (hstep : ∀ b b', ∀ a ∈ l, I b → f b a = .ok b' → I b' ∧ P a b' ∧ ∀ c, P c b → P c b') :
    I b' ∧ (∀ c, P c b → P c b') ∧ ∀ a ∈ l, P a b' := by
  induction l generalizing b with
  | nil =>
    simp only [List.foldlM_nil, pure_eq_ok, Except.ok.injEq] at h
    subst h
    exact ⟨h₀, fun _ h => h, fun a ha => absurd ha List.not_mem_nil⟩
  | cons a l ih =>
    obtain ⟨b₁, hb₁, h⟩ := bind_eq_ok.mp h
    obtain ⟨hI, ha, hkeep⟩ := hstep b b₁ a List.mem_cons_self h₀ hb₁
    obtain ⟨hI', hkeep', hl⟩ := ih h hI fun b b' x hx => hstep b b' x (List.mem_cons_of_mem _ hx)
    refine ⟨hI', fun c hc => hkeep' c (hkeep c hc), fun x hx => ?_⟩
    rcases List.mem_cons.mp hx with rfl | hx
    · exact hkeep' x ha
    · exact hl x hx

/-- **The loop rule** for loops that succeed: every pass keeps the invariant and does not fail, and
what it establishes of its element later passes keep. -/
theorem foldlM_total {f : β → α → Except ε β} {I : β → Prop} {P : α → β → Prop} {l : List α}
    {b : β} (h₀ : I b)
    (hstep : ∀ b, ∀ a ∈ l, I b → ∃ b', f b a = .ok b' ∧ I b' ∧ P a b' ∧ ∀ c, P c b → P c b') :
    ∃ b', l.foldlM f b = .ok b' ∧ I b' ∧ (∀ c, P c b → P c b') ∧ ∀ a ∈ l, P a b' := by
  induction l generalizing b with
  | nil => exact ⟨b, rfl, h₀, fun _ h => h, fun a ha => absurd ha List.not_mem_nil⟩
  | cons a l ih =>
    obtain ⟨b₁, hb₁, hI, ha, hkeep⟩ := hstep b a List.mem_cons_self h₀
    obtain ⟨b', hb', hI', hkeep', hl⟩ := ih hI fun b x hx => hstep b x (List.mem_cons_of_mem _ hx)
    refine ⟨b', bind_eq_ok.mpr ⟨b₁, hb₁, hb'⟩, hI', fun c hc => hkeep' c (hkeep c hc),
      fun x hx => ?_⟩
    rcases List.mem_cons.mp hx with rfl | hx
    · exact hkeep' x ha
    · exact hl x hx

/-- The same rule when nothing is said of the elements. -/
theorem foldlM_ok {f : β → α → Except ε β} {I : β → Prop} {l : List α} {b : β} (h₀ : I b)
    (hstep : ∀ b, ∀ a ∈ l, I b → ∃ b', f b a = .ok b' ∧ I b') : ∃ b',
    l.foldlM f b = .ok b' ∧ I b' := by
  have hstep' : ∀ b, ∀ a ∈ l, I b → ∃ b', f b a = .ok b' ∧ I b' ∧ True ∧ ∀ _ : α, True → True := by
    intro b a ha hb
    obtain ⟨b', hb', hI⟩ := hstep b a ha hb
    exact ⟨b', hb', hI, trivial, fun _ h => h⟩
  obtain ⟨b', hb', hI, -⟩ := foldlM_total (P := fun _ _ => True) h₀ hstep'
  exact ⟨b', hb', hI⟩

theorem foldlM_range_succ {f : β → ℕ → Except ε β} {b : β} (n : ℕ) :
    (List.range (n + 1)).foldlM f b = (List.range n).foldlM f b >>= fun b => f b n := by
  rw [List.range_succ, List.foldlM_append]
  congr 1
  funext b'
  rw [List.foldlM_cons]
  cases f b' n <;> rfl

/-- **The loop rule** for counting loops, with an invariant of the number of passes. -/
theorem foldlM_range {f : β → ℕ → Except ε β} {I : ℕ → β → Prop} {n : ℕ} {b b' : β}
    (h : (List.range n).foldlM f b = .ok b') (h₀ : I 0 b)
    (hstep : ∀ k < n, ∀ b b', I k b → f b k = .ok b' → I (k + 1) b') : I n b' := by
  induction n generalizing b' with
  | zero =>
    cases h
    exact h₀
  | succ n ih =>
    rw [foldlM_range_succ] at h
    obtain ⟨c, hc, h⟩ := bind_eq_ok.mp h
    exact hstep n (Nat.lt_succ_self n) c b' (ih hc fun k hk => hstep k (Nat.lt_succ_of_lt hk)) h

/-- The same rule for loops whose passes do not fail. -/
theorem foldlM_range_total {f : β → ℕ → Except ε β} {I : ℕ → β → Prop} {n : ℕ} {b : β} (h₀ : I 0 b)
    (hstep : ∀ k < n, ∀ b, I k b → ∃ b', f b k = .ok b' ∧ I (k + 1) b') :
    ∃ b', (List.range n).foldlM f b = .ok b' ∧ I n b' := by
  induction n with
  | zero => exact ⟨b, rfl, h₀⟩
  | succ n ih =>
    obtain ⟨c, hc, hI⟩ := ih fun k hk => hstep k (Nat.lt_succ_of_lt hk)
    obtain ⟨b', hb', hI'⟩ := hstep n (Nat.lt_succ_self n) c hI
    exact ⟨b', by rw [foldlM_range_succ, hc]; exact hb', hI'⟩

end JOS.General
