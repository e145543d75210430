import Mathlib.Logic.Relation

/-!
# Runs of a machine

A machine is a step function that may refuse an event. `Reach step ok s s'` says that
events lead from `s` to `s'`, each of them meeting the guard `ok` in the state it
happens in. An invariant is proved once for the start and once for a step
(`Reach.invariant`); a fact about two states of one run is proved the same way from
its first state (`Reach.invariant` again), since the rest of a run is a run.
-/

namespace JOS.General

variable {σ ε : Type*}

/-- `s'` can be reached from `s` by events that meet `ok` when they happen. -/
def Reach (step : σ → ε → Option σ) (ok : σ → ε → Prop) : σ → σ → Prop :=
  Relation.ReflTransGen fun s s' => ∃ e, ok s e ∧ step s e = some s'

variable {step : σ → ε → Option σ} {ok ok' : σ → ε → Prop} {s s' s'' : σ}

namespace Reach

theorem refl (s : σ) : Reach step ok s s := Relation.ReflTransGen.refl

theorem tail (h : Reach step ok s s') {e : ε} (he : ok s' e) (hs : step s' e = some s'') :
    Reach step ok s s'' := Relation.ReflTransGen.tail h ⟨e, he, hs⟩

theorem trans (h : Reach step ok s s') (h' : Reach step ok s' s'') : Reach step ok s s'' :=
  Relation.ReflTransGen.trans h h'

theorem single {e : ε} (he : ok s e) (hs : step s e = some s') : Reach step ok s s' :=
  (refl s).tail he hs

/-- **The invariant rule**: what holds at the start and is kept by every step that meets the guard
holds of every state reached. -/
theorem invariant {I : σ → Prop} (h : Reach step ok s s') (h₀ : I s)
    (hstep : ∀ t t' e, I t → ok t e → step t e = some t' → I t') : I s' := by
  induction h with
  | refl => exact h₀
  | tail _ hs ih =>
    obtain ⟨e, he, hs⟩ := hs
    exact hstep _ _ e ih he hs

/-- A weaker guard admits the run. -/
theorem mono (h : Reach step ok s s') (himp : ∀ t e, ok t e → ok' t e) : Reach step ok' s s' := by
  induction h with
  | refl => exact refl s
  | tail _ hs ih =>
    obtain ⟨e, he, hs⟩ := hs
    exact ih.tail (himp _ e he) hs

/-- A guard that an invariant of the run makes stronger. -/
theorem mono_of_invariant {I : σ → Prop} (h : Reach step ok s s') (h₀ : I s)
    (hstep : ∀ t t' e, I t → ok t e → step t e = some t' → I t')
    (himp : ∀ t e, I t → ok t e → ok' t e) : I s' ∧ Reach step ok' s s' := by
  refine h.invariant (I := fun t => I t ∧ Reach step ok' s t) ⟨h₀, refl s⟩ ?_
  rintro t t' e ⟨ht, hreach⟩ hok hs
  exact ⟨hstep t t' e ht hok hs, hreach.tail (himp t e ht hok) hs⟩

/-- A list of events that the machine accepts is a run, when each of them meets the guard. -/
theorem of_foldlM {es : List ε} (h : es.foldlM step s = some s') (hok : ∀ t, ∀ e ∈ es, ok t e) :
    Reach step ok s s' := by
  induction es generalizing s with
  | nil =>
    simp only [List.foldlM_nil, Option.pure_def, Option.some.injEq] at h
    exact h ▸ refl s
  | cons e es ih =>
    simp only [List.foldlM_cons, Option.bind_eq_bind, Option.bind_eq_some_iff] at h
    obtain ⟨t, ht, h⟩ := h
    exact (single (hok s e List.mem_cons_self) ht).trans
      (ih h fun t e he => hok t e (List.mem_cons_of_mem _ he))

/-- A list of events that the machine accepts is a run, when each of them meets the guard in the
state it happens in. -/
theorem of_guarded {check : σ → ε → Bool} {es : List ε}
    (h : es.foldlM (fun t e => if check t e then step t e else none) s = some s')
    (hok : ∀ t e, check t e = true → ok t e) : Reach step ok s s' := by
  induction es generalizing s with
  | nil =>
    simp only [List.foldlM_nil, Option.pure_def, Option.some.injEq] at h
    exact h ▸ refl s
  | cons e es ih =>
    simp only [List.foldlM_cons, Option.bind_eq_bind, Option.bind_eq_some_iff] at h
    obtain ⟨t, ht, h⟩ := h
    by_cases hcheck : check s e = true
    · rw [if_pos hcheck] at ht
      exact (single (hok s e hcheck) ht).trans (ih h)
    · rw [if_neg hcheck] at ht
      cases ht

end Reach

/-! ### Runs with their states -/

/-- A run, with the state each of its events happens in. -/
inductive Trace (step : σ → ε → Option σ) : σ → List (σ × ε) → σ → Prop where
  /-- Nothing happens. -/
  | nil {s : σ} : Trace step s [] s
  /-- One event, and then the rest. -/
  | cons {s s' s'' : σ} {e : ε} {l : List (σ × ε)} : step s e = some s' → Trace step s' l s'' →
    Trace step s ((s, e) :: l) s''

/-- **The invariant rule** for a run with its states: the step lemma may use what is known of the
states and events of this run. -/
theorem Trace.invariant {I : σ → Prop} {l : List (σ × ε)} (h : Trace step s l s') (h₀ : I s)
    (hstep : ∀ t e t', (t, e) ∈ l → I t → step t e = some t' → I t') : I s' := by
  induction h with
  | nil => exact h₀
  | cons hs _ ih =>
    exact ih (hstep _ _ _ List.mem_cons_self h₀ hs) fun t e t' hmem =>
      hstep t e t' (List.mem_cons_of_mem _ hmem)

/-- It holds of the states on the way, too. -/
theorem Trace.invariant_mem {I : σ → Prop} {l : List (σ × ε)} (h : Trace step s l s') (h₀ : I s)
    (hstep : ∀ t e t', (t, e) ∈ l → I t → step t e = some t' → I t') {t : σ} {e : ε}
    (hmem : (t, e) ∈ l) : I t := by
  induction h with
  | nil => exact absurd hmem List.not_mem_nil
  | cons hs _ ih =>
    rcases List.mem_cons.mp hmem with heq | hmem
    · cases heq
      exact h₀
    · exact ih (hstep _ _ _ List.mem_cons_self h₀ hs)
        (fun t e t' hmem => hstep t e t' (List.mem_cons_of_mem _ hmem)) hmem

/-- The state an event of the run leads to is the state of another event, or the last one. -/
theorem Trace.next {l : List (σ × ε)} {t t' : σ} {e : ε} (h : Trace step s l s') (hmem : (t, e) ∈ l)
    (ht : step t e = some t') :
    t' ∈ l.map Prod.fst ∨ t' = s' := by
  induction h with
  | nil => exact absurd hmem List.not_mem_nil
  | cons hs hrest ih =>
    rcases List.mem_cons.mp hmem with heq | hmem
    · cases heq
      rw [hs] at ht
      cases ht
      cases hrest with
      | nil => exact .inr rfl
      | cons _ _ => exact .inl (List.mem_cons_of_mem _ List.mem_cons_self)
    · exact (ih hmem).imp_left fun h => List.mem_cons_of_mem _ h

/-- A list of events that the machine accepts has such a run. -/
theorem Trace.of_guarded {check : σ → ε → Bool} {es : List ε}
    (h : es.foldlM (fun t e => if check t e then step t e else none) s = some s') :
    ∃ l, Trace step s l s' ∧ (∀ t e, (t, e) ∈ l → check t e = true) ∧ l.map Prod.snd = es := by
  induction es generalizing s with
  | nil =>
    simp only [List.foldlM_nil, Option.pure_def, Option.some.injEq] at h
    exact ⟨[], h ▸ .nil, fun t e hmem => absurd hmem List.not_mem_nil, rfl⟩
  | cons e es ih =>
    simp only [List.foldlM_cons, Option.bind_eq_bind, Option.bind_eq_some_iff] at h
    obtain ⟨t, ht, h⟩ := h
    by_cases hcheck : check s e = true
    · rw [if_pos hcheck] at ht
      obtain ⟨l, hl, hall, rfl⟩ := ih h
      refine ⟨(s, e) :: l, .cons ht hl, fun t' e' hmem => ?_, rfl⟩
      rcases List.mem_cons.mp hmem with heq | hmem
      · cases heq
        exact hcheck
      · exact hall t' e' hmem
    · rw [if_neg hcheck] at ht
      cases ht

end JOS.General
