import Mathlib.Data.List.Infix

/-!
# A rendezvous

A receiver calls, a sender answers the call with a message, and the receiver resumes
from it. The history of one receiver is a list of signals, the latest first, and
`phase` reads it: it is `none` for a history that breaks the protocol, by a send without
a call that waits for it, a second send, or a call that is resumed before it is
answered.

In a history with a phase every call is followed by a send or by the end of the
receiver, and every send answers a call and is followed by the return of that call or by
the end of the receiver (`once_of_phase`). What a call saved is of type `γ`, a message of
type `μ`.
-/

namespace JOS.General

/-- What happens to a receiver. -/
inductive Signal (γ μ : Type*) where
  /-- It calls, and saves `g`. -/
  | call (g : γ)
  /-- It is sent `m`. -/
  | send (m : μ)
  /-- It goes on. -/
  | resume
  /-- It ends. -/
  | stop
  /-- It begins. -/
  | make

/-- Where a receiver is in the protocol. -/
inductive Phase (γ μ : Type*) where
  /-- Outside of a call, and no call has returned. -/
  | out
  /-- In a call that waits for a message. -/
  | waiting (g : γ)
  /-- In a call that is answered. -/
  | sent (g : γ) (m : μ)
  /-- Its last call has returned. -/
  | back (g : γ) (m : μ)

variable {γ μ : Type*} {g : γ} {m : μ} {x : Signal γ μ} {h new old : List (Signal γ μ)}
  {ph : Phase γ μ}

/-- The protocol; `none` is a breach of it. -/
def Phase.next (x : Signal γ μ) : Phase γ μ → Option (Phase γ μ)
  | .out =>
    match x with
    | .call g => some (.waiting g)
    | .send _ => none
    | _ => some .out
  | .waiting g =>
    match x with
    | .send m => some (.sent g m)
    | .stop => some .out
    | _ => none
  | .sent g m =>
    match x with
    | .resume => some (.back g m)
    | .stop => some .out
    | _ => none
  | .back g m =>
    match x with
    | .call g => some (.waiting g)
    | .resume => some (.back g m)
    | .send _ => none
    | _ => some .out

/-- The phase a history leads to. -/
def phase : List (Signal γ μ) → Option (Phase γ μ)
  | [] => some .out
  | x :: h => (phase h).bind (Phase.next x)

theorem phase_cons_of_some (hp : phase h = some ph) : phase (x :: h) = ph.next x := by
  rw [phase, hp, Option.bind_some]

/-- What leads to a phase has one before its last signal. -/
theorem phase_of_cons (hp : phase (x :: h) ≠ none) : ∃ ph, phase h = some ph ∧
    ph.next x ≠ none := by
  rw [phase] at hp
  cases hph : phase h with
  | none => simp [hph] at hp
  | some ph =>
    rw [hph, Option.bind_some] at hp
    exact ⟨ph, rfl, hp⟩

theorem phase_of_append (hp : phase (new ++ old) ≠ none) : phase old ≠ none := by
  induction new with
  | nil => exact hp
  | cons x new ih =>
    rw [List.cons_append] at hp
    obtain ⟨ph, hph, -⟩ := phase_of_cons hp
    refine ih ?_
    rw [hph]
    exact Option.some_ne_none ph

/-- After a call the receiver waits. -/
theorem phase_call (hp : phase (.call g :: h) ≠ none) :
    phase (.call g :: h) = some (.waiting g) := by
  obtain ⟨ph, hph, hnext⟩ := phase_of_cons hp
  rw [phase_cons_of_some hph]
  cases ph with
  | out => rfl
  | back g' m => rfl
  | waiting g' => exact absurd rfl hnext
  | sent g' m => exact absurd rfl hnext

/-- A receiver waits in the call that was the last thing to happen to it. -/
theorem of_phase_waiting (hp : phase h = some (.waiting g)) : ∃ old, h = .call g :: old := by
  cases h with
  | nil => cases hp
  | cons x old =>
    obtain ⟨ph, hph, -⟩ := phase_of_cons (x := x) (h := old)
      (by rw [hp]; exact Option.some_ne_none _)
    rw [phase_cons_of_some hph] at hp
    cases ph <;> cases x <;> simp only [Phase.next, Option.some.injEq, reduceCtorEq,
      Phase.waiting.injEq] at hp
    · exact ⟨old, by rw [hp]⟩
    · exact ⟨old, by rw [hp]⟩

/-- After a send the call that waited is answered. -/
theorem phase_send (hp : phase (.send m :: h) ≠ none) :
    ∃ g old, h = .call g :: old ∧ phase (.send m :: h) = some (.sent g m) := by
  obtain ⟨ph, hph, hnext⟩ := phase_of_cons hp
  cases ph with
  | waiting g =>
    obtain ⟨old, rfl⟩ := of_phase_waiting hph
    exact ⟨g, old, rfl, phase_cons_of_some hph⟩
  | out => exact absurd rfl hnext
  | back g' m => exact absurd rfl hnext
  | sent g' m => exact absurd rfl hnext

/-- A message stays the last one while the receiver goes on. -/
theorem phase_resumes (hp : phase (new ++ .send m :: old) ≠ none) (hnew : ∀ x ∈ new, x = .resume) :
    ∃ g, phase (new ++ .send m :: old) = some (.sent g m) ∨
        phase (new ++ .send m :: old) = some (.back g m) := by
  induction new with
  | nil =>
    obtain ⟨g, -, -, hph⟩ := phase_send hp
    exact ⟨g, .inl hph⟩
  | cons x new ih =>
    rw [List.cons_append] at hp ⊢
    obtain ⟨ph, hph, -⟩ := phase_of_cons hp
    obtain ⟨g, hg⟩ := ih (by rw [hph]; exact Option.some_ne_none ph) fun y hy =>
      hnew y (List.mem_cons_of_mem _ hy)
    have hx : x = .resume := hnew x List.mem_cons_self
    subst hx
    refine ⟨g, .inr ?_⟩
    rcases hg with hg | hg <;> exact phase_cons_of_some hg

/-- What the protocol promises of a history. -/
structure Once (h : List (Signal γ μ)) : Prop where
  /-- After a call comes a send, or the end of the receiver. -/
  call : ∀ x g old, x :: .call g :: old <:+ h → x = .stop ∨ ∃ m, x = .send m
  /-- A send answers a call. -/
  send : ∀ m old, .send m :: old <:+ h → ∃ g old', old = .call g :: old'
  /-- After a send comes the return of the call, or the end of the receiver. -/
  back : ∀ x m old, x :: .send m :: old <:+ h → x = .resume ∨ x = .stop

/-- **The protocol is exactly once.** -/
theorem once_of_phase (hp : phase h ≠ none) : Once h := by
  have hsuffix : ∀ {l}, l <:+ h → phase l ≠ none := by
    rintro l ⟨new, rfl⟩
    exact phase_of_append hp
  refine ⟨fun x g old hl => ?_, fun m old hl => ?_, fun x m old hl => ?_⟩
  · obtain ⟨ph, hph, hnext⟩ := phase_of_cons (hsuffix hl)
    rw [phase_call (by rw [hph]; exact Option.some_ne_none ph)] at hph
    cases hph
    cases x with
    | send m => exact .inr ⟨m, rfl⟩
    | stop => exact .inl rfl
    | call g => exact absurd rfl hnext
    | resume => exact absurd rfl hnext
    | make => exact absurd rfl hnext
  · obtain ⟨g, old', hold, -⟩ := phase_send (hsuffix hl)
    exact ⟨g, old', hold⟩
  · obtain ⟨ph, hph, hnext⟩ := phase_of_cons (hsuffix hl)
    obtain ⟨g, old', -, hsent⟩ :=
      phase_send (m := m) (h := old) (by rw [hph]; exact Option.some_ne_none ph)
    rw [hsent] at hph
    cases hph
    cases x with
    | resume => exact .inl rfl
    | stop => exact .inr rfl
    | call g => exact absurd rfl hnext
    | send m => exact absurd rfl hnext
    | make => exact absurd rfl hnext

end JOS.General
