import Mathlib.Data.Option.Basic
import Mathlib.Logic.Function.Basic

/-!
# Places that share pages

Places show pages, and several places may show the same one. When every page that can be written
through a place is shown at no other (`Alone`), the places are memories of their own: a write
through one of them is not seen at the others (`Writes.view_of_not`), and a place that is made to
show what another one shows has a copy of it (`Sets.view_self`), as long as the page cannot be
written through either.

`Effect` is what happens to memories that are not shared at all, and `Effect.act` what they hold
after it. A machine whose places keep showing what such memories hold is the same to its users.
-/

namespace JOS.General

variable {ι π α : Type*}

/-- Places, and the pages they show. -/
structure Sharing (ι π α : Type*) where
  /-- The page at a place. -/
  page : ι → Option π
  /-- The page can be written through the place. -/
  writable : ι → Prop
  /-- What a page holds. -/
  content : π → α

namespace Sharing

variable {s s' : Sharing ι π α} {ex ex' : ι → ι → Prop} {lost W : ι → Prop} {i j : ι} {p : π}
  {x : α} {w : Prop}

/-- What is seen at a place. -/
def view (s : Sharing ι π α) (i : ι) : Option α := (s.page i).map s.content

/-- A page that can be written through a place is shown at no other, but for the pairs of places in
`ex`. -/
def Alone (ex : ι → ι → Prop) (s : Sharing ι π α) : Prop :=
  ∀ i j p, s.writable i → s.page i = some p → s.page j = some p → j = i ∨ ex i j

theorem Alone.mono (h : s.Alone ex) (hex : ∀ i j, ex i j → ex' i j) : s.Alone ex' :=
  fun i j p hw hi hj =>
  (h i j p hw hi hj).imp_right (hex i j)

/-- Pages are not exchanged, and what is shown is not written. -/
theorem view_congr (hpage : s'.page i = s.page i)
    (hcontent : ∀ p, s.page i = some p → s'.content p = s.content p) :
    s'.view i = s.view i := by
  rw [view, view, hpage]
  cases hp : s.page i with
  | none => rfl
  | some p => exact congrArg some (hcontent p hp)

/-! ### Writes -/

/-- The pages at the places of `W` are written. -/
structure Writes (s : Sharing ι π α) (W : ι → Prop) (s' : Sharing ι π α) : Prop where
  page : s'.page = s.page
  writable : ∀ j, s'.writable j → s.writable j
  content : ∀ j p, s.page j = some p → (∀ i, W i → s.page i ≠ some p) → s'.content p = s.content p

namespace Writes

/-- **A write is not seen elsewhere.** -/
theorem view_of_not (h : s.Writes W s') (ha : s.Alone ex) (hw : ∀ i, W i → s.writable i)
    (hj : ∀ i, W i → j ≠ i ∧ ¬ ex i j) :
    s'.view j = s.view j := by
  refine view_congr (congrFun h.page j) fun p hp => h.content j p hp fun i hi hpi => ?_
  exact (ha i j p (hw i hi) hpi hp).elim (hj i hi).1 (hj i hi).2

/-- **A write is seen** at the places that show the page. -/
theorem view_of_shown {f : α → α} (h : s.Writes W s') (hp : s.page i = some p)
    (hf : s'.content p = f (s.content p)) :
    s'.view i = (s.view i).map f := by
  rw [view, view, h.page, hp]
  exact congrArg some hf

theorem alone (h : s.Writes W s') (ha : s.Alone ex) : s'.Alone ex := by
  intro a b p hw hpa hpb
  rw [h.page] at hpa hpb
  exact ha a b p (h.writable a hw) hpa hpb

end Writes

/-! ### Another page -/

/-- Place `i` now shows page `p`, which can be written through it if `w`. -/
structure Sets (s : Sharing ι π α) (i : ι) (p : π) (w : Prop) (s' : Sharing ι π α) : Prop where
  self : s'.page i = some p
  writes : s'.writable i → w
  page : ∀ j, j ≠ i → s'.page j = s.page j
  writable : ∀ j, j ≠ i → s'.writable j → s.writable j
  content : ∀ j q, s.page j = some q → s'.content q = s.content q

namespace Sets

theorem view_of_ne (h : s.Sets i p w s') (hj : j ≠ i) : s'.view j = s.view j :=
  view_congr (h.page j hj) (h.content j)

/-- **A copy**: what is seen is what is seen where the page was shown before. -/
theorem view_self (h : s.Sets i p w s') (hj : s.page j = some p) : s'.view i = s.view j := by
  rw [view, view, h.self, hj]
  exact congrArg some (h.content j p hj)

/-- The places that can write `p`, and the places that show it, are the ones to look at. -/
theorem alone (h : s.Sets i p w s') (ha : s.Alone ex)
    (hex : ∀ a b, a ≠ i → b ≠ i → ex a b → ex' a b)
    (hothers : ∀ a, a ≠ i → s.writable a → s.page a = some p → ex' a i)
    (hself : w → ∀ b, b ≠ i → s.page b = some p → ex' i b) : s'.Alone ex' := by
  intro a b q hw hpa hpb
  by_cases hai : a = i
  · subst hai
    by_cases hbi : b = a
    · exact .inl hbi
    · rw [h.self] at hpa
      rw [h.page b hbi] at hpb
      cases hpa
      exact .inr (hself (h.writes hw) b hbi hpb)
  · rw [h.page a hai] at hpa
    have hw := h.writable a hai hw
    by_cases hbi : b = i
    · subst hbi
      rw [h.self] at hpb
      cases hpb
      exact .inr (hothers a hai hw hpa)
    · rw [h.page b hbi] at hpb
      exact (ha a b q hw hpa hpb).imp_right (hex a b hai hbi)

end Sets

/-! ### Less pages -/

/-- The places in `lost` show nothing any more, and the others show what they did. -/
structure Loses (s : Sharing ι π α) (lost : ι → Prop) (s' : Sharing ι π α) : Prop where
  gone : ∀ j, lost j → s'.page j = none
  page : ∀ j, ¬ lost j → s'.page j = s.page j
  writable : ∀ j, ¬ lost j → s'.writable j → s.writable j
  content : ∀ j q, s.page j = some q → s'.content q = s.content q

namespace Loses

theorem view_of_lost (h : s.Loses lost s') (hj : lost j) : s'.view j = none := by
  rw [view, h.gone j hj]
  rfl

theorem view_of_not (h : s.Loses lost s') (hj : ¬ lost j) : s'.view j = s.view j :=
  view_congr (h.page j hj) (h.content j)

theorem alone (h : s.Loses lost s') (ha : s.Alone ex)
    (hex : ∀ a b, ¬ lost a → ¬ lost b → ex a b → ex' a b) : s'.Alone ex' := by
  intro a b p hw hpa hpb
  have hshown : ∀ c, s'.page c = some p → ¬ lost c := by
    intro c hc hl
    rw [h.gone c hl] at hc
    cases hc
  have hla := hshown a hpa
  have hlb := hshown b hpb
  rw [h.page a hla] at hpa
  rw [h.page b hlb] at hpb
  exact (ha a b p (h.writable a hla hw) hpa hpb).imp_right (hex a b hla hlb)

end Loses

end Sharing

/-! ### Memories of their own -/

/-- What happens to memories. -/
inductive Effect (ι α : Type*) where
  /-- Nothing. -/
  | none
  /-- The memories in `W` are written. -/
  | write (W : ι → Prop) (f : α → α)
  /-- The memory at `j` becomes a copy of the one at `i`. -/
  | copy (i j : ι)
  /-- Memories disappear. -/
  | drop (lost : ι → Prop)

namespace Effect

open Classical in
/-- What the memories hold after it. -/
noncomputable def act (M : ι → Option α) : Effect ι α → ι → Option α
  | .none => M
  | .write W f => fun k => if W k then (M k).map f else M k
  | .copy i j => fun k => if k = j then M i else M k
  | .drop lost => fun k => if lost k then Option.none else M k

variable {M M' : ι → Option α} {i j k : ι} {f : α → α} {P W lost : ι → Prop}

@[simp] theorem act_none : (none : Effect ι α).act M = M := rfl

theorem act_write (hk : W k) : (write W f).act M k = (M k).map f := if_pos hk

theorem act_write_of_not (hk : ¬ W k) : (write W f).act M k = M k := if_neg hk

theorem act_copy_self : (copy i j : Effect ι α).act M j = M i := if_pos rfl

theorem act_copy_of_ne (hk : k ≠ j) : (copy i j : Effect ι α).act M k = M k := if_neg hk

theorem act_drop_of_lost (hk : lost k) : (drop lost : Effect ι α).act M k = Option.none := if_pos hk

theorem act_drop_of_not (hk : ¬ lost k) : (drop lost : Effect ι α).act M k = M k := if_neg hk

/-- The effect copies what is in `P` only. -/
def CopiesFrom (P : ι → Prop) (x : Effect ι α) : Prop := ∀ i j, x = copy i j → P i

/-- Memories that agree on `P` agree there after an effect. -/
theorem act_congr {x : Effect ι α} (h : ∀ i, P i → M i = M' i) (hx : x.CopiesFrom P) (hk : P k) :
    x.act M k = x.act M' k := by
  cases x with
  | none => exact h k hk
  | write W f =>
    by_cases hW : W k
    · rw [act_write hW, act_write hW, h k hk]
    · rw [act_write_of_not hW, act_write_of_not hW, h k hk]
  | copy i j =>
    by_cases hj : k = j
    · subst hj
      rw [act_copy_self, act_copy_self, h i (hx i k rfl)]
    · rw [act_copy_of_ne hj, act_copy_of_ne hj, h k hk]
  | drop lost =>
    by_cases hl : lost k
    · rw [act_drop_of_lost hl, act_drop_of_lost hl]
    · rw [act_drop_of_not hl, act_drop_of_not hl, h k hk]

end Effect

end JOS.General
