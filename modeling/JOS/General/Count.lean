import Mathlib.Data.Finset.Card
import Mathlib.Data.Finset.Prod

/-!
# Counting when one point changes

Reference counts are cardinalities of finite sets of references. An operation that
touches one reference changes such a cardinality by at most one; the lemmas here say
by exactly how much, for two predicates that agree except at one point.
-/

namespace JOS.General

variable {ι : Type*} [DecidableEq ι] {s : Finset ι} {P Q : ι → Prop} [DecidablePred P]
  [DecidablePred Q] {i : ι}

private theorem filter_erase_congr (h : ∀ j ∈ s, j ≠ i → (P j ↔ Q j)) :
    (s.filter P).erase i = (s.filter Q).erase i := by
  ext j
  simp only [Finset.mem_erase, Finset.mem_filter]
  constructor
  · rintro ⟨hj, hs, hp⟩
    exact ⟨hj, hs, (h j hs hj).mp hp⟩
  · rintro ⟨hj, hs, hq⟩
    exact ⟨hj, hs, (h j hs hj).mpr hq⟩

/-- A point that starts to satisfy the predicate adds one. -/
theorem card_filter_gain (h : ∀ j ∈ s, j ≠ i → (P j ↔ Q j)) (hi : i ∈ s) (hp : ¬ P i) (hq : Q i) :
    (s.filter Q).card = (s.filter P).card + 1 := by
  have hmem : i ∈ s.filter Q := Finset.mem_filter.mpr ⟨hi, hq⟩
  have hnot : i ∉ s.filter P := fun hm => hp (Finset.mem_filter.mp hm).2
  rw [← Finset.card_erase_add_one hmem, ← filter_erase_congr h, Finset.erase_eq_of_notMem hnot]

/-- A point that stops satisfying the predicate takes one away. -/
theorem card_filter_lose (h : ∀ j ∈ s, j ≠ i → (P j ↔ Q j)) (hi : i ∈ s) (hp : P i) (hq : ¬ Q i) :
    (s.filter P).card = (s.filter Q).card + 1 :=
  card_filter_gain (fun j hs hj => (h j hs hj).symm) hi hq hp

/-- A point whose truth value stays changes nothing. -/
theorem card_filter_same (h : ∀ j ∈ s, j ≠ i → (P j ↔ Q j)) (hi : i ∈ s → (P i ↔ Q i)) :
    (s.filter P).card = (s.filter Q).card := by
  congr 1
  refine Finset.filter_congr fun j hs => ?_
  by_cases hj : j = i
  · subst hj; exact hi hs
  · exact h j hs hj

omit [DecidableEq ι] in
/-- A point that satisfies the predicate is counted. -/
theorem card_filter_pos (hi : i ∈ s) (hp : P i) : 0 < (s.filter P).card :=
  Finset.card_pos.mpr ⟨i, Finset.mem_filter.mpr ⟨hi, hp⟩⟩

omit [DecidableEq ι] in
theorem card_filter_eq_zero (h : ∀ j ∈ s, ¬ P j) : (s.filter P).card = 0 := by
  rw [Finset.card_eq_zero, Finset.filter_eq_empty_iff]
  exact fun j hs => h j hs

omit [DecidableEq ι] in
/-- When exactly one point satisfies the predicate. -/
theorem card_filter_eq_one (hi : i ∈ s) (hp : P i) (h : ∀ j ∈ s, P j → j = i) :
    (s.filter P).card = 1 := by
  rw [Finset.card_eq_one]
  refine ⟨i, Finset.ext fun j => ?_⟩
  simp only [Finset.mem_filter, Finset.mem_singleton]
  exact ⟨fun ⟨hs, hj⟩ => h j hs hj, fun hj => hj ▸ ⟨hi, hp⟩⟩

/-- When the points are listed with what they point to: as many as the list has of `p`. -/
theorem card_filter_listed {R : ι → ℕ → Prop} [∀ p, DecidablePred (R · p)] {l : List (ι × ℕ)}
    (hl : l.Nodup)
    (h : ∀ j q, j ∈ s ∧ R j q ↔ (j, q) ∈ l) (p : ℕ) :
    (s.filter (R · p)).card = (l.map Prod.snd).count p := by
  have hnodup : ((l.filter (·.2 = p)).map Prod.fst).Nodup := by
    refine List.Nodup.map_on (fun x hx y hy hxy => ?_) (hl.filter _)
    have hsnd := of_decide_eq_true (List.mem_filter.mp hx).2
    have hsnd' := of_decide_eq_true (List.mem_filter.mp hy).2
    exact Prod.ext hxy (hsnd.trans hsnd'.symm)
  have hset : s.filter (R · p) = ((l.filter (·.2 = p)).map Prod.fst).toFinset := by
    ext j
    rw [Finset.mem_filter, h, List.mem_toFinset, List.mem_map]
    constructor
    · exact fun hj => ⟨(j, p), List.mem_filter.mpr ⟨hj, decide_eq_true rfl⟩, rfl⟩
    · rintro ⟨⟨j, q⟩, hj, rfl⟩
      obtain ⟨hj, hq⟩ := List.mem_filter.mp hj
      rwa [← show q = p from of_decide_eq_true hq]
  rw [hset, List.toFinset_card_of_nodup hnodup, List.length_map, ← List.countP_eq_length_filter,
    List.count, List.countP_map]
  refine List.countP_congr fun x _ => ?_
  simp [Function.comp]

/-- Pairs in `n` columns, of which two rows at most count. -/
theorem card_filter_rows {P : ℕ × ℕ → Prop} [DecidablePred P] {n m a b : ℕ}
    (h : ∀ x, P x → x.2 = a ∨ x.2 = b) :
    ((Finset.range n ×ˢ Finset.range m).filter P).card ≤ n * 2 := by
  have hin : (Finset.range n ×ˢ Finset.range m).filter P ⊆ Finset.range n ×ˢ {a, b} := by
    intro x hx
    rw [Finset.mem_filter, Finset.mem_product] at hx
    rw [Finset.mem_product, Finset.mem_insert, Finset.mem_singleton]
    exact ⟨hx.1.1, h x hx.2⟩
  have hcard := Finset.card_le_card hin
  rw [Finset.card_product, Finset.card_range] at hcard
  exact hcard.trans (Nat.mul_le_mul_left _ Finset.card_le_two)

end JOS.General
