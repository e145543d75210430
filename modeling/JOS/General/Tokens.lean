import Mathlib.Data.List.Sort

/-!
# Tokens

The tokens of a list are the longest stretches without a separator, each given by where it
begins and where it ends. `tokens` finds them in one pass from left to right, with the
beginning of the token it is in, if it is in one; `mem_tokens_iff` says that it finds all
of them and nothing else, and `tokens_pairwise` that it finds them in order.
-/

namespace JOS.General

variable {α : Type*} {sep : α → Bool} {s t : List α} {c : α} {i j k : ℕ}

/-- The places `i, …, j - 1` of `s` are a longest stretch without a separator. -/
structure IsToken (sep : α → Bool) (s : List α) (i j : ℕ) : Prop where
  lt : i < j
  le : j ≤ s.length
  inside : ∀ k, i ≤ k → k < j → ∀ c, s[k]? = some c → sep c = false
  before : i = 0 ∨ ∃ c, s[i - 1]? = some c ∧ sep c = true
  after : j = s.length ∨ ∃ c, s[j]? = some c ∧ sep c = true

/-- The tokens from place `k` on, when a token that has begun at `open` goes on there. -/
def tokens (sep : α → Bool) : Option ℕ → ℕ → List α → List (ℕ × ℕ)
  | none, _, [] => []
  | some i, k, [] => [(i, k)]
  | none, k, c :: t => if sep c then tokens sep none (k + 1) t else tokens sep (some k) (k + 1) t
  | some i, k, c :: t => if sep c then (i, k) :: tokens sep none (k + 1) t
      else tokens sep (some i) (k + 1) t

/-- The tokens to be found from place `k` on begin there or later, or at `open`. -/
def tokensFrom : Option ℕ → ℕ → ℕ
  | none, k => k
  | some i, _ => i

/-- What has been read before place `k` of `s`. -/
inductive Scanned (sep : α → Bool) (s : List α) (k : ℕ) : Option ℕ → Prop where
  | outside : k = 0 ∨ (∃ c, s[k - 1]? = some c ∧ sep c = true) → Scanned sep s k none
  | inside {i : ℕ} : i < k → (∀ j, i ≤ j → j < k → ∀ c, s[j]? = some c → sep c = false) →
      (i = 0 ∨ ∃ c, s[i - 1]? = some c ∧ sep c = true) → Scanned sep s k (some i)

/-- A token that begins inside an open one is the open one, and ends where it does. -/
theorem IsToken.of_open (h : IsToken sep s i j) {a : ℕ}
    (hno : ∀ j, a ≤ j → j < k → ∀ c, s[j]? = some c → sep c = false)
    (hend : k = s.length ∨ ∃ c, s[k]? = some c ∧ sep c = true) (ha : a ≤ i) (hik : i ≤ k)
    (hak : a < k) : i = a ∧ j = k := by
  have hk : k ≤ s.length := by
    rcases hend with rfl | ⟨c, hc, -⟩
    · exact Nat.le_refl _
    · exact Nat.le_of_lt (List.getElem?_eq_some_iff.mp hc).1
  have hia : i = a := by
    by_contra hne
    rcases h.before with h0 | ⟨c, hc, hsep⟩
    · omega
    · rw [hno (i - 1) (by omega) (by omega) c hc] at hsep
      cases hsep
  refine ⟨hia, ?_⟩
  subst hia
  by_contra hne
  rcases Nat.lt_or_gt_of_ne hne with hjk | hkj
  · rcases h.after with hlen | ⟨c, hc, hsep⟩
    · omega
    · rw [hno j (Nat.le_of_lt h.lt) hjk c hc] at hsep
      cases hsep
  · rcases hend with hlen | ⟨c, hc, hsep⟩
    · have := h.le
      omega
    · rw [h.inside k hik hkj c hc] at hsep
      cases hsep

/-- **Every token is found**, and nothing else. -/
theorem mem_tokens_from (s : List α) : ∀ (t : List α) (k : ℕ) (o : Option ℕ), s.drop k = t →
    k ≤ s.length → Scanned sep s k o →
    ∀ i j, (i, j) ∈ tokens sep o k t ↔ IsToken sep s i j ∧ tokensFrom o k ≤ i := by
  intro t
  induction t with
  | nil =>
    intro k o ht hk hscan i j
    have hlen : k = s.length := le_antisymm hk (List.drop_eq_nil_iff.mp ht)
    cases hscan with
    | outside _ =>
      refine iff_of_false List.not_mem_nil fun h => ?_
      have := h.1.lt
      have := h.1.le
      have : k ≤ i := h.2
      omega
    | @inside a hak hno hbefore =>
      rw [tokens, List.mem_singleton, Prod.mk.injEq]
      constructor
      · rintro ⟨rfl, rfl⟩
        exact ⟨⟨hak, hk, hno, hbefore, .inl hlen⟩, le_rfl⟩
      · rintro ⟨h, ha⟩
        have := h.lt
        have := h.le
        exact h.of_open hno (.inl hlen) ha (by omega) hak
  | cons c t ih =>
    intro k o ht hk hscan i j
    have hc : s[k]? = some c := by
      rw [← List.head?_drop, ht, List.head?_cons]
    have hlt : k < s.length := (List.getElem?_eq_some_iff.mp hc).1
    have ht' : s.drop (k + 1) = t := by
      rw [← List.tail_drop, ht, List.tail_cons]
    have hsep_unique : ∀ c', s[k]? = some c' → c' = c :=
      fun c' hc' => Option.some.inj (hc'.symm.trans hc)
    cases hscan with
    | outside hbefore =>
      rw [tokens]
      split_ifs with hsep
      · rw [ih (k + 1) none ht' hlt (.outside (.inr ⟨c, hc, hsep⟩))]
        refine and_congr_right fun h => ⟨Nat.le_of_succ_le, fun hki => ?_⟩
        rcases Nat.lt_or_eq_of_le hki with hki | hki
        · exact hki
        · change k = i at hki
          rw [h.inside k hki.ge (hki ▸ h.lt) c hc] at hsep
          cases hsep
      · refine ih (k + 1) (some k) ht' hlt
          (.inside (Nat.lt_succ_self k) (fun j hj hjk c' hc' => ?_) hbefore) i j
        obtain rfl : j = k := le_antisymm (Nat.le_of_lt_succ hjk) hj
        rw [hsep_unique c' hc']
        simpa using hsep
    | @inside a hak hno hbefore =>
      rw [tokens]
      split_ifs with hsep
      · rw [List.mem_cons, Prod.mk.injEq, ih (k + 1) none ht' hlt (.outside (.inr ⟨c, hc, hsep⟩))]
        constructor
        · rintro (⟨rfl, rfl⟩ | ⟨h, hki⟩)
          · exact ⟨⟨hak, hk, hno, hbefore, .inr ⟨c, hc, hsep⟩⟩, le_rfl⟩
          · change k + 1 ≤ i at hki
            exact ⟨h, by change a ≤ i; omega⟩
        · rintro ⟨h, ha⟩
          rcases Nat.lt_or_ge k i with hki | hik
          · exact .inr ⟨h, hki⟩
          · exact .inl (h.of_open hno (.inr ⟨c, hc, hsep⟩) ha hik hak)
      · refine ih (k + 1) (some a) ht' hlt
          (.inside (Nat.lt_succ_of_lt hak) (fun j hj hjk c' hc' => ?_) hbefore) i j
        rcases Nat.lt_or_eq_of_le (Nat.le_of_lt_succ hjk) with hjk | rfl
        · exact hno j hj hjk c' hc'
        · rw [hsep_unique c' hc']
          simpa using hsep

theorem mem_tokens_iff : (i, j) ∈ tokens sep none 0 s ↔ IsToken sep s i j := by
  rw [mem_tokens_from s s 0 none rfl (Nat.zero_le _) (.outside (.inl rfl))]
  exact and_iff_left (Nat.zero_le i)

/-- What is found begins at `tokensFrom` or later. -/
theorem tokensFrom_le : ∀ (t : List α) (o : Option ℕ) (k : ℕ), (∀ i, o = some i → i < k) →
    ∀ r ∈ tokens sep o k t, tokensFrom o k ≤ r.1 := by
  intro t
  induction t with
  | nil =>
    intro o k ho r hr
    cases o with
    | none => exact absurd hr List.not_mem_nil
    | some a =>
      rw [List.mem_singleton.mp hr]
      exact le_rfl
  | cons c t ih =>
    intro o k ho r hr
    cases o with
    | none =>
      rw [tokens] at hr
      split_ifs at hr with hsep
      · have := ih none (k + 1) (fun i h => nomatch h) r hr
        exact Nat.le_of_succ_le this
      · exact ih (some k) (k + 1) (fun i h => Option.some.inj h ▸ Nat.lt_succ_self k) r hr
    | some a =>
      have hak := ho a rfl
      rw [tokens] at hr
      split_ifs at hr with hsep
      · rcases List.mem_cons.mp hr with rfl | hr
        · exact le_rfl
        · have : k + 1 ≤ r.1 := ih none (k + 1) (fun i h => nomatch h) r hr
          change a ≤ r.1
          omega
      · exact ih (some a) (k + 1) (fun i h => Option.some.inj h ▸ Nat.lt_succ_of_lt hak) r hr

/-- **The tokens are found in order.** -/
theorem tokens_pairwise : ∀ (t : List α) (o : Option ℕ) (k : ℕ), (∀ i, o = some i → i < k) →
    (tokens sep o k t).Pairwise fun r r' => r.1 < r'.1 := by
  intro t
  induction t with
  | nil =>
    intro o k _
    cases o with
    | none => exact List.Pairwise.nil
    | some a => exact List.pairwise_singleton _ _
  | cons c t ih =>
    intro o k ho
    cases o with
    | none =>
      rw [tokens]
      split_ifs with hsep
      · exact ih none (k + 1) fun i h => nomatch h
      · exact ih (some k) (k + 1) fun i h => Option.some.inj h ▸ Nat.lt_succ_self k
    | some a =>
      have hak := ho a rfl
      rw [tokens]
      split_ifs with hsep
      · refine List.pairwise_cons.mpr ⟨fun r hr => ?_, ih none (k + 1) fun i h => nomatch h⟩
        have : k + 1 ≤ r.1 := tokensFrom_le t none (k + 1) (fun i h => nomatch h) r hr
        change a < r.1
        omega
      · exact ih (some a) (k + 1) fun i h => Option.some.inj h ▸ Nat.lt_succ_of_lt hak

/-- `l` lists the tokens of `s` in order. -/
structure Tokens (sep : α → Bool) (s : List α) (l : List (ℕ × ℕ)) : Prop where
  mem : ∀ i j, (i, j) ∈ l ↔ IsToken sep s i j
  order : l.Pairwise fun r r' => r.1 < r'.1

theorem tokens_tokens (sep : α → Bool) (s : List α) : Tokens sep s (tokens sep none 0 s) :=
  ⟨fun _ _ => mem_tokens_iff, tokens_pairwise s none 0 fun _ h => nomatch h⟩

/-- There is one list of the tokens. -/
theorem Tokens.eq_tokens {l : List (ℕ × ℕ)} (h : Tokens sep s l) : l = tokens sep none 0 s := by
  have : Std.Irrefl fun r r' : ℕ × ℕ => r.1 < r'.1 := ⟨fun _ h => lt_irrefl _ h⟩
  refine h.order.eq_of_mem_iff (tokens_tokens sep s).order fun r => ?_
  rw [h.mem r.1 r.2, mem_tokens_iff]

end JOS.General
