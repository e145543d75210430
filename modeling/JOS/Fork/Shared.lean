import JOS.General.Sharing
import JOS.Spaces.Contents

/-!
# The pages that address spaces share

A place is a page of an environment, and what it shows is the page that its entry names
(`KState.sharing`). A change of the entries is a change of the places, as long as the contents of
the pages that are shown stay (`SameContents`).
-/

namespace JOS

open JOS.General

variable {s s' : KState} {k k' : ℕ → Kind} {e v p : ℕ} {perm : Word} {i j : ℕ × ℕ}
  {W : ℕ × ℕ → Prop}

/-- The bytes of a page. -/
abbrev PageBytes := Fin 4096 → BitVec 8

/-- The pages of the environments, and what their entries name. -/
def KState.sharing (s : KState) : Sharing (ℕ × ℕ) ℕ PageBytes where
  page i := if test (s.upte i.1 i.2) PTE_P = true then some (PGNUM (s.upte i.1 i.2)) else none
  writable i := test (s.upte i.1 i.2) PTE_W = true
  content p o := s.mem.byte p o

theorem page_eq_some : s.sharing.page i = some p ↔ Names (s.upte i.1 i.2) p := by
  simp only [KState.sharing, Names]
  split_ifs with h
  · simp [h]
  · simp [h]

theorem page_eq_none : s.sharing.page i = none ↔ test (s.upte i.1 i.2) PTE_P = false := by
  simp [KState.sharing]

theorem page_congr (h : s'.upte i.1 i.2 = s.upte j.1 j.2) :
    s'.sharing.page i = s.sharing.page j := by
  simp only [KState.sharing, h]

/-- The pages that are mapped keep their contents. -/
def SameContents (s s' : KState) : Prop := ∀ e v p, Names (s.upte e v) p →
    s'.sharing.content p = s.sharing.content p

theorem SameContents.of_phys (hx : (s.vmState k).Sound)
    (h : ∀ q, k q = .data → s'.mem.phys q = s.mem.phys q) : SameContents s s' := by
  intro e v p hn
  funext o
  have hdata : k p = .data := hx.vm.tables.data_of_names hn
  simp only [KState.sharing, Mem.byte, h p hdata]

theorem SameContents.of_mem (h : s'.mem = s.mem) : SameContents s s' := fun _ _ _ _ => by
  funext o
  simp only [KState.sharing, h]

theorem SameContents.content (h : SameContents s s') (i : ℕ × ℕ) (p : ℕ)
    (hp : s.sharing.page i = some p) :
    s'.sharing.content p = s.sharing.content p := h i.1 i.2 p (page_eq_some.mp hp)

/-! ### Entries and places -/

/-- No entry has changed. -/
theorem writes_of_upte (hu : s'.upte = s.upte)
    (hc : ∀ e v p, Names (s.upte e v) p → (∀ i, W i → ¬ Names (s.upte i.1 i.2) p) →
    s'.sharing.content p = s.sharing.content p) :
    s.sharing.Writes W s'.sharing := by
  refine ⟨funext fun i => page_congr (by rw [hu]), fun i hw => ?_, fun i p hp hW => ?_⟩
  · simpa only [KState.sharing, hu] using hw
  · exact hc i.1 i.2 p (page_eq_some.mp hp) fun j hj hn => hW j hj (page_eq_some.mpr hn)

/-- One entry names another page. -/
theorem sets_of_upte (hu : s'.upte = setAt s.upte e v (mkPte p perm)) (hp : p < 2 ^ 20)
    (hf : IsFlags perm) (hc : SameContents s s') :
    s.sharing.Sets (e, v) p (test perm PTE_W = true) s'.sharing := by
  have hother : ∀ i : ℕ × ℕ, i ≠ (e, v) → s'.upte i.1 i.2 = s.upte i.1 i.2 := by
    intro i hi
    rw [hu, setAt_of_ne]
    rintro ⟨h₁, h₂⟩
    exact hi (Prod.ext h₁ h₂)
  refine ⟨page_eq_some.mpr ?_, fun hw => ?_, fun i hi => page_congr (hother i hi), fun i hi hw =>
    ?_, hc.content⟩
  · rw [hu, setAt_self]
    exact names_mkPte hp hf
  · simp only [KState.sharing, hu, setAt_self] at hw
    rwa [test_mkPte p perm isFlags_W (by decide)] at hw
  · simpa only [KState.sharing, hother i hi] using hw

/-- Entries are cleared. -/
theorem loses_of_upte {lost : ℕ × ℕ → Prop} (hlost : ∀ i, lost i → s'.upte i.1 i.2 = 0)
    (hkept : ∀ i, ¬ lost i → s'.upte i.1 i.2 = s.upte i.1 i.2) (hc : SameContents s s') :
    s.sharing.Loses lost s'.sharing := by
  refine ⟨fun i hi => page_eq_none.mpr ?_, fun i hi => page_congr (hkept i hi), fun i hi hw =>
    ?_, hc.content⟩
  · rw [hlost i hi, test_zero]
  · simpa only [KState.sharing, hkept i hi] using hw

/-! ### What operations do to the entries -/

theorem Does.upte_create (h : Does (s.vmState k) (.create e) (s'.vmState k')) :
    s'.upte = s.upte := by
  generalize hx : s'.vmState k' = x' at h
  cases h with
  | create _ _ hupte _ =>
    have hu : (s'.vmState k').upte = s.upte := by
      rw [hx]
      exact hupte
    exact hu

theorem Does.upte_keep (h : Does (s.vmState k) .keep (s'.vmState k')) : s'.upte = s.upte := by
  generalize hx : s'.vmState k' = x' at h
  cases h with
  | keep hs =>
    have hu : (s'.vmState k').upte = s.upte := by
      rw [hx]
      exact hs.entries
    exact hu

theorem Does.upte_alloc {va : Word} (h : Does (s.vmState k) (.alloc e va perm) (s'.vmState k'))
    (hx : (s.vmState k).Sound) :
    ∃ p, k p = .free ∧ p < 2 ^ 20 ∧ IsFlags perm ∧
        s'.upte = setAt s.upte e (PGNUM va) (mkPte p perm) := by
  generalize hx' : s'.vmState k' = x' at h
  cases h with
  | @alloc _ _ p _ _ m k₁ hd hva hf ha =>
    have hfree : k p = .free := ha.free
    have hp : p < 2 ^ 20 := hx.vm.pool.lt (show k p ≠ .reserved by rw [hfree]; simp)
    have hu : (s'.vmState k').upte = setAt s.upte e (PGNUM va) (mkPte p perm) := by
      rw [hx']
      exact ha.entries
    exact ⟨p, ha.free, hp, hf, hu⟩

theorem Does.upte_share {va va' : Word} {e' : ℕ}
    (h : Does (s.vmState k) (.share e va e' va' perm) (s'.vmState k'))
    (hx : (s.vmState k).Sound) : ∃ p, Names (s.upte e (PGNUM va)) p ∧ p < 2 ^ 20 ∧ IsFlags perm ∧
      s'.upte = setAt s.upte e' (PGNUM va') (mkPte p perm) := by
  generalize hx' : s'.vmState k' = x' at h
  cases h with
  | @share _ _ _ p _ _ _ m k₁ hd hva hf hn hroom hm =>
    have hdata : k p = .data := hx.vm.tables.data_of_names hn
    have hp : p < 2 ^ 20 := hx.vm.pool.lt (show k p ≠ .reserved by rw [hdata]; simp)
    have hu : (s'.vmState k').upte = setAt s.upte e' (PGNUM va') (mkPte p perm) := by
      rw [hx']
      exact hm.entries
    exact ⟨p, hn, hp, hf, hu⟩

theorem Does.upte_destroy (h : Does (s.vmState k) (.destroy e) (s'.vmState k')) :
    s'.dirs e = none ∧ (∀ e', e' ≠ e → s'.dirs e' = s.dirs e') ∧ ∀ e' v,
        s'.upte e' v = if e' = e then 0 else s.upte e' v := by
  have hothers : ∀ e', e' ≠ e → s'.dirs e' = s.dirs e' := fun e' he' =>
    h.dirs_of_ne (show VmOp.dirOf (.destroy e) ≠ some e' from fun heq =>
      he' (Option.some.inj heq).symm)
  generalize hx' : s'.vmState k' = x' at h
  cases h with
  | destroy _ hempty =>
    have hd : (s'.vmState k').dirs e = none := by
      rw [hx']
      exact Function.update_self _ _ _
    refine ⟨hd, hothers, fun e' v => ?_⟩
    have hu : (s'.vmState k').upte e' v = if e' = e then 0 else s.upte e' v := by
      rw [hx']
      exact hempty.entries e' v
    exact hu

end JOS
