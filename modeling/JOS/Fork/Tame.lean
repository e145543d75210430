import JOS.Fork.Invariant

/-!
# The kernel's view of programs that fork

What programs that fork ask of the kernel is tame (`tame_of_requests`), so the invariants of the
kernel hold throughout. There is always room for another reference to a page, since a page is mapped
at one address only (`OneAddress.roomy`).
-/

namespace JOS

open JOS.General

variable {s s' s₁ : KState} {ev : Event} {c e : ℕ} {t : TrapIn} {u : ℕ → ℕ → Word} {p : ℕ}

theorem KernOk.step (h : KernOk s) (hok : Tame s ev) (hs : JOS.step s ev = some s') : KernOk s' :=
  ⟨h.sound.step hok hs, h.good.step h.sound hok hs,
    h.ids.written h.sound.freeHead (step_written hs)⟩

/-- At most two addresses for each environment. -/
theorem mapCount_le (h : ∀ e v e' v', Names (u e v) p → Names (u e' v') p → v ≠ PGNUM PFTEMP →
    v' ≠ PGNUM PFTEMP → v = v') :
    mapCount u p ≤ NENV * 2 := by
  have hsub : ∃ v₀, ∀ e v, Names (u e v) p → v = v₀ ∨ v = PGNUM PFTEMP := by
    by_cases hex : ∃ e v, Names (u e v) p ∧ v ≠ PGNUM PFTEMP
    · obtain ⟨e₀, v₀, hn₀, hne₀⟩ := hex
      refine ⟨v₀, fun e v hn => ?_⟩
      by_cases hv : v = PGNUM PFTEMP
      · exact .inr hv
      · exact .inl (h e v e₀ v₀ hn hn₀ hv hne₀)
    · refine ⟨PGNUM PFTEMP, fun e v hn => .inr ?_⟩
      by_contra hv
      exact hex ⟨e, v, hn, hv⟩
  obtain ⟨v₀, hv₀⟩ := hsub
  exact card_filter_rows fun x hn => hv₀ x.1 x.2 hn

theorem OneAddress.roomy (h : OneAddress s) : Roomy s := fun p =>
  lt_of_le_of_lt (mapCount_le fun e v e' v' => h e v e' v' p) (by decide)

/-- **Tame requests**: pages that are mapped are mapped and unmapped, the status of environments
that do not run is set, and environments destroy themselves. -/
theorem tame_of_requests (hcreate : ∀ c elf, ev ≠ .create c elf) (hroom : Roomy s)
    (hmap : ∀ e va e' va' perm, MapsPage s ev e va e' va' perm → Present s e (PGNUM va))
    (hunmap : ∀ e va, Unmaps s ev e va → Present s e (PGNUM va))
    (hset : ∀ c e st, SetsStatus s ev c e st → ¬ Elsewhere s c e)
    (hdestroy : ∀ c e, Destroys s ev c e → ¬ Elsewhere s c e)
    (hipc : ∀ c cur a s₁, SysCall s ev c cur a s₁ → SysNo.ofWord a.no ≠ some .ipcTrySend) :
    Tame s ev := by
  have hno : ∀ c e, ¬ Sends s ev c e := by
    rintro c e ⟨cur, a, s₁, hcall, hno, -⟩
    exact hipc c cur a s₁ hcall hno
  refine ⟨⟨fun c e st hst hel => absurd hel (hset c e st hst), fun c e hsend =>
    absurd hsend (hno c e),
    fun c e hd hel => absurd hel (hdestroy c e hd)⟩, ?_, fun e va e' va' perm p _ _ =>
      .inl (hroom p),
    fun c elf hev => absurd hev (hcreate c elf)⟩
  rintro e va d (⟨e', va', perm, hmaps⟩ | hunmaps | ⟨c, a, s₁, e', hcall, hn, -⟩) hd
  · have hva : va < UTOP := by
      obtain ⟨c, cur, a, s₁, -, -, hargs, rfl, -⟩ := hmaps
      exact vaOk_lt (pageMapArgs_ok hargs).1
    exact not_emptyEntry hd hva (hmap e va e' va' perm hmaps)
  · have hva : va < UTOP := by
      obtain ⟨c, cur, a, s₁, -, -, -, hok, rfl⟩ := hunmaps
      exact vaOk_lt hok
    exact not_emptyEntry hd hva (hunmap e va hunmaps)
  · exact absurd hn (hipc c e a s₁ hcall)

/-- The event is no system call. -/
def NoCall (s : KState) (ev : Event) : Prop := ∀ c cur a s₁, ¬ SysCall s ev c cur a s₁

theorem noCall_of_not_trap (hev : ∀ c t, ev ≠ .trap c t) : NoCall s ev :=
  fun _ _ _ _ => not_sysCall hev

/-- A CPU that runs no program makes none. -/
theorem noCall_of_idle (hcur : s.curenv c = none) : NoCall s (.trap c t) := by
  rintro c' cur a s₁ ⟨t', ht, hcur', -⟩
  cases ht
  rw [hcur] at hcur'
  cases hcur'

theorem tame_of_no_call (h : OneAddress s) (hcreate : ∀ c elf, ev ≠ .create c elf)
    (hno : NoCall s ev) : Tame s ev :=
  tame_of_requests hcreate h.roomy (fun _ _ _ _ _ ⟨_, _, _, _, hcall, _⟩ =>
    absurd hcall (hno _ _ _ _))
    (fun _ _ ⟨_, _, _, _, hcall, _⟩ => absurd hcall (hno _ _ _ _)) (fun _ _ _ ⟨_, _, _, hcall, _⟩ =>
      absurd hcall (hno _ _ _ _))
    (fun _ _ ⟨_, _, _, hcall, _⟩ => absurd hcall (hno _ _ _ _)) fun _ _ _ _ hcall =>
      absurd hcall (hno _ _ _ _)

end JOS
