import JOS.Envs.Ids

/-!
# Generations of ids

`env_alloc` makes the id of an environment of the id that its slot had before: the generation goes
up by one, and from the last one that is positive as an `int` back to the first. So the ids of a
slot are a function of the number of environments it has had (`slotId`), with period 524287, and an
id that was given up is not given out again before (`ids_of_history`).
-/

namespace JOS

open JOS.General

variable {s₀ s s' t : KState} {e g n : ℕ} {l l₁ l₂ : List (KState × SlotEvent)}

/-- The number of generations. -/
def generations : ℕ := 524287

/-- The id of generation `g` in slot `e`. -/
def genId (g e : ℕ) : Word := BitVec.ofNat 32 g <<< ENVGENSHIFT ||| BitVec.ofNat 32 e

theorem genId_toNat (hg : g ≤ generations) (he : e < NENV) : (genId g e).toNat = g * 4096 + e := by
  have hg : g ≤ 524287 := hg
  have he : e < 1024 := he
  have hshift : (BitVec.ofNat 32 g <<< ENVGENSHIFT).toNat = g <<< 12 := by
    rw [BitVec.toNat_shiftLeft, BitVec.toNat_ofNat,
      show ENVGENSHIFT = 12 by rfl, Nat.shiftLeft_eq, Nat.shiftLeft_eq]
    omega
  rw [genId, BitVec.toNat_or, hshift, BitVec.toNat_ofNat, Nat.mod_eq_of_lt (by omega : e < 2 ^ 32),
    ← Nat.shiftLeft_add_eq_or_of_lt (by omega : e < 2 ^ 12), Nat.shiftLeft_eq]

/-- The next id depends on the generation of the old one only. -/
theorem nextEnvId_eq {old : Word} {i : ℕ} (hold : old.toNat = g * 4096 + i) (hi : i < 1024)
    (hg : g ≤ generations) :
    nextEnvId old e = genId (g % generations + 1) e := by
  have hg' : g ≤ 524287 := hg
  have hgen : ((old + (1#32 <<< ENVGENSHIFT)) &&& ~~~(BitVec.ofNat 32 (NENV - 1))).toNat =
      (g + 1) * 4096 := by
    rw [show BitVec.ofNat 32 (NENV - 1) =
      0x3FF#32 by rfl, and_not_mask _ 10 (by decide),
      BitVec.toNat_shiftLeft, BitVec.toNat_ushiftRight,
      BitVec.toNat_add, hold, show (1#32 <<< ENVGENSHIFT).toNat = 4096 by
        rfl, Nat.shiftLeft_eq, Nat.shiftRight_eq_div_pow]
    omega
  unfold nextEnvId
  generalize (old + (1#32 <<< ENVGENSHIFT)) &&& ~~~(BitVec.ofNat 32 (NENV - 1)) = w at hgen
  have hmod : g % generations = if g = 524287 then 0 else g := by
    rw [show generations = 524287 by rfl]
    split_ifs with h
    · rw [h]
    · omega
  have hword : (if w.toInt ≤ 0 then 1#32 <<< ENVGENSHIFT else w) = BitVec.ofNat 32
      (g % generations + 1) <<< ENVGENSHIFT := by
    rw [hmod]
    split_ifs with hneg hlast hlast
    · rfl
    · rw [BitVec.toInt_eq_toNat_cond] at hneg
      split_ifs at hneg <;> omega
    · rw [BitVec.toInt_eq_toNat_cond] at hneg
      split_ifs at hneg <;> omega
    · refine BitVec.eq_of_toNat_eq ?_
      rw [hgen, BitVec.toNat_shiftLeft, BitVec.toNat_ofNat,
        show ENVGENSHIFT = 12 by rfl, Nat.shiftLeft_eq]
      omega
  dsimp only
  rw [hword, genId]

/-- The id of the `n`-th environment of slot `e`; before the first it is 0. -/
def slotId (e n : ℕ) : Word := if n = 0 then 0 else genId ((n - 1) % generations + 1) e

theorem nextEnvId_slotId (n : ℕ) (he : e < NENV) : nextEnvId (slotId e n) e = slotId e (n + 1) := by
  have he' : e < 1024 := he
  have hgens : generations = 524287 := rfl
  rw [slotId, slotId, if_neg (Nat.succ_ne_zero n), Nat.add_sub_cancel]
  split_ifs with hn
  · rw [hn]
    exact nextEnvId_eq (g := 0) (i := 0) (by rfl) (by omega) (by omega)
  · have hg : (n - 1) % generations + 1 ≤ generations := by
      rw [hgens]
      omega
    rw [nextEnvId_eq (genId_toNat hg he) he' hg]
    congr 2
    rw [hgens]
    omega

/-- The ids of a slot have period 524287. -/
theorem slotId_inj {m : ℕ} (hn : n ≠ 0) (hm : m ≠ 0) (he : e < NENV) (h : slotId e m = slotId e n) :
    m % generations = n % generations := by
  have hgens : generations = 524287 := rfl
  have heq := congrArg BitVec.toNat h
  have hle : ∀ k, k % generations + 1 ≤ generations := by
    rw [hgens]
    omega
  rw [slotId, slotId, if_neg hn, if_neg hm, genId_toNat (hle _) he, genId_toNat (hle _) he] at heq
  rw [hgens] at heq ⊢
  omega

/-! ### Histories of a slot -/

/-- An environment is made in slot `e`. -/
def allocates (e : ℕ) (x : KState × SlotEvent) : Bool :=
  match x with
  | (s, .alloc parentId) => (envAlloc s parentId).toOption.any fun y => y.1.toOption = some e
  | _ => false

/-- The number of environments made in slot `e`. -/
def allocs (e : ℕ) (l : List (KState × SlotEvent)) : ℕ := l.countP (allocates e)

/-- What one event does to slot `e`: an environment is made in it, or freed, or neither. -/
theorem slotStep_cases {ev : SlotEvent} (hok : slotOk s ev) (h : slotStep s ev = some s') :
    (allocates e (s, ev) = true ∧ (s'.envs e).envId = nextEnvId (s.envs e).envId e) ∨
      (allocates e (s, ev) = false ∧ (s'.envs e).envId = (s.envs e).envId ∧
        ((∃ c, ev = .free c e) ∧ s'.status e = .free ∨ (∀ c, ev ≠ .free c e) ∧
        (s'.status e = .free ↔ s.status e = .free))) := by
  cases ev with
  | alloc parentId =>
    have hne : ∀ c, SlotEvent.alloc parentId ≠ .free c e := by
      intro c heq
      cases heq
    obtain ⟨⟨r, t⟩, hcall, rfl⟩ := Option.map_eq_some_iff.mp h
    have halloc : envAlloc s parentId = .ok (r, t) := by
      cases hx : envAlloc s parentId with
      | error w =>
        rw [hx] at hcall
        cases hcall
      | ok x =>
        rw [hx] at hcall
        cases hcall
        rfl
    have hmakes : allocates e (s, .alloc parentId) = decide (r.toOption = some e) := by
      rw [allocates, hcall]
      rfl
    rw [hmakes]
    rcases envAlloc_writes halloc with ⟨⟨w, rfl⟩, ht⟩ | ⟨e', x, rfl, -, ⟨pgdir, tf, rfl⟩, -, ht⟩
    · have henv : t.envs e = s.envs e := congrFun (congrArg Table.envs ht) e
      refine .inr ⟨rfl, congrArg Env.envId henv, .inr ⟨hne, ?_⟩⟩
      rw [KState.status, henv, KState.status]
    · have henv : t.envs e = _ := congrFun (congrArg Table.envs ht) e
      by_cases hee : e' = e
      · subst hee
        refine .inl ⟨decide_eq_true rfl, ?_⟩
        rw [henv]
        simp [Table.setEnv, Env.renew]
      · have henv : t.envs e = s.envs e := henv.trans (Function.update_of_ne (Ne.symm hee) _ _)
        refine .inr ⟨decide_eq_false fun h => hee (Option.some.inj h), congrArg Env.envId henv,
          .inr ⟨hne, ?_⟩⟩
        rw [KState.status, henv, KState.status]
  | free c e' =>
    cases hfree : envFree s c e' with
    | error w =>
      rw [slotStep, hfree] at h
      cases h
    | ok t =>
      rw [slotStep, hfree] at h
      cases h
      have henv : s'.envs e = _ := congrFun (congrArg Table.envs (envFree_writes hfree)) e
      by_cases hee : e = e'
      · subst hee
        refine .inr ⟨rfl, ?_, .inl ⟨⟨c, rfl⟩, ?_⟩⟩
        · rw [henv]
          simp [Table.write, Table.setEnv, KState.table]
        · rw [KState.status, henv]
          simp [Table.write, Table.setEnv]
      · have henv : s'.envs e = s.envs e := henv.trans (Function.update_of_ne hee _ _)
        refine .inr ⟨rfl, congrArg Env.envId henv, .inr ⟨fun c' hc => hee ?_, ?_⟩⟩
        · cases hc
          rfl
        · rw [KState.status, henv, KState.status]
  | other t =>
    cases h
    refine .inr ⟨rfl, hok.id e, .inr ⟨fun c heq => ?_, hok.free e⟩⟩
    cases heq

/-- One event, for a slot that has had `n` environments. -/
theorem slotStep_slotId {ev : SlotEvent} (he : e < NENV) (hok : slotOk s ev)
    (h : slotStep s ev = some s') (hid : (s.envs e).envId = slotId e n) :
    (s'.envs e).envId = slotId e (n + allocs e [(s, ev)]) := by
  rw [allocs, List.countP_singleton]
  rcases slotStep_cases (e := e) hok h with ⟨hmade, heq⟩ | ⟨hmade, heq, -⟩
  · rw [if_pos hmade, heq, hid, nextEnvId_slotId n he]
  · rw [hmade, heq]
    exact hid

/-- A history. -/
theorem Trace.slotId (h : Trace slotStep s l s') (hok : ∀ t ev, (t, ev) ∈ l → slotOk t ev)
    (he : e < NENV)
    (hid : (s.envs e).envId = slotId e n) : (s'.envs e).envId = JOS.slotId e (n + allocs e l) := by
  induction h generalizing n with
  | nil => exact hid
  | @cons s t s' ev l hs _ ih =>
    have hid' := slotStep_slotId he (hok _ _ List.mem_cons_self) hs hid
    have := ih (fun t ev hmem => hok t ev (List.mem_cons_of_mem _ hmem)) hid'
    rw [this, Nat.add_assoc, allocs, allocs, allocs, ← List.countP_append, List.singleton_append]

/-- A slot stays free until an environment is made in it. -/
theorem slotStep_free {ev : SlotEvent} (hok : slotOk s ev) (h : slotStep s ev = some s')
    (hfree : s.status e = .free)
    (hno : allocates e (s, ev) = false) : s'.status e = .free := by
  rcases slotStep_cases (e := e) hok h with ⟨hmade, -⟩ | ⟨-, -, ⟨-, hst⟩ | ⟨-, hst⟩⟩
  · rw [hno] at hmade
    cases hmade
  · exact hst
  · exact hst.mpr hfree

theorem Trace.free (h : Trace slotStep s l s') (hok : ∀ t ev, (t, ev) ∈ l → slotOk t ev)
    (hfree : s.status e = .free)
    (hno : allocs e l = 0) : s'.status e = .free := by
  refine h.invariant (I := fun s => s.status e = .free) hfree fun t ev t' hmem ht hs =>
    slotStep_free (hok t ev hmem) hs ht ?_
  exact Bool.eq_false_iff.mpr fun htrue => List.countP_eq_zero.mp hno _ hmem htrue

/-- A slot that was freed and is live again has been given to a new environment. -/
theorem Trace.freed (h : Trace slotStep s l s') (hok : ∀ t ev, (t, ev) ∈ l → slotOk t ev)
    {u : KState} {c : ℕ}
    (hmem : (u, .free c e) ∈ l) (hlive : s'.status e ≠ .free) : allocs e l ≠ 0 := by
  induction h with
  | nil => exact absurd hmem List.not_mem_nil
  | @cons s t s' ev l hs hrest ih =>
    have hok' : ∀ t ev, (t, ev) ∈ l → slotOk t ev :=
      fun t ev hmem => hok t ev (List.mem_cons_of_mem _ hmem)
    have hle : allocs e l ≤ allocs e ((s, ev) :: l) := by
      rw [allocs, allocs, List.countP_cons]
      exact Nat.le_add_right _ _
    rcases List.mem_cons.mp hmem with heq | hmem
    · cases heq
      intro hzero
      refine hlive (Trace.free hrest hok' ?_ (by omega))
      rcases slotStep_cases (e := e) (hok _ _ List.mem_cons_self) hs with ⟨hmade, -⟩ |
        ⟨-, -, ⟨-, hst⟩ | ⟨hne, -⟩⟩
      · cases hmade
      · exact hst
      · exact absurd rfl (hne c)
    · have := ih hok' hmem hlive
      omega

/-- `env_init` sets all ids to 0. -/
theorem envInit_envId (s : KState) (he : e < NENV) : ((envInit s).envs e).envId = 0 := by
  have hall : ∀ l : List ℕ, e ∈ l → ((l.foldr (fun i (s : KState) =>
      { s.setEnv i { s.envs i with envId := 0, envLink := s.envFreeList, envStatus := .free } with
        envFreeList := some i }) { s with envFreeList := none }).envs e).envId = 0 := by
    intro l
    induction l with
    | nil => exact fun h => absurd h List.not_mem_nil
    | cons i l ih =>
      intro hmem
      rw [List.foldr_cons]
      by_cases hei : e = i
      · subst hei
        simp only [KState.setEnv, Function.update_self]
      · simpa only [KState.setEnv, Function.update_of_ne hei] using ih
          ((List.mem_cons.mp hmem).resolve_left hei)
  have hmem : e ∈ List.range NENV := List.mem_range.mpr he
  rw [envInit]
  generalize List.range NENV = l at hmem ⊢
  exact hall l hmem

theorem slotId_pos (hn : n ≠ 0) (he : e < NENV) : 0 < (slotId e n).toInt ∧
    ENVX (slotId e n) = e := by
  obtain ⟨m, rfl⟩ := Nat.exists_eq_succ_of_ne_zero hn
  rw [Nat.succ_eq_add_one, ← nextEnvId_slotId m he]
  exact ⟨nextEnvId_pos _ he, ENVX_nextEnvId _ he⟩

/-- **The ids of a slot**, after any calls of `env_alloc` and `env_free`: the id is that of the
number of environments the slot has had. An id of an environment that is then freed is found again
only after 524287 more. -/
theorem ids_of_history (h₁ : Trace slotStep (envInit s₀) l₁ t) (h₂ : Trace slotStep t l₂ s)
    (hok : ∀ u ev, (u, ev) ∈ l₁ ++ l₂ → slotOk u ev) (he : e < NENV) :
    ((t.envs e).envId = slotId e (allocs e l₁) ∧
      (allocs e l₁ ≠ 0 → 0 < (t.envs e).envId.toInt ∧ ENVX (t.envs e).envId = e)) ∧
    (t.status e ≠ .free → (∃ u c, (u, .free c e) ∈ l₂) →
      ∀ cur checkperm, envid2env s cur (t.envs e).envId checkperm ≠ none →
      generations ≤ allocs e l₂) := by
  have hok₁ : ∀ u ev, (u, ev) ∈ l₁ → slotOk u ev :=
    fun u ev hmem => hok u ev (List.mem_append_left _ hmem)
  have hok₂ : ∀ u ev, (u, ev) ∈ l₂ → slotOk u ev :=
    fun u ev hmem => hok u ev (List.mem_append_right _ hmem)
  have hid : (t.envs e).envId = slotId e (allocs e l₁) := by
    have := Trace.slotId h₁ hok₁ he (n := 0) (envInit_envId s₀ he)
    rwa [Nat.zero_add] at this
  have hslots : Slots t := h₁.invariant (slots_envInit s₀) fun u ev u' hmem hu hs =>
    hu.step (hok₁ u ev hmem) hs
  refine ⟨⟨hid, fun hn => hid ▸ slotId_pos hn he⟩,
    fun hlive ⟨u, c, hfreed⟩ cur checkperm hfound => ?_⟩
  obtain ⟨hpos, hslot⟩ := hslots.id e he hlive
  have hne : (t.envs e).envId ≠ 0 := by
    intro h
    rw [h] at hpos
    exact absurd hpos (by decide)
  -- the lookup is of slot `e`, which is live and has the id again
  simp only [envid2env, if_neg hne, hslot] at hfound
  have hagain : s.status e ≠ .free ∧ (s.envs e).envId = (t.envs e).envId := by
    by_contra hbad
    rw [if_pos] at hfound
    · exact hfound rfl
    · rw [not_and_or, not_not] at hbad
      exact hbad
  have hn : allocs e l₁ ≠ 0 := by
    intro hzero
    rw [hid, hzero] at hne
    exact hne rfl
  have hk : allocs e l₂ ≠ 0 := Trace.freed h₂ hok₂ hfreed hagain.1
  have heq := hagain.2
  rw [Trace.slotId h₂ hok₂ he hid, hid] at heq
  have hmod := slotId_inj hn (by omega) he heq
  have hgens : generations = 524287 := rfl
  rw [hgens] at hmod ⊢
  omega

/-- Two environments are made, the first is freed, and its slot is used again. -/
theorem ids_of_history_reuse :
    ∃ t s : KState, (t.envs 0).envId = 0x1000 ∧ (s.envs 0).envId = 0x2000 ∧
        envid2env s 0 0x1000 false = none := by
  have hrun : (([.alloc 0, .alloc 0].foldlM (fun t ev =>
      if slotCheck t ev then slotStep t ev else none)
      (envInit (bootState 1))).bind fun t =>
        ([.free 0 0, .alloc 0].foldlM (fun t ev => if slotCheck t ev then slotStep t ev
          else none) t).map
          fun s => ((t.envs 0).envId, (s.envs 0).envId, t.status 0)) =
            some (0x1000, 0x2000, .runnable) := by decide +kernel
  obtain ⟨t, ht, hrun⟩ := Option.bind_eq_some_iff.mp hrun
  obtain ⟨s, hs, hids⟩ := Option.map_eq_some_iff.mp hrun
  simp only [Prod.mk.injEq] at hids
  obtain ⟨hid, hid', hst⟩ := hids
  obtain ⟨l₁, h₁, hok₁, -⟩ := Trace.of_guarded ht
  obtain ⟨l₂, h₂, hok₂, hl₂⟩ := Trace.of_guarded hs
  refine ⟨t, s, hid, hid', ?_⟩
  by_contra hfound
  have hids := ids_of_history (e := 0) h₁ h₂ (fun u ev hmem =>
    slotOk_of_slotCheck ((List.mem_append.mp hmem).elim (hok₁ u ev) (hok₂ u ev)))
    (by decide)
  have hfreed : ∃ u c, (u, SlotEvent.free c 0) ∈ l₂ := by
    have hmem : SlotEvent.free 0 0 ∈ l₂.map Prod.snd := hl₂ ▸ List.mem_cons_self
    obtain ⟨⟨u, ev⟩, hmem, rfl⟩ := List.mem_map.mp hmem
    exact ⟨u, 0, hmem⟩
  have hle : generations ≤ allocs 0 l₂ :=
    hids.2 (by rw [hst]; decide) hfreed 0 false (by rw [hid]; exact hfound)
  have hshort : allocs 0 l₂ ≤ 2 := by
    have hlen : l₂.length = 2 := by rw [← List.length_map (f := Prod.snd), hl₂]; rfl
    rw [← hlen]
    exact List.countP_le_length
  exact absurd (hle.trans hshort) (by decide)

end JOS
