import JOS.Calls.Failure
import JOS.Envs.Table

/-!
# Environment ids and the list of free environments

What `env_init`, `env_alloc` and `env_free` make of the slots of `envs`: the list of
free environments has the free slots, each once, and the id of a live environment
leads `envid2env` back to it. `Slots` is what a call preserves; `EnvTable` is what
follows for callers, after any calls (`envTable_of_reach`).
-/

namespace JOS

open JOS.General

open Function (update)

variable {s s' : KState} {e : ℕ}

/-! ### Ids -/

theorem ENVX_or_slot {g : Word} (hg : g &&& 0x3FF#32 = 0#32) (he : e < NENV) :
    ENVX (g ||| BitVec.ofNat 32 e) = e := by
  have he : e < 1024 := he
  rw [ENVX, BitVec.and_comm, BitVec.and_or_distrib_left, BitVec.and_comm, hg, BitVec.zero_or,
    BitVec.toNat_and,
    show (0x3FF#32).toNat = 2 ^ 10 - 1 by
      decide, Nat.and_comm, Nat.and_two_pow_sub_one_eq_mod, BitVec.toNat_ofNat]
  omega

/-- The id of a new environment has its slot in the low bits. -/
theorem ENVX_nextEnvId (old : Word) (he : e < NENV) : ENVX (nextEnvId old e) = e := by
  unfold nextEnvId
  refine ENVX_or_slot ?_ he
  split_ifs
  · decide
  · rw [BitVec.and_assoc]
    exact BitVec.and_zero

/-! ### What a call preserves -/

/-- The slots are in order. -/
structure Slots (s : KState) : Prop where
  /-- The list of free environments has the free slots. -/
  list : ∃ l, Chain (fun e => (s.envs e).envLink) s.envFreeList l ∧ ∀ e, e ∈ l ↔ e < NENV ∧
    s.status e = .free
  /-- The id of a live environment is positive and has its slot in the low bits. -/
  id : ∀ e < NENV, s.status e ≠ .free → 0 < (s.envs e).envId.toInt ∧ ENVX (s.envs e).envId = e

/-- The loop of `env_init` makes a list of the slots it has passed. -/
theorem envInit_slots : ∀ l : List ℕ, l.Nodup → ∃ t, t = l.foldr (fun i s =>
      { s.setEnv i { s.envs i with envId := 0, envLink := s.envFreeList, envStatus := .free } with
        envFreeList := some i }) { s with envFreeList := none } ∧
    Chain (fun e => (t.envs e).envLink) t.envFreeList l ∧ ∀ e ∈ l, t.status e = .free := by
  intro l
  induction l with
  | nil =>
    intro _
    exact ⟨_, rfl, .nil, fun e he => absurd he List.not_mem_nil⟩
  | cons i l ih =>
    intro hl
    obtain ⟨hi, hl⟩ := List.nodup_cons.mp hl
    obtain ⟨t, ht, hchain, hfree⟩ := ih hl
    refine ⟨_, rfl, ?_⟩
    rw [List.foldr_cons, ← ht]
    have hne : ∀ b ∈ l, b ≠ i := by
      rintro b hb rfl
      exact hi hb
    constructor
    · refine hchain.push ?_ fun b hb => ?_
      · simp only [KState.setEnv, Function.update_self]
      · simp only [KState.setEnv, Function.update_of_ne (hne b hb)]
    · intro e he
      by_cases hei : e = i
      · subst hei
        simp only [KState.status, KState.setEnv, Function.update_self]
      · have hel : e ∈ l := (List.mem_cons.mp he).resolve_left hei
        simpa only [KState.status, KState.setEnv, Function.update_of_ne hei] using hfree e hel

theorem slots_envInit (s : KState) : Slots (envInit s) := by
  obtain ⟨t, ht, hchain, hfree⟩ := envInit_slots (s := s) (List.range NENV) List.nodup_range
  have heq : envInit s = t := ht.symm
  rw [heq]
  constructor
  · refine ⟨_, hchain, fun e => ?_⟩
    rw [List.mem_range]
    exact ⟨fun he => ⟨he, hfree e (List.mem_range.mpr he)⟩, fun he => he.1⟩
  · intro e he hlive
    exact absurd (hfree e (List.mem_range.mpr he)) hlive

/-- Only ids, links, the head of the list and which slots are free matter. -/
structure SameSlots (s s' : KState) : Prop where
  id : ∀ e, (s'.envs e).envId = (s.envs e).envId
  link : ∀ e, (s'.envs e).envLink = (s.envs e).envLink
  free : ∀ e, s'.status e = .free ↔ s.status e = .free
  head : s'.envFreeList = s.envFreeList

theorem Slots.congr (h : Slots s) (hs : SameSlots s s') : Slots s' := by
  constructor
  · obtain ⟨l, hchain, hl⟩ := h.list
    refine ⟨l, ?_, fun e => ?_⟩
    · rw [hs.head]
      exact hchain.congr fun e _ => hs.link e
    · rw [hl, hs.free]
  · intro e he hlive
    rw [hs.id]
    exact h.id e he fun hfree => hlive ((hs.free e).mpr hfree)

/-- A failed `env_alloc` leaves the environments and the list as they are. -/
theorem envAlloc_fails {parentId w : Word} (h : envAlloc s parentId = .ok (.error w, s')) :
    s'.envs = s.envs ∧ s'.envFreeList = s.envFreeList := by
  rcases envAlloc_writes h with ⟨-, ht⟩ | ⟨e, x, hr, -⟩
  · exact ⟨congrArg Table.envs ht, congrArg Table.freeList ht⟩
  · cases hr

theorem Slots.envAlloc {parentId : Word} {r : Except Word ℕ} (hs : Slots s)
    (h : envAlloc s parentId = .ok (r, s')) :
    Slots s' := by
  rcases envAlloc_writes h with ⟨⟨w, rfl⟩, -⟩ | ⟨e, x, -, hhead, ⟨pgdir, tf, rfl⟩, -, ht⟩
  · obtain ⟨henvs, hhead⟩ := envAlloc_fails h
    exact hs.congr ⟨fun e => by rw [henvs], fun e => by rw [henvs], fun e => by rw [KState.status,
      henvs, KState.status],
      hhead⟩
  · obtain ⟨l, hchain, hl⟩ := hs.list
    rw [hhead] at hchain
    have hnodup := hchain.nodup
    obtain ⟨l, rfl, htail⟩ := hchain.of_some
    have hel : e ∉ l := (List.nodup_cons.mp hnodup).1
    have he : e < NENV := ((hl e).mp List.mem_cons_self).1
    have hself : (s'.envs e).envId = nextEnvId (s.envs e).envId e ∧ s'.status e = .runnable := by
      have henv : s'.envs e = _ := congrFun (congrArg Table.envs ht) e
      rw [KState.status, henv]
      simp only [Table.setEnv, Function.update_self, Env.renew, and_self]
    have hother : ∀ b, b ≠ e → s'.envs b = s.envs b := by
      intro b hb
      have henv : s'.envs b = _ := congrFun (congrArg Table.envs ht) b
      rw [henv]
      exact Function.update_of_ne hb _ _
    constructor
    · refine ⟨l, ?_, fun b => ?_⟩
      · have hhead' : s'.envFreeList = (s.envs e).envLink := congrArg Table.freeList ht
        rw [hhead']
        refine htail.congr fun b hb => ?_
        rw [hother b fun hbe => hel (hbe ▸ hb)]
      · by_cases hbe : b = e
        · subst hbe
          exact iff_of_false hel fun hb => by rw [hself.2] at hb; exact absurd hb.2 (by decide)
        · rw [KState.status, hother b hbe, ← KState.status, ← hl, List.mem_cons]
          exact ⟨Or.inr, fun hb => hb.resolve_left hbe⟩
    · intro b hb hlive
      by_cases hbe : b = e
      · subst hbe
        rw [hself.1]
        exact ⟨nextEnvId_pos _ he, ENVX_nextEnvId _ he⟩
      · rw [hother b hbe]
        rw [KState.status, hother b hbe] at hlive
        exact hs.id b hb hlive

theorem Slots.envFree {c : ℕ} (hs : Slots s) (he : e < NENV) (hlive : s.status e ≠ .free)
    (h : envFree s c e = .ok s') : Slots s' := by
  have ht := envFree_writes h
  have hself : (s'.envs e).envLink = s.envFreeList ∧ s'.status e = .free := by
    have henv : s'.envs e = _ := congrFun (congrArg Table.envs ht) e
    rw [KState.status, henv]
    simp only [Table.write, Table.log, Table.setEnv, Function.update_self, and_true]
    rfl
  have hother : ∀ b, b ≠ e → s'.envs b = s.envs b := by
    intro b hb
    have henv : s'.envs b = _ := congrFun (congrArg Table.envs ht) b
    rw [henv]
    exact Function.update_of_ne hb _ _
  have hhead : s'.envFreeList = some e := congrArg Table.freeList ht
  obtain ⟨l, hchain, hl⟩ := hs.list
  have hel : e ∉ l := fun hmem => hlive ((hl e).mp hmem).2
  have hne : ∀ b ∈ l, b ≠ e := by
    rintro b hb rfl
    exact hel hb
  constructor
  · refine ⟨e :: l, ?_, fun b => ?_⟩
    · rw [hhead]
      exact hchain.push hself.1 fun b hb => by rw [hother b (hne b hb)]
    · by_cases hbe : b = e
      · subst hbe
        exact iff_of_true List.mem_cons_self ⟨he, hself.2⟩
      · rw [KState.status, hother b hbe, ← KState.status, ← hl, List.mem_cons]
        exact ⟨fun hb => hb.resolve_left hbe, Or.inr⟩
  · intro b hb hlive'
    by_cases hbe : b = e
    · subst hbe
      exact absurd hself.2 hlive'
    · rw [hother b hbe]
      rw [KState.status, hother b hbe] at hlive'
      exact hs.id b hb hlive'

/-! ### Any calls -/

/-- A call, or what the kernel does in between. -/
inductive SlotEvent where
  /-- `env_alloc`. -/
  | alloc (parentId : Word)
  /-- `env_free(e)` on CPU `c`. -/
  | free (c e : ℕ)
  /-- Anything else, which leads to the state `t`. -/
  | other (t : KState)

/-- What an event does; a call may stop the kernel. -/
def slotStep (s : KState) : SlotEvent → Option KState
  | .alloc parentId => (envAlloc s parentId).toOption.map Prod.snd
  | .free c e => (envFree s c e).toOption
  | .other t => some t

/-- `env_free` is called on live environments; all else leaves the slots alone. -/
def slotOk (s : KState) : SlotEvent → Prop
  | .alloc _ => True
  | .free _ e => e < NENV ∧ s.status e ≠ .free
  | .other t => SameSlots s t

theorem Slots.step {ev : SlotEvent} (hs : Slots s) (hok : slotOk s ev)
    (h : slotStep s ev = some s') : Slots s' := by
  cases ev with
  | alloc parentId =>
    obtain ⟨⟨r, t⟩, hcall, rfl⟩ := Option.map_eq_some_iff.mp h
    cases halloc : JOS.envAlloc s parentId with
    | error w =>
      rw [halloc] at hcall
      cases hcall
    | ok x =>
      rw [halloc] at hcall
      cases hcall
      exact hs.envAlloc halloc
  | free c e =>
    cases hfree : JOS.envFree s c e with
    | error w =>
      rw [slotStep, hfree] at h
      cases h
    | ok t =>
      rw [slotStep, hfree] at h
      cases h
      exact hs.envFree hok.1 hok.2 hfree
  | other t =>
    cases h
    exact hs.congr hok

/-- What callers can rely on. -/
structure EnvTable (s : KState) : Prop where
  /-- The list of free environments has each free slot once and ends in null. -/
  freeList : ∃ l, Chain (fun e => (s.envs e).envLink) s.envFreeList l ∧ l.Nodup ∧
    ∀ e, e ∈ l ↔ e < NENV ∧ s.status e = .free
  /-- A failed `env_alloc` changes neither the list nor an environment. -/
  failed : ∀ parentId w t, envAlloc s parentId = .ok (.error w, t) →
    t.envFreeList = s.envFreeList ∧ ∀ e, t.envs e = s.envs e
  /-- A live environment has a positive id, with its slot in the low bits. -/
  id : ∀ e < NENV, s.status e ≠ .free → 0 < (s.envs e).envId.toInt ∧ ENVX (s.envs e).envId = e
  /-- Live environments have different ids. -/
  distinct : ∀ e < NENV, ∀ e' < NENV, s.status e ≠ .free → s.status e' ≠ .free → e ≠ e' →
    (s.envs e).envId ≠ (s.envs e').envId
  /-- `envid2env` finds the live environments by their ids, and nothing else. -/
  lookup : ∀ cur envid e, envid ≠ 0 →
    (envid2env s cur envid false = some e ↔ e < NENV ∧ s.status e ≠ .free ∧
      (s.envs e).envId = envid)

theorem Slots.lookup {cur : ℕ} {envid : Word} (hs : Slots s) (h0 : envid ≠ 0) :
    envid2env s cur envid false = some e ↔ e < NENV ∧ s.status e ≠ .free ∧
        (s.envs e).envId = envid := by
  simp only [envid2env, if_neg h0, Bool.false_eq_true, false_and, if_false]
  constructor
  · intro h
    split_ifs at h with hbad
    cases h
    push Not at hbad
    exact ⟨ENVX_lt envid, hbad.1, hbad.2⟩
  · rintro ⟨he, hlive, hid⟩
    have hslot : ENVX envid = e := by rw [← hid]; exact (hs.id e he hlive).2
    rw [hslot, if_neg (by push Not; exact ⟨hlive, hid⟩)]

theorem Slots.envTable (hs : Slots s) : EnvTable s where
  freeList := by
    obtain ⟨l, hchain, hl⟩ := hs.list
    exact ⟨l, hchain, hchain.nodup, hl⟩
  failed parentId w t h := by
    obtain ⟨henvs, hhead⟩ := envAlloc_fails h
    exact ⟨hhead, fun e => congrFun henvs e⟩
  id := hs.id
  distinct e he e' he' hlive hlive' hne heq := by
    apply hne
    rw [← (hs.id e he hlive).2, ← (hs.id e' he' hlive').2, heq]
  lookup cur envid e h0 := hs.lookup h0

/-- **The table of environments**: after `env_init` and any calls of `env_alloc` and `env_free`. -/
theorem envTable_of_reach (h : Reach slotStep slotOk (envInit s) s') : EnvTable s' := by
  have hslots : Slots s' := h.invariant (slots_envInit s) fun t t' ev hs hok hstep =>
    hs.step hok hstep
  exact hslots.envTable

/-- Whether an event is a call that meets the guard. -/
def slotCheck (s : KState) : SlotEvent → Bool
  | .alloc _ => true
  | .free _ e => decide (e < NENV ∧ s.status e ≠ .free)
  | .other _ => false

theorem slotOk_of_slotCheck {ev : SlotEvent} (h : slotCheck s ev = true) : slotOk s ev := by
  cases ev with
  | alloc => exact trivial
  | free c e =>
    have hguard : e < NENV ∧ s.status e ≠ .free := of_decide_eq_true h
    exact hguard
  | other t => cases h

/-- Two environments are made, the first is freed, and its slot is used again. -/
theorem envTable_reuse : ∃ s', (s'.envs 0).envId = 0x2000 ∧ (s'.envs 1).envId = 0x1001 ∧
    EnvTable s' := by
  let calls : List SlotEvent := [.alloc 0, .alloc 0, .free 0 0, .alloc 0]
  have hrun : (calls.foldlM (fun t ev => if slotCheck t ev then slotStep t ev else none)
    (envInit (bootState 1))).map
      (fun t => ((t.envs 0).envId, (t.envs 1).envId)) = some (0x2000, 0x1001) := by decide +kernel
  obtain ⟨s', hs', hids⟩ := Option.map_eq_some_iff.mp hrun
  obtain ⟨h0, h1⟩ := Prod.mk.inj hids
  exact ⟨s', h0, h1, envTable_of_reach (Reach.of_guarded hs' fun _ _ => slotOk_of_slotCheck)⟩

end JOS
