import JOS.Spaces.Confined

/-!
# What `env_ipc_perm` says

`sys_ipc_try_send` sets `env_ipc_perm` when it transfers a page and leaves it alone
otherwise, and `env_alloc` does not reset it. So the field tells the truth about the
last message as long as every message without a page finds it 0 (`TellsPerm`).

`permStep` runs the machine and remembers, for one receiver, whether the last message to
it had a page. It forgets it when the receiver calls `sys_ipc_recv` again, and when its
slot is freed or used again.
-/

namespace JOS

open JOS.General

variable {s₀ s s₁ s₂ s' : KState} {ev : Event} {c cur e : ℕ} {t : Table} {w : Write} {a : SysArgs}

/-- What `ipc_recv` gives its caller. -/
structure IpcRecv where
  /-- The value it returns. -/
  value : Word
  /-- `*from_env_store`. -/
  fromEnv : Word
  /-- `*perm_store`. -/
  perm : Word

/-- `ipc_recv` (`lib/ipc.c`), when its `sys_ipc_recv` has returned `flag`. -/
def ipcRecv (flag : Word) (thisenv : Env) : IpcRecv :=
  if flag.toInt < 0 then ⟨flag, 0, 0⟩ else ⟨thisenv.envIpcValue, thisenv.envIpcFrom,
    thisenv.envIpcPerm⟩

/-! ### The last message -/

/-- The permissions of the page that a `sys_ipc_try_send` to `e` transfers, if it does. -/
def Event.page (s : KState) (e : ℕ) : Event → Option Word
  | .trap _ t => if t.args.a3 < UTOP ∧ (s.envs e).envIpcDstva < UTOP then some t.args.a4 else none
  | _ => none

/-- What an act does to what is remembered of the last message to `e`. -/
def Act.hear (s : KState) (ev : Event) (e : ℕ) (x : Act) (g : Option (Option Word)) :
    Option (Option Word) :=
  match x with
  | .block e' => if e' = e then none else g
  | .ipc e' => if e' = e then some (ev.page s e) else g
  | .free _ e' => if e' = e then none else g
  | .alloc e' _ => if e' = e then none else g
  | _ => g

/-- One step of the machine, with what is remembered of the last message to `e`. -/
def permStep (e : ℕ) (x : KState × Option (Option Word)) (ev : Event) :
    Option (KState × Option (Option Word)) :=
  (step x.1 ev).map fun s' => (s', s'.acts.foldr (Act.hear x.1 ev e) x.2)

/-- The receiver's record tells about the last message whether it had a page, and with which
permissions. -/
def PermTrue (e : ℕ) (x : KState × Option (Option Word)) : Prop :=
  ∀ page, x.2 = some page → ((x.1.envs e).envIpcPerm ≠ 0 ↔ page ≠ none) ∧
    (∀ perm, page = some perm → (x.1.envs e).envIpcPerm = perm) ∧
    (ipcRecv 0 (x.1.envs e)).perm = (x.1.envs e).envIpcPerm

/-- A message to `e` that comes without a page finds `env_ipc_perm` 0. -/
def TellsPerm (e : ℕ) (s : KState) (ev : Event) : Prop :=
  ∀ c, Sends s ev c e → ev.page s e = none → (s.envs e).envIpcPerm = 0

/-! ### During a step -/

section Step

variable {g : Option (Option Word)}

/-- What is remembered at a moment of a step. -/
def heard (s : KState) (ev : Event) (e : ℕ) (g : Option (Option Word)) (t : Table) :
    Option (Option Word) :=
  t.acts.foldr (Act.hear s ev e) g

/-- Only a new environment, the end of one, a message and a call make a difference. -/
theorem heard_write (w : Write) : heard s ev e g (t.write w) =
    match w with
    | .alloc e' _ => if e' = e then none else heard s ev e g t
    | .free _ e' => if e' = e then none else heard s ev e g t
    | .recv e' _ => if e' = e then none else heard s ev e g t
    | .deliver e' _ _ => if e' = e then some (ev.page s e) else heard s ev e g t
    | _ => heard s ev e g t := by
  cases w with
  | run c' e' =>
    have hacts : (t.write (.run c' e')).acts = .run c' e' :: t.acts := by
      simp only [Table.write, Table.setEnv, Table.release]
      split
      · split_ifs <;> rfl
      · rfl
    rw [heard, hacts]
    rfl
  | _ => rfl

/-- A step without a send to `e`, at a moment. -/
structure Unsent (s : KState) (ev : Event) (e : ℕ) (g : Option (Option Word))
    (t : Table) : Prop where
  perm : (t.envs e).envIpcPerm = (s.envs e).envIpcPerm
  heard : heard s ev e g t = none ∨ JOS.heard s ev e g t = g
  idle : (t.envs e).envIpcRecving = true → JOS.heard s ev e g t = none

namespace Unsent

/-- Nothing of it changes. -/
theorem same {t' : Table} (h : Unsent s ev e g t)
    (hperm : (t'.envs e).envIpcPerm = (t.envs e).envIpcPerm)
    (hrecv : (t'.envs e).envIpcRecving = (t.envs e).envIpcRecving)
    (hheard : JOS.heard s ev e g t' = JOS.heard s ev e g t) : Unsent s ev e g t' := by
  refine ⟨hperm.trans h.perm, ?_, ?_⟩
  · rw [hheard]
    exact h.heard
  · rw [hheard, hrecv]
    exact h.idle

/-- The last message is forgotten. -/
theorem forget {t' : Table} (h : Unsent s ev e g t)
    (hperm : (t'.envs e).envIpcPerm = (t.envs e).envIpcPerm)
    (hheard : JOS.heard s ev e g t' = none) : Unsent s ev e g t' :=
  ⟨hperm.trans h.perm, .inl hheard, fun _ => hheard⟩

theorem write (h : Unsent s ev e g t) (hw : Allowed s ev c t w) (hsend : ¬ Sends s ev c e) :
    Unsent s ev e g (t.write w) := by
  by_cases he : w.env = some e
  · cases w with
    | alloc e' x =>
      cases he
      obtain ⟨-, ⟨parentId, st, ⟨pgdir, tf, rfl⟩, -⟩, -⟩ := hw
      refine h.forget (by simp [Table.write, Env.renew]) ?_
      rw [heard_write]
      exact if_pos rfl
    | free c' e' =>
      cases he
      refine h.forget (by simp [Table.write]) ?_
      rw [heard_write]
      exact if_pos rfl
    | recv e' dstva =>
      cases he
      refine h.forget (by simp [Table.write]) ?_
      rw [heard_write]
      exact if_pos rfl
    | perm e' perm =>
      cases he
      exact absurd hw hsend
    | deliver e' sender value =>
      cases he
      exact absurd hw.1.sends hsend
    | run c' e' =>
      cases he
      exact h.same (by rw [Table.write_run_self]) (by rw [Table.write_run_self]) (heard_write _)
    | clear c' => cases he
    | frame e' tf =>
      cases he
      exact h.same (by simp [Table.write]) (by simp [Table.write]) (heard_write _)
    | zombie e' =>
      cases he
      exact h.same (by simp [Table.write]) (by simp [Table.write]) (heard_write _)
    | status e' st =>
      cases he
      exact h.same (by simp [Table.write]) (by simp [Table.write]) (heard_write _)
    | upcall e' func =>
      cases he
      exact h.same (by simp [Table.write]) (by simp [Table.write]) (heard_write _)
  · -- the record of another environment
    have hne : ∀ e', w.env = some e' → e' ≠ e := by
      rintro e' h' rfl
      exact he h'
    have hheard : JOS.heard s ev e g (t.write w) = JOS.heard s ev e g t := by
      rw [heard_write]
      cases w with
      | alloc e' x => exact if_neg (hne e' rfl)
      | free c' e' => exact if_neg (hne e' rfl)
      | recv e' dstva => exact if_neg (hne e' rfl)
      | deliver e' sender value => exact if_neg (hne e' rfl)
      | _ => rfl
    rcases Table.write_envs_of_ne (t := t) he with henv | ⟨c', e', -, -, -, henv⟩
    · exact h.same (by rw [henv]) (by rw [henv]) hheard
    · exact h.same (by rw [henv]) (by rw [henv]) hheard

end Unsent

end Step

/-! ### A send -/

/-- What a send that gets past its checks does with a page. -/
theorem ipcSendPage_perm {srcva perm : Word} (h : ipcSendPage s cur e srcva perm = .ok (0, s')) :
    (s'.envs e).envIpcPerm = (if (s.envs e).envIpcDstva < UTOP then perm
      else (s.envs e).envIpcPerm) ∧
      ((s.envs e).envIpcDstva < UTOP → perm ≠ 0) ∧
      (¬ (s.envs e).envIpcDstva < UTOP → s'.mem = s.mem) := by
  rcases ipcSendPage_zero h with ⟨hd, rfl⟩ | ⟨d, pg, m, hd, -, -, hne, -, rfl⟩
  · exact ⟨by rw [if_neg hd], fun h => absurd h hd, fun _ => rfl⟩
  · exact ⟨by rw [if_pos hd, KState.setEnv_envs_self], fun _ => hne, fun h => absurd hd h⟩

/-- The page of a send, in terms of the call. -/
theorem SysCall.page (hcall : SysCall s ev c cur a s₁) :
    ev.page s e = if a.a3 < UTOP ∧ (s.envs e).envIpcDstva < UTOP then some a.a4 else none := by
  obtain ⟨trap, rfl, -, -, -, rfl, -⟩ := hcall
  rfl

/-- After a send that returns 0 the receiver has the permissions of its page, or what it had
before. -/
theorem SendsZero.perm (h : SendsZero s ev c cur e a s₁ s₂) :
    (s₂.envs e).envIpcPerm = (ev.page s e).getD (s.envs e).envIpcPerm ∧
      (∀ perm, ev.page s e = some perm → perm ≠ 0) ∧
      (ev.page s e = none → s₂.mem = s₁.mem) ∧ (s₂.envs e).envIpcRecving = false := by
  obtain ⟨s₃, -, hpage, hnone, rfl⟩ := sysIpcTrySend_zero h.2.2.1 h.send
  obtain ⟨tf, henv, -⟩ := h.1.envs e
  have hdstva : (s₁.envs e).envIpcDstva = (s.envs e).envIpcDstva := by rw [henv]
  have hold : (s₁.envs e).envIpcPerm = (s.envs e).envIpcPerm := by rw [henv]
  have hdeliver : ((ipcDeliver s₃ cur e a.a2).envs e).envIpcPerm = (s₃.envs e).envIpcPerm ∧
      ((ipcDeliver s₃ cur e a.a2).envs e).envIpcRecving = false := by
    simp [ipcDeliver, KState.log]
  have hmem : (ipcDeliver s₃ cur e a.a2).mem = s₃.mem := rfl
  rw [hdeliver.1, hdeliver.2, hmem, h.1.page]
  by_cases hva : a.a3 < UTOP
  · obtain ⟨hperm, hne, hsame⟩ := ipcSendPage_perm (hpage hva)
    rw [hdstva] at hperm hne hsame
    rw [hperm, hold]
    by_cases hd : (s.envs e).envIpcDstva < UTOP
    · rw [if_pos hd, if_pos ⟨hva, hd⟩]
      exact ⟨rfl, fun perm hp => (by cases hp; exact hne hd), fun hp => (by cases hp), rfl⟩
    · rw [if_neg hd, if_neg fun hp => hd hp.2]
      exact ⟨rfl, fun perm hp => (by cases hp), fun _ => hsame hd, rfl⟩
  · rw [hnone hva, hold, if_neg fun hp => hva hp.1]
    exact ⟨rfl, fun perm hp => (by cases hp), fun _ => rfl, rfl⟩

/-- A step in which a send to `e` returns 0. -/
theorem SendsZero.step (h : SendsZero s ev c cur e a s₁ s₂) (hs : step s ev = some s')
    (g : Option (Option Word)) :
    (s'.envs e).envIpcPerm = (s₂.envs e).envIpcPerm ∧
      (s'.envs e).envIpcRecving = (s₂.envs e).envIpcRecving ∧
      s'.acts.foldr (Act.hear s ev e) g = some (ev.page s e) := by
  obtain ⟨hcall, -, hargs, hr⟩ := id h
  rcases hcall.step_cases hs with herr | ⟨r, s₂', hr', hret⟩
  · rw [hr] at herr
    cases herr
  · rw [hr] at hr'
    cases hr'
    obtain ⟨st, runs, cpu, -, hkept⟩ := trapReturn_kept hret e
    obtain ⟨y, hacts, hy⟩ := trapReturn_acts hret
    -- the result of the call goes to the sender
    have hframe : ∀ tf, ((s₂.setEnv cur { s₂.envs cur with envTf := tf }).envs e).envIpcPerm =
        (s₂.envs e).envIpcPerm ∧
        ((s₂.setEnv cur { s₂.envs cur with envTf := tf }).envs e).envIpcRecving =
          (s₂.envs e).envIpcRecving := by
      intro tf
      by_cases hce : e = cur
      · subst hce
        simp
      · have hsame : (s₂.setEnv cur { s₂.envs cur with envTf := tf }).envs e = s₂.envs e :=
          Function.update_of_ne hce _ _
        rw [hsame]
        exact ⟨rfl, rfl⟩
    have hipc : s₂.acts = [.ipc e] := by
      obtain ⟨s₄, hpage, -, -, rfl⟩ := sysIpcTrySend_zero hargs h.send
      have hs₁ : s₁.acts = [] := by
        obtain ⟨trap, -, -, -, -, -, rfl⟩ := hcall
        exact (fresh_trapEntry (s := s) trap).2
      rw [(ipcDeliver_acts a.a2).2, hpage.2, hs₁]
    refine ⟨?_, ?_, ?_⟩
    · rw [hkept]
      exact (hframe _).1
    · rw [hkept]
      exact (hframe _).2
    · have hall : s'.acts = [y, .ipc e] := by
        rw [hacts.2]
        exact congrArg _ hipc
      rw [hall, List.foldr_cons, List.foldr_cons, List.foldr_nil]
      cases y with
      | run c' e' => exact if_pos rfl
      | clear c' => exact if_pos rfl
      | _ => exact hy.elim

/-! ### In every state of a run -/

/-- The invariant of a run. -/
structure PermOk (e : ℕ) (x : KState × Option (Option Word)) : Prop where
  /-- The last message to `e` that is remembered. -/
  told : ∀ page, x.2 = some page → ((x.1.envs e).envIpcPerm ≠ 0 ↔ page ≠ none) ∧
    ∀ perm, page = some perm → (x.1.envs e).envIpcPerm = perm
  /-- A receiver that waits has been sent nothing. -/
  idle : (x.1.envs e).envIpcRecving = true → x.2 = none

variable {x x' : KState × Option (Option Word)}

theorem PermOk.step (h : PermOk e x) (hok : TellsPerm e x.1 ev) (hs : permStep e x ev = some x') :
    PermOk e x' := by
  obtain ⟨s', hstep, rfl⟩ := Option.map_eq_some_iff.mp hs
  by_cases hsend : ∃ c, Sends x.1 ev c e
  · -- a message
    obtain ⟨c, hsend⟩ := hsend
    obtain ⟨cur, a, s₁, s₂, hzero⟩ := hsend.zero
    obtain ⟨hperm, hne, -, hrecv⟩ := hzero.perm
    obtain ⟨hperm', hrecv', hheard⟩ := hzero.step hstep x.2
    rw [hperm] at hperm'
    rw [hrecv] at hrecv'
    refine ⟨fun page hpage => ?_, fun hr => ?_⟩
    · rw [hheard, Option.some.injEq] at hpage
      rw [hperm', hpage]
      cases page with
      | none =>
        rw [Option.getD_none, hok c hsend hpage]
        exact ⟨by simp, fun perm hp => by cases hp⟩
      | some perm =>
        rw [Option.getD_some]
        exact ⟨iff_of_true (hne perm hpage) (Option.some_ne_none perm), fun perm' hp =>
          Option.some.inj hp⟩
    · rw [hrecv'] at hr
      cases hr
  · -- anything else
    have hunsent : Unsent x.1 ev e x.2 s'.table := by
      refine (step_written hstep).invariant ⟨rfl, .inr rfl, h.idle⟩ ?_
      rintro t _ w ht hw ⟨rfl⟩
      exact ht.write hw fun hsends => hsend ⟨_, hsends⟩
    refine ⟨fun page hpage => ?_, hunsent.idle⟩
    have hperm : (s'.envs e).envIpcPerm = (x.1.envs e).envIpcPerm := hunsent.perm
    rw [hperm]
    rcases hunsent.heard with hnone | hsame
    · have hnone' : s'.acts.foldr (Act.hear x.1 ev e) x.2 = none := hnone
      rw [hnone'] at hpage
      cases hpage
    · have hsame' : s'.acts.foldr (Act.hear x.1 ev e) x.2 = x.2 := hsame
      rw [hsame'] at hpage
      exact h.told page hpage

/-- **The receiver learns about the page of the last message**, in any run in which the messages to
it that come without a page find `env_ipc_perm` 0. What the history calls a page is one that the
send maps. -/
theorem permTrue_of_reach (h : Reach (permStep e) (fun x ev => TellsPerm e x.1 ev) (s₀, none) x) :
    PermTrue e x ∧ ∀ ev c cur a s₁ s₂, SendsZero x.1 ev c cur e a s₁ s₂ →
      (ev.page x.1 e = none → s₂.mem = s₁.mem) ∧
      ∀ perm src dst pte, ev.page x.1 e = some perm → (s₁.envs cur).envPgdir = some src →
        translate s₁.mem src a.a3 = some pte → (s₁.envs e).envPgdir = some dst →
        ¬ OwnTable s₁.mem dst (s₁.envs e).envIpcDstva →
        translate s₂.mem dst (s₁.envs e).envIpcDstva = some (mkPte (PGNUM pte) perm) := by
  have hok : PermOk e x := h.invariant ⟨fun page hp => (by cases hp), fun _ => rfl⟩
    fun _ _ _ ht hok hs => ht.step hok hs
  refine ⟨fun page hpage => ⟨(hok.told page hpage).1, (hok.told page hpage).2, rfl⟩, ?_⟩
  intro ev c cur a s₁ s₂ hsend
  refine ⟨hsend.perm.2.2.1, ?_⟩
  intro perm src dst pte hpage hsrc hpte hdst hown
  rw [hsend.1.page] at hpage
  split_ifs at hpage with hva
  cases hpage
  obtain ⟨tf, henv, -⟩ := hsend.1.envs e
  exact hsend.maps hva.1 hsrc hpte (by rw [henv]; exact hva.2) hdst hown

/-! ### Two runs -/

/-- A check of the condition: a `sys_ipc_try_send` has a page for `e`, or `env_ipc_perm` of `e` is
0. -/
def tellsPerm (e : ℕ) (s : KState) : Event → Bool
  | .trap c t => SysNo.ofWord t.args.no != some .ipcTrySend || ((Event.trap c t).page s e).isSome ||
      (s.envs e).envIpcPerm == 0
  | _ => true

theorem tellsPerm_of_check (h : tellsPerm e s ev = true) : TellsPerm e s ev := by
  rintro c ⟨cur, a, s₁, ⟨trap, rfl, -, -, -, rfl, -⟩, hno, -⟩ hpage
  simpa [tellsPerm, hno, hpage] using h

/-- Of two environments the first asks for a page, and the second sends it 5 with the page of its
stack. -/
def pageRun : List Event :=
  [.create 0 emptyElf, .create 0 emptyElf, .start 0, .trap 0 (sysTrap 12 0x1000 0 0 0 0),
    .trap 0 (sysTrap 11 0x1000 5 (USTACKTOP - PGSIZE) 7 0)]

theorem permTrue_page : ∃ x, x.2 = some (some 7) ∧ (x.1.envs 0).envIpcPerm = 7 ∧ PermTrue 0 x := by
  have hrun : (pageRun.foldlM (fun x ev => if tellsPerm 0 x.1 ev then permStep 0 x ev else none)
    (bootState 1, none)).map
      (fun x => (x.2, (x.1.envs 0).envIpcPerm)) = some (some (some 7), 7) := by decide +kernel
  obtain ⟨x, hs, hx⟩ := Option.map_eq_some_iff.mp hrun
  obtain ⟨hpage, hperm⟩ := Prod.mk.inj hx
  exact ⟨x, hpage, hperm, (permTrue_of_reach (Reach.of_guarded hs fun _ _ => tellsPerm_of_check)).1⟩

/-- Then the second yields, the first receives again, without asking for a page, and the second
sends it 6 without one. -/
def staleRun : List Event :=
  pageRun ++ [.trap 0 (sysTrap 10 0 0 0 0 0), .trap 0 (sysTrap 12 0xffffffff 0 0 0 0),
    .trap 0 (sysTrap 11 0x1000 6 0xffffffff 0 0)]

/-- The receiver reads the permissions of the first message. -/
theorem not_permTrue : ∃ x, Reach (permStep 0) (fun _ _ => True) (bootState 1, none) x ∧
    ¬ PermTrue 0 x := by
  have hrun : (staleRun.foldlM (permStep 0) (bootState 1, none)).map
      (fun x => (x.2, (x.1.envs 0).envIpcPerm)) = some (some none, 7) := by decide +kernel
  obtain ⟨x, hs, hx⟩ := Option.map_eq_some_iff.mp hrun
  obtain ⟨hpage, hperm⟩ := Prod.mk.inj hx
  refine ⟨x, Reach.of_foldlM hs fun _ _ _ => trivial, fun htrue => ?_⟩
  have hne : (x.1.envs 0).envIpcPerm ≠ 0 := by
    rw [hperm]
    decide
  exact absurd rfl ((htrue none hpage).1.mp hne)

end JOS
