import JOS.Ipc.Blocked
import JOS.Sched.Stop
import JOS.General.Rendezvous
import JOS.Memory.Footprint

/-!
# IPC delivers exactly once

`sys_ipc_try_send` and `sys_ipc_recv` make a rendezvous. `ipcStep` runs the machine and
keeps the history of one receiver: its calls, with the registers they save, the sends to
it, with the sender and the value, and when it runs, is freed and is made. In the runs of
`LeavesBlocked` that history keeps to the protocol of `JOS.General.Rendezvous`, and the
receiver's record is what the phase says (`At`): the registers of its call, the message
in `env_ipc_from` and `env_ipc_value`, and `eax` 0 when it returns.
-/

namespace JOS

open JOS.General

variable {s₀ s s₁ s₂ s' : KState} {ev : Event} {c cur e : ℕ} {t : Table} {w : Write}

/-! ### The history of a receiver -/

/-- What happens to a receiver: a call saves its registers, a message is a sender and a value. -/
abbrev RecvSignal := Signal Trapframe (Word × Word)

/-- The registers that a trap saves. -/
def Event.frame : Event → Option Trapframe
  | .trap _ t => some t.tf
  | _ => none

/-- The sender and the value of a `sys_ipc_try_send`. -/
def Event.message (s : KState) : Event → Word × Word
  | .trap c t => (((s.curenv c).map fun cur => (s.envs cur).envId).getD 0, t.args.a2)
  | _ => (0, 0)

/-- What an act is for the receiver `e`, in a step from `s` with `ev`. -/
def Act.signal (s : KState) (ev : Event) (e : ℕ) : Act → Option RecvSignal
  | .block e' => if e' = e then ev.frame.map .call else none
  | .ipc e' => if e' = e then some (.send (ev.message s)) else none
  | .run _ e' => if e' = e then some .resume else none
  | .free _ e' => if e' = e then some .stop else none
  | .alloc e' _ => if e' = e then some .make else none
  | _ => none

/-- One step of the machine, with the history of `e`. -/
def ipcStep (e : ℕ) (x : KState × List RecvSignal) (ev : Event) :
    Option (KState × List RecvSignal) :=
  (step x.1 ev).map fun s' => (s', s'.acts.filterMap (Act.signal x.1 ev e) ++ x.2)

/-- From the history `h` to `h'` a call returns that saved `tf` and was sent `m`. -/
def Returns (h h' : List RecvSignal) (tf : Trapframe) (m : Word × Word) : Prop :=
  h ≠ h' ∧ ∃ old, h' = .resume :: .send m :: .call tf :: old

/-- The registers with which a call returns `r`. -/
def Trapframe.ret (tf : Trapframe) (r : Word) : Trapframe :=
  { tf with tfRegs := { tf.tfRegs with regEax := r } }

/-! ### During a step -/

section Step

variable {h : List RecvSignal} {ph : Phase Trapframe (Word × Word)} {tf : Trapframe}
  {m : Word × Word}

/-- The history at a moment of a step. -/
def seen (s : KState) (ev : Event) (e : ℕ) (h : List RecvSignal) (t : Table) : List RecvSignal :=
  t.acts.filterMap (Act.signal s ev e) ++ h

/-- The message is in the record. -/
def Holds (t : Table) (e : ℕ) (m : Word × Word) : Prop := (t.envs e).envIpcFrom = m.1 ∧
    (t.envs e).envIpcValue = m.2

/-- The environment does not receive, or is gone. -/
def Idle (t : Table) (e : ℕ) : Prop := (t.envs e).envIpcRecving = true →
    (t.envs e).envStatus = .free

/-- The environment is blocked in the call that saved `tf`. -/
structure Called (s : KState) (e : ℕ) (t : Table) (tf : Trapframe) : Prop where
  recving : (t.envs e).envIpcRecving = true
  status : (t.envs e).envStatus ≠ .free
  frame : (t.envs e).envTf = tf
  live : (s.envs e).envPgdir ≠ none ∧ (t.envs e).envPgdir ≠ none

/-- The call that saved `tf` is answered with `m`, and has not returned. -/
structure Answered (s : KState) (c e : ℕ) (t : Table) (tf : Trapframe)
    (m : Word × Word) : Prop where
  recving : (t.envs e).envIpcRecving = false
  message : Holds t e m
  status : (t.envs e).envStatus = .runnable ∨ (t.envs e).envStatus = .notRunnable
  frame : (t.envs e).envTf = tf.ret 0
  apart : s.curenv c ≠ some e ∧ ∀ c', t.curenv c' ≠ some e
  live : (s.envs e).envPgdir ≠ none ∧ (t.envs e).envPgdir ≠ none

/-- What the phase says of the table, at a moment of a step that began in `s` with the history
`h`. -/
def At (s : KState) (ev : Event) (c e : ℕ) (h : List RecvSignal) (t : Table) :
    Phase Trapframe (Word × Word) → Prop
  | .out => Idle t e
  | .waiting tf => Called s e t tf
  | .sent tf m => Answered s c e t tf m
  | .back tf m => Idle t e ∧ Holds t e m ∧
      (Returns h (seen s ev e h t) tf m → s.curenv c ≠ some e ∧ (t.envs e).envTf = tf.ret 0)

/-- What is known during a step from the invariants of the state it began in. -/
structure Ground (s : KState) (ev : Event) (c e : ℕ) (t : Table) : Prop where
  blocked : BlockedOk s
  curLive : ∀ c, s.curenv c = some e → (s.envs e).envPgdir ≠ none
  freeHead : s.envFreeList = some e → (s.envs e).envPgdir = none
  waits : (t.envs e).envIpcRecving = true → Waiting s ev c e t

theorem Blocks.not_delivers {dstva sender value : Word} {e' : ℕ} (hb : Blocks s ev c e dstva) :
    ¬ Delivers s ev c e' sender value := by
  rintro ⟨cur, a, s₁, hcall, hno, -⟩
  rw [hb.no hcall] at hno
  cases hno

namespace Ground

/-- What `env_run` runs does not receive. -/
theorem not_recving_of_run (hg' : Ground s ev c e (t.write (.run c e))) :
    (t.envs e).envIpcRecving = false := by
  by_contra hr
  rw [Bool.not_eq_false] at hr
  have hw : Waiting s ev c e (t.write (.run c e)) :=
    hg'.waits (by rw [Table.write_run_self]; exact hr)
  exact hw.not_running (by rw [Table.write_run_self])

/-- What a system call gives a status or a message is not a free environment that receives. -/
theorem not_free (hg : Ground s ev c e t) (hr : (t.envs e).envIpcRecving = true)
    (hno : ∀ dstva, ¬ Blocks s ev c e dstva)
    (h : t.curenv c = some e ∨ (t.envs e).envStatus ≠ .free) :
    (t.envs e).envStatus ≠ .free := by
  refine h.resolve_left fun hcur => ?_
  obtain ⟨dstva, hb⟩ := (hg.waits hr).here hcur
  exact hno dstva hb

end Ground

/-- A write to the record of another environment is no signal. -/
theorem seen_write_of_ne (he : w.env ≠ some e) : seen s ev e h (t.write w) = seen s ev e h t := by
  have hne : ∀ e', w.env = some e' → e' ≠ e := by
    rintro e' h' rfl
    exact he h'
  cases w with
  | alloc e' x =>
    have : e' ≠ e := hne e' rfl
    simp [seen, Table.write, Table.log, Table.setEnv, Act.signal, this]
  | free c' e' =>
    have : e' ≠ e := hne e' rfl
    simp [seen, Table.write, Table.log, Table.setEnv, Act.signal, this]
  | deliver e' sender value =>
    have : e' ≠ e := hne e' rfl
    simp [seen, Table.write, Table.log, Table.setEnv, Act.signal, this]
  | recv e' dstva =>
    have : e' ≠ e := hne e' rfl
    simp [seen, Table.write, Table.log, Table.setEnv, Act.signal, this]
  | run c' e' =>
    have : e' ≠ e := hne e' rfl
    have hacts : (t.write (.run c' e')).acts = .run c' e' :: t.acts := by
      simp only [Table.write, Table.setEnv, Table.release]
      split
      · split_ifs <;> rfl
      · rfl
    simp [seen, hacts, Act.signal, this]
  | _ => rfl

/-- A write to another environment changes nothing. -/
theorem At.write_of_ne (hg : Ground s ev c e t) (hat : At s ev c e h t ph) (he : w.env ≠ some e) :
    At s ev c e h (t.write w) ph := by
  have hseen : seen s ev e h (t.write w) = seen s ev e h t := seen_write_of_ne he
  -- what the CPUs run can only become something else
  have hless : ∀ c', (t.write w).curenv c' = some e → t.curenv c' = some e :=
    fun c' hc' => Table.curenv_of_write hc' he
  rcases Table.write_envs_of_ne (t := t) he with henv | ⟨c', e', -, -, hr, henv⟩
  · rcases ph with _ | tf | ⟨tf, m⟩ | ⟨tf, m⟩
    · exact fun h' => by rw [henv] at h' ⊢; exact hat h'
    · refine ⟨?_, ?_, ?_, ?_⟩ <;> rw [henv]
      · exact hat.recving
      · exact hat.status
      · exact hat.frame
      · exact hat.live
    · have hmsg : Holds (t.write w) e m := by rw [Holds, henv]; exact hat.message
      refine ⟨?_, hmsg, ?_, ?_, ⟨hat.apart.1, fun c' hc' => hat.apart.2 c' (hless c' hc')⟩,
        ?_⟩ <;> rw [henv]
      · exact hat.recving
      · exact hat.status
      · exact hat.frame
      · exact hat.live
    · obtain ⟨hidle, hmsg, hret⟩ := hat
      refine ⟨fun h' => ?_, ?_, fun h' => ?_⟩
      · rw [henv] at h' ⊢
        exact hidle h'
      · rw [Holds, henv]
        exact hmsg
      · rw [hseen] at h'
        rw [henv]
        exact hret h'
  · -- the environment has left its CPU
    have hnot : (t.envs e).envIpcRecving = true → False := fun h' => (hg.waits h').not_running hr
    have hidle : Idle (t.write w) e := fun h' => by
      rw [henv] at h'
      exact (hnot h').elim
    rcases ph with _ | tf | ⟨tf, m⟩ | ⟨tf, m⟩
    · exact hidle
    · exact (hnot hat.recving).elim
    · have := hat.status
      rw [hr] at this
      simp at this
    · refine ⟨hidle, ?_, fun h' => ?_⟩
      · rw [Holds, henv]
        exact hat.2.1
      · rw [hseen] at h'
        rw [henv]
        exact hat.2.2 h'

/-- A write to the record of `e` that is no signal. -/
theorem At.silent {t' : Table} (hat : At s ev c e h t ph)
    (hseen : seen s ev e h t' = seen s ev e h t)
    (hcur : t'.curenv = t.curenv) (hrecv : (t'.envs e).envIpcRecving = (t.envs e).envIpcRecving)
    (hmsg : ∀ m, Holds t e m → Holds t' e m) (hlive : (t'.envs e).envPgdir = (t.envs e).envPgdir)
    (hidle : Idle t e → Idle t' e)
    (htf : (t.envs e).envIpcRecving = true ∨ s.curenv c ≠ some e →
    (t'.envs e).envTf = (t.envs e).envTf)
    (hst : (t.envs e).envIpcRecving = true → (t.envs e).envStatus ≠ .free →
    (t'.envs e).envStatus ≠ .free)
    (hst' : (t.envs e).envStatus = .runnable ∨ (t.envs e).envStatus = .notRunnable →
      (t'.envs e).envStatus = .runnable ∨ (t'.envs e).envStatus = .notRunnable) :
        At s ev c e h t' ph := by
  rcases ph with _ | tf | ⟨tf, m⟩ | ⟨tf, m⟩
  · exact hidle hat
  · exact ⟨hrecv.trans hat.recving, hst hat.recving hat.status,
      (htf (.inl hat.recving)).trans hat.frame,
      hat.live.1, hlive ▸ hat.live.2⟩
  · exact ⟨hrecv.trans hat.recving, hmsg m hat.message, hst' hat.status,
      (htf (.inr hat.apart.1)).trans hat.frame,
      ⟨hat.apart.1, by rw [hcur]; exact hat.apart.2⟩, hat.live.1, hlive ▸ hat.live.2⟩
  · refine ⟨hidle hat.1, hmsg m hat.2.1, fun h' => ?_⟩
    rw [hseen] at h'
    obtain ⟨happ, hframe⟩ := hat.2.2 h'
    exact ⟨happ, (htf (.inr happ)).trans hframe⟩

/-- The message of a send. -/
theorem Delivers.message {sender value : Word} (h : Delivers s ev c e sender value) :
    ev.message s = (sender, value) := by
  obtain ⟨cur, a, s₁, ⟨trap, rfl, hcur, -, -, rfl, -⟩, -, -, -, rfl, rfl⟩ := h
  rw [Event.message, hcur]
  rfl

/-- A send answers the call that waits. -/
theorem At.deliver {sender value : Word} (hg : Ground s ev c e t)
    (hw : Allowed s ev c t (.deliver e sender value))
    (hph : phase (seen s ev e h t) = some ph) (hat : At s ev c e h t ph) :
    ∃ ph', phase (seen s ev e h (t.write (.deliver e sender value))) = some ph' ∧
      At s ev c e h (t.write (.deliver e sender value)) ph' := by
  obtain ⟨hd, hrecv, htarget⟩ := hw
  have hnb : ∀ dstva, ¬ Blocks s ev c e dstva := fun dstva hb => hb.not_delivers hd
  have hfree : (t.envs e).envStatus ≠ .free := hg.not_free hrecv hnb htarget
  have hseen : seen s ev e h (t.write (.deliver e sender value)) = .send (sender, value) ::
      seen s ev e h t := by
    rw [← hd.message]
    simp [seen, Table.write, Table.log, Table.setEnv, Act.signal]
  rw [hseen, phase_cons_of_some hph]
  rcases ph with _ | tf | ⟨tf, m⟩ | ⟨tf, m⟩
  · exact absurd (hat hrecv) hfree
  · have hwait := hg.waits hrecv
    have hnot : ∀ c', t.curenv c' ≠ some e := by
      intro c' hc'
      by_cases hcc : c' = c
      · rw [hcc] at hc'
        obtain ⟨dstva, hb⟩ := hwait.here hc'
        exact hnb dstva hb
      · exact hwait.apart c' hcc hc'
    have hold : (s.envs e).envIpcRecving = true := by
      refine hwait.since.resolve_right ?_
      rintro ⟨dstva, hb⟩
      exact hnb dstva hb
    refine ⟨_, rfl, ?_, ?_, ?_, ?_, ⟨(hg.blocked e hold).1 c, hnot⟩, hat.live.1, ?_⟩
    · simp [Table.write]
    · simp [Holds, Table.write]
    · simp [Table.write]
    · simp [Table.write, hat.frame, Trapframe.ret]
    · simpa [Table.write] using hat.live.2
  · rw [hat.recving] at hrecv
    cases hrecv
  · exact absurd (hat.1 hrecv) hfree

/-- A call begins. -/
theorem At.recv {dstva : Word} (hg : Ground s ev c e t) (hw : Allowed s ev c t (.recv e dstva))
    (hph : phase (seen s ev e h t) = some ph) (hat : At s ev c e h t ph) :
    ∃ ph', phase (seen s ev e h (t.write (.recv e dstva))) = some ph' ∧
        At s ev c e h (t.write (.recv e dstva)) ph' := by
  obtain ⟨hb, trap, hev, henv⟩ := hw
  have hrecv : (t.envs e).envIpcRecving ≠ true := by
    rw [henv]
    exact fun h' => (hg.blocked e h').1 c hb.curenv
  have hlive : (s.envs e).envPgdir ≠ none := hg.curLive c hb.curenv
  have hseen : seen s ev e h (t.write (.recv e dstva)) = .call trap.tf :: seen s ev e h t := by
    rw [hev]
    simp [seen, Table.write, Table.log, Table.setEnv, Act.signal, Event.frame]
  have hcalled : Called s e (t.write (.recv e dstva)) trap.tf := by
    refine ⟨?_, ?_, ?_, hlive, ?_⟩
    · simp [Table.write]
    · simp [Table.write]
    · simp [Table.write, henv]
    · simpa [Table.write, henv] using hlive
  rw [hseen, phase_cons_of_some hph]
  rcases ph with _ | tf | ⟨tf, m⟩ | ⟨tf, m⟩
  · exact ⟨_, rfl, hcalled⟩
  · exact absurd hat.recving hrecv
  · exact absurd hb.curenv hat.apart.1
  · exact ⟨_, rfl, hcalled⟩

/-- The environment runs. -/
theorem At.run (hg' : Ground s ev c e (t.write (.run c e)))
    (hph : phase (seen s ev e h t) = some ph) (hat : At s ev c e h t ph) :
    ∃ ph', phase (seen s ev e h (t.write (.run c e))) = some ph' ∧
        At s ev c e h (t.write (.run c e)) ph' := by
  have hrecv : (t.envs e).envIpcRecving = false := hg'.not_recving_of_run
  have hacts : (t.write (.run c e)).acts = .run c e :: t.acts := by
    simp only [Table.write, Table.setEnv, Table.release]
    split
    · split_ifs <;> rfl
    · rfl
  have hseen : seen s ev e h (t.write (.run c e)) = .resume :: seen s ev e h t := by
    simp [seen, hacts, Act.signal]
  have hidle : Idle (t.write (.run c e)) e := fun h' => by
    rw [Table.write_run_self] at h'
    rw [hrecv] at h'
    cases h'
  rw [hseen, phase_cons_of_some hph]
  rcases ph with _ | tf | ⟨tf, m⟩ | ⟨tf, m⟩
  · exact ⟨_, rfl, hidle⟩
  · rw [hat.recving] at hrecv
    cases hrecv
  · refine ⟨_, rfl, hidle, ?_, fun _ => ⟨hat.apart.1, ?_⟩⟩
    · rw [Holds, Table.write_run_self]
      exact hat.message
    · rw [Table.write_run_self]
      exact hat.frame
  · refine ⟨_, rfl, hidle, ?_, ?_⟩
    · rw [Holds, Table.write_run_self]
      exact hat.2.1
    · -- the call had returned before
      rintro ⟨-, old, hold⟩
      rw [hseen, List.cons.injEq] at hold
      obtain ⟨tf', old', -, hsent⟩ :=
        phase_send (m := m) (h := .call tf :: old)
        (by rw [← hold.2, hph]; exact Option.some_ne_none _)
      rw [← hold.2, hph] at hsent
      cases hsent

/-- Every write that is allowed goes on with the protocol. -/
theorem At.write (hg : Ground s ev c e t) (hg' : Ground s ev c e (t.write w))
    (hw : Allowed s ev c t w)
    (hph : phase (seen s ev e h t) = some ph) (hat : At s ev c e h t ph) :
    ∃ ph', phase (seen s ev e h (t.write w)) = some ph' ∧ At s ev c e h (t.write w) ph' := by
  by_cases he : w.env = some e
  · cases w with
    | frame e' tf =>
      cases he
      obtain ⟨hscur, htcur, hold⟩ := hw
      refine ⟨ph, hph, hat.silent rfl rfl ?_ ?_ ?_ ?_ ?_ ?_ ?_⟩
      · simp [Table.write]
      · simp [Holds, Table.write]
      · simp [Table.write]
      · simp [Idle, Table.write]
      · rintro (hr | hne)
        · obtain ⟨dstva, hb⟩ := (hg.waits hr).here htcur
          rcases hold with ⟨rfl, -⟩ | ⟨hnb, -⟩
          · exact absurd hscur ((hg.blocked e hr).1 c)
          · exact absurd hb (hnb dstva)
        · exact absurd hscur hne
      · simp [Table.write]
      · simp [Table.write]
    | alloc e' x =>
      cases he
      obtain ⟨hfl, ⟨parentId, st, ⟨pgdir, tf, rfl⟩, -⟩, -⟩ := hw
      have hseen : seen s ev e h (t.write (.alloc e { (t.envs e).renew e parentId with
          envPgdir := some pgdir, envStatus := st, envTf := tf })) = .make :: seen s ev e h t := by
        simp [seen, Table.write, Table.log, Table.setEnv, Act.signal]
      have hidle : Idle (t.write (.alloc e { (t.envs e).renew e parentId with
          envPgdir := some pgdir, envStatus := st, envTf := tf })) e := by
        simp [Idle, Table.write, Env.renew]
      rw [hseen, phase_cons_of_some hph]
      rcases ph with _ | tf | ⟨tf, m⟩ | ⟨tf, m⟩
      · exact ⟨_, rfl, hidle⟩
      · exact absurd (hg.freeHead hfl) hat.live.1
      · exact absurd (hg.freeHead hfl) hat.live.1
      · exact ⟨_, rfl, hidle⟩
    | free c' e' =>
      cases he
      have hseen : seen s ev e h (t.write (.free c' e)) = .stop :: seen s ev e h t := by
        simp [seen, Table.write, Table.log, Table.setEnv, Act.signal]
      have hidle : Idle (t.write (.free c' e)) e := by simp [Idle, Table.write]
      rw [hseen, phase_cons_of_some hph]
      rcases ph with _ | tf | ⟨tf, m⟩ | ⟨tf, m⟩ <;> exact ⟨_, rfl, hidle⟩
    | zombie e' =>
      cases he
      have hr : (t.envs e).envStatus = .running := hw.1
      refine ⟨ph, hph, hat.silent rfl rfl ?_ ?_ ?_ ?_ ?_ ?_ ?_⟩
      · simp [Table.write]
      · simp [Holds, Table.write]
      · simp [Table.write]
      · simp [Idle, Table.write, hr]
      · simp [Table.write]
      · simp [Table.write]
      · simp [hr]
    | status e' st =>
      cases he
      obtain ⟨hset, htarget⟩ := hw
      have hfree : (t.envs e).envIpcRecving = true → (t.envs e).envStatus ≠ .free := fun hr =>
        hg.not_free hr (fun dstva hb => hb.not_setsStatus hset) htarget
      refine ⟨ph, hph, hat.silent rfl rfl ?_ ?_ ?_ ?_ ?_ ?_ ?_⟩
      · simp [Table.write]
      · simp [Holds, Table.write]
      · simp [Table.write]
      · intro hidle hr
        have hr : (t.envs e).envIpcRecving = true := by simpa [Table.write] using hr
        exact absurd (hidle hr) (hfree hr)
      · simp [Table.write]
      · rcases hset.status with rfl | rfl <;> simp [Table.write]
      · rcases hset.status with rfl | rfl <;> simp [Table.write]
    | upcall e' func =>
      cases he
      refine ⟨ph, hph, hat.silent rfl rfl ?_ ?_ ?_ ?_ ?_ ?_ ?_⟩ <;> simp [Table.write, Holds, Idle]
    | perm e' perm =>
      cases he
      refine ⟨ph, hph, hat.silent rfl rfl ?_ ?_ ?_ ?_ ?_ ?_ ?_⟩ <;> simp [Table.write, Holds, Idle]
    | deliver e' sender value =>
      cases he
      exact hat.deliver hg hw hph
    | recv e' dstva =>
      cases he
      exact hat.recv hg hw hph
    | clear c' => cases he
    | run c' e' =>
      cases he
      obtain ⟨rfl, -⟩ := hw
      exact hat.run hg' hph
  · exact ⟨ph, by rw [seen_write_of_ne he]; exact hph, hat.write_of_ne hg he⟩

/-- What is known during a step. -/
theorem Written.ground (h : Written s ev c t) (hone : OneCpu NotFreeOrRunnable none s.procs)
    (hfree : FreeOk s.procs)
    (hblocked : BlockedOk s) (hok : LeavesBlocked s ev) : Ground s ev c e t := by
  refine ⟨hblocked, fun c' hc' => ?_, fun hfl => ?_, fun hr => h.waiting hblocked hone.inj hok hr⟩
  · have hlive := hone.live c' e (by simp) hc'
    rw [procs_live] at hlive
    exact Option.isSome_iff_ne_none.mp hlive
  · have hlive := hfree.head hfl
    rw [procs_live] at hlive
    simpa using hlive

end Step

/-! ### In every state of a run -/

/-- Between two steps the record of the receiver is what the phase of its history says. -/
def Linked (e : ℕ) (x : KState × List RecvSignal) : Prop :=
  ∃ ph, phase x.2 = some ph ∧ ∀ ev c, At x.1 ev c e x.2 x.1.reset.table ph

variable {x x' : KState × List RecvSignal}

theorem ipcStep_eq_some : ipcStep e x ev = some x' ↔
    step x.1 ev = some x'.1 ∧ x'.2 = x'.1.acts.filterMap (Act.signal x.1 ev e) ++ x.2 := by
  obtain ⟨s', h'⟩ := x'
  rw [ipcStep, Option.map_eq_some_iff]
  constructor
  · rintro ⟨s'', hs, heq⟩
    cases heq
    exact ⟨hs, rfl⟩
  · rintro ⟨hs, hh⟩
    exact ⟨s', hs, Prod.ext rfl hh.symm⟩

/-- The invariant of a run. -/
structure IpcOk (e : ℕ) (x : KState × List RecvSignal) : Prop where
  one : OneCpu NotFreeOrRunnable none x.1.procs
  free : FreeOk x.1.procs
  blocked : BlockedOk x.1
  linked : Linked e x

/-- A step goes on with the protocol. -/
theorem IpcOk.at (h : IpcOk e x) (hok : LeavesBlocked x.1 ev) (hs : ipcStep e x ev = some x') :
    ∃ ph, phase x'.2 = some ph ∧ At x.1 ev ev.cpu e x.2 x'.1.table ph := by
  obtain ⟨hstep, hh⟩ := ipcStep_eq_some.mp hs
  obtain ⟨ph, hph, hat⟩ := h.linked
  have hrun : Written x.1 ev ev.cpu x'.1.table ∧
      ∃ ph, phase (seen x.1 ev e x.2 x'.1.table) = some ph ∧
      At x.1 ev ev.cpu e x.2 x'.1.table ph := by
    refine Reach.invariant (I := fun t => Written x.1 ev ev.cpu t ∧
      ∃ ph, phase (seen x.1 ev e x.2 t) = some ph ∧ At x.1 ev ev.cpu e x.2 t ph)
        (step_written hstep)
      ⟨Written.start, ph, hph, hat ev ev.cpu⟩ ?_
    rintro t _ w ⟨hwr, ph, hph, hat⟩ hall ⟨rfl⟩
    have hwr' := hwr.write hall
    exact ⟨hwr', hat.write (hwr.ground h.one h.free h.blocked hok)
      (hwr'.ground h.one h.free h.blocked hok) hall hph⟩
  obtain ⟨-, ph', hph', hat'⟩ := hrun
  exact ⟨ph', by rw [hh]; exact hph', hat'⟩

theorem IpcOk.step (h : IpcOk e x) (hok : LeavesBlocked x.1 ev) (hs : ipcStep e x ev = some x') :
    IpcOk e x' := by
  obtain ⟨hstep, hh⟩ := ipcStep_eq_some.mp hs
  refine ⟨h.one.step occupied_notFreeOrRunnable h.free (hok.others h.blocked) hstep,
    h.free.step hstep,
    h.blocked.step h.one.inj hok hstep, ?_⟩
  obtain ⟨ph, hph, hat⟩ := h.at hok hs
  refine ⟨ph, hph, fun ev' c' => ?_⟩
  rcases ph with _ | tf | ⟨tf, m⟩ | ⟨tf, m⟩
  · exact hat
  · exact ⟨hat.recving, hat.status, hat.frame, hat.live.2, hat.live.2⟩
  · exact ⟨hat.recving, hat.message, hat.status, hat.frame, ⟨hat.apart.2 c', hat.apart.2⟩,
      hat.live.2, hat.live.2⟩
  · exact ⟨hat.1, hat.2.1, fun hret => absurd rfl hret.1⟩

theorem ipcOk_of_reach (h₀ : Booted s₀)
    (h : Reach (ipcStep e) (fun x ev => LeavesBlocked x.1 ev) (s₀, []) x) :
    IpcOk e x := by
  refine h.invariant ⟨h₀.oneCpu, h₀.freeOk, h₀.blockedOk, .out, rfl, fun _ _ _ => (h₀.envs e).1⟩ ?_
  exact fun _ _ _ ht hok hs => ht.step hok hs

/-- The rendezvous of the receiver `e`, after a run with the history `x.2`. -/
structure DeliversOnce (e : ℕ) (x : KState × List RecvSignal) : Prop where
  /-- Each call is answered by one send, and each send answers a call, which returns; unless the
  receiver is freed first. -/
  once : Once x.2
  /-- The message stays in the record until the next call. -/
  message : ∀ new m old, x.2 = new ++ .send m :: old → (∀ y ∈ new, y = .resume) →
    (x.1.envs e).envIpcFrom = m.1 ∧ (x.1.envs e).envIpcValue = m.2
  /-- A call returns with the registers it saved, and 0. -/
  returns : ∀ ev x' tf m, LeavesBlocked x.1 ev → ipcStep e x ev = some x' → Returns x.2 x'.2 tf m →
    (x'.1.envs e).envTf = tf.ret 0

theorem deliversOnce (h₀ : Booted s₀)
    (h : Reach (ipcStep e) (fun x ev => LeavesBlocked x.1 ev) (s₀, []) x) :
    DeliversOnce e x := by
  have hok := ipcOk_of_reach h₀ h
  obtain ⟨ph, hph, hat⟩ := hok.linked
  have hne : phase x.2 ≠ none := by
    rw [hph]
    exact Option.some_ne_none ph
  refine ⟨once_of_phase hne, fun new m old hx hnew => ?_, fun ev x' tf m hleaves hs hret => ?_⟩
  · rw [hx] at hne hph
    obtain ⟨tf, hsent | hback⟩ := phase_resumes hne hnew
    · rw [hph, Option.some.injEq] at hsent
      subst hsent
      exact (hat (.start 0) 0).message
    · rw [hph, Option.some.injEq] at hback
      subst hback
      exact (hat (.start 0) 0).2.1
  · obtain ⟨-, hh⟩ := ipcStep_eq_some.mp hs
    obtain ⟨ph', hph', hat'⟩ := hok.at hleaves hs
    obtain ⟨hnew, old, hx'⟩ := id hret
    rw [hx'] at hph'
    have hphase : phase ([.resume] ++ .send m :: .call tf :: old) ≠ none := by
      rw [List.singleton_append, hph']
      exact Option.some_ne_none _
    obtain ⟨tf', old', hold, hsent⟩ :=
      phase_send (m := m) (h := .call tf :: old) (phase_of_append hphase)
    cases hold
    rw [phase_cons_of_some hsent] at hph'
    cases hph'
    refine (hat'.2.2 ?_).2
    rw [seen, show x'.1.table.acts = x'.1.acts from rfl, ← hh]
    exact hret

/-! ### The sends of a run -/

/-- A `sys_ipc_try_send` to `e` that returns 0. -/
def SendsZero (s : KState) (ev : Event) (c cur e : ℕ) (a : SysArgs) (s₁ s₂ : KState) : Prop :=
  SysCall s ev c cur a s₁ ∧ SysNo.ofWord a.no = some .ipcTrySend ∧ ipcSendArgs s₁ cur a.a1 = .ok e ∧
    syscall s₁ c cur a = .ok (0, s₂)

/-- What a send that returns 0 has done. -/
theorem sysIpcTrySend_zero {envid value srcva perm : Word} (hargs : ipcSendArgs s cur envid = .ok e)
    (h : sysIpcTrySend s cur envid value srcva perm = .ok (0, s')) :
    ∃ s₁, Quiet s s₁ ∧ (srcva < UTOP → ipcSendPage s cur e srcva perm = .ok (0, s₁)) ∧
      (¬ srcva < UTOP → s₁ = s) ∧
      s' = ipcDeliver s₁ cur e value := by
  simp only [sysIpcTrySend, hargs] at h
  split_ifs at h with hva
  · obtain ⟨⟨r, s₁⟩, hpage, h₁⟩ := bind_eq_ok.mp h
    dsimp only at h₁
    split_ifs at h₁ with hr
    · cases h₁
      exact absurd rfl hr
    · cases h₁
      rw [not_not.mp hr] at hpage
      exact ⟨s₁, ipcSendPage_quiet hpage, fun _ => hpage, fun h => absurd hva h, rfl⟩
  · cases h
    exact ⟨s, .refl s, fun h => absurd h hva, fun _ => rfl, rfl⟩

theorem SendsZero.send {a : SysArgs} (h : SendsZero s ev c cur e a s₁ s₂) :
    sysIpcTrySend s₁ cur a.a1 a.a2 a.a3 a.a4 = .ok (0, s₂) := by
  obtain ⟨-, hno, -, hr⟩ := h
  rw [syscall, hno] at hr
  exact liftStop_eq_ok.mp hr

/-- A send that gets past its checks returns 0. -/
theorem Sends.zero (h : Sends s ev c e) : ∃ cur a s₁ s₂, SendsZero s ev c cur e a s₁ s₂ := by
  obtain ⟨cur, a, s₁, hcall, hno, hargs, hpage⟩ := h
  by_cases hva : a.a3 < UTOP
  · obtain ⟨s₂, hpage⟩ := hpage hva
    refine ⟨cur, a, s₁, ipcDeliver s₂ cur e a.a2, hcall, hno, hargs, ?_⟩
    rw [syscall, hno]
    simp only [sysIpcTrySend, hargs, hva, if_true, hpage, ok_bind, ne_eq, not_true_eq_false,
      if_false, pure_eq_ok,
      liftStop]
  · refine ⟨cur, a, s₁, ipcDeliver s₁ cur e a.a2, hcall, hno, hargs, ?_⟩
    rw [syscall, hno]
    simp only [sysIpcTrySend, hargs, hva, if_false, liftStop]

/-- A send to `e` is in the acts of a step when a `sys_ipc_try_send` to it returns 0, and then
once. -/
theorem ipc_mem_acts (hs : step s ev = some s') : (.ipc e ∈ s'.acts ↔
    ∃ c cur a s₁ s₂, SendsZero s ev c cur e a s₁ s₂) ∧ s'.acts.count (.ipc e) ≤ 1 := by
  have hzero : ∀ {c cur a s₁ s₂}, SendsZero s ev c cur e a s₁ s₂ →
      .ipc e ∈ s'.acts ∧ s'.acts.count (.ipc e) ≤ 1 := by
    intro c cur a s₁ s₂ h
    obtain ⟨hcall, -, hargs, hr⟩ := id h
    obtain ⟨s₃, hquiet, hret⟩ := hcall.step hr hs
    obtain ⟨y, hacts, hy⟩ := trapReturn_acts hret
    have hs₂ : s₂.acts = [.ipc e] := by
      obtain ⟨s₄, hpage, -, -, rfl⟩ := sysIpcTrySend_zero hargs h.send
      have hs₁ : s₁.acts = [] := by
        obtain ⟨trap, -, -, -, -, -, rfl⟩ := hcall
        exact (fresh_trapEntry (s := s) trap).2
      rw [(ipcDeliver_acts a.a2).2, hpage.2, hs₁]
    have hne : y ≠ .ipc e := by
      rintro rfl
      exact hy
    rw [hacts.2, hquiet.2, hs₂]
    refine ⟨List.mem_cons_of_mem _ (List.mem_singleton_self _), ?_⟩
    rw [List.count_cons_of_ne hne, List.count_singleton_self]
  -- an act is logged under its guard
  have hsends : .ipc e ∈ s'.acts → ∃ c cur a s₁ s₂, SendsZero s ev c cur e a s₁ s₂ := by
    intro hmem
    obtain ⟨q, -, -, cur, a, s₁, hcall, hno, hargs, hpage⟩ :=
      (step_logged hs).1.of_mem (I := fun _ => True) trivial (fun _ _ _ _ _ => trivial) hmem
    exact ⟨_, Sends.zero ⟨cur, a, s₁, hcall, hno, hargs, hpage⟩⟩
  have hsent : (∃ c cur a s₁ s₂, SendsZero s ev c cur e a s₁ s₂) → .ipc e ∈ s'.acts := by
    rintro ⟨c, cur, a, s₁, s₂, h⟩
    exact (hzero h).1
  refine ⟨⟨hsends, hsent⟩, ?_⟩
  by_cases hmem : .ipc e ∈ s'.acts
  · obtain ⟨c, cur, a, s₁, s₂, h⟩ := hsends hmem
    exact (hzero h).2
  · rw [List.count_eq_zero.mpr hmem]
    exact Nat.zero_le 1

/-- Permissions that a send accepts have `PTE_P`. -/
theorem ne_zero_of_ipcPageOk {pte srcva perm : Word} (h : ipcPageOk pte srcva perm = true) :
    perm ≠ 0 := by
  rintro rfl
  have hP : test 0#32 PTE_P = false := by decide
  simp [ipcPageOk, hP] at h

/-- The page of a send: it is at `env_ipc_dstva` of the receiver, with the permissions. -/
theorem SendsZero.maps {a : SysArgs} {src dst : ℕ} {pte : Word} (h : SendsZero s ev c cur e a s₁ s₂)
    (hva : a.a3 < UTOP)
    (hsrc : (s₁.envs cur).envPgdir = some src) (hpte : translate s₁.mem src a.a3 = some pte)
    (hdstva : (s₁.envs e).envIpcDstva < UTOP) (hdst : (s₁.envs e).envPgdir = some dst)
    (hown : ¬ OwnTable s₁.mem dst (s₁.envs e).envIpcDstva) :
    translate s₂.mem dst (s₁.envs e).envIpcDstva = some (mkPte (PGNUM pte) a.a4) := by
  obtain ⟨s₄, -, hpage, -, rfl⟩ := sysIpcTrySend_zero h.2.2.1 h.send
  have hpage := hpage hva
  simp only [ipcSendPage, hsrc, hdst, deref, ok_bind] at hpage
  obtain ⟨o, hlook, h₁⟩ := bind_eq_ok.mp hpage
  -- the entry that `page_lookup` finds is the one the hardware finds
  obtain ⟨hP, rfl, -⟩ := translate_eq_some.mp hpte
  rcases pageLookup_look hlook with ⟨-, hP'⟩ | ⟨rfl, -⟩
  · exact absurd hP hP'
  dsimp only at h₁
  split_ifs at h₁ with hok
  · cases h₁
  obtain ⟨⟨flag, m⟩, hins, h₂⟩ := bind_eq_ok.mp h₁
  by_cases hflag : flag = 0
  · subst hflag
    cases h₂
    rw [Bool.not_eq_true', Bool.not_eq_false] at hok
    exact translate_pageInsert hins (isFlags_of_ipcPageOk hok) hown
  · rw [if_pos hflag] at h₂
    cases h₂
    exact absurd rfl hflag

theorem SendsZero.message {a : SysArgs} (h : SendsZero s ev c cur e a s₁ s₂) :
    ev.message s = ((s.envs cur).envId, a.a2) := by
  obtain ⟨⟨trap, rfl, hcur, -, -, rfl, -⟩, -⟩ := h
  rw [Event.message, hcur]
  rfl

/-- **IPC delivers exactly once**, in any run that leaves blocked environments alone. What the
history calls a send is a `sys_ipc_try_send` to `e` that returns 0, and it maps the page it
sends. -/
theorem deliversOnce_of_reach (h₀ : Booted s₀)
    (h : Reach (ipcStep e) (fun x ev => LeavesBlocked x.1 ev) (s₀, []) x) : DeliversOnce e x ∧
    (∀ ev s', step x.1 ev = some s' →
      (.ipc e ∈ s'.acts ↔ ∃ c cur a s₁ s₂, SendsZero x.1 ev c cur e a s₁ s₂) ∧
      s'.acts.count (.ipc e) ≤ 1) ∧
    ∀ ev c cur a s₁ s₂, SendsZero x.1 ev c cur e a s₁ s₂ →
      ev.message x.1 = ((x.1.envs cur).envId, a.a2) ∧
      ∀ src dst pte, a.a3 < UTOP → (s₁.envs cur).envPgdir = some src →
        translate s₁.mem src a.a3 = some pte →
        (s₁.envs e).envIpcDstva < UTOP → (s₁.envs e).envPgdir = some dst →
        ¬ OwnTable s₁.mem dst (s₁.envs e).envIpcDstva →
        translate s₂.mem dst (s₁.envs e).envIpcDstva = some (mkPte (PGNUM pte) a.a4) := by
  refine ⟨deliversOnce h₀ h, fun ev s' hs => ipc_mem_acts hs, fun ev c cur a s₁ s₂ hsend =>
    ⟨hsend.message, ?_⟩⟩
  exact fun src dst pte hva hsrc hpte hdstva hdst hown => hsend.maps hva hsrc hpte hdstva hdst hown

/-- Of two environments the first calls `sys_ipc_recv`, the second sends it 5 and yields, and the
call returns. -/
theorem deliversOnce_five : ∃ x tf old, Reach (ipcStep 0) (fun x ev => LeavesBlocked x.1 ev)
    (bootState 1, []) x ∧
    x.2 = .resume :: .send (0x1001, 5) :: .call tf :: old ∧ DeliversOnce 0 x := by
  have hrun : (([Event.create 0 emptyElf, .create 0 emptyElf, .start 0,
      .trap 0 (sysTrap 12 UTOP 0 0 0 0),
      .trap 0 (sysTrap 11 0x1000 5 UTOP 0 0), .trap 0 (sysTrap 10 0 0 0 0 0)].foldlM (ipcStep 0)
        (bootState 1, [])).map
      fun x => match x.2 with
        | .resume :: .send m :: .call _ :: _ => some m
        | _ => none) = some (some (0x1001, 5)) := by decide +kernel
  obtain ⟨x, hs, hx⟩ := Option.map_eq_some_iff.mp hrun
  have hreach : Reach (ipcStep 0) (fun x ev => LeavesBlocked x.1 ev) (bootState 1, []) x := by
    refine Reach.of_foldlM hs fun t ev hev => ?_
    simp only [List.mem_cons, List.not_mem_nil, or_false] at hev
    rcases hev with rfl | rfl | rfl | rfl | rfl | rfl
    · exact leavesBlocked_of_not_trap (by simp)
    · exact leavesBlocked_of_not_trap (by simp)
    · exact leavesBlocked_of_not_trap (by simp)
    · exact leavesBlocked_of_no (by decide) (by decide)
    · exact leavesBlocked_of_no (by decide) (by decide)
    · exact leavesBlocked_of_no (by decide) (by decide)
  split at hx
  · rename_i m tf old hx'
    cases hx
    exact ⟨x, tf, old, hreach, hx', (deliversOnce_of_reach (bootState_booted 1) hreach).1⟩
  · cases hx

/-- The event sets no status of an environment that is blocked in `sys_ipc_recv`. -/
def SetsNoBlocked (s : KState) (ev : Event) : Prop :=
  ∀ c e st, SetsStatus s ev c e st → (s.envs e).envIpcRecving = false

/-- A check of it. -/
def setsNoBlocked (s : KState) : Event → Bool
  | .trap _ t => SysNo.ofWord t.args.no != some .envSetStatus ||
      t.args.a1 != 0 && !(s.envs (ENVX t.args.a1)).envIpcRecving
  | _ => true

theorem setsNoBlocked_of_check (h : setsNoBlocked s ev = true) : SetsNoBlocked s ev := by
  rintro c e st ⟨cur, a, s₁, ⟨trap, rfl, -, -, -, rfl, -⟩, hno, -, henv⟩
  simp only [setsNoBlocked, hno, bne_self_eq_false, Bool.false_or, Bool.and_eq_true,
    bne_iff_ne, ne_eq,
    Bool.not_eq_true'] at h
  simp only [envid2env] at henv
  rw [if_neg h.1] at henv
  split_ifs at henv
  cases henv
  exact h.2

/-- An environment forks a child, makes it runnable, and CPU 1 runs it; its parent on CPU 0 makes it
runnable again and yields, so that CPU 0 runs it as well. On CPU 0 it calls `sys_ipc_recv`, and the
parent sends it 5. -/
def twiceRun : List Event :=
  [.create 0 emptyElf, .start 0, .trap 0 (sysTrap 7 0 0 0 0 0),
    .trap 0 (sysTrap 8 0x1001 2 0 0 0), .start 1,
    .trap 0 (sysTrap 8 0x1001 2 0 0 0), .trap 0 (sysTrap 10 0 0 0 0 0),
    .trap 0 (sysTrap 12 UTOP 0 0 0 0),
    .trap 0 (sysTrap 11 0x1001 5 UTOP 0 0)]

/-- After `twiceRun` the child goes on from a timer interrupt on CPU 1, and its call is lost. -/
theorem not_deliversOnce : ∃ x, Reach (ipcStep 1) (fun x ev => SetsNoBlocked x.1 ev)
    (bootState 2, []) x ∧
    ¬ DeliversOnce 1 x := by
  have hrun : ((twiceRun.foldlM (fun x ev => if setsNoBlocked x.1 ev then ipcStep 1 x ev else none)
      (bootState 2, [])).bind fun x => (ipcStep 1 x (.trap 1 timerTrap)).map fun x' =>
        (match x.2 with
          | .send _ :: .call tf :: _ => tf.tfTrapno
          | _ => 0, x'.1.acts, (x'.1.envs 1).envTf.tfTrapno)) = some (T_SYSCALL, [.run 1 1],
              IRQ_OFFSET) := by
    decide +kernel
  obtain ⟨x, hs, hrun⟩ := Option.bind_eq_some_iff.mp hrun
  obtain ⟨x', hs', h⟩ := Option.map_eq_some_iff.mp hrun
  simp only [Prod.mk.injEq] at h
  obtain ⟨hx, hacts, hno⟩ := h
  refine ⟨x, Reach.of_guarded hs fun t ev => setsNoBlocked_of_check, fun honce => ?_⟩
  split at hx
  · rename_i m tf old hx'
    obtain ⟨-, hh⟩ := ipcStep_eq_some.mp hs'
    have hreturns : Returns x.2 x'.2 tf m := by
      rw [hh, hacts, hx']
      exact ⟨by simp [Act.signal], old, rfl⟩
    have hret := honce.returns _ _ _ _ (leavesBlocked_of_no (by decide) (by decide)) hs' hreturns
    rw [hret] at hno
    exact absurd (hx.symm.trans hno) (by decide)
  · exact absurd hx (by decide)

end JOS
