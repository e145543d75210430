import JOS.Kern.Cga
import JOS.Strings.Memmove

/-!
# The text stays on the screen

`cga_putc` begins and ends with the cursor below `CRT_SIZE`; in between, after a character
or a newline, it can be at `CRT_SIZE`, and then the text moves up by a row (`Scrolled`).
What holds of every step, the calls for the spaces of a tab included, is `OnScreen`; a
call keeps it because the `switch` does, and the `switch` calls only with spaces.
-/

namespace JOS

variable {s s' s'' : Crt} {c : Word} {w : BitVec 16} {i j k : ℕ}

theorem CRT_SIZE_eq : CRT_SIZE = 2000 := rfl

/-! ### Cells -/

/-- Byte `k` of the display whose cells begin at `buf`. -/
def Display.byte (d : Display) (buf : Word) (k : ℕ) : BitVec 8 := d.mem (buf + BitVec.ofNat 32 k)

/-- Cell `i`. -/
def Display.cell (d : Display) (buf : Word) (i : ℕ) : BitVec 16 :=
  d.byte buf (2 * i + 1) ++ d.byte buf (2 * i)

/-- The addresses of the display. -/
def InDisplay (buf a : Word) : Prop := (a - buf).toNat < 2 * CRT_SIZE

/-- The two halves of a cell. -/
theorem append_halves (w : BitVec 16) : ((w >>> 8).setWidth 8 ++ w.setWidth 8 : BitVec 16) = w := by
  refine BitVec.eq_of_getLsbD_eq fun i hi => ?_
  rw [BitVec.getLsbD_append]
  by_cases h : i < 8
  · simp [h]
  · have h8 : i - 8 < 8 := by omega
    simp [h, h8, show 8 + (i - 8) = i by omega]

/-- What a store changes, byte for byte. -/
theorem setCell_mem (s : Crt) (i : ℕ) (w : BitVec 16) : (s.setCell i w).mem =
    Function.update (Function.update s.mem (s.crtBuf + BitVec.ofNat 32 (2 * i)) (w.setWidth 8))
      (s.crtBuf + BitVec.ofNat 32 (2 * i + 1)) ((w >>> 8).setWidth 8) := by
  rw [← offset_succ]
  rfl

theorem setCell_byte (hi : i < CRT_SIZE) (hk : k < 2 * CRT_SIZE) : (s.setCell i w).byte s.crtBuf k =
    if k = 2 * i + 1 then (w >>> 8).setWidth 8 else if k = 2 * i then w.setWidth 8
        else s.byte s.crtBuf k := by
  rw [CRT_SIZE_eq] at hi hk
  have hne : ∀ k', k' < 4001 → k ≠ k' → s.crtBuf + BitVec.ofNat 32 k ≠ s.crtBuf +
      BitVec.ofNat 32 k' := by
    intro k' hk' hne heq
    exact hne (offset_inj _ (by omega) (by omega) heq)
  rw [Display.byte, setCell_mem]
  split_ifs with h₁ h₀
  · rw [h₁, Function.update_self]
  · rw [Function.update_of_ne (hne _ (by omega) h₁), h₀, Function.update_self]
  · rw [Function.update_of_ne (hne _ (by omega) h₁), Function.update_of_ne (hne _ (by omega) h₀)]
    rfl

/-- A store to a cell of the screen changes that cell. -/
theorem setCell_cell (hi : i < CRT_SIZE) (hj : j < CRT_SIZE) :
    (s.setCell i w).cell s.crtBuf j = if j = i then w else s.cell s.crtBuf j := by
  rw [Display.cell, setCell_byte hi (by omega), setCell_byte hi (by omega)]
  by_cases hij : j = i
  · subst hij
    rw [if_pos rfl, if_neg (by omega), if_pos rfl, if_pos rfl, append_halves]
  · rw [if_neg (by omega), if_neg (by omega), if_neg (by omega), if_neg (by omega), if_neg hij]
    rfl

/-! ### What every step keeps -/

/-- What a scroll does: the rows move up, and the last one is blank. -/
structure Scrolled (buf : Word) (d d' : Display) : Prop where
  rows : ∀ r < CRT_ROWS - 1, ∀ k < CRT_COLS, d'.cell buf (r * CRT_COLS + k) = d.cell buf
    ((r + 1) * CRT_COLS + k)
  last : ∀ k < CRT_COLS, d'.cell buf ((CRT_ROWS - 1) * CRT_COLS + k) = 0x0720
  cursor : d'.crtPos.toNat + CRT_COLS = d.crtPos.toNat

/-- A call of `cga_putc` that had the display `d` after the character and leaves `d'`. -/
structure CallOk (buf : Word) (d d' : Display) : Prop where
  cursor : d'.crtPos.toNat < CRT_SIZE
  still : d.crtPos.toNat < CRT_SIZE → d' = d
  scrolled : CRT_SIZE ≤ d.crtPos.toNat → Scrolled buf d d'

/-- From `s` to `s'` only cells of the screen are touched, no other memory is changed, and every
call is as it should be. -/
structure OnScreen (s s' : Crt) : Prop where
  mono : s'.mono = s.mono
  outside : ∀ a, ¬ InDisplay s.crtBuf a → s'.mem a = s.mem a
  touched : ∃ l, s'.touched = s.touched ++ l ∧ ∀ i ∈ l, i < CRT_SIZE
  calls : ∃ l, s'.calls = s.calls ++ l ∧ ∀ q ∈ l, CallOk s.crtBuf q.1 q.2

namespace OnScreen

theorem crtBuf_eq (h : OnScreen s s') : s'.crtBuf = s.crtBuf := by
  rw [Crt.crtBuf, Crt.crtBuf, h.mono]

theorem refl (s : Crt) : OnScreen s s :=
  ⟨rfl, fun _ _ => rfl, ⟨[], by simp⟩, ⟨[], by simp⟩⟩

theorem trans (h : OnScreen s s') (h' : OnScreen s' s'') : OnScreen s s'' := by
  obtain ⟨l, hl, hin⟩ := h.touched
  obtain ⟨l', hl', hin'⟩ := h'.touched
  obtain ⟨q, hq, hok⟩ := h.calls
  obtain ⟨q', hq', hok'⟩ := h'.calls
  refine ⟨h'.mono.trans h.mono, fun a ha => ?_, ⟨l ++ l', by rw [hl', hl, List.append_assoc], ?_⟩,
    ⟨q ++ q', by rw [hq', hq, List.append_assoc], ?_⟩⟩
  · rw [h'.outside a (by rwa [h.crtBuf_eq]), h.outside a ha]
  · intro i hi
    exact (List.mem_append.mp hi).elim (hin i) (hin' i)
  · intro x hx
    refine (List.mem_append.mp hx).elim (hok x) fun hx => ?_
    rw [← h.crtBuf_eq]
    exact hok' x hx

/-- A step that touches no cell and makes no call. -/
theorem quiet (hmono : s'.mono = s.mono) (hmem : s'.mem = s.mem) (htouched : s'.touched = s.touched)
    (hcalls : s'.calls = s.calls) : OnScreen s s' :=
  ⟨hmono, fun a _ => by rw [hmem], ⟨[], by simp [htouched]⟩, ⟨[], by simp [hcalls]⟩⟩

theorem setCell (s : Crt) (hi : i < CRT_SIZE) (w : BitVec 16) : OnScreen s (s.setCell i w) := by
  refine ⟨rfl, fun a ha => ?_, ⟨[i], rfl, by simpa using hi⟩, ⟨[], by simp [Crt.setCell]⟩⟩
  rw [CRT_SIZE_eq] at hi
  have hne : ∀ k < 4000, a ≠ s.crtBuf + BitVec.ofNat 32 k := by
    rintro k hk rfl
    refine ha ?_
    rw [InDisplay, offset_toNat _ (by omega)]
    exact hk
  rw [setCell_mem, Function.update_of_ne (hne _ (by omega)),
    Function.update_of_ne (hne _ (by omega))]

end OnScreen

/-! ### The scroll -/

/-- Blanking cells. -/
theorem foldl_setCell (l : List ℕ) (hl : ∀ i ∈ l, i < CRT_SIZE) (s : Crt) :
    OnScreen s (l.foldl (fun s i => s.setCell i w) s) ∧
      (l.foldl (fun s i => s.setCell i w) s).crtPos = s.crtPos ∧
      ∀ j < CRT_SIZE, (l.foldl (fun s i => s.setCell i w) s).cell s.crtBuf j = if j ∈ l then w
        else s.cell s.crtBuf j := by
  induction l generalizing s with
  | nil => exact ⟨OnScreen.refl s, rfl, fun j _ => by simp⟩
  | cons i l ih =>
    have hi := hl i List.mem_cons_self
    obtain ⟨hon, hpos, hcell⟩ := ih (fun k hk => hl k (List.mem_cons_of_mem _ hk)) (s.setCell i w)
    have hstep := OnScreen.setCell s hi w
    refine ⟨hstep.trans hon, hpos, fun j hj => ?_⟩
    rw [List.foldl_cons, ← hstep.crtBuf_eq, hcell j hj, hstep.crtBuf_eq, setCell_cell hi hj]
    by_cases hjl : j ∈ l
    · rw [if_pos hjl, if_pos (List.mem_cons_of_mem _ hjl)]
    · by_cases hji : j = i
      · rw [if_neg hjl, if_pos hji, if_pos (hji ▸ List.mem_cons_self)]
      · rw [if_neg hjl, if_neg hji, if_neg fun h => (List.mem_cons.mp h).elim hji hjl]

/-- The `memmove` of a scroll. -/
def crtMove (s : Crt) : Crt :=
  { s with
    mem := (memmove s.mem s.crtBuf (s.crtBuf + BitVec.ofNat 32 (2 * CRT_COLS))
      (BitVec.ofNat 32 (2 * (CRT_SIZE - CRT_COLS)))).2.1
    touched := s.touched ++ (List.range (CRT_SIZE - CRT_COLS)).map (· + CRT_COLS) ++ List.range
      (CRT_SIZE - CRT_COLS) }

/-- Both displays are far from the end of the address space. -/
theorem crtBuf_le (s : Crt) : s.crtBuf.toNat ≤ 0xF00B8000 ∧ 0xF00B0000 ≤ s.crtBuf.toNat := by
  rw [Crt.crtBuf]
  split_ifs <;> decide

theorem crtMove_mem (s : Crt) : MovedTo s.mem s.crtBuf (s.crtBuf + BitVec.ofNat 32 160) 0 3840
    (crtMove s).mem := by
  obtain ⟨hle, hge⟩ := crtBuf_le s
  have hsrc : (s.crtBuf + BitVec.ofNat 32 160).toNat = s.crtBuf.toNat + 160 := by
    rw [BitVec.toNat_add, BitVec.toNat_ofNat]
    omega
  have hn : (BitVec.ofNat 32 3840).toNat = 3840 := rfl
  obtain ⟨mem', hmove, -, hmoved⟩ := memmove_up s.mem s.crtBuf (s.crtBuf + BitVec.ofNat 32 160)
    (BitVec.ofNat 32 3840) (by omega) (by omega) fun h => by
      have := BitVec.lt_def.mp h.1
      omega
  have hmem : (crtMove s).mem = mem' := congrArg (fun q => q.2.1) hmove
  rw [hmem]
  exact hmoved

theorem crtMove_cell (s : Crt) (hj : j < CRT_SIZE - CRT_COLS) :
    (crtMove s).cell s.crtBuf j = s.cell s.crtBuf (j + CRT_COLS) := by
  have hj : j < 1920 := hj
  have hbyte : ∀ k < 3840, (crtMove s).byte s.crtBuf k = s.byte s.crtBuf (k + 160) := by
    intro k hk
    rw [Display.byte, crtMove_mem s, offset_toNat _ (by omega), if_pos ⟨Nat.zero_le _, hk⟩,
      Display.byte]
    congr 1
    rw [show s.crtBuf + BitVec.ofNat 32 k - s.crtBuf = BitVec.ofNat 32 k by rw [BitVec.add_comm,
      BitVec.add_sub_cancel],
      BitVec.add_assoc, ← BitVec.ofNat_add, Nat.add_comm 160 k]
  rw [Display.cell, hbyte _ (by omega), hbyte _ (by omega), Display.cell, CRT_COLS, Nat.mul_add,
    Nat.add_right_comm]

theorem crtMove_onScreen (s : Crt) : OnScreen s (crtMove s) := by
  refine ⟨rfl, fun a ha => ?_, ⟨_, List.append_assoc _ _ _, fun i hi => ?_⟩,
    ⟨[], by simp [crtMove]⟩⟩
  · rw [InDisplay, CRT_SIZE_eq] at ha
    rw [crtMove_mem s, if_neg (by omega)]
  · rw [CRT_SIZE_eq, CRT_COLS] at hi
    rw [CRT_SIZE_eq]
    rcases List.mem_append.mp hi with hi | hi
    · obtain ⟨k, hk, rfl⟩ := List.mem_map.mp hi
      have := List.mem_range.mp hk
      omega
    · have := List.mem_range.mp hi
      omega

/-- The row at the bottom. -/
def lastRow : List ℕ := (List.range CRT_COLS).map (· + (CRT_SIZE - CRT_COLS))

theorem mem_lastRow : i ∈ lastRow ↔ CRT_SIZE - CRT_COLS ≤ i ∧ i < CRT_SIZE := by
  rw [lastRow, CRT_SIZE_eq, CRT_COLS, List.mem_map]
  constructor
  · rintro ⟨k, hk, rfl⟩
    have := List.mem_range.mp hk
    omega
  · rintro ⟨h, h'⟩
    exact ⟨i - 1920, List.mem_range.mpr (by omega), by omega⟩

/-- **The scroll**, with the cursor behind the last cell. -/
theorem crtScroll_spec (hpos : s.crtPos.toNat = CRT_SIZE) :
    OnScreen s (crtScroll s) ∧ Scrolled s.crtBuf s.toDisplay (crtScroll s).toDisplay := by
  have hmove := crtMove_onScreen s
  obtain ⟨hon, hcursor, hcell⟩ :=
    foldl_setCell (w := 0x0700 ||| 0x20) lastRow (fun i hi => (mem_lastRow.mp hi).2) (crtMove s)
  rw [hmove.crtBuf_eq] at hcell
  have hscroll : crtScroll s = { lastRow.foldl (fun s i => s.setCell i (0x0700 ||| 0x20))
      (crtMove s) with
      crtPos := (lastRow.foldl (fun s i => s.setCell i (0x0700 ||| 0x20)) (crtMove s)).crtPos -
        BitVec.ofNat 16 CRT_COLS } := rfl
  rw [hscroll]
  generalize lastRow.foldl (fun s i => s.setCell i (0x0700 ||| 0x20)) (crtMove s) = s₁ at *
  refine ⟨(hmove.trans hon).trans (OnScreen.quiet rfl rfl rfl rfl), fun r hr k hk => ?_,
    fun k hk => ?_, ?_⟩
  · have hr : r < 24 := hr
    have hk : k < 80 := hk
    refine (hcell _ (by rw [CRT_SIZE_eq, CRT_COLS]; omega)).trans ?_
    rw [if_neg (by rw [mem_lastRow, CRT_SIZE_eq, CRT_COLS]; omega),
      crtMove_cell s (by rw [CRT_SIZE_eq, CRT_COLS]; omega),
      Nat.add_mul, Nat.one_mul, Nat.add_right_comm]
  · have hk : k < 80 := hk
    refine (hcell _ (by rw [CRT_SIZE_eq, CRT_ROWS, CRT_COLS]; omega)).trans ?_
    rw [if_pos (by rw [mem_lastRow, CRT_SIZE_eq, CRT_ROWS, CRT_COLS]; omega)]
    rfl
  · rw [CRT_SIZE_eq] at hpos
    change (s₁.crtPos - 80#16).toNat + 80 = s.crtPos.toNat
    rw [hcursor, BitVec.toNat_sub]
    change (2 ^ 16 - 80 + s.crtPos.toNat) % 2 ^ 16 + 80 = s.crtPos.toNat
    omega

/-! ### A call -/

/-- **The end of `cga_putc`**, when the cursor is on the screen or right behind it. -/
theorem cgaFinish_spec (hpos : s.crtPos.toNat ≤ CRT_SIZE) :
    OnScreen s (cgaFinish s) ∧ (cgaFinish s).crtPos.toNat < CRT_SIZE := by
  obtain ⟨s₁, hs₁, hon, hok⟩ : ∃ s₁, s₁ = (if s.crtPos.toNat ≥ CRT_SIZE then crtScroll s else s) ∧
      OnScreen s s₁ ∧
      CallOk s.crtBuf s.toDisplay s₁.toDisplay := by
    refine ⟨_, rfl, ?_⟩
    split_ifs with h
    · obtain ⟨hon, hscrolled⟩ := crtScroll_spec (le_antisymm hpos h)
      have hcursor := hscrolled.cursor
      refine ⟨hon, ?_, fun hlt => absurd h (not_le.mpr hlt), fun _ => hscrolled⟩
      rw [CRT_COLS] at hcursor
      omega
    · exact ⟨OnScreen.refl s, not_le.mp h, fun _ => rfl, fun hle => absurd hle h⟩
  rw [cgaFinish]
  dsimp only
  rw [← hs₁]
  refine ⟨⟨hon.mono, hon.outside, hon.touched, ?_⟩, hok.cursor⟩
  obtain ⟨l, hl, hall⟩ := hon.calls
  refine ⟨l ++ [(s.toDisplay, s₁.toDisplay)], ?_, fun q hq => ?_⟩
  · rw [← List.append_assoc, ← hl]
    rfl
  · rcases List.mem_append.mp hq with hq | hq
    · exact hall q hq
    · rw [List.mem_singleton.mp hq]
      exact hok

/-- What the `switch` is to do: stay on the screen, with the cursor at most right behind the last
cell. -/
def SwitchOk (c : Word) : Prop :=
  ∀ s : Crt, s.crtPos.toNat < CRT_SIZE → OnScreen s (cgaSwitch c s) ∧
    (cgaSwitch c s).crtPos.toNat ≤ CRT_SIZE

/-- What a call is to do. -/
def PutOk (putc : Crt → Crt) : Prop :=
  ∀ s : Crt, s.crtPos.toNat < CRT_SIZE → OnScreen s (putc s) ∧ (putc s).crtPos.toNat < CRT_SIZE

theorem SwitchOk.cgaPutc (h : SwitchOk (withAttribute c)) : PutOk (cgaPutc c) := by
  intro s hpos
  obtain ⟨hon, hle⟩ := h s hpos
  obtain ⟨hon', hlt⟩ := cgaFinish_spec hle
  rw [JOS.cgaPutc]
  exact ⟨hon.trans hon', hlt⟩

theorem PutOk.consPutc (h : PutOk (cgaPutc c)) : PutOk (consPutc c) := by
  intro s hpos
  rw [JOS.consPutc]
  obtain ⟨hon, hlt⟩ := h (lptPutc c (serialPutc c s)) hpos
  have hports : OnScreen s (lptPutc c (serialPutc c s)) := OnScreen.quiet rfl rfl rfl rfl
  exact ⟨hports.trans hon, hlt⟩

theorem PutOk.comp {f g : Crt → Crt} (hf : PutOk f) (hg : PutOk g) : PutOk fun s => g (f s) := by
  intro s hpos
  obtain ⟨hon, hlt⟩ := hf s hpos
  obtain ⟨hon', hlt'⟩ := hg (f s) hlt
  exact ⟨hon.trans hon', hlt'⟩

/-- Back to the first column. -/
theorem column_toNat (p : BitVec 16) : (p - p % BitVec.ofNat 16 CRT_COLS).toNat = p.toNat -
    p.toNat % 80 := by
  have hmod : (p % BitVec.ofNat 16 CRT_COLS).toNat = p.toNat % 80 := by
    rw [BitVec.toNat_umod]
    rfl
  have := Nat.mod_le p.toNat 80
  rw [BitVec.toNat_sub, hmod]
  omega

/-- Every character but the tab. -/
theorem switchOk_of_not_tab (hc : isTab c = false) : SwitchOk c := by
  intro s hpos
  rw [CRT_SIZE_eq] at hpos
  have hlt := s.crtPos.isLt
  rw [cgaSwitch]
  dsimp only
  split_ifs with hb h0 hn hr ht
  · have hsub : (s.crtPos - 1).toNat = s.crtPos.toNat - 1 := by
      have hone : 0 < s.crtPos.toNat := BitVec.lt_def.mp h0
      rw [BitVec.toNat_sub]
      change (2 ^ 16 - 1 + s.crtPos.toNat) % 2 ^ 16 = s.crtPos.toNat - 1
      omega
    have hback : OnScreen s { s with crtPos := s.crtPos - 1 } := OnScreen.quiet rfl rfl rfl rfl
    refine ⟨hback.trans (OnScreen.setCell _ ?_ _), ?_⟩
    · rw [hsub, CRT_SIZE_eq]
      omega
    · change (s.crtPos - 1).toNat ≤ CRT_SIZE
      rw [hsub, CRT_SIZE_eq]
      omega
  · exact ⟨OnScreen.refl s, by rw [CRT_SIZE_eq]; omega⟩
  · refine ⟨OnScreen.quiet rfl rfl rfl rfl, ?_⟩
    -- a row further, and back to its first column
    have hadd : (s.crtPos + BitVec.ofNat 16 CRT_COLS).toNat = s.crtPos.toNat + 80 := by
      rw [BitVec.toNat_add]
      change (s.crtPos.toNat + 80) % 2 ^ 16 = s.crtPos.toNat + 80
      omega
    refine (column_toNat _).le.trans ?_
    rw [hadd, CRT_SIZE_eq]
    omega
  · refine ⟨OnScreen.quiet rfl rfl rfl rfl, (column_toNat _).le.trans ?_⟩
    rw [CRT_SIZE_eq]
    omega
  · rw [hc] at ht
    cases ht
  · have hadd : (s.crtPos + 1).toNat = s.crtPos.toNat + 1 := by
      rw [BitVec.toNat_add]
      change (s.crtPos.toNat + 1) % 2 ^ 16 = s.crtPos.toNat + 1
      omega
    have hcell := OnScreen.setCell s (i := s.crtPos.toNat) (by rw [CRT_SIZE_eq]; omega)
      (c.setWidth 16)
    refine ⟨hcell.trans (OnScreen.quiet rfl rfl rfl rfl), ?_⟩
    change (s.crtPos + 1).toNat ≤ CRT_SIZE
    rw [hadd, CRT_SIZE_eq]
    omega

/-- The tab is five spaces. -/
theorem switchOk_tab (hc : isTab c = true) : SwitchOk c := by
  have hspace : PutOk (consPutc 0x20) := (switchOk_of_not_tab (by decide)).cgaPutc.consPutc
  intro s hpos
  have htab : c &&& 0xff = 0x09 := of_decide_eq_true hc
  rw [cgaSwitch, if_neg (by rw [htab]; decide), if_neg (by rw [htab]; decide),
    if_neg (by rw [htab]; decide), dif_pos hc]
  obtain ⟨hon, hlt⟩ := ((((hspace.comp hspace).comp hspace).comp hspace).comp hspace) s hpos
  exact ⟨hon, hlt.le⟩

theorem putOk_cgaPutc (c : Word) : PutOk (cgaPutc c) := by
  refine SwitchOk.cgaPutc ?_
  cases h : isTab (withAttribute c) with
  | true => exact switchOk_tab h
  | false => exact switchOk_of_not_tab h

/-- **The text stays on the screen**, whatever is sent: every cell touched is on it, after every
call the cursor is, and a call that finds the cursor behind the last cell scrolls by one row. -/
theorem cgaPutc_onScreen (cs : List Word) (s : Crt) (hpos : s.crtPos.toNat < CRT_SIZE) :
    OnScreen s (cs.foldl (fun s c => cgaPutc c s) s) ∧
        (cs.foldl (fun s c => cgaPutc c s) s).crtPos.toNat < CRT_SIZE := by
  induction cs generalizing s with
  | nil => exact ⟨OnScreen.refl s, hpos⟩
  | cons c cs ih =>
    obtain ⟨hon, hlt⟩ := putOk_cgaPutc c s hpos
    obtain ⟨hon', hlt'⟩ := ih (cgaPutc c s) hlt
    exact ⟨hon.trans hon', hlt'⟩

/-- A screen with the cursor in its last cell. -/
def fullScreen : Crt := ⟨⟨fun _ => 0, 1999⟩, false, [], [], []⟩

theorem cgaPutc_onScreen_tab :
    OnScreen fullScreen ([0x09, 0x41, 0x0a].foldl (fun s c => cgaPutc c s) fullScreen) ∧
    ([0x09, 0x41, 0x0a].foldl (fun s c => cgaPutc c s) fullScreen).crtPos.toNat < CRT_SIZE :=
  cgaPutc_onScreen [0x09, 0x41, 0x0a] fullScreen (by decide)

end JOS
