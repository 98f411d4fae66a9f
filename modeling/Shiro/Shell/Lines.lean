import Shiro.Shell.Update

/-!
# Every line is executed once

The keyboard buffer holds the line being typed, or one that Enter has ended and `Update` has not
yet taken out.  It cannot hold both: a key that arrives before `Update` has emptied the buffer
changes the ended line, or is thrown away with it.  `Update` itself takes the size of the buffer
for the length of the line, which an Enter that arrives after that read can make wrong.

* `Console.Faithful` : the lines executed and echoed are the lines typed, in order, and an `Update`
  that no key disturbs leaves none behind.
* `Console.Undisturbed` : no key arrives at one of these moments.
* `Console.Inv` : the invariant.
* `faithful_of_undisturbed` : **along every run whose steps are undisturbed, the shell is
  faithful.**
-/

namespace Shiro

namespace Console

/-- The lines executed and echoed are the lines typed. -/
structure Faithful (s : Console) : Prop where
  /-- Each command is a line as it was typed, in the order of typing, and none is left out. -/
  executed : s.executed <+: s.typed
  /-- So are the lines echoed, and each is echoed before it is executed. -/
  echoed : ∃ ls, s.echoed = ls.map (prompt ++ ·) ∧ ls <+: s.typed ∧ s.executed <+: ls
  /-- At the end of an `Update` without a key, no ended line waits. -/
  drained : s.pc = .idle → s.quiet = true →
    newline ∉ cstr s.kbd.buffer ∧ s.executed = s.typed ∧ s.echoed = s.typed.map (prompt ++ ·)

end Console

/-- An Enter that ends a line of `n` characters at this moment is missed or misplaced by the
`Update` under way: the flag it sets is cleared although the size read before does not reach
behind its newline, or the search meets a newline that is not the last of the bytes it takes. -/
def UpdatePc.Misplaces (n : ℕ) : UpdatePc → Prop
  | .readFlag size => 0 < n ∧ n + 1 ≠ size
  | .clearFlag size => 0 < n ∧ n + 1 ≠ size
  | .scan size i _ => 0 < n ∧ i ≤ n ∧ n + 1 < size
  | _ => False

instance (n : ℕ) (pc : UpdatePc) : Decidable (pc.Misplaces n) := by
  cases pc <;> unfold UpdatePc.Misplaces <;> infer_instance

namespace Console

/-- A key makes a character only while the buffer holds no ended line, and no Enter is missed or
misplaced. -/
def Undisturbed (s : Console) : ConsoleEvent → Prop
  | .key status sc => ∀ c ∈ s.kbd.char status sc,
      newline ∉ cstr s.kbd.buffer ∧ (c = newline → ¬ s.pc.Misplaces s.kbd.bufferSize)
  | _ => True

/-! ### The invariant -/

/-- A line that can be typed: printable, and not too long. -/
structure Clean (l : List UInt8) : Prop where
  printable : ∀ c ∈ l, 32 ≤ c ∧ c ≤ 126
  length : l.length ≤ 40

/-- The line taken out of the buffer and not yet executed. -/
def inflight : UpdatePc → List (List UInt8)
  | .notify command => [command]
  | .execute command => [command]
  | _ => []

/-- The line echoed and not yet executed. -/
def echoing : UpdatePc → List (List UInt8)
  | .reset command => [command]
  | .notify command => [command]
  | .execute command => [command]
  | _ => []

/-- What the variables of `Update` say, where `waiting` are the ended lines in the buffer. -/
def PcOk (s : Console) (waiting : List (List UInt8)) : UpdatePc → Prop
  | .idle => (waiting ≠ [] → s.kbd.wasUpdated = true) ∧ (s.quiet = true → waiting = [])
  | .readFlag size => ZeroTail s.kbd.buffer size ∧
      (waiting ≠ [] → s.kbd.wasUpdated = true ∧ size = s.kbd.bufferSize)
  | .clearFlag size => ZeroTail s.kbd.buffer size ∧ (waiting ≠ [] → size = s.kbd.bufferSize)
  | .scan size i execute => ZeroTail s.kbd.buffer size ∧ (execute = true → waiting ≠ []) ∧
      (waiting ≠ [] →
        size = s.kbd.bufferSize ∧ (i < size ∨ execute = true) ∨
        s.kbd.wasUpdated = true ∧ s.quiet = false ∧ execute = false ∧
          (s.kbd.bufferSize ≤ i ∨ size < s.kbd.bufferSize))
  | .branch size execute => (execute = true → waiting ≠ []) ∧
      (waiting ≠ [] →
        size = s.kbd.bufferSize ∧ execute = true ∨
        s.kbd.wasUpdated = true ∧ s.quiet = false ∧ execute = false)
  | .strip size => waiting ≠ [] ∧ size = s.kbd.bufferSize
  | .copy stop i command => ∃ l, waiting = [l] ∧ stop = l.length ∧ i ≤ stop ∧ command = l.take i
  | .concat command => waiting = [command]
  | .echo command => waiting = [command] ∧ s.kbd.scratch = prompt ++ command
  | .reset command => waiting = [command]
  | .notify command => Clean command ∧ (s.quiet = true → waiting = [])
  | .execute command => Clean command ∧ (waiting ≠ [] → s.kbd.wasUpdated = true) ∧
      (s.quiet = true → waiting = [])

/-- The buffer holds the line being typed, or one ended line. -/
inductive Holds (s : Console) : List (List UInt8) → Prop
  | draft : cstr s.kbd.buffer = s.draft → Holds s []
  | ended {l : List UInt8} : cstr s.kbd.buffer = l ++ [newline] → s.draft = [] → Clean l →
      l ≠ [] → Holds s [l]

/-- The invariant, with the ended lines in the buffer. -/
structure Inv (s : Console) (waiting : List (List UInt8)) : Prop where
  /-- The line ends in the array. -/
  terminated : s.kbd.Terminated
  holds : s.Holds waiting
  draft : Clean s.draft
  typed : s.typed = s.executed ++ inflight s.pc ++ waiting
  echoed : s.echoed = (s.executed ++ echoing s.pc).map (prompt ++ ·)
  pc : s.PcOk waiting s.pc

variable {s s' : Console} {w : List (List UInt8)} {l : List UInt8}

theorem Clean.newline_notMem (h : Clean l) : newline ∉ l := by
  intro hn
  exact absurd (h.printable _ hn).1 (by decide)

theorem Clean.zero_notMem (h : Clean l) : 0 ∉ l := by
  intro hn
  exact absurd (h.printable _ hn).1 (by decide)

/-- A buffer with a newline holds an ended line, and conversely. -/
theorem Inv.waiting_iff (h : s.Inv w) : newline ∈ cstr s.kbd.buffer ↔ w ≠ [] := by
  cases h.holds with
  | draft hb =>
    rw [hb]
    exact iff_of_false h.draft.newline_notMem fun hn => hn rfl
  | ended hb =>
    rw [hb]
    exact iff_of_true (by simp) (by simp)

/-- What has been echoed has been typed. -/
theorem Inv.echoed_prefix (h : s.Inv w) : s.executed ++ echoing s.pc <+: s.typed := by
  have hok := h.pc
  have ht := h.typed
  cases hpc : s.pc with
  | reset command =>
    rw [hpc] at hok ht
    have hw : w = [command] := hok
    rw [ht, hw]
    simp [inflight, echoing]
  | notify command =>
    rw [hpc] at ht
    rw [ht]
    exact List.prefix_append _ _
  | execute command =>
    rw [hpc] at ht
    rw [ht]
    exact List.prefix_append _ _
  | _ =>
    rw [ht, List.append_assoc]
    simp [echoing]

/-- **The invariant says that the shell is faithful.** -/
theorem Inv.faithful (h : s.Inv w) : s.Faithful := by
  refine ⟨?_, ⟨_, h.echoed, h.echoed_prefix, List.prefix_append _ _⟩, fun hpc hq => ?_⟩
  · rw [h.typed, List.append_assoc]
    exact List.prefix_append _ _
  · have hok := h.pc
    have ht := h.typed
    have he := h.echoed
    rw [hpc] at hok ht he
    have hw : w = [] := hok.2 hq
    have htyped : s.typed = s.executed := by simpa [hw, inflight] using ht
    refine ⟨fun hn => h.waiting_iff.1 hn hw, htyped.symm, ?_⟩
    simpa [echoing, htyped] using he

theorem inv_boot : boot.Inv [] := by
  refine ⟨⟨by decide, by decide⟩, .draft (by decide), ⟨by simp [boot], by simp [boot]⟩, rfl, rfl,
    ?_⟩
  exact ⟨fun h => absurd rfl h, fun _ => rfl⟩

/-! ### The statements of `Update` -/

/-- A statement that changes neither the buffer nor the records. -/
theorem Inv.setPc (h : s.Inv w) {pc pc' : UpdatePc} {k : Keyboard} (hpc : s.pc = pc)
    (hbuf : k.buffer = s.kbd.buffer) (hin : inflight pc' = inflight pc)
    (hecho : echoing pc' = echoing pc) (hok : { s with kbd := k, pc := pc' }.PcOk w pc') :
    { s with kbd := k, pc := pc' }.Inv w := by
  subst hpc
  refine ⟨h.terminated.congr hbuf, ?_, h.draft, by rw [h.typed, ← hin], by rw [h.echoed, ← hecho],
    hok⟩
  cases h.holds with
  | draft hb => exact .draft ((congrArg cstr hbuf).trans hb)
  | ended hb hd hl hne => exact .ended ((congrArg cstr hbuf).trans hb) hd hl hne

/-- The ended line, and where its newline is. -/
theorem Inv.ended (h : s.Inv w) (hw : w ≠ []) :
    ∃ l, w = [l] ∧ cstr s.kbd.buffer = l ++ [newline] ∧ s.kbd.bufferSize = l.length + 1 ∧
      Clean l ∧ l ≠ [] := by
  cases h.holds with
  | draft => exact absurd rfl hw
  | @ended l hb hd hl hne =>
    refine ⟨l, rfl, hb, ?_, hl, hne⟩
    rw [h.terminated.bufferSize_eq, strlen, hb, List.length_append, List.length_singleton]

/-- The bytes of an ended line: the characters, and behind them the newline. -/
theorem getD_ended {i : ℕ} (hb : cstr s.kbd.buffer = l ++ [newline]) (hl : Clean l)
    (hi : i ≤ l.length) :
    (s.kbd.buffer.getD i 0 = newline ↔ i = l.length) ∧
      ∀ h : i < l.length, s.kbd.buffer.getD i 0 = l[i] := by
  have hlt : i < strlen s.kbd.buffer := by
    rw [strlen, hb, List.length_append, List.length_singleton]
    omega
  rw [getD_of_lt_strlen hlt, hb, List.getD_eq_getElem?_getD]
  rcases Nat.lt_or_eq_of_le hi with hi | rfl
  · rw [List.getElem?_append_left hi, List.getElem?_eq_getElem hi, Option.getD_some]
    refine ⟨⟨fun hn => ?_, fun heq => absurd heq hi.ne⟩, fun _ => rfl⟩
    exact absurd (hn ▸ List.getElem_mem hi) hl.newline_notMem
  · exact ⟨by simp, fun h => absurd h (Nat.lt_irrefl _)⟩

/-- A newline that the search meets is in the string. -/
theorem newline_mem {size i : ℕ} (hz : ZeroTail s.kbd.buffer size) (hi : i < size)
    (hb : s.kbd.buffer.getD i 0 = newline) : newline ∈ cstr s.kbd.buffer := by
  have hlt : i < strlen s.kbd.buffer := by
    by_contra hge
    rw [hz i (not_lt.1 hge) hi] at hb
    cases hb
  have hlt' : i < (cstr s.kbd.buffer).length := hlt
  rw [getD_of_lt_strlen hlt, List.getD_eq_getElem?_getD, List.getElem?_eq_getElem hlt',
    Option.getD_some] at hb
  exact hb ▸ List.getElem_mem hlt'

/-- **The search finds the newline of an ended line**, and no other. -/
theorem Inv.scan (h : s.Inv w) {size i : ℕ} {execute : Bool} (hpc : s.pc = .scan size i execute)
    (hi : i < size) :
    { s with pc := .scan size (i + 1) (execute || s.kbd.buffer.getD i 0 == newline) }.Inv w := by
  have hok := h.pc
  rw [hpc] at hok
  obtain ⟨hz, hex, hw⟩ := hok
  refine h.setPc hpc rfl rfl rfl ⟨hz, fun hfound => ?_, fun hne => ?_⟩
  · rcases Bool.or_eq_true_iff.1 hfound with hfound | hfound
    · exact hex hfound
    · exact h.waiting_iff.1 (newline_mem hz hi (by simpa using hfound))
  · obtain ⟨l, -, hb, hlen, hl, -⟩ := h.ended hne
    rcases hw hne with ⟨hsize, -⟩ | ⟨hflag, hquiet, hno, hbeyond⟩
    · -- the line was ended before its size was read
      obtain ⟨hat, -⟩ := getD_ended (i := i) hb hl (by omega)
      refine .inl ⟨hsize, ?_⟩
      by_cases heq : i = l.length
      · exact .inr (by rw [hat.2 heq, beq_self_eq_true, Bool.or_true])
      · exact .inl (by omega)
    · -- it was ended later, out of reach of this search
      have hmiss : s.kbd.buffer.getD i 0 ≠ newline := by
        intro hn
        by_cases hin : i ≤ l.length
        · have := (getD_ended hb hl hin).1.1 hn
          omega
        · have hge : strlen s.kbd.buffer ≤ i := by
            rw [← h.terminated.bufferSize_eq]
            omega
          rw [hz i hge hi] at hn
          cases hn
      refine .inr ⟨hflag, hquiet, ?_, hbeyond.imp_left Nat.le_succ_of_le⟩
      rw [hno, Bool.false_or]
      exact beq_false_of_ne hmiss

/-- A search that has ended has met the newline, or the line was ended too late for it. -/
theorem Inv.scanned (h : s.Inv w) {size i : ℕ} {execute : Bool} (hpc : s.pc = .scan size i execute)
    (hi : ¬ i < size) : { s with pc := .branch size execute }.Inv w := by
  have hok := h.pc
  rw [hpc] at hok
  obtain ⟨-, hex, hw⟩ := hok
  refine h.setPc hpc rfl rfl rfl ⟨hex, fun hne => ?_⟩
  rcases hw hne with ⟨hsize, hdone⟩ | ⟨hflag, hquiet, hno, -⟩
  · exact .inl ⟨hsize, hdone.resolve_left hi⟩
  · exact .inr ⟨hflag, hquiet, hno⟩

/-- **The copy takes the line without its newline.** -/
theorem Inv.strip (h : s.Inv w) {size : ℕ} (hpc : s.pc = .strip size) (hst : s.next = some s') :
    s'.Inv w := by
  have hok := h.pc
  rw [hpc] at hok
  obtain ⟨hne, hsize⟩ := hok
  obtain ⟨l, rfl, hb, hlen, hl, -⟩ := h.ended hne
  have hlast : s.kbd.buffer.getD (size - 1) 0 = newline :=
    (getD_ended hb hl (by omega)).1.2 (by omega)
  have hstop : (if size > 0 ∧ s.kbd.buffer.getD (size - 1) 0 = newline then size - 1 else size) =
      l.length := by
    rw [if_pos ⟨by omega, hlast⟩]
    omega
  have hcap : ¬ l.length > 50 := by
    have := hl.length
    omega
  simp only [Console.next, hpc, hstop, if_neg hcap, Option.some.injEq] at hst
  subst hst
  exact h.setPc hpc rfl rfl rfl ⟨l, rfl, rfl, Nat.zero_le _, rfl⟩

theorem Inv.copy (h : s.Inv w) {stop i : ℕ} {command : List UInt8}
    (hpc : s.pc = .copy stop i command) (hst : s.next = some s') : s'.Inv w := by
  have hok := h.pc
  rw [hpc] at hok
  obtain ⟨l, rfl, rfl, hle, rfl⟩ := hok
  obtain ⟨l', heq, hb, -, hl, -⟩ := h.ended (by simp)
  cases heq
  simp only [Console.next, hpc] at hst
  split at hst
  · rename_i hi
    cases hst
    refine h.setPc hpc rfl rfl rfl ⟨l, rfl, rfl, hi, ?_⟩
    rw [(getD_ended hb hl hle).2 hi, List.take_append_getElem]
  · cases hst
    refine h.setPc hpc rfl rfl rfl ?_
    rw [PcOk, List.take_of_length_le (by omega)]

/-- The line that waits, when it is the command. -/
theorem Inv.clean (h : s.Inv [l]) : Clean l := by
  obtain ⟨l', heq, -, -, hl, -⟩ := h.ended (by simp)
  cases heq
  exact hl

theorem concat_prompt (h : Clean l) : Shiro.concat prompt l = prompt ++ l := by
  have hp : cstr prompt = prompt := by decide
  have hlen : prompt.length = 7 := rfl
  rw [Shiro.concat, hp, cstr_eq_self h.zero_notMem, List.take_of_length_le]
  have := h.length
  rw [List.length_append, concatSize]
  omega

/-- `BufferReset` takes the line out of the buffer. -/
theorem Inv.reset (h : s.Inv w) {command : List UInt8} (hpc : s.pc = .reset command)
    (hst : s.next = some s') : s'.Inv [] := by
  have hok := h.pc
  have ht := h.typed
  have he := h.echoed
  rw [hpc] at hok ht he
  obtain rfl : w = [command] := hok
  rw [Console.next, hpc] at hst
  cases hst
  refine ⟨h.terminated.clear, .draft ?_, h.draft, ?_, he, h.clean, fun _ => rfl⟩
  · cases h.holds with
    | ended _ hd => exact (cstr_set_zero _).trans hd.symm
  · rw [ht]
    simp [inflight]

/-- The flag is set whenever a line waits. -/
theorem Inv.readFlag (h : s.Inv w) {size : ℕ} (hpc : s.pc = .readFlag size)
    (hst : s.next = some s') : s'.Inv w := by
  have hok := h.pc
  rw [hpc] at hok
  obtain ⟨hz, hw⟩ := hok
  rw [Console.next, hpc] at hst
  cases hst
  by_cases hf : s.kbd.wasUpdated = true
  · rw [if_pos hf]
    exact h.setPc hpc rfl rfl rfl ⟨hz, fun hne => (hw hne).2⟩
  · rw [if_neg hf]
    have hnil : w = [] := by
      by_contra hne
      exact hf (hw hne).1
    exact h.setPc hpc rfl rfl rfl ⟨fun hne => absurd hnil hne, fun _ => hnil⟩

theorem Inv.clearFlag (h : s.Inv w) {size : ℕ} (hpc : s.pc = .clearFlag size)
    (hst : s.next = some s') : s'.Inv w := by
  have hok := h.pc
  rw [hpc] at hok
  obtain ⟨hz, hw⟩ := hok
  rw [Console.next, hpc] at hst
  cases hst
  have hsame : { s.kbd with wasUpdated := false }.bufferSize = s.kbd.bufferSize :=
    h.terminated.bufferSize_congr rfl
  refine h.setPc hpc rfl rfl rfl
    ⟨hz, fun hex => (by cases hex), fun hne => .inl ⟨(hw hne).trans hsame.symm, .inl ?_⟩⟩
  obtain ⟨l, -, -, hsize, -⟩ := h.ended hne
  rw [hw hne, hsize]
  exact Nat.succ_pos _

/-- A search that met a newline met the one of the waiting line; a line that it missed came too late
for this `Update` and is left to the next one. -/
theorem Inv.branch (h : s.Inv w) {size : ℕ} {execute : Bool} (hpc : s.pc = .branch size execute)
    (hst : s.next = some s') : s'.Inv w := by
  have hok := h.pc
  rw [hpc] at hok
  obtain ⟨hex, hw⟩ := hok
  rw [Console.next, hpc] at hst
  cases hst
  cases execute with
  | true =>
    obtain ⟨l, -, -, hlen, -, hl⟩ := h.ended (hex rfl)
    have hsize : size = s.kbd.bufferSize := by
      rcases hw (hex rfl) with ⟨hsize, -⟩ | ⟨-, -, hno⟩
      · exact hsize
      · cases hno
    have hpos := List.length_pos_iff.2 hl
    rw [Bool.true_and, if_pos (decide_eq_true (by omega))]
    exact h.setPc hpc rfl rfl rfl ⟨hex rfl, hsize⟩
  | false =>
    have hlate : w ≠ [] → s.kbd.wasUpdated = true ∧ s.quiet = false := by
      intro hne
      rcases hw hne with ⟨-, hex⟩ | ⟨hflag, hquiet, -⟩
      · cases hex
      · exact ⟨hflag, hquiet⟩
    refine h.setPc hpc rfl rfl rfl ⟨fun hne => (hlate hne).1, fun hq => ?_⟩
    by_contra hne
    cases (hlate hne).2.symm.trans hq

/-- The echo is the prompt and the waiting line. -/
theorem Inv.echo (h : s.Inv w) {command : List UInt8} (hpc : s.pc = .echo command)
    (hst : s.next = some s') : s'.Inv w := by
  have hok := h.pc
  have ht := h.typed
  have he := h.echoed
  rw [hpc] at hok ht he
  obtain ⟨rfl, hscratch⟩ := hok
  rw [Console.next, hpc] at hst
  cases hst
  refine ⟨h.terminated, ?_, h.draft, ht, ?_, rfl⟩
  · cases h.holds with
    | ended hb hd hl hne => exact .ended hb hd hl hne
  · rw [he, hscratch]
    simp [echoing]

/-- The command that is executed is the line that was typed. -/
theorem Inv.execute (h : s.Inv w) {command : List UInt8} (hpc : s.pc = .execute command)
    (hst : s.next = some s') : s'.Inv w := by
  have hok := h.pc
  have ht := h.typed
  have he := h.echoed
  rw [hpc] at hok ht he
  obtain ⟨hclean, hflag, hquiet⟩ := hok
  rw [Console.next, hpc] at hst
  cases hst
  have hcmd : cstr command = command := cstr_eq_self hclean.zero_notMem
  refine ⟨h.terminated, ?_, h.draft, ?_, ?_, hflag, hquiet⟩
  · cases h.holds with
    | draft hb => exact .draft hb
    | ended hb hd hl hne => exact .ended hb hd hl hne
  · rw [ht, hcmd]
    simp [inflight]
  · rw [he, hcmd]
    simp [echoing]

/-- **Every statement of `Update` keeps the invariant.** -/
theorem Inv.next (h : s.Inv w) (hst : s.next = some s') : ∃ w', s'.Inv w' := by
  cases hpc : s.pc with
  | idle =>
    rw [Console.next, hpc] at hst
    cases hst
  | readFlag size => exact ⟨w, h.readFlag hpc hst⟩
  | clearFlag size => exact ⟨w, h.clearFlag hpc hst⟩
  | scan size i execute =>
    simp only [Console.next, hpc] at hst
    split at hst
    · rename_i hi
      cases hst
      exact ⟨w, h.scan hpc hi⟩
    · rename_i hi
      cases hst
      exact ⟨w, h.scanned hpc hi⟩
  | branch size execute => exact ⟨w, h.branch hpc hst⟩
  | strip size => exact ⟨w, h.strip hpc hst⟩
  | copy stop i command => exact ⟨w, h.copy hpc hst⟩
  | concat command =>
    have hok := h.pc
    rw [hpc] at hok
    obtain rfl : w = [command] := hok
    rw [Console.next, hpc] at hst
    cases hst
    exact ⟨_, h.setPc hpc rfl rfl rfl ⟨rfl, concat_prompt h.clean⟩⟩
  | echo command => exact ⟨w, h.echo hpc hst⟩
  | reset command => exact ⟨[], h.reset hpc hst⟩
  | notify command =>
    have hok := h.pc
    rw [hpc] at hok
    rw [Console.next, hpc] at hst
    cases hst
    exact ⟨w, h.setPc hpc rfl rfl rfl ⟨hok.1, fun _ => rfl, hok.2⟩⟩
  | execute command => exact ⟨w, h.execute hpc hst⟩

/-! ### The keyboard interrupt -/

theorem PcOk.congr {t : Console} {pc : UpdatePc} (h : s.PcOk w pc) (hline : t.kbd.line = s.kbd.line)
    (hquiet : t.quiet = s.quiet) : t.PcOk w pc := by
  obtain ⟨hbuf, hflag, hscratch⟩ : t.kbd.buffer = s.kbd.buffer ∧
      t.kbd.wasUpdated = s.kbd.wasUpdated ∧ t.kbd.scratch = s.kbd.scratch := by
    simpa [Keyboard.line] using hline
  have hsize : t.kbd.bufferSize = s.kbd.bufferSize := by
    rw [Keyboard.bufferSize, Keyboard.bufferSize, Keyboard.memory, Keyboard.memory, hbuf, hflag]
  cases pc <;> simp only [PcOk, hbuf, hflag, hscratch, hsize, hquiet] at h ⊢ <;> exact h

/-- Without a waiting line the records are what they are outside of the copy. -/
theorem PcOk.of_draft {t : Console} {pc : UpdatePc} (h : s.PcOk [] pc)
    (hz : ∀ size, ZeroTail s.kbd.buffer size → ZeroTail t.kbd.buffer size) : t.PcOk [] pc := by
  cases pc with
  | idle => exact ⟨fun hne => absurd rfl hne, fun _ => rfl⟩
  | readFlag size => exact ⟨hz _ h.1, fun hne => absurd rfl hne⟩
  | clearFlag size => exact ⟨hz _ h.1, fun hne => absurd rfl hne⟩
  | scan size i execute => exact ⟨hz _ h.1, h.2.1, fun hne => absurd rfl hne⟩
  | branch size execute => exact ⟨h.1, fun hne => absurd rfl hne⟩
  | strip size => exact absurd rfl h.1
  | copy stop i command =>
    obtain ⟨l, hl, -⟩ := h
    cases hl
  | concat command => cases h
  | echo command => cases h.1
  | reset command => cases h
  | notify command => exact ⟨h.1, fun _ => rfl⟩
  | execute command => exact ⟨h.1, fun hne => absurd rfl hne, fun _ => rfl⟩

/-- An Enter that is neither missed nor misplaced. -/
theorem PcOk.of_enter {t : Console} {pc : UpdatePc} (h : s.PcOk [] pc)
    (hz : ∀ size, ZeroTail s.kbd.buffer size → ZeroTail t.kbd.buffer size)
    (hsize : t.kbd.bufferSize = s.kbd.bufferSize + 1) (hpos : 0 < s.kbd.bufferSize)
    (hflag : t.kbd.wasUpdated = true) (hquiet : t.quiet = false)
    (hok : ¬ pc.Misplaces s.kbd.bufferSize) : t.PcOk [l] pc := by
  have hnq : ∀ p : Prop, t.quiet = true → p := fun p hq => absurd (hquiet.symm.trans hq) (by simp)
  cases pc with
  | idle => exact ⟨fun _ => hflag, hnq _⟩
  | readFlag size =>
    refine ⟨hz _ h.1, fun _ => ⟨hflag, ?_⟩⟩
    rw [hsize]
    by_contra hne
    exact hok ⟨hpos, fun heq => hne heq.symm⟩
  | clearFlag size =>
    refine ⟨hz _ h.1, fun _ => ?_⟩
    rw [hsize]
    by_contra hne
    exact hok ⟨hpos, fun heq => hne heq.symm⟩
  | scan size i execute =>
    obtain ⟨h1, h2, -⟩ := h
    have hno : execute = false := by
      by_contra hex
      exact absurd rfl (h2 (by simpa using hex))
    refine ⟨hz _ h1, fun _ => by simp, fun _ => ?_⟩
    rw [hsize]
    by_cases hreach : i ≤ s.kbd.bufferSize ∧ s.kbd.bufferSize < size
    · -- the search will meet the newline, and it is the last of the bytes
      have hlast : ¬ s.kbd.bufferSize + 1 < size := fun hlt => hok ⟨hpos, hreach.1, hlt⟩
      exact .inl ⟨by omega, .inl (by omega)⟩
    · exact .inr ⟨hflag, hquiet, hno, by omega⟩
  | branch size execute =>
    have hno : execute = false := by
      by_contra hex
      exact absurd rfl (h.1 (by simpa using hex))
    exact ⟨fun _ => by simp, fun _ => .inr ⟨hflag, hquiet, hno⟩⟩
  | strip size => exact absurd rfl h.1
  | copy stop i command =>
    obtain ⟨l, hl, -⟩ := h
    cases hl
  | concat command => cases h
  | echo command => cases h.1
  | reset command => cases h
  | notify command => exact ⟨h.1, hnq _⟩
  | execute command => exact ⟨h.1, fun _ => hflag, hnq _⟩

theorem Clean.dropLast (h : Clean l) : Clean l.dropLast :=
  ⟨fun c hc => h.printable c (List.dropLast_subset l hc),
    (List.dropLast_prefix l).length_le.trans h.length⟩

theorem Clean.concat (h : Clean l) {c : UInt8} (hc : 32 ≤ c ∧ c ≤ 126) (hl : l.length < 40) :
    Clean (l ++ [c]) := by
  refine ⟨fun d hd => ?_, by rw [List.length_append, List.length_singleton]; omega⟩
  rcases List.mem_append.1 hd with hd | hd
  · exact h.printable d hd
  · rw [List.mem_singleton.1 hd]
    exact hc

theorem edit_newline_empty (h : s.draft = []) (k : Keyboard) :
    { s with kbd := k }.edit newline = { s with kbd := k } := by
  rw [edit, if_neg (by decide), if_pos rfl, if_pos h]

theorem edit_newline (h : s.draft ≠ []) (k : Keyboard) : { s with kbd := k }.edit newline =
    { s with kbd := k, draft := [], typed := s.typed ++ [s.draft] } := by
  rw [edit, if_neg (by decide), if_pos rfl, if_neg h]

theorem edit_char {c : UInt8} (hb : c ≠ backspace) (hn : c ≠ newline) (k : Keyboard) :
    { s with kbd := k }.edit c = { s with kbd := k, draft := s.draft ++ [c] } := by
  rw [edit, if_neg hb, if_neg hn]

/-- A character typed while no ended line waits. -/
theorem Inv.typeChar (h : s.Inv []) {c : UInt8} (htyp : s.Typable c)
    (henter : c = newline → ¬ s.pc.Misplaces s.kbd.bufferSize) :
    ∃ w', { { s with kbd := s.kbd.type c }.edit c with quiet := false }.Inv w' := by
  have hb : cstr s.kbd.buffer = s.draft := by
    cases h.holds with
    | draft hb => exact hb
  have hsize : s.kbd.bufferSize = s.draft.length :=
    h.terminated.bufferSize_eq.trans (congrArg List.length hb)
  have hcap : s.kbd.bufferSize < 49 := by
    have := h.draft.length
    omega
  -- a backspace, Enter, or a printable character
  rcases htyp with rfl | rfl | ⟨hlo, hhi, hlen⟩
  · obtain ⟨hterm, hbuf, hz⟩ := h.terminated.type_backspace
    exact ⟨[], hterm, .draft (hbuf.trans (congrArg _ hb)), h.draft.dropLast, h.typed, h.echoed,
      h.pc.of_draft hz⟩
  · by_cases hd : s.draft = []
    · have hsame : s.kbd.type newline = s.kbd :=
        Keyboard.type_newline_empty (by rw [hsize, hd]; rfl)
      rw [hsame, edit_newline_empty hd]
      exact ⟨[], h.terminated, .draft hb, h.draft, h.typed, h.echoed, h.pc.of_draft fun _ => id⟩
    · have hpos : 0 < s.kbd.bufferSize := by
        rw [hsize]
        exact List.length_pos_iff.2 hd
      obtain ⟨hterm, hbuf, hflag, hz⟩ :=
        h.terminated.bufferAdd (by decide : newline ≠ 0) hcap
      rw [Keyboard.type_newline hpos, edit_newline hd]
      refine ⟨[s.draft], hterm, .ended (hbuf.trans (by rw [hb])) rfl h.draft hd,
        ⟨by simp, by simp⟩, ?_, h.echoed, h.pc.of_enter hz ?_ hpos hflag rfl (henter rfl)⟩
      · have ht := h.typed
        rw [List.append_nil] at ht
        exact congrArg (· ++ [s.draft]) ht
      · have := congrArg List.length hbuf
        rwa [List.length_append, List.length_singleton, ← strlen, ← strlen,
          ← hterm.bufferSize_eq, ← h.terminated.bufferSize_eq] at this
  · have hb8 : c ≠ backspace := by
      rintro rfl
      exact absurd hlo (by decide)
    have hb10 : c ≠ newline := by
      rintro rfl
      exact absurd hlo (by decide)
    have hc0 : c ≠ 0 := by
      rintro rfl
      exact absurd hlo (by decide)
    obtain ⟨hterm, hbuf, -, hz⟩ := h.terminated.bufferAdd hc0 hcap
    rw [Keyboard.type_char hb8 hb10, edit_char hb8 hb10]
    exact ⟨[], hterm, .draft (hbuf.trans (by rw [hb])), h.draft.concat ⟨hlo, hhi⟩ hlen, h.typed,
      h.echoed, h.pc.of_draft hz⟩

/-- **A key that does not disturb `Update` keeps the invariant.** -/
theorem Inv.key (h : s.Inv w) {status sc : UInt8} (hok : s.Undisturbed (.key status sc))
    (hst : s.key status sc = some s') : ∃ w', s'.Inv w' := by
  unfold Console.key at hst
  cases hc : s.kbd.char status sc with
  | none =>
    simp only [hc, Option.some.injEq] at hst
    subst hst
    have hline := Keyboard.handler_of_none hc
    have hbuf : (s.kbd.handler status sc).buffer = s.kbd.buffer := congrArg Prod.fst hline
    refine ⟨w, h.terminated.congr hbuf, ?_, h.draft, h.typed, h.echoed, h.pc.congr hline rfl⟩
    cases h.holds with
    | draft hb => exact .draft ((congrArg cstr hbuf).trans hb)
    | ended hb hd hl hne => exact .ended ((congrArg cstr hbuf).trans hb) hd hl hne
  | some c =>
    simp only [hc] at hst
    obtain ⟨htyp, ⟨⟩⟩ := Option.ite_none_right_eq_some.1 hst
    obtain ⟨hno, henter⟩ := hok c hc
    -- by the condition, nothing is typed behind a line that waits
    have hnil : w = [] := by
      by_contra hne
      exact hno (h.waiting_iff.2 hne)
    subst hnil
    rw [Keyboard.handler_of_some hc]
    exact h.typeChar htyp henter

/-- **Every undisturbed step keeps the invariant.** -/
theorem Inv.step (h : s.Inv w) {e : ConsoleEvent} (hok : s.Undisturbed e)
    (hst : s.step e = some s') : ∃ w', s'.Inv w' := by
  cases e with
  | key status sc => exact h.key hok hst
  | update =>
    obtain ⟨hpc, ⟨⟩⟩ := Option.ite_none_right_eq_some.1 hst
    have hpcok := h.pc
    have ht := h.typed
    have he := h.echoed
    rw [hpc] at hpcok ht he
    have hz : ZeroTail s.kbd.buffer s.kbd.bufferSize :=
      h.terminated.bufferSize_eq ▸ zeroTail_strlen _
    refine ⟨w, h.terminated, ?_, h.draft, ht, he, hz, fun hne => ⟨hpcok.1 hne, rfl⟩⟩
    cases h.holds with
    | draft hb => exact .draft hb
    | ended hb hd hl hne => exact .ended hb hd hl hne
  | next => exact h.next hst

/-- **Along every run whose steps are undisturbed, the shell is faithful.** -/
theorem faithful_of_undisturbed (hs : (lts.guard Undisturbed).Reachable s) : s.Faithful := by
  obtain ⟨w, h⟩ := hs.induct (I := fun s => ∃ w, s.Inv w) (fun _ h => h ▸ ⟨_, inv_boot⟩)
    fun _ _ _ ⟨_, h⟩ hst => h.step hst.1 hst.2
  exact h.faithful

/-! ### Two runs -/

instance (s : Console) (e : ConsoleEvent) : Decidable (s.Undisturbed e) :=
  match e with
  | .key status sc => Option.decidableForallMem (s.kbd.char status sc)
  | .update => .isTrue trivial
  | .next => .isTrue trivial

/-- The keys of these scancodes are pressed. -/
def press (codes : List UInt8) : List ConsoleEvent := codes.map (.key 1)

/-- `ab` and Enter are typed, and an `Update` runs to its end. -/
def oneLine : List ConsoleEvent :=
  press [0x1E, 0x30, 0x1C] ++ .update :: List.replicate 16 .next

theorem faithful_oneLine : ∃ s, (lts.guard Undisturbed).Reachable s ∧ s.pc = .idle ∧
    s.quiet = true ∧ s.executed = [[97, 98]] ∧ s.Faithful := by
  obtain ⟨s, hs, hrun⟩ : ∃ s, (lts.guard Undisturbed).Reachable s ∧
      decide (s.pc = .idle ∧ s.quiet = true ∧ s.executed = [[97, 98]]) = true :=
    Lts.exists_reachable_det (Lts.guard_det (· = boot) step Undisturbed) (rfl : boot = boot) oneLine
      _ (by decide +kernel)
  obtain ⟨hpc, hquiet, hexec⟩ := of_decide_eq_true hrun
  exact ⟨s, hs, hpc, hquiet, hexec, faithful_of_undisturbed hs⟩

/-- `ab`, Enter, `cd` and Enter are typed before the next `Update`. -/
def typeAhead : List ConsoleEvent :=
  press [0x1E, 0x30, 0x1C, 0x2E, 0x20, 0x1C] ++ .update :: List.replicate 22 .next

/-- Two lines typed ahead are executed as one command. -/
theorem not_faithful_typeAhead : ¬ ∀ s, lts.Reachable s → s.Faithful := by
  intro h
  obtain ⟨s, hs, hrun⟩ : ∃ s, lts.Reachable s ∧
      decide (s.executed = [[97, 98, 10, 99, 100]] ∧ s.typed = [[97, 98], [99, 100]]) = true :=
    Lts.exists_reachable_det (f := step) rfl (rfl : boot = boot) typeAhead _ (by decide +kernel)
  obtain ⟨hexec, htyped⟩ := of_decide_eq_true hrun
  have := (h s hs).executed
  rw [hexec, htyped] at this
  exact absurd this (by decide)

end Console

end Shiro
