import Shiro.Shell.Builtins
import Shiro.Shell.Rows

/-!
# A session

The shell greets on every terminal, and then lines are run one after the other: those of `init.sh`
first, and then those that are typed.  In between a function key may select another terminal, and
the debug terminal may be written to.  `Print` does not draw: `Update` does, once the command has
returned.

The lines of a session return.  `halt`, `reboot` and `panic` do not: they print, and then the
machine stops, starts again, or is interrupted for the last time.

* `Commands.response` : what `Dispatch` prints.
* `Shell.session` : the terminals, and all that happens to them.
* `Pages.event` : what it means for the logs.
* `screen_of_calls` : what a line prints is not drawn at once.
* `displays_of_run` : **the screen shows the end of what the commands have printed.**
* `displays_cat` : **`cat` shows the end of the file**, below the line that was typed.
-/

namespace Shiro

open Scrollback

variable {E : Type*}

/-- `Dispatch(line)` calls a builtin that does not return: behind its message come `cli` and `hlt`,
the reset of the machine, or `int $0x03`, whose handler paints the panic screen and halts. -/
def Commands.Stays (line : List UInt8) : Prop :=
  ∃ args, dispatch line = .run .halt args ∨ dispatch line = .run .reboot args ∨
    dispatch line = .run .panic args

/-- What `Dispatch(line)` prints. -/
def Commands.response (k : Readings E) (line : List UInt8) : List Out :=
  match dispatch line with
  | .nothing => []
  | .run b args => outs k args b
  | .print s => [.str s]

namespace Shell

/-- The calls that `Dispatch(line)` may make, whatever its buffers held before: for a builtin that
does not return, those of its message. -/
def Calls (k : Readings E) (line : List UInt8) (s : Shell) (cs : List Call) : Prop :=
  match dispatch line with
  | .run .clear _ => cs = [.clearTerminal s.currentTerminal]
  | _ => ∃ strs, List.Forall₂ Out.Prints (Commands.response k line) strs ∧
      cs = strs.map fun data => .writeC data false

/-- `Dispatch(line)` returns. -/
def Executes (k : Readings E) (line : List UInt8) (s s' : Shell) : Prop :=
  ¬ Commands.Stays line ∧ ∃ cs, s.Calls k line cs ∧ s' = cs.foldl call s

/-- Only the header, the status bar, the footer and the screen may have changed. -/
structure Framed (s s' : Shell) : Prop where
  screens : s'.screens = s.screens
  current : s'.currentTerminal = s.currentTerminal
  contentX : s'.contentX = s.contentX

/-- `Finish()`.  It does not depend on the columns of the header and the footer. -/
def finish (s : Shell) : Shell := (Canvas.finish ⟨s, 0, 0, []⟩).toShell

/-- The calls of `Finish()`, where `active` is the current terminal. -/
def greetings (active : ℕ) : List Call :=
  ([1, 2, 3, 4].flatMap fun id =>
    [.select id, .writeC (text "> SHIRO IS LOADED AND READY TO GO\n") true]) ++
      [.select 5, .writeC (text "> THE DEBUG TERMINAL IS LOADED AND READY TO GO\n") true,
        .select active]

/-- `"Shiro> "` -/
def echoPrompt : List UInt8 := text "Shiro> "

/-- What happens to the terminals. -/
inductive Event (E : Type*) where
  /-- `Finish()` greets on every terminal. -/
  | greeted
  /-- `Update` finds this command and Enter in the keyboard buffer. -/
  | entered (k : Readings E) (command : List UInt8)
  /-- A line of `init.sh` is dispatched. -/
  | script (k : Readings E) (line : List UInt8)
  /-- `Update` finds a function key. -/
  | selected (id : ℕ)
  /-- `WriteD(data)` -/
  | debug (data : List UInt8)
  /-- The header, the status bar or the footer is painted anew, and then the screen. -/
  | painted

/-- What an event does. -/
def eventStep (s : Shell) : Event E → Shell → Prop
  | .greeted, s' => s' = s.finish
  | .entered k command, s' => command.length ≤ 50 ∧ ∃ t u,
      (s.writeCEcho (concat echoPrompt command) false).Executes k command t ∧ t.Framed u ∧
        s' = u.updateScreen
  | .script k line, s' => line.length ≤ 79 ∧ s.Executes k line s'
  | .selected id, s' => IsTerminal id ∧ ∃ u,
      Framed { s with currentTerminal := id } u ∧ s' = u.updateScreen
  | .debug data, s' => (∀ l ∈ segments data, l.length ≤ 79) ∧ s' = s.writeD data
  | .painted, s' => ∃ u, s.Framed u ∧ s' = u.updateScreen

/-- The sessions. -/
def session : Lts Shell (Event E) := ⟨Started, eventStep⟩

/-- The event ends with `UpdateScreen`. -/
def Event.Draws : Event E → Prop
  | .script _ _ => False
  | _ => True

end Shell

namespace Pages

/-- What the line means: what it prints is written to the current terminal. -/
def respond (p : Pages) (k : Readings E) (line : List UInt8) : Pages :=
  match dispatch line with
  | .run .clear _ => p.call (.clearTerminal p.current)
  | _ => (Commands.response k line).foldl
      (fun p o => p.write p.current terminalColor o.text) p

/-- What an event means. -/
def event (p : Pages) : Shell.Event E → Pages
  | .greeted => (Shell.greetings p.current).foldl Pages.call p
  | .entered k command =>
    (p.write p.current terminalColorEcho (concat Shell.echoPrompt command)).respond k command
  | .script k line => p.respond k line
  | .selected id => { p with current := id }
  | .debug data => p.write Shell.debugTerminal terminalColor data
  | .painted => p

end Pages

/-- The screen shows the end of the log of the current terminal. -/
structure Displayed (s : Shell) (p : Pages) : Prop where
  scrollback : rows s.screen screenWidth 2 21 =
    (window 21 .empty (p.lines p.current)).map Line.cells
  last : row s.screen screenWidth 23 = List.replicate screenWidth blank

variable {s s' u : Shell} {p : Pages} {k : Readings E} {line data : List UInt8} {os : List Out}
  {strs : List (List UInt8)} {cs : List Shell.Call} {e : Shell.Event E}

namespace Shell

/-! ### What a line prints -/

theorem length_le_of_mem_segments {l : List UInt8} (h : l ∈ segments data) :
    l.length ≤ data.length := by
  have hsplit (xs : List UInt8) : ∀ l ∈ xs.splitOn 10, l.length ≤ xs.length := by
    induction xs with
    | nil => simp
    | cons x xs ih =>
      intro l hl
      rw [List.splitOn, List.splitOnP_cons_eq_if_modifyHead] at hl
      split at hl
      · rcases List.mem_cons.1 hl with rfl | hl
        · exact Nat.zero_le _
        · exact (ih l hl).trans (Nat.le_succ _)
      · obtain ⟨w, ws, hws⟩ := List.exists_cons_of_ne_nil (List.splitOnP_ne_nil (· == 10) xs)
        have hw : ∀ l ∈ w :: ws, l.length ≤ xs.length := by
          rw [← hws]
          exact ih
        rw [hws, List.modifyHead_cons] at hl
        rcases List.mem_cons.1 hl with rfl | hl
        · exact Nat.succ_le_succ (hw w List.mem_cons_self)
        · exact (hw l (List.mem_cons_of_mem _ hl)).trans (Nat.le_succ _)
  exact (hsplit _ l h).trans (length_cstr_le data)

/-- The arguments are a part of the line, and the message is cut. -/
theorem length_dispatch (line : List UInt8) :
    (∀ b args, dispatch line = .run b args → args.length ≤ line.length) ∧
      ∀ data, dispatch line = .print data → data.length ≤ 79 := by
  unfold dispatch
  dsimp only
  constructor
  · intro b args h
    split at h
    · cases h
    · split at h
      · cases h
        refine (length_cstr_le _).trans ((List.dropWhile_sublist _).length_le.trans ?_)
        exact (List.drop_sublist _ _).length_le.trans (List.dropWhile_sublist _).length_le
      · cases h
  · intro data h
    split at h
    · cases h
    · split at h
      · cases h
      · cases h
        have hcut (t s : List UInt8) (ht : t.length ≤ 79) : (appendStr t 80 s).length ≤ 79 := by
          rw [appendStr, List.length_append, List.length_take]
          omega
        exact hcut _ _ (hcut [] _ (Nat.zero_le _))

theorem ok_response (k : Readings E) (h : line.length ≤ 79) :
    ∀ o ∈ Commands.response k line, o.Ok := by
  obtain ⟨hrun, hprint⟩ := length_dispatch line
  unfold Commands.response
  cases hline : dispatch line with
  | nothing => exact List.forall_mem_nil _
  | run b args => exact Commands.ok_outs ((hrun b args hline).trans h) b
  | print data => exact List.forall_mem_singleton.2 (hprint data hline)

/-- **What is printed does not depend on the buffers.** -/
theorem forall₂_prints (h : ∀ o ∈ os, o.Ok) :
    List.Forall₂ Out.Prints os strs ↔ strs = os.map Out.text := by
  induction os generalizing strs with
  | nil => rw [List.forall₂_nil_left_iff, List.map_nil]
  | cons o os ih =>
    obtain ⟨ho, hos⟩ := List.forall_mem_cons.1 h
    rw [List.forall₂_cons_left_iff, List.map_cons]
    constructor
    · rintro ⟨data, strs, hdata, hstrs, rfl⟩
      rw [(prints_iff ho).1 hdata, (ih hos).1 hstrs]
    · rintro rfl
      exact ⟨_, _, (prints_iff ho).2 rfl, (ih hos).2 rfl, rfl⟩

/-! ### What a line does to the terminals -/

/-- Lines written one after the other. -/
theorem Synced.writes (h : Synced s p) (hos : ∀ o ∈ os, o.Ok) :
    Synced ((os.map fun o => Call.writeC o.text false).foldl Shell.call s)
      (os.foldl (fun p o => p.write p.current terminalColor o.text) p) := by
  induction os generalizing s p with
  | nil => exact h
  | cons o os ih =>
    obtain ⟨ho, hos⟩ := List.forall_mem_cons.1 hos
    refine ih (h.call (c := .writeC o.text false) fun l hl => ?_) hos
    exact (length_le_of_mem_segments hl).trans (length_text_le ho)

/-- **A line keeps the terminals in step with their logs.** -/
theorem Synced.executes (h : Synced s p) (hline : line.length ≤ 79)
    (hex : s.Executes k line s') : Synced s' (p.respond k line) := by
  obtain ⟨-, cs, hcs, rfl⟩ := hex
  have hok := ok_response k hline
  unfold Calls at hcs
  unfold Pages.respond
  split at hcs
  · subst hcs
    rw [← h.current]
    exact h.call (c := .clearTerminal s.currentTerminal) h.isTerminal
  · obtain ⟨strs, hstrs, rfl⟩ := hcs
    rw [(forall₂_prints hok).1 hstrs, List.map_map]
    exact h.writes hok

/-! ### Nothing is drawn before the command returns -/

theorem screen_writeC (s : Shell) (data : List UInt8) :
    (s.writeC data false).screen = s.screen := by
  have hchars (cs : List UInt8) (r : ℕ × Shell) : (cs.foldl
      (writeChar terminalColor (footerStartingPoint - screenWidth) (contentSize - 2)) r).2.screen =
        r.2.screen := by
    induction cs generalizing r with
    | nil => rfl
    | cons c cs ih =>
      rw [List.foldl_cons, ih, writeChar]
      split_ifs <;> rfl
  exact hchars (cstr data) (0, s)

/-- **What a line prints is not drawn.**  So the message of `halt` is not seen, unless another task
draws before the interrupts are off. -/
theorem screen_of_calls (h : s.Calls k line cs) : (cs.foldl Shell.call s).screen = s.screen := by
  unfold Calls at h
  split at h
  · subst h
    rfl
  · obtain ⟨strs, -, rfl⟩ := h
    induction strs generalizing s with
    | nil => rfl
    | cons data strs ih => exact (ih (s := s.writeC data false)).trans (screen_writeC s data)

/-- A line can be dispatched. -/
theorem exists_calls (s : Shell) (k : Readings E) (line : List UInt8) (h : line.length ≤ 79) :
    ∃ cs, s.Calls k line cs := by
  unfold Calls
  split
  · exact ⟨_, rfl⟩
  · exact ⟨_, _, (forall₂_prints (ok_response k h)).2 rfl, rfl⟩

/-! ### What is drawn -/

theorem paint_apply (screen src : ℕ → UInt16) (lo n pos : ℕ) :
    paint screen src lo (lo + n) pos = if lo ≤ pos ∧ pos < lo + n then src pos else screen pos := by
  rw [paint, Nat.add_sub_cancel_left]
  induction n with
  | zero => rw [if_neg (by omega)]; rfl
  | succ n ih =>
    rw [List.range'_concat, List.foldl_append, List.foldl_cons, List.foldl_nil, Nat.one_mul,
      Function.update_apply, ih]
    grind

/-- The content area of the screen is that of the current terminal. -/
theorem screen_updateScreen (s : Shell) {pos : ℕ} (hlo : 160 ≤ pos) (hhi : pos < 1920) :
    s.updateScreen.screen pos = s.buffer pos := by
  have hfooter := paint_apply (paint (paint (paint s.screen s.header 0 80) s.status 80 160)
    s.buffer 160 1920) s.footer 1920 80 pos
  have hcontent := paint_apply (paint (paint s.screen s.header 0 80) s.status 80 160) s.buffer
    160 1760 pos
  rw [if_neg (by omega)] at hfooter
  rw [if_pos (by omega)] at hcontent
  exact hfooter.trans hcontent

theorem framed_updateScreen (s : Shell) : s.Framed s.updateScreen := ⟨rfl, rfl, rfl⟩

theorem Framed.trans (h : s.Framed s') (h' : s'.Framed u) : s.Framed u :=
  ⟨h'.screens.trans h.screens, h'.current.trans h.current, h'.contentX.trans h.contentX⟩

/-- Painting the bars keeps the terminals in step with their logs. -/
theorem Synced.framed (h : Synced s p) (hframed : s.Framed u) : Synced u p where
  current := hframed.current.trans h.current
  isTerminal := hframed.current ▸ h.isTerminal
  contentX := hframed.contentX.trans h.contentX
  drawn := hframed.screens ▸ h.drawn

/-- **`UpdateScreen` shows the end of the log.** -/
theorem Synced.visible (h : Synced s p) : Displayed s.updateScreen p := by
  obtain ⟨hrows, hrow⟩ := (h.drawn _ h.isTerminal).rows_eq
  rw [h.current] at hrows hrow
  constructor
  · rw [← hrows, ← h.current]
    exact rows_congr fun pos hlo hhi => screen_updateScreen s hlo (hhi.trans_le (by decide))
  · rw [← hrow, ← h.current]
    exact row_congr fun pos hlo hhi =>
      screen_updateScreen s (Nat.le_trans (by decide) hlo) (hhi.trans_le (by decide))

/-! ### The session -/

/-- `WriteD` ends with `UpdateScreen`. -/
theorem framed_writeD (s : Shell) (data : List UInt8) :
    (s.writeD data).Framed
      { { s with currentTerminal := debugTerminal }.writeC data false with
        currentTerminal := s.currentTerminal } := ⟨rfl, rfl, rfl⟩

theorem length_concat_le {command : List UInt8} (h : command.length ≤ 50) :
    (concat echoPrompt command).length ≤ 79 := by
  have hprompt : (cstr echoPrompt).length = 7 := by decide
  have hcommand := length_cstr_le command
  rw [concat, List.length_take, List.length_append]
  omega

theorem toShell_greet (c : Canvas) (t : ℕ) (data : List UInt8) :
    ({ c with currentTerminal := t }.writeC data true).toShell =
      (c.toShell.call (.select t)).call (.writeC data true) :=
  Canvas.toShell_writeLine _ _ _ _

theorem toShell_greets (c : Canvas) (data : List UInt8) (ids : List ℕ) :
    (ids.foldl (fun c id => { c with currentTerminal := id }.writeC data true) c).toShell =
      (ids.flatMap fun id => [.select id, .writeC data true]).foldl call c.toShell := by
  induction ids generalizing c with
  | nil => rfl
  | cons id ids ih =>
    rw [List.foldl_cons, ih, toShell_greet]
    rfl

theorem finish_eq (s : Shell) :
    s.finish = ((greetings s.currentTerminal).foldl call s).updateScreen := by
  rw [finish, Canvas.finish, greetings, List.foldl_append, ← toShell_greets ⟨s, 0, 0, []⟩]
  generalize List.foldl _ (Canvas.mk s 0 0 []) _ = c
  exact congrArg (fun t : Shell => (t.call (.select s.currentTerminal)).updateScreen)
    (toShell_greet c 5 _)

/-- Calls made one after the other. -/
theorem Synced.calls (h : Synced s p) (hok : ∀ c ∈ cs, c.Ok) :
    Synced (cs.foldl Shell.call s) (cs.foldl Pages.call p) := by
  induction cs generalizing s p with
  | nil => exact h
  | cons c cs ih =>
    obtain ⟨hc, hcs⟩ := List.forall_mem_cons.1 hok
    exact ih (h.call hc) hcs

theorem ok_greetings {active : ℕ} (h : IsTerminal active) : ∀ c ∈ greetings active, c.Ok := by
  have hready : (Call.writeC (text "> SHIRO IS LOADED AND READY TO GO\n") true).Ok := by
    decide +kernel
  have hdebug : (Call.writeC (text "> THE DEBUG TERMINAL IS LOADED AND READY TO GO\n") true).Ok := by
    decide +kernel
  have hselect : ∀ id, IsTerminal id → (Call.select id).Ok := fun _ hid => hid
  simp only [greetings, List.flatMap_cons, List.flatMap_nil, List.append_nil, List.cons_append,
    List.nil_append, List.forall_mem_cons]
  exact ⟨hselect 1 (by decide), hready, hselect 2 (by decide), hready, hselect 3 (by decide),
    hready, hselect 4 (by decide), hready, hselect 5 (by decide), hdebug, h,
    List.forall_mem_nil _⟩

/-- **Each event keeps the terminals in step with their logs**, and the screen if it draws. -/
theorem Synced.event (h : Synced s p) (hst : s.eventStep e s') :
    Synced s' (p.event e) ∧ (e.Draws → Displayed s' (p.event e)) := by
  have hupdate {t u : Shell} {q : Pages} (ht : Synced t q) (hframed : t.Framed u) :
      Synced u.updateScreen q ∧ (e.Draws → Displayed u.updateScreen q) :=
    ⟨ht.framed (hframed.trans (framed_updateScreen u)), fun _ => (ht.framed hframed).visible⟩
  cases e with
  | greeted =>
    have heq : s' = s.finish := hst
    rw [heq, finish_eq, h.current]
    have hgreeted := h.calls (ok_greetings (h.current ▸ h.isTerminal))
    exact ⟨hgreeted.framed (framed_updateScreen _), fun _ => hgreeted.visible⟩
  | entered k command =>
    obtain ⟨hlen, t, u, hex, hframed, rfl⟩ := hst
    have hecho : Synced (s.writeCEcho (concat echoPrompt command) false)
        (p.write p.current terminalColorEcho (concat echoPrompt command)) :=
      h.writeLine (fun l hl => (length_le_of_mem_segments hl).trans (length_concat_le hlen)) _ _
    exact hupdate (hecho.executes (hlen.trans (by decide)) hex) hframed
  | script k line => exact ⟨h.executes hst.1 hst.2, False.elim⟩
  | selected id =>
    obtain ⟨hid, u, hframed, rfl⟩ := hst
    exact hupdate (h.select hid) hframed
  | debug data =>
    obtain ⟨hok, rfl⟩ := hst
    have hdebug : Synced (s.writeD data) (p.write debugTerminal terminalColor data) :=
      h.call (c := .writeD data) hok
    exact ⟨hdebug, fun _ => (hdebug.framed (framed_writeD s data)).visible⟩
  | painted =>
    obtain ⟨u, hframed, rfl⟩ := hst
    exact hupdate h hframed

/-- The terminals are in step with their logs all along a session. -/
theorem synced_of_run {s₀ : Shell} {es : List (Event E)} (h₀ : Started s₀)
    (h : session.Run s₀ es s) : Synced s (es.foldl Pages.event .start) := by
  induction h with
  | nil => exact synced_start h₀
  | snoc _ hst ih =>
    rw [List.foldl_append]
    exact (ih.event hst).1

/-- The end of a session. -/
theorem displayed_of_run {s₀ : Shell} {es : List (Event E)} (h₀ : Started s₀)
    (h : session.Run s₀ (es ++ [e]) s) (hdraws : e.Draws) :
    Displayed s ((es.foldl Pages.event .start).event e) := by
  obtain ⟨t, ht, hst⟩ := h.split
  exact ((synced_of_run h₀ ht).event hst.of_single).2 hdraws

/-- **The screen shows the end of what the commands have printed**, below what was there before,
when the last event has drawn it, and so do the buffers of all terminals.  It does not depend on
what was in the buffers of the commands. -/
theorem displays_of_run {s₀ : Shell} {es : List (Event E)} (h₀ : Started s₀)
    (h : session.Run s₀ es s) : Shows s (es.foldl Pages.event .start) ∧
      ∀ e ∈ es.getLast?, e.Draws → Displayed s (es.foldl Pages.event .start) := by
  refine ⟨(synced_of_run h₀ h).shows, fun e he hdraws => ?_⟩
  obtain ⟨ls, rfl⟩ : ∃ ls, es = ls ++ [e] := ⟨_, (List.dropLast_append_getLast? e he).symm⟩
  rw [List.foldl_append]
  exact displayed_of_run h₀ h hdraws

/-- A command that returns can be entered. -/
theorem exists_entered (s : Shell) (k : Readings E) (command : List UInt8)
    (hlen : command.length ≤ 50) (hstays : ¬ Commands.Stays command) :
    ∃ s', session.step s (.entered k command) s' := by
  obtain ⟨cs, hcs⟩ := exists_calls (s.writeCEcho (concat echoPrompt command) false) k command
    (hlen.trans (by decide))
  exact ⟨_, hlen, _, _, ⟨hstays, cs, hcs, rfl⟩, ⟨rfl, rfl, rfl⟩, rfl⟩

theorem not_stays {b : Builtin} {args : List UInt8} (h : dispatch line = .run b args)
    (hhalt : b ≠ .halt) (hreboot : b ≠ .reboot) (hpanic : b ≠ .panic) :
    ¬ Commands.Stays line := by
  rintro ⟨args', h' | h' | h'⟩
  · exact hhalt (Outcome.run.inj (h.symm.trans h')).1
  · exact hreboot (Outcome.run.inj (h.symm.trans h')).1
  · exact hpanic (Outcome.run.inj (h.symm.trans h')).1

/-- The shell greets, and a command that returns is typed. -/
theorem exists_run_greeted (s : Shell) (k : Readings E) (command : List UInt8)
    (hlen : command.length ≤ 50) (hstays : ¬ Commands.Stays command) :
    ∃ s', session.Run s [.greeted, .entered k command] s' := by
  have hgreeted : (session (E := E)).step s .greeted s.finish := rfl
  obtain ⟨s', hst⟩ := exists_entered s.finish k command hlen hstays
  exact ⟨s', (Lts.Run.nil.snoc hgreeted).snoc hst⟩

/-- The lines that greet on the first terminal. -/
def greeting : List Line :=
  [⟨terminalColor, text "> SHIRO IS LOADED AND READY TO GO"⟩, ⟨terminalColor, []⟩]

/-- The shell greets, and `echo hi` is typed. -/
def echoHi : List (Event Unit) := [.greeted, .entered Commands.noReadings (text "echo hi")]

theorem displays_of_run_echoHi : ∃ s, session.Run freshShell echoHi s ∧
    rows s.screen screenWidth 2 21 = (window 21 .empty (greeting ++
      [⟨terminalColorEcho, text "Shiro> echo hi"⟩, ⟨terminalColor, text "hi"⟩])).map Line.cells := by
  have hdispatch : dispatch (text "echo hi") = .run .echo (text "hi") := by decide +kernel
  obtain ⟨s, hrun⟩ := exists_run_greeted freshShell Commands.noReadings (text "echo hi")
    (by decide) (not_stays hdispatch (by decide) (by decide) (by decide))
  have hlog : (echoHi.foldl Pages.event .start).lines (echoHi.foldl Pages.event .start).current =
      greeting ++ [⟨terminalColorEcho, text "Shiro> echo hi"⟩, ⟨terminalColor, text "hi"⟩] := by
    decide +kernel
  have hstart : Started freshShell := ⟨_, rfl, rfl, rfl⟩
  rw [← hlog]
  exact ⟨s, hrun, ((displays_of_run hstart hrun).2 _ rfl trivial).scrollback⟩

/-! ### `cat` -/

/-- What is written to the current terminal goes to the end of its log. -/
theorem lines_foldl_write (os : List Out) (p : Pages) :
    (os.foldl (fun p o => p.write p.current terminalColor o.text) p).current = p.current ∧
      (os.foldl (fun p o => p.write p.current terminalColor o.text) p).lines p.current =
        p.lines p.current ++
          (os.map Out.text).flatMap fun data => (segments data).map (Line.mk terminalColor) := by
  induction os generalizing p with
  | nil => exact ⟨rfl, (List.append_nil _).symm⟩
  | cons o os ih =>
    obtain ⟨hcurrent, hlines⟩ := ih (p.write p.current terminalColor o.text)
    refine ⟨hcurrent, hlines.trans ?_⟩
    rw [List.map_cons, List.flatMap_cons, ← List.append_assoc]
    exact congrArg (· ++ _) (Function.update_self _ _ _)

theorem newline_notMem_fileLines {l xs : List UInt8} (hl : l ∈ fileLines xs) : newline ∉ l := by
  intro hc
  have hflat : newline ∈ (fileLines xs).flatten := List.mem_flatten.2 ⟨l, hl, hc⟩
  rw [fileLines, flatten_lines] at hflat
  simpa using List.of_mem_filter hflat

/-- A string without newlines is one line. -/
theorem segments_eq (h0 : 0 ∉ data) (hnl : newline ∉ data) : segments data = [data] := by
  rw [segments, cstr_eq_self h0]
  exact List.splitOn_eq_singleton hnl

/-- `cat` prints the file. -/
theorem cmdCat_eq {m : Mem} {r : Initrd} {args : ℕ} {xs : List UInt8} (h : Holds m r args xs)
    (hargs : m.read8 args ≠ 0) (hdata : Initrd.data m r (Initrd.find m r args) ≠ 0) (h0 : 0 ∉ xs) :
    cmdCat m r args = (fileLines xs).flatMap (pieces 79) := by
  have hread : m.readBytes (Initrd.data m r (Initrd.find m r args))
      (Initrd.size m (Initrd.find m r args)) = xs := by
    rw [h.size]
    exact Mem.readBytes_of_bytesAt h.bytes
  have hflush : feed catFlush [] xs = (fileLines xs).flatMap (pieces 79) := by
    rw [feed_eq]
    refine List.flatMap_congr fun l hl => ?_
    exact (List.flatMap_congr fun p hp => congrArg ([·]) (cstr_piece h0 hl hp)).trans
      (List.flatMap_singleton' _)
  rw [cmdCat, if_neg hargs, ready_of_find h.found, if_neg (by decide)]
  dsimp only
  rw [if_neg h.found, if_neg hdata, hread, hflush]

/-- What `cat name` is dispatched to. -/
theorem dispatch_cat {name : List UInt8} (h0 : 0 ∉ name)
    (hblank : ∀ c ∈ name.head?, ¬ IsBlank c) :
    dispatch (text "cat " ++ name) = .run .cat name := by
  have hrest : ∀ c ∈ (32 :: name).head?, IsBlank c :=
    fun c hc => .inl (Option.some.inj hc).symm
  have hword := dispatch_word (w := text "cat") (by decide +kernel) (by decide +kernel) hrest
    (by simpa using h0) 0
  have hcat : builtinNamed (text "cat") = some .cat := by decide +kernel
  have hdrop : name.dropWhile (fun c => IsBlank c) = name := by
    cases name with
    | nil => rfl
    | cons c name => exact List.dropWhile_cons_of_neg (by simpa using hblank c rfl)
  have hargs : (32 :: name).dropWhile (fun c => IsBlank c) = name :=
    (List.dropWhile_cons_of_pos (by decide)).trans hdrop
  rw [List.replicate_zero, List.append_nil, hcat] at hword
  dsimp only at hword
  rw [List.append_nil, hargs] at hword
  exact hword

/-- The lines of a text are written as they are. -/
theorem flatMap_segments {xs : List UInt8} (h0 : 0 ∉ xs) :
    ((fileLines xs).flatMap (pieces 79)).flatMap
        (fun data => (segments data).map (Line.mk terminalColor)) =
      ((fileLines xs).flatMap (pieces 79)).map (Line.mk terminalColor) := by
  rw [← List.flatMap_pure_eq_map]
  refine List.flatMap_congr fun piece hpiece => ?_
  obtain ⟨l, hl, hp⟩ := List.mem_flatMap.1 hpiece
  have hpiece0 : 0 ∉ piece := fun hc => h0 (mem_of_mem_fileLines hl (mem_of_mem_pieces hp hc))
  have hpieceNl : newline ∉ piece := fun hc =>
    newline_notMem_fileLines hl (mem_of_mem_pieces hp hc)
  rw [segments_eq hpiece0 hpieceNl]
  rfl

/-- The line that `Update` echoes. -/
theorem segments_concat {command : List UInt8} (h0 : 0 ∉ command) (hnl : newline ∉ command)
    (hlen : command.length ≤ 50) :
    segments (concat echoPrompt command) = [echoPrompt ++ command] := by
  have hprompt : cstr echoPrompt = echoPrompt := by decide
  have hlength : echoPrompt.length = 7 := by decide
  rw [concat, hprompt, cstr_eq_self h0, List.take_of_length_le]
  · refine segments_eq ?_ ?_
    · rw [List.mem_append, not_or]
      exact ⟨by decide, h0⟩
    · rw [List.mem_append, not_or]
      exact ⟨by decide, hnl⟩
  · rw [List.length_append, concatSize]
    omega

open Initrd in
/-- A packed file is found by `cat`. -/
theorem holds_packed {dir : List File} {f : File} {m : Mem} {a b args : ℕ} (hdir : Packable dir)
    (hf : f ∈ dir) (hmodule : m.BytesAt a (pack dir)) (ha : 0 < a)
    (hfit : a + (pack dir).length < 2 ^ 32) (hargs : m.BytesAt args (utf8 f.name ++ [0])) :
    Holds m (loaded m a b) args f.payload ∧
      Initrd.data m (loaded m a b) (find m (loaded m a b) args) ≠ 0 := by
  rw [pack_eq] at hmodule hfit
  have htrip : RoundTrip m (loaded m a b) dir a (image (sorted dir)).length :=
    roundTrip_of_image (sorted_perm dir) hdir hmodule hfit
  obtain ⟨⟨i, hi, hentry⟩, hfound, hsize, hbytes⟩ := htrip.find f hf args hargs
  refine ⟨⟨hfound, hsize, hbytes⟩, Nat.ne_of_gt ?_⟩
  rw [hentry]
  exact ha.trans_le (htrip.inside i hi).1

open Initrd in
/-- **`cat` shows the end of the file**, below the line that was typed and what was there before:
for every file of a directory that was packed and lies in memory as a module, if it is a text. -/
theorem displays_cat {s₀ : Shell} {es : List (Event E)} {dir : List File} {f : File} {a b : ℕ}
    (h₀ : Started s₀) (hdir : Packable dir) (hf : f ∈ dir) (hnul : 0 ∉ f.payload)
    (hname : utf8 f.name ≠ [] ∧ newline ∉ utf8 f.name ∧ ∀ c ∈ (utf8 f.name).head?, ¬ IsBlank c)
    (hmodule : k.mem.BytesAt a (pack dir)) (ha : 0 < a) (hfit : a + (pack dir).length < 2 ^ 32)
    (hinitrd : k.initrd = loaded k.mem a b) (hargs : k.mem.BytesAt k.argsAt (utf8 f.name ++ [0]))
    (h : session.Run s₀ (es ++ [.entered k (text "cat " ++ utf8 f.name)]) s) :
    let p := es.foldl Pages.event .start
    rows s.screen screenWidth 2 21 = (window 21 .empty (p.lines p.current ++
      ⟨terminalColorEcho, text "Shiro> cat " ++ utf8 f.name⟩ ::
        ((fileLines f.payload).flatMap (pieces 79)).map (Line.mk terminalColor))).map
          Line.cells := by
  intro p
  obtain ⟨hne, hnl, hblank⟩ := hname
  have h0 : 0 ∉ utf8 f.name := hdir.nul f hf
  have hshort := hdir.short f hf
  have hdispatch := dispatch_cat h0 hblank
  obtain ⟨hholds, hdata⟩ := holds_packed (b := b) hdir hf hmodule ha hfit hargs
  rw [← hinitrd] at hholds hdata
  have hfirst : k.mem.read8 k.argsAt ≠ 0 := by
    obtain ⟨c, name, hcons⟩ := List.exists_cons_of_ne_nil hne
    rw [hcons] at hargs h0
    rw [read8_of_cons hargs]
    exact fun hc => h0 ((UInt8.toNat_inj.1 hc : c = 0) ▸ List.mem_cons_self)
  have hprinted : (Commands.response k (text "cat " ++ utf8 f.name)).map Out.text =
      (fileLines f.payload).flatMap (pieces 79) := by
    rw [Commands.response, hdispatch]
    exact outs_cat.trans (cmdCat_eq hholds hfirst hdata hnul)
  have hecho : segments (concat echoPrompt (text "cat " ++ utf8 f.name)) =
      [text "Shiro> cat " ++ utf8 f.name] := by
    have hlength : (text "cat ").length = 4 := by decide
    refine (segments_concat ?_ ?_ ?_).trans (congrArg ([·]) ?_)
    · rw [List.mem_append, not_or]
      exact ⟨by decide, h0⟩
    · rw [List.mem_append, not_or]
      exact ⟨by decide, hnl⟩
    · rw [List.length_append]
      omega
    · rw [← List.append_assoc]
      exact congrArg (· ++ _) (by decide)
  -- the response goes behind the echo
  obtain ⟨hcurrent, hlines⟩ := lines_foldl_write
    (Commands.response k (text "cat " ++ utf8 f.name)) (p.write p.current terminalColorEcho
      (concat echoPrompt (text "cat " ++ utf8 f.name)))
  rw [hprinted, flatMap_segments hnul] at hlines
  have hrespond : p.event (.entered k (text "cat " ++ utf8 f.name)) =
      (Commands.response k (text "cat " ++ utf8 f.name)).foldl
        (fun p o => p.write p.current terminalColor o.text)
        (p.write p.current terminalColorEcho
          (concat echoPrompt (text "cat " ++ utf8 f.name))) := by
    rw [Pages.event, Pages.respond, hdispatch]
  rw [(displayed_of_run h₀ h trivial).scrollback, hrespond, hcurrent]
  refine congrArg (fun log => (window 21 Line.empty log).map Line.cells) (hlines.trans ?_)
  rw [Pages.write]
  dsimp only
  rw [Function.update_self, hecho, List.append_assoc]
  rfl

/-- The kernel with a small ramdisk, whose second name stands where the arguments do. -/
def ramdiskReadings : Readings Unit :=
  { Commands.noReadings with
    mem := Initrd.smallModule (Initrd.pack Initrd.smallDir)
    initrd := Initrd.loaded (Initrd.smallModule (Initrd.pack Initrd.smallDir)) 0x100000 0x200000
    argsAt := 0x100000 + 8 + 1 * 40 }

open Initrd in
/-- The shell greets, and `cat motd` is typed. -/
theorem displays_cat_motd : ∃ s, session.Run freshShell
    [.greeted, .entered ramdiskReadings (text "cat motd")] s ∧
      rows s.screen screenWidth 2 21 = (window 21 .empty (greeting ++
        [⟨terminalColorEcho, text "Shiro> cat motd"⟩, ⟨terminalColor, text "hi"⟩])).map
          Line.cells := by
  have hfit : 0x100000 + (pack smallDir).length < 2 ^ 32 := by
    rw [pack_smallDir]
    decide +kernel
  have hmodule : (smallModule (pack smallDir)).BytesAt 0x100000 (pack smallDir) :=
    bytesAt_smallModule hfit
  have hargs : (smallModule (pack smallDir)).BytesAt (0x100000 + 8 + 1 * 40)
      (utf8 "motd" ++ [0]) := by
    rw [pack_smallDir] at hmodule hfit ⊢
    exact name_at hmodule hfit smallDir_packable.short (i := 1) (by decide)
  have hcommand : text "cat motd" = text "cat " ++ utf8 "motd" := by decide +kernel
  have hdispatch : dispatch (text "cat motd") = .run .cat (text "motd") := by decide +kernel
  obtain ⟨s, hrun⟩ := exists_run_greeted freshShell ramdiskReadings (text "cat motd")
    (by decide) (not_stays hdispatch (by decide) (by decide) (by decide))
  refine ⟨s, hrun, ?_⟩
  have hrun' : session.Run freshShell
      ([.greeted] ++ [.entered ramdiskReadings (text "cat " ++ utf8 "motd")]) s := by
    rwa [← hcommand]
  have hstart : Started freshShell := ⟨_, rfl, rfl, rfl⟩
  have hshown := displays_cat (f := ⟨"motd", "hi".toUTF8.data.toList⟩) hstart smallDir_packable
    (.tail _ (.head _)) (by decide +kernel) ⟨by decide +kernel, by decide +kernel, by decide +kernel⟩
    hmodule (by decide) hfit rfl hargs hrun'
  refine hshown.trans (congrArg (fun log => (window 21 Line.empty log).map Line.cells) ?_)
  decide +kernel

end Shell

end Shiro
