import Shiro.Shell.Commands
import Shiro.Shell.Terminals

/-!
# The rows of the writers

`WriteC` and `WriteCEcho` write into the last content row, `WriteF` into the footer and `WriteH`
into the header.  All three loops go back to column 0 when the cell they wrote last was the end of
the row.  They forget that cell between two calls; the columns of the header and the footer they keep.

`UpdateScreen` copies the buffers to the screen; its stores are not among those recorded here.

* `Canvas`, `Canvas.call` : the shell with all its columns, and the cells that a call stores to.
* `toShell_writeLine` : the terminals in it are those of `Shell`.
* `KeepsToRows` : each call of a series stores to its own row only.
* `keepsToRows_iff` : **exactly when** it does.
-/

namespace Shiro

/-- `VGA::setColor` -/
def setColor (content color : UInt8) : UInt16 := content.toUInt16 ||| color.toUInt16 <<< 8

/-- `header_color`: white on blue. -/
def headerColor : UInt8 := selectColors 15 1

/-- `footer_color`: light green on black. -/
def footerColor : UInt8 := selectColors 10 0

/-! ### The header and the footer -/

/-- A row that keeps its column between two calls. -/
structure Bar where
  cells : ℕ → UInt16
  x : ℕ
  /-- The cells that the call has stored to. -/
  written : List ℕ

namespace Bar

/-- A round of the loops of `WriteH` and `WriteF`, whose variable `gi` is carried along. -/
def writeChar (color : UInt8) (start limit : ℕ) (r : ℕ × Bar) (c : UInt8) : ℕ × Bar :=
  let x := if limit ≤ r.1 then 0 else r.2.x
  let gi := start + x
  (gi, ⟨Function.update r.2.cells gi (setColor c color), x + 1, r.2.written ++ [gi]⟩)

/-- The loops of `WriteH` and `WriteF`. -/
def write (b : Bar) (color : UInt8) (start limit : ℕ) (data : List UInt8) : Bar :=
  ((cstr data).foldl (writeChar color start limit) (0, b)).2

end Bar

/-! ### The shell -/

/-- A cell that is stored to: by a loop over a string, or by `Scroll`. -/
inductive CellStore where
  | header (pos : ℕ)
  | footer (pos : ℕ)
  | content (terminal pos : ℕ)
  | scroll (terminal pos : ℕ)
  deriving DecidableEq

/-- The variables of `Applications::Shell`, with the columns of the header and the footer. -/
structure Canvas extends Shell where
  headerX : ℕ
  footerX : ℕ
  /-- The cells that the last call has stored to. -/
  written : List CellStore

namespace Canvas

/-- `terminal_screens[current_terminal][pos] = cell` -/
def put (s : Canvas) (store : ℕ → ℕ → CellStore) (pos : ℕ) (cell : UInt16) : Canvas :=
  { s with
    toShell := s.setBuffer (Function.update s.buffer pos cell)
    written := s.written ++ [store s.currentTerminal pos] }

/-- `UpdateScreen()` -/
def updateScreen (s : Canvas) : Canvas := { s with toShell := s.toShell.updateScreen }

/-- The loop of `Scroll` over a row. -/
def moveRow (s : Canvas) (row : ℕ) : Canvas :=
  (List.range screenWidth).foldl (fun s col =>
    s.put .scroll (row * screenWidth + col) (s.buffer ((row + 1) * screenWidth + col))) s

/-- `Scroll()` -/
def scroll (s : Canvas) : Canvas :=
  let s := (List.range (lastRow - firstRow)).foldl (fun s i => s.moveRow (firstRow + i)) s
  let s := (List.range screenWidth).foldl (fun s col =>
    s.put .scroll (lastRow * screenWidth + col) blank) s
  { s with contentX := 0 }

/-- A round of the loop of `WriteCColored`, whose variable `gi` is carried along. -/
def writeChar (color : UInt8) (lastLine limit : ℕ) (r : ℕ × Canvas) (c : UInt8) : ℕ × Canvas :=
  if c = 10 then (r.1, r.2.scroll)
  else
    let s := if limit ≤ r.1 then { r.2 with contentX := 0 } else r.2
    let gi := lastLine + s.contentX
    (gi, { s.put .content gi (setColorContent c color) with contentX := s.contentX + 1 })

/-- `WriteCColored(data, color, last_line_starting_point, limit)` -/
def writeCColored (s : Canvas) (data : List UInt8) (color : UInt8) (lastLine limit : ℕ) : Canvas :=
  ((cstr data).foldl (writeChar color lastLine limit) (0, s)).2

/-- The common body of `WriteC` and `WriteCEcho`. -/
def writeLine (s : Canvas) (data : List UInt8) (color : UInt8) (update : Bool) : Canvas :=
  let s := s.writeCColored data color (footerStartingPoint - screenWidth) (contentSize - 2)
  if update then s.scroll.updateScreen else s.scroll

/-- `WriteC(data, update)` -/
def writeC (s : Canvas) (data : List UInt8) (update : Bool) : Canvas :=
  s.writeLine data terminalColor update

/-- `WriteCEcho(data, update)` -/
def writeCEcho (s : Canvas) (data : List UInt8) (update : Bool) : Canvas :=
  s.writeLine data terminalColorEcho update

/-- `WriteH(data, update)` -/
def writeH (s : Canvas) (data : List UInt8) (update : Bool) : Canvas :=
  let b := Bar.write ⟨s.header, s.headerX, []⟩ headerColor headerStartingPoint (headerSize - 1) data
  let s := { s with
    header := b.cells
    headerX := b.x
    written := s.written ++ b.written.map CellStore.header }
  if update then s.updateScreen else s

/-- `WriteF(data)` -/
def writeF (s : Canvas) (data : List UInt8) : Canvas :=
  let b := Bar.write ⟨s.footer, s.footerX, []⟩ footerColor footerStartingPoint (footerSize - 1) data
  let s := { s with
    footer := b.cells
    footerX := b.x
    written := s.written ++ b.written.map CellStore.footer }
  s.updateScreen

/-- `"Shiro> "` -/
def prompt : List UInt8 := text "Shiro> "

/-- `StartTerminalFooter()` -/
def startTerminalFooter (s : Canvas) : Canvas :=
  { s with
    footer := Scrollback.fill s.footer footerStartingPoint (terminalFooterHeight * screenWidth)
      (setColor 32 footerColor)
    footerX := 0 }.writeF prompt

/-- `Finish()` -/
def finish (s : Canvas) : Canvas :=
  let active := s.currentTerminal
  let s := [1, 2, 3, 4].foldl (fun s id => { s with currentTerminal := id }.writeC
    (text "> SHIRO IS LOADED AND READY TO GO\n") true) s
  let s := { s with currentTerminal := 5 }.writeC
    (text "> THE DEBUG TERMINAL IS LOADED AND READY TO GO\n") true
  { s with currentTerminal := active }.updateScreen

/-- `Start()`.  The header and the status bar keep what they hold: their texts are not modelled. -/
def start (s : Canvas) : Canvas :=
  let s := { s with
    currentTerminal := 1, headerX := 0, contentX := 0, contentY := 0, footerX := 0 }
  let s := { s with toShell := [1, 2, 3, 4, 5].foldl Shell.startTerminal s.toShell }
  s.startTerminalFooter.updateScreen.finish

/-- A call. -/
inductive Call where
  | writeC (data : List UInt8) (update : Bool)
  | writeCEcho (data : List UInt8) (update : Bool)
  | writeF (data : List UInt8)
  | writeH (data : List UInt8) (update : Bool)
  deriving DecidableEq

/-- What a call does. -/
def call (s : Canvas) (c : Call) : Canvas :=
  let s := { s with written := [] }
  match c with
  | .writeC data update => s.writeC data update
  | .writeCEcho data update => s.writeCEcho data update
  | .writeF data => s.writeF data
  | .writeH data update => s.writeH data update

end Canvas

/-! ### What the calls should do -/

namespace Canvas

/-- The cells of the terminal `t` that a line written to it may store to: the last content row, and
for `Scroll` all of them. -/
def InContent (t : ℕ) : CellStore → Prop
  | .content t' pos => t' = t ∧ 1840 ≤ pos ∧ pos < 1920
  | .scroll t' pos => t' = t ∧ 160 ≤ pos ∧ pos < 1920
  | _ => False

/-- The row of a call, when the terminal `t` is selected. -/
def Call.Owns (t : ℕ) : Call → CellStore → Prop
  | .writeC _ _, x | .writeCEcho _ _, x => InContent t x
  | .writeF _, .footer pos => 1920 ≤ pos ∧ pos < 2000
  | .writeH _ _, .header pos => pos < 80
  | _, _ => False

/-- Each of the calls `cs` after `Start` stores to its own row only. -/
def KeepsToRows (s : Canvas) (cs : List Call) : Prop :=
  ∀ pre c, pre ++ [c] <+: cs →
    ∀ x ∈ ((pre.foldl call s.start).call c).written,
      c.Owns (pre.foldl call s.start).currentTerminal x

/-- What a call writes to the header. -/
def Call.toHeader : Call → List UInt8
  | .writeH data _ => cstr data
  | _ => []

/-- What a call writes to the footer. -/
def Call.toFooter : Call → List UInt8
  | .writeF data => cstr data
  | _ => []

/-- What the calls `cs` write to the header. -/
def headerText (cs : List Call) : List UInt8 := cs.flatMap Call.toHeader

/-- What stands in the footer after the calls `cs`. -/
def footerText (cs : List Call) : List UInt8 := prompt ++ cs.flatMap Call.toFooter

/-- The text ends in the last column of its row. -/
def Full (s : List UInt8) : Prop := s ≠ [] ∧ screenWidth ∣ s.length

/-- The call `c` goes on behind a text, written by the calls `cs`, that ends in the last column. -/
def Overruns (cs : List Call) (c : Call) : Prop :=
  c.toHeader ≠ [] ∧ Full (headerText cs) ∨ c.toFooter ≠ [] ∧ Full (footerText cs)

end Canvas

/-! ### Going round a row -/

/-- The column behind `n` characters that go round a row from column 0. -/
def column (n : ℕ) : ℕ := if n = 0 then 0 else (n - 1) % screenWidth + 1

variable {n g start p t : ℕ} {color : UInt8} {data : List UInt8}

theorem column_eq_width_iff : column n = screenWidth ↔ n ≠ 0 ∧ screenWidth ∣ n := by
  unfold column screenWidth
  split <;> omega

theorem column_succ (n : ℕ) : column (n + 1) = n % screenWidth + 1 := by
  rw [column, if_neg n.succ_ne_zero, Nat.add_sub_cancel]

/-- The next character begins the row anew behind the last column. -/
theorem column_step (n : ℕ) :
    column (n + 1) = (if column n = screenWidth then 0 else column n) + 1 := by
  cases n with
  | zero => rfl
  | succ n =>
    rw [column_succ, column_succ, screenWidth]
    split <;> omega

namespace Bar

variable {b : Bar}

theorem mem_written_writeChars (color : UInt8) (start limit : ℕ) (cs : List UInt8) (r : ℕ × Bar)
    (h : p ∈ r.2.written) : p ∈ (cs.foldl (writeChar color start limit) r).2.written := by
  induction cs generalizing r with
  | nil => exact h
  | cons c cs ih => exact ih _ (List.mem_append_left _ h)

/-- **The loop goes round the row** from where `n` characters have ended, if `gi` tells rightly
whether that was the last column. -/
theorem writeChars_eq (cs : List UInt8) (color : UInt8) (hx : b.x = column n)
    (hg : start + screenWidth - 1 ≤ g ↔ column n = screenWidth) :
    ∃ r, (cs.foldl (writeChar color start (start + screenWidth - 1)) (g, b)).2 = r ∧
      r.x = column (n + cs.length) ∧
      ∀ p ∈ r.written, p ∈ b.written ∨ start ≤ p ∧ p < start + screenWidth := by
  induction cs generalizing n g b with
  | nil => exact ⟨b, rfl, hx, fun p hp => .inl hp⟩
  | cons c cs ih =>
    obtain ⟨x, hcol⟩ : ∃ x, x = if start + screenWidth - 1 ≤ g then 0 else b.x := ⟨_, rfl⟩
    have hnext : column (n + 1) = x + 1 := by
      rw [column_step, hcol, hx]
      simp only [hg]
    have hlt : n % screenWidth < screenWidth := Nat.mod_lt _ (by decide)
    have hsucc := column_succ n
    obtain ⟨r, hr, hrx, hwritten⟩ := ih (n := n + 1) (g := start + x)
      (b := ⟨Function.update b.cells (start + x) (setColor c color), x + 1,
        b.written ++ [start + x]⟩)
      hnext.symm (by omega)
    refine ⟨r, ?_, ?_, fun p hp => ?_⟩
    · rw [List.foldl_cons, writeChar, ← hcol]
      exact hr
    · rw [hrx, List.length_cons, Nat.add_assoc, Nat.add_comm 1]
    · rcases hwritten p hp with hp | hp
      · rcases List.mem_append.1 hp with hp | hp
        · exact .inl hp
        · rw [List.mem_singleton.1 hp]
          exact .inr ⟨by omega, by omega⟩
      · exact .inr hp

/-- **A call stays in the row** when the text before it does not end in the last column. -/
theorem write_of_room (color : UInt8) (start : ℕ) (hx : b.x = column n) (hwritten : b.written = [])
    (h : cstr data = [] ∨ column n ≠ screenWidth) :
    ∃ r, b.write color start (start + screenWidth - 1) data = r ∧
      r.x = column (n + (cstr data).length) ∧
      ∀ p ∈ r.written, start ≤ p ∧ p < start + screenWidth := by
  rcases h with hnil | hroom
  · refine ⟨b, ?_, ?_, ?_⟩
    · rw [write, hnil]
      rfl
    · rw [hnil]
      exact hx
    · rw [hwritten]
      exact fun p hp => absurd hp List.not_mem_nil
  · have hg : start + screenWidth - 1 ≤ 0 ↔ column n = screenWidth := by
      have hwidth : screenWidth = 80 := rfl
      omega
    obtain ⟨r, hr, hrx, hmem⟩ := writeChars_eq (cstr data) color hx hg
    refine ⟨r, hr, hrx, fun p hp => ?_⟩
    rcases hmem p hp with hp | hp
    · rw [hwritten] at hp
      cases hp
    · exact hp

/-- **Otherwise it leaves the row** with its first character. -/
theorem mem_write_of_full (color : UInt8) (start : ℕ) (hx : b.x = screenWidth)
    (hne : cstr data ≠ []) :
    start + screenWidth ∈ (b.write color start (start + screenWidth - 1) data).written := by
  obtain ⟨c, cs, hcs⟩ := List.exists_cons_of_ne_nil hne
  have hwidth : screenWidth = 80 := rfl
  rw [write, hcs, List.foldl_cons]
  refine mem_written_writeChars color start _ cs _ ?_
  rw [writeChar, if_neg (by omega), hx]
  exact List.mem_append_right _ (List.mem_singleton_self _)

end Bar

namespace Canvas

variable {s s' s'' : Canvas} {c : Call} {cs : List Call}

/-! ### The terminals -/

/-- A loop over the cells of the current terminal. -/
theorem toShell_foldl {α : Type} {f : Canvas → α → Canvas} {g : (ℕ → UInt16) → α → ℕ → UInt16}
    (h : ∀ s a, (f s a).toShell = s.setBuffer (g s.buffer a)) (l : List α) (s : Canvas) :
    (l.foldl f s).toShell = s.setBuffer (l.foldl g s.buffer) := by
  induction l generalizing s with
  | nil =>
    exact congrArg (fun b => { s.toShell with screens := b }) (Function.update_eq_self _ _).symm
  | cons a l ih =>
    have hbuffer : (f s a).buffer = g s.buffer a := by
      rw [h]
      exact Function.update_self _ _ _
    rw [List.foldl_cons, ih, hbuffer, h, List.foldl_cons, Shell.setBuffer, Shell.setBuffer,
      Function.update_idem, Shell.setBuffer]

theorem toShell_scroll (s : Canvas) : s.scroll.toShell = s.toShell.scroll := by
  have hrow : ∀ (s : Canvas) row, (s.moveRow row).toShell = s.setBuffer
      (Scrollback.move s.buffer (row * screenWidth) ((row + 1) * screenWidth) screenWidth) :=
    fun s row => toShell_foldl (fun _ _ => rfl) _ s
  have hrows := toShell_foldl (f := fun s i => s.moveRow (firstRow + i))
    (g := fun b i => Scrollback.move b ((firstRow + i) * screenWidth)
      ((firstRow + i + 1) * screenWidth) screenWidth)
    (fun s i => hrow s (firstRow + i)) (List.range (lastRow - firstRow)) s
  have hlast : ∀ s : Canvas, ((List.range screenWidth).foldl (fun s col =>
      s.put .scroll (lastRow * screenWidth + col) blank) s).toShell =
        s.setBuffer (Scrollback.fill s.buffer (lastRow * screenWidth) screenWidth blank) :=
    toShell_foldl (fun _ _ => rfl) _
  have hbuffer : ∀ b, (s.setBuffer b).buffer = b := fun b => Function.update_self _ _ _
  rw [scroll]
  dsimp only
  rw [hlast, hrows, hbuffer, Shell.setBuffer, Shell.setBuffer, Function.update_idem]
  rfl

/-- A character that is no newline goes to the column, or to column 0 behind the limit. -/
theorem writeChar_eq {c : UInt8} (hc : c ≠ 10) (color : UInt8) (lastLine limit : ℕ)
    (r : ℕ × Canvas) :
    ∃ x, x = (if limit ≤ r.1 then 0 else r.2.contentX) ∧
      writeChar color lastLine limit r c = (lastLine + x,
        { r.2.put .content (lastLine + x) (setColorContent c color) with contentX := x + 1 }) := by
  refine ⟨_, rfl, ?_⟩
  rw [writeChar, if_neg hc]
  split <;> rfl

/-- The variable `gi` and the shell, without what is recorded. -/
def erase (r : ℕ × Canvas) : ℕ × Shell := (r.1, r.2.toShell)

theorem erase_writeChar (color : UInt8) (lastLine limit : ℕ) (r : ℕ × Canvas) (c : UInt8) :
    Shell.writeChar color lastLine limit (erase r) c =
      erase (writeChar color lastLine limit r c) := by
  by_cases hc : c = 10
  · rw [writeChar, if_pos hc, Shell.writeChar, if_pos hc, erase, erase, toShell_scroll]
  · obtain ⟨x, hx, heq⟩ := writeChar_eq hc color lastLine limit r
    obtain ⟨y, hy, heq'⟩ := Shell.writeChar_of_ne hc color lastLine limit (erase r)
    obtain rfl : x = y := hx.trans hy.symm
    rw [heq, heq']
    rfl

/-- **The terminals of the shell are those of `Shell`**: a line changes them in the same way. -/
theorem toShell_writeLine (s : Canvas) (data : List UInt8) (color : UInt8) (update : Bool) :
    (s.writeLine data color update).toShell = s.toShell.writeLine data color update := by
  have hloop : s.toShell.writeCColored data color (footerStartingPoint - screenWidth)
      (contentSize - 2) = (s.writeCColored data color (footerStartingPoint - screenWidth)
        (contentSize - 2)).toShell := by
    have hfold : (cstr data).foldl (Shell.writeChar color _ _) (erase (0, s)) =
        erase ((cstr data).foldl (writeChar color (footerStartingPoint - screenWidth)
          (contentSize - 2)) (0, s)) := List.foldl_hom erase (erase_writeChar color _ _)
    exact congrArg Prod.snd hfold
  rw [writeLine, Shell.writeLine, hloop]
  cases update with
  | false => exact toShell_scroll _
  | true => exact congrArg Shell.updateScreen (toShell_scroll _)

/-! ### Lines stay in the content area -/

/-- From `s` to `s'` only the content area of the selected terminal has been stored to. -/
structure Inside (s s' : Canvas) : Prop where
  current : s'.currentTerminal = s.currentTerminal
  headerX : s'.headerX = s.headerX
  footerX : s'.footerX = s.footerX
  written : ∀ x ∈ s'.written, x ∈ s.written ∨ InContent s.currentTerminal x

theorem Inside.refl (s : Canvas) : s.Inside s := ⟨rfl, rfl, rfl, fun _ h => .inl h⟩

theorem Inside.trans (h : s.Inside s') (h' : s'.Inside s'') : s.Inside s'' := by
  refine ⟨h'.current.trans h.current, h'.headerX.trans h.headerX, h'.footerX.trans h.footerX,
    fun x hx => ?_⟩
  rcases h'.written x hx with hx | hx
  · exact h.written x hx
  · exact .inr (h.current ▸ hx)

theorem Inside.contentX (h : s.Inside s') (x : ℕ) : s.Inside { s' with contentX := x } :=
  ⟨h.current, h.headerX, h.footerX, h.written⟩

theorem inside_updateScreen (s : Canvas) : s.Inside s.updateScreen :=
  ⟨rfl, rfl, rfl, fun _ h => .inl h⟩

theorem contentX_scroll (s : Canvas) : s.scroll.contentX = 0 := rfl

theorem inside_foldl {α : Type} {f : Canvas → α → Canvas} {l : List α}
    (h : ∀ s : Canvas, ∀ a ∈ l, s.Inside (f s a)) (s : Canvas) : s.Inside (l.foldl f s) := by
  induction l generalizing s with
  | nil => exact .refl s
  | cons a l ih =>
    exact (h s a List.mem_cons_self).trans (ih (fun s b hb => h s b (List.mem_cons_of_mem a hb)) _)

theorem inside_put (store : ℕ → ℕ → CellStore)
    (h : InContent s.currentTerminal (store s.currentTerminal p)) (cell : UInt16) :
    s.Inside (s.put store p cell) := by
  refine ⟨rfl, rfl, rfl, fun y hy => ?_⟩
  rcases List.mem_append.1 hy with hy | hy
  · exact .inl hy
  · rw [List.mem_singleton.1 hy]
    exact .inr h

/-- `Scroll` stores to the rows 2 to 23. -/
theorem inside_put_scroll (s : Canvas) {row col : ℕ} (hrow : 2 ≤ row ∧ row ≤ 23)
    (hcol : col ∈ List.range screenWidth) (cell : UInt16) :
    s.Inside (s.put .scroll (row * screenWidth + col) cell) := by
  have hlt := List.mem_range.1 hcol
  unfold screenWidth at hlt ⊢
  exact inside_put .scroll ⟨rfl, by omega, by omega⟩ cell

theorem inside_moveRow (s : Canvas) {row : ℕ} (hrow : 2 ≤ row ∧ row ≤ 23) :
    s.Inside (s.moveRow row) := by
  rw [moveRow]
  exact inside_foldl (fun s col hcol => inside_put_scroll s hrow hcol _) s

/-- `Scroll` stays in the content area. -/
theorem inside_scroll (s : Canvas) : s.Inside s.scroll := by
  have hrows : ∀ s : Canvas, s.Inside ((List.range (lastRow - firstRow)).foldl (fun s i =>
      s.moveRow (firstRow + i)) s) := by
    refine inside_foldl fun s i hi => inside_moveRow s ?_
    have hlt := List.mem_range.1 hi
    have hfirst : firstRow = 2 := rfl
    have hlast : lastRow = 23 := rfl
    omega
  have hblank : ∀ s : Canvas, s.Inside ((List.range screenWidth).foldl (fun s col =>
      s.put .scroll (lastRow * screenWidth + col) blank) s) :=
    inside_foldl fun s col hcol => inside_put_scroll s (by decide) hcol blank
  exact ((hrows s).trans (hblank _)).contentX 0

/-- **The loop of `WriteCColored` stays in the last row**: behind column 78 the variable `gi` has
reached the limit, and a newline begins at column 0 anyway. -/
theorem inside_writeChars (cs : List UInt8) (color : UInt8)
    (hx : s.contentX ≤ 78 ∨ s.contentX = 79 ∧ 1918 ≤ g) :
    s.Inside (cs.foldl (writeChar color (footerStartingPoint - screenWidth) (contentSize - 2))
      (g, s)).2 := by
  induction cs generalizing g s with
  | nil => exact .refl s
  | cons c cs ih =>
    rw [List.foldl_cons]
    by_cases hc : c = 10
    · rw [writeChar, if_pos hc]
      exact (inside_scroll s).trans (ih (.inl (Nat.zero_le _)))
    · obtain ⟨x, hcol, heq⟩ := writeChar_eq hc color (footerStartingPoint - screenWidth)
        (contentSize - 2) (g, s)
      have hstart : footerStartingPoint - screenWidth = 1840 := rfl
      have hlimit : contentSize - 2 = 1918 := rfl
      have hle : x ≤ 78 := by
        rw [hcol, hlimit]
        dsimp only
        split <;> omega
      rw [heq]
      have hput : s.Inside (s.put .content (footerStartingPoint - screenWidth + x)
        (setColorContent c color)) := inside_put .content ⟨rfl, by omega, by omega⟩ _
      exact (hput.contentX (x + 1)).trans (ih (by dsimp only; omega))

/-- **A line stays in the content area**, and leaves the column at 0. -/
theorem inside_writeLine (hx : s.contentX = 0) (data : List UInt8) (color : UInt8) (update : Bool) :
    s.Inside (s.writeLine data color update) ∧ (s.writeLine data color update).contentX = 0 := by
  obtain ⟨t, ht⟩ : ∃ t, t = (s.writeCColored data color (footerStartingPoint - screenWidth)
    (contentSize - 2)).scroll := ⟨_, rfl⟩
  have h : s.Inside t := by
    rw [ht]
    exact (inside_writeChars (g := 0) (cstr data) color (.inl (by omega))).trans
      (inside_scroll _)
  have hzero : t.contentX = 0 := by rw [ht, contentX_scroll]
  rw [writeLine, ← ht]
  cases update with
  | false => exact ⟨h, hzero⟩
  | true => exact ⟨h.trans (inside_updateScreen t), hzero⟩

/-! ### The header and the footer -/

theorem writeH_eq (s : Canvas) (data : List UInt8) (update : Bool) {b : Bar}
    (hb : Bar.write ⟨s.header, s.headerX, []⟩ headerColor headerStartingPoint
      (headerStartingPoint + screenWidth - 1) data = b) :
    (s.writeH data update).headerX = b.x ∧ (s.writeH data update).footerX = s.footerX ∧
      (s.writeH data update).contentX = s.contentX ∧
      (s.writeH data update).written = s.written ++ b.written.map .header := by
  have hlimit : headerSize - 1 = headerStartingPoint + screenWidth - 1 := rfl
  rw [writeH, hlimit, hb]
  cases update with
  | false => exact ⟨rfl, rfl, rfl, rfl⟩
  | true => exact ⟨rfl, rfl, rfl, rfl⟩

theorem writeF_eq (s : Canvas) (data : List UInt8) {b : Bar}
    (hb : Bar.write ⟨s.footer, s.footerX, []⟩ footerColor footerStartingPoint
      (footerStartingPoint + screenWidth - 1) data = b) :
    (s.writeF data).footerX = b.x ∧ (s.writeF data).headerX = s.headerX ∧
      (s.writeF data).contentX = s.contentX ∧
      (s.writeF data).written = s.written ++ b.written.map .footer := by
  have hlimit : footerSize - 1 = footerStartingPoint + screenWidth - 1 := rfl
  rw [writeF, hlimit, hb]
  exact ⟨rfl, rfl, rfl, rfl⟩

/-- What is recorded of the cells of a row. -/
theorem mem_written {store : ℕ → CellStore} {l : List CellStore} {ps : List ℕ} {P : ℕ → Prop}
    (h : ∀ p ∈ ps, P p) {x : CellStore} (hx : x ∈ l ++ ps.map store) :
    x ∈ l ∨ ∃ p, P p ∧ x = store p := by
  rcases List.mem_append.1 hx with hx | hx
  · exact .inl hx
  · obtain ⟨p, hp, rfl⟩ := List.mem_map.1 hx
    exact .inr ⟨p, h p hp, rfl⟩

/-- A call of `WriteH` behind `n` characters stays in the header. -/
theorem writeH_of_room (data : List UInt8) (update : Bool) (hx : s.headerX = column n)
    (hroom : cstr data = [] ∨ column n ≠ screenWidth) :
    (s.writeH data update).headerX = column (n + (cstr data).length) ∧
      (s.writeH data update).footerX = s.footerX ∧ (s.writeH data update).contentX = s.contentX ∧
      ∀ x ∈ (s.writeH data update).written, x ∈ s.written ∨ ∃ p < 80, x = .header p := by
  obtain ⟨b, hb, hbx, hwritten⟩ := Bar.write_of_room (b := ⟨s.header, s.headerX, []⟩) headerColor
    headerStartingPoint hx rfl hroom
  obtain ⟨hheader, hfooter, hcontent, hlog⟩ := writeH_eq s data update hb
  exact ⟨hheader.trans hbx, hfooter, hcontent, fun x hx =>
    mem_written (fun p hp => (hwritten p hp).2) (hlog ▸ hx)⟩

/-- A call of `WriteF` behind `n` characters stays in the footer. -/
theorem writeF_of_room (data : List UInt8) (hx : s.footerX = column n)
    (hroom : cstr data = [] ∨ column n ≠ screenWidth) :
    (s.writeF data).footerX = column (n + (cstr data).length) ∧
      (s.writeF data).headerX = s.headerX ∧ (s.writeF data).contentX = s.contentX ∧
      ∀ x ∈ (s.writeF data).written,
        x ∈ s.written ∨ ∃ p, (1920 ≤ p ∧ p < 2000) ∧ x = .footer p := by
  obtain ⟨b, hb, hbx, hwritten⟩ := Bar.write_of_room (b := ⟨s.footer, s.footerX, []⟩) footerColor
    footerStartingPoint hx rfl hroom
  obtain ⟨hfooter, hheader, hcontent, hlog⟩ := writeF_eq s data hb
  exact ⟨hfooter.trans hbx, hheader, hcontent, fun x hx => mem_written hwritten (hlog ▸ hx)⟩

/-! ### Calls -/

/-- The columns are behind what the calls `cs` have written. -/
structure Columns (s : Canvas) (cs : List Call) : Prop where
  header : s.headerX = column (headerText cs).length
  footer : s.footerX = column (footerText cs).length
  content : s.contentX = 0

theorem full_iff (l : List UInt8) : Full l ↔ column l.length = screenWidth := by
  rw [column_eq_width_iff, Full, ne_eq, ne_eq, List.length_eq_zero_iff]

theorem Columns.writeLine (h : Columns s cs) (data : List UInt8) (color : UInt8) (update : Bool) :
    Columns (s.writeLine data color update) cs := by
  obtain ⟨hin, hzero⟩ := inside_writeLine h.content data color update
  exact ⟨hin.headerX.trans h.header, hin.footerX.trans h.footer, hzero⟩

theorem Columns.select (h : Columns s cs) (t : ℕ) : Columns { s with currentTerminal := t } cs :=
  ⟨h.header, h.footer, h.content⟩

theorem Columns.updateScreen (h : Columns s cs) : Columns s.updateScreen cs :=
  ⟨h.header, h.footer, h.content⟩

theorem Columns.echo (h : Columns s cs) (t : ℕ) (data : List UInt8) :
    Columns ({ s with currentTerminal := t }.writeC data true) cs :=
  (h.select t).writeLine data terminalColor true

theorem Columns.finish (h : Columns s cs) : Columns s.finish cs := by
  have hlines := fun data => (((h.echo 1 data).echo 2 data).echo 3 data).echo 4 data
  rw [Canvas.finish, List.foldl_cons, List.foldl_cons, List.foldl_cons, List.foldl_cons,
    List.foldl_nil]
  exact (((hlines _).echo 5 _).select s.currentTerminal).updateScreen

/-- The footer begins with the prompt. -/
theorem columns_startTerminalFooter (hheader : s.headerX = 0) (hcontent : s.contentX = 0) :
    Columns s.startTerminalFooter [] := by
  obtain ⟨hfooter, hheader', hcontent', -⟩ := writeF_of_room (n := 0) (s := { s with
    footer := Scrollback.fill s.footer footerStartingPoint (terminalFooterHeight * screenWidth)
      (setColor 32 footerColor)
    footerX := 0 }) prompt rfl (.inr (by decide))
  exact ⟨hheader'.trans hheader, hfooter, hcontent'.trans hcontent⟩

theorem columns_start (s : Canvas) : Columns s.start [] := by
  have hterminals := Shell.startTerminals_eq [1, 2, 3, 4, 5]
    { s.toShell with currentTerminal := 1, contentX := 0, contentY := 0 }
  exact (columns_startTerminalFooter (s := { s with
    toShell := _, headerX := 0, footerX := 0 }) rfl hterminals.2).updateScreen.finish

theorem headerText_concat (cs : List Call) (c : Call) :
    headerText (cs ++ [c]) = headerText cs ++ c.toHeader := by
  rw [headerText, headerText, List.flatMap_append, List.flatMap_singleton]

theorem footerText_concat (cs : List Call) (c : Call) :
    footerText (cs ++ [c]) = footerText cs ++ c.toFooter := by
  rw [footerText, footerText, List.flatMap_append, List.flatMap_singleton, List.append_assoc]

/-- The columns after a call that writes to the header, to the footer, or to neither. -/
theorem Columns.concat (h : Columns s cs)
    (hheader : s'.headerX = column ((headerText cs).length + c.toHeader.length))
    (hfooter : s'.footerX = column ((footerText cs).length + c.toFooter.length))
    (hcontent : s'.contentX = s.contentX) : Columns s' (cs ++ [c]) := by
  refine ⟨?_, ?_, hcontent.trans h.content⟩
  · rw [hheader, headerText_concat, List.length_append]
  · rw [hfooter, footerText_concat, List.length_append]

/-- **A call that does not overrun keeps to its row**, and the columns. -/
theorem Columns.call (h : Columns s cs) (hok : ¬ Overruns cs c) :
    Columns (s.call c) (cs ++ [c]) ∧ ∀ x ∈ (s.call c).written, c.Owns s.currentTerminal x := by
  obtain ⟨hokHeader, hokFooter⟩ := not_or.1 hok
  rw [full_iff, not_and_or, not_not] at hokHeader hokFooter
  have hline : ∀ data color update,
      ({ s with written := [] }.writeLine data color update).headerX = s.headerX ∧
      ({ s with written := [] }.writeLine data color update).footerX = s.footerX ∧
      ({ s with written := [] }.writeLine data color update).contentX = s.contentX ∧
      ∀ x ∈ ({ s with written := [] }.writeLine data color update).written,
        InContent s.currentTerminal x := by
    intro data color update
    obtain ⟨hin, hzero⟩ :=
      inside_writeLine (s := { s with written := [] }) h.content data color update
    exact ⟨hin.headerX, hin.footerX, hzero.trans h.content.symm, fun x hx =>
      (hin.written x hx).resolve_left List.not_mem_nil⟩
  cases c with
  | writeC data update =>
    obtain ⟨hheader, hfooter, hcontent, hin⟩ := hline data terminalColor update
    exact ⟨h.concat (hheader.trans h.header) (hfooter.trans h.footer) hcontent, hin⟩
  | writeCEcho data update =>
    obtain ⟨hheader, hfooter, hcontent, hin⟩ := hline data terminalColorEcho update
    exact ⟨h.concat (hheader.trans h.header) (hfooter.trans h.footer) hcontent, hin⟩
  | writeF data =>
    obtain ⟨hfooter, hheader, hcontent, hin⟩ :=
      writeF_of_room (s := { s with written := [] }) data h.footer hokFooter
    refine ⟨h.concat (hheader.trans h.header) hfooter hcontent, fun x hx => ?_⟩
    obtain ⟨p, hp, rfl⟩ := (hin x hx).resolve_left List.not_mem_nil
    exact hp
  | writeH data update =>
    obtain ⟨hheader, hfooter, hcontent, hin⟩ :=
      writeH_of_room (s := { s with written := [] }) data update h.header hokHeader
    refine ⟨h.concat hheader (hfooter.trans h.footer) hcontent, fun x hx => ?_⟩
    obtain ⟨p, hp, rfl⟩ := (hin x hx).resolve_left List.not_mem_nil
    exact hp

/-- **A call that overruns leaves its row.** -/
theorem Columns.overruns (h : Columns s cs) (hover : Overruns cs c) :
    ∃ x ∈ (s.call c).written, ¬ c.Owns s.currentTerminal x := by
  unfold Overruns at hover
  rw [full_iff, full_iff] at hover
  cases c with
  | writeC data update => exact absurd rfl (hover.elim And.left And.left)
  | writeCEcho data update => exact absurd rfl (hover.elim And.left And.left)
  | writeF data =>
    obtain ⟨hne, hfull⟩ := hover.resolve_left fun h => h.1 rfl
    have hmem := Bar.mem_write_of_full (b := ⟨s.footer, s.footerX, []⟩) footerColor
      footerStartingPoint (h.footer.trans hfull) hne
    obtain ⟨-, -, -, hlog⟩ := writeF_eq { s with written := [] } data rfl
    refine ⟨.footer (footerStartingPoint + screenWidth), ?_, fun h => ?_⟩
    · rw [Canvas.call, hlog]
      exact List.mem_append_right _ (List.mem_map_of_mem hmem)
    · exact absurd h.2 (by decide)
  | writeH data update =>
    obtain ⟨hne, hfull⟩ := hover.resolve_right fun h => h.1 rfl
    have hmem := Bar.mem_write_of_full (b := ⟨s.header, s.headerX, []⟩) headerColor
      headerStartingPoint (h.header.trans hfull) hne
    obtain ⟨-, -, -, hlog⟩ := writeH_eq { s with written := [] } data update rfl
    refine ⟨.header (headerStartingPoint + screenWidth), ?_, fun h => ?_⟩
    · rw [Canvas.call, hlog]
      exact List.mem_append_right _ (List.mem_map_of_mem hmem)
    · exact Nat.lt_irrefl 80 h

/-- **The calls keep to their rows** if and only if none goes on in the header or the footer behind
a text that ends in the last column. -/
theorem keepsToRows_iff (s : Canvas) (cs : List Call) :
    KeepsToRows s cs ↔ ∀ pre c, pre ++ [c] <+: cs → ¬ Overruns pre c := by
  refine Lts.forall_step_iff (I := Columns) (P := fun s c => ∀ x ∈ (s.call c).written,
    c.Owns s.currentTerminal x) cs (columns_start s) (fun _ _ _ h hok => (h.call hok).1) ?_
  intro s pre c h
  constructor
  · intro hkeeps hover
    obtain ⟨x, hx, hout⟩ := h.overruns hover
    exact hout (hkeeps x hx)
  · exact fun hok => (h.call hok).2

/-- Eighty characters in the header, and one more. -/
def overlong : List Call := [.writeH (List.replicate 80 97) true, .writeH [97] true]

/-- The last of them goes to the cell behind the header. -/
theorem not_keepsToRows_overlong : ¬ ∀ s cs, KeepsToRows s cs := by
  intro h
  have hstart := columns_start ⟨Shell.freshShell, 0, 0, []⟩
  have hempty : ¬ Overruns [] (.writeH (List.replicate 80 97) true) :=
    fun hover => hover.elim (fun h => h.2.1 rfl) fun h => h.1 rfl
  have hfull : Overruns [.writeH (List.replicate 80 97) true] (.writeH [97] true) :=
    .inl ⟨by decide, by decide, by decide⟩
  obtain ⟨x, hx, hout⟩ := (hstart.call hempty).1.overruns hfull
  exact hout (h _ overlong [.writeH (List.replicate 80 97) true] _ (List.prefix_refl _) x hx)

end Canvas

end Shiro
