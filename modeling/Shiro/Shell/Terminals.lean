import Mathlib.Data.List.Basic
import Shiro.Lib.CString
import Shiro.Lib.Lts
import Shiro.Lib.Scrollback

/-!
# The terminals of the shell

The shell draws five terminals, each on a buffer of its own.  A line is written into the last row of
the content area, at a column that all terminals share, and then the content scrolls; a newline
scrolls in the middle of a string.  To its reader a terminal is a log of lines whose end is shown.

The text cursor, which `UpdateScreen` moves behind the prompt, is left out.

* `Shell`, `Shell.call` : the buffers, and the calls that write to the terminals.
* `Pages`, `Pages.call` : the terminals as logs of lines.
* `Shows` : what a terminal shows of its log.
* `shows_of_run` : **every terminal shows the end of its log**, whatever is written in which order,
  and **no call touches what is not its own.**
-/

namespace Shiro

open Scrollback

/-! ### Colours and cells -/

/-- `VGA::selectColors` -/
def selectColors (foreground background : UInt8) : UInt8 := foreground ||| background <<< 4

/-- `VGA::setColorContent` -/
def setColorContent (content color : UInt8) : UInt16 := content.toUInt16 ||| color.toUInt16 <<< 8

/-- `terminal_color`: light grey on black. -/
def terminalColor : UInt8 := selectColors 7 0

/-- `terminal_color_echo`: light brown on black. -/
def terminalColorEcho : UInt8 := selectColors 14 0

/-- A space in the colour of the terminals. -/
def blank : UInt16 := setColorContent 32 terminalColor

/-! ### The layout -/

def screenWidth : ℕ := 80

def screenHeight : ℕ := 25

def terminalHeaderHeight : ℕ := 1

def terminalStatusHeight : ℕ := 1

def terminalFooterHeight : ℕ := 1

def terminalContentHeight : ℕ :=
  screenHeight - (terminalHeaderHeight + terminalStatusHeight + terminalFooterHeight)

def headerStartingPoint : ℕ := 0

def statusStartingPoint : ℕ := terminalHeaderHeight * screenWidth

def contentStartingPoint : ℕ := statusStartingPoint + terminalStatusHeight * screenWidth

def footerStartingPoint : ℕ := contentStartingPoint + terminalContentHeight * screenWidth

def headerSize : ℕ := headerStartingPoint + terminalHeaderHeight * screenWidth

def statusSize : ℕ := statusStartingPoint + terminalStatusHeight * screenWidth

def contentSize : ℕ := contentStartingPoint + terminalContentHeight * screenWidth

def footerSize : ℕ := footerStartingPoint + terminalFooterHeight * screenWidth

/-- `first_row` of `Scroll`. -/
def firstRow : ℕ := contentStartingPoint / screenWidth

/-- `last_row` of `Scroll`. -/
def lastRow : ℕ := footerStartingPoint / screenWidth - 1

/-! ### The code -/

/-- The variables of `Applications::Shell`. -/
structure Shell where
  header : ℕ → UInt16
  status : ℕ → UInt16
  footer : ℕ → UInt16
  /-- `terminal_screens`.  Its elements are declared as pointers, but they hold cells. -/
  screens : ℕ → ℕ → UInt16
  screen : ℕ → UInt16
  currentTerminal : ℕ
  contentX : ℕ
  contentY : ℕ

namespace Shell

/-- The cells of the current terminal become `b`. -/
def setBuffer (s : Shell) (b : ℕ → UInt16) : Shell :=
  { s with screens := Function.update s.screens s.currentTerminal b }

/-- The cells of the current terminal. -/
def buffer (s : Shell) : ℕ → UInt16 := s.screens s.currentTerminal

/-- `for (pos = lo; pos < hi; pos++) screen[pos] = src[pos];` -/
def paint (screen src : ℕ → UInt16) (lo hi : ℕ) : ℕ → UInt16 :=
  (List.range' lo (hi - lo)).foldl (fun b pos => Function.update b pos (src pos)) screen

/-- `UpdateScreen()` -/
def updateScreen (s : Shell) : Shell :=
  let screen := paint s.screen s.header headerStartingPoint headerSize
  let screen := paint screen s.status statusStartingPoint statusSize
  let screen := paint screen s.buffer contentStartingPoint contentSize
  { s with screen := paint screen s.footer footerStartingPoint footerSize }

/-- `Scroll()` -/
def scroll (s : Shell) : Shell :=
  let b := moveRows s.buffer screenWidth firstRow (lastRow - firstRow)
  { s.setBuffer (fill b (lastRow * screenWidth) screenWidth blank) with contentX := 0 }

/-- A round of the loop of `WriteCColored`, whose variable `gi` is carried along. -/
def writeChar (color : UInt8) (lastLine limit : ℕ) (r : ℕ × Shell) (c : UInt8) : ℕ × Shell :=
  if c = 10 then (r.1, r.2.scroll)
  else
    let s := if limit ≤ r.1 then { r.2 with contentX := 0 } else r.2
    let gi := lastLine + s.contentX
    (gi, { s.setBuffer (Function.update s.buffer gi (setColorContent c color)) with
      contentX := s.contentX + 1 })

/-- `WriteCColored(data, color, last_line_starting_point, limit)` -/
def writeCColored (s : Shell) (data : List UInt8) (color : UInt8) (lastLine limit : ℕ) : Shell :=
  ((cstr data).foldl (writeChar color lastLine limit) (0, s)).2

/-- The common body of `WriteC` and `WriteCEcho`. -/
def writeLine (s : Shell) (data : List UInt8) (color : UInt8) (update : Bool) : Shell :=
  let s := s.writeCColored data color (footerStartingPoint - screenWidth) (contentSize - 2)
  if update then s.scroll.updateScreen else s.scroll

/-- `WriteC(data, update)` -/
def writeC (s : Shell) (data : List UInt8) (update : Bool) : Shell :=
  s.writeLine data terminalColor update

/-- `WriteCEcho(data, update)` -/
def writeCEcho (s : Shell) (data : List UInt8) (update : Bool) : Shell :=
  s.writeLine data terminalColorEcho update

/-- The number of the debug terminal. -/
def debugTerminal : ℕ := 5

/-- `WriteD(data)` -/
def writeD (s : Shell) (data : List UInt8) : Shell :=
  let active := s.currentTerminal
  let s := { s with currentTerminal := debugTerminal }.writeC data false
  { s with currentTerminal := active }.updateScreen

/-- The loop of `StartTerminal` and `ClearTerminal`. -/
def blankTerminal (s : Shell) (id : ℕ) : Shell :=
  { s with
    screens := Function.update s.screens id
      (fill (s.screens id) contentStartingPoint (terminalContentHeight * screenWidth) blank) }

/-- `StartTerminal(terminal_id)` -/
def startTerminal (s : Shell) (id : ℕ) : Shell := s.blankTerminal id

/-- `ClearTerminal(terminal_id)` -/
def clearTerminal (s : Shell) (id : ℕ) : Shell :=
  { s.blankTerminal id with contentX := 0, contentY := 0 }

/-- A call. -/
inductive Call where
  | writeC (data : List UInt8) (update : Bool)
  | writeCEcho (data : List UInt8) (update : Bool)
  | writeD (data : List UInt8)
  | clearTerminal (id : ℕ)
  /-- A function key changes `current_terminal`. -/
  | select (id : ℕ)
  deriving DecidableEq

/-- What a call does. -/
def call (s : Shell) : Call → Shell
  | .writeC data update => s.writeC data update
  | .writeCEcho data update => s.writeCEcho data update
  | .writeD data => s.writeD data
  | .clearTerminal id => s.clearTerminal id
  | .select id => { s with currentTerminal := id }

/-- The lines of a string: what lies between its newlines. -/
def segments (data : List UInt8) : List (List UInt8) := (cstr data).splitOn 10

/-- The terminals are numbered from 1 to 5. -/
def IsTerminal (id : ℕ) : Prop := 1 ≤ id ∧ id ≤ 5

instance (id : ℕ) : Decidable (IsTerminal id) := inferInstanceAs (Decidable (_ ∧ _))

/-- No line is longer than 79 bytes, and the terminals exist. -/
def Call.Ok : Call → Prop
  | .writeC data _ | .writeCEcho data _ | .writeD data => ∀ l ∈ segments data, l.length ≤ 79
  | .clearTerminal id | .select id => IsTerminal id

instance : DecidablePred Call.Ok
  | .writeC data _ | .writeCEcho data _ | .writeD data =>
    inferInstanceAs (Decidable (∀ l ∈ segments data, _))
  | .clearTerminal id | .select id => inferInstanceAs (Decidable (IsTerminal id))

/-- The shell when it has started its terminals. -/
def Started (s : Shell) : Prop :=
  ∃ raw : Shell, raw.currentTerminal = 1 ∧ raw.contentX = 0 ∧
    s = [1, 2, 3, 4, 5].foldl startTerminal raw

/-- The runs of the shell. -/
def lts : Lts Shell Call := (Lts.det Started fun s c => some (s.call c)).guard fun _ c => c.Ok

end Shell

/-! ### The terminals as logs -/

/-- A line of a terminal. -/
structure Line where
  color : UInt8
  text : List UInt8
  deriving DecidableEq

namespace Line

/-- The cells of a line: its text in its colour, and blanks up to the end of the row. -/
def cells (l : Line) : List UInt16 :=
  l.text.map (setColorContent · l.color) ++ List.replicate (screenWidth - l.text.length) blank

/-- A row on which nothing is written. -/
def empty : Line := ⟨terminalColor, []⟩

end Line

/-- The current terminal, and what has been written to each since it was started or cleared. -/
structure Pages where
  current : ℕ
  lines : ℕ → List Line

namespace Pages

/-- No terminal has been written to. -/
def start : Pages := ⟨1, fun _ => []⟩

/-- Each line of a string becomes a line of the terminal. -/
def write (p : Pages) (id : ℕ) (color : UInt8) (data : List UInt8) : Pages :=
  { p with
    lines := Function.update p.lines id
      (p.lines id ++ (Shell.segments data).map fun text => ⟨color, text⟩) }

/-- What the calls mean. -/
def call (p : Pages) : Shell.Call → Pages
  | .writeC data _ => p.write p.current terminalColor data
  | .writeCEcho data _ => p.write p.current terminalColorEcho data
  | .writeD data => p.write Shell.debugTerminal terminalColor data
  | .clearTerminal id => { p with lines := Function.update p.lines id [] }
  | .select id => { p with current := id }

end Pages

/-- The terminals show the ends of their logs. -/
structure Shows (s : Shell) (p : Pages) : Prop where
  current : s.currentTerminal = p.current
  /-- Rows 2 to 22 are the last 21 lines. -/
  scrollback : ∀ t, Shell.IsTerminal t →
    rows (s.screens t) screenWidth 2 21 = (window 21 .empty (p.lines t)).map Line.cells
  /-- Row 23 is blank. -/
  last : ∀ t, Shell.IsTerminal t →
    row (s.screens t) screenWidth 23 = List.replicate screenWidth blank

/-- The terminal that a call writes to. -/
def Shell.target (s : Shell) : Shell.Call → Option ℕ
  | .writeC _ _ | .writeCEcho _ _ => some s.currentTerminal
  | .writeD _ => some Shell.debugTerminal
  | .clearTerminal id => some id
  | .select _ => none

/-- Only the cells of the terminals in `ts` may have changed, and the screen. -/
structure Shell.Beside (ts : Option ℕ) (s s' : Shell) : Prop where
  header : s'.header = s.header
  status : s'.status = s.status
  footer : s'.footer = s.footer
  screens : ∀ t, ts ≠ some t → s'.screens t = s.screens t

/-! ### Rows and lines -/

variable {b : ℕ → UInt16} {log : List Line} {text data : List UInt8} {color c : UInt8}
  {s s' s'' : Shell} {p : Pages}

/-- The content area shows the end of the log, its last line in the last row. -/
def Drawn (b : ℕ → UInt16) (log : List Line) : Prop :=
  rows b screenWidth 2 22 = (window 22 .empty log).map Line.cells

theorem cells_nil (color : UInt8) : (Line.mk color []).cells = List.replicate screenWidth blank := by
  simp [Line.cells]

/-- A character written behind a line. -/
theorem cells_concat (h : text.length < screenWidth) (color c : UInt8) :
    (Line.mk color (text ++ [c])).cells =
      (Line.mk color text).cells.set text.length (setColorContent c color) := by
  obtain ⟨n, hn⟩ : ∃ n, screenWidth - text.length = n + 1 :=
    ⟨screenWidth - text.length - 1, by omega⟩
  have hrest : screenWidth - (text.length + 1) = n := by omega
  simp [Line.cells, hn, hrest, List.replicate_succ]

theorem Drawn.nil (h : Drawn b (log ++ [⟨c, []⟩])) (color : UInt8) :
    Drawn b (log ++ [⟨color, []⟩]) := by
  rw [Drawn, window_succ_concat, List.map_append, List.map_singleton, cells_nil] at h ⊢
  exact h

/-- `Scroll` begins a new line. -/
theorem Drawn.scroll (h : Drawn b log) :
    Drawn (fill (moveRows b screenWidth firstRow (lastRow - firstRow)) (lastRow * screenWidth)
      screenWidth blank) (log ++ [.empty]) := by
  rw [Drawn, window_concat, List.map_append, List.map_tail, ← h, List.map_singleton, Line.empty,
    cells_nil]
  exact rows_scroll b screenWidth 2 21 blank

/-- A character is written behind the last line. -/
theorem Drawn.put (h : Drawn b (log ++ [⟨color, text⟩])) (hlen : text.length < screenWidth) :
    Drawn (Function.update b (footerStartingPoint - screenWidth + text.length)
      (setColorContent c color)) (log ++ [⟨color, text ++ [c]⟩]) := by
  rw [Drawn, window_succ_concat, List.map_append, rows_succ] at h ⊢
  obtain ⟨habove, hlast⟩ := List.append_inj' h rfl
  -- the rows above stay, and one cell of the last changes
  refine congrArg₂ _ ?_ ?_
  · rw [← habove]
    have hstart : footerStartingPoint - screenWidth = (2 + 21) * screenWidth := rfl
    refine rows_congr fun p _ hp => Function.update_of_ne ?_ _ _
    omega
  · rw [List.map_singleton, List.singleton_inj] at hlast ⊢
    rw [cells_concat hlen, ← hlast]
    exact row_update b screenWidth 23 text.length _

/-- `StartTerminal` and `ClearTerminal` leave an empty log. -/
theorem drawn_blank (b : ℕ → UInt16) :
    Drawn (fill b contentStartingPoint (terminalContentHeight * screenWidth) blank)
      ([] ++ [.empty]) := by
  have hempty : (window 22 .empty ([] ++ [Line.empty])).map Line.cells =
      List.replicate 22 (List.replicate screenWidth blank) := by
    rw [window_succ_concat, window_nil, ← List.replicate_succ', List.map_replicate, Line.empty,
      cells_nil]
  rw [Drawn, hempty]
  refine rows_eq_replicate fun p hlo hhi => ?_
  have hstart : contentStartingPoint = 2 * screenWidth := rfl
  have hsize : terminalContentHeight * screenWidth = 22 * screenWidth := rfl
  rw [fill_apply, if_pos (by omega)]

/-- The rows in front of the last are the end of the log, and the last is there to write on. -/
theorem Drawn.rows_eq (h : Drawn b (log ++ [.empty])) :
    rows b screenWidth 2 21 = (window 21 .empty log).map Line.cells ∧
      row b screenWidth 23 = List.replicate screenWidth blank := by
  rw [Drawn, window_succ_concat, List.map_append, rows_succ] at h
  obtain ⟨habove, hlast⟩ := List.append_inj' h rfl
  rw [List.map_singleton, List.singleton_inj, Line.empty, cells_nil] at hlast
  exact ⟨habove, hlast⟩

/-! ### What the calls leave alone -/

namespace Shell

/-- Only the cells of the current terminal have changed, the screen, and the column. -/
structure Frame (s s' : Shell) : Prop where
  current : s'.currentTerminal = s.currentTerminal
  beside : s.Beside (some s.currentTerminal) s'

theorem Beside.refl (ts : Option ℕ) (s : Shell) : s.Beside ts s := ⟨rfl, rfl, rfl, fun _ _ => rfl⟩

theorem Beside.trans {ts : Option ℕ} (h : s.Beside ts s') (h' : s'.Beside ts s'') :
    s.Beside ts s'' :=
  ⟨h'.header.trans h.header, h'.status.trans h.status, h'.footer.trans h.footer,
    fun t ht => (h'.screens t ht).trans (h.screens t ht)⟩

theorem Frame.refl (s : Shell) : s.Frame s := ⟨rfl, .refl _ _⟩

theorem Frame.trans (h : s.Frame s') (h' : s'.Frame s'') : s.Frame s'' :=
  ⟨h'.current.trans h.current, h.beside.trans (h.current ▸ h'.beside)⟩

theorem frame_setBuffer (s : Shell) (b : ℕ → UInt16) (x : ℕ) :
    s.Frame { s.setBuffer b with contentX := x } :=
  ⟨rfl, rfl, rfl, rfl, fun _ ht => Function.update_of_ne (fun h => ht (congrArg some h.symm)) _ _⟩

theorem frame_scroll (s : Shell) : s.Frame s.scroll := frame_setBuffer s _ 0

/-- A character that is no newline goes to the shared column, or to column 0 behind the limit. -/
theorem writeChar_of_ne (hc : c ≠ 10) (color : UInt8) (lastLine limit : ℕ) (r : ℕ × Shell) :
    ∃ x, x = (if limit ≤ r.1 then 0 else r.2.contentX) ∧
      writeChar color lastLine limit r c = (lastLine + x, { r.2.setBuffer
        (Function.update r.2.buffer (lastLine + x) (setColorContent c color)) with
          contentX := x + 1 }) := by
  refine ⟨_, rfl, ?_⟩
  rw [writeChar, if_neg hc]
  split <;> rfl

theorem frame_writeChar (color : UInt8) (lastLine limit : ℕ) (r : ℕ × Shell) (c : UInt8) :
    r.2.Frame (writeChar color lastLine limit r c).2 := by
  by_cases hc : c = 10
  · rw [writeChar, if_pos hc]
    exact frame_scroll r.2
  · obtain ⟨x, -, heq⟩ := writeChar_of_ne hc color lastLine limit r
    rw [heq]
    exact frame_setBuffer r.2 _ _

theorem frame_writeChars (color : UInt8) (lastLine limit : ℕ) (cs : List UInt8) (r : ℕ × Shell) :
    r.2.Frame (cs.foldl (writeChar color lastLine limit) r).2 := by
  induction cs generalizing r with
  | nil => exact .refl _
  | cons c cs ih => exact (frame_writeChar color lastLine limit r c).trans (ih _)

theorem frame_writeLine (s : Shell) (data : List UInt8) (color : UInt8) (update : Bool) :
    s.Frame (s.writeLine data color update) := by
  have h := (frame_writeChars color (footerStartingPoint - screenWidth) (contentSize - 2)
    (cstr data) (0, s)).trans (frame_scroll _)
  unfold writeLine
  cases update with
  | false => exact h
  | true => exact ⟨h.current, h.beside.header, h.beside.status, h.beside.footer, h.beside.screens⟩

/-- **A call touches its own terminal only.** -/
theorem beside_call (s : Shell) (c : Call) : s.Beside (s.target c) (s.call c) := by
  cases c with
  | writeC data update => exact (frame_writeLine s data terminalColor update).beside
  | writeCEcho data update => exact (frame_writeLine s data terminalColorEcho update).beside
  | writeD data =>
    obtain ⟨-, h⟩ :=
      frame_writeLine { s with currentTerminal := debugTerminal } data terminalColor false
    exact ⟨h.header, h.status, h.footer, h.screens⟩
  | clearTerminal id =>
    exact ⟨rfl, rfl, rfl, fun t ht =>
      Function.update_of_ne (fun h => ht (congrArg some h.symm)) _ _⟩
  | select id => exact ⟨rfl, rfl, rfl, fun _ _ => rfl⟩

/-! ### Strings -/

theorem buffer_setBuffer (s : Shell) (b : ℕ → UInt16) (x : ℕ) :
    { s.setBuffer b with contentX := x }.buffer = b := Function.update_self _ _ _

theorem drawn_scroll (h : Drawn s.buffer log) : Drawn s.scroll.buffer (log ++ [.empty]) := by
  rw [scroll, buffer_setBuffer]
  exact h.scroll

theorem modifyHead_nil_append (ls : List (List UInt8)) : ls.modifyHead ([] ++ ·) = ls := by
  cases ls <;> simp

theorem modifyHead_cons_append (ls : List (List UInt8)) (text : List UInt8) (c : UInt8) :
    (ls.modifyHead (List.cons c)).modifyHead (text ++ ·) = ls.modifyHead (text ++ [c] ++ ·) := by
  cases ls <;> simp

/-- **The loop of `WriteCColored`**: behind the text that is in the last row already, each line of
the string gets a row of its own.  The variable `gi` holds `g`, the index of the last character
written; it is stale behind a newline. -/
theorem drawn_writeChars {cs : List UInt8} {g : ℕ} (h : Drawn s.buffer (log ++ [⟨color, text⟩]))
    (hx : s.contentX = text.length) (hgi : text ≠ [] → g < 1840 + text.length)
    (hok : ∀ l ∈ (cs.splitOn 10).modifyHead (text ++ ·), l.length ≤ 79) :
    Drawn (cs.foldl (writeChar color (footerStartingPoint - screenWidth) (contentSize - 2))
        (g, s)).2.scroll.buffer
      (log ++ ((cs.splitOn 10).modifyHead (text ++ ·)).map (Line.mk color) ++ [.empty]) := by
  induction cs generalizing g s log text with
  | nil =>
    rw [List.splitOn_nil, List.modifyHead_cons, List.append_nil]
    exact drawn_scroll h
  | cons c cs ih =>
    rw [List.splitOn_cons_eq_if_modifyHead] at hok ⊢
    rw [List.foldl_cons]
    by_cases hc : c = 10
    · -- a newline ends the line, and the next one is empty so far
      rw [if_pos (by simpa using hc), List.modifyHead_cons, List.append_nil] at hok ⊢
      rw [writeChar, if_pos hc]
      have hlines : ∀ l ∈ (cs.splitOn 10).modifyHead ([] ++ ·), l.length ≤ 79 := by
        rw [modifyHead_nil_append]
        exact fun l hl => hok l (List.mem_cons_of_mem _ hl)
      have hnext := ih (g := g) ((drawn_scroll h).nil color) rfl (fun h => absurd rfl h) hlines
      rw [modifyHead_nil_append] at hnext
      simpa only [List.map_cons, List.append_assoc, List.cons_append, List.nil_append] using hnext
    · -- any other character is written behind the text
      rw [if_neg (by simpa using hc), modifyHead_cons_append] at hok ⊢
      have hlen : text.length ≤ 78 := by
        obtain ⟨l, ls, hls⟩ := List.exists_cons_of_ne_nil (List.splitOn_ne_nil 10 cs)
        have := hok _ (by rw [hls, List.modifyHead_cons]; exact List.mem_cons_self)
        simp only [List.length_append, List.length_singleton] at this
        omega
      obtain ⟨x, hx', heq⟩ := writeChar_of_ne hc color (footerStartingPoint - screenWidth)
        (contentSize - 2) (g, s)
      -- the stale index of the line before resets a column that is zero anyway
      have hcol : x = text.length := by
        have hlimit : contentSize - 2 = 1918 := rfl
        by_cases hnil : text = []
        · rw [hx', hx, hnil, List.length_nil, ite_self]
        · have := hgi hnil
          rw [hx', if_neg (by omega), hx]
      rw [heq, hcol]
      refine ih ?_ (by rw [List.length_append, List.length_singleton]) (fun _ => ?_) hok
      · rw [buffer_setBuffer]
        exact h.put (by unfold screenWidth; omega)
      · have hstart : footerStartingPoint - screenWidth = 1840 := rfl
        rw [hstart, List.length_append, List.length_singleton]
        omega

/-! ### Calls -/

/-- What holds between two calls: each terminal has drawn its log and an empty line, and the column
is zero. -/
structure Synced (s : Shell) (p : Pages) : Prop where
  current : s.currentTerminal = p.current
  isTerminal : IsTerminal s.currentTerminal
  contentX : s.contentX = 0
  drawn : ∀ t, IsTerminal t → Drawn (s.screens t) (p.lines t ++ [.empty])

/-- **A line written** to the current terminal. -/
theorem Synced.writeLine (h : Synced s p) (hok : ∀ l ∈ segments data, l.length ≤ 79)
    (color : UInt8) (update : Bool) :
    Synced (s.writeLine data color update) (p.write p.current color data) := by
  have hframe := frame_writeLine s data color update
  have hlines : ∀ l ∈ (segments data).modifyHead ([] ++ ·), l.length ≤ 79 := by
    rwa [modifyHead_nil_append]
  have hdrawn := drawn_writeChars (g := 0) ((h.drawn _ h.isTerminal).nil color) h.contentX
    (fun hnil => absurd rfl hnil) hlines
  rw [modifyHead_nil_append] at hdrawn
  refine ⟨hframe.current.trans h.current, hframe.current.symm ▸ h.isTerminal, ?_, fun t ht => ?_⟩
  · unfold Shell.writeLine
    cases update <;> rfl
  · by_cases htc : t = s.currentTerminal
    · subst htc
      rw [Pages.write, ← h.current]
      dsimp only
      rw [Function.update_self]
      have hbuffer : (s.writeLine data color update).screens s.currentTerminal = _ :=
        congrArg _ hframe.current.symm
      rw [hbuffer]
      unfold Shell.writeLine
      cases update with
      | false => exact hdrawn
      | true => exact hdrawn
    · rw [hframe.beside.screens t fun hs => htc (Option.some.inj hs).symm, Pages.write, ← h.current]
      dsimp only
      rw [Function.update_of_ne htc]
      exact h.drawn t ht

/-- Another terminal is selected. -/
theorem Synced.select (h : Synced s p) {id : ℕ} (hid : IsTerminal id) :
    Synced { s with currentTerminal := id } { p with current := id } :=
  ⟨rfl, hid, h.contentX, h.drawn⟩

/-- **Each call keeps the terminals in step with their logs.** -/
theorem Synced.call (h : Synced s p) {c : Call} (hok : c.Ok) : Synced (s.call c) (p.call c) := by
  cases c with
  | writeC data update => exact h.writeLine hok terminalColor update
  | writeCEcho data update => exact h.writeLine hok terminalColorEcho update
  | writeD data =>
    -- `WriteD` selects the debug terminal for the call and restores the selection
    have hid : IsTerminal debugTerminal := by decide
    have hdebug := (h.select hid).writeLine hok terminalColor false
    have hback := hdebug.select h.isTerminal
    rw [h.current] at hback
    exact ⟨h.current, h.isTerminal, hback.contentX, hback.drawn⟩
  | clearTerminal id =>
    refine ⟨h.current, h.isTerminal, rfl, fun t ht => ?_⟩
    by_cases hid : t = id
    · subst hid
      rw [Pages.call, Shell.call, clearTerminal, blankTerminal]
      dsimp only
      rw [Function.update_self, Function.update_self]
      exact drawn_blank _
    · rw [Pages.call, Shell.call, clearTerminal, blankTerminal]
      dsimp only
      rw [Function.update_of_ne hid, Function.update_of_ne hid]
      exact h.drawn t ht
  | select id => exact h.select hok

theorem drawn_startTerminals (ids : List ℕ) (raw : Shell) {t : ℕ} (ht : t ∈ ids) :
    Drawn ((ids.foldl startTerminal raw).screens t) ([] ++ [.empty]) := by
  induction ids using List.reverseRecOn with
  | nil => cases ht
  | append_singleton ids id ih =>
    rw [List.foldl_append, List.foldl_cons, List.foldl_nil, startTerminal, blankTerminal]
    dsimp only
    by_cases hid : t = id
    · subst hid
      rw [Function.update_self]
      exact drawn_blank _
    · rw [Function.update_of_ne hid]
      exact ih ((List.mem_append.1 ht).resolve_right fun h => hid (List.mem_singleton.1 h))

theorem startTerminals_eq (ids : List ℕ) (raw : Shell) :
    (ids.foldl startTerminal raw).currentTerminal = raw.currentTerminal ∧
      (ids.foldl startTerminal raw).contentX = raw.contentX := by
  induction ids generalizing raw with
  | nil => exact ⟨rfl, rfl⟩
  | cons id ids ih => exact ih (raw.startTerminal id)

theorem synced_start (h : Started s) : Synced s .start := by
  obtain ⟨raw, hcurrent, hx, rfl⟩ := h
  obtain ⟨hcur, hcol⟩ := startTerminals_eq [1, 2, 3, 4, 5] raw
  rw [hcurrent] at hcur
  refine ⟨hcur, ?_, hcol.trans hx, fun t ht => drawn_startTerminals _ raw ?_⟩
  · rw [hcur]
    exact ⟨by decide, by decide⟩
  · obtain ⟨h1, h5⟩ := ht
    simp only [List.mem_cons, List.not_mem_nil, or_false]
    omega

theorem Synced.shows (h : Synced s p) : Shows s p :=
  ⟨h.current, fun t ht => (h.drawn t ht).rows_eq.1, fun t ht => (h.drawn t ht).rows_eq.2⟩

/-- **Every terminal shows the end of its log**, whatever is written in which order: rows 2 to 22
are its last 21 lines, with blank rows above, and row 23 is blank.  **No call touches what is not its
own**: the cells of another terminal, the header, the status bar and the footer. -/
theorem shows_of_run {s₀ : Shell} {cs : List Call} (h₀ : Started s₀) (h : lts.Run s₀ cs s) :
    Shows s (cs.foldl Pages.call .start) ∧
      ∀ c s', lts.step s c s' → s.Beside (s.target c) s' := by
  refine ⟨Synced.shows ?_, ?_⟩
  · induction h with
    | nil => exact synced_start h₀
    | snoc _ hst ih =>
      obtain ⟨hok, hst⟩ := hst
      cases hst
      rw [List.foldl_append]
      exact ih.call hok
  · rintro c s' ⟨-, hst⟩
    cases hst
    exact beside_call s c

theorem step_call {c : Call} (hok : c.Ok) : lts.step s c (s.call c) := ⟨hok, rfl⟩

/-- Two lines on the first terminal, then one on the second. -/
def threeLines : List Call :=
  [.writeC [104, 105, 10, 105] true, .select 2, .writeCEcho [104, 105] false]

/-- The shell started over zeroed buffers. -/
def freshShell : Shell :=
  [1, 2, 3, 4, 5].foldl startTerminal
    ⟨fun _ => 0, fun _ => 0, fun _ => 0, fun _ _ => 0, fun _ => 0, 1, 0, 0⟩

/-- Each line stays on its own terminal. -/
theorem shows_threeLines : ∃ s, lts.Run freshShell threeLines s ∧
    Shows s ⟨2, Function.update (Function.update (fun _ => []) 1 [⟨7, [104, 105]⟩, ⟨7, [105]⟩]) 2
      [⟨14, [104, 105]⟩]⟩ ∧ ∀ c s', lts.step s c s' → s.Beside (s.target c) s' := by
  have hstart : Started freshShell := ⟨_, rfl, rfl, rfl⟩
  have hrun : lts.Run freshShell threeLines _ :=
    (((Lts.Run.nil (A := lts) (s := freshShell)).snoc
      (step_call (c := .writeC [104, 105, 10, 105] true) (by decide))).snoc
        (step_call (c := .select 2) (by decide))).snoc
          (step_call (c := .writeCEcho [104, 105] false) (by decide))
  obtain ⟨hshows, hbeside⟩ := shows_of_run hstart hrun
  exact ⟨_, hrun, hshows, hbeside⟩

end Shell

end Shiro
