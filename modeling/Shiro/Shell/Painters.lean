import Shiro.Lib.Drawing
import Shiro.Lib.Publish
import Shiro.Sched.Table
import Shiro.Shell.Numbers
import Shiro.Shell.Rows

/-!
# The tasks that draw on the screen

Five tasks share the buffers of the shell: the kernel task with `Shell::Update`, and the four tasks
of `DemoTasks`.  Each of them changes some cells and then calls `UpdateScreen`, which copies all of
them to the screen, and the timer switches from one task to another between any two steps.

The text cursor, which `UpdateScreen` moves behind the prompt, is left out.

* `Painter`, `Painter.Job` : the tasks, and what each of them does between two sleeps.
* `Shell.picture` : what the buffers make up together.
* `Painter.system` : all interleavings of their jobs.
* `keeps_acts` : each task keeps to its own variables.
* `tabbed_jobs`, `overwrites` : what a job leaves behind.
-/

namespace Shiro

open Publish

/-- `header_color_tab_active`: black on white. -/
def headerColorTabActive : UInt8 := selectColors 0 15

/-- `header_color_tab_inactive`: light grey on blue. -/
def headerColorTabInactive : UInt8 := selectColors 7 1

/-- `status_color`: black on light grey. -/
def statusColor : UInt8 := selectColors 0 7

namespace Shell

/-- What the buffers show at a position of the screen. -/
def picture (s : Shell) (pos : ℕ) : UInt16 :=
  if pos < headerSize then s.header pos
  else if pos < statusSize then s.status pos
  else if pos < contentSize then s.buffer pos
  else if pos < footerSize then s.footer pos
  else 0

/-- `terminal_screen_header[pos] = cell` -/
def setHeader (pos : ℕ) (cell : Shell → UInt16) (s : Shell) : Shell :=
  { s with header := Function.update s.header pos (cell s) }

/-- `terminal_screen_status[pos] = cell` -/
def setStatus (pos : ℕ) (cell : UInt16) (s : Shell) : Shell :=
  { s with status := Function.update s.status pos cell }

/-- `for (pos = lo; pos < hi; pos++) screen[pos] = …;`, four times. -/
def places : List ℕ :=
  List.range' headerStartingPoint (headerSize - headerStartingPoint) ++
  List.range' statusStartingPoint (statusSize - statusStartingPoint) ++
  List.range' contentStartingPoint (contentSize - contentStartingPoint) ++
  List.range' footerStartingPoint (footerSize - footerStartingPoint)

/-! ### `RenderHeader` and `RenderStatus` -/

/-- The characters `cs` from the column `col` on, in a colour that depends on the terminal. -/
def cellsAt (col : ℕ) (cs : List UInt8) (color : ℕ → UInt8) : List (ℕ × (ℕ → UInt16)) :=
  cs.zipIdx.map fun x => (col + x.2, fun current => setColor x.1 (color current))

/-- The characters of a tab. -/
def tabText (tab : ℕ) : List UInt8 :=
  91 :: .ofNat (48 + tab) :: text (if tab = 5 then " dbg" else " term") ++ [93]

/-- `color`, in the loop over the tabs. -/
def tabColor (tab current : ℕ) : UInt8 :=
  if tab = current then headerColorTabActive else headerColorTabInactive

/-- The loop over the tabs. -/
def renderTabs : ℕ → List ℕ → List (ℕ × (ℕ → UInt16))
  | _, [] => []
  | col, tab :: tabs =>
    cellsAt col (tabText tab) (tabColor tab) ++
      cellsAt (col + (tabText tab).length) [32] (fun _ => headerColor) ++
      renderTabs (col + (tabText tab).length + 1) tabs

/-- The cells that `RenderHeader()` stores to, in order, and what it stores there when
`current_terminal` has a given value. -/
def headerCells : List (ℕ × (ℕ → UInt16)) :=
  cellsAt headerStartingPoint (List.replicate 64 32) (fun _ => headerColor) ++
  cellsAt 0 (text " Shiro 0.5  ") (fun _ => headerColor) ++
  cellsAt 12 [0xB3] (fun _ => headerColor) ++
  renderTabs 14 [1, 2, 3, 4, 5]

/-- `RenderHeader()` -/
def renderHeader : List (Shell → Shell) :=
  headerCells.map fun x => setHeader x.1 fun s => x.2 s.currentTerminal

/-- `RenderStatus(text)` -/
def renderStatus (data : List UInt8) : List (Shell → Shell) :=
  ((List.range' statusStartingPoint (statusSize - statusStartingPoint)).map fun pos =>
    setStatus pos (setColor 32 statusColor)) ++
  ((cstr data).take (statusSize - 1 - (statusStartingPoint + 1))).zipIdx.map fun x =>
    setStatus (statusStartingPoint + 1 + x.2) (setColor x.1 statusColor)

end Shell

/-! ### The clock -/

namespace DemoTasks

open Stores

/-- The text that `task_clock` builds. -/
def clockLine (ticks : ℕ) : Stores Unit := do
  let totalSec := ticks / tickHz
  let h := totalSec / 3600
  let m := totalSec / 60 % 60
  let s := totalSec % 60
  (u32To2Digit h).offset 0
  put 2 58
  (u32To2Digit m).offset 3
  put 5 58
  (u32To2Digit s).offset 6
  put 8 0

/-- `buf`, in `task_clock`. -/
def clockText (ticks : ℕ) : List UInt8 := (clockLine ticks).fill (List.replicate 10 0)

/-- `(color << 8) | (uint16_t)c`, where `c` is a signed `char`. -/
def paintCell (c : UInt8) : UInt16 := headerColor.toUInt16 <<< 8 ||| c.toInt8.toInt16.toUInt16

/-- `frames` -/
def frames : List UInt8 := [124, 47, 45, 92]

end DemoTasks

/-! ### The tasks -/

/-- The tasks that draw. -/
inductive Painter where
  | kernel
  | spinner
  | heartbeat
  | clock
  | statusbar
  deriving DecidableEq

namespace Painter

/-- The task that stores to a cell of the header while the tasks run. -/
def headerOwner (pos : ℕ) : Painter :=
  if pos = 66 then .spinner
  else if pos = 64 then .heartbeat
  else if 70 ≤ pos ∧ pos < 78 then .clock
  else .kernel

/-- The variables of the task `t` have the same values. -/
structure Same (t : Painter) (s s' : Shell) : Prop where
  header : ∀ pos, headerOwner pos = t → s.header pos = s'.header pos
  status : t = .statusbar → ∀ pos, 80 ≤ pos → pos < 160 → s.status pos = s'.status pos
  footer : t = .kernel → s.footer = s'.footer
  screens : t = .kernel → s.screens = s'.screens
  currentTerminal : t = .kernel → s.currentTerminal = s'.currentTerminal
  contentX : t = .kernel → s.contentX = s'.contentX
  contentY : t = .kernel → s.contentY = s'.contentY

/-- A statement of `Update` that draws in the content area or in the footer. -/
structure Draws (f : Shell → Shell) : Prop where
  keeps : Keeps Same .kernel f
  header : ∀ s, (f s).header = s.header
  currentTerminal : ∀ s, (f s).currentTerminal = s.currentTerminal

/-- A job of one of the tasks, with what it reads of the rest of the kernel. -/
inductive Job where
  /-- `Update`, behind the key F`n + 1`. -/
  | select (n : Fin 5)
  /-- `Update`, behind any other key: some statements that draw. -/
  | work (fs : List {f : Shell → Shell // Draws f})
  /-- A round of `task_spinner`. -/
  | spin (i : UInt32)
  /-- A round of `task_heartbeat`. -/
  | beat (on : Bool)
  /-- A round of `task_clock`. -/
  | time (ticks : UInt32)
  /-- A round of `task_statusbar`, with the line that it has built. -/
  | metrics (data : List UInt8)

namespace Job

/-- The task of a job. -/
def owner : Job → Painter
  | .select _ | .work _ => .kernel
  | .spin _ => .spinner
  | .beat _ => .heartbeat
  | .time _ => .clock
  | .metrics _ => .statusbar

/-- The statements of a job, up to its `UpdateScreen()`. -/
def acts : Job → List (Shell → Shell)
  | .select n => (fun s => { s with currentTerminal := n + 1 }) :: Shell.renderHeader
  | .work fs => fs.map Subtype.val
  | .spin i =>
    [Shell.setHeader 66 fun _ => DemoTasks.paintCell (DemoTasks.frames.getD (i &&& 3).toNat 0)]
  | .beat on => [Shell.setHeader 64 fun _ => DemoTasks.paintCell (if on then 3 else 32)]
  | .time ticks => (List.range 8).map fun i =>
    Shell.setHeader (70 + i) fun _ =>
      DemoTasks.paintCell ((DemoTasks.clockText ticks.toNat).getD i 0)
  | .metrics data => Shell.renderStatus data

/-- The statements of a job. -/
def code (j : Job) : List (Stmt Shell ℕ) := j.acts.map Stmt.act ++ copy Shell.places

end Job

/-- The tasks and the screen. -/
def system : System Shell ℕ UInt16 Painter Job := ⟨Shell.picture, Job.owner, Job.code⟩

/-! ### What the screen should show -/

/-- The characters of the header up to column 63. -/
def headerText : List UInt8 :=
  text " Shiro 0.5  " ++ [0xB3, 32] ++ text "[1 term] [2 term] [3 term] [4 term] [5 dbg] "

/-- The tab of a terminal covers the position. -/
def InTab (tab pos : ℕ) : Prop :=
  14 + 9 * (tab - 1) ≤ pos ∧ pos < 14 + 9 * (tab - 1) + (if tab = 5 then 7 else 8)

instance (tab pos : ℕ) : Decidable (InTab tab pos) := inferInstanceAs (Decidable (_ ∧ _))

/-- The header, up to column 63, with the tab of the terminal `t` in front. -/
def headerCell (t pos : ℕ) : UInt16 :=
  setColor (headerText.getD pos 32)
    (if InTab t pos then headerColorTabActive
    else if [1, 2, 3, 4, 5].any (InTab · pos) then headerColorTabInactive
    else headerColor)

/-- A number below 100 in two digits. -/
def twoDigits (n : ℕ) : List UInt8 := [.ofNat (48 + n / 10), .ofNat (48 + n % 10)]

/-- The time `HH:MM:SS` after some seconds.  After 100 hours it begins anew. -/
def timeText (sec : ℕ) : List UInt8 :=
  twoDigits (sec / 3600 % 100) ++ 58 :: twoDigits (sec / 60 % 60) ++ 58 :: twoDigits (sec % 60)

/-- The status bar with a line on it. -/
def statusCell (data : List UInt8) (pos : ℕ) : UInt16 :=
  setColor (if pos = 80 then 32 else ((cstr data).take 78).getD (pos - 81) 32) statusColor

/-- The terminal that has been selected last. -/
def selected (t : ℕ) (js : List Job) : ℕ :=
  js.foldl (fun t j => match j with
    | .select n => n + 1
    | _ => t) t

/-- The header shows the tabs, with that of the current terminal in front. -/
def Tabbed (s : Shell) : Prop := ∀ pos < 64, s.header pos = headerCell s.currentTerminal pos

variable {t u : Painter} {s s' s'' : Shell} {f : Shell → Shell} {pos n : ℕ} {j : Job}
  {js : List Job} {ls : List (Label Painter Job)}

/-! ### The picture -/

theorem mem_places (h : pos < 2000) : pos ∈ Shell.places := by
  have hheader : headerSize = 80 := rfl
  have hstatus : statusSize = 160 := rfl
  have hcontent : contentSize = 1920 := rfl
  have hfooter : footerSize = 2000 := rfl
  have hstart : headerStartingPoint = 0 := rfl
  have hstatus' : statusStartingPoint = 80 := rfl
  have hcontent' : contentStartingPoint = 160 := rfl
  have hfooter' : footerStartingPoint = 1920 := rfl
  simp only [Shell.places, List.mem_append, List.mem_range'_1]
  omega

/-- What no place shows no change can show. -/
theorem mem_places_of_changes (h : system.Changes f pos) : pos ∈ Shell.places := by
  obtain ⟨s, hs⟩ := h
  by_contra hpos
  have hout : ∀ s : Shell, s.picture pos = 0 := by
    intro s
    have hle : footerSize ≤ pos := Nat.le_of_not_lt fun hlt => hpos (mem_places hlt)
    rw [Shell.picture, if_neg (Nat.not_lt.2 (le_trans (by decide) hle)),
      if_neg (Nat.not_lt.2 (le_trans (by decide) hle)),
      if_neg (Nat.not_lt.2 (le_trans (by decide) hle)), if_neg (Nat.not_lt.2 hle)]
  exact hs ((hout _).trans (hout _).symm)

theorem published (j : Job) : system.Published j.code :=
  published_append_copy fun _ _ _ h => mem_places_of_changes h

theorem acts_code (j : Job) : acts (system.code j) = j.acts := acts_append_copy _ _

theorem picture_header (h : pos < 80) : s.picture pos = s.header pos := if_pos h

theorem picture_status (hlo : 80 ≤ pos) (hhi : pos < 160) : s.picture pos = s.status pos := by
  have hheader : ¬ pos < headerSize := Nat.not_lt.2 hlo
  have hstatus : pos < statusSize := hhi
  rw [Shell.picture, if_neg hheader, if_pos hstatus]

/-! ### What the tasks change -/

theorem Same.refl (t : Painter) (s : Shell) : Same t s s :=
  ⟨fun _ _ => rfl, fun _ _ _ _ => rfl, fun _ => rfl, fun _ => rfl, fun _ => rfl, fun _ => rfl,
    fun _ => rfl⟩

theorem Same.trans (h : Same t s s') (h' : Same t s' s'') : Same t s s'' where
  header pos hpos := (h.header pos hpos).trans (h'.header pos hpos)
  status ht pos hlo hhi := (h.status ht pos hlo hhi).trans (h'.status ht pos hlo hhi)
  footer ht := (h.footer ht).trans (h'.footer ht)
  screens ht := (h.screens ht).trans (h'.screens ht)
  currentTerminal ht := (h.currentTerminal ht).trans (h'.currentTerminal ht)
  contentX ht := (h.contentX ht).trans (h'.contentX ht)
  contentY ht := (h.contentY ht).trans (h'.contentY ht)

/-- What the kernel task has on the screen below the status bar. -/
theorem Same.picture (h : Same .kernel s s') (hpos : 160 ≤ pos) :
    s.picture pos = s'.picture pos := by
  have hheader : ¬ pos < headerSize := Nat.not_lt.2 (le_trans (by decide) hpos)
  have hstatus : ¬ pos < statusSize := Nat.not_lt.2 hpos
  rw [Shell.picture, Shell.picture, if_neg hheader, if_neg hheader, if_neg hstatus, if_neg hstatus,
    Shell.buffer, Shell.buffer, h.screens rfl, h.currentTerminal rfl, h.footer rfl]

@[simp] theorem setHeader_self (pos : ℕ) (cell : Shell → UInt16) (s : Shell) :
    (Shell.setHeader pos cell s).header pos = cell s := Function.update_self _ _ _

theorem setHeader_of_ne {p : ℕ} {cell : Shell → UInt16} (h : p ≠ pos) :
    (Shell.setHeader pos cell s).header p = s.header p := Function.update_of_ne h _ _

/-- A task stores to a cell of its own. -/
theorem keeps_setHeader {cell : Shell → UInt16} (hpos : headerOwner pos = t)
    (hcell : ∀ s s', Same t s s' → cell s = cell s') : Keeps Same t (Shell.setHeader pos cell) where
  congr s s' h := by
    refine ⟨fun p hp => ?_, h.status, h.footer, h.screens, h.currentTerminal, h.contentX,
      h.contentY⟩
    simp only [Shell.setHeader, Function.update_apply, hcell s s' h, h.header p hp]
  others u hu s := by
    refine { Same.refl u s with header := fun p hp => setHeader_of_ne ?_ }
    rintro rfl
    exact hu (hp.symm.trans hpos)

theorem keeps_setStatus (pos : ℕ) (cell : UInt16) :
    Keeps Same .statusbar (Shell.setStatus pos cell) where
  congr s s' h := by
    refine ⟨h.header, fun ht p hlo hhi => ?_, h.footer, h.screens, h.currentTerminal, h.contentX,
      h.contentY⟩
    simp only [Shell.setStatus, Function.update_apply, h.status ht p hlo hhi]
  others u hu s := { Same.refl u s with status := fun ht => absurd ht hu }

theorem keeps_select (n : ℕ) :
    Keeps Same .kernel fun s : Shell => { s with currentTerminal := n } where
  congr _ _ h := { h with currentTerminal := fun _ => rfl }
  others u hu s := { Same.refl u s with currentTerminal := fun ht => absurd ht hu }

/-- `RenderHeader` does not store to the columns of the other tasks. -/
theorem lt_of_mem_headerCells : ∀ x ∈ Shell.headerCells, x.1 < 64 := by decide +kernel

theorem headerOwner_of_lt (h : pos < 64) : headerOwner pos = .kernel := by
  rw [headerOwner, if_neg (by omega), if_neg (by omega), if_neg (by omega)]

theorem keeps_renderHeader : ∀ f ∈ Shell.renderHeader, Keeps Same .kernel f := by
  intro f hf
  obtain ⟨x, hx, rfl⟩ := List.mem_map.1 hf
  exact keeps_setHeader (headerOwner_of_lt (lt_of_mem_headerCells x hx))
    fun s s' h => congrArg x.2 (h.currentTerminal rfl)

/-- **Each task keeps to its own variables.** -/
theorem keeps_acts (j : Job) : ∀ f ∈ j.acts, Keeps Same j.owner f := by
  intro f hf
  cases j with
  | select n =>
    rcases List.mem_cons.1 hf with rfl | hf
    · exact keeps_select _
    · exact keeps_renderHeader f hf
  | work fs =>
    obtain ⟨g, -, rfl⟩ := List.mem_map.1 hf
    exact g.2.keeps
  | spin i =>
    rw [List.mem_singleton.1 hf]
    exact keeps_setHeader rfl fun _ _ _ => rfl
  | beat on =>
    rw [List.mem_singleton.1 hf]
    exact keeps_setHeader rfl fun _ _ _ => rfl
  | time ticks =>
    obtain ⟨i, hi, rfl⟩ := List.mem_map.1 hf
    have hlt := List.mem_range.1 hi
    refine keeps_setHeader ?_ fun _ _ _ => rfl
    rw [headerOwner, if_neg (by omega), if_neg (by omega), if_pos (by omega)]
    rfl
  | metrics data =>
    rcases List.mem_append.1 hf with hf | hf
    · obtain ⟨pos, -, rfl⟩ := List.mem_map.1 hf
      exact keeps_setStatus _ _
    · obtain ⟨x, -, rfl⟩ := List.mem_map.1 hf
      exact keeps_setStatus _ _

theorem keeps_code (j : Job) :
    ∀ f ∈ acts (system.code j), Keeps Same (system.owner j) f := by
  rw [acts_code]
  exact keeps_acts j

/-! ### What a job leaves behind -/

/-- A cell that several statements store to has what the last of them stored. -/
theorem header_stores (xs : List (ℕ × (ℕ → UInt16))) (s : Shell) (pos : ℕ) :
    (runActs (xs.map fun x => Shell.setHeader x.1 fun s => x.2 s.currentTerminal) s).header pos =
      ((xs.reverse.find? (·.1 = pos)).elim (s.header pos) fun x => x.2 s.currentTerminal) ∧
    (runActs (xs.map fun x => Shell.setHeader x.1 fun s => x.2 s.currentTerminal)
      s).currentTerminal = s.currentTerminal := by
  induction xs using List.reverseRecOn with
  | nil => exact ⟨rfl, rfl⟩
  | append_singleton xs x ih =>
    obtain ⟨hheader, hcurrent⟩ := ih
    rw [List.map_append, runActs_append, List.reverse_append, List.reverse_singleton,
      List.singleton_append]
    refine ⟨?_, hcurrent⟩
    have hlast : ∀ s, runActs ([x].map fun x => Shell.setHeader x.1 fun s => x.2 s.currentTerminal)
        s = Shell.setHeader x.1 (fun s => x.2 s.currentTerminal) s := fun _ => rfl
    by_cases hx : x.1 = pos
    · rw [List.find?_cons_of_pos (by simpa using hx)]
      rw [hlast, hx, setHeader_self]
      exact congrArg x.2 hcurrent
    · rw [List.find?_cons_of_neg (by simpa using hx), ← hheader]
      rw [hlast]
      exact setHeader_of_ne (Ne.symm hx)

/-- The last store of `RenderHeader` to a cell is that of the tab, if there is one. -/
theorem find?_headerCells : ∀ t ∈ [1, 2, 3, 4, 5], ∀ pos < 64,
    ((Shell.headerCells.reverse.find? (·.1 = pos)).map fun x => x.2 t) =
      some (headerCell t pos) := by
  decide +kernel

/-- **`RenderHeader` draws the tabs**, whatever stood there before. -/
theorem tabbed_renderHeader (h : s.currentTerminal ∈ [1, 2, 3, 4, 5]) :
    Tabbed (runActs Shell.renderHeader s) := by
  intro pos hpos
  obtain ⟨hheader, hcurrent⟩ := header_stores Shell.headerCells s pos
  have hcell := find?_headerCells _ h pos hpos
  obtain ⟨x, hx, hxt⟩ := Option.map_eq_some_iff.1 hcell
  rw [hx] at hheader
  rw [Shell.renderHeader, hheader, hcurrent]
  exact hxt

/-- The kernel task keeps the tabs as they should be. -/
theorem tabbed_jobs (h : Tabbed s) (hjs : ∀ j ∈ js, j.owner = .kernel) :
    Tabbed (runActs (js.flatMap Job.acts) s) ∧
      (runActs (js.flatMap Job.acts) s).currentTerminal = selected s.currentTerminal js := by
  induction js generalizing s with
  | nil => exact ⟨h, rfl⟩
  | cons j js ih =>
    have hrest := fun i hi => hjs i (List.mem_cons_of_mem _ hi)
    rw [List.flatMap_cons, runActs_append]
    cases j with
    | select n =>
      have hmem : ∀ n : Fin 5, (n : ℕ) + 1 ∈ [1, 2, 3, 4, 5] := by decide
      have hstart : runActs (Job.select n).acts s =
          runActs Shell.renderHeader { s with currentTerminal := n + 1 } := List.foldl_cons ..
      have hcurrent : (runActs Shell.renderHeader
          { s with currentTerminal := n + 1 }).currentTerminal = n + 1 :=
        (header_stores Shell.headerCells { s with currentTerminal := n + 1 } 0).2
      obtain ⟨htabbed, hselected⟩ := ih (tabbed_renderHeader
        (s := { s with currentTerminal := n + 1 }) (hmem n)) hrest
      rw [hcurrent] at hselected
      rw [hstart]
      exact ⟨htabbed, hselected⟩
    | work fs =>
      have hkept : ∀ fs : List {f : Shell → Shell // Draws f}, ∀ s : Shell,
          (runActs (fs.map Subtype.val) s).header = s.header ∧
            (runActs (fs.map Subtype.val) s).currentTerminal = s.currentTerminal := by
        intro fs
        induction fs with
        | nil => exact fun s => ⟨rfl, rfl⟩
        | cons f fs ihf =>
          intro s
          obtain ⟨hheader, hcurrent⟩ := ihf (f.1 s)
          exact ⟨hheader.trans (f.2.header s), hcurrent.trans (f.2.currentTerminal s)⟩
      obtain ⟨hheader, hcurrent⟩ := hkept fs s
      have hwork : Tabbed (runActs (Job.work fs).acts s) := by
        intro pos hpos
        rw [Job.acts, hheader, hcurrent]
        exact h pos hpos
      obtain ⟨htabbed, hselected⟩ := ih hwork hrest
      exact ⟨htabbed, hselected.trans (congrArg (selected · js) hcurrent)⟩
    | spin i => exact absurd (hjs _ List.mem_cons_self) Painter.noConfusion
    | beat on => exact absurd (hjs _ List.mem_cons_self) Painter.noConfusion
    | time ticks => exact absurd (hjs _ List.mem_cons_self) Painter.noConfusion
    | metrics data => exact absurd (hjs _ List.mem_cons_self) Painter.noConfusion

/-! ### The other tasks -/

theorem paintCell_ofNat : ∀ n < 128,
    DemoTasks.paintCell (.ofNat n) = setColor (.ofNat n) headerColor := by
  set_option maxRecDepth 4000 in decide +kernel

/-- A character below 128 has no sign. -/
theorem paintCell_of_lt {c : UInt8} (h : c.toNat < 128) :
    DemoTasks.paintCell c = setColor c headerColor := by
  have hcell := paintCell_ofNat c.toNat h
  rwa [UInt8.ofNat_toNat] at hcell

theorem frame_lt : ∀ k < 4, (DemoTasks.frames.getD k 0).toNat < 128 := by decide

theorem and_three (i : UInt32) : (i &&& 3).toNat = i.toNat % 4 := by
  rw [UInt32.toNat_and]
  exact Nat.and_two_pow_sub_one_eq_mod _ 2

/-- The cell of the spinner. -/
theorem frameCell_eq (i : UInt32) :
    DemoTasks.paintCell (DemoTasks.frames.getD (i &&& 3).toNat 0) =
      setColor (DemoTasks.frames.getD (i.toNat % 4) 0) headerColor := by
  rw [and_three]
  exact paintCell_of_lt (frame_lt _ (Nat.mod_lt _ (by decide)))

theorem clockText_eq (ticks : ℕ) :
    DemoTasks.clockText ticks = timeText (ticks / tickHz) ++ [0, 0] := by
  have hhours : ∀ h, h / 10 % 10 = h % 100 / 10 ∧ h % 10 = h % 100 % 10 := fun h => by omega
  have hminutes : ∀ m, m % 60 / 10 % 10 = m % 60 / 10 := fun m => by omega
  have hline : DemoTasks.clockText ticks =
      [.ofNat (48 + ticks / tickHz / 3600 / 10 % 10), .ofNat (48 + ticks / tickHz / 3600 % 10), 58,
        .ofNat (48 + ticks / tickHz / 60 % 60 / 10 % 10),
        .ofNat (48 + ticks / tickHz / 60 % 60 % 10), 58,
        .ofNat (48 + ticks / tickHz % 60 / 10 % 10),
        .ofNat (48 + ticks / tickHz % 60 % 10), 0, 0] := rfl
  rw [hline, (hhours _).1, (hhours _).2, hminutes, hminutes]
  rfl

theorem time_lt (sec : ℕ) : ∀ c ∈ timeText sec, c.toNat < 128 := by
  have hdigits : ∀ n < 100, ∀ c ∈ twoDigits n, c.toNat < 128 := by
    intro n hn c hc
    simp only [twoDigits, List.mem_cons, List.not_mem_nil, or_false] at hc
    rcases hc with rfl | rfl <;> simp only [UInt8.toNat_ofNat'] <;> omega
  intro c hc
  simp only [timeText, List.mem_append, List.mem_cons] at hc
  rcases hc with (hc | rfl | hc) | rfl | hc
  · exact hdigits _ (Nat.mod_lt _ (by decide)) c hc
  · decide
  · exact hdigits _ (lt_trans (Nat.mod_lt _ (by decide)) (by decide)) c hc
  · decide
  · exact hdigits _ (lt_trans (Nat.mod_lt _ (by decide)) (by decide)) c hc

/-- A cell of the clock. -/
theorem clockCell_eq (ticks : ℕ) {i : ℕ} (hi : i < 8) :
    DemoTasks.paintCell ((DemoTasks.clockText ticks).getD i 0) =
      setColor ((timeText (ticks / tickHz)).getD i 0) headerColor := by
  have hi' : i < (timeText (ticks / tickHz)).length := hi
  rw [clockText_eq, List.getD_append _ _ _ _ hi', List.getD_eq_getElem _ _ hi']
  exact paintCell_of_lt (time_lt _ _ (List.getElem_mem hi'))

/-- Where the header belongs to a task. -/
theorem place_of_headerOwner (pos : ℕ) : match headerOwner pos with
    | .spinner => pos = 66
    | .heartbeat => pos = 64
    | .clock => 70 ≤ pos ∧ pos < 70 + 8
    | .statusbar => False
    | .kernel => True := by
  unfold headerOwner
  split_ifs with hspinner hheart hclock
  · exact hspinner
  · exact hheart
  · exact hclock
  · trivial

/-- A row of cells of the header. -/
theorem header_row (g : ℕ → UInt16) (k n : ℕ) (s : Shell) (pos : ℕ) :
    (runActs ((List.range n).map fun i => Shell.setHeader (k + i) fun _ => g i) s).header pos =
      if k ≤ pos ∧ pos < k + n then g (pos - k) else s.header pos := by
  induction n with
  | zero => exact (if_neg (by omega)).symm
  | succ n ih =>
    rw [List.range_succ, List.map_append, runActs_append]
    change (Shell.setHeader (k + n) (fun _ => g n) _).header pos = _
    by_cases hpos : pos = k + n
    · rw [hpos, setHeader_self, if_pos (by omega), Nat.add_sub_cancel_left]
    · rw [setHeader_of_ne hpos, ih]
      exact if_congr (by omega) rfl rfl

theorem status_fill (cell : UInt16) (k n : ℕ) (s : Shell) :
    (runActs ((List.range' k n).map fun pos => Shell.setStatus pos cell) s).status =
      Drawing.put s.status k (List.replicate n cell) := by
  induction n generalizing k s with
  | zero => rfl
  | succ n ih => exact ih (k + 1) (Shell.setStatus k cell s)

theorem status_text (cs : List UInt8) (k i : ℕ) (s : Shell) :
    (runActs ((cs.zipIdx i).map fun x => Shell.setStatus (k + x.2) (setColor x.1 statusColor))
      s).status = Drawing.put s.status (k + i) (cs.map (setColor · statusColor)) := by
  induction cs generalizing i s with
  | nil => rfl
  | cons c cs ih => exact ih (i + 1) (Shell.setStatus (k + i) (setColor c statusColor) s)

/-- **`RenderStatus` draws the whole status bar**, whatever stood there before. -/
theorem status_renderStatus (data : List UInt8) (s : Shell) (hlo : 80 ≤ pos) (hhi : pos < 160) :
    (runActs (Shell.renderStatus data) s).status pos = statusCell data pos := by
  obtain ⟨cs, hcs⟩ : ∃ cs, cs = (cstr data).take 78 := ⟨_, rfl⟩
  have hstatus : (runActs (Shell.renderStatus data) s).status =
      Drawing.put (Drawing.put s.status 80 (List.replicate 80 (setColor 32 statusColor))) 81
        (cs.map (setColor · statusColor)) := by
    rw [Shell.renderStatus, runActs_append, hcs, ← status_fill]
    exact status_text _ 81 0 _
  have hfill : Drawing.put s.status 80 (List.replicate 80 (setColor 32 statusColor)) pos =
      setColor 32 statusColor := by
    obtain ⟨i, rfl⟩ := Nat.exists_eq_add_of_le hlo
    rw [Drawing.put_of_lt (by rw [List.length_replicate]; omega), List.getElem_replicate]
  rw [hstatus, statusCell, ← hcs]
  by_cases hpos : pos = 80
  · rw [Drawing.put_of_outside (.inl (by omega)), hfill, if_pos hpos]
  · obtain ⟨i, rfl⟩ := Nat.exists_eq_add_of_le (show 81 ≤ pos by omega)
    rw [if_neg hpos, Nat.add_sub_cancel_left]
    by_cases hi : i < cs.length
    · rw [Drawing.put_of_lt (by rwa [List.length_map]), List.getElem_map,
        List.getD_eq_getElem _ _ hi]
    · rw [Drawing.put_of_outside (.inr (by rw [List.length_map]; omega)), hfill,
        List.getD_eq_default _ _ (by omega)]

/-- **Every job of the other tasks draws all that its task shows.** -/
theorem overwrites (hj : j.owner ≠ .kernel) (s s' : Shell) :
    Same j.owner (runActs j.acts s) (runActs j.acts s') := by
  cases j with
  | select n => exact absurd rfl hj
  | work fs => exact absurd rfl hj
  | spin i =>
    refine ⟨fun pos hpos => ?_, nofun, nofun, nofun, nofun, nofun, nofun⟩
    have hplace := place_of_headerOwner pos
    rw [hpos] at hplace
    obtain rfl : pos = 66 := hplace
    rfl
  | beat on =>
    refine ⟨fun pos hpos => ?_, nofun, nofun, nofun, nofun, nofun, nofun⟩
    have hplace := place_of_headerOwner pos
    rw [hpos] at hplace
    obtain rfl : pos = 64 := hplace
    rfl
  | time ticks =>
    refine ⟨fun pos hpos => ?_, nofun, nofun, nofun, nofun, nofun, nofun⟩
    have hplace := place_of_headerOwner pos
    rw [hpos] at hplace
    have hrange : 70 ≤ pos ∧ pos < 70 + 8 := hplace
    rw [Job.acts, header_row, header_row, if_pos hrange, if_pos hrange]
  | metrics data =>
    refine ⟨fun pos hpos => ?_, fun _ pos hlo hhi => ?_, nofun, nofun, nofun, nofun, nofun⟩
    · have hplace := place_of_headerOwner pos
      rw [hpos] at hplace
      exact hplace.elim
    · exact (status_renderStatus data s hlo hhi).trans (status_renderStatus data s' hlo hhi).symm

end Painter

end Shiro
