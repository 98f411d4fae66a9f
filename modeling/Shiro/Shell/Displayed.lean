import Shiro.Shell.Painters

/-!
# What the screen shows

`UpdateScreen` copies the cells of all tasks, not only those of the task that calls it, and it may
be interrupted between the load of a cell and its store to the screen.  Such a cell can be left
with what its task had drawn before, until the next copy.

* `displayed` : **when the tasks sleep the screen shows what each of them has drawn last**, in every
  other cell.
* `never_torn` : **at no moment do the first two rows show anything else**, even in the middle of
  the jobs.
* `draws_writeLine` and others : what the statements of `Update` draw, which `Job.work` stands for.
-/

namespace Shiro

open Publish

namespace Painter

/-- What the screen shows of the jobs `ls`, begun in `d`, where it is not out of date. -/
structure Displays (d : Shell) (ls : List (Label Painter Job)) (shown : ℕ → UInt16)
    (fresh : ℕ → Prop) : Prop where
  tabs : ∀ pos < 64, fresh pos →
    shown pos = headerCell (selected d.currentTerminal (system.jobs .kernel ls)) pos
  heart : fresh 64 → shown 64 = match (system.jobs .heartbeat ls).getLast? with
    | some (.beat on) => setColor (if on then 3 else 32) headerColor
    | _ => d.header 64
  spinner : fresh 66 → shown 66 = match (system.jobs .spinner ls).getLast? with
    | some (.spin i) => setColor (DemoTasks.frames.getD (i.toNat % 4) 0) headerColor
    | _ => d.header 66
  clock : ∀ i < 8, fresh (70 + i) → shown (70 + i) = match (system.jobs .clock ls).getLast? with
    | some (.time ticks) => setColor ((timeText (ticks.toNat / tickHz)).getD i 0) headerColor
    | _ => d.header (70 + i)
  status : ∀ pos, 80 ≤ pos → pos < 160 → fresh pos →
    shown pos = match (system.jobs .statusbar ls).getLast? with
    | some (.metrics data) => statusCell data pos
    | _ => d.status pos
  kernel : ∀ pos, 160 ≤ pos → fresh pos →
    shown pos = (runActs (system.alone .kernel ls) d).picture pos

/-- What a cell of the first two rows may show: nothing, or what its own task draws there. -/
def Legal (pos : ℕ) (cell : UInt16) : Prop :=
  if 80 ≤ pos then ∃ c, cell = setColor c statusColor
  else cell = setColor 32 headerColor ∨ match headerOwner pos with
    | .spinner => ∃ k < 4, cell = setColor (DemoTasks.frames.getD k 0) headerColor
    | .heartbeat => cell = setColor 3 headerColor
    | .clock =>
      if pos = 72 ∨ pos = 75 then cell = setColor 58 headerColor
      else ∃ n < 10, cell = setColor (.ofNat (48 + n)) headerColor
    | _ => ∃ t ∈ [1, 2, 3, 4, 5], cell = headerCell t pos

/-- The first two rows hold what they may, and a terminal is selected. -/
structure Sound (s : Shell) : Prop where
  header : ∀ pos < 80, Legal pos (s.header pos)
  status : ∀ pos, 80 ≤ pos → pos < 160 → Legal pos (s.status pos)
  current : s.currentTerminal ∈ [1, 2, 3, 4, 5]

/-- The shell with the first two rows drawn. -/
def booted : Shell where
  header := headerCell 1
  status _ := setColor 32 statusColor
  footer _ := setColor 32 footerColor
  screens _ _ := blank
  screen _ := 0
  currentTerminal := 1
  contentX := 0
  contentY := 0

/-- All tasks sleep, and what `init.sh` has printed is not drawn yet. -/
def between (d : Shell) : State Shell ℕ UInt16 Painter where
  data := d
  shown pos := if 160 ≤ pos ∧ pos < 1920 then blank else d.picture pos
  tasks _ := ⟨[], 0⟩
  stale pos := decide (160 ≤ pos ∧ pos < 1920)

variable {t : Painter} {s s' : Shell} {f : Shell → Shell} {pos : ℕ} {j : Job}
  {ls : List (Label Painter Job)}

theorem init_between (d : Shell) : system.Init (between d) :=
  ⟨fun _ => rfl, fun _ hfresh => if_neg (of_decide_eq_false hfresh)⟩

theorem sound_booted : Sound booted := by
  have hblank : ∀ pos < 80, headerOwner pos = .kernel ∨
      headerCell 1 pos = setColor 32 headerColor := by decide +kernel
  refine ⟨fun pos hpos => ?_, fun pos hlo hhi => ?_, by decide⟩
  · rw [Legal, if_neg (Nat.not_le.2 hpos)]
    rcases hblank pos hpos with howner | hcell
    · rw [howner]
      exact .inr ⟨1, by decide, rfl⟩
    · exact .inl hcell
  · rw [Legal, if_pos hlo]
    exact ⟨32, rfl⟩

/-! ### When the tasks sleep -/

section Runs

variable {c c₀ : State Shell ℕ UInt16 Painter}

/-- What a task other than the kernel task has drawn is what its last job draws. -/
theorem last_job (h₀ : system.Init c₀) (hrun : system.lts.Run c₀ ls c)
    (hidle : (c.tasks t).code = []) (ht : t ≠ .kernel) :
    (system.jobs t ls).getLast? = none ∧ Same t c.data c₀.data ∨
      ∃ j, (system.jobs t ls).getLast? = some j ∧ j.owner = t ∧
        Same t c.data (runActs j.acts c₀.data) := by
  rcases List.eq_nil_or_concat' (system.jobs t ls) with hjobs | ⟨js, j, hjobs⟩
  · have hsame := isolated Same.refl (fun _ _ _ _ => Same.trans) keeps_code h₀ hrun hidle
    rw [System.alone, hjobs] at hsame
    exact .inl ⟨by rw [hjobs]; rfl, hsame⟩
  · have howner : j.owner = t := by
      have hmem : j ∈ system.jobs t ls := by
        rw [hjobs]
        exact List.mem_append_right _ (List.mem_singleton_self j)
      exact mem_jobs (S := system) hmem
    have hsame := isolated_last Same.refl (fun _ _ _ _ => Same.trans) keeps_code h₀ hrun hidle
      hjobs fun s s' => by
        rw [acts_code, ← howner]
        exact overwrites (howner ▸ ht) s s'
    rw [acts_code] at hsame
    exact .inr ⟨j, by rw [hjobs, List.getLast?_concat], howner, hsame⟩

/-- **When the tasks sleep, the screen shows what each of them has drawn last**, however they were
interleaved, except where the last copy was outdated. -/
theorem displayed (h₀ : system.Init c₀) (htabs : Tabbed c₀.data) (hrun : system.lts.Run c₀ ls c)
    (hidle : ∀ t, (c.tasks t).code = []) :
    Displays c₀.data ls c.shown fun pos => c.stale pos = false := by
  have hshown : ∀ pos, c.stale pos = false → c.shown pos = c.data.picture pos :=
    fun pos hstale => shown_of_idle published ⟨c₀, ls, h₀, hrun⟩ hidle hstale
  have hheader : ∀ pos < 80, c.stale pos = false → c.shown pos = c.data.header pos :=
    fun pos hpos hstale => (hshown pos hstale).trans (picture_header hpos)
  have hkernel : Same .kernel c.data (runActs (system.alone .kernel ls) c₀.data) :=
    isolated Same.refl (fun _ _ _ _ => Same.trans) keeps_code h₀ hrun (hidle _)
  have hothers := fun t => last_job h₀ hrun (hidle t)
  refine ⟨fun pos hpos hstale => ?_, fun hstale => ?_, fun hstale => ?_, fun i hi hstale => ?_,
    fun pos hlo hhi hstale => ?_, fun pos hpos hstale => ?_⟩
  · -- the tabs
    have halone : system.alone .kernel ls = (system.jobs .kernel ls).flatMap Job.acts :=
      List.flatMap_congr fun j _ => acts_code j
    rw [hheader pos (by omega) hstale, hkernel.header pos (headerOwner_of_lt hpos), halone]
    obtain ⟨htabbed, hselected⟩ := tabbed_jobs htabs fun j hj => mem_jobs (S := system) hj
    rw [htabbed pos hpos, hselected]
  · -- the heart
    rw [hheader 64 (by decide) hstale]
    rcases hothers .heartbeat (by decide) with ⟨hlast, hsame⟩ | ⟨j, hlast, howner, hsame⟩
    · rw [hlast]
      exact hsame.header 64 rfl
    · rw [hlast, hsame.header 64 rfl]
      cases j with
      | beat on =>
        refine paintCell_of_lt ?_
        cases on <;> decide
      | _ => cases howner
  · -- the spinner
    rw [hheader 66 (by decide) hstale]
    rcases hothers .spinner (by decide) with ⟨hlast, hsame⟩ | ⟨j, hlast, howner, hsame⟩
    · rw [hlast]
      exact hsame.header 66 rfl
    · rw [hlast, hsame.header 66 rfl]
      cases j with
      | spin i => exact frameCell_eq i
      | _ => cases howner
  · -- the clock
    have hplace : headerOwner (70 + i) = .clock := by
      rw [headerOwner, if_neg (by omega), if_neg (by omega), if_pos (by omega)]
    rw [hheader _ (by omega) hstale]
    rcases hothers .clock (by decide) with ⟨hlast, hsame⟩ | ⟨j, hlast, howner, hsame⟩
    · rw [hlast]
      exact hsame.header _ hplace
    · rw [hlast, hsame.header _ hplace]
      cases j with
      | time ticks =>
        show (runActs (Job.time ticks).acts _).header _ = _
        rw [Job.acts, header_row, if_pos (by omega), Nat.add_sub_cancel_left]
        exact clockCell_eq _ hi
      | _ => cases howner
  · -- the status bar
    rw [hshown pos hstale, picture_status hlo hhi]
    rcases hothers .statusbar (by decide) with ⟨hlast, hsame⟩ | ⟨j, hlast, howner, hsame⟩
    · rw [hlast]
      exact hsame.status rfl pos hlo hhi
    · rw [hlast, hsame.status rfl pos hlo hhi]
      cases j with
      | metrics data => exact status_renderStatus data _ hlo hhi
      | _ => cases howner
  · -- the rest
    rw [hshown pos hstale]
    exact hkernel.picture hpos

/-- A key selects terminal 2 while the spinner moves on. -/
theorem displayed_interleaved : ∃ (c₀ c : State Shell ℕ UInt16 Painter)
    (ls : List (Label Painter Job)), system.jobs .kernel ls = [.select 1] ∧
      system.jobs .spinner ls = [.spin 5] ∧
      Displays c₀.data ls c.shown fun pos => c.stale pos = false := by
  let c₀ := between booted
  let c₁ := c₀.setTask .kernel ⟨system.code (.select 1), 0⟩
  let c₂ := c₁.setTask .spinner ⟨system.code (.spin 5), 0⟩
  have hrun : system.lts.Run c₀ ([.start (.select 1)] ++ [.start (.spin 5)]) c₂ :=
    (show system.lts.Run c₀ [.start (.select 1)] c₁ from .snoc .nil rfl).snoc rfl
  obtain ⟨c₃, hrun₃, hspinner, hkept₃⟩ := exists_finished (S := system) c₂ .spinner
  obtain ⟨c₄, hrun₄, hkernel, hkept₄⟩ := exists_finished (S := system) c₃ .kernel
  refine ⟨c₀, c₄, _, ?_, ?_, displayed (init_between booted) (fun _ _ => rfl)
    ((hrun.append hrun₃).append hrun₄) fun t => ?_⟩
  · simp [System.jobs, system, Job.owner]
  · simp [System.jobs, system, Job.owner]
  · by_cases hk : t = .kernel
    · rw [hk, hkernel]
    · rw [hkept₄ t hk]
      by_cases hs : t = .spinner
      · rw [hs, hspinner]
      · rw [hkept₃ t hs, setTask_of_ne _ _ hs, setTask_of_ne _ _ hk]
        exact (init_between booted).idle t

end Runs

/-! ### What the first two rows never show -/

theorem Sound.setHeader {cell : Shell → UInt16} (h : Sound s) (hcell : Legal pos (cell s)) :
    Sound (Shell.setHeader pos cell s) := by
  refine { h with header := fun p hp => ?_ }
  by_cases hpos : p = pos
  · rw [hpos, setHeader_self]
    exact hcell
  · rw [setHeader_of_ne hpos]
    exact h.header p hp

theorem Sound.setStatus (h : Sound s) (pos : ℕ) (c : UInt8) :
    Sound (Shell.setStatus pos (setColor c statusColor) s) := by
  refine { h with status := fun p hlo hhi => ?_ }
  show Legal p (Function.update s.status pos _ p)
  by_cases hpos : p = pos
  · rw [hpos, Function.update_self, Legal, if_pos (hpos ▸ hlo)]
    exact ⟨c, rfl⟩
  · rw [Function.update_of_ne hpos]
    exact h.status p hlo hhi

/-- `RenderHeader` stores a blank to a cell, or what should stand there. -/
theorem headerCells_eq : ∀ t ∈ [1, 2, 3, 4, 5], ∀ x ∈ Shell.headerCells,
    x.2 t = setColor 32 headerColor ∨ x.2 t = headerCell t x.1 := by
  decide +kernel

theorem digit_or_colon (sec : ℕ) {i : ℕ} (hi : i < 8) :
    if i = 2 ∨ i = 5 then (timeText sec).getD i 0 = 58
    else ∃ n < 10, (timeText sec).getD i 0 = .ofNat (48 + n) := by
  have hhours : sec / 3600 % 100 / 10 < 10 := by omega
  have hminutes : sec / 60 % 60 / 10 < 10 := by omega
  have hseconds : sec % 60 / 10 < 10 := by omega
  match i with
  | 0 => exact ⟨_, hhours, rfl⟩
  | 1 => exact ⟨_, Nat.mod_lt _ (by decide), rfl⟩
  | 2 => rfl
  | 3 => exact ⟨_, hminutes, rfl⟩
  | 4 => exact ⟨_, Nat.mod_lt _ (by decide), rfl⟩
  | 5 => rfl
  | 6 => exact ⟨_, hseconds, rfl⟩
  | 7 => exact ⟨_, Nat.mod_lt _ (by decide), rfl⟩

/-- **Every statement of every task keeps the first two rows as they may be.** -/
theorem sound_acts (j : Job) : ∀ f ∈ j.acts, ∀ s, Sound s → Sound (f s) := by
  intro f hf s h
  cases j with
  | select n =>
    have hmem : ∀ n : Fin 5, (n : ℕ) + 1 ∈ [1, 2, 3, 4, 5] := by decide
    rcases List.mem_cons.1 hf with rfl | hf
    · exact { h with current := hmem n }
    · obtain ⟨x, hx, rfl⟩ := List.mem_map.1 hf
      refine h.setHeader ?_
      have hlt := lt_of_mem_headerCells x hx
      rw [Legal, if_neg (by omega), headerOwner_of_lt hlt]
      exact (headerCells_eq _ h.current x hx).imp id fun hcell => ⟨_, h.current, hcell⟩
  | work fs =>
    obtain ⟨g, -, rfl⟩ := List.mem_map.1 hf
    refine ⟨fun pos hpos => ?_, fun pos hlo hhi => ?_, ?_⟩
    · rw [g.2.header]
      exact h.header pos hpos
    · rw [(g.2.keeps.others .statusbar (by decide) s).status rfl pos hlo hhi]
      exact h.status pos hlo hhi
    · rw [g.2.currentTerminal]
      exact h.current
  | spin i =>
    rw [List.mem_singleton.1 hf]
    exact h.setHeader (.inr ⟨_, Nat.mod_lt i.toNat (by decide), frameCell_eq i⟩)
  | beat on =>
    rw [List.mem_singleton.1 hf]
    refine h.setHeader ?_
    cases on with
    | true => exact .inr (paintCell_ofNat 3 (by decide))
    | false => exact .inl (paintCell_ofNat 32 (by decide))
  | time ticks =>
    obtain ⟨i, hi, rfl⟩ := List.mem_map.1 hf
    have hlt := List.mem_range.1 hi
    refine h.setHeader ?_
    have howner : headerOwner (70 + i) = .clock := by
      rw [headerOwner, if_neg (by omega), if_neg (by omega), if_pos (by omega)]
    have hplace : (70 + i = 72 ∨ 70 + i = 75) ↔ (i = 2 ∨ i = 5) := by omega
    have hcell := digit_or_colon (ticks.toNat / tickHz) hlt
    rw [Legal, if_neg (by omega), howner, clockCell_eq _ hlt]
    refine .inr ?_
    simp only [hplace]
    split at hcell
    · rw [if_pos ‹_›, hcell]
    · rw [if_neg ‹_›]
      obtain ⟨n, hn, hdigit⟩ := hcell
      exact ⟨n, hn, by rw [hdigit]⟩
  | metrics data =>
    rcases List.mem_append.1 hf with hf | hf
    · obtain ⟨pos, -, rfl⟩ := List.mem_map.1 hf
      exact h.setStatus _ _
    · obtain ⟨x, -, rfl⟩ := List.mem_map.1 hf
      exact h.setStatus _ _

theorem Sound.picture (h : Sound s) (hpos : pos < 160) : Legal pos (s.picture pos) := by
  by_cases hheader : pos < 80
  · rw [picture_header hheader]
    exact h.header pos hheader
  · have hlo := Nat.le_of_not_lt hheader
    rw [picture_status hlo hpos]
    exact h.status pos hlo hpos

/-- **At no moment does a cell of the first two rows show anything but what its own task draws
there**, not even in the middle of the jobs. -/
theorem never_torn {c₀ c : State Shell ℕ UInt16 Painter} (h₀ : system.Init c₀)
    (hsound : Sound c₀.data) (hlegal : ∀ pos < 160, Legal pos (c₀.shown pos))
    (hrun : system.lts.Run c₀ ls c) (hpos : pos < 160) : Legal pos (c.shown pos) := by
  refine shown_of_picture (S := system) (I := Sound)
    (Q := fun pos cell => pos < 160 → Legal pos cell) (fun j => copying_append_copy _ _)
    (fun j => ?_) (fun s hs p hp => hs.picture hp) h₀ hsound hlegal hrun pos hpos
  rw [acts_code]
  exact sound_acts j

/-- The spinner has been stored to its cell, and `UpdateScreen` is under way. -/
theorem never_torn_spinner : ∃ c : State Shell ℕ UInt16 Painter,
    system.lts.Run (between booted) [.start (.spin 5), .next .spinner] c ∧
    (c.tasks .spinner).code ≠ [] ∧ ∀ pos < 160, Legal pos (c.shown pos) := by
  have hrun : system.lts.Run (between booted)
      ([.start (.spin 5)] ++ [.next .spinner]) _ := .snoc (.snoc .nil rfl) rfl
  have hlegal : ∀ pos < 160, Legal pos ((between booted).shown pos) := fun pos hpos => by
    rw [show (between booted).shown pos = booted.picture pos from if_neg (by omega)]
    exact sound_booted.picture hpos
  exact ⟨_, hrun, List.cons_ne_nil _ _,
    fun pos hpos => never_torn (init_between booted) sound_booted hlegal hrun hpos⟩

/-! ### What `Update` draws -/

theorem draws_of_congr (hcongr : ∀ s s', Same .kernel s s' → Same .kernel (f s) (f s'))
    (hheader : ∀ s, (f s).header = s.header) (hstatus : ∀ s, (f s).status = s.status)
    (hcurrent : ∀ s, (f s).currentTerminal = s.currentTerminal) : Draws f where
  keeps := ⟨hcongr, fun _ hu s => ⟨fun _ _ => congrFun (hheader s) _,
    fun _ _ _ _ => congrFun (hstatus s) _, fun h => absurd h hu, fun h => absurd h hu,
    fun h => absurd h hu, fun h => absurd h hu, fun h => absurd h hu⟩⟩
  header := hheader
  currentTerminal := hcurrent

theorem Same.buffer (h : Same .kernel s s') : s.buffer = s'.buffer := by
  rw [Shell.buffer, Shell.buffer, h.screens rfl, h.currentTerminal rfl]

/-- The cells of the current terminal change, and the column. -/
theorem Same.setBuffer (h : Same .kernel s s') {b b' : ℕ → UInt16} (hb : b = b') (x : ℕ) :
    Same .kernel { s.setBuffer b with contentX := x } { s'.setBuffer b' with contentX := x } := by
  refine ⟨h.header, h.status, h.footer, fun _ => ?_, h.currentTerminal, fun _ => rfl, h.contentY⟩
  show Function.update s.screens _ b = Function.update s'.screens _ b'
  rw [h.screens rfl, h.currentTerminal rfl, hb]

theorem Same.scroll (h : Same .kernel s s') : Same .kernel s.scroll s'.scroll :=
  h.setBuffer (by rw [h.buffer]) 0

theorem Same.writeChars (color : UInt8) (lastLine limit : ℕ) (cs : List UInt8) (g : ℕ)
    (h : Same .kernel s s') :
    Same .kernel (cs.foldl (Shell.writeChar color lastLine limit) (g, s)).2
      (cs.foldl (Shell.writeChar color lastLine limit) (g, s')).2 := by
  induction cs generalizing g s s' with
  | nil => exact h
  | cons c cs ih =>
    rw [List.foldl_cons, List.foldl_cons]
    by_cases hc : c = 10
    · rw [Shell.writeChar, Shell.writeChar, if_pos hc, if_pos hc]
      exact ih _ h.scroll
    · obtain ⟨x, hx, heq⟩ := Shell.writeChar_of_ne hc color lastLine limit (g, s)
      obtain ⟨x', hx', heq'⟩ := Shell.writeChar_of_ne hc color lastLine limit (g, s')
      obtain rfl : x = x' := by rw [hx, hx', h.contentX rfl]
      rw [heq, heq']
      exact ih _ (h.setBuffer (by rw [h.buffer]) _)

/-- A line, up to the end of its `Scroll`. -/
theorem draws_writeLine (data : List UInt8) (color : UInt8) :
    Draws fun s => s.writeLine data color false :=
  draws_of_congr (fun _ _ h => (Same.writeChars _ _ _ _ _ h).scroll)
    (fun s => (Shell.frame_writeLine s data color false).beside.header)
    (fun s => (Shell.frame_writeLine s data color false).beside.status)
    fun s => (Shell.frame_writeLine s data color false).current

/-- One cell of the content area. -/
theorem draws_cell (pos : ℕ) (cell : (ℕ → UInt16) → UInt16) :
    Draws fun s => s.setBuffer (Function.update s.buffer pos (cell s.buffer)) :=
  draws_of_congr (fun s s' h => by
    have hbuffer : Function.update s.buffer pos (cell s.buffer) =
        Function.update s'.buffer pos (cell s'.buffer) := by rw [h.buffer]
    have hcell := h.setBuffer hbuffer s.contentX
    exact ⟨hcell.header, hcell.status, hcell.footer, hcell.screens, hcell.currentTerminal,
      h.contentX, h.contentY⟩)
    (fun _ => rfl) (fun _ => rfl) fun _ => rfl

/-- `ClearTerminal`. -/
theorem draws_clearTerminal (id : ℕ) : Draws fun s => s.clearTerminal id :=
  draws_of_congr (fun s s' h => by
    refine ⟨h.header, h.status, h.footer, fun _ => ?_, h.currentTerminal, fun _ => rfl,
      fun _ => rfl⟩
    show Function.update s.screens id _ = Function.update s'.screens id _
    rw [h.screens rfl])
    (fun _ => rfl) (fun _ => rfl) fun _ => rfl

/-- `StartTerminalFooter` and `WriteF`, as far as they change the footer. -/
theorem draws_footer (g : (ℕ → UInt16) → ℕ → UInt16) :
    Draws fun s => { s with footer := g s.footer } :=
  draws_of_congr (fun _ _ h => { h with footer := fun _ => congrArg g (h.footer rfl) })
    (fun _ => rfl) (fun _ => rfl) fun _ => rfl

end Painter

end Shiro
