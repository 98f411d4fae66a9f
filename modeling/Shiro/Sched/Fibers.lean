import Shiro.Lib.Lts
import Shiro.Sched.Frames

/-!
# Stacks and context switches

A task that does not run is a stack pointer in the task table and what lies on its stack: the five
words that `switch_task` pops, above them the frames of the interrupts that the task was in the
middle of, and the task's own data.  The running task may do what it likes in its own stack, but for
those frames, and anywhere outside of the stacks and the table.

The tasks may be any number.  The states record, beside the CPU and its memory, with which registers
a task was suspended or interrupted.

* `Stacks`, `Fibers`, `Fibers.Step` : the tasks and their steps.
* `Kept` : the invariant: what lies on the stack of every task.
* `resumes` : **every task goes on as it was suspended.**
-/

namespace Shiro

open Ia32 Isr

variable {ι : Type*}

/-- The stacks of the tasks, and where the table keeps their stack pointers. -/
structure Stacks (ι : Type*) where
  lo : ι → ℕ
  /-- `stack_top`. -/
  hi : ι → ℕ
  /-- `&tasks[i].esp`. -/
  cell : ι → UInt32
  room : ∀ i, lo i + 20 ≤ hi i
  hi_lt : ∀ i, hi i < 2 ^ 32
  apart : ∀ i j, i ≠ j → hi i ≤ lo j ∨ hi j ≤ lo i
  cell_fits : ∀ i, (cell i).toNat + 4 ≤ 2 ^ 32
  cell_stack : ∀ i j, (cell i).toNat + 4 ≤ lo j ∨ hi j ≤ (cell i).toNat
  cells : ∀ i j, i ≠ j →
    (cell i).toNat + 4 ≤ (cell j).toNat ∨ (cell j).toNat + 4 ≤ (cell i).toNat

/-- How a task that does not run got there. -/
inductive Parked where
  /-- There is no such task yet. -/
  | absent
  /-- `Spawn` has prepared its stack. -/
  | fresh (entry : UInt32)
  /-- It has called `switch_task` in the state `c`, and the instruction behind the call is at
  `back`. -/
  | called (c : Cpu) (back : UInt32)

/-- What a task that does not run should go on with, if its stack ends at `top`. -/
def Parked.resume (top : ℕ) : Parked → Option Resume
  | .absent => none
  | .fresh entry => some ⟨0, 0, 0, 0, entry, .ofNat top⟩
  | .called c back =>
    some ⟨c.regs .edi, c.regs .esi, c.regs .ebx, c.regs .ebp, back, c.regs .esp⟩

/-- The CPU and the tasks. -/
structure Fibers (ι : Type*) where
  cpu : Cpu
  running : ι
  parked : ι → Parked
  /-- The contexts in which a task has been interrupted and to which it has not returned, the
  innermost first. -/
  frames : ι → List Cpu

/-- What happens. -/
inductive Act (ι : Type*) where
  /-- Compiled code of the running task leads to the state `c`. -/
  | code (c : Cpu)
  /-- The interrupt `v`, up to the handler. -/
  | interrupt (v : UInt32)
  /-- The handler returns, and so does the stub. -/
  | handlerReturn
  /-- `Yield` calls `switch_task(&tasks[current].esp, tasks[j].esp)`. -/
  | switchTo (j : ι) (back : UInt32)
  /-- `Spawn` prepares the stack of a new task. -/
  | spawn (j : ι) (entry : UInt32)

/-- The lowest address that belongs to a pending frame or to the end of the stack. -/
def floor (hi : ℕ) : List Cpu → ℕ
  | [] => hi
  | f :: _ => (f.regs .esp).toNat - 60

/-- Between `m` and `m'` only the stack of `i` has changed, and memory outside of the stacks and of
the stack pointers in the table. -/
structure Own (T : Stacks ι) (i : ι) (m m' : Mem) : Prop where
  others : ∀ j, j ≠ i → EqOn m m' (T.lo j) (T.hi j)
  cells : ∀ j, EqOn m m' (T.cell j).toNat ((T.cell j).toNat + 4)

/-- What compiled code may do: it writes its own stack only, leaves the frames of the interrupts it
handles alone, and keeps its stack pointer below them. -/
structure OwnCode (T : Stacks ι) (s : Fibers ι) (c : Cpu) : Prop where
  own : Own T s.running s.cpu.mem c.mem
  frames : ∀ f ∈ s.frames s.running,
    EqOn s.cpu.mem c.mem ((f.regs .esp).toNat - 60) (f.regs .esp).toNat
  lo : T.lo s.running ≤ (c.regs .esp).toNat
  le : (c.regs .esp).toNat ≤ floor (T.hi s.running) (s.frames s.running)

/-- The memory when `Spawn` has prepared the stack of task `j`. -/
def Fibers.spawned (s : Fibers ι) (T : Stacks ι) (j : ι) (entry : UInt32) : Mem :=
  store (prepareStack s.cpu.mem (.ofNat (T.hi j)) entry).1 (T.cell j)
    (prepareStack s.cpu.mem (.ofNat (T.hi j)) entry).2

variable [DecidableEq ι]

/-- The steps.  `switch_task` is at address `sw`. -/
inductive Fibers.Step (T : Stacks ι) (im : Image) (sw : UInt32) :
    Fibers ι → Act ι → Fibers ι → Prop
  | code {s : Fibers ι} {c : Cpu} : OwnCode T s c → Step T im sw s (.code c) { s with cpu := c }
  | interrupt {s : Fibers ι} {v : UInt32} :
      T.lo s.running + 60 ≤ (s.cpu.regs .esp).toNat →
      Step T im sw s (.interrupt v) { s with
        cpu := enter im v none s.cpu
        frames := Function.update s.frames s.running (s.cpu :: s.frames s.running) }
  | handlerReturn {s : Fibers ι} {f : Cpu} {fs : List Cpu} :
      s.frames s.running = f :: fs → s.cpu.regs .esp = f.regs .esp - 60 →
      Step T im sw s .handlerReturn { s with
        cpu := run s.cpu (.ret :: commonExit)
        frames := Function.update s.frames s.running fs }
  | switchTo {s : Fibers ι} {j : ι} {back : UInt32} :
      j ≠ s.running → s.parked j ≠ .absent →
      T.lo s.running + 20 ≤ (s.cpu.regs .esp).toNat →
      (s.cpu.regs .esp).toNat + 8 ≤ floor (T.hi s.running) (s.frames s.running) →
      s.cpu.Top [T.cell s.running, load s.cpu.mem (T.cell j)] →
      Step T im sw s (.switchTo j back) { s with
        cpu := run s.cpu (switchTask sw back)
        running := j
        parked := Function.update s.parked s.running (.called s.cpu back) }
  | spawn {s : Fibers ι} {j : ι} {entry : UInt32} :
      j ≠ s.running → s.parked j = .absent →
      Step T im sw s (.spawn j entry) { s with
        cpu := { s.cpu with mem := s.spawned T j entry }
        parked := Function.update s.parked j (.fresh entry) }

/-- The runs from a state in which one task runs and there is no other. -/
def fiberLts (T : Stacks ι) (im : Image) (sw : UInt32) : Lts (Fibers ι) (Act ι) where
  init s := (∀ i, s.parked i = .absent) ∧ (∀ i, s.frames i = []) ∧
    T.lo s.running ≤ (s.cpu.regs .esp).toNat ∧ (s.cpu.regs .esp).toNat ≤ T.hi s.running
  step := Fibers.Step T im sw

/-- The task that gets the CPU, or goes on behind an interrupt, finds what it should. -/
structure Resumes (T : Stacks ι) (s : Fibers ι) (a : Act ι) (s' : Fibers ι) : Prop where
  /-- Behind a call of `switch_task`. -/
  called : ∀ j back c ret, a = .switchTo j back → s.parked j = .called c ret →
    s'.cpu.eip = ret ∧ s'.cpu.regs .ebp = c.regs .ebp ∧ s'.cpu.regs .ebx = c.regs .ebx ∧
      s'.cpu.regs .esi = c.regs .esi ∧ s'.cpu.regs .edi = c.regs .edi ∧
      s'.cpu.regs .esp = c.regs .esp ∧
      EqOn c.mem s'.cpu.mem (c.regs .esp).toNat (T.hi j)
  /-- At the entry of a new task. -/
  fresh : ∀ j back entry, a = .switchTo j back → s.parked j = .fresh entry →
    s'.cpu.eip = entry ∧ s'.cpu.regs .ebp = 0 ∧ s'.cpu.regs .ebx = 0 ∧ s'.cpu.regs .esi = 0 ∧
      s'.cpu.regs .edi = 0 ∧ (s'.cpu.regs .esp).toNat = T.hi j
  /-- Behind an interrupt. -/
  interrupted : ∀ f fs, a = .handlerReturn → s.frames s.running = f :: fs →
    s'.cpu.regs = f.regs ∧ s'.cpu.eip = f.eip ∧ s'.cpu.eflags = f.eflags ∧
      s'.cpu.segs .cs = f.segs .cs ∧ s'.cpu.segs .ds = f.segs .ds

/-! ### Pending frames -/

variable {T : Stacks ι} {im : Image} {sw : UInt32} {s s' : Fibers ι} {a : Act ι} {i j k : ι}
  {m m' : Mem} {c f : Cpu} {fs : List Cpu} {hi : ℕ} {x : Resume}

/-- The frames of the interrupts `fs` lie on a stack that ends at `hi`, one above the other. -/
def Stacked (im : Image) (m : Mem) (hi : ℕ) : List Cpu → Prop
  | [] => True
  | f :: fs => 60 ≤ (f.regs .esp).toNat ∧ (f.regs .esp).toNat ≤ floor hi fs ∧
      (∃ v, Words m (f.regs .esp - 60) (frameWords im v f)) ∧ Stacked im m hi fs

theorem toNat_sub {a n : UInt32} (h : n.toNat ≤ a.toNat) : (a - n).toNat = a.toNat - n.toNat :=
  UInt32.toNat_sub_of_le _ _ (UInt32.le_iff_toNat_le.2 h)

theorem Stacked.floor_le (h : Stacked im m hi fs) : floor hi fs ≤ hi := by
  induction fs with
  | nil => exact le_rfl
  | cons f fs ih =>
    obtain ⟨-, hle, -, h⟩ := h
    have := ih h
    rw [floor]
    omega

/-- A pending frame lies between the floor and the end of the stack. -/
theorem Stacked.bounds (h : Stacked im m hi fs) (hf : f ∈ fs) :
    60 ≤ (f.regs .esp).toNat ∧ floor hi fs + 60 ≤ (f.regs .esp).toNat ∧
      (f.regs .esp).toNat ≤ hi := by
  induction fs with
  | nil => cases hf
  | cons g fs ih =>
    obtain ⟨hroom, hle, -, h⟩ := h
    have hfloor := h.floor_le
    rw [floor]
    rcases List.mem_cons.1 hf with rfl | hf
    · omega
    · have := ih h hf
      omega

/-- Frames depend on their own bytes. -/
theorem Stacked.congr (h : Stacked im m hi fs)
    (heq : ∀ f ∈ fs, EqOn m m' ((f.regs .esp).toNat - 60) (f.regs .esp).toNat) :
    Stacked im m' hi fs := by
  induction fs with
  | nil => trivial
  | cons f fs ih =>
    obtain ⟨hroom, hle, ⟨v, hwords⟩, h⟩ := h
    have hlt := (f.regs .esp).toNat_lt
    have hsub : (f.regs .esp - 60).toNat = (f.regs .esp).toNat - 60 := toNat_sub hroom
    have hlen : (frameWords im v f).length = 15 := rfl
    refine ⟨hroom, hle, ⟨v, hwords.congr ?_ ?_⟩, ih h fun g hg => heq g (List.mem_cons_of_mem _ hg)⟩
    · rw [hsub, hlen]
      omega
    · rw [hsub, hlen]
      exact (heq f List.mem_cons_self).mono le_rfl (by omega)

/-- Frames above `e` survive a change below. -/
theorem Stacked.congr_above (h : Stacked im m hi fs) {e : ℕ} (he : e ≤ floor hi fs)
    (heq : EqOn m m' e hi) : Stacked im m' hi fs :=
  h.congr fun f hf => by
    obtain ⟨-, h1, h2⟩ := h.bounds hf
    exact heq.mono (by omega) h2

/-! ### The invariant -/

/-- A task that does not run: its stack pointer in the table, and what `switch_task` will pop. -/
structure Waiting (T : Stacks ι) (im : Image) (m : Mem) (j : ι) (x : Resume) (fs : List Cpu) :
    Prop where
  room : T.lo j + 20 ≤ x.esp.toNat
  le : x.esp.toNat ≤ floor (T.hi j) fs
  cell : load m (T.cell j) = x.esp - 20
  words : Words m (x.esp - 20) x.words
  stacked : Stacked im m (T.hi j) fs

/-- What lies on the stack of every task. -/
structure Kept (T : Stacks ι) (im : Image) (s : Fibers ι) : Prop where
  lo : T.lo s.running ≤ (s.cpu.regs .esp).toNat
  le : (s.cpu.regs .esp).toNat ≤ floor (T.hi s.running) (s.frames s.running)
  stacked : Stacked im s.cpu.mem (T.hi s.running) (s.frames s.running)
  absent : ∀ j, j ≠ s.running → s.parked j = .absent → s.frames j = []
  waiting : ∀ j, j ≠ s.running → ∀ x, (s.parked j).resume (T.hi j) = some x →
    Waiting T im s.cpu.mem j x (s.frames j)
  contents : ∀ j, j ≠ s.running → ∀ c back, s.parked j = .called c back →
    EqOn c.mem s.cpu.mem (c.regs .esp).toNat (T.hi j)

/-- The stack and the stack pointer of task `j` are the same in both memories. -/
def Untouched (T : Stacks ι) (j : ι) (m m' : Mem) : Prop :=
  EqOn m m' (T.lo j) (T.hi j) ∧ EqOn m m' (T.cell j).toNat ((T.cell j).toNat + 4)

omit [DecidableEq ι] in
theorem Own.untouched (h : Own T i m m') (hj : j ≠ i) : Untouched T j m m' :=
  ⟨h.others j hj, h.cells j⟩

omit [DecidableEq ι] in
/-- A stack that grows touches no other. -/
theorem own_of_grows {c c' : Cpu} {n : ℕ} (h : Grows c c' n)
    (hlo : T.lo i ≤ (c'.regs .esp).toNat) (hhi : (c.regs .esp).toNat ≤ T.hi i) :
    Own T i c.mem c'.mem := by
  refine ⟨fun j hj => h.mem _ _ ?_, fun j => h.mem _ _ ?_⟩
  · have := T.apart j i hj
    omega
  · have := T.cell_stack j i
    omega

omit [DecidableEq ι] in
/-- A suspended task does not notice what happens elsewhere. -/
theorem Waiting.congr (h : Waiting T im m j x fs) (heq : Untouched T j m m') :
    Waiting T im m' j x fs := by
  obtain ⟨hstack, hcell⟩ := heq
  have hfloor := h.stacked.floor_le
  have hhi := T.hi_lt j
  have hroom := h.room
  have hle := h.le
  have hsub : (x.esp - 20).toNat = x.esp.toNat - 20 := toNat_sub (show 20 ≤ _ by omega)
  have hlen : x.words.length = 5 := rfl
  refine ⟨hroom, hle, ?_, h.words.congr ?_ ?_, h.stacked.congr_above le_rfl ?_⟩
  · rw [load, hcell.read32 le_rfl le_rfl (T.cell_fits j)]
    exact h.cell
  · rw [hsub, hlen]
    omega
  · rw [hsub, hlen]
    exact hstack.mono (by omega) (by omega)
  · exact hstack.mono (by omega) le_rfl

omit [DecidableEq ι] in
/-- What happens elsewhere leaves a task as it is. -/
theorem Kept.elsewhere (h : Kept T im s) (hj : j ≠ s.running) (heq : Untouched T j s.cpu.mem m') :
    (∀ x, (s.parked j).resume (T.hi j) = some x → Waiting T im m' j x (s.frames j)) ∧
      ∀ c back, s.parked j = .called c back → EqOn c.mem m' (c.regs .esp).toNat (T.hi j) := by
  refine ⟨fun x hx => (h.waiting j hj x hx).congr heq, fun c back hc => ?_⟩
  have hroom : T.lo j + 20 ≤ (c.regs .esp).toNat := (h.waiting j hj _ (by rw [hc]; rfl)).room
  exact (h.contents j hj c back hc).trans (heq.1.mono (by omega) le_rfl)

omit [DecidableEq ι] in
/-- Compiled code keeps the invariant. -/
theorem Kept.code (h : Kept T im s) (hc : OwnCode T s c) : Kept T im { s with cpu := c } :=
  ⟨hc.lo, hc.le, h.stacked.congr hc.frames, h.absent,
    fun _ hj => (h.elsewhere hj (hc.own.untouched hj)).1,
    fun _ hj => (h.elsewhere hj (hc.own.untouched hj)).2⟩

/-- The way into a handler adds a frame. -/
theorem Kept.interrupt (h : Kept T im s) (hroom : T.lo s.running + 60 ≤ (s.cpu.regs .esp).toNat)
    (v : UInt32) :
    Kept T im { s with
      cpu := enter im v none s.cpu
      frames := Function.update s.frames s.running (s.cpu :: s.frames s.running) } := by
  have hgrows := grows_enter im v (c := s.cpu) (by omega)
  have hesp := hgrows.esp
  have hle := h.le
  have hfloor := h.stacked.floor_le
  have hown : Own T s.running s.cpu.mem (enter im v none s.cpu).mem :=
    own_of_grows hgrows (by omega) (by omega)
  have helse := fun j (hj : j ≠ s.running) => h.elsewhere hj (hown.untouched hj)
  have hsub : (enter im v none s.cpu).regs .esp = s.cpu.regs .esp - 60 := by
    refine UInt32.toNat_inj.1 ?_
    rw [toNat_sub (show 60 ≤ _ by omega)]
    exact (Nat.eq_sub_of_add_eq hesp)
  refine ⟨?_, ?_, ?_, fun j hj ha => ?_, fun j hj => ?_,
    fun j hj => (helse j hj).2⟩
  · show T.lo s.running ≤ ((enter im v none s.cpu).regs .esp).toNat
    omega
  · simp only [Function.update_self, floor]
    omega
  · simp only [Function.update_self]
    refine ⟨by omega, h.le, ⟨v, hsub ▸ top_frame im v s.cpu⟩, ?_⟩
    exact h.stacked.congr_above h.le (hgrows.mem _ _ (.inr le_rfl))
  · simp only [Function.update_of_ne hj]
    exact h.absent j hj ha
  · simp only [Function.update_of_ne hj]
    exact (helse j hj).1

omit [DecidableEq ι] in
/-- **The way back** restores the interrupted context. -/
theorem Kept.run_exit (h : Kept T im s) (hfs : s.frames s.running = f :: fs)
    (hesp : s.cpu.regs .esp = f.regs .esp - 60) :
    let c' := run s.cpu (.ret :: commonExit)
    c'.mem = s.cpu.mem ∧ c'.regs = f.regs ∧ c'.eip = f.eip ∧ c'.eflags = f.eflags ∧
      c'.segs .cs = f.segs .cs ∧ c'.segs .ds = f.segs .ds := by
  obtain ⟨-, -, ⟨v, hwords⟩, -⟩ := hfs ▸ h.stacked
  have htop : s.cpu.Top (frameWords im v f) := by
    rw [Cpu.Top, hesp]
    exact hwords
  exact Shiro.run_exit htop hesp

/-- It takes a frame away. -/
theorem Kept.handlerReturn (h : Kept T im s) (hfs : s.frames s.running = f :: fs)
    (hesp : s.cpu.regs .esp = f.regs .esp - 60) :
    Kept T im { s with
      cpu := run s.cpu (.ret :: commonExit)
      frames := Function.update s.frames s.running fs } := by
  obtain ⟨hmem, hregs, -⟩ := h.run_exit hfs hesp
  obtain ⟨hroom, hle, -, hstacked⟩ := hfs ▸ h.stacked
  have hlo := h.lo
  rw [hesp, toNat_sub (show 60 ≤ _ by omega)] at hlo
  refine ⟨?_, ?_, ?_, fun j hj ha => ?_, fun j hj x hx => ?_, ?_⟩
  · simp only [hregs]
    omega
  · simp only [hregs, Function.update_self]
    exact hle
  · simp only [hmem, Function.update_self]
    exact hstacked
  · simp only [Function.update_of_ne hj]
    exact h.absent j hj ha
  · simp only [hmem, Function.update_of_ne hj]
    exact h.waiting j hj x hx
  · simp only [hmem]
    exact h.contents

/-! ### Switches and new tasks -/

/-- The memory when `switch_task` has put the running task away. -/
def Fibers.putAway (s : Fibers ι) (T : Stacks ι) (back : UInt32) : Mem :=
  store (saved s.cpu back).mem (T.cell s.running) (s.cpu.regs .esp - 20)

theorem grows_saved (h : 20 ≤ (c.regs .esp).toNat) (back : UInt32) : Grows c (saved c back) 20 :=
  (((((Grows.refl c).push (by omega) back).push (by omega) _).push (by omega) _).push
    (by omega) _).push (by omega) _

omit [DecidableEq ι] in
/-- Putting the running task away touches no other task. -/
theorem Kept.untouched_putAway (h : Kept T im s)
    (hroom : T.lo s.running + 20 ≤ (s.cpu.regs .esp).toNat) (back : UInt32)
    (hj : j ≠ s.running) : Untouched T j s.cpu.mem (s.putAway T back) := by
  have hgrows := grows_saved (c := s.cpu) (by omega) back
  have hesp := hgrows.esp
  have hle := h.le
  have hfloor := h.stacked.floor_le
  obtain ⟨hstack, hcell⟩ :=
    (own_of_grows (T := T) (i := s.running) hgrows (by omega) (by omega)).untouched hj
  have hfit := T.cell_fits s.running
  exact ⟨hstack.trans (eqOn_write32 hfit (T.cell_stack s.running j).symm),
    hcell.trans (eqOn_write32 hfit (T.cells j s.running hj))⟩

omit [DecidableEq ι] in
/-- What lies above the call stays. -/
theorem eqOn_putAway
    (hroom : T.lo s.running + 20 ≤ (s.cpu.regs .esp).toNat) (back : UInt32) :
    EqOn s.cpu.mem (s.putAway T back) (s.cpu.regs .esp).toNat (T.hi s.running) := by
  have hgrows := grows_saved (c := s.cpu) (by omega) back
  refine (hgrows.mem _ _ (.inr le_rfl)).trans (eqOn_write32 (T.cell_fits _) ?_)
  have := T.cell_stack s.running s.running
  omega

omit [DecidableEq ι] in
/-- **The caller of `switch_task` can be resumed.** -/
theorem Kept.waiting_putAway (h : Kept T im s)
    (hroom : T.lo s.running + 20 ≤ (s.cpu.regs .esp).toNat) (back : UInt32) :
    Waiting T im (s.putAway T back) s.running
      ⟨s.cpu.regs .edi, s.cpu.regs .esi, s.cpu.regs .ebx, s.cpu.regs .ebp, back,
        s.cpu.regs .esp⟩ (s.frames s.running) := by
  have hle := h.le
  have hfloor := h.stacked.floor_le
  have hsub : (s.cpu.regs .esp - 20).toNat = (s.cpu.regs .esp).toNat - 20 :=
    toNat_sub (show 20 ≤ _ by omega)
  have hlt := (s.cpu.regs .esp).toNat_lt
  refine ⟨hroom, hle, load_store _ _ _, ?_,
    h.stacked.congr_above hle (eqOn_putAway hroom back)⟩
  -- the five words that `switch_task` pops lie on top, and storing the pointer spares them
  have htop : (saved s.cpu back).Top _ := top_saved (show s.cpu.Top [] from trivial) (by simp) back
  rw [Cpu.Top, saved_esp] at htop
  have hlen : ∀ a b c d e : UInt32, [a, b, c, d, e].length = 5 := fun _ _ _ _ _ => rfl
  refine htop.congr ?_ (eqOn_write32 (T.cell_fits _) ?_)
  · rw [hsub, hlen]
    omega
  · have := T.cell_stack s.running s.running
    rw [hsub, hlen]
    omega

omit [DecidableEq ι] in
/-- **The switch to a task** that can be resumed resumes it. -/
theorem Kept.run_switchTask (h : Kept T im s) (sw : UInt32) {back : UInt32} (hj : j ≠ s.running)
    (hroom : T.lo s.running + 20 ≤ (s.cpu.regs .esp).toNat)
    (hargs : (s.cpu.regs .esp).toNat + 8 ≤ floor (T.hi s.running) (s.frames s.running))
    (htop : s.cpu.Top [T.cell s.running, load s.cpu.mem (T.cell j)])
    (hx : (s.parked j).resume (T.hi j) = some x) :
    let c' := run s.cpu (switchTask sw back)
    c'.mem = s.putAway T back ∧ c'.eip = x.eip ∧ c'.regs .edi = x.edi ∧ c'.regs .esi = x.esi ∧
      c'.regs .ebx = x.ebx ∧ c'.regs .ebp = x.ebp ∧ c'.regs .esp = x.esp := by
  have hfloor := h.stacked.floor_le
  have hhi := T.hi_lt s.running
  have hwaiting := (h.elsewhere hj (h.untouched_putAway hroom back hj)).1 x hx
  have hcell := (h.waiting j hj x hx).cell
  have hfour : (s.cpu.regs .esp + 4).toNat = (s.cpu.regs .esp).toNat + 4 := by
    rw [UInt32.toNat_add]
    simp only [UInt32.reduceToNat]
    omega
  refine Shiro.run_switchTask htop (apart_of_disjoint (T.cell_fits _) ?_ ?_) ?_ ?_
  · omega
  · have := T.cell_stack s.running s.running
    omega
  · rw [hcell, UInt32.sub_add_cancel]
  · rw [hcell]
    exact hwaiting.words

/-- A switch keeps the invariant. -/
theorem Kept.switchTo (h : Kept T im s) {back : UInt32} (hj : j ≠ s.running)
    (hroom : T.lo s.running + 20 ≤ (s.cpu.regs .esp).toNat)
    (hx : (s.parked j).resume (T.hi j) = some x)
    (hmem : c.mem = s.putAway T back) (hesp : c.regs .esp = x.esp) :
    Kept T im { s with
      cpu := c
      running := j
      parked := Function.update s.parked s.running (.called s.cpu back) } := by
  have helse := fun k (hk : k ≠ s.running) => h.elsewhere hk (h.untouched_putAway hroom back hk)
  have hwaiting := (helse j hj).1 x hx
  have hin := hwaiting.room
  -- the task left behind waits now; the ones that waited before are untouched
  refine ⟨?_, ?_, ?_, fun k hk ha => ?_, fun k hk y hy => ?_, fun k hk c ret hc => ?_⟩
  · simp only [hesp]
    omega
  · simp only [hesp]
    exact hwaiting.le
  · simp only [hmem]
    exact hwaiting.stacked
  · by_cases hki : k = s.running
    · subst hki
      simp at ha
    · simp only [Function.update_of_ne hki] at ha
      exact h.absent k hki ha
  · simp only [hmem]
    by_cases hki : k = s.running
    · subst hki
      simp only [Function.update_self, Parked.resume, Option.some.injEq] at hy
      exact hy ▸ h.waiting_putAway hroom back
    · simp only [Function.update_of_ne hki] at hy
      exact (helse k hki).1 y hy
  · simp only [hmem]
    by_cases hki : k = s.running
    · subst hki
      simp only [Function.update_self, Parked.called.injEq] at hc
      obtain ⟨rfl, rfl⟩ := hc
      exact eqOn_putAway hroom _
    · simp only [Function.update_of_ne hki] at hc
      exact (helse k hki).2 c ret hc

omit [DecidableEq ι] in
/-- `Spawn` touches no other task. -/
theorem untouched_spawned (T : Stacks ι) (s : Fibers ι) (entry : UInt32) (hk : k ≠ j) :
    Untouched T k s.cpu.mem (s.spawned T j entry) := by
  have hroom := T.room j
  have htop : (UInt32.ofNat (T.hi j)).toNat = T.hi j := UInt32.toNat_ofNat_of_lt' (T.hi_lt j)
  have hfit := T.cell_fits j
  refine ⟨EqOn.trans (eqOn_foldl_pushWord _ ?_ ?_) (eqOn_write32 hfit (T.cell_stack j k).symm),
    EqOn.trans (eqOn_foldl_pushWord _ ?_ ?_) (eqOn_write32 hfit (T.cells k j hk))⟩ <;>
    rw [htop] <;> simp only [List.length_cons, List.length_nil]
  · omega
  · have := T.apart k j hk
    omega
  · omega
  · have := T.cell_stack k j
    omega

omit [DecidableEq ι] in
/-- **The new task can be resumed** at its entry. -/
theorem waiting_spawned (T : Stacks ι) (im : Image) (s : Fibers ι) (j : ι) (entry : UInt32) :
    Waiting T im (s.spawned T j entry) j ⟨0, 0, 0, 0, entry, .ofNat (T.hi j)⟩ [] := by
  have hroom := T.room j
  have htop : (UInt32.ofNat (T.hi j)).toNat = T.hi j := UInt32.toNat_ofNat_of_lt' (T.hi_lt j)
  have hsub : (UInt32.ofNat (T.hi j) - 20).toNat = T.hi j - 20 := by
    rw [toNat_sub (by rw [htop]; exact (by omega : 20 ≤ T.hi j)), htop]
    rfl
  have hhi := T.hi_lt j
  obtain ⟨hsp, hwords⟩ := prepareStack_eq s.cpu.mem (.ofNat (T.hi j)) entry
  refine ⟨by rw [htop]; exact hroom, htop.le, (load_store _ _ _).trans hsp, ?_, trivial⟩
  refine hwords.congr ?_ (eqOn_write32 (T.cell_fits j) ?_)
  · rw [hsub]
    simp only [List.length_cons, List.length_nil]
    omega
  · have := T.cell_stack j j
    rw [hsub]
    simp only [List.length_cons, List.length_nil]
    omega

/-- A new task keeps the invariant. -/
theorem Kept.spawn (h : Kept T im s) (hj : j ≠ s.running) (ha : s.parked j = .absent)
    (entry : UInt32) :
    Kept T im { s with
      cpu := { s.cpu with mem := s.spawned T j entry }
      parked := Function.update s.parked j (.fresh entry) } := by
  -- the new task lies on a stack that was nobody's
  have helse := fun k (hk : k ≠ s.running) (hkj : k ≠ j) =>
    h.elsewhere hk (untouched_spawned T s entry hkj)
  refine ⟨h.lo, h.le, h.stacked.congr_above le_rfl ?_, fun k hk ha => ?_, fun k hk x hx => ?_,
    fun k hk c back hc => ?_⟩
  · have hlo := h.lo
    have hle := h.le
    exact (untouched_spawned T s entry hj.symm).1.mono (by omega) le_rfl
  · by_cases hkj : k = j
    · subst hkj
      simp at ha
    · simp only [Function.update_of_ne hkj] at ha
      exact h.absent k hk ha
  · by_cases hkj : k = j
    · subst hkj
      simp only [Function.update_self, Parked.resume, Option.some.injEq] at hx
      have hwaiting := waiting_spawned T im s k entry
      rw [hx] at hwaiting
      simp only [h.absent k hk ha]
      exact hwaiting
    · simp only [Function.update_of_ne hkj] at hx
      exact (helse k hk hkj).1 x hx
  · by_cases hkj : k = j
    · subst hkj
      simp at hc
    · simp only [Function.update_of_ne hkj] at hc
      exact (helse k hk hkj).2 c back hc

/-! ### Runs -/

omit [DecidableEq ι] in
/-- Where there is no other task, there is nothing to keep. -/
theorem kept_init (hp : ∀ i, s.parked i = .absent) (hf : ∀ i, s.frames i = [])
    (hlo : T.lo s.running ≤ (s.cpu.regs .esp).toNat)
    (hle : (s.cpu.regs .esp).toNat ≤ T.hi s.running) : Kept T im s := by
  refine ⟨hlo, ?_, ?_, fun j _ _ => hf j, fun j _ x hx => ?_, fun j _ c back hc => ?_⟩
  · rw [hf]
    exact hle
  · rw [hf]
    trivial
  · rw [hp] at hx
    cases hx
  · rw [hp] at hc
    cases hc

/-- A task that is there can be resumed. -/
theorem Parked.resume_of_ne {p : Parked} (h : p ≠ .absent) (top : ℕ) :
    ∃ x, p.resume top = some x := by
  cases p with
  | absent => exact absurd rfl h
  | fresh entry => exact ⟨_, rfl⟩
  | called c back => exact ⟨_, rfl⟩

/-- Every step keeps the invariant. -/
theorem Kept.step (h : Kept T im s) (hst : Fibers.Step T im sw s a s') : Kept T im s' := by
  cases hst with
  | code hc => exact h.code hc
  | interrupt hroom => exact h.interrupt hroom _
  | handlerReturn hfs hesp => exact h.handlerReturn hfs hesp
  | switchTo hj hparked hroom hargs htop =>
    obtain ⟨x, hx⟩ := Parked.resume_of_ne hparked (T.hi _)
    obtain ⟨hmem, -, -, -, -, -, hesp⟩ := h.run_switchTask sw hj hroom hargs htop hx
    exact h.switchTo hj hroom hx hmem hesp
  | spawn hj ha => exact h.spawn hj ha _

theorem kept_reachable (h : (fiberLts T im sw).Reachable s) : Kept T im s :=
  h.induct (fun _ h₀ => kept_init h₀.1 h₀.2.1 h₀.2.2.1 h₀.2.2.2)
    fun _ _ _ hk hst => hk.step hst

/-- **Every task goes on as it was suspended**, in every run of any number of tasks: behind its call
of `switch_task`, behind the interrupt, or at its entry. -/
theorem resumes (hs : (fiberLts T im sw).Reachable s) (hst : Fibers.Step T im sw s a s') :
    Resumes T s a s' := by
  have h := kept_reachable hs
  refine ⟨fun j back c ret ha hc => ?_, fun j back entry ha he => ?_, fun f fs ha hfs => ?_⟩
  · subst ha
    cases hst with
    | switchTo hj hparked hroom hargs htop =>
      obtain ⟨hmem, heip, hedi, hesi, hebx, hebp, hesp⟩ :=
        h.run_switchTask sw hj hroom hargs htop (by rw [hc]; rfl)
      refine ⟨heip, hebp, hebx, hesi, hedi, hesp, ?_⟩
      simp only [hmem]
      exact (h.elsewhere hj (h.untouched_putAway hroom back hj)).2 c ret hc
  · subst ha
    cases hst with
    | switchTo hj hparked hroom hargs htop =>
      obtain ⟨hmem, heip, hedi, hesi, hebx, hebp, hesp⟩ :=
        h.run_switchTask sw hj hroom hargs htop (by rw [he]; rfl)
      refine ⟨heip, hebp, hebx, hesi, hedi, ?_⟩
      simp only [hesp]
      exact UInt32.toNat_ofNat_of_lt' (T.hi_lt j)
  · subst ha
    cases hst with
    | handlerReturn hfs' hesp =>
      obtain ⟨rfl, rfl⟩ := List.cons.inj (hfs.symm.trans hfs')
      exact (h.run_exit hfs hesp).2

/-- The main task, and another with a stack above. -/
def twoStacks : Stacks Bool where
  lo i := if i then 0xA000 else 0x7000
  hi i := if i then 0xB000 else 0x9000
  cell i := if i then 0x120 else 0x100
  room := by decide
  hi_lt := by decide
  apart := by decide
  cell_fits := by decide
  cell_stack := by decide
  cells := by decide

/-- The main task about to spawn the other and to call `switch_task` for it. -/
def aboutToSpawn : Fibers Bool where
  cpu := { kernelCpu with mem := store (store kernelCpu.mem 0x8000 0x100) 0x8004 0xAFEC }
  running := false
  parked _ := .absent
  frames _ := []

/-- The other task starts at its entry. -/
theorem resumes_spawned : ∃ s s',
    (fiberLts twoStacks lowImage 0x4000).Reachable s ∧ s.parked true = .fresh 0x5000 ∧
      Fibers.Step twoStacks lowImage 0x4000 s (.switchTo true 0x101005) s' ∧
      Resumes twoStacks s (.switchTo true 0x101005) s' := by
  have hspawn : Fibers.Step twoStacks lowImage 0x4000 aboutToSpawn (.spawn true 0x5000) _ :=
    .spawn (by decide) rfl
  have hreach := (Lts.Reachable.of_init (A := fiberLts twoStacks lowImage 0x4000)
    ⟨fun _ => rfl, fun _ => rfl, by decide, by decide⟩).step hspawn
  have hswitch : Fibers.Step twoStacks lowImage 0x4000 { aboutToSpawn with
      cpu := { aboutToSpawn.cpu with mem := aboutToSpawn.spawned twoStacks true 0x5000 }
      parked := Function.update aboutToSpawn.parked true (.fresh 0x5000) }
      (.switchTo true 0x101005) _ :=
    .switchTo (by decide) (by simp) (by decide) (by decide)
      ⟨by decide +kernel, by decide +kernel, trivial⟩
  exact ⟨_, _, hreach, by simp, hswitch, resumes hreach hswitch⟩

end Shiro
