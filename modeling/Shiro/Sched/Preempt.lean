import Shiro.Lib.Lts
import Shiro.Sched.Table

/-!
# Preemption and the interrupt flag

The timer interrupt enters its stub with interrupts off.  `Timer::Handler` counts the tick and on
every fifth one calls `PreemptiveYield`, so a task can lose the CPU inside the handler, before the
interrupt is acknowledged and before the stub's closing `sti` and `iret`.  `switch_task` leaves the
interrupt flag alone: the task it switches to goes on with the flag it finds.

Here `Yield` is one step.  Labels are what the running task does in its own code, the timer
interrupt, and the statements of its handler.

* `Suspension`, `Place` : how a task lost the CPU, and where the running one stands.
* `Machine`, `Machine.step` : the machine and its steps.
* `Machine.Open` : own code runs with interrupts on, no preemption under way, none unacknowledged.
* `open_iff` : **a run stays open** exactly when no tick that preempts finds another task to run.
-/

namespace Shiro

open Sched

/-- How a suspended task gave up the CPU. -/
inductive Suspension where
  /-- It has not run yet. -/
  | fresh
  /-- In a call of `Yield` from its own code. -/
  | yielded
  /-- In `PreemptiveYield`, inside the timer handler. -/
  | preempted
  deriving DecidableEq, Repr

/-- Where the running task stands. -/
inductive Place where
  /-- In its own code. -/
  | code
  /-- At a `hlt` of its own code. -/
  | halted
  /-- In the stub, before `Timer::Handler`. -/
  | entered
  /-- In `PreemptiveYield`, behind `Yield`. -/
  | resumed
  /-- Behind `Timer::Handler`. -/
  | handled
  /-- Behind `EndOfInterrupt`. -/
  | acknowledged
  deriving DecidableEq, Repr

/-- Outside the timer handler. -/
def Place.Own (p : Place) : Prop := p = .code ∨ p = .halted

instance (p : Place) : Decidable p.Own := inferInstanceAs (Decidable (_ ∨ _))

/-- Where a task goes on when it gets the CPU back. -/
def Suspension.resume : Suspension → Place
  | .fresh => .code
  | .yielded => .code
  | .preempted => .resumed

/-- The scheduler, the timer and the interrupt state of the CPU. -/
structure Machine where
  sched : Sched ℕ
  /-- `Timer::ticks`. -/
  ticks : ℕ
  /-- `Timer::preempt_cb` is set. -/
  callback : Bool
  /-- IF. -/
  intr : Bool
  /-- `in_preempt` of `PreemptiveYield`. -/
  inPreempt : Bool
  /-- The timer interrupt in service has not been acknowledged. -/
  pending : Bool
  place : Place
  /-- How the tasks that do not run were suspended. -/
  saved : Slot → Suspension

/-- What happens. -/
inductive Event where
  /-- `Spawn` of a task with this name, where `Heap::Alloc` returns `stack`. -/
  | spawn (stack : UInt32) (name : List UInt8)
  /-- `Yield()`. -/
  | yield
  /-- `Sleep(ms)`. -/
  | sleep (ms : UInt32)
  /-- `hlt` in the main loop. -/
  | hlt
  /-- The timer interrupts the running task. -/
  | tick
  /-- The next statement of the timer interrupt's handler. -/
  | handler
  deriving DecidableEq

namespace Machine

/-- Behind the `sti` of `Shiro::Start`, with the scheduler just started. -/
def boot : Machine where
  sched := Sched.start 0
  ticks := 0
  callback := true
  intr := true
  inPreempt := false
  pending := false
  place := .code
  saved := fun _ => .fresh

/-- `Yield()`: the running task is suspended as `how` says and the next one goes on, or the call
returns to `back`. -/
def yield (s : Machine) (how : Suspension) (back : Place) : Machine :=
  if !s.sched.ready then { s with place := back }
  else
    let r := s.sched.pickNext s.ticks
    if r.2 = s.sched.current then { s with sched := r.1, place := back }
    else
      { s with
        sched := r.1.switchTo r.2
        saved := Function.update s.saved s.sched.current how
        place := (s.saved r.2).resume }

/-- The stack pointer of a task whose stack `Spawn` has prepared: five words are on it. -/
def preparedEsp (stack : ℕ) : ℕ := u32 (stack + stackSize - 20)

/-- `Spawn(entry, name)`. -/
def spawn (s : Machine) (stack : ℕ) (name : List UInt8) : Machine :=
  match s.sched.spawn stack (preparedEsp stack) name with
  | (sched, none) => { s with sched := sched }
  | (sched, some i) => { s with sched := sched, saved := Function.update s.saved i .fresh }

/-- `Sleep(ms)`. -/
def sleep (s : Machine) (ms : ℕ) : Machine :=
  if !s.sched.ready then s
  else { s with sched := s.sched.sleep s.ticks ms }.yield .yielded .code

/-- `PreemptiveYield()`, up to the switch. -/
def preemptiveYield (s : Machine) : Machine :=
  if !s.sched.ready then { s with place := .handled }
  else if s.inPreempt then { s with place := .handled }
  else { s with inPreempt := true }.yield .preempted .resumed

/-- `Timer::Handler()`, up to the switch. -/
def timerHandler (s : Machine) : Machine :=
  let s := { s with ticks := u32 (s.ticks + 1) }
  if s.callback && decide (s.ticks % preemptEvery = 0) then s.preemptiveYield
  else { s with place := .handled }

/-- The next statement of the handler. -/
def handlerStep (s : Machine) : Option Machine :=
  match s.place with
  | .code | .halted => none
  | .entered => some s.timerHandler
  | .resumed => some { s with inPreempt := false, place := .handled }
  | .handled => some { s with pending := false, place := .acknowledged }
  -- `sti` takes effect behind the `iret`
  | .acknowledged => some { s with intr := true, place := .code }

/-- One step.  The CPU takes the timer interrupt if IF is set and the last one is acknowledged. -/
def step (s : Machine) : Event → Option Machine
  | .spawn stack name => if s.place = .code then some (s.spawn stack.toNat name) else none
  | .yield => if s.place = .code then some (s.yield .yielded .code) else none
  | .sleep ms => if s.place = .code then some (s.sleep ms.toNat) else none
  | .hlt =>
    if s.place = .code ∧ s.sched.current = kernel then some { s with place := .halted } else none
  | .tick =>
    if s.place.Own ∧ s.intr = true ∧ s.pending = false then
      some { s with intr := false, pending := true, place := .entered }
    else none
  | .handler => s.handlerStep

/-- The runs of the machine from boot. -/
def lts : Lts Machine Event := Lts.det (· = boot) step

/-- A task that executes its own code has interrupts on, `in_preempt` is clear, and the last timer
interrupt has been acknowledged. -/
def Open (s : Machine) : Prop :=
  s.place.Own → s.intr = true ∧ s.inPreempt = false ∧ s.pending = false

instance (s : Machine) : Decidable s.Open := inferInstanceAs (Decidable (_ → _))

/-- A tick that preempts finds no other task to run. -/
def Alone (s : Machine) (e : Event) : Prop :=
  e = .handler → s.place = .entered → u32 (s.ticks + 1) % preemptEvery = 0 →
    ∀ i, i ≠ s.sched.current → ¬ (s.sched.tasks i).Runnable (u32 (s.ticks + 1))

/-! ### The invariant -/

/-- What holds as long as no task has been preempted. -/
structure Inv (s : Machine) : Prop where
  ready : s.sched.ready = true
  callback : s.callback = true
  saved : ∀ i, s.saved i ≠ .preempted
  guard : s.inPreempt = true → s.place = .resumed
  own : s.place.Own → s.intr = true ∧ s.pending = false
  acknowledged : s.place = .acknowledged → s.pending = false

variable {s s' : Machine} {e : Event}

theorem Inv.open (h : s.Inv) : s.Open := by
  intro hown
  obtain ⟨hintr, hpending⟩ := h.own hown
  refine ⟨hintr, ?_, hpending⟩
  by_contra hp
  have hplace := h.guard (by simpa using hp)
  rw [hplace] at hown
  rcases hown with hown | hown <;> cases hown

theorem inv_boot : boot.Inv where
  ready := rfl
  callback := rfl
  saved _ := by simp [boot]
  guard h := by simp [boot] at h
  own _ := ⟨rfl, rfl⟩
  acknowledged h := by simp [boot] at h

theorem resume_of_ne {r : Suspension} (h : r ≠ .preempted) : r.resume = .code := by
  cases r with
  | fresh => rfl
  | yielded => rfl
  | preempted => exact absurd rfl h

/-- `Yield` that finds nobody else. -/
theorem yield_stay (hready : s.sched.ready = true)
    (hpick : (s.sched.pickNext s.ticks).2 = s.sched.current) (how : Suspension) (back : Place) :
    s.yield how back = { s with sched := (s.sched.pickNext s.ticks).1, place := back } := by
  simp only [yield, hready, hpick, Bool.not_true, Bool.false_eq_true, ↓reduceIte]

/-- `Yield` that switches. -/
theorem yield_switch (hready : s.sched.ready = true)
    (hpick : (s.sched.pickNext s.ticks).2 ≠ s.sched.current) (how : Suspension) (back : Place) :
    s.yield how back =
      { s with
        sched := (s.sched.pickNext s.ticks).1.switchTo (s.sched.pickNext s.ticks).2
        saved := Function.update s.saved s.sched.current how
        place := (s.saved (s.sched.pickNext s.ticks).2).resume } := by
  simp only [yield, hready, hpick, Bool.not_true, Bool.false_eq_true, ↓reduceIte]

theorem not_own {p : Place} (hcode : p ≠ .code) (hhalted : p ≠ .halted) : ¬ p.Own := by
  rintro (h | h)
  · exact hcode h
  · exact hhalted h

/-- `Yield` from own code leads to own code. -/
theorem Inv.yield (h : s.Inv) (hplace : s.place = .code) : (s.yield .yielded .code).Inv := by
  obtain ⟨hintr, hno, hack⟩ := h.open (.inl hplace)
  by_cases hpick : (s.sched.pickNext s.ticks).2 = s.sched.current
  · rw [yield_stay h.ready hpick]
    refine ⟨h.ready, h.callback, h.saved, fun hg => ?_, fun _ => ⟨hintr, hack⟩, fun _ => hack⟩
    cases hno.symm.trans hg
  · rw [yield_switch h.ready hpick]
    refine ⟨h.ready, h.callback, fun i => ?_, fun hg => ?_, fun _ => ⟨hintr, hack⟩, fun _ => hack⟩
    · dsimp only
      rw [Function.update_apply]
      split
      · simp
      · exact h.saved i
    · cases hno.symm.trans hg

theorem Inv.spawn (h : s.Inv) (stack : ℕ) (name : List UInt8) : (s.spawn stack name).Inv := by
  have hready : (s.sched.spawn stack (preparedEsp stack) name).1.ready = s.sched.ready := by
    unfold Sched.spawn
    split
    · rfl
    · split
      · rfl
      · split <;> rfl
  unfold Machine.spawn
  split
  · rename_i sched heq
    rw [heq] at hready
    exact ⟨hready.trans h.ready, h.callback, h.saved, h.guard, h.own, h.acknowledged⟩
  · rename_i sched i heq
    rw [heq] at hready
    refine ⟨hready.trans h.ready, h.callback, fun j => ?_, h.guard, h.own, h.acknowledged⟩
    dsimp only
    rw [Function.update_apply]
    split
    · simp
    · exact h.saved j

theorem Inv.sleep (h : s.Inv) (hplace : s.place = .code) (ms : ℕ) : (s.sleep ms).Inv := by
  unfold Machine.sleep
  split
  · exact h
  · refine Inv.yield ⟨h.ready, h.callback, h.saved, h.guard, h.own, h.acknowledged⟩ hplace

theorem Inv.notPreempting (h : s.Inv) (hplace : s.place ≠ .resumed) : s.inPreempt = false := by
  by_contra hp
  exact hplace (h.guard (by simpa using hp))

/-- A tick that preempts calls `Yield` with `in_preempt` set. -/
theorem timerHandler_due (h : s.Inv) (hplace : s.place ≠ .resumed)
    (hdue : u32 (s.ticks + 1) % preemptEvery = 0) :
    s.timerHandler =
      { s with ticks := u32 (s.ticks + 1), inPreempt := true }.yield .preempted .resumed := by
  simp only [timerHandler, h.callback, hdue, preemptiveYield, h.ready, h.notPreempting hplace,
    Bool.true_and, decide_true, Bool.not_true, Bool.false_eq_true, ↓reduceIte]

/-- The handler goes on if the tick does not preempt, or finds nobody else. -/
theorem Inv.timerHandler (h : s.Inv) (hplace : s.place = .entered) (hok : s.Alone .handler) :
    s.timerHandler.Inv := by
  have hne : s.place ≠ .resumed := by simp [hplace]
  have hno := h.notPreempting hne
  by_cases hdue : u32 (s.ticks + 1) % preemptEvery = 0
  · have hstay := (pickNext_eq_current_iff s.sched (u32 (s.ticks + 1))).2 (hok rfl hplace hdue)
    rw [timerHandler_due h hne hdue,
      yield_stay (s := { s with ticks := u32 (s.ticks + 1), inPreempt := true }) h.ready hstay]
    refine ⟨h.ready, h.callback, h.saved, fun _ => rfl, fun ho => ?_, fun ha => by cases ha⟩
    exact absurd ho (not_own (by simp) (by simp))
  · simp only [Machine.timerHandler, hdue, decide_false, Bool.and_false, Bool.false_eq_true,
      ↓reduceIte]
    refine ⟨h.ready, h.callback, h.saved, fun hg => ?_, fun ho => ?_, fun ha => by cases ha⟩
    · cases hno.symm.trans hg
    · exact absurd ho (not_own (by simp) (by simp))

/-- **A tick that preempts and finds another task** hands it the CPU in its own code, with
`in_preempt` set and interrupts off. -/
theorem Inv.not_open (h : s.Inv) (hok : ¬ s.Alone e) :
    ∃ s', s.step e = some s' ∧ ¬ s'.Open := by
  unfold Alone at hok
  push Not at hok
  obtain ⟨rfl, hplace, hdue, i, hi, hrun⟩ := hok
  have hswitch : (s.sched.pickNext (u32 (s.ticks + 1))).2 ≠ s.sched.current := fun heq =>
    (pickNext_eq_current_iff s.sched _).1 heq i hi hrun
  refine ⟨s.timerHandler, by simp [step, handlerStep, hplace], fun hopen => ?_⟩
  rw [timerHandler_due h (by simp [hplace]) hdue,
    yield_switch (s := { s with ticks := u32 (s.ticks + 1), inPreempt := true }) h.ready hswitch]
    at hopen
  -- nobody has been preempted before, so the task switched to is not inside the handler
  obtain ⟨-, hno, -⟩ := hopen (.inl (resume_of_ne (h.saved _)))
  cases hno

/-- The statements of the handler. -/
theorem Inv.handlerStep (h : s.Inv) (hok : s.Alone .handler) (hst : s.handlerStep = some s') :
    s'.Inv := by
  unfold Machine.handlerStep at hst
  split at hst
  · cases hst
  · cases hst
  · rename_i hplace
    cases hst
    exact h.timerHandler hplace hok
  · cases hst
    exact ⟨h.ready, h.callback, h.saved, fun hg => (by cases hg),
      fun ho => absurd ho (not_own (by simp) (by simp)), fun ha => by cases ha⟩
  · rename_i hplace
    have hno := h.notPreempting (by simp [hplace])
    cases hst
    exact ⟨h.ready, h.callback, h.saved, fun hg => (by cases hno.symm.trans hg),
      fun ho => absurd ho (not_own (by simp) (by simp)), fun _ => rfl⟩
  · rename_i hplace
    have hno := h.notPreempting (by simp [hplace])
    have hack := h.acknowledged hplace
    cases hst
    exact ⟨h.ready, h.callback, h.saved, fun hg => (by cases hno.symm.trans hg),
      fun _ => ⟨rfl, hack⟩, fun ha => by cases ha⟩

/-- **Every step that meets the condition keeps the invariant.** -/
theorem Inv.step (h : s.Inv) (hok : s.Alone e) (hst : s.step e = some s') : s'.Inv := by
  cases e with
  | spawn stack name =>
    obtain ⟨-, ⟨⟩⟩ := Option.ite_none_right_eq_some.1 hst
    exact h.spawn _ _
  | yield =>
    obtain ⟨hplace, ⟨⟩⟩ := Option.ite_none_right_eq_some.1 hst
    exact h.yield hplace
  | sleep ms =>
    obtain ⟨hplace, ⟨⟩⟩ := Option.ite_none_right_eq_some.1 hst
    exact h.sleep hplace _
  | hlt =>
    obtain ⟨⟨hplace, -⟩, ⟨⟩⟩ := Option.ite_none_right_eq_some.1 hst
    obtain ⟨hintr, hno, hack⟩ := h.open (.inl hplace)
    refine ⟨h.ready, h.callback, h.saved, fun hg => ?_, fun _ => ⟨hintr, hack⟩, fun ha => ?_⟩
    · rw [hno] at hg
      cases hg
    · cases ha
  | tick =>
    obtain ⟨⟨hown, -, -⟩, ⟨⟩⟩ := Option.ite_none_right_eq_some.1 hst
    obtain ⟨-, hno, -⟩ := h.open hown
    refine ⟨h.ready, h.callback, h.saved, fun hg => ?_, fun ho => ?_, fun ha => ?_⟩
    · rw [hno] at hg
      cases hg
    · rcases ho with ho | ho <;> cases ho
    · cases ha
  | handler => exact h.handlerStep hok hst

/-! ### Runs -/

/-- **A run stays open** exactly when no tick that preempts finds another task to run. -/
theorem open_iff (es : List Event) :
    (∀ pre t, pre <+: es → lts.Run boot pre t → t.Open) ↔
      ∀ pre e t, pre ++ [e] <+: es → lts.Run boot pre t → t.Alone e := by
  have hkeep : ∀ t e t', t.Inv → t.Alone e → lts.step t e t' → t'.Inv :=
    fun _ _ _ h hok hst => h.step hok hst
  have hbreak : ∀ t e t', t.Inv → ¬ t.Alone e → lts.step t e t' → ¬ t'.Open := by
    intro t e t' h hnot hst
    obtain ⟨u, hu, hbad⟩ := h.not_open hnot
    cases hst.symm.trans hu
    exact hbad
  rw [Lts.Run.forall_iff es inv_boot (fun _ => Inv.open) hkeep hbreak]
  constructor
  · intro hok pre e t hle hrun
    by_contra hnot
    have hI := hrun.invariant_of_ok inv_boot hkeep fun pre' e' u u' h =>
      hok pre' e' u u' (h.trans ((List.prefix_append _ _).trans hle))
    -- a step that does not meet the condition is a step of the machine
    obtain ⟨t', hst, -⟩ := hI.not_open hnot
    exact hnot (hok pre e t t' hle hrun hst)
  · intro hok pre e t t' hle hrun _
    exact hok pre e t hle hrun

/-- A tick and its handler, where it does not switch. -/
def quietTick : List Event := [.tick, .handler, .handler, .handler]

/-- A task is spawned, and the fifth tick preempts the kernel. -/
def firstSwitch : List Event :=
  .spawn 0x300000 kernelName :: (List.replicate 4 quietTick).flatten ++ [.tick, .handler]

/-- The first preemption hands the CPU to a task that has not run yet, and it runs with interrupts
off. -/
theorem not_open_first_switch : ¬ ∀ s, lts.Reachable s → s.Open := by
  intro h
  obtain ⟨s, hs, hbad⟩ : ∃ s, lts.Reachable s ∧ (!decide s.Open) = true :=
    Lts.exists_reachable_det (f := step) rfl (rfl : boot = boot) firstSwitch _ (by decide +kernel)
  simp [h s hs] at hbad

end Machine

end Shiro
