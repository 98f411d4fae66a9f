import Shiro.Sched.Preempt

/-!
# Sleeping tasks

`Sleep` marks the running task as asleep until a later tick and yields.  `PickNext` passes over a
sleeper whose deadline has not come, but it falls back to the running task if it finds nobody, and
then the sleeper goes on at once.

Here every call of the running task is one step, and so is a tick with its handler.  Which ticks
preempt is left open: `Machine` decides it by the tick count and by `in_preempt`.

* `Clock`, `Clock.Call`, `Clock.lts` : the scheduler and the tick count, and the calls.
* `Machine.run_clock` : the runs of `Machine` are among these.
* `Clock.SleepsThrough` : nobody runs who sleeps.
* `sleepsThrough_iff` : **a run has this property** exactly when each `Sleep` finds another task.
-/

namespace Shiro

open Sched

variable {E : Type*}

/-- The scheduler, and `Timer::ticks`. -/
structure Clock (E : Type*) where
  sched : Sched E
  ticks : ℕ

namespace Clock

/-- A call of the running task, or a tick. -/
inductive Call (E : Type*) where
  /-- `Spawn` of a task with this name, where `Heap::Alloc` returns `stack` and `esp` points to the
  frame prepared on it. -/
  | spawn (stack : UInt32) (esp : E) (name : List UInt8)
  /-- `Yield()`. -/
  | yield
  /-- `Sleep(ms)`. -/
  | sleep (ms : UInt32)
  /-- `Timer::Handler()`, which may call `Yield`. -/
  | tick (preempts : Bool)

/-- `Scheduler::Start()` at tick `now`, where `esp` stands for the null pointer. -/
def boot (esp : E) (now : ℕ) : Clock E := ⟨Sched.start esp, now⟩

/-- `Yield()`. -/
def yield (s : Clock E) : Clock E :=
  if !s.sched.ready then s
  else
    let r := s.sched.pickNext s.ticks
    { s with sched := if r.2 = s.sched.current then r.1 else r.1.switchTo r.2 }

/-- `Sleep(ms)`. -/
def sleep (s : Clock E) (ms : ℕ) : Clock E :=
  if !s.sched.ready then s else { s with sched := s.sched.sleep s.ticks ms }.yield

/-- A tick that does not preempt. -/
def count (s : Clock E) : Clock E := { s with ticks := u32 (s.ticks + 1) }

/-- One step. -/
def step (s : Clock E) : Call E → Clock E
  | .spawn stack esp name => { s with sched := (s.sched.spawn stack.toNat esp name).1 }
  | .yield => s.yield
  | .sleep ms => s.sleep ms.toNat
  | .tick preempts => if preempts then s.count.yield else s.count

/-- The tick count and the deadlines stay below `2 ^ 32`. -/
def InRange (s : Clock E) : Call E → Prop
  | .sleep ms => s.ticks + sleepTicks ms.toNat < 2 ^ 32
  | .tick _ => s.ticks + 1 < 2 ^ 32
  | _ => True

/-- The runs from `Scheduler::Start` on in which nothing overflows. -/
def lts (E : Type*) : Lts (Clock E) (Call E) :=
  (Lts.det (fun s => ∃ esp now, s = boot esp now) fun s c => some (s.step c)).guard InRange

/-- The running task. -/
def running (s : Clock E) : Task E := s.sched.tasks s.sched.current

/-- The `sleep_until` that `Sleep(ms)` sets. -/
def deadline (s : Clock E) (ms : ℕ) : ℕ :=
  ((s.sched.sleep s.ticks ms).tasks s.sched.current).sleepUntil

/-- In the run `cs` from `s₀` the running task is always ready, and a task that calls `Sleep` does
not run, inside that call or behind it, before the tick count has reached its deadline. -/
structure SleepsThrough (s₀ : Clock E) (cs : List (Call E)) : Prop where
  ready : ∀ pre s, pre <+: cs → (lts E).Run s₀ pre s → s.running.state = .ready
  asleep : ∀ pre ms later s s', pre ++ .sleep ms :: later <+: cs → (lts E).Run s₀ pre s →
    (lts E).Run s (.sleep ms :: later) s' → s'.sched.current = s.sched.current →
      s.deadline ms.toNat ≤ s'.ticks

/-- A task that calls `Sleep` leaves another that can run. -/
def Relieved (s : Clock E) (c : Call E) : Prop :=
  ∀ ms, c = .sleep ms → ∃ i, i ≠ s.sched.current ∧ (s.sched.tasks i).Runnable s.ticks

variable {s s' : Clock E} {c : Call E} {i : Slot} {ms : ℕ}

/-! ### What the calls do -/

theorem sleepTicks_pos (ms : ℕ) : 0 < sleepTicks ms := by
  unfold sleepTicks
  dsimp only
  split <;> omega

/-- **What `Yield` does**: it hands the CPU to a runnable task, which is ready from then on, or
finds none. -/
theorem yield_cases (hready : s.sched.ready = true) :
    (∃ i, (s.sched.tasks i).Runnable s.ticks ∧ s.yield.sched.current = i ∧
      s.yield.sched.ready = true ∧ s.yield.ticks = s.ticks ∧
      ∀ j, (s.yield.sched.tasks j).sleepUntil = (s.sched.tasks j).sleepUntil ∧
        (s.yield.sched.tasks j).state = if j = i then .ready else (s.sched.tasks j).state) ∨
    (∀ i, ¬ (s.sched.tasks i).Runnable s.ticks) ∧ s.yield = s := by
  have hyield : s.yield = { s with
      sched := if (s.sched.pickNext s.ticks).2 = s.sched.current then (s.sched.pickNext s.ticks).1
        else (s.sched.pickNext s.ticks).1.switchTo (s.sched.pickNext s.ticks).2 } := by
    simp only [yield, hready, Bool.not_true, Bool.false_eq_true, ↓reduceIte]
  rcases pickNext_cases s.sched s.ticks with ⟨i, hrun, heq⟩ | ⟨hnone, heq⟩
  · refine .inl ⟨i, hrun, ?_⟩
    rw [hyield, heq]
    dsimp only
    by_cases hi : i = s.sched.current
    · rw [if_pos hi]
      exact ⟨hi.symm, hready, rfl, update_wake s.sched.tasks hrun⟩
    · rw [if_neg hi]
      refine ⟨rfl, hready, rfl, fun j => ?_⟩
      rw [(switchTo_tasks _ i j).1, (switchTo_tasks _ i j).2]
      exact update_wake s.sched.tasks hrun j
  · refine .inr ⟨hnone, ?_⟩
    rw [hyield, heq, if_pos rfl]

theorem deadline_eq (h : s.ticks + sleepTicks ms < 2 ^ 32) :
    s.deadline ms = s.ticks + sleepTicks ms := by
  rw [deadline, Sched.sleep]
  dsimp only
  rw [Function.update_self, u32_of_lt h]

/-- `Sleep` of another task changes nothing. -/
theorem sleep_of_ne (hi : i ≠ s.sched.current) (now ms : ℕ) :
    (s.sched.sleep now ms).tasks i = s.sched.tasks i := by
  rw [Sched.sleep]
  exact Function.update_of_ne hi _ _

theorem sleep_self (s : Clock E) (now ms : ℕ) :
    ((s.sched.sleep now ms).tasks s.sched.current).state = .sleeping := by
  rw [Sched.sleep]
  dsimp only
  rw [Function.update_self]

/-- The sleeper is not runnable. -/
theorem not_runnable_self (h : s.ticks + sleepTicks ms < 2 ^ 32) :
    ¬ ((s.sched.sleep s.ticks ms).tasks s.sched.current).Runnable s.ticks := by
  have hstate := sleep_self s s.ticks ms
  have hdeadline := deadline_eq h
  have hpos := sleepTicks_pos ms
  rintro (hr | ⟨-, hle⟩)
  · rw [hstate] at hr
    cases hr
  · rw [deadline] at hdeadline
    omega

theorem step_sleep (hready : s.sched.ready = true) (ms : UInt32) :
    s.step (.sleep ms) = { s with sched := s.sched.sleep s.ticks ms.toNat }.yield := by
  rw [step, sleep, hready]
  rfl

/-! ### The invariant -/

/-- What holds as long as every `Sleep` finds another task. -/
structure Awake (s : Clock E) : Prop where
  ready : s.sched.ready = true
  running : s.running.state = .ready
  passed : ∀ i, (s.sched.tasks i).state = .ready → (s.sched.tasks i).sleepUntil ≤ s.ticks

theorem awake_boot (esp : E) (now : ℕ) : (boot esp now).Awake where
  ready := rfl
  running := rfl
  passed i _ := by
    rw [boot]
    by_cases hi : i = kernel
    · subst hi
      exact Nat.zero_le _
    · rw [start_of_ne esp hi]
      exact Nat.zero_le _

/-- **`Yield` hands the CPU to a task that is awake**, if there is one. -/
theorem awake_yield (hready : s.sched.ready = true)
    (hpassed : ∀ i, (s.sched.tasks i).state = .ready → (s.sched.tasks i).sleepUntil ≤ s.ticks)
    (hrun : (s.sched.tasks i).Runnable s.ticks) : s.yield.Awake := by
  rcases yield_cases hready with ⟨j, hj, hcur, hr, hticks, htasks⟩ | ⟨hnone, -⟩
  · refine ⟨hr, ?_, fun k hk => ?_⟩
    · rw [running, hcur, (htasks j).2, if_pos rfl]
    · rw [(htasks k).1, hticks]
      rw [(htasks k).2] at hk
      by_cases hkj : k = j
      · subst hkj
        rcases hj with hj | hj
        · exact hpassed k hj
        · exact hj.2
      · rw [if_neg hkj] at hk
        exact hpassed k hk
  · exact absurd hrun (hnone i)

theorem Awake.yield (h : s.Awake) : s.yield.Awake :=
  awake_yield h.ready h.passed (.inl h.running)

theorem Awake.count (h : s.Awake) (hlt : s.ticks + 1 < 2 ^ 32) : s.count.Awake where
  ready := h.ready
  running := h.running
  passed i hi := by
    rw [Clock.count, u32_of_lt hlt]
    exact (h.passed i hi).trans (Nat.le_succ _)

/-- `Spawn` touches an unused slot only. -/
theorem spawn_tasks (s : Sched E) (stack : ℕ) (esp : E) (name : List UInt8) :
    (s.spawn stack esp name).1.ready = s.ready ∧ (s.spawn stack esp name).1.current = s.current ∧
      ∀ i, ((s.spawn stack esp name).1.tasks i = s.tasks i ∨
        (s.tasks i).state = .unused ∧ ((s.spawn stack esp name).1.tasks i).sleepUntil = 0) := by
  rcases spawn_cases s stack esp name with ⟨heq, -⟩ | ⟨j, hfree, -, heq⟩
  · rw [heq]
    exact ⟨rfl, rfl, fun _ => .inl rfl⟩
  · rw [heq]
    refine ⟨rfl, rfl, fun i => ?_⟩
    dsimp only
    by_cases hi : i = j
    · subst hi
      rw [Function.update_self]
      exact .inr ⟨freeSlot_unused hfree, rfl⟩
    · exact .inl (Function.update_of_ne hi _ _)

/-- **Every step that meets the condition keeps the invariant.** -/
theorem Awake.step (h : s.Awake) (hrange : s.InRange c) (hok : s.Relieved c) : (s.step c).Awake := by
  cases c with
  | spawn stack esp name =>
    obtain ⟨hready, hcur, htasks⟩ := spawn_tasks s.sched stack.toNat esp name
    refine ⟨hready.trans h.ready, ?_, fun i hi => ?_⟩
    · rw [Clock.running, Clock.step]
      dsimp only
      rw [hcur]
      rcases htasks s.sched.current with heq | ⟨hunused, -⟩
      · rw [heq]
        exact h.running
      · cases hunused.symm.trans h.running
    · rcases htasks i with heq | ⟨-, hzero⟩
      · rw [Clock.step] at hi ⊢
        dsimp only at hi ⊢
        rw [heq] at hi ⊢
        exact h.passed i hi
      · exact hzero.trans_le (Nat.zero_le _)
  | yield => exact h.yield
  | sleep ms =>
    obtain ⟨i, hi, hrun⟩ := hok ms rfl
    rw [step_sleep h.ready]
    refine awake_yield (i := i) h.ready (fun j hj => ?_) ?_
    · by_cases hjc : j = s.sched.current
      · subst hjc
        cases (sleep_self s _ _).symm.trans hj
      · dsimp only at hj ⊢
        rw [sleep_of_ne hjc] at hj ⊢
        exact h.passed j hj
    · dsimp only
      rwa [sleep_of_ne hi]
  | tick preempts =>
    rw [Clock.step]
    split
    · exact (h.count hrange).yield
    · exact h.count hrange

/-- **A `Sleep` that finds nobody else** returns at once, and its caller runs on as a sleeper. -/
theorem Awake.not_ready (h : s.Awake) (hrange : s.InRange c) (hok : ¬ s.Relieved c) :
    (s.step c).running.state ≠ .ready := by
  unfold Relieved at hok
  push Not at hok
  obtain ⟨ms, rfl, hnone⟩ := hok
  have hself : ¬ _ := not_runnable_self (show s.ticks + sleepTicks ms.toNat < 2 ^ 32 from hrange)
  rw [step_sleep h.ready]
  rcases yield_cases (s := { s with sched := s.sched.sleep s.ticks ms.toNat }) h.ready with
    ⟨i, hi, -⟩ | ⟨-, heq⟩
  · by_cases hic : i = s.sched.current
    · subst hic
      exact absurd hi hself
    · dsimp only at hi
      rw [sleep_of_ne hic] at hi
      exact absurd hi (hnone i hic)
  · rw [heq]
    intro hready
    cases (sleep_self s _ _).symm.trans hready

/-! ### Deadlines -/

/-- Task `i` has been given the deadline `d`, and has not lost it. -/
def Due (i : Slot) (d : ℕ) (s : Clock E) : Prop :=
  (s.sched.tasks i).state ≠ .unused ∧ (d ≤ (s.sched.tasks i).sleepUntil ∨ d ≤ s.ticks)

variable {d : ℕ}

theorem Due.yield (h : Due i d s) (hready : s.sched.ready = true) : Due i d s.yield := by
  rcases yield_cases hready with ⟨j, -, -, -, hticks, htasks⟩ | ⟨-, heq⟩
  · refine ⟨?_, ?_⟩
    · rw [(htasks i).2]
      split
      · simp
      · exact h.1
    · rw [(htasks i).1, hticks]
      exact h.2
  · rwa [heq]

theorem Due.count (h : Due i d s) (hlt : s.ticks + 1 < 2 ^ 32) : Due i d s.count := by
  refine ⟨h.1, h.2.imp_right fun hle => ?_⟩
  rw [Clock.count, u32_of_lt hlt]
  exact hle.trans (Nat.le_succ _)

/-- **A deadline lasts**: only a later `Sleep` of the same task replaces it, when it has passed. -/
theorem Due.step (h : Due i d s) (hawake : s.Awake) (hrange : s.InRange c) :
    Due i d (s.step c) := by
  cases c with
  | spawn stack esp name =>
    obtain ⟨-, -, htasks⟩ := spawn_tasks s.sched stack.toNat esp name
    rcases htasks i with heq | ⟨hunused, -⟩
    · rw [Due, Clock.step]
      dsimp only
      rw [heq]
      exact h
    · exact absurd hunused h.1
  | yield => exact h.yield hawake.ready
  | sleep ms =>
    rw [step_sleep hawake.ready]
    refine Due.yield ?_ hawake.ready
    by_cases hi : i = s.sched.current
    · subst hi
      refine ⟨fun hu => ?_, .inr ?_⟩
      · cases (sleep_self s _ _).symm.trans hu
      · have hpassed := hawake.passed _ hawake.running
        exact h.2.elim (fun hd => hd.trans hpassed) id
    · rw [Due]
      dsimp only
      rw [sleep_of_ne hi]
      exact h
  | tick preempts =>
    rw [Clock.step]
    split
    · exact (h.count hrange).yield hawake.ready
    · exact h.count hrange

/-- `Sleep` sets the deadline. -/
theorem Awake.due (h : s.Awake) (ms : UInt32) :
    Due s.sched.current (s.deadline ms.toNat) (s.step (.sleep ms)) := by
  rw [step_sleep h.ready]
  refine Due.yield ⟨fun hu => ?_, .inl le_rfl⟩ h.ready
  cases (sleep_self s _ _).symm.trans hu

/-- A task that runs has no deadline ahead. -/
theorem Awake.le_ticks (h : s.Awake) (hdue : Due s.sched.current d s) : d ≤ s.ticks :=
  hdue.2.elim (fun hd => hd.trans (h.passed _ h.running)) id

/-! ### Runs -/

theorem lts_step : (lts E).step s c s' ↔ s.InRange c ∧ s.step c = s' := by
  rw [lts, Lts.guard, Lts.det]
  simp

theorem Awake.keep (h : s.Awake) (hok : s.Relieved c) (hst : (lts E).step s c s') : s'.Awake := by
  obtain ⟨hrange, rfl⟩ := lts_step.1 hst
  exact h.step hrange hok

theorem Awake.due_keep (h : s.Awake) (hdue : Due i d s) (hst : (lts E).step s c s') :
    Due i d s' := by
  obtain ⟨hrange, rfl⟩ := lts_step.1 hst
  exact hdue.step h hrange

theorem Awake.not_ready_of_step (h : s.Awake) (hok : ¬ s.Relieved c)
    (hst : (lts E).step s c s') : s'.running.state ≠ .ready := by
  obtain ⟨hrange, rfl⟩ := lts_step.1 hst
  exact h.not_ready hrange hok

/-- **A `Sleep` lasts until its deadline** in a run in which every `Sleep` finds another task. -/
theorem Awake.deadline_le (h : s.Awake) {ms : UInt32} {later : List (Call E)}
    (hrun : (lts E).Run s (.sleep ms :: later) s')
    (hok : ∀ pre c t t', pre ++ [c] <+: .sleep ms :: later → (lts E).Run s pre t →
      (lts E).step t c t' → t.Relieved c)
    (hcur : s'.sched.current = s.sched.current) : s.deadline ms.toNat ≤ s'.ticks := by
  obtain ⟨s₁, hst, hlater⟩ := hrun.head
  have hawake : s₁.Awake := h.keep (hok [] _ s s₁ (by simp) .nil hst) hst
  have hdue : Due s.sched.current (s.deadline ms.toNat) s₁ := by
    obtain ⟨-, rfl⟩ := lts_step.1 hst
    exact h.due ms
  -- behind the call the deadline lasts, and only tasks that are awake run
  have hend := hlater.invariant_of_ok
    (I := fun t => t.Awake ∧ Due s.sched.current (s.deadline ms.toNat) t) ⟨hawake, hdue⟩
    (fun t c t' hI hok hst => ⟨hI.1.keep hok hst, hI.1.due_keep hI.2 hst⟩)
    fun pre c t t' hle hpre => by
      refine hok (.sleep ms :: pre) c t t' ((List.prefix_cons_inj _).2 hle) ?_
      exact (Lts.Run.snoc .nil hst).append hpre
  exact hend.1.le_ticks (hcur.symm ▸ hend.2)

/-- **Nobody runs who sleeps**, in exactly the runs in which every `Sleep` finds another task to
run. -/
theorem sleepsThrough_iff (esp : E) (now : ℕ) (cs : List (Call E)) :
    SleepsThrough (boot esp now) cs ↔
      ∀ pre c s s', pre ++ [c] <+: cs → (lts E).Run (boot esp now) pre s → (lts E).step s c s' →
        s.Relieved c := by
  have hready : (∀ pre s, pre <+: cs → (lts E).Run (boot esp now) pre s →
      s.running.state = .ready) ↔ _ :=
    Lts.Run.forall_iff (I := Awake) cs (awake_boot esp now) (fun _ h => h.running)
      (fun _ _ _ => Awake.keep) fun _ _ _ => Awake.not_ready_of_step
  refine ⟨fun h => hready.1 h.ready, fun hok => ⟨hready.2 hok, ?_⟩⟩
  intro pre ms later s s' hle hpre hlater hcur
  have hawake : s.Awake := by
    refine hpre.invariant_of_ok (awake_boot esp now) (fun _ _ _ => Awake.keep) ?_
    intro pre' c t t' h
    exact hok pre' c t t' (h.trans ((List.prefix_append _ _).trans hle))
  refine hawake.deadline_le hlater (fun pre' c t t' h hrun => hok (pre ++ pre') c t t' ?_ ?_) hcur
  · rw [List.append_assoc]
    exact ((List.prefix_append_right_inj _).2 h).trans hle
  · exact hpre.append hrun

/-- The kernel sleeps before it has spawned a task, and goes on at once. -/
theorem not_sleepsThrough_alone : ¬ ∀ (esp : ℕ) now cs, SleepsThrough (boot esp now) cs := by
  intro hall
  have hrange : (boot 0 0).InRange (.sleep 50) := by
    show 0 + sleepTicks 50 < 2 ^ 32
    decide
  have hready := (hall 0 0 [.sleep 50]).ready [.sleep 50] _ (List.prefix_refl _)
    (.snoc .nil (lts_step.2 ⟨hrange, rfl⟩))
  exact absurd hready (by decide)

end Clock

/-! ### The runs of the machine -/

namespace Machine

/-- The scheduler and the tick count of the machine. -/
def clock (s : Machine) : Clock ℕ := ⟨s.sched, s.ticks⟩

/-- The tick count and the deadlines stay below `2 ^ 32`. -/
def InRange (s : Machine) : Event → Prop
  | .sleep ms => s.ticks + sleepTicks ms.toNat < 2 ^ 32
  | .handler => s.place = .entered → s.ticks + 1 < 2 ^ 32
  | _ => True

variable {s s' : Machine} {e : Event}

theorem clock_yield (s : Machine) (how : Suspension) (back : Place) :
    (s.yield how back).clock = s.clock.yield := by
  unfold yield Clock.yield clock
  dsimp only
  split
  · rfl
  · split <;> rfl

theorem clock_sleep (s : Machine) (ms : ℕ) : (s.sleep ms).clock = s.clock.sleep ms := by
  unfold sleep Clock.sleep
  split
  · rename_i h
    rw [if_pos (show (!s.clock.sched.ready) = true from h)]
  · rename_i h
    rw [if_neg (show ¬ (!s.clock.sched.ready) = true from h), clock_yield]
    rfl

theorem clock_spawn (s : Machine) (stack : ℕ) (name : List UInt8) :
    (s.spawn stack name).clock =
      { s.clock with sched := (s.sched.spawn stack (preparedEsp stack) name).1 } := by
  unfold spawn
  split <;> (rename_i heq; rw [heq]; rfl)

/-- Whether a tick preempts is decided by `Timer::Handler` and `PreemptiveYield`. -/
theorem clock_timerHandler (s : Machine) :
    ∃ preempts, s.timerHandler.clock = s.clock.step (.tick preempts) := by
  unfold timerHandler
  dsimp only
  split
  · unfold preemptiveYield
    split
    · exact ⟨false, rfl⟩
    · split
      · exact ⟨false, rfl⟩
      · exact ⟨true, clock_yield _ _ _⟩
  · exact ⟨false, rfl⟩

/-- **A step of the machine is a call or a tick**, or touches neither the scheduler nor the tick
count. -/
theorem step_clock (hst : s.step e = some s') (hrange : s.InRange e) :
    s'.clock = s.clock ∨ ∃ c, s.clock.InRange c ∧ s'.clock = s.clock.step c := by
  cases e with
  | spawn stack name =>
    obtain ⟨-, ⟨⟩⟩ := Option.ite_none_right_eq_some.1 hst
    exact .inr ⟨.spawn stack (preparedEsp stack.toNat) name, trivial, clock_spawn _ _ _⟩
  | yield =>
    obtain ⟨-, ⟨⟩⟩ := Option.ite_none_right_eq_some.1 hst
    exact .inr ⟨.yield, trivial, clock_yield _ _ _⟩
  | sleep ms =>
    obtain ⟨-, ⟨⟩⟩ := Option.ite_none_right_eq_some.1 hst
    exact .inr ⟨.sleep ms, hrange, clock_sleep _ _⟩
  | hlt =>
    obtain ⟨-, ⟨⟩⟩ := Option.ite_none_right_eq_some.1 hst
    exact .inl rfl
  | tick =>
    obtain ⟨-, ⟨⟩⟩ := Option.ite_none_right_eq_some.1 hst
    exact .inl rfl
  | handler =>
    change s.handlerStep = some s' at hst
    unfold handlerStep at hst
    split at hst
    · cases hst
    · cases hst
    · rename_i hplace
      cases hst
      obtain ⟨preempts, heq⟩ := clock_timerHandler s
      exact .inr ⟨.tick preempts, hrange hplace, heq⟩
    · cases hst
      exact .inl rfl
    · cases hst
      exact .inl rfl
    · cases hst
      exact .inl rfl

/-- **The runs of the machine are runs of the clock.** -/
theorem run_clock (h : (lts.guard InRange).Reachable s) : (Clock.lts ℕ).Reachable s.clock := by
  refine h.induct (I := fun s => (Clock.lts ℕ).Reachable s.clock) (fun s hs => ?_) ?_
  · cases hs
    exact .of_init ⟨0, 0, rfl⟩
  · rintro s e s' hs ⟨hrange, hst⟩
    rcases step_clock hst hrange with heq | ⟨c, hc, heq⟩
    · rwa [heq]
    · exact hs.step (l := c) (Clock.lts_step.2 ⟨hc, heq.symm⟩)

end Machine

end Shiro
