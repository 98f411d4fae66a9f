import Mathlib.Logic.Function.Basic
import Shiro.Lib.Word

/-!
# The task table

`System::Scheduler` keeps eight slots.  A slot is filled once, by `Spawn`, and from then on its
task is ready or asleep; `PickNext` goes round the table from the slot behind the running one and
wakes the sleepers it meets.  The table is generic in the type `E` of saved stack pointers.

* `Task`, `Sched` : the slots and the static variables of `System::Scheduler`.
* `Sched.pickNext`, `Sched.spawn`, `Sched.sleep`, `Sched.switchTo` : what its functions do to them.
* `pickNext_cases` : **what `PickNext` returns and changes.**
* `pickNext_eq_current_iff` : when the running task stays.
* `spawn_cases` : **what `Spawn` returns and changes.**
-/

namespace Shiro

/-- `MAX_TASKS`. -/
abbrev maxTasks : ℕ := 8

/-- `STACK_SIZE`. -/
def stackSize : ℕ := 4096

/-- `Timer::TICK_HZ`. -/
def tickHz : ℕ := 100

/-- `Timer::PREEMPT_EVERY`. -/
def preemptEvery : ℕ := 5

/-- An index of the table. -/
abbrev Slot := Fin maxTasks

/-- `task_state`. -/
inductive TaskState where
  | unused
  | ready
  | sleeping
  | done
  deriving DecidableEq, Repr

/-- `task_t`. -/
structure Task (E : Type*) where
  esp : E
  stackBase : ℕ
  stackTop : ℕ
  sleepUntil : ℕ
  state : TaskState
  id : ℕ
  name : List UInt8
  yields : ℕ
  deriving DecidableEq, Repr

/-- The static variables of `System::Scheduler`. -/
structure Sched (E : Type*) where
  tasks : Slot → Task E
  current : Slot
  spawnedCount : ℕ
  ready : Bool

variable {E : Type*}

namespace Task

/-- `PickNext` may take a task at tick `now`. -/
def Runnable (now : ℕ) (t : Task E) : Prop :=
  t.state = .ready ∨ t.state = .sleeping ∧ t.sleepUntil ≤ now

instance (now : ℕ) (t : Task E) : Decidable (t.Runnable now) :=
  inferInstanceAs (Decidable (_ ∨ _))

/-- A sleeper whose deadline has passed becomes ready. -/
def wake (now : ℕ) (t : Task E) : Task E :=
  if t.state = .sleeping ∧ t.sleepUntil ≤ now then { t with state := .ready } else t

variable {now : ℕ} {t : Task E}

@[simp] theorem wake_esp (now : ℕ) (t : Task E) : (t.wake now).esp = t.esp := by
  unfold wake; split <;> rfl

@[simp] theorem wake_sleepUntil (now : ℕ) (t : Task E) :
    (t.wake now).sleepUntil = t.sleepUntil := by
  unfold wake; split <;> rfl

theorem wake_state_eq_ready_iff : (t.wake now).state = .ready ↔ t.Runnable now := by
  unfold wake Runnable
  split
  · rename_i h
    exact iff_of_true rfl (.inr h)
  · rename_i h
    exact ⟨.inl, fun h' => h'.resolve_right h⟩

theorem wake_state_eq_unused_iff : (t.wake now).state = .unused ↔ t.state = .unused := by
  unfold wake
  split
  · rename_i h
    simp [h.1]
  · rfl

/-- A task that is not runnable stays as it is. -/
theorem wake_of_not_runnable (h : ¬ t.Runnable now) : t.wake now = t :=
  if_neg fun hs => h (.inr hs)

theorem Runnable.ne_unused (h : t.Runnable now) : t.state ≠ .unused := by
  intro hu
  rcases h with h | h
  · rw [hu] at h
    cases h
  · rw [hu] at h
    cases h.1

end Task

namespace Sched

/-- `(current + step) % MAX_TASKS`. -/
def slot (current : Slot) (step : ℕ) : Slot := Fin.ofNat maxTasks (current + step)

/-! ### The functions of the scheduler -/

/-- `strcpy` of at most 15 bytes and a NUL into the name of a slot. -/
def copyName (old name : List UInt8) : List UInt8 :=
  let cs := (name.takeWhile (· ≠ 0)).take 15
  cs ++ 0 :: old.drop (cs.length + 1)

/-- The slot of the flow that calls `Start`. -/
def kernel : Slot := 0

/-- `"kernel"`. -/
def kernelName : List UInt8 := [107, 101, 114, 110, 101, 108]

/-- A slot as `Scheduler::Start` leaves it. -/
def emptyTask (esp : E) : Task E := ⟨esp, 0, 0, 0, .unused, 2 ^ 32 - 1, List.replicate 16 0, 0⟩

/-- `Scheduler::Start()`, where `esp` stands for the null pointer. -/
def start (esp : E) : Sched E where
  tasks := Function.update (fun _ => emptyTask esp) kernel
    { emptyTask esp with
      state := .ready
      id := 0
      name := copyName (emptyTask esp).name kernelName }
  current := kernel
  spawnedCount := 1
  ready := true

/-- The loop of `PickNext`: at most `n` rounds from `step` on. -/
def pickLoop (now : ℕ) (current : Slot) : ℕ → ℕ → (Slot → Task E) → (Slot → Task E) × Slot
  | 0, _, tasks => (tasks, current)
  | n + 1, step, tasks =>
    let idx := slot current step
    let tasks := Function.update tasks idx ((tasks idx).wake now)
    if (tasks idx).state = .ready then (tasks, idx) else pickLoop now current n (step + 1) tasks

/-- `PickNext()` at tick `now`: the table after it, and the slot it returns. -/
def pickNext (s : Sched E) (now : ℕ) : Sched E × Slot :=
  let r := pickLoop now s.current maxTasks 1 s.tasks
  ({ s with tasks := r.1 }, r.2)

/-- What `Yield` does to the table when it switches to `next`. -/
def switchTo (s : Sched E) (next : Slot) : Sched E :=
  let prev := s.tasks s.current
  { s with
    tasks := Function.update s.tasks s.current { prev with yields := u32 (prev.yields + 1) }
    current := next }

/-- The slot that `Spawn` finds. -/
def freeSlot (s : Sched E) : Option Slot :=
  (List.finRange maxTasks).find? fun i => (s.tasks i).state = .unused

/-- `Spawn(entry, name)`, where `stack` is what `Heap::Alloc(STACK_SIZE)` returns and `esp` points
to the frame prepared on it.  The value returned is `none` for `-1`. -/
def spawn (s : Sched E) (stack : ℕ) (esp : E) (name : List UInt8) : Sched E × Option Slot :=
  if !s.ready then (s, none)
  else
    match s.freeSlot with
    | none => (s, none)
    | some i =>
      if stack = 0 then (s, none)
      else
        ({ s with
           tasks := Function.update s.tasks i
             { esp := esp
               stackBase := stack
               stackTop := u32 (stack + stackSize)
               sleepUntil := 0
               state := .ready
               id := s.spawnedCount
               name := copyName (s.tasks i).name name
               yields := 0 }
           spawnedCount := u32 (s.spawnedCount + 1) }, some i)

/-- The ticks that `Sleep(ms)` waits. -/
def sleepTicks (ms : ℕ) : ℕ :=
  let ticks := u32 (ms * tickHz) / 1000
  if ticks = 0 then 1 else ticks

/-- What `Sleep(ms)` does at tick `now` before it yields. -/
def sleep (s : Sched E) (now ms : ℕ) : Sched E :=
  let t := s.tasks s.current
  { s with
    tasks := Function.update s.tasks s.current
      { t with sleepUntil := u32 (now + sleepTicks ms), state := .sleeping } }

theorem start_of_ne (e : E) {i : Slot} (hi : i ≠ kernel) : (start e).tasks i = emptyTask e := by
  simp only [start, Function.update_of_ne hi]

@[simp] theorem start_esp (e : E) (i : Slot) : ((start e).tasks i).esp = e := by
  by_cases hi : i = kernel
  · subst hi
    rfl
  · rw [start_of_ne e hi, emptyTask]

theorem start_state (e : E) (i : Slot) :
    ((start e).tasks i).state = if i = kernel then .ready else .unused := by
  by_cases hi : i = kernel
  · subst hi
    rfl
  · rw [start_of_ne e hi, if_neg hi, emptyTask]

/-! ### `PickNext` -/

variable {now n step : ℕ} {c : Slot} {tasks : Slot → Task E} {s : Sched E}

/-- A round that finds no runnable task changes nothing. -/
theorem pickLoop_succ (now : ℕ) (c : Slot) (n step : ℕ) (tasks : Slot → Task E) :
    pickLoop now c (n + 1) step tasks =
      if (tasks (slot c step)).Runnable now then
        (Function.update tasks (slot c step) ((tasks (slot c step)).wake now), slot c step)
      else pickLoop now c n (step + 1) tasks := by
  simp only [pickLoop, Function.update_self, Task.wake_state_eq_ready_iff]
  by_cases h : (tasks (slot c step)).Runnable now
  · rw [if_pos h, if_pos h]
  · rw [if_neg h, if_neg h, Task.wake_of_not_runnable h, Function.update_eq_self]

/-- The loop stops at the first runnable task, or falls back to the running one. -/
theorem pickLoop_cases (now : ℕ) (c : Slot) (n step : ℕ) (tasks : Slot → Task E) :
    (∃ k < n, (∀ j < k, ¬ (tasks (slot c (step + j))).Runnable now) ∧
      (tasks (slot c (step + k))).Runnable now ∧
      pickLoop now c n step tasks =
        (Function.update tasks (slot c (step + k)) ((tasks (slot c (step + k))).wake now),
          slot c (step + k))) ∨
    (∀ k < n, ¬ (tasks (slot c (step + k))).Runnable now) ∧
      pickLoop now c n step tasks = (tasks, c) := by
  induction n generalizing step with
  | zero => exact .inr ⟨fun _ h => absurd h (Nat.not_lt_zero _), rfl⟩
  | succ n ih =>
    rw [pickLoop_succ]
    by_cases hr : (tasks (slot c step)).Runnable now
    · rw [if_pos hr]
      exact .inl ⟨0, n.succ_pos, fun _ h => absurd h (Nat.not_lt_zero _), hr, rfl⟩
    · rw [if_neg hr]
      have hshift : ∀ k, step + 1 + k = step + (k + 1) := fun k => by omega
      rcases ih (step + 1) with ⟨k, hk, hbefore, hat, heq⟩ | ⟨hnone, heq⟩
      · rw [hshift] at hat heq
        refine .inl ⟨k + 1, by omega, fun j hj => ?_, hat, heq⟩
        cases j with
        | zero => exact hr
        | succ j => exact hshift j ▸ hbefore j (by omega)
      · refine .inr ⟨fun k hk => ?_, heq⟩
        cases k with
        | zero => exact hr
        | succ k => exact hshift k ▸ hnone k (by omega)

theorem val_slot (c : Slot) (step : ℕ) : (slot c step : ℕ) = (c + step) % 8 := rfl

/-- The steps of the loop reach every slot. -/
theorem exists_slot (c i : Slot) : ∃ k < 8, slot c (1 + k) = i := by
  have hc : (c : ℕ) < 8 := c.isLt
  have hi : (i : ℕ) < 8 := i.isLt
  refine ⟨(i + 7 - c) % 8, by omega, Fin.ext ?_⟩
  rw [val_slot]
  omega

/-- **What `PickNext` returns and changes**: a runnable task, which it wakes, or the running one if
no task is runnable. -/
theorem pickNext_cases (s : Sched E) (now : ℕ) :
    (∃ i, (s.tasks i).Runnable now ∧
      s.pickNext now =
        ({ s with tasks := Function.update s.tasks i ((s.tasks i).wake now) }, i)) ∨
    (∀ i, ¬ (s.tasks i).Runnable now) ∧ s.pickNext now = (s, s.current) := by
  rcases pickLoop_cases now s.current 8 1 s.tasks with ⟨k, -, -, hat, heq⟩ | ⟨hnone, heq⟩
  · exact .inl ⟨_, hat, by rw [pickNext, heq]⟩
  · refine .inr ⟨fun i => ?_, by rw [pickNext, heq]⟩
    obtain ⟨k, hk, rfl⟩ := exists_slot s.current i
    exact hnone k hk

/-- `PickNext` changes the state of tasks only. -/
theorem pickNext_esp (s : Sched E) (now : ℕ) (i : Slot) :
    ((s.pickNext now).1.tasks i).esp = (s.tasks i).esp := by
  rcases pickNext_cases s now with ⟨j, -, heq⟩ | ⟨-, heq⟩
  · rw [heq]
    dsimp only
    rw [Function.update_apply]
    split
    · rename_i hi
      rw [hi, Task.wake_esp]
    · rfl
  · rw [heq]

theorem pickNext_unused (s : Sched E) (now : ℕ) (i : Slot) :
    ((s.pickNext now).1.tasks i).state = .unused ↔ (s.tasks i).state = .unused := by
  rcases pickNext_cases s now with ⟨j, -, heq⟩ | ⟨-, heq⟩
  · rw [heq]
    dsimp only
    rw [Function.update_apply]
    split
    · rename_i hi
      rw [hi, Task.wake_state_eq_unused_iff]
    · rfl
  · rw [heq]

/-- A task that `PickNext` picks is in use. -/
theorem pickNext_used {s : Sched E} {now : ℕ} (h : (s.pickNext now).2 ≠ s.current) :
    (s.tasks (s.pickNext now).2).state ≠ .unused := by
  rcases pickNext_cases s now with ⟨j, hj, heq⟩ | ⟨-, heq⟩
  · rw [heq]
    exact hj.ne_unused
  · exact absurd (congrArg Prod.snd heq) h

/-- **The running task stays** exactly when no other is runnable. -/
theorem pickNext_eq_current_iff (s : Sched E) (now : ℕ) :
    (s.pickNext now).2 = s.current ↔ ∀ i, i ≠ s.current → ¬ (s.tasks i).Runnable now := by
  have hlt : (s.current : ℕ) < 8 := s.current.isLt
  rcases pickLoop_cases now s.current 8 1 s.tasks with ⟨k, hk, hbefore, hat, heq⟩ | ⟨hnone, heq⟩
  · have hpick : (s.pickNext now).2 = slot s.current (1 + k) := by rw [pickNext, heq]
    rw [hpick]
    constructor
    · intro hc i hi hr
      obtain ⟨j, hj, rfl⟩ := exists_slot s.current i
      -- only the last of the eight steps comes back to the running task
      have hk7 : k = 7 := by
        have := congrArg Fin.val hc
        rw [val_slot] at this
        omega
      have hj7 : j ≠ 7 := by
        rintro rfl
        exact hi (hk7 ▸ hc)
      exact hbefore j (by omega) hr
    · intro h
      by_contra hc
      exact h _ hc hat
  · have hpick : (s.pickNext now).2 = s.current := by rw [pickNext, heq]
    refine iff_of_true hpick fun i _ => ?_
    obtain ⟨k, hk, rfl⟩ := exists_slot s.current i
    exact hnone k hk

/-- Waking a task changes nothing but its state. -/
theorem update_wake (tasks : Slot → Task E) {i : Slot} (h : (tasks i).Runnable now) (j : Slot) :
    (Function.update tasks i ((tasks i).wake now) j).sleepUntil = (tasks j).sleepUntil ∧
      (Function.update tasks i ((tasks i).wake now) j).state =
        if j = i then .ready else (tasks j).state := by
  by_cases hj : j = i
  · subst hj
    rw [Function.update_self, if_pos rfl]
    exact ⟨Task.wake_sleepUntil now _, Task.wake_state_eq_ready_iff.2 h⟩
  · rw [Function.update_of_ne hj, if_neg hj]
    exact ⟨rfl, rfl⟩

/-- Switching counts a yield. -/
theorem switchTo_tasks (s : Sched E) (next j : Slot) :
    ((s.switchTo next).tasks j).sleepUntil = (s.tasks j).sleepUntil ∧
      ((s.switchTo next).tasks j).state = (s.tasks j).state := by
  rw [switchTo]
  dsimp only
  rw [Function.update_apply]
  split
  · rename_i hj
    rw [hj]
    exact ⟨rfl, rfl⟩
  · exact ⟨rfl, rfl⟩

/-! ### `Spawn` -/

variable {stack : ℕ} {esp : E} {name : List UInt8} {i : Slot}

theorem freeSlot_unused (h : s.freeSlot = some i) : (s.tasks i).state = .unused := by
  simpa using List.find?_some h

/-- What `Spawn` stores into slot `i`. -/
def newTask (s : Sched E) (stack : ℕ) (esp : E) (name : List UInt8) (i : Slot) : Task E where
  esp := esp
  stackBase := stack
  stackTop := u32 (stack + stackSize)
  sleepUntil := 0
  state := .ready
  id := s.spawnedCount
  name := copyName (s.tasks i).name name
  yields := 0

/-- **What `Spawn` returns and changes**: nothing, or it fills the first unused slot. -/
theorem spawn_cases (s : Sched E) (stack : ℕ) (esp : E) (name : List UInt8) :
    s.spawn stack esp name = (s, none) ∧ (s.ready = false ∨ s.freeSlot = none ∨ stack = 0) ∨
    ∃ i, s.freeSlot = some i ∧ stack ≠ 0 ∧
      s.spawn stack esp name =
        ({ s with
           tasks := Function.update s.tasks i (s.newTask stack esp name i)
           spawnedCount := u32 (s.spawnedCount + 1) }, some i) := by
  unfold spawn
  cases hready : s.ready with
  | false => exact .inl ⟨rfl, .inl rfl⟩
  | true =>
    cases hfree : s.freeSlot with
    | none => exact .inl ⟨rfl, .inr (.inl rfl)⟩
    | some i =>
      by_cases hstack : stack = 0
      · exact .inl ⟨if_pos hstack, .inr (.inr hstack)⟩
      · exact .inr ⟨i, rfl, hstack, if_neg hstack⟩

end Sched

end Shiro
