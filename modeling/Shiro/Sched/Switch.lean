import Shiro.Lib.Lts
import Shiro.Sched.Table

/-!
# Context switches, statement by statement

The tasks run `Yield`, `Sleep` and `Spawn` one statement at a time, and while interrupts are on the
timer may interrupt them between any two.  The handler itself runs with interrupts off; up to its
switch it is one step.

A stack pointer is abstract: it tells whose stack it points into and which push it was saved
behind.  `Cpu.last` records, beside the code's own state, the pointer that a task was last
suspended with.

* `YieldPc`, `SleepPc`, `SpawnPc`, `HandlerPc` : where a task stands, with its local variables.
* `Cpu`, `Cpu.step` : the machine and its steps.
* `Cpu.lts` : its runs from boot.
-/

namespace Shiro

open Sched

/-- A stack pointer: the task on whose stack it points, and the serial number of the push behind
which it was saved.  `none` stands for the null pointer. -/
structure StackPtr where
  owner : Slot
  serial : ℕ
  deriving DecidableEq, Repr

/-! ### Program points -/

/-- The statements of `Yield`, `PickNext` and `switch_task`. -/
inductive YieldPc where
  /-- `if (!ready) return;` -/
  | check
  /-- `now = GetTicks();` -/
  | ticks
  /-- `idx = (current + step) % MAX_TASKS;` -/
  | index (now step : ℕ)
  /-- An expired sleeper becomes ready. -/
  | wake (now step : ℕ) (idx : Slot)
  /-- `if (tasks[idx].state == TASK_READY) return idx;` -/
  | test (now step : ℕ) (idx : Slot)
  /-- `if (next == current) return;` -/
  | compare (next : Slot)
  /-- `prev = current;` -/
  | prev (next : Slot)
  /-- `current = next;` -/
  | current (prev next : Slot)
  /-- `tasks[prev].yields++;` -/
  | count (prev next : Slot)
  /-- `tasks[next].esp` is pushed. -/
  | push (prev next : Slot)
  /-- `mov [eax], esp` -/
  | save (prev next : Slot) (esp : Option StackPtr)
  /-- `mov esp, [esp + 24]` -/
  | load (next : Slot) (esp : Option StackPtr)
  /-- `ret` -/
  | ret
  deriving DecidableEq

/-- The statements of `Sleep`. -/
inductive SleepPc where
  /-- `if (!ready) return;` -/
  | check (ms : ℕ)
  /-- `tasks[current].sleep_until = GetTicks() + ticks;` -/
  | deadline (ticks : ℕ)
  /-- `tasks[current].state = TASK_SLEEPING;` -/
  | state
  deriving DecidableEq

/-- The fields that `Spawn` stores behind `esp`, in its order. -/
inductive Field where
  | stackBase
  | stackTop
  | sleepUntil
  | state
  | id
  | yields
  | name
  deriving DecidableEq

/-- The field that is stored behind this one. -/
def Field.next : Field → Option Field
  | .stackBase => some .stackTop
  | .stackTop => some .sleepUntil
  | .sleepUntil => some .state
  | .state => some .id
  | .id => some .yields
  | .yields => some .name
  | .name => none

/-- The store of this field for the task number `count`. -/
def Field.store {E : Type*} (name : List UInt8) (stack count : ℕ) (t : Task E) : Field → Task E
  | .stackBase => { t with stackBase := stack }
  | .stackTop => { t with stackTop := u32 (stack + stackSize) }
  | .sleepUntil => { t with sleepUntil := 0 }
  | .state => { t with state := .ready }
  | .id => { t with id := count }
  | .yields => { t with yields := 0 }
  | .name => { t with name := copyName t.name name }

@[simp] theorem Field.store_esp {E : Type*} (name : List UInt8) (stack count : ℕ) (t : Task E)
    (f : Field) : (f.store name stack count t).esp = t.esp := by
  cases f <;> simp only [store]

theorem Field.store_used {E : Type*} (name : List UInt8) (stack count : ℕ) {t : Task E}
    (f : Field) (h : t.state ≠ .unused) : (f.store name stack count t).state ≠ .unused := by
  cases f <;> simp only [store, ne_eq, h, reduceCtorEq, not_false_eq_true]

/-- The statements of `Spawn`. -/
inductive SpawnPc where
  /-- `if (!ready) return -1;` -/
  | check
  /-- A round of the search for a free slot. -/
  | search (i : ℕ)
  /-- `stack = Heap::Alloc(STACK_SIZE);` and the return if it is null. -/
  | alloc (slot : Slot)
  /-- The frame is prepared on the stack, and `tasks[slot].esp = sp;` -/
  | esp (slot : Slot) (stack : ℕ)
  /-- Another field of the slot. -/
  | store (f : Field) (slot : Slot) (stack : ℕ)
  deriving DecidableEq

/-- Where a task stands outside the timer handler. -/
inductive OwnPc where
  /-- In none of the functions of the scheduler. -/
  | code
  | yield (y : YieldPc)
  | sleep (p : SleepPc)
  | spawn (name : List UInt8) (p : SpawnPc)
  deriving DecidableEq

/-- Where a task stands in the timer handler. -/
inductive HandlerPc where
  /-- In the `Yield` that `PreemptiveYield` calls. -/
  | yield (y : YieldPc)
  /-- `in_preempt = false;` -/
  | leave
  /-- `EndOfInterrupt` -/
  | acknowledge
  /-- `sti` and `iret` -/
  | iret
  deriving DecidableEq

/-- The stack of a task: where it stands in its own code and, if it has been interrupted, in the
handler above. -/
structure Flow where
  own : OwnPc
  handler : Option HandlerPc
  deriving DecidableEq

/-- A task that begins. -/
def Flow.fresh : Flow := ⟨.code, none⟩

namespace Flow

/-- The statement of `Yield` that a task is at. -/
def yieldPc : Flow → Option YieldPc
  | ⟨_, some (.yield y)⟩ => some y
  | ⟨.yield y, none⟩ => some y
  | _ => none

/-- `Yield` goes on at `y`. -/
def goto (fl : Flow) (y : YieldPc) : Flow :=
  match fl.handler with
  | none => { fl with own := .yield y }
  | some _ => { fl with handler := some (.yield y) }

/-- `Yield` returns. -/
def finish (fl : Flow) : Flow :=
  match fl.handler with
  | none => { fl with own := .code }
  | some _ => { fl with handler := some .leave }

/-- The slot whose stack pointer `Spawn` is about to store. -/
def preparing : Flow → Option Slot
  | ⟨.spawn _ (.esp i _), none⟩ => some i
  | _ => none

end Flow

/-! ### The machine -/

/-- The scheduler, the timer, and the tasks. -/
structure Cpu where
  sched : Sched (Option StackPtr)
  /-- `Timer::ticks`. -/
  ticks : ℕ
  /-- `Timer::preempt_cb` is set. -/
  callback : Bool
  /-- IF. -/
  intr : Bool
  /-- `in_preempt` of `PreemptiveYield`. -/
  inPreempt : Bool
  /-- The timer interrupt in service has not been acknowledged. -/
  pending : Bool
  /-- The task whose stack the CPU is on. -/
  running : Slot
  flows : Slot → Flow
  /-- The pointer each task was last suspended with, or that `Spawn` first prepared for it. -/
  last : Slot → Option StackPtr
  /-- The next serial number. -/
  serial : ℕ

/-- What the tasks call. -/
inductive Call where
  | yield
  | sleep (ms : UInt32)
  | spawn (name : List UInt8)

/-- What happens. -/
inductive Move where
  /-- The running task calls the scheduler from its own code. -/
  | call (c : Call)
  /-- Its next statement. -/
  | next
  /-- `Heap::Alloc` returns `stack`. -/
  | alloc (stack : UInt32)
  /-- The timer interrupts it. -/
  | tick

namespace Cpu

/-- Behind the `sti` of `Shiro::Start`, with the scheduler just started. -/
def boot : Cpu where
  sched := Sched.start none
  ticks := 0
  callback := true
  intr := true
  inPreempt := false
  pending := false
  running := kernel
  flows := fun _ => .fresh
  last := fun _ => none
  serial := 0

/-- Where the running task stands. -/
def flow (s : Cpu) : Flow := s.flows s.running

/-- The running task goes on at `fl`. -/
def setFlow (s : Cpu) (fl : Flow) : Cpu := { s with flows := Function.update s.flows s.running fl }

/-- A store into a slot. -/
def modify (s : Cpu) (i : Slot) (f : Task (Option StackPtr) → Task (Option StackPtr)) : Cpu :=
  { s with sched := { s.sched with tasks := Function.update s.sched.tasks i (f (s.sched.tasks i)) } }

/-- The running task goes on at the statement `y` of `Yield`. -/
def goto (s : Cpu) (y : YieldPc) : Cpu := s.setFlow (s.flow.goto y)

/-- `Yield` returns. -/
def finish (s : Cpu) : Cpu := s.setFlow s.flow.finish

/-- `*old_esp_save = esp` for the slot `i`, by the running task. -/
def saveEsp (s : Cpu) (i : Slot) : Cpu :=
  let p : StackPtr := ⟨s.running, s.serial⟩
  { s.modify i fun t => { t with esp := some p } with
    last := Function.update s.last s.running (some p)
    serial := s.serial + 1 }

/-- `esp = p`: the CPU goes on on the stack of its owner.  The model stops at the null pointer and at
any other than the one the owner was last suspended with. -/
def loadEsp (s : Cpu) : Option StackPtr → Option Cpu
  | none => none
  | some p => if s.last p.owner = some p then some { s with running := p.owner } else none

/-- A statement of `Yield`. -/
def yieldNext (s : Cpu) : YieldPc → Option Cpu
  | .check => some (if !s.sched.ready then s.finish else s.goto .ticks)
  | .ticks => some (s.goto (.index s.ticks 1))
  | .index now step =>
    if step ≤ maxTasks then some (s.goto (.wake now step (slot s.sched.current step)))
    else some (s.goto (.compare s.sched.current))
  | .wake now step idx => some ((s.modify idx (·.wake now)).goto (.test now step idx))
  | .test now step idx =>
    if (s.sched.tasks idx).state = .ready then some (s.goto (.compare idx))
    else some (s.goto (.index now (step + 1)))
  | .compare next => some (if next = s.sched.current then s.finish else s.goto (.prev next))
  | .prev next => some (s.goto (.current s.sched.current next))
  | .current prev next =>
    some ({ s with sched := { s.sched with current := next } }.goto (.count prev next))
  | .count prev next =>
    some ((s.modify prev fun t => { t with yields := u32 (t.yields + 1) }).goto (.push prev next))
  | .push prev next => some (s.goto (.save prev next (s.sched.tasks next).esp))
  | .save prev next esp => some ((s.saveEsp prev).goto (.load next esp))
  | .load _ esp => (s.goto .ret).loadEsp esp
  | .ret => some s.finish

/-- The running task goes on at `o` in its own code. -/
def setOwn (s : Cpu) (o : OwnPc) : Cpu := s.setFlow ⟨o, s.flow.handler⟩

/-- A statement of `Sleep`. -/
def sleepNext (s : Cpu) : SleepPc → Cpu
  | .check ms =>
    if !s.sched.ready then s.setOwn .code else s.setOwn (.sleep (.deadline (sleepTicks ms)))
  | .deadline ticks =>
    (s.modify s.sched.current fun t => { t with sleepUntil := u32 (s.ticks + ticks) }).setOwn
      (.sleep .state)
  | .state =>
    (s.modify s.sched.current fun t => { t with state := .sleeping }).setOwn (.yield .check)

/-- The store of a field by `Spawn`, which counts the tasks it makes. -/
def storeField (s : Cpu) (name : List UInt8) (i : Slot) (stack : ℕ) (f : Field) : Cpu :=
  let t := s.modify i fun t => f.store name stack s.sched.spawnedCount t
  match f with
  | .id => { t with sched := { t.sched with spawnedCount := u32 (s.sched.spawnedCount + 1) } }
  | _ => t

/-- The store of the stack pointer by `Spawn`: a frame that returns to the entry of the task lies
on the new stack.  A second store into the slot does not change what its first task was given. -/
def prepare (s : Cpu) (i : Slot) : Cpu :=
  let p : StackPtr := ⟨i, s.serial⟩
  { s.modify i fun t => { t with esp := some p } with
    flows := Function.update s.flows i .fresh
    last := Function.update s.last i (if s.last i = none then some p else s.last i)
    serial := s.serial + 1 }

/-- A statement of `Spawn`. -/
def spawnNext (s : Cpu) (name : List UInt8) : SpawnPc → Option Cpu
  | .check => some (s.setOwn (if !s.sched.ready then .code else .spawn name (.search 0)))
  | .search i =>
    if h : i < maxTasks then
      if (s.sched.tasks ⟨i, h⟩).state = .unused then
        some (s.setOwn (.spawn name (.alloc ⟨i, h⟩)))
      else some (s.setOwn (.spawn name (.search (i + 1))))
    else some (s.setOwn .code)
  | .alloc _ => none
  | .esp i stack => some ((s.prepare i).setOwn (.spawn name (.store .stackBase i stack)))
  | .store f i stack =>
    some ((s.storeField name i stack f).setOwn
      (match f.next with
        | some f => .spawn name (.store f i stack)
        | none => .code))

/-- The running task goes on at `h` in the handler, or below it. -/
def setHandler (s : Cpu) (h : Option HandlerPc) : Cpu := s.setFlow ⟨s.flow.own, h⟩

/-- A statement of the timer handler. -/
def handlerNext (s : Cpu) : HandlerPc → Option Cpu
  | .yield y => s.yieldNext y
  | .leave => some ({ s with inPreempt := false }.setHandler (some .acknowledge))
  | .acknowledge => some ({ s with pending := false }.setHandler (some .iret))
  | .iret => some ({ s with intr := true }.setHandler none)

/-- The next statement of the running task. -/
def next (s : Cpu) : Option Cpu :=
  match s.flow.handler with
  | some h => s.handlerNext h
  | none =>
    match s.flow.own with
    | .code => none
    | .yield y => s.yieldNext y
    | .sleep p => some (s.sleepNext p)
    | .spawn name p => s.spawnNext name p

/-- The timer interrupt: the stub, `Timer::Handler` and `PreemptiveYield` up to the switch. -/
def tick (s : Cpu) : Cpu :=
  let now := u32 (s.ticks + 1)
  let s := { s with ticks := now, intr := false, pending := true }
  if s.callback && decide (now % preemptEvery = 0) && s.sched.ready && !s.inPreempt then
    let r := s.sched.pickNext now
    let h := if r.2 = s.sched.current then .leave else .yield (.prev r.2)
    { s with sched := r.1, inPreempt := true }.setHandler (some h)
  else s.setHandler (some .acknowledge)

/-- The call of a function of the scheduler. -/
def call (s : Cpu) : Call → Cpu
  | .yield => s.setOwn (.yield .check)
  | .sleep ms => s.setOwn (.sleep (.check ms.toNat))
  | .spawn name => s.setOwn (.spawn name .check)

/-- One step. -/
def step (s : Cpu) : Move → Option Cpu
  | .call c => if s.flow = .fresh then some (s.call c) else none
  | .next => s.next
  | .alloc stack =>
    match s.flow with
    | ⟨.spawn name (.alloc i), none⟩ =>
      some (s.setOwn (if stack = 0 then .code else .spawn name (.esp i stack.toNat)))
    | _ => none
  | .tick => if s.intr = true ∧ s.pending = false then some s.tick else none

/-- The runs of the machine from boot. -/
def lts : Lts Cpu Move := Lts.det (· = boot) step

end Cpu

end Shiro
