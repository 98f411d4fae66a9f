import Shiro.Heap.Grant
import Shiro.Sched.Frames
import Shiro.Sched.Sleep

/-!
# Tasks and their stacks

`Spawn` couples the task table with the heap: it searches a slot, allocates a stack, prepares the
frame on it and fills the slot.  Here the two run together: the scheduler's calls and ticks, each of
them one step, and the calls of the other clients of the heap, which keep to their own memory.

* `Multitask`, `Multitask.Step` : the scheduler over the heap.
* `Multitask.Sound` : the table is filled from slot 0 on, and each task but the kernel has a stack
  of its own.
* `SpawnLaw` : what a call of `Spawn` returns and changes.
* `sound_of_room` : **every reachable state is sound and obeys the law**, if the heap has room.
-/

namespace Shiro

open Sched FreeList

variable {E : Type*}

/-- The scheduler and the heap. -/
structure Multitask where
  clock : Clock ℕ
  client : Heap.Client
  /-- The task has had the CPU. -/
  started : Slot → Bool

namespace Multitask

/-- The static variables of `System::Scheduler`. -/
abbrev sched (s : Multitask) : Sched ℕ := s.clock.sched

/-- `Scheduler::Start()` at tick `now`. -/
def boot (now : ℕ) (c : Heap.Client) : Multitask := ⟨Clock.boot 0 now, c, fun i => i == kernel⟩

/-- `Spawn(entry, name)`: the state afterwards, and the slot returned. -/
def spawn (s : Multitask) (entry : UInt32) (name : List UInt8) :
    Option (Multitask × Option Slot) :=
  if !s.sched.ready then some (s, none)
  else
    match s.sched.freeSlot with
    | none => some (s, none)
    | some i =>
      (s.client.heap.alloc stackSize).map fun (h, stack) =>
        if stack = 0 then ({ s with client := { s.client with heap := h } }, none)
        else
          let p := prepareStack h.mem (.ofNat (stack + stackSize)) entry
          let r := s.sched.spawn stack p.2.toNat name
          ({ clock := { s.clock with sched := r.1 }
             client := ⟨{ h with mem := p.1 }, (stack, stackSize) :: s.client.live⟩
             started := Function.update s.started i false }, r.2)

/-- `t` is what the scheduler has become.  If it has switched, `switch_task` has stored the stack
pointer `sp` of the task that ran before. -/
def switch (s : Multitask) (t : Clock ℕ) (sp : UInt32) : Multitask :=
  let prev := s.sched.current
  if t.sched.current = prev then { s with clock := t }
  else
    { s with
      clock := { t with sched := { t.sched with
        tasks := Function.update t.sched.tasks prev { t.sched.tasks prev with esp := sp.toNat } } }
      started := Function.update s.started t.sched.current true }

/-- What happens. -/
inductive Op where
  | spawn (entry : UInt32) (name : List UInt8)
  /-- `Yield()`, with the stack pointer at `sp` in `switch_task`. -/
  | yield (sp : UInt32)
  /-- `Sleep(ms)`. -/
  | sleep (ms sp : UInt32)
  /-- `Timer::Handler()`. -/
  | tick (preempts : Bool) (sp : UInt32)
  /-- Another client of the heap does something. -/
  | client (op : Heap.Op)

/-- The steps.  Nobody frees the stack of a task. -/
inductive Step : Multitask → Op → Multitask → Prop
  | spawn {s s' : Multitask} {entry : UInt32} {name : List UInt8} {i : Option Slot} :
      s.spawn entry name = some (s', i) → Step s (.spawn entry name) s'
  | yield {s : Multitask} {sp : UInt32} : Step s (.yield sp) (s.switch s.clock.yield sp)
  | sleep {s : Multitask} {ms sp : UInt32} :
      Step s (.sleep ms sp) (s.switch (s.clock.sleep ms.toNat) sp)
  | tick {s : Multitask} {preempts : Bool} {sp : UInt32} :
      Step s (.tick preempts sp)
        (s.switch (if preempts then s.clock.count.yield else s.clock.count) sp)
  | client {s : Multitask} {op : Heap.Op} {c : Heap.Client} :
      s.client.Step op c →
      (∀ p, op = .free p → p ≠ 0 → ∀ i, (s.sched.tasks i).stackBase ≠ p) →
      Step s (.client op) { s with client := c }

/-- The runs from `Scheduler::Start` on, over a heap that clients have used before. -/
def lts (m : Mem) (kernelEnd baseHint : UInt32) : Lts Multitask Op where
  init s := ∃ now c, (Heap.clientLts m kernelEnd baseHint).Reachable c ∧ s = boot now c
  step := Step

/-- The block `b` of the heap is in use, and it is the stack of task `i`. -/
structure StackBlock (s : Multitask) (i : Slot) (b : Block) : Prop where
  mem : ∃ bs, s.client.heap.blocks = some bs ∧ b ∈ bs
  used : b.used = true
  base : (s.sched.tasks i).stackBase = b.addr + Heap.headerSize
  size : stackSize ≤ b.size

/-- The task table is filled from slot 0 on, and each task but the kernel has a stack of its own. -/
structure Sound (s : Multitask) : Prop where
  count_le : s.sched.spawnedCount ≤ maxTasks
  used : ∀ i, (s.sched.tasks i).state ≠ .unused ↔ (i : ℕ) < s.sched.spawnedCount
  id : ∀ i, (s.sched.tasks i).state ≠ .unused → (s.sched.tasks i).id = i
  name : ∀ i, (s.sched.tasks i).name.length = 16 ∧ 0 ∈ (s.sched.tasks i).name
  kernel : (s.sched.tasks kernel).stackBase = 0
  stack : ∀ i, (s.sched.tasks i).state ≠ .unused → i ≠ Sched.kernel → ∃ b, s.StackBlock i b
  apart : ∀ i j b c, i ≠ j → s.StackBlock i b → s.StackBlock j c →
    (s.sched.tasks i).state ≠ .unused → (s.sched.tasks j).state ≠ .unused →
      b.addr + Heap.headerSize + b.size ≤ c.addr ∨ c.addr + Heap.headerSize + c.size ≤ b.addr
  /-- The stack pointer of a task that has not run yet. -/
  fresh : ∀ i, (s.sched.tasks i).state ≠ .unused → s.started i = false →
    (s.sched.tasks i).stackBase ≤ (s.sched.tasks i).esp ∧
      (s.sched.tasks i).esp < (s.sched.tasks i).stackBase + stackSize

end Multitask

/-- What a call of `Spawn` in the state `s` returns and changes. -/
structure SpawnLaw (s : Multitask) (r : Multitask × Option Slot) : Prop where
  /-- It fails if the table is full or the heap has no room, and then it changes nothing. -/
  failed : r.2 = none → r.1 = s ∧
    (s.sched.spawnedCount = maxTasks ∨ s.client.heap.alloc stackSize = some (s.client.heap, 0))
  spawned : ∀ i, r.2 = some i → (i : ℕ) = s.sched.spawnedCount ∧ (r.1.sched.tasks i).id = i ∧
    r.1.sched.spawnedCount = s.sched.spawnedCount + 1 ∧
    ∀ j, j ≠ i → r.1.sched.tasks j = s.sched.tasks j

/-! ### What the scheduler leaves alone -/

/-- `t'` is the task `t`, with its state and its stack pointer as they may be. -/
structure Task.Same (t t' : Task E) : Prop where
  stackBase : t'.stackBase = t.stackBase
  id : t'.id = t.id
  name : t'.name = t.name
  unused : t'.state = .unused ↔ t.state = .unused

theorem Task.Same.refl (t : Task E) : t.Same t := ⟨rfl, rfl, rfl, .rfl⟩

theorem Task.Same.trans {t t' t'' : Task E} (h : t.Same t') (h' : t'.Same t'') : t.Same t'' :=
  ⟨h'.stackBase.trans h.stackBase, h'.id.trans h.id, h'.name.trans h.name,
    h'.unused.trans h.unused⟩

theorem Task.same_wake (t : Task E) (now : ℕ) : t.Same (t.wake now) := by
  refine ⟨?_, ?_, ?_, t.wake_state_eq_unused_iff⟩ <;> unfold wake <;> split <;> rfl

theorem same_update {tasks : Slot → Task E} {i : Slot} {t : Task E} (h : (tasks i).Same t)
    (j : Slot) : (tasks j).Same (Function.update tasks i t j) := by
  by_cases hj : j = i
  · subst hj
    rw [Function.update_self]
    exact h
  · rw [Function.update_of_ne hj]
    exact .refl _

namespace Sched

theorem same_pickNext (s : Sched E) (now : ℕ) (j : Slot) :
    (s.tasks j).Same ((s.pickNext now).1.tasks j) := by
  rcases pickNext_cases s now with ⟨i, -, heq⟩ | ⟨-, heq⟩
  · rw [heq]
    exact same_update ((s.tasks i).same_wake now) j
  · rw [heq]
    exact .refl _

theorem same_switchTo (s : Sched E) (next j : Slot) :
    (s.tasks j).Same ((s.switchTo next).tasks j) :=
  same_update (t := { s.tasks s.current with yields := u32 ((s.tasks s.current).yields + 1) })
    ⟨rfl, rfl, rfl, .rfl⟩ j

theorem switchTo_esp (s : Sched E) (next j : Slot) :
    ((s.switchTo next).tasks j).esp = (s.tasks j).esp := by
  rw [switchTo]
  dsimp only
  rw [Function.update_apply]
  split
  · rename_i hj
    rw [hj]
  · rfl

/-- Scheduling leaves the tasks as they are, and if it switches, then to a task. -/
structure Kept (s s' : Sched E) : Prop where
  ready : s'.ready = s.ready
  count : s'.spawnedCount = s.spawnedCount
  task : ∀ i, (s.tasks i).Same (s'.tasks i)
  esp : ∀ i, (s'.tasks i).esp = (s.tasks i).esp
  current : s'.current = s.current ∨ (s'.tasks s'.current).state ≠ .unused

theorem Kept.refl (s : Sched E) : s.Kept s := ⟨rfl, rfl, fun _ => .refl _, fun _ => rfl, .inl rfl⟩

theorem kept_yield (s : Clock E) : s.sched.Kept s.yield.sched := by
  have hpick : (s.sched.pickNext s.ticks).1.ready = s.sched.ready ∧
      (s.sched.pickNext s.ticks).1.spawnedCount = s.sched.spawnedCount ∧
      (s.sched.pickNext s.ticks).1.current = s.sched.current := ⟨rfl, rfl, rfl⟩
  obtain ⟨hready, hcount, hcur⟩ := hpick
  have htask := same_pickNext s.sched s.ticks
  have hesp := pickNext_esp s.sched s.ticks
  unfold Clock.yield
  split
  · exact .refl _
  dsimp only
  split
  · exact ⟨hready, hcount, htask, hesp, .inl hcur⟩
  · rename_i hne
    have hswitch := same_switchTo (s.sched.pickNext s.ticks).1 (s.sched.pickNext s.ticks).2
    refine ⟨hready, hcount, fun j => (htask j).trans (hswitch j),
      fun j => (switchTo_esp _ _ j).trans (hesp j), .inr fun hunused => ?_⟩
    exact pickNext_used hne ((htask _).unused.1 ((hswitch _).unused.1 hunused))

theorem kept_sleep (s : Clock E) (h : s.running.state ≠ .unused) (ms : ℕ) :
    s.sched.Kept (s.sleep ms).sched := by
  unfold Clock.sleep
  split
  · exact .refl _
  · have hsleep : ∀ j, (s.sched.tasks j).Same ((s.sched.sleep s.ticks ms).tasks j) :=
      same_update ⟨rfl, rfl, rfl, iff_of_false (by simp) h⟩
    have hsleepEsp : ∀ j, ((s.sched.sleep s.ticks ms).tasks j).esp = (s.sched.tasks j).esp := by
      intro j
      by_cases hj : j = s.sched.current
      · subst hj
        rw [Sched.sleep]
        dsimp only
        rw [Function.update_self]
      · rw [Clock.sleep_of_ne hj]
    obtain ⟨hready, hcount, htask, hesp, hcur⟩ :=
      kept_yield { s with sched := s.sched.sleep s.ticks ms }
    exact ⟨hready, hcount, fun j => (hsleep j).trans (htask j),
      fun j => (hesp j).trans (hsleepEsp j), hcur⟩

end Sched

/-! ### The invariant -/

namespace Multitask

/-- What holds in every reachable state, if the heap holds the arena `A`. -/
structure Inv (base : ℕ) (s : Multitask) (A : Arena (Heap.layout base)) : Prop where
  heap : s.client.Inv base A
  ready : s.sched.ready = true
  running : (s.sched.tasks s.sched.current).state ≠ .unused
  started : s.started s.sched.current = true
  startedKernel : s.started kernel = true
  count_le : s.sched.spawnedCount ≤ maxTasks
  used : ∀ i, (s.sched.tasks i).state ≠ .unused ↔ (i : ℕ) < s.sched.spawnedCount
  id : ∀ i, (s.sched.tasks i).state ≠ .unused → (s.sched.tasks i).id = i
  name : ∀ i, (s.sched.tasks i).name.length = 16 ∧ 0 ∈ (s.sched.tasks i).name
  kernel : (s.sched.tasks kernel).stackBase = 0
  live : ∀ i, (s.sched.tasks i).state ≠ .unused → i ≠ Sched.kernel →
    ((s.sched.tasks i).stackBase, stackSize) ∈ s.client.live
  inj : ∀ i j, (s.sched.tasks i).state ≠ .unused → (s.sched.tasks j).state ≠ .unused →
    i ≠ Sched.kernel → (s.sched.tasks i).stackBase = (s.sched.tasks j).stackBase → i = j
  fresh : ∀ i, (s.sched.tasks i).state ≠ .unused → s.started i = false →
    (s.sched.tasks i).esp + 20 = (s.sched.tasks i).stackBase + stackSize

variable {base : ℕ} {s s' : Multitask} {A A' : Arena (Heap.layout base)} {i : Slot}
  {entry : UInt32} {name : List UInt8} {h' : Heap} {a : ℕ}

theorem round_stackSize : Heap.round stackSize = 4096 := by decide

/-- The stack of a task is a block in use. -/
theorem Inv.stackBlock (hI : s.Inv base A)
    (hi : (s.sched.tasks i).state ≠ .unused) (hk : i ≠ Sched.kernel) :
    ∃ b ∈ A.blocks, s.StackBlock i b := by
  obtain ⟨b, hb, hbase, hsize⟩ := hI.heap.live _ _ (hI.live i hi hk)
  obtain ⟨hmem, hused⟩ := Arena.mem_used.1 hb
  rw [round_stackSize] at hsize
  exact ⟨b, hmem, ⟨_, hI.heap.holds.blocks_eq, hmem⟩, hused, hbase, hsize⟩

/-- **The invariant gives the table its meaning.** -/
theorem Inv.sound (hI : s.Inv base A) : s.Sound := by
  refine ⟨hI.count_le, hI.used, hI.id, hI.name, hI.kernel, fun i hi hk => ?_, ?_, fun i hi hf => ?_⟩
  · obtain ⟨b, -, hb⟩ := hI.stackBlock hi hk
    exact ⟨b, hb⟩
  · intro i j b c hij hb hc hi hj
    have hwalk := hI.heap.holds.blocks_eq
    obtain ⟨_, hbs, hbm⟩ := hb.mem
    obtain ⟨_, hcs, hcm⟩ := hc.mem
    cases hwalk.symm.trans hbs
    cases hwalk.symm.trans hcs
    have hsame : b = c → (s.sched.tasks i).stackBase = (s.sched.tasks j).stackBase := by
      rintro rfl
      rw [hb.base, hc.base]
    rcases A.tiles.eq_or_apart hbm hcm with heq | hapart
    · -- one of the two is not the kernel
      by_cases hk : i = Sched.kernel
      · exact absurd (hI.inj j i hj hi (fun hk' => hij (hk.trans hk'.symm)) (hsame heq).symm)
          (Ne.symm hij)
      · exact absurd (hI.inj i j hi hj hk (hsame heq)) hij
    · simp only [Layout.stop, Heap.layout] at hapart
      omega
  · have hesp := hI.fresh i hi hf
    have hk : i ≠ Sched.kernel := by
      rintro rfl
      cases hf.symm.trans hI.startedKernel
    unfold stackSize at *
    omega

/-! ### Scheduling -/

/-- Nothing but the state of the tasks changes, and the stack pointers of those that have run. -/
theorem Inv.of_same (hI : s.Inv base A) (hclient : s'.client = s.client)
    (hready : s'.sched.ready = s.sched.ready)
    (hcount : s'.sched.spawnedCount = s.sched.spawnedCount)
    (htask : ∀ i, (s.sched.tasks i).Same (s'.sched.tasks i))
    (hesp : ∀ i, s'.started i = false →
      s.started i = false ∧ (s'.sched.tasks i).esp = (s.sched.tasks i).esp)
    (hrunning : (s'.sched.tasks s'.sched.current).state ≠ .unused)
    (hstarted : s'.started s'.sched.current = true) : s'.Inv base A := by
  have hused : ∀ i, (s'.sched.tasks i).state ≠ .unused ↔ (s.sched.tasks i).state ≠ .unused :=
    fun i => not_congr (htask i).unused
  refine ⟨hclient ▸ hI.heap, hready.trans hI.ready, hrunning, hstarted, ?_,
    hcount.trans_le hI.count_le, fun i => ?_, fun i hi => ?_, fun i => ?_,
    (htask _).stackBase.trans hI.kernel, fun i hi hne => ?_, fun i j hi hj hne hij => ?_,
    fun i hi hf => ?_⟩
  · by_contra hf
    exact absurd (hesp _ (Bool.eq_false_of_not_eq_true hf)).1 (by simp [hI.startedKernel])
  · rw [hused, hcount]
    exact hI.used i
  · rw [(htask i).id]
    exact hI.id i ((hused i).1 hi)
  · rw [(htask i).name]
    exact hI.name i
  · rw [(htask i).stackBase, hclient]
    exact hI.live i ((hused i).1 hi) hne
  · rw [(htask i).stackBase, (htask j).stackBase] at hij
    exact hI.inj i j ((hused i).1 hi) ((hused j).1 hj) hne hij
  · obtain ⟨hf, he⟩ := hesp i hf
    rw [(htask i).stackBase, he]
    exact hI.fresh i ((hused i).1 hi) hf

/-- A switch keeps what scheduling keeps. -/
theorem Inv.switch (hI : s.Inv base A) {t : Clock ℕ} (hk : s.sched.Kept t.sched) (sp : UInt32) :
    (s.switch t sp).Inv base A := by
  rw [Multitask.switch]
  dsimp only
  split
  · rename_i hcur
    refine hI.of_same rfl hk.ready hk.count hk.task (fun i hf => ⟨hf, hk.esp i⟩) ?_ ?_
    · show (t.sched.tasks t.sched.current).state ≠ .unused
      rw [hcur]
      exact fun hunused => hI.running ((hk.task _).unused.1 hunused)
    · show s.started t.sched.current = true
      rw [hcur]
      exact hI.started
  · rename_i hcur
    -- `switch_task` stores a stack pointer in the slot of the task it leaves
    have hsave : ∀ j, (t.sched.tasks j).Same (Function.update t.sched.tasks s.sched.current
        { t.sched.tasks s.sched.current with esp := sp.toNat } j) :=
      same_update ⟨rfl, rfl, rfl, .rfl⟩
    refine hI.of_same rfl hk.ready hk.count (fun i => (hk.task i).trans (hsave i)) ?_ ?_ ?_
    · intro i hf
      change Function.update s.started t.sched.current true i = false at hf
      have hne : i ≠ t.sched.current := by
        rintro rfl
        rw [Function.update_self] at hf
        cases hf
      rw [Function.update_of_ne hne] at hf
      have hprev : i ≠ s.sched.current := by
        rintro rfl
        cases hf.symm.trans hI.started
      refine ⟨hf, Eq.trans ?_ (hk.esp i)⟩
      exact congrArg Task.esp (Function.update_of_ne hprev _ _)
    · exact fun hunused => hk.current.resolve_left hcur ((hsave _).unused.1 hunused)
    · exact Function.update_self _ _ _

/-! ### `Spawn` -/

/-- The slot that `Spawn` finds is the first behind those in use. -/
theorem Inv.val_freeSlot (hI : s.Inv base A) (hi : s.sched.freeSlot = some i) :
    (i : ℕ) = s.sched.spawnedCount := by
  have hunused := freeSlot_unused hi
  have hle : s.sched.spawnedCount ≤ i := by
    by_contra hlt
    exact (hI.used i).2 (Nat.lt_of_not_le hlt) hunused
  refine Nat.le_antisymm (Nat.le_of_not_lt fun hlt => ?_) hle
  -- the slot number `spawnedCount` is unused, too, and comes first
  have hslot : s.sched.spawnedCount < maxTasks := hlt.trans i.isLt
  obtain ⟨-, k, hk, heq, hbefore⟩ := List.find?_eq_some_iff_getElem.1 hi
  rw [List.getElem_finRange] at heq
  have hki : k = i := congrArg Fin.val heq
  have hused := hbefore s.sched.spawnedCount (by omega)
  rw [List.getElem_finRange] at hused
  refine absurd ((hI.used ⟨s.sched.spawnedCount, hslot⟩).1 ?_) (Nat.lt_irrefl _)
  simpa using hused

theorem Inv.count_of_full (hI : s.Inv base A) (hi : s.sched.freeSlot = none) :
    s.sched.spawnedCount = maxTasks := by
  refine Nat.le_antisymm hI.count_le (Nat.le_of_not_lt fun hlt => ?_)
  have hused := List.find?_eq_none.1 hi ⟨s.sched.spawnedCount, hlt⟩ (List.mem_finRange _)
  exact absurd ((hI.used _).1 (by simpa using hused)) (Nat.lt_irrefl _)

theorem copyName_ok {old : List UInt8} (h : old.length = 16) (name : List UInt8) :
    (copyName old name).length = 16 ∧ 0 ∈ copyName old name := by
  have hle : ((name.takeWhile (· ≠ 0)).take 15).length ≤ 15 := List.length_take_le _ _
  refine ⟨?_, ?_⟩
  · simp only [copyName, List.length_append, List.length_cons, List.length_drop]
    omega
  · exact List.mem_append_right _ List.mem_cons_self

/-- The state when `Spawn` has filled slot `i`, and the heap has become `h`. -/
def filled (s : Multitask) (i : Slot) (h : Heap) (stack : ℕ) (entry : UInt32)
    (name : List UInt8) : Multitask :=
  let p := prepareStack h.mem (.ofNat (stack + stackSize)) entry
  { clock := { s.clock with sched := { s.sched with
      tasks := Function.update s.sched.tasks i (s.sched.newTask stack p.2.toNat name i)
      spawnedCount := u32 (s.sched.spawnedCount + 1) } }
    client := ⟨{ h with mem := p.1 }, (stack, stackSize) :: s.client.live⟩
    started := Function.update s.started i false }

/-- **What `Spawn` does**: nothing, or it fills a slot. -/
theorem Inv.spawn_cases (hR : Heap.Region base) (hI : s.Inv base A) (entry : UInt32)
    (name : List UInt8) :
    (s.spawn entry name = some (s, none) ∧ (s.sched.spawnedCount = maxTasks ∨
      s.client.heap.alloc stackSize = some (s.client.heap, 0))) ∨
    ∃ i a h' A', s.sched.freeSlot = some i ∧
      A.alloc (Heap.round stackSize) (Heap.dvd_round stackSize) = some (a, A') ∧
      Heap.Holds base h' A'.blocks ∧
      s.spawn entry name = some (s.filled i h' (a + Heap.headerSize) entry name, some i) := by
  have hready := hI.ready
  cases hfree : s.sched.freeSlot with
  | none =>
    refine .inl ⟨?_, .inl (hI.count_of_full hfree)⟩
    simp only [spawn, hready, hfree, Bool.not_true, Bool.false_eq_true, ↓reduceIte]
  | some i =>
    have hspawn : s.spawn entry name = (s.client.heap.alloc stackSize).map fun r =>
        if r.2 = 0 then ({ s with client := { s.client with heap := r.1 } }, none)
        else (s.filled i r.1 r.2 entry name, some i) := by
      simp only [spawn, hready, hfree, Bool.not_true, Bool.false_eq_true, ↓reduceIte]
      refine congrArg (Option.map · _) (funext fun r => ?_)
      by_cases h0 : r.2 = 0
      · rw [if_pos h0, if_pos h0]
      · rw [if_neg h0, if_neg h0, Sched.spawn, if_neg (by simp [hready]), hfree]
        simp only [h0, ↓reduceIte]
        rfl
    have href := Heap.alloc_refines hR hI.heap.holds stackSize
    split at href
    · refine .inl ⟨?_, .inr href⟩
      rw [hspawn, href, Option.map_some, if_pos rfl]
    · rename_i a A' hA
      obtain ⟨h', halloc, H⟩ := href
      refine .inr ⟨i, a, h', A', rfl, hA, H, ?_⟩
      have hne : a + Heap.headerSize ≠ 0 := by
        unfold Heap.headerSize
        omega
      rw [hspawn, halloc, Option.map_some, if_neg hne]

theorem filled_of_ne {j : Slot} (hj : j ≠ i) {h : Heap} {stack : ℕ} :
    (s.filled i h stack entry name).sched.tasks j = s.sched.tasks j :=
  Function.update_of_ne hj _ _

theorem filled_self {h : Heap} {stack : ℕ} :
    (s.filled i h stack entry name).sched.tasks i = s.sched.newTask stack
      (prepareStack h.mem (.ofNat (stack + stackSize)) entry).2.toNat name i :=
  Function.update_self _ _ _

theorem filled_started_of_ne {j : Slot} (hj : j ≠ i) {h : Heap} {stack : ℕ} :
    (s.filled i h stack entry name).started j = s.started j :=
  Function.update_of_ne hj _ _

/-- What holds of the new task and of the other tasks holds of all tasks. -/
theorem forall_filled {h : Heap} {stack : ℕ} {P : Slot → Task ℕ → Prop}
    (hnew : P i (s.sched.newTask stack
      (prepareStack h.mem (.ofNat (stack + stackSize)) entry).2.toNat name i))
    (hold : ∀ j, j ≠ i → P j (s.sched.tasks j)) (j : Slot) :
    P j ((s.filled i h stack entry name).sched.tasks j) := by
  by_cases hji : j = i
  · subst hji
    rw [filled_self]
    exact hnew
  · rw [filled_of_ne hji]
    exact hold j hji

/-- A task has no stack at an address where no block is in use. -/
theorem Inv.stackBase_ne (hI : s.Inv base A) (ha : a ∉ s.client.live.map Prod.fst) (hne : a ≠ 0)
    {j : Slot} (hj : (s.sched.tasks j).state ≠ .unused) : (s.sched.tasks j).stackBase ≠ a := by
  rintro rfl
  by_cases hk : j = Sched.kernel
  · subst hk
    exact hne hI.kernel
  · exact ha (List.mem_map.2 ⟨_, hI.live j hj hk, rfl⟩)

/-- The frame of a new task lies inside its stack. -/
theorem prepareStack_payload (h : Heap) {stack : ℕ} (hfit : stack + stackSize < 2 ^ 32)
    (entry : UInt32) :
    (prepareStack h.mem (.ofNat (stack + stackSize)) entry).2.toNat + 20 = stack + stackSize ∧
      OnlyIn h.mem (prepareStack h.mem (.ofNat (stack + stackSize)) entry).1 stack
        (stack + stackSize) := by
  have hs : stackSize = 4096 := rfl
  have htop : (UInt32.ofNat (stack + stackSize)).toNat = stack + stackSize :=
    UInt32.toNat_ofNat_of_lt' hfit
  have hroom : (20 : UInt32).toNat ≤ (UInt32.ofNat (stack + stackSize)).toNat := by
    rw [htop]
    simp only [UInt32.reduceToNat]
    omega
  refine ⟨?_, fun x hx => eqOn_foldl_pushWord _ ?_ ?_ x le_rfl (Nat.lt_succ_self x)⟩
  · rw [(prepareStack_eq _ _ _).1, UInt32.toNat_sub_of_le _ _ (UInt32.le_iff_toNat_le.2 hroom)]
    simp only [UInt32.reduceToNat]
    omega
  · simp only [List.length_cons, List.length_nil]
    omega
  · simp only [List.length_cons, List.length_nil]
    omega

/-- **A slot that is filled keeps the invariant.** -/
theorem Inv.filled (hR : Heap.Room base) (hI : s.Inv base A)
    (hi : s.sched.freeSlot = some i)
    (hA : A.alloc (Heap.round stackSize) (Heap.dvd_round stackSize) = some (a, A'))
    (H : Heap.Holds base h' A'.blocks) (entry : UInt32) (name : List UInt8) :
    (s.filled i h' (a + Heap.headerSize) entry name).Inv base A' := by
  have hval := hI.val_freeSlot hi
  have hlt : (i : ℕ) < 8 := i.isLt
  have hcount : (s.filled i h' (a + Heap.headerSize) entry name).sched.spawnedCount =
      s.sched.spawnedCount + 1 := u32_of_lt (by omega)
  have hcurrent : s.sched.current ≠ i := fun h => hI.running (h ▸ freeSlot_unused hi)
  have hkernel : Sched.kernel ≠ i := fun h => by
    have := (hI.used _).1 hI.running
    rw [← h] at hval
    exact absurd hval (by rw [Sched.kernel]; simp; omega)
  have hheap := hI.heap.alloc_some hA H
  -- the block of the new stack
  obtain ⟨b, hb, hbase, hsize⟩ := hheap.live _ _ List.mem_cons_self
  rw [round_stackSize] at hsize
  have hstop := (A'.tiles.bounds (Arena.mem_used.1 hb).1).2
  have hfits := hR.lt
  simp only [Layout.stop, Heap.layout] at hstop
  have hfit : a + Heap.headerSize + stackSize < 2 ^ 32 := by
    unfold stackSize
    omega
  obtain ⟨hesp, hpayload⟩ := prepareStack_payload h' hfit entry
  -- no other task has this stack
  have hnew : ∀ {j}, (s.sched.tasks j).state ≠ .unused →
      (s.sched.tasks j).stackBase ≠ a + Heap.headerSize :=
    hI.stackBase_ne (List.nodup_cons.1 hheap.nodup).1 (by unfold Heap.headerSize; omega)
  refine ⟨hheap.payload hR.toRegion hb (hpayload.mono ?_ ?_), hI.ready, ?_, ?_, ?_, ?_, ?_, ?_, ?_,
    ?_, ?_, fun j k hj hk hne hjk => ?_, fun j hj hf => ?_⟩
  · exact hbase.symm.le
  · unfold stackSize
    omega
  · exact fun hunused => hI.running ((filled_of_ne hcurrent).symm ▸ hunused)
  · exact (filled_started_of_ne hcurrent).trans hI.started
  · exact (filled_started_of_ne hkernel).trans hI.startedKernel
  · rw [hcount]
    omega
  · rw [hcount]
    refine forall_filled (P := fun j t => t.state ≠ .unused ↔ (j : ℕ) < s.sched.spawnedCount + 1)
      (iff_of_true (by simp [newTask]) (by omega)) fun j hji => ?_
    rw [hI.used j]
    have : (j : ℕ) ≠ i := fun h => hji (Fin.ext h)
    omega
  · exact forall_filled (P := fun j t => t.state ≠ .unused → t.id = j) (fun _ => hval.symm)
      fun j _ => hI.id j
  · exact forall_filled (P := fun _ t => t.name.length = 16 ∧ 0 ∈ t.name)
      (copyName_ok (hI.name i).1 name) fun j _ => hI.name j
  · rw [filled_of_ne hkernel]
    exact hI.kernel
  · exact forall_filled (P := fun j t => t.state ≠ .unused → j ≠ Sched.kernel →
        (t.stackBase, stackSize) ∈ (a + Heap.headerSize, stackSize) :: s.client.live)
      (fun _ _ => List.mem_cons_self) fun j _ hj hk => List.mem_cons_of_mem _ (hI.live j hj hk)
  · by_cases hji : j = i <;> by_cases hki : k = i
    · exact hji.trans hki.symm
    · subst hji
      rw [filled_of_ne hki] at hk hjk
      rw [filled_self] at hjk
      exact absurd hjk.symm (hnew hk)
    · subst hki
      rw [filled_of_ne hji] at hj hjk
      rw [filled_self] at hjk
      exact absurd hjk (hnew hj)
    · rw [filled_of_ne hji] at hj hjk
      rw [filled_of_ne hki] at hk hjk
      exact hI.inj j k hj hk hne hjk
  · by_cases hji : j = i
    · subst hji
      rw [filled_self]
      exact hesp
    · rw [filled_of_ne hji] at hj ⊢
      rw [filled_started_of_ne hji] at hf
      exact hI.fresh j hj hf

/-- **`Spawn` obeys its law.** -/
theorem Inv.spawnLaw (hR : Heap.Region base) (hI : s.Inv base A) (entry : UInt32)
    (name : List UInt8) : ∃ r, s.spawn entry name = some r ∧ SpawnLaw s r := by
  rcases hI.spawn_cases hR entry name with ⟨heq, hwhy⟩ | ⟨i, a, h', A', hi, -, -, heq⟩
  · refine ⟨_, heq, fun _ => ⟨rfl, hwhy⟩, fun i hi => ?_⟩
    cases hi
  · have hval := hI.val_freeSlot hi
    have hlt : (i : ℕ) < 8 := i.isLt
    refine ⟨_, heq, fun hn => ?_, fun j hj => ?_⟩
    · cases hn
    · cases hj
      refine ⟨hval, ?_, u32_of_lt (by omega), fun k hk => filled_of_ne hk⟩
      rw [filled_self]
      exact hval.symm

/-! ### Runs -/

/-- What the other clients do leaves the stacks allocated. -/
theorem Inv.client (hR : Heap.Region base) (hI : s.Inv base A) {op : Heap.Op} {c : Heap.Client}
    (hst : s.client.Step op c)
    (hfree : ∀ p, op = .free p → p ≠ 0 → ∀ i, (s.sched.tasks i).stackBase ≠ p) :
    ∃ A', Inv base { s with client := c } A' := by
  obtain ⟨A', hheap⟩ := hI.heap.step hR hst
  refine ⟨A', hheap, hI.ready, hI.running, hI.started, hI.startedKernel, hI.count_le, hI.used, hI.id,
    hI.name, hI.kernel, fun i hi hk => ?_, hI.inj, hI.fresh⟩
  have hlive := hI.live i hi hk
  cases hst with
  | alloc ha =>
    dsimp only
    split
    · exact hlive
    · exact List.mem_cons_of_mem _ hlive
  | @free p h' hp hf =>
    refine List.mem_filter.2 ⟨hlive, ?_⟩
    suffices hne : (s.sched.tasks i).stackBase ≠ p by simpa using hne
    -- no stack lies at the null pointer
    by_cases h0 : p = 0
    · obtain ⟨b, -, hbase, -⟩ := hI.heap.live _ _ hlive
      rw [hbase, h0]
      unfold Heap.headerSize
      omega
    · exact hfree p rfl h0 i
  | store => exact hlive

/-- Every step keeps the invariant. -/
theorem Inv.step (hR : Heap.Room base) (hI : s.Inv base A) {op : Op} (hst : s.Step op s') :
    ∃ A', s'.Inv base A' := by
  cases hst with
  | @spawn _ entry name _ hspawn =>
    rcases hI.spawn_cases hR.toRegion entry name with ⟨heq, -⟩ | ⟨i, a, h', A', hi, hA, H, heq⟩
    · cases hspawn.symm.trans heq
      exact ⟨A, hI⟩
    · cases hspawn.symm.trans heq
      exact ⟨A', hI.filled hR hi hA H entry name⟩
  | yield => exact ⟨A, hI.switch (kept_yield _) _⟩
  | sleep => exact ⟨A, hI.switch (kept_sleep _ hI.running _) _⟩
  | @tick preempts sp =>
    cases preempts with
    | false => exact ⟨A, hI.switch (t := s.clock.count) (.refl s.sched) sp⟩
    | true => exact ⟨A, hI.switch (kept_yield s.clock.count) sp⟩
  | client hst hfree => exact hI.client hR.toRegion hst hfree

/-- `Scheduler::Start` over a heap in use. -/
theorem inv_boot {c : Heap.Client} (hc : c.Inv base A) (now : ℕ) : (boot now c).Inv base A := by
  have hstate : ∀ i, ((boot now c).sched.tasks i).state ≠ .unused ↔ i = Sched.kernel := by
    intro i
    rw [show ((boot now c).sched.tasks i).state = _ from start_state 0 i]
    split <;> simp_all
  refine ⟨hc, rfl, (hstate _).2 rfl, rfl, rfl, Nat.one_le_ofNat, fun i => ?_, fun i hi => ?_, fun i => ?_,
    rfl, fun i hi hk => absurd ((hstate i).1 hi) hk,
    fun i j hi hj _ _ => ((hstate i).1 hi).trans ((hstate j).1 hj).symm, fun i hi hf => ?_⟩
  · rw [hstate, Fin.ext_iff]
    exact (Nat.lt_one_iff).symm
  · rw [(hstate i).1 hi]
    rfl
  · by_cases hi : i = Sched.kernel
    · subst hi
      exact copyName_ok List.length_replicate kernelName
    · rw [show (boot now c).sched.tasks i = _ from start_of_ne 0 hi]
      exact ⟨by decide, by decide⟩
  · rw [(hstate i).1 hi] at hf
    cases hf

variable {m : Mem} {kernelEnd baseHint : UInt32}

theorem exists_inv (hR : Heap.Room (Heap.startBase kernelEnd.toNat baseHint.toNat))
    (hs : (lts m kernelEnd baseHint).Reachable s) :
    ∃ A, s.Inv (Heap.startBase kernelEnd.toNat baseHint.toNat) A := by
  refine hs.induct (I := fun s => ∃ A, s.Inv (Heap.startBase kernelEnd.toNat baseHint.toNat) A)
    ?_ fun _ _ _ ⟨_, hI⟩ hst => hI.step hR hst
  rintro _ ⟨now, c, hc, rfl⟩
  obtain ⟨A, hA⟩ := Heap.reachable_inv hR.toRegion hc
  exact ⟨A, inv_boot hA now⟩

/-- **The task table and the heap stay consistent**, and each call of `Spawn` obeys its law, in
every reachable state, if the heap has room past address zero without wrapping. -/
theorem sound_of_room (hpos : 0 < Heap.pageUp kernelEnd.toNat baseHint.toNat)
    (hfit : Heap.pageUp kernelEnd.toNat baseHint.toNat + Heap.heapSize < 2 ^ 32)
    (hs : (lts m kernelEnd baseHint).Reachable s) :
    s.Sound ∧ ∀ entry name, ∃ r, s.spawn entry name = some r ∧ SpawnLaw s r := by
  have hR := Heap.room_start hpos hfit
  obtain ⟨A, hI⟩ := exists_inv hR hs
  exact ⟨hI.sound, hI.spawnLaw hR.toRegion⟩

/-- A task is spawned on a heap that starts at 2 MiB. -/
theorem sound_two_tasks : ∃ s, (lts (fun _ => 0) 0x200000 0).Reachable s ∧
    s.sched.spawnedCount = 2 ∧ s.Sound ∧
      ∀ entry name, ∃ r, s.spawn entry name = some r ∧ SpawnLaw s r := by
  have hboot : (lts (fun _ => 0) 0x200000 0).Reachable
      (boot 0 ⟨Heap.start (fun _ => 0) (0x200000 : UInt32).toNat (0 : UInt32).toNat, []⟩) :=
    .of_init ⟨0, _, .of_init rfl, rfl⟩
  have hstart : Heap.startBase (0x200000 : UInt32).toNat (0 : UInt32).toNat ≠ 0 := by decide
  obtain ⟨h', halloc, -⟩ := Heap.start_alloc (m := fun _ => 0) (n := stackSize) hstart (by decide)
  obtain ⟨-, hspawn⟩ := sound_of_room (by decide) (by decide) hboot
  obtain ⟨⟨s, i⟩, heq, hlaw⟩ := hspawn 0x5000 []
  cases i with
  | none =>
    rcases (hlaw.failed rfl).2 with hfull | hnull
    · exact absurd hfull (by decide)
    · cases halloc.symm.trans hnull
  | some i =>
    have hs := hboot.step (.spawn heq)
    exact ⟨s, hs, (hlaw.spawned i rfl).2.2.1, sound_of_room (by decide) (by decide) hs⟩

/-- A heap that starts two pages below the end of the address space: the second stack straddles it,
and the frame prepared on it lies at address 12. -/
theorem not_sound_wrapped :
    ¬ ∀ (m : Mem) (kernelEnd baseHint : UInt32) s,
      (lts m kernelEnd baseHint).Reachable s → s.Sound := by
  intro hall
  have hboot : (lts (fun _ => 0) 0x200000 0xFFFFE000).Reachable
      (boot 0 ⟨Heap.start (fun _ => 0) 0x200000 0xFFFFE000, []⟩) :=
    .of_init ⟨0, _, .of_init rfl, rfl⟩
  have hrun : ((boot 0 ⟨Heap.start (fun _ => 0) 0x200000 0xFFFFE000, []⟩).spawn 0x5000 []).bind
      (fun r => (r.1.spawn 0x5000 []).map fun r => ((r.1.sched.tasks 2).stackBase,
        (r.1.sched.tasks 2).esp, (r.1.sched.tasks 2).state, r.1.started 2)) =
      some (0xFFFFF020, 0xC, .ready, false) := by
    decide +kernel
  obtain ⟨r, hr, hrun⟩ := Option.bind_eq_some_iff.1 hrun
  obtain ⟨r', hr', hrun⟩ := Option.map_eq_some_iff.1 hrun
  simp only [Prod.mk.injEq] at hrun
  obtain ⟨hbase, hesp, hstate, hstarted⟩ := hrun
  have hsound := hall _ _ _ _ ((hboot.step (.spawn hr)).step (.spawn hr'))
  have hfresh := (hsound.fresh 2 (by rw [hstate]; decide) hstarted).1
  rw [hbase, hesp] at hfresh
  exact absurd hfresh (by decide)

end Multitask

end Shiro
