import Shiro.Sched.Switch

/-!
# Every context stays in its slot

`Yield` says that the next task runs (`current = next`) before `switch_task` has left the stack of
the running one.  A preemption in between saves the running task's stack pointer into the slot of
the next one.  A second danger is `Spawn`: two tasks can find the same slot unused.

* `Cpu.Intact` : the slot of every suspended task holds the pointer it was suspended with, no other
  slot does, and `switch_task` loads just that.
* `Cpu.Clear` : no preemption finds another task while `Yield` is between these two statements, and
  no `Spawn` stores a stack pointer into a slot that has one.
* `Cpu.Inv` : the invariant.
* `intact_of_clear` : **along every run whose steps are clear, all contexts are intact.**
-/

namespace Shiro

open Sched

/-- The task that `Yield` has made the current one while it is still on the stack of the last. -/
def YieldPc.window : YieldPc → Option Slot
  | .count _ next => some next
  | .push _ next => some next
  | .save _ next _ => some next
  | .load next _ => some next
  | _ => none

/-- The same in the handler, or in the code below it. -/
def Flow.window : Flow → Option Slot
  | ⟨_, some (.yield y)⟩ => y.window
  | ⟨.yield y, _⟩ => y.window
  | _ => none

namespace Cpu

/-- A slot in use. -/
def Used (s : Cpu) (i : Slot) : Prop := (s.sched.tasks i).state ≠ .unused

/-- The task `i` is suspended. -/
def Suspended (s : Cpu) (i : Slot) : Prop := i ≠ s.running ∧ s.Used i

/-- Every suspended task's context is held by its own slot. -/
structure Intact (s : Cpu) : Prop where
  /-- The slot holds the pointer of the last suspension. -/
  held : ∀ i, s.Suspended i → ∃ p, s.last i = some p ∧ (s.sched.tasks i).esp = some p
  /-- No other slot holds it. -/
  only : ∀ i j p, s.Suspended i → s.last i = some p → (s.sched.tasks j).esp = some p → j = i
  /-- `switch_task` loads it. -/
  load : ∀ next esp, s.flow.yieldPc = some (.load next esp) →
    s.Suspended next ∧ esp = s.last next

/-- The next step is none of the two that lose a context. -/
def Clear (s : Cpu) : Move → Prop
  | .tick => s.flow.window ≠ none → u32 (s.ticks + 1) % preemptEvery = 0 →
      ∀ i, i ≠ s.sched.current → ¬ (s.sched.tasks i).Runnable (u32 (s.ticks + 1))
  | .next => ∀ i ∈ s.flow.preparing, (s.sched.tasks i).esp = none
  | _ => True

/-! ### The invariant -/

/-- What the variables of `Yield` say, on the stack of the task `g`. -/
def YieldOk (s : Cpu) (g : Slot) : YieldPc → Prop
  | .compare next => s.Used next
  | .prev next => next ≠ g ∧ s.Used next
  | .current prev next => prev = g ∧ next ≠ g ∧ s.Used next
  | .count prev next => prev = g ∧ next ≠ g ∧ s.Used next
  | .push prev next => prev = g ∧ next ≠ g ∧ s.Used next
  | .save prev next esp => prev = g ∧ next ≠ g ∧ s.Used next ∧ esp = s.last next
  | .load next esp => next ≠ g ∧ s.Used next ∧ esp = s.last next ∧ s.last g ≠ none
  | _ => True

/-- What the variables of `Spawn` say. -/
def SpawnOk (s : Cpu) (g : Slot) : SpawnPc → Prop
  | .alloc i => i ≠ g
  | .esp i _ => i ≠ g
  | .store _ i _ => s.last i ≠ none
  | _ => True

/-- What holds on the stack of the task `g`. -/
structure FlowOk (s : Cpu) (g : Slot) (fl : Flow) : Prop where
  own : ∀ y, fl.own = .yield y → s.YieldOk g y
  spawn : ∀ name p, fl.own = .spawn name p → s.SpawnOk g p
  handler : ∀ y, fl.handler = some (.yield y) → s.YieldOk g y
  /-- A task that is preempted is not between the two statements. -/
  below : ∀ y z, fl.handler = some (.yield y) → fl.own = .yield z → z.window = none

/-- The invariant. -/
structure Inv (s : Cpu) : Prop where
  flows : ∀ g, s.FlowOk g (s.flows g)
  quiet : ∀ g, g ≠ s.running → (s.flows g).window = none
  current : s.sched.current = s.flow.window.getD s.running
  used : s.Used s.running
  held : ∀ i, (s.sched.tasks i).esp = s.last i
  alive : ∀ i, i ≠ s.running → s.Used i → s.last i ≠ none
  owner : ∀ i p, s.last i = some p → p.owner = i
  masked : ∀ g, (s.flows g).handler ≠ none →
    s.intr = false ∧ ∀ h, (s.flows h).handler ≠ none → h = g

variable {s s' : Cpu} {g : Slot} {fl : Flow} {y z : YieldPc}

/-- **The invariant says that contexts are intact.** -/
theorem Inv.intact (h : s.Inv) : s.Intact := by
  have hheld : ∀ i, s.Suspended i → ∃ p, s.last i = some p ∧ (s.sched.tasks i).esp = some p := by
    intro i hi
    obtain ⟨p, hp⟩ := Option.ne_none_iff_exists'.1 (h.alive i hi.1 hi.2)
    exact ⟨p, hp, (h.held i).trans hp⟩
  refine ⟨hheld, fun i j p _ hi hj => ?_, fun next esp hy => ?_⟩
  · rw [h.held] at hj
    exact (h.owner j p hj).symm.trans (h.owner i p hi)
  · have hok : s.YieldOk s.running (.load next esp) := by
      unfold Flow.yieldPc at hy
      split at hy
      · rename_i heq
        cases hy
        exact (h.flows s.running).handler _ (congrArg Flow.handler heq)
      · rename_i heq
        cases hy
        exact (h.flows s.running).own _ (congrArg Flow.own heq)
      · cases hy
    exact ⟨⟨hok.1, hok.2.1⟩, hok.2.2.1⟩

theorem Inv.running (h : s.Inv) : s.FlowOk s.running s.flow := h.flows s.running

theorem flowOk_fresh (s : Cpu) (g : Slot) : s.FlowOk g .fresh :=
  ⟨fun _ h => (by cases h), fun _ _ h => (by cases h), fun _ h => (by cases h),
    fun _ _ h => (by cases h)⟩

theorem inv_boot : boot.Inv where
  flows g := flowOk_fresh boot g
  quiet _ _ := rfl
  current := rfl
  used := by
    rw [Used, boot, start_state]
    simp
  held i := start_esp none i
  alive i hi hu := by
    have hi' : i ≠ kernel := hi
    rw [Used, boot, start_state, if_neg hi'] at hu
    exact absurd rfl hu
  owner i p h := by cases h
  masked g h := absurd rfl h

/-! ### Stacks -/

theorem window_eq (h : fl.yieldPc = some y) : fl.window = y.window := by
  unfold Flow.yieldPc at h
  split at h
  · cases h
    rfl
  · cases h
    rfl
  · cases h

theorem yieldOk_of_yieldPc (hf : s.FlowOk g fl) (h : fl.yieldPc = some y) : s.YieldOk g y := by
  unfold Flow.yieldPc at h
  split at h
  · cases h
    exact hf.handler _ rfl
  · cases h
    exact hf.own _ rfl
  · cases h

theorem window_goto (fl : Flow) (y : YieldPc) : (fl.goto y).window = y.window := by
  obtain ⟨own, _ | h⟩ := fl <;> rfl

theorem yieldPc_goto (fl : Flow) (y : YieldPc) : (fl.goto y).yieldPc = some y := by
  obtain ⟨own, _ | h⟩ := fl <;> rfl

theorem goto_goto (fl : Flow) (y z : YieldPc) : (fl.goto y).goto z = fl.goto z := by
  obtain ⟨own, _ | h⟩ := fl <;> rfl

theorem handler_goto (fl : Flow) (y : YieldPc) :
    (fl.goto y).handler = none ↔ fl.handler = none := by
  obtain ⟨own, _ | h⟩ := fl <;> simp [Flow.goto]

theorem handler_finish (fl : Flow) : fl.finish.handler = none ↔ fl.handler = none := by
  obtain ⟨own, _ | h⟩ := fl <;> simp [Flow.finish]

/-- The code below a `Yield` in the handler is not between the two statements. -/
theorem window_finish (hf : s.FlowOk g fl) (h : fl.yieldPc = some y) : fl.finish.window = none := by
  obtain ⟨own, _ | hd⟩ := fl
  · rfl
  · cases own with
    | yield z =>
      unfold Flow.yieldPc at h
      split at h
      · rename_i heq
        cases heq
        exact hf.below _ z rfl rfl
      · rename_i heq
        cases heq
      · cases h
    | _ => rfl

theorem flowOk_goto (hf : s.FlowOk g fl) (h : fl.yieldPc = some z) (hy : s.YieldOk g y) :
    s.FlowOk g (fl.goto y) := by
  obtain ⟨own, _ | hd⟩ := fl
  · refine ⟨fun z hz => ?_, fun n p hp => (by cases hp), fun z hz => (by cases hz),
      fun z _ hz => (by cases hz)⟩
    cases hz
    exact hy
  · refine ⟨hf.own, hf.spawn, fun z hz => ?_, fun w x hw hx => ?_⟩
    · cases hz
      exact hy
    · rcases hd with hd | _ | _ | _
      · exact hf.below hd x rfl hx
      all_goals cases h

theorem flowOk_finish (hf : s.FlowOk g fl) : s.FlowOk g fl.finish := by
  obtain ⟨own, _ | hd⟩ := fl
  · exact ⟨fun z hz => (by cases hz), fun n p hp => (by cases hp), fun z hz => (by cases hz),
      fun z _ hz => (by cases hz)⟩
  · exact ⟨hf.own, hf.spawn, fun z hz => (by cases hz), fun z _ hz => (by cases hz)⟩

/-! ### Statements that leave the stack pointers alone -/

/-- From `s` to `s'` no stack pointer is saved, prepared or loaded. -/
structure Frame (s s' : Cpu) : Prop where
  running : s'.running = s.running
  last : s'.last = s.last
  esp : ∀ i, (s'.sched.tasks i).esp = (s.sched.tasks i).esp
  used : ∀ i, s.Used i → s'.Used i
  born : ∀ i, s'.Used i → s.Used i ∨ s.last i ≠ none
  flows : ∀ g, g ≠ s.running → s'.flows g = s.flows g

theorem YieldOk.frame (h : s.YieldOk g y) (hused : ∀ i, s.Used i → s'.Used i)
    (hlast : s'.last = s.last) : s'.YieldOk g y := by
  cases y with
  | compare next => exact hused _ h
  | prev next => exact ⟨h.1, hused _ h.2⟩
  | current prev next => exact ⟨h.1, h.2.1, hused _ h.2.2⟩
  | count prev next => exact ⟨h.1, h.2.1, hused _ h.2.2⟩
  | push prev next => exact ⟨h.1, h.2.1, hused _ h.2.2⟩
  | save prev next esp =>
    obtain ⟨h1, h2, h3, h4⟩ := h
    exact ⟨h1, h2, hused _ h3, by rw [hlast, h4]⟩
  | load next esp =>
    obtain ⟨h1, h2, h3, h4⟩ := h
    exact ⟨h1, hused _ h2, by rw [hlast, h3], by rwa [hlast]⟩
  | _ => trivial

theorem FlowOk.frame (h : s.FlowOk g fl) (hused : ∀ i, s.Used i → s'.Used i)
    (hlast : s'.last = s.last) : s'.FlowOk g fl := by
  refine ⟨fun y hy => (h.own y hy).frame hused hlast, fun name p hp => ?_,
    fun y hy => (h.handler y hy).frame hused hlast, h.below⟩
  have := h.spawn name p hp
  cases p with
  | store f i stack => rwa [SpawnOk, hlast]
  | _ => exact this

/-- **Such a statement keeps the invariant** if the running task's stack is in order after it. -/
theorem Inv.frame (h : s.Inv) (hf : s.Frame s') (hok : s'.FlowOk s'.running s'.flow)
    (hcur : s'.sched.current = s'.flow.window.getD s'.running)
    (hmasked : ∀ g, (s'.flows g).handler ≠ none →
      s'.intr = false ∧ ∀ h, (s'.flows h).handler ≠ none → h = g) : s'.Inv where
  flows g := by
    by_cases hg : g = s'.running
    · rw [hg]
      exact hok
    · rw [hf.flows g (hf.running ▸ hg)]
      exact (h.flows g).frame hf.used hf.last
  quiet g hg := by
    rw [hf.running] at hg
    rw [hf.flows g hg]
    exact h.quiet g hg
  current := hcur
  used := hf.running ▸ hf.used _ h.used
  held i := by rw [hf.esp, hf.last, h.held]
  alive i hi hu := by
    rw [hf.last]
    rcases hf.born i hu with hu | hl
    · exact h.alive i (hf.running ▸ hi) hu
    · exact hl
  owner i p hp := h.owner i p (hf.last ▸ hp)
  masked := hmasked

/-- Interrupts stay off while a task is in the handler. -/
theorem Inv.masked_of_handlers (h : s.Inv) (hintr : s'.intr = s.intr)
    (hback : ∀ g, (s'.flows g).handler ≠ none → (s.flows g).handler ≠ none) (g : Slot)
    (hg : (s'.flows g).handler ≠ none) :
    s'.intr = false ∧ ∀ h, (s'.flows h).handler ≠ none → h = g := by
  obtain ⟨h1, h2⟩ := h.masked g (hback g hg)
  exact ⟨hintr.trans h1, fun k hk => h2 k (hback k hk)⟩

theorem Inv.masked_of_flows (h : s.Inv) (hintr : s'.intr = s.intr)
    (hflows : ∀ g, g ≠ s.running → s'.flows g = s.flows g)
    (hself : (s'.flows s.running).handler ≠ none → s.flow.handler ≠ none) (g : Slot)
    (hg : (s'.flows g).handler ≠ none) :
    s'.intr = false ∧ ∀ h, (s'.flows h).handler ≠ none → h = g := by
  refine h.masked_of_handlers hintr (fun g hg => ?_) g hg
  by_cases hr : g = s.running
  · rw [hr] at hg ⊢
    exact hself hg
  · rwa [hflows g hr] at hg

theorem Inv.masked_of_frame (h : s.Inv) (hf : s.Frame s') (hintr : s'.intr = s.intr)
    (hh : s'.flow.handler ≠ none → s.flow.handler ≠ none) (g : Slot)
    (hg : (s'.flows g).handler ≠ none) :
    s'.intr = false ∧ ∀ h, (s'.flows h).handler ≠ none → h = g :=
  h.masked_of_flows hintr hf.flows (fun hn => hh (by rwa [flow, hf.running])) g hg

theorem Frame.refl (s : Cpu) : s.Frame s :=
  ⟨rfl, rfl, fun _ => rfl, fun _ h => h, fun _ h => .inl h, fun _ _ => rfl⟩

theorem Frame.trans {t : Cpu} (h : s.Frame t) (h' : t.Frame s') : s.Frame s' where
  running := h'.running.trans h.running
  last := h'.last.trans h.last
  esp i := (h'.esp i).trans (h.esp i)
  used i hi := h'.used i (h.used i hi)
  born i hi := by
    rcases h'.born i hi with hi | hi
    · exact h.born i hi
    · exact .inr (h.last ▸ hi)
  flows g hg := (h'.flows g (h.running ▸ hg)).trans (h.flows g hg)

@[simp] theorem flow_setFlow (s : Cpu) (fl : Flow) : (s.setFlow fl).flow = fl :=
  Function.update_self _ _ _

theorem frame_setFlow (s : Cpu) (fl : Flow) : s.Frame (s.setFlow fl) :=
  ⟨rfl, rfl, fun _ => rfl, fun _ h => h, fun _ h => .inl h, fun _ hg => Function.update_of_ne hg _ _⟩

theorem modify_tasks (s : Cpu) (i : Slot) (f : Task (Option StackPtr) → Task (Option StackPtr))
    (j : Slot) : (s.modify i f).sched.tasks j =
      if j = i then f (s.sched.tasks i) else s.sched.tasks j := by
  rw [modify]
  exact Function.update_apply _ _ _ _

/-- A store into a slot that changes neither its stack pointer nor whether it is in use. -/
theorem frame_modify {i : Slot} {f : Task (Option StackPtr) → Task (Option StackPtr)}
    (hesp : ∀ t, (f t).esp = t.esp) (hused : s.Used i → (f (s.sched.tasks i)).state ≠ .unused)
    (hborn : (f (s.sched.tasks i)).state ≠ .unused → s.Used i ∨ s.last i ≠ none) :
    s.Frame (s.modify i f) := by
  refine ⟨rfl, rfl, fun j => ?_, fun j hj => ?_, fun j hj => ?_, fun _ _ => rfl⟩
  · rw [modify_tasks]
    split
    · rename_i hi
      rw [hesp, hi]
    · rfl
  · rw [Used, modify_tasks]
    split
    · rename_i hi
      exact hused (hi ▸ hj)
    · exact hj
  · rw [Used, modify_tasks] at hj
    split at hj
    · rename_i hi
      exact hi ▸ hborn hj
    · exact .inl hj

/-- The same where the store does not touch the state. -/
theorem frame_modify_of_eq {i : Slot} {f : Task (Option StackPtr) → Task (Option StackPtr)}
    (hesp : ∀ t, (f t).esp = t.esp) (hstate : ∀ t, (f t).state = t.state) :
    s.Frame (s.modify i f) :=
  frame_modify hesp (fun h => by rw [hstate]; exact h) fun h => .inl (by rwa [hstate] at h)

/-- `Yield` goes on at `y`, after a store that leaves the stacks alone. -/
theorem Inv.goto {t : Cpu} (h : s.Inv) (hz : s.flow.yieldPc = some z) (hf : s.Frame t)
    (hflow : t.flow = s.flow) (hintr : t.intr = s.intr) (hy : t.YieldOk t.running y)
    (hcur : t.sched.current = y.window.getD t.running) : (t.goto y).Inv := by
  have hft : s.Frame (t.goto y) := hf.trans (frame_setFlow _ _)
  have hnew : (t.goto y).flow = s.flow.goto y := by rw [Cpu.goto, flow_setFlow, hflow]
  have hok : (t.goto y).FlowOk (t.goto y).running (t.goto y).flow := by
    rw [hnew]
    exact flowOk_goto (hf.running ▸ h.running.frame hft.used hft.last) hz hy
  refine h.frame hft hok ?_ (h.masked_of_frame hft hintr fun hh => ?_)
  · rw [hnew, window_goto]
    exact hcur
  · rw [hnew] at hh
    exact fun hn => hh ((handler_goto _ _).2 hn)

/-- `Yield` returns. -/
theorem Inv.finish (h : s.Inv) (hz : s.flow.yieldPc = some z)
    (hcur : s.sched.current = s.running) : s.finish.Inv := by
  have hf : s.Frame s.finish := frame_setFlow _ _
  have hnew : s.finish.flow = s.flow.finish := flow_setFlow _ _
  have hok := flowOk_finish (h.running.frame hf.used hf.last)
  refine h.frame hf (hnew ▸ hok) ?_ (h.masked_of_frame hf rfl fun hh => ?_)
  · rw [hnew, window_finish h.running hz]
    exact hcur
  · rw [hnew] at hh
    exact fun hn => hh ((handler_finish _).2 hn)

/-- The running task goes on in its own code, outside of `Yield`. -/
theorem Inv.setOwn {t : Cpu} {o : OwnPc} (h : s.Inv) (hh : s.flow.handler = none)
    (hw : s.flow.window = none) (hf : s.Frame t) (hflow : t.flow = s.flow)
    (hintr : t.intr = s.intr) (hcur : t.sched.current = s.sched.current)
    (hy : ∀ y, o = .yield y → y = .check) (hp : ∀ name p, o = .spawn name p → t.SpawnOk t.running p) :
    (t.setOwn o).Inv := by
  have hft : s.Frame (t.setOwn o) := hf.trans (frame_setFlow _ _)
  have hnew : (t.setOwn o).flow = ⟨o, none⟩ := by
    rw [Cpu.setOwn, flow_setFlow, hflow, hh]
  have hwin : (⟨o, none⟩ : Flow).window = none := by
    cases o with
    | yield y => rw [hy y rfl]; rfl
    | _ => rfl
  refine h.frame hft ?_ ?_ (h.masked_of_frame hft hintr fun hn => ?_)
  · rw [hnew]
    refine ⟨fun y hy' => ?_, fun name p hp' => ?_, fun y hy' => (by cases hy'),
      fun y z hy' => (by cases hy')⟩
    · rw [hy y hy']
      trivial
    · have := hp name p hp'
      cases p with
      | _ => exact this
  · rw [hnew, hwin]
    have := h.current
    rw [hw] at this
    exact (hcur.trans this).trans hf.running.symm
  · rw [hnew] at hn
    exact absurd rfl hn

/-! ### Statements of `Yield` -/

/-- Outside the two statements, `Yield` runs as the current task. -/
theorem Inv.current_of_window (h : s.Inv) (hz : s.flow.yieldPc = some z) (hw : z.window = none) :
    s.sched.current = s.running := by
  rw [h.current, window_eq hz, hw, Option.getD_none]

/-- Outside the two statements, what holds on a stack does not depend on stack pointers. -/
theorem YieldOk.mono (h : s.YieldOk g y) (hw : y.window = none)
    (hused : ∀ i, s.Used i → s'.Used i) : s'.YieldOk g y := by
  cases y with
  | compare next => exact hused _ h
  | prev next => exact ⟨h.1, hused _ h.2⟩
  | current prev next => exact ⟨h.1, h.2.1, hused _ h.2.2⟩
  | count prev next => cases hw
  | push prev next => cases hw
  | save prev next esp => cases hw
  | load next esp => cases hw
  | _ => trivial

theorem FlowOk.mono (h : s.FlowOk g fl) (hw : fl.window = none)
    (hused : ∀ i, s.Used i → s'.Used i) (hlast : ∀ i, s.last i ≠ none → s'.last i ≠ none) :
    s'.FlowOk g fl := by
  refine ⟨fun y hy => (h.own y hy).mono ?_ hused, fun name p hp => ?_,
    fun y hy => (h.handler y hy).mono ?_ hused, h.below⟩
  · obtain ⟨own, hd⟩ := fl
    cases hy
    rcases hd with _ | ⟨z | _ | _ | _⟩
    · exact hw
    · exact h.below z y rfl rfl
    all_goals exact hw
  · have := h.spawn name p hp
    cases p with
    | store f i stack => exact hlast _ this
    | _ => exact this
  · obtain ⟨own, hd⟩ := fl
    cases hy
    cases own <;> exact hw

/-- A store of a stack pointer uses up no slot. -/
theorem used_iff_of_esp {t : Cpu} {i : Slot} {esp : Option StackPtr}
    (htasks : ∀ j, t.sched.tasks j =
      if j = i then { s.sched.tasks i with esp := esp } else s.sched.tasks j) (j : Slot) :
    s.Used j ↔ t.Used j := by
  rw [Used, Used, htasks]
  split
  · rename_i hj
    rw [hj]
  · rfl

/-- `mov [eax], esp` saves the stack pointer of the running task into its own slot. -/
theorem Inv.save (h : s.Inv) {prev next : Slot} {esp : Option StackPtr}
    (hz : s.flow.yieldPc = some (.save prev next esp)) :
    ((s.saveEsp prev).goto (.load next esp)).Inv := by
  obtain ⟨rfl, hne, hu, hesp⟩ := yieldOk_of_yieldPc h.running hz
  generalize ht : (s.saveEsp s.running).goto (.load next esp) = t
  have hrun : t.running = s.running := by rw [← ht]; rfl
  have hself : t.last s.running = some ⟨s.running, s.serial⟩ := by
    rw [← ht]
    exact Function.update_self _ _ _
  have hlast : ∀ i, i ≠ s.running → t.last i = s.last i := by
    intro i hi
    rw [← ht]
    exact Function.update_of_ne hi _ _
  have hmono : ∀ i, s.last i ≠ none → t.last i ≠ none := by
    intro i hi
    by_cases hr : i = s.running
    · rw [hr, hself]
      simp
    · rwa [hlast i hr]
  have htasks : ∀ i, t.sched.tasks i =
      if i = s.running then { s.sched.tasks s.running with esp := some ⟨s.running, s.serial⟩ }
      else s.sched.tasks i := by
    intro i
    rw [← ht]
    exact modify_tasks s s.running (fun t => { t with esp := some ⟨s.running, s.serial⟩ }) i
  have hused := used_iff_of_esp htasks
  have hnew : t.flows s.running = s.flow.goto (.load next esp) := by
    rw [← ht]
    exact Function.update_self _ _ _
  have hflows : ∀ g, g ≠ s.running → t.flows g = s.flows g := by
    intro g hg
    rw [← ht]
    exact Function.update_of_ne hg _ _
  have hok : t.FlowOk s.running (t.flows s.running) := by
    have hret := flowOk_goto (y := .ret) h.running hz trivial
    have hret' := hret.mono (window_goto _ _) (fun i => (hused i).1) hmono
    have hy : t.YieldOk s.running (.load next esp) :=
      ⟨hne, (hused next).1 hu, by rw [hlast next hne, hesp], by simp [hself]⟩
    rw [hnew, ← goto_goto s.flow .ret]
    exact flowOk_goto hret' (yieldPc_goto _ _) hy
  refine ⟨fun g => ?_, fun g hg => ?_, ?_, ?_, fun i => ?_, fun i hi hui => ?_, fun i p hp => ?_, ?_⟩
  · by_cases hr : g = s.running
    · rw [hr]
      exact hok
    · rw [hflows g hr]
      exact (h.flows g).mono (h.quiet g hr) (fun i => (hused i).1) hmono
  · rw [hrun] at hg
    rw [hflows g hg]
    exact h.quiet g hg
  · have hcur : t.sched.current = s.sched.current := by rw [← ht]; rfl
    rw [flow, hrun, hnew, window_goto, hcur, h.current, window_eq hz]
    rfl
  · rw [hrun]
    exact (hused _).1 h.used
  · rw [htasks]
    split
    · rename_i hi
      rw [hi, hself]
    · rename_i hi
      rw [hlast i hi, h.held]
  · rw [hrun] at hi
    exact hmono i (h.alive i hi ((hused i).2 hui))
  · by_cases hr : i = s.running
    · rw [hr, hself] at hp
      cases hp
      exact hr.symm
    · exact h.owner i p (hlast i hr ▸ hp)
  · refine h.masked_of_flows (by rw [← ht]; rfl) hflows fun hn => ?_
    rw [hnew] at hn
    exact fun h0 => hn ((handler_goto _ _).2 h0)

/-- `mov esp, [esp + 24]` goes on on the stack of the next task. -/
theorem Inv.load (h : s.Inv) {next : Slot} {esp : Option StackPtr}
    (hz : s.flow.yieldPc = some (.load next esp))
    (hst : (s.goto .ret).loadEsp esp = some s') : s'.Inv := by
  obtain ⟨hne, hu, rfl, hself⟩ := yieldOk_of_yieldPc h.running hz
  obtain ⟨p, hp⟩ := Option.ne_none_iff_exists'.1 (h.alive next hne hu)
  have hown := h.owner next p hp
  rw [hp, loadEsp] at hst
  obtain ⟨-, ⟨⟩⟩ := Option.ite_none_right_eq_some.1 hst
  rw [hown]
  have hf : s.Frame (s.goto .ret) := frame_setFlow _ _
  have hnew : (s.goto .ret).flows s.running = s.flow.goto .ret := Function.update_self _ _ _
  have hflows : ∀ g, g ≠ s.running → (s.goto .ret).flows g = s.flows g := hf.flows
  refine ⟨fun g => ?_, fun g hg => ?_, ?_, hu, h.held, fun i hi hui => ?_, h.owner, ?_⟩
  · by_cases hr : g = s.running
    · rw [hr]
      have hok := flowOk_goto (y := .ret) h.running hz trivial
      rw [← hnew] at hok
      exact hok.frame hf.used rfl
    · have hok := h.flows g
      rw [← hflows g hr] at hok
      exact hok.frame hf.used rfl
  · by_cases hr : g = s.running
    · rw [hr]
      exact hnew ▸ window_goto _ _
    · exact (congrArg Flow.window (hflows g hr)).trans (h.quiet g hr)
  · have hwin : ((s.goto .ret).flows next).window = none := by
      rw [hflows next hne]
      exact h.quiet next hne
    have hcur : s.sched.current = next := by
      rw [h.current, window_eq hz]
      rfl
    rw [flow, hwin]
    exact hcur
  · by_cases hr : i = s.running
    · rw [hr]
      exact hself
    · exact h.alive i hr hui
  · refine h.masked_of_flows rfl hflows fun hn => ?_
    rw [hnew] at hn
    exact fun h0 => hn ((handler_goto _ _).2 h0)

/-- **Every statement of `Yield` keeps the invariant.** -/
theorem Inv.yieldNext (h : s.Inv) (hz : s.flow.yieldPc = some z)
    (hst : s.yieldNext z = some s') : s'.Inv := by
  have hok := yieldOk_of_yieldPc h.running hz
  have hrefl := Frame.refl s
  have hcur := h.current_of_window hz
  cases z with
  | check =>
    cases hst
    split
    · exact h.finish hz (hcur rfl)
    · exact h.goto hz hrefl rfl rfl trivial (hcur rfl)
  | ticks =>
    cases hst
    exact h.goto hz hrefl rfl rfl trivial (hcur rfl)
  | index now step =>
    simp only [Cpu.yieldNext] at hst
    split at hst
    · cases hst
      exact h.goto hz hrefl rfl rfl trivial (hcur rfl)
    · -- no task is ready: `PickNext` returns the current one, which is in use
      cases hst
      exact h.goto hz hrefl rfl rfl (hcur rfl ▸ h.used) (hcur rfl)
  | wake now step idx =>
    cases hst
    -- a task that wakes was in use before
    have hf : s.Frame (s.modify idx (·.wake now)) := by
      refine frame_modify (Task.wake_esp now) (fun hu => ?_) fun hu => .inl ?_
      · rwa [Ne, Task.wake_state_eq_unused_iff]
      · rwa [Ne, Task.wake_state_eq_unused_iff] at hu
    exact h.goto hz hf rfl rfl trivial (hcur rfl)
  | test now step idx =>
    simp only [Cpu.yieldNext] at hst
    split at hst
    · rename_i hready
      cases hst
      have hu : s.Used idx := by simp [Used, hready]
      exact h.goto hz hrefl rfl rfl hu (hcur rfl)
    · cases hst
      exact h.goto hz hrefl rfl rfl trivial (hcur rfl)
  | compare next =>
    cases hst
    split
    · exact h.finish hz (hcur rfl)
    · rename_i hne
      exact h.goto hz hrefl rfl rfl ⟨hcur rfl ▸ hne, hok⟩ (hcur rfl)
  | prev next =>
    cases hst
    exact h.goto hz hrefl rfl rfl ⟨hcur rfl, hok⟩ (hcur rfl)
  | current prev next =>
    cases hst
    -- from here on `current` is ahead of the task that runs
    have hf : s.Frame { s with sched := { s.sched with current := next } } :=
      ⟨rfl, rfl, fun _ => rfl, fun _ hu => hu, fun _ hu => .inl hu, fun _ _ => rfl⟩
    exact h.goto hz hf rfl rfl hok rfl
  | count prev next =>
    cases hst
    have hf : s.Frame (s.modify prev fun t => { t with yields := u32 (t.yields + 1) }) :=
      frame_modify_of_eq (fun _ => rfl) fun _ => rfl
    refine h.goto hz hf rfl rfl (YieldOk.frame (y := .push prev next) hok hf.used hf.last) ?_
    rw [modify, h.current, window_eq hz]
    rfl
  | push prev next =>
    cases hst
    refine h.goto hz hrefl rfl rfl ⟨hok.1, hok.2.1, hok.2.2, h.held next⟩ ?_
    rw [h.current, window_eq hz]
    rfl
  | save prev next esp =>
    cases hst
    exact h.save hz
  | load next esp => exact h.load hz hst
  | ret =>
    cases hst
    exact h.finish hz (hcur rfl)

/-! ### The other statements -/

theorem Inv.sleepNext (h : s.Inv) {p : SleepPc} (hfl : s.flow = ⟨.sleep p, none⟩) :
    (s.sleepNext p).Inv := by
  have hh : s.flow.handler = none := by rw [hfl]
  have hw : s.flow.window = none := by rw [hfl]; rfl
  have hrefl := Frame.refl s
  cases p with
  | check ms =>
    simp only [Cpu.sleepNext]
    split
    · exact h.setOwn hh hw hrefl rfl rfl rfl (fun y hy => (by cases hy)) fun n p hp => (by cases hp)
    · exact h.setOwn hh hw hrefl rfl rfl rfl (fun y hy => (by cases hy)) fun n p hp => (by cases hp)
  | deadline ticks =>
    have hf : s.Frame (s.modify s.sched.current fun t =>
        { t with sleepUntil := u32 (s.ticks + ticks) }) :=
      frame_modify_of_eq (fun _ => rfl) fun _ => rfl
    exact h.setOwn hh hw hf rfl rfl rfl (fun y hy => (by cases hy)) fun n p hp => (by cases hp)
  | state =>
    have hcur : s.sched.current = s.running := by rw [h.current, hw, Option.getD_none]
    have hf : s.Frame (s.modify s.sched.current fun t => { t with state := .sleeping }) :=
      frame_modify (fun _ => rfl) (fun _ => by simp) fun _ => .inl (hcur ▸ h.used)
    exact h.setOwn hh hw hf rfl rfl rfl (fun y hy => (by cases hy; rfl)) fun n p hp => (by cases hp)

/-- The fields that `Spawn` stores behind the stack pointer. -/
theorem frame_storeField (name : List UInt8) {i : Slot} (stack : ℕ) (f : Field)
    (hi : s.last i ≠ none) : s.Frame (s.storeField name i stack f) := by
  have hf : s.Frame (s.modify i fun t => f.store name stack s.sched.spawnedCount t) :=
    frame_modify (Field.store_esp name stack _ · f) (Field.store_used name stack _ f) fun _ =>
      .inr hi
  unfold storeField
  split
  · exact ⟨hf.running, hf.last, hf.esp, hf.used, hf.born, hf.flows⟩
  · exact hf

theorem storeField_frame (s : Cpu) (name : List UInt8) (i : Slot) (stack : ℕ) (f : Field) :
    (s.storeField name i stack f).flow = s.flow ∧ (s.storeField name i stack f).intr = s.intr ∧
      (s.storeField name i stack f).sched.current = s.sched.current ∧
      (s.storeField name i stack f).last = s.last := by
  cases f <;> exact ⟨rfl, rfl, rfl, rfl⟩

/-- **`Spawn` prepares a stack** for a slot that has none. -/
theorem Inv.prepare (h : s.Inv) {name : List UInt8} {i : Slot} {stack : ℕ}
    (hfl : s.flow = ⟨.spawn name (.esp i stack), none⟩) (hfree : (s.sched.tasks i).esp = none) :
    ((s.prepare i).setOwn (.spawn name (.store .stackBase i stack))).Inv := by
  have hi : i ≠ s.running := h.running.spawn name (.esp i stack) (by rw [hfl])
  have hnone : s.last i = none := (h.held i).symm.trans hfree
  have hold : (s.prepare i).flow = s.flow := Function.update_of_ne hi.symm _ _
  -- the flow of the spawner moves on, that of slot `i` is fresh, and the others stay
  generalize ht : (s.prepare i).setOwn (.spawn name (.store .stackBase i stack)) = t
  have hrun : t.running = s.running := by rw [← ht]; rfl
  have hnew : t.flow = ⟨.spawn name (.store .stackBase i stack), none⟩ := by
    rw [← ht, Cpu.setOwn, flow_setFlow, hold, hfl]
  have hflows : ∀ g, g ≠ s.running → t.flows g = s.flows g ∨ t.flows g = .fresh := by
    intro g hg
    have hset : t.flows g = (s.prepare i).flows g := by
      rw [← ht]
      exact Function.update_of_ne hg _ _
    rw [hset, Cpu.prepare]
    by_cases hgi : g = i
    · exact .inr (hgi ▸ Function.update_self _ _ _)
    · exact .inl (Function.update_of_ne hgi _ _)
  have hlast : ∀ j, t.last j = if j = i then some ⟨i, s.serial⟩ else s.last j := by
    intro j
    rw [← ht, ← Function.update_apply]
    simp only [Cpu.prepare, hnone, ↓reduceIte]
    rfl
  have hmono : ∀ j, s.last j ≠ none → t.last j ≠ none := by
    intro j hj
    rw [hlast]
    split
    · simp
    · exact hj
  have htasks : ∀ j, t.sched.tasks j =
      if j = i then { s.sched.tasks i with esp := some ⟨i, s.serial⟩ } else s.sched.tasks j := by
    intro j
    rw [← ht]
    exact modify_tasks s i (fun t => { t with esp := some ⟨i, s.serial⟩ }) j
  have hused := used_iff_of_esp htasks
  have hcur : s.sched.current = s.running := by rw [h.current, hfl]; rfl
  refine ⟨fun g => ?_, fun g hg => ?_, ?_, hrun ▸ (hused _).1 h.used, fun j => ?_, fun j hj hu => ?_,
    fun j p hp => ?_, h.masked_of_handlers ?_ fun g hg => ?_⟩
  · by_cases hr : g = s.running
    · have hfl' : t.flows g = ⟨.spawn name (.store .stackBase i stack), none⟩ := by
        rw [hr, ← hrun]
        exact hnew
      rw [hfl']
      refine ⟨fun y hy => (by cases hy), fun n p hp => ?_, fun y hy => (by cases hy),
        fun y z hy => (by cases hy)⟩
      cases hp
      simp [SpawnOk, hlast]
    · rcases hflows g hr with heq | heq
      · rw [heq]
        exact (h.flows g).mono (h.quiet g hr) (fun j => (hused j).1) hmono
      · rw [heq]
        exact flowOk_fresh t g
  · rcases hflows g (hrun ▸ hg) with heq | heq
    · rw [heq]
      exact h.quiet g (hrun ▸ hg)
    · rw [heq]
      rfl
  · have hc : t.sched.current = s.sched.current := by rw [← ht]; rfl
    rw [hc, hcur, hnew, hrun]
    rfl
  · rw [htasks, hlast]
    split
    · rfl
    · exact h.held j
  · exact hmono j (h.alive j (hrun ▸ hj) ((hused j).2 hu))
  · rw [hlast] at hp
    split at hp
    · rename_i hj
      cases hp
      exact hj.symm
    · exact h.owner j p hp
  · rw [← ht]
    rfl
  · by_cases hr : g = s.running
    · rw [hr, ← hrun] at hg
      exact absurd (congrArg Flow.handler hnew) hg
    · rcases hflows g hr with heq | heq
      · rwa [heq] at hg
      · exact absurd (congrArg Flow.handler heq) hg

theorem Inv.spawnNext (h : s.Inv) {name : List UInt8} {p : SpawnPc}
    (hfl : s.flow = ⟨.spawn name p, none⟩) (hok : s.Clear .next)
    (hst : s.spawnNext name p = some s') : s'.Inv := by
  have hh : s.flow.handler = none := by rw [hfl]
  have hw : s.flow.window = none := by rw [hfl]; rfl
  have hrefl := Frame.refl s
  have hp : s.SpawnOk s.running p := h.running.spawn name p (by rw [hfl])
  cases p with
  | check =>
    cases hst
    refine h.setOwn hh hw hrefl rfl rfl rfl (fun y hy => ?_) fun n p hp => ?_
    · split at hy <;> cases hy
    · split at hp <;> cases hp
      trivial
  | search i =>
    simp only [Cpu.spawnNext] at hst
    split at hst
    · rename_i hi
      split at hst
      · -- the free slot is not that of the spawner, which is in use
        rename_i hfree
        cases hst
        refine h.setOwn hh hw hrefl rfl rfl rfl (fun y hy => (by cases hy)) fun n p hp => ?_
        cases hp
        intro heq
        exact h.used (heq ▸ hfree)
      · cases hst
        refine h.setOwn hh hw hrefl rfl rfl rfl (fun y hy => (by cases hy)) fun n p hp => ?_
        cases hp
        trivial
    · cases hst
      exact h.setOwn hh hw hrefl rfl rfl rfl (fun y hy => (by cases hy)) fun n p hp => (by cases hp)
  | alloc i => cases hst
  | esp i stack =>
    cases hst
    exact h.prepare hfl (hok i (by rw [hfl]; rfl))
  | store f i stack =>
    cases hst
    have hf := frame_storeField name stack f hp
    obtain ⟨h1, h2, h3, h4⟩ := storeField_frame s name i stack f
    refine h.setOwn hh hw hf h1 h2 h3 (fun y hy => ?_) fun n p hp' => ?_
    · split at hy <;> cases hy
    · split at hp' <;> cases hp'
      rwa [SpawnOk, h4]

/-- The running task goes on in the handler, or leaves it. -/
theorem Inv.setHandler {t : Cpu} {hd : Option HandlerPc} (h : s.Inv) (hf : s.Frame t)
    (hflow : t.flow = s.flow)
    (hcur : t.sched.current = (⟨s.flow.own, hd⟩ : Flow).window.getD s.running)
    (hy : ∀ y, hd = some (.yield y) →
      t.YieldOk s.running y ∧ ∀ z, s.flow.own = .yield z → z.window = none)
    (hmasked : ∀ g, ((t.setHandler hd).flows g).handler ≠ none →
      t.intr = false ∧ ∀ h, ((t.setHandler hd).flows h).handler ≠ none → h = g) :
    (t.setHandler hd).Inv := by
  have hft : s.Frame (t.setHandler hd) := hf.trans (frame_setFlow _ _)
  have hnew : (t.setHandler hd).flow = ⟨s.flow.own, hd⟩ := by
    rw [Cpu.setHandler, flow_setFlow, hflow]
  have hown := h.running.frame hft.used hft.last
  refine h.frame hft ?_ ?_ hmasked
  · rw [hnew, hft.running]
    exact ⟨hown.own, hown.spawn, fun y hy' => (hy y hy').1, fun y z hy' => (hy y hy').2 z⟩
  · rw [hnew, hft.running]
    exact hcur

/-- Below the handler nothing changes while `Yield` is not involved. -/
theorem window_own {o : OwnPc} {h : HandlerPc} (hh : ∀ y, h ≠ .yield y) :
    (⟨o, some h⟩ : Flow).window = (⟨o, none⟩ : Flow).window := by
  cases h with
  | yield y => exact absurd rfl (hh y)
  | _ => cases o <;> rfl

theorem setHandler_flows (s : Cpu) (h : Option HandlerPc) (g : Slot) :
    (s.setHandler h).flows g = if g = s.running then ⟨s.flow.own, h⟩ else s.flows g :=
  Function.update_apply _ _ _ _

theorem Inv.handlerNext (h : s.Inv) {hd : HandlerPc} (hfl : s.flow.handler = some hd)
    (hst : s.handlerNext hd = some s') : s'.Inv := by
  obtain ⟨own, hd', hflow⟩ : ∃ o d, s.flow = ⟨o, d⟩ := ⟨_, _, rfl⟩
  have hcur := h.current
  rw [hflow] at hfl hcur
  cases hfl
  -- the steps behind `Yield` change none of what the frame is about
  have hframe : ∀ a b c, s.Frame { s with intr := a, inPreempt := b, pending := c } := fun _ _ _ =>
    ⟨rfl, rfl, fun _ => rfl, fun _ hu => hu, fun _ hu => .inl hu, fun _ _ => rfl⟩
  have hself : (s.flows s.running).handler ≠ none := by
    rw [← flow, hflow]
    simp
  have hback : ∀ {t : Cpu} {d : Option HandlerPc} (g : Slot), t.running = s.running →
      t.flows = s.flows → ((t.setHandler d).flows g).handler ≠ none →
      (s.flows g).handler ≠ none := by
    intro t d g hrun hfl hg
    rw [setHandler_flows, hrun, hfl] at hg
    split at hg
    · rename_i hr
      rwa [hr]
    · exact hg
  cases hd with
  | yield y => exact h.yieldNext (by rw [hflow]; cases own <;> rfl) hst
  | leave =>
    cases hst
    refine h.setHandler (hframe s.intr false s.pending) rfl ?_ (fun y hy => by cases hy)
      (h.masked_of_handlers rfl fun g hg => hback g rfl rfl hg)
    rw [hflow, window_own (by simp)]
    rwa [window_own (by simp)] at hcur
  | acknowledge =>
    cases hst
    refine h.setHandler (hframe s.intr s.inPreempt false) rfl ?_ (fun y hy => by cases hy)
      (h.masked_of_handlers rfl fun g hg => hback g rfl rfl hg)
    rw [hflow, window_own (by simp)]
    rwa [window_own (by simp)] at hcur
  | iret =>
    cases hst
    refine h.setHandler (hframe true s.inPreempt s.pending) rfl ?_ (fun y hy => by cases hy) ?_
    · rw [hflow]
      rwa [window_own (by simp)] at hcur
    · -- this was the only task in the handler
      intro g hg
      have hr : g = s.running := (h.masked _ hself).2 g (hback g rfl rfl hg)
      rw [setHandler_flows, if_pos hr] at hg
      exact absurd rfl hg

/-- **The timer interrupt keeps the invariant** if it preempts nobody between the two statements. -/
theorem Inv.tick (h : s.Inv) (hintr : s.intr = true) (hok : s.Clear .tick) : s.tick.Inv := by
  -- interrupts are enabled, so no task is in the handler
  have hnone : ∀ g, (s.flows g).handler = none := by
    intro g
    by_contra hg
    cases (h.masked g hg).1.symm.trans hintr
  have hflow : s.flow = ⟨s.flow.own, none⟩ := by
    rw [← hnone s.running]
    rfl
  have hcur := h.current
  have honly : ∀ {t : Cpu} {d : Option HandlerPc}, t.running = s.running → t.flows = s.flows →
      t.intr = false → ∀ g, ((t.setHandler d).flows g).handler ≠ none →
      t.intr = false ∧ ∀ h, ((t.setHandler d).flows h).handler ≠ none → h = g := by
    intro t d hrun hfl hintr g hg
    have hrunning : ∀ k, ((t.setHandler d).flows k).handler ≠ none → k = s.running := by
      intro k hk
      by_contra hr
      rw [setHandler_flows, hrun, hfl, if_neg hr, hnone] at hk
      exact absurd rfl hk
    exact ⟨hintr, fun k hk => (hrunning k hk).trans (hrunning g hg).symm⟩
  have hframe : ∀ a b c d, s.Frame { s with ticks := a, intr := b, pending := c, inPreempt := d } :=
    fun _ _ _ _ => ⟨rfl, rfl, fun _ => rfl, fun _ hu => hu, fun _ hu => .inl hu, fun _ _ => rfl⟩
  unfold Cpu.tick
  dsimp only
  split
  · rename_i hdue
    have hdiv : u32 (s.ticks + 1) % preemptEvery = 0 := by
      simp only [Bool.and_eq_true, decide_eq_true_eq] at hdue
      exact hdue.1.1.2
    have hpick : s.Frame { s with
        ticks := u32 (s.ticks + 1), intr := false, pending := true, inPreempt := true,
        sched := (s.sched.pickNext (u32 (s.ticks + 1))).1 } :=
      ⟨rfl, rfl, fun i => pickNext_esp _ _ i,
        fun i hu => fun hn => hu ((pickNext_unused _ _ i).1 hn),
        fun i hu => .inl fun hn => hu ((pickNext_unused _ _ i).2 hn), fun _ _ => rfl⟩
    split
    · -- `PickNext` finds nobody else to run
      refine h.setHandler hpick rfl ?_ (fun y hy => by cases hy) (honly rfl rfl rfl)
      rw [window_own (by simp), ← hflow]
      exact hcur
    · rename_i hne
      -- a switch: by the condition, not from between the two statements
      have hw : s.flow.window = none := by
        by_contra hw
        exact hne ((pickNext_eq_current_iff _ _).2 (hok hw hdiv))
      have hrun : s.sched.current = s.running := by rw [hcur, hw, Option.getD_none]
      refine h.setHandler hpick rfl hrun (fun y hy => ?_) (honly rfl rfl rfl)
      cases hy
      refine ⟨⟨hrun ▸ hne, hpick.used _ (pickNext_used hne)⟩, fun z hz => ?_⟩
      rw [hflow, hz] at hw
      exact hw
  · refine h.setHandler (hframe (u32 (s.ticks + 1)) false true s.inPreempt) rfl ?_
      (fun y hy => by cases hy) (honly rfl rfl rfl)
    rw [window_own (by simp), ← hflow]
    exact hcur

/-- **Every step that is clear keeps the invariant.** -/
theorem Inv.step (h : s.Inv) {m : Move} (hok : s.Clear m) (hst : s.step m = some s') : s'.Inv := by
  cases m with
  | call c =>
    obtain ⟨hfresh, ⟨⟩⟩ := Option.ite_none_right_eq_some.1 hst
    have hh : s.flow.handler = none := by rw [hfresh]; rfl
    have hw : s.flow.window = none := by rw [hfresh]; rfl
    have hrefl := Frame.refl s
    cases c with
    | yield =>
      exact h.setOwn hh hw hrefl rfl rfl rfl (fun y hy => by cases hy; rfl) fun n p hp => by cases hp
    | sleep ms =>
      exact h.setOwn hh hw hrefl rfl rfl rfl (fun y hy => by cases hy) fun n p hp => by cases hp
    | spawn name =>
      refine h.setOwn hh hw hrefl rfl rfl rfl (fun y hy => by cases hy) fun n p hp => ?_
      cases hp
      trivial
  | next =>
    simp only [Cpu.step, Cpu.next] at hst
    split at hst
    · rename_i hd hfl
      exact h.handlerNext hfl hst
    · rename_i hh
      have hfl : s.flow = ⟨s.flow.own, none⟩ := by rw [← hh]
      split at hst
      · cases hst
      · rename_i y hown
        rw [hown] at hfl
        exact h.yieldNext (by rw [hfl]; rfl) hst
      · rename_i p hown
        rw [hown] at hfl
        cases hst
        exact h.sleepNext hfl
      · rename_i name p hown
        rw [hown] at hfl
        exact h.spawnNext hfl hok hst
  | alloc stack =>
    simp only [Cpu.step] at hst
    split at hst
    · rename_i name i hfl
      cases hst
      have hi : i ≠ s.running := h.running.spawn name (.alloc i) (by rw [hfl])
      refine h.setOwn (by rw [hfl]) (by rw [hfl]; rfl) (Frame.refl s) rfl rfl rfl (fun y hy => ?_)
        fun n p hp => ?_
      · split at hy <;> cases hy
      · split at hp <;> cases hp
        exact hi
    · cases hst
  | tick =>
    obtain ⟨⟨hintr, -⟩, ⟨⟩⟩ := Option.ite_none_right_eq_some.1 hst
    exact h.tick hintr hok

/-- **Along every run whose steps are clear, all contexts are intact.** -/
theorem intact_of_clear (hs : (lts.guard Clear).Reachable s) : s.Intact :=
  (hs.induct (I := Inv) (fun _ h => h ▸ inv_boot) fun _ _ _ h hst => h.step hst.1 hst.2).intact

/-! ### Two runs -/

instance (s : Cpu) (m : Move) : Decidable (s.Clear m) := by
  cases m <;> unfold Clear <;> infer_instance

/-- The kernel spawns the task in slot `n`. -/
def spawnRun (n : ℕ) : List Move :=
  .call (.spawn kernelName) :: List.replicate (n + 2) .next ++ .alloc 0x300000 ::
    List.replicate 8 .next

/-- A tick that does not preempt, and its handler. -/
def quietTick : List Move := [.tick, .next, .next]

/-- The kernel spawns a task, sees a tick and yields to the task. -/
def cooperativeRun : List Move :=
  spawnRun 1 ++ quietTick ++ .call .yield :: List.replicate 12 .next

theorem intact_cooperativeRun :
    ∃ s, (lts.guard Clear).Reachable s ∧ s.running = 1 ∧ s.Intact := by
  obtain ⟨s, hs, hrun⟩ : ∃ s, (lts.guard Clear).Reachable s ∧ decide (s.running = 1) = true :=
    Lts.exists_reachable_det (Lts.guard_det (· = boot) step Clear) (rfl : boot = boot) cooperativeRun _
      (by decide +kernel)
  exact ⟨s, hs, of_decide_eq_true hrun, intact_of_clear hs⟩

/-- With two tasks spawned, the fifth tick preempts the kernel's `Yield` behind `current = next`,
and the task it switches to yields in turn. -/
def lostRun : List Move :=
  spawnRun 1 ++ spawnRun 2 ++ (List.replicate 4 quietTick).flatten ++
    .call .yield :: List.replicate 8 .next ++ .tick :: List.replicate 6 .next ++
    .call .yield :: List.replicate 26 .next

/-- The kernel's stack pointer is saved into the slot of a task, and its own slot still holds the
null pointer when `switch_task` loads it. -/
theorem not_intact_lostRun : ¬ ∀ s, lts.Reachable s → s.Intact := by
  intro h
  obtain ⟨s, hs, hlost⟩ : ∃ s, lts.Reachable s ∧
      decide (s.flow.yieldPc = some (.load kernel none) ∧ s.last kernel ≠ none) = true :=
    Lts.exists_reachable_det (f := step) rfl (rfl : boot = boot) lostRun _ (by decide +kernel)
  obtain ⟨hload, hsaved⟩ := of_decide_eq_true hlost
  exact hsaved ((h s hs).load _ _ hload).2.symm

end Cpu

end Shiro
