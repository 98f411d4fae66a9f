import Shiro.Sched.Preempt

/-!
# Tasks stranded in the timer handler

A task that loses the CPU inside the timer handler leaves interrupts off, `in_preempt` set and the
interrupt unacknowledged, and only it can put that right.  Until it gets the CPU back, the others
run without a clock.

* `Machine.Stranded` : a task that waits inside the handler.
* `accounted` : **in every reachable state** at most one task is stranded, and the three flags follow
  from the place of the running task and from whether there is one.
* `frozen_until_resumed` : **the tick count stands still** until the stranded task is back.
* `stuck_iff` : **the machine is dead** exactly when it halts while a task is stranded.
-/

namespace Shiro

open Sched

/-- IF, `in_preempt`, and whether a timer interrupt waits for its acknowledgement. -/
structure IntrFlags where
  intr : Bool
  inPreempt : Bool
  pending : Bool
  deriving DecidableEq

/-- The flags at a place, when no other task is stranded. -/
def Place.flags : Place → IntrFlags
  | .code | .halted => ⟨true, false, false⟩
  | .entered | .handled => ⟨false, false, true⟩
  | .resumed => ⟨false, true, true⟩
  | .acknowledged => ⟨false, false, false⟩

/-- The flags that a stranded task leaves behind. -/
def strandedFlags : IntrFlags := ⟨false, true, true⟩

namespace Machine

/-- The flags of the machine. -/
def flags (s : Machine) : IntrFlags := ⟨s.intr, s.inPreempt, s.pending⟩

/-- The task in slot `i` lost the CPU inside the timer handler and has not got it back. -/
def Stranded (s : Machine) (i : Slot) : Prop := i ≠ s.sched.current ∧ s.saved i = .preempted

instance (s : Machine) (i : Slot) : Decidable (s.Stranded i) :=
  inferInstanceAs (Decidable (_ ∧ _))

/-- Whatever the flags say, some flow accounts for it: the running one, or a stranded one. -/
structure Accounted (s : Machine) : Prop where
  ready : s.sched.ready = true
  callback : s.callback = true
  running : (s.sched.tasks s.sched.current).state ≠ .unused
  used : ∀ i, s.Stranded i → (s.sched.tasks i).state ≠ .unused
  one : ∀ i j, s.Stranded i → s.Stranded j → i = j
  own : ∀ i, s.Stranded i → s.place.Own ∧ s.flags = strandedFlags
  alone : (∀ i, ¬ s.Stranded i) → s.flags = s.place.flags

variable {s s' t : Machine} {e : Event} {i n : Slot}

/-! ### What a step does -/

theorem Accounted.intr (h : s.Accounted) (hi : s.Stranded i) : s.intr = false :=
  congrArg IntrFlags.intr (h.own i hi).2

/-- Nobody is stranded while a handler runs. -/
theorem Accounted.alone_of_not_own (h : s.Accounted) (hplace : ¬ s.place.Own) (i : Slot) :
    ¬ s.Stranded i := fun hi => hplace (h.own i hi).1

/-- Nobody is stranded while interrupts are on. -/
theorem Accounted.alone_of_intr (h : s.Accounted) (hintr : s.intr = true) (i : Slot) :
    ¬ s.Stranded i := fun hi => by
  have := h.intr hi
  rw [hintr] at this
  cases this

/-- A step that leaves the table's slots, the running task and the others' places alone. -/
theorem Accounted.of_flags (h : s.Accounted) (hsched : s'.sched = s.sched)
    (hsaved : s'.saved = s.saved) (hcall : s'.callback = s.callback) (hno : ∀ i, ¬ s.Stranded i)
    (hflags : s'.flags = s'.place.flags) : s'.Accounted := by
  have hiff : ∀ i, s'.Stranded i ↔ s.Stranded i := fun i => by
    unfold Stranded
    rw [hsched, hsaved]
  refine ⟨by rw [hsched]; exact h.ready, hcall.trans h.callback, by rw [hsched]; exact h.running,
    fun i hi => ?_, fun i j hi _ => ?_, fun i hi => ?_, fun _ => hflags⟩
  · exact absurd ((hiff i).1 hi) (hno i)
  · exact absurd ((hiff i).1 hi) (hno i)
  · exact absurd ((hiff i).1 hi) (hno i)

theorem inv_accounted_boot : boot.Accounted := by
  have hno : ∀ i, ¬ boot.Stranded i := fun i hi => by cases hi.2
  exact ⟨rfl, rfl, by decide, fun i hi => absurd hi (hno i), fun i _ hi => absurd hi (hno i),
    fun i hi => absurd hi (hno i), fun _ => rfl⟩

/-- `PickNext` and the switch empty no slot and fill none. -/
theorem switchTo_unused (s : Sched ℕ) (now : ℕ) (n j : Slot) :
    (((s.pickNext now).1.switchTo n).tasks j).state = .unused ↔ (s.tasks j).state = .unused := by
  rw [(switchTo_tasks _ n j).2, pickNext_unused]

/-- The machine after a `Yield` that switches to slot `n`. -/
def switched (s : Machine) (how : Suspension) (n : Slot) : Machine :=
  { s with
    sched := (s.sched.pickNext s.ticks).1.switchTo n
    saved := Function.update s.saved s.sched.current how
    place := (s.saved n).resume }

theorem stranded_switched (s : Machine) (how : Suspension) (n j : Slot) :
    (s.switched how n).Stranded j ↔
      j ≠ n ∧ if j = s.sched.current then how = .preempted else s.Stranded j := by
  unfold Stranded switched
  dsimp only [switchTo]
  by_cases hj : j = s.sched.current
  · simp [hj]
  · simp [hj]

/-- `Yield` from own code goes on in own code, or takes a stranded task back. -/
theorem Accounted.yield (h : s.Accounted) (hplace : s.place = .code) :
    (s.yield .yielded .code).Accounted := by
  by_cases hpick : (s.sched.pickNext s.ticks).2 = s.sched.current
  · rw [yield_stay h.ready hpick]
    -- waking a sleeper changes nothing that is accounted for
    refine ⟨h.ready, h.callback, fun hu => h.running ((pickNext_unused _ _ _).1 hu),
      fun i hi hu => h.used i hi ((pickNext_unused _ _ _).1 hu), h.one, fun i hi => ?_,
      fun hno => ?_⟩
    · exact ⟨.inl rfl, (h.own i hi).2⟩
    · exact (h.alone hno).trans (congrArg Place.flags hplace)
  generalize hn : (s.sched.pickNext s.ticks).2 = n at hpick
  have hused := pickNext_used (hn ▸ hpick)
  rw [hn] at hused
  have heq : s.yield .yielded .code = s.switched .yielded n := by
    rw [yield_switch h.ready (hn ▸ hpick), hn, switched]
  have hiff : ∀ j, (s.switched .yielded n).Stranded j ↔ j ≠ n ∧ s.Stranded j := fun j => by
    rw [stranded_switched]
    by_cases hj : j = s.sched.current
    · simp [hj, Stranded]
    · simp [hj]
  rw [heq]
  refine ⟨h.ready, h.callback, fun hu => hused ((switchTo_unused _ _ _ _).1 hu),
    fun j hj hu => h.used j ((hiff j).1 hj).2 ((switchTo_unused _ _ _ _).1 hu),
    fun i j hi hj => h.one i j ((hiff i).1 hi).2 ((hiff j).1 hj).2, fun j hj => ?_, fun hno => ?_⟩
  · -- the task switched to is not the stranded one
    obtain ⟨hjn, hj⟩ := (hiff j).1 hj
    have hnot : s.saved n ≠ .preempted := fun hs => hjn (h.one j n hj ⟨hpick, hs⟩)
    exact ⟨.inl (resume_of_ne hnot), (h.own j hj).2⟩
  · by_cases hs : s.Stranded n
    · have hres : (s.switched .yielded n).place = .resumed := by
        simp only [switched, hs.2, Suspension.resume]
      rw [hres]
      exact (h.own n hs).2
    · have hnot : s.saved n ≠ .preempted := fun hp => hs ⟨hpick, hp⟩
      have hcode : (s.switched .yielded n).place = .code := resume_of_ne hnot
      have hnone : ∀ i, ¬ s.Stranded i := fun i hi =>
        hno i ((hiff i).2 ⟨fun hin => hs (hin ▸ hi), hi⟩)
      rw [hcode, ← hplace]
      exact h.alone hnone

theorem Accounted.sleep (h : s.Accounted) (hplace : s.place = .code) (ms : ℕ) :
    (s.sleep ms).Accounted := by
  have hnot : ¬ ((!s.sched.ready) = true) := by simp [h.ready]
  rw [Machine.sleep, if_neg hnot]
  -- the slot of the running task goes from one state of a used slot to another
  refine Accounted.yield ⟨h.ready, h.callback, ?_, fun i hi => ?_, h.one, h.own, h.alone⟩ hplace
  · simp [Sched.sleep]
  · have hne : i ≠ s.sched.current := hi.1
    simp only [Sched.sleep, Function.update_of_ne hne]
    exact h.used i hi

/-- `Spawn` fills an unused slot: not that of a stranded task. -/
theorem Accounted.spawn (h : s.Accounted) (stack : ℕ) (name : List UInt8) :
    (s.spawn stack name).Accounted := by
  rcases spawn_cases s.sched stack (preparedEsp stack) name with ⟨heq, -⟩ | ⟨i, hfree, -, heq⟩
  · rw [Machine.spawn, heq]
    exact ⟨h.ready, h.callback, h.running, h.used, h.one, h.own, h.alone⟩
  have hunused := freeSlot_unused hfree
  have hcur : i ≠ s.sched.current := fun hi => h.running (hi ▸ hunused)
  rw [Machine.spawn, heq]
  dsimp only
  generalize hs' : ({ s with
    sched := { s.sched with
      tasks := Function.update s.sched.tasks i (s.sched.newTask stack (preparedEsp stack) name i)
      spawnedCount := u32 (s.sched.spawnedCount + 1) }
    saved := Function.update s.saved i .fresh } : Machine) = s'
  have hiff : ∀ j, s'.Stranded j ↔ s.Stranded j := fun j => by
    subst hs'
    unfold Stranded
    by_cases hj : j = i
    · subst hj
      simp only [Function.update_self, reduceCtorEq, and_false, false_iff, not_and]
      exact fun hne hp => h.used j ⟨hne, hp⟩ hunused
    · simp only [Function.update_of_ne hj]
  have htask : ∀ j, j ≠ i → s'.sched.tasks j = s.sched.tasks j := fun j hj => by
    subst hs'
    exact Function.update_of_ne hj _ _
  have hflags : s'.flags = s.flags ∧ s'.place = s.place ∧ s'.sched.current = s.sched.current ∧
      s'.sched.ready = s.sched.ready ∧ s'.callback = s.callback := by
    subst hs'
    exact ⟨rfl, rfl, rfl, rfl, rfl⟩
  obtain ⟨hfl, hpl, hcu, hre, hca⟩ := hflags
  refine ⟨hre.trans h.ready, hca.trans h.callback, ?_, fun j hj => ?_,
    fun a b ha hb => h.one a b ((hiff a).1 ha) ((hiff b).1 hb), fun j hj => ?_, fun hno => ?_⟩
  · rw [hcu, htask _ hcur.symm]
    exact h.running
  · have hj' := (hiff j).1 hj
    have hji : j ≠ i := fun hji => h.used j hj' (hji ▸ hunused)
    rw [htask j hji]
    exact h.used j hj'
  · rw [hfl, hpl]
    exact h.own j ((hiff j).1 hj)
  · rw [hfl, hpl]
    exact h.alone fun j hj => hno j ((hiff j).2 hj)

/-- A tick that does not preempt anybody goes on in its handler. -/
theorem Accounted.handled (h : s.Accounted) (hplace : s.place = .entered) {t : Machine}
    (ht : t.sched = s.sched ∧ t.saved = s.saved ∧ t.callback = s.callback ∧ t.flags = s.flags)
    (hhandled : t.place = .handled) : t.Accounted := by
  have hno := h.alone_of_not_own (not_own (by simp [hplace]) (by simp [hplace]))
  obtain ⟨hsched, hsaved, hcall, hflags⟩ := ht
  refine h.of_flags hsched hsaved hcall hno ?_
  rw [hflags, h.alone hno, hplace, hhandled]
  rfl

/-- `Timer::Handler`: the task it preempts is the one that is stranded. -/
theorem Accounted.timerHandler (h : s.Accounted) (hplace : s.place = .entered) :
    s.timerHandler.Accounted := by
  have hno := h.alone_of_not_own (not_own (by simp [hplace]) (by simp [hplace]))
  have hflags : s.flags = ⟨false, false, true⟩ := (h.alone hno).trans (congrArg Place.flags hplace)
  have hin : s.inPreempt = false := congrArg IntrFlags.inPreempt hflags
  by_cases hdue : u32 (s.ticks + 1) % preemptEvery = 0
  swap
  · have heq : s.timerHandler = { s with ticks := u32 (s.ticks + 1), place := .handled } := by
      simp only [Machine.timerHandler, hdue, decide_false, Bool.and_false, Bool.false_eq_true,
        ↓reduceIte]
    rw [heq]
    exact h.handled hplace ⟨rfl, rfl, rfl, rfl⟩ rfl
  generalize ht : ({ s with ticks := u32 (s.ticks + 1), inPreempt := true } : Machine) = t
  have heq : s.timerHandler = t.yield .preempted .resumed := by
    subst ht
    simp only [Machine.timerHandler, h.callback, hdue, preemptiveYield, h.ready, hin,
      Bool.true_and, decide_true, Bool.not_true, Bool.false_eq_true, ↓reduceIte]
  have htflags : t.flags = strandedFlags := by
    subst ht
    exact congrArg₂ (fun a b => (⟨a, true, b⟩ : IntrFlags)) (congrArg IntrFlags.intr hflags)
      (congrArg IntrFlags.pending hflags)
  have hsched : t.sched = s.sched := by subst ht; rfl
  have hsaved : t.saved = s.saved := by subst ht; rfl
  have hcall : t.callback = true := by subst ht; exact h.callback
  have hready : t.sched.ready = true := by rw [hsched]; exact h.ready
  have hrunning : (t.sched.tasks t.sched.current).state ≠ .unused := by
    rw [hsched]
    exact h.running
  have htno : ∀ i, ¬ t.Stranded i := fun i hi => hno i (by rwa [Stranded, hsched, hsaved] at hi)
  rw [heq]
  by_cases hpick : (t.sched.pickNext t.ticks).2 = t.sched.current
  · -- nobody else can run: the handler goes on at once
    rw [yield_stay hready hpick]
    refine ⟨hready, hcall, fun hu => hrunning ((pickNext_unused _ _ _).1 hu),
      fun i hi => absurd hi (htno i), fun i _ hi => absurd hi (htno i),
      fun i hi => absurd hi (htno i), fun _ => htflags⟩
  generalize hn : (t.sched.pickNext t.ticks).2 = n at hpick
  have hused := pickNext_used (hn ▸ hpick)
  rw [hn] at hused
  have hnot : t.saved n ≠ .preempted := fun hs => htno n ⟨hpick, hs⟩
  have hiff : ∀ j, (t.switched .preempted n).Stranded j ↔ j = t.sched.current := fun j => by
    rw [stranded_switched]
    by_cases hj : j = t.sched.current
    · simp [hj, Ne.symm hpick]
    · simp [hj, htno j]
  rw [yield_switch hready (hn ▸ hpick), hn, ← switched]
  refine ⟨hready, hcall, fun hu => hused ((switchTo_unused _ _ _ _).1 hu), fun j hj hu => ?_,
    fun i j hi hj => ((hiff i).1 hi).trans ((hiff j).1 hj).symm, fun j _ => ?_, fun hnone => ?_⟩
  · rw [(hiff j).1 hj] at hu
    exact hrunning ((switchTo_unused _ _ _ _).1 hu)
  · exact ⟨.inl (resume_of_ne hnot), htflags⟩
  · exact absurd ((hiff _).2 rfl) (hnone t.sched.current)

/-- The statements of the handler behind `Timer::Handler`. -/
theorem Accounted.handlerStep (h : s.Accounted) (hst : s.handlerStep = some s') :
    s'.Accounted := by
  unfold Machine.handlerStep at hst
  split at hst
  · cases hst
  · cases hst
  · rename_i hplace
    cases hst
    exact h.timerHandler hplace
  all_goals
    rename_i hplace
    cases hst
    have hno := h.alone_of_not_own (not_own (by simp [hplace]) (by simp [hplace]))
    have hflags : s.flags = _ := (h.alone hno).trans (congrArg Place.flags hplace)
    simp only [flags, Place.flags, IntrFlags.mk.injEq] at hflags
    exact h.of_flags rfl rfl rfl hno (by simp [flags, Place.flags, hflags])

theorem Accounted.step (h : s.Accounted) (hst : s.step e = some s') : s'.Accounted := by
  cases e with
  | spawn stack name =>
    obtain ⟨-, ⟨⟩⟩ := Option.ite_none_right_eq_some.1 hst
    exact h.spawn _ _
  | yield =>
    obtain ⟨hplace, ⟨⟩⟩ := Option.ite_none_right_eq_some.1 hst
    exact h.yield hplace
  | sleep ms =>
    obtain ⟨hplace, ⟨⟩⟩ := Option.ite_none_right_eq_some.1 hst
    exact h.sleep hplace _
  | hlt =>
    obtain ⟨⟨hplace, -⟩, ⟨⟩⟩ := Option.ite_none_right_eq_some.1 hst
    refine ⟨h.ready, h.callback, h.running, h.used, h.one, fun i hi => ?_, fun hno => ?_⟩
    · exact ⟨.inr rfl, (h.own i hi).2⟩
    · exact (h.alone hno).trans (by rw [hplace]; rfl)
  | tick =>
    obtain ⟨⟨hown, hintr, -⟩, ⟨⟩⟩ := Option.ite_none_right_eq_some.1 hst
    have hno := h.alone_of_intr hintr
    have hflags : s.flags = ⟨true, false, false⟩ := by
      rw [h.alone hno]
      rcases hown with hplace | hplace <;> rw [hplace] <;> rfl
    refine h.of_flags rfl rfl rfl hno ?_
    rw [flags, show s.inPreempt = false from congrArg IntrFlags.inPreempt hflags]
    rfl
  | handler => exact h.handlerStep hst

theorem accounted_of_reachable (h : lts.Reachable s) : s.Accounted :=
  h.induct (fun _ h₀ => h₀ ▸ inv_accounted_boot) fun _ _ _ hI hst => hI.step hst

/-- **In every reachable state** at most one task is stranded, and the flags follow from that and
from the place of the running task. -/
theorem accounted (h : lts.Reachable s) :
    (∀ i j, s.Stranded i → s.Stranded j → i = j) ∧
      (∀ i, s.Stranded i → s.place.Own ∧ s.flags = strandedFlags) ∧
      ((∀ i, ¬ s.Stranded i) → s.flags = s.place.flags) :=
  ⟨(accounted_of_reachable h).one, (accounted_of_reachable h).own, (accounted_of_reachable h).alone⟩

/-- The kernel yields to a task, and the fifth tick preempts the task. -/
def kernelYields : List Event :=
  .spawn 0x300000 kernelName :: .yield :: (List.replicate 4 quietTick).flatten ++ [.tick, .handler]

theorem exists_stranded : ∃ s, lts.Reachable s ∧ s.Stranded 1 ∧ s.place = .code := by
  obtain ⟨s, hs, h⟩ : ∃ s, lts.Reachable s ∧
      (decide (s.Stranded 1) && decide (s.place = .code)) = true :=
    Lts.exists_reachable_det (f := step) rfl (rfl : boot = boot) kernelYields _ (by decide +kernel)
  simp only [Bool.and_eq_true, decide_eq_true_eq] at h
  exact ⟨s, hs, h⟩

theorem accounted_stranded : ∃ s, lts.Reachable s ∧ s.Stranded 1 ∧ s.flags = strandedFlags := by
  obtain ⟨s, hs, hi, -⟩ := exists_stranded
  exact ⟨s, hs, hi, ((accounted hs).2.1 1 hi).2⟩

/-! ### The clock stands still -/

/-- The stranded task is back in the handler, and the clock shows what it showed before. -/
structure Back (s : Machine) (i : Slot) (t : Machine) : Prop where
  running : t.sched.current = i
  place : t.place = .resumed
  ticks : t.ticks = s.ticks

/-- `Yield` keeps a task stranded or takes it back. -/
theorem Stranded.yield (hi : s.Stranded i) (hready : s.sched.ready = true) :
    (s.yield .yielded .code).ticks = s.ticks ∧
      ((s.yield .yielded .code).Stranded i ∨ s.Back i (s.yield .yielded .code)) := by
  by_cases hpick : (s.sched.pickNext s.ticks).2 = s.sched.current
  · rw [yield_stay hready hpick]
    exact ⟨rfl, .inl hi⟩
  rw [yield_switch hready hpick, ← switched]
  by_cases hn : (s.sched.pickNext s.ticks).2 = i
  · rw [hn]
    exact ⟨rfl, .inr ⟨rfl, by simp only [switched, hi.2, Suspension.resume], rfl⟩⟩
  · refine ⟨rfl, .inl ((stranded_switched s _ _ i).2 ⟨Ne.symm hn, ?_⟩)⟩
    rw [if_neg hi.1]
    exact hi

/-- **No step moves the clock while a task is stranded**, and only a switch to it ends that. -/
theorem Accounted.stranded_step (h : s.Accounted) (hi : s.Stranded i) (hst : s.step e = some s') :
    s'.ticks = s.ticks ∧ (s'.Stranded i ∨ s.Back i s') := by
  obtain ⟨hown, hflags⟩ := h.own i hi
  cases e with
  | spawn stack name =>
    obtain ⟨-, ⟨⟩⟩ := Option.ite_none_right_eq_some.1 hst
    rcases spawn_cases s.sched stack.toNat (preparedEsp stack.toNat) name with
      ⟨heq, -⟩ | ⟨j, hfree, -, heq⟩
    · rw [Machine.spawn, heq]
      exact ⟨rfl, .inl hi⟩
    · have hij : i ≠ j := fun hij => h.used i hi (hij ▸ freeSlot_unused hfree)
      rw [Machine.spawn, heq]
      refine ⟨rfl, .inl ⟨hi.1, ?_⟩⟩
      dsimp only
      rw [Function.update_of_ne hij]
      exact hi.2
  | yield =>
    obtain ⟨-, ⟨⟩⟩ := Option.ite_none_right_eq_some.1 hst
    exact hi.yield h.ready
  | sleep ms =>
    obtain ⟨-, ⟨⟩⟩ := Option.ite_none_right_eq_some.1 hst
    have hnot : ¬ ((!s.sched.ready) = true) := by simp [h.ready]
    rw [Machine.sleep, if_neg hnot]
    obtain ⟨hticks, hback⟩ :=
      Stranded.yield (s := { s with sched := s.sched.sleep s.ticks ms.toNat }) hi h.ready
    exact ⟨hticks, hback.imp_right fun hb => ⟨hb.running, hb.place, hb.ticks⟩⟩
  | hlt =>
    obtain ⟨-, ⟨⟩⟩ := Option.ite_none_right_eq_some.1 hst
    exact ⟨rfl, .inl hi⟩
  | tick =>
    obtain ⟨⟨-, hintr, -⟩, -⟩ := Option.ite_none_right_eq_some.1 hst
    exact absurd hi (h.alone_of_intr hintr i)
  | handler =>
    simp only [Machine.step, Machine.handlerStep] at hst
    rcases hown with hplace | hplace <;> simp [hplace] at hst

/-- **The tick count stands still** from the moment a task is stranded until it is back. -/
theorem frozen_until_resumed {es : List Event} (hs : lts.Reachable s) (hi : s.Stranded i)
    (hrun : lts.Run s es t) :
    (t.Stranded i ∧ t.ticks = s.ticks) ∨
      ∃ pre u, pre <+: es ∧ lts.Run s pre u ∧ s.Back i u := by
  have h := hrun.until (I := fun u => u.Accounted ∧ u.Stranded i ∧ u.ticks = s.ticks)
    (Q := fun u => s.Back i u) ⟨accounted_of_reachable hs, hi, rfl⟩ fun u e u' hu hst => by
      obtain ⟨hacc, hstr, hticks⟩ := hu
      obtain ⟨hsame, hor⟩ := hacc.stranded_step hstr hst
      refine hor.imp (fun hstr' => ⟨hacc.step hst, hstr', hsame.trans hticks⟩) fun hb => ?_
      exact ⟨hb.running, hb.place, hb.ticks.trans hticks⟩
  exact h.imp_left And.right

theorem frozen_spawn : ∃ s t, lts.Run s [.spawn 0x400000 kernelName] t ∧
    ((t.Stranded 1 ∧ t.ticks = s.ticks) ∨ ∃ pre u,
      pre <+: [.spawn 0x400000 kernelName] ∧ lts.Run s pre u ∧ s.Back 1 u) := by
  obtain ⟨s, hs, hi, hplace⟩ := exists_stranded
  have hrun : lts.Run s [.spawn 0x400000 kernelName] (s.spawn _ kernelName) :=
    .snoc .nil (Lts.det_step.2 (if_pos hplace))
  exact ⟨s, _, hrun, frozen_until_resumed hs hi hrun⟩

/-- **The machine is dead** exactly when it halts while a task is stranded. -/
theorem stuck_iff (hs : lts.Reachable s) :
    (∀ e, s.step e = none) ↔ s.place = .halted ∧ ∃ i, s.Stranded i := by
  have h := accounted_of_reachable hs
  constructor
  · intro hnone
    have hplace : s.place = .halted := by
      have hyield := hnone .yield
      have hhandler := hnone .handler
      simp only [step, Machine.handlerStep] at hyield hhandler
      cases hp : s.place <;> simp [hp] at hyield hhandler ⊢
    refine ⟨hplace, ?_⟩
    by_contra hno
    have hflags := h.alone (not_exists.1 hno)
    rw [hplace] at hflags
    -- with nobody stranded the timer would wake the CPU up
    have htick := hnone .tick
    rw [step, if_pos ⟨.inr hplace, congrArg IntrFlags.intr hflags,
      congrArg IntrFlags.pending hflags⟩] at htick
    cases htick
  · rintro ⟨hplace, i, hi⟩ e
    have hintr := h.intr hi
    cases e <;> simp [step, Machine.handlerStep, hplace, hintr]

/-- The main loop does get there: the task it yielded to is stranded when it comes to its `hlt`. -/
theorem exists_stuck : ∃ s, lts.Reachable s ∧ ∀ e, s.step e = none := by
  obtain ⟨s, hs, h⟩ : ∃ s, lts.Reachable s ∧
      (decide (s.place = .halted) && decide (s.Stranded 1)) = true :=
    Lts.exists_reachable_det (f := step) rfl (rfl : boot = boot) (kernelYields ++ [.hlt]) _
      (by decide +kernel)
  simp only [Bool.and_eq_true, decide_eq_true_eq] at h
  exact ⟨s, hs, (stuck_iff hs).2 ⟨h.1, 1, h.2⟩⟩

end Machine

end Shiro
