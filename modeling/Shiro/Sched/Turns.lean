import Shiro.Sched.Sleep

/-!
# Whose turn it is

`PickNext` looks at the slots behind the running one first, so a task that can run is passed by
each other task once at most before it gets the CPU.  What happens to the table between two
`Yield`s does not matter, as long as the task can run whenever somebody yields: the number of slots
from the running one on to it falls with every switch.

* `ahead` : that number.
* `Sched.PicksInTurn` : what `PickNext` returns and changes.
* `Clock.Turn`, `Clock.turns` : the system that changes the table at will before each `Yield`.
* `round_robin` : **a task that can run gets its turn**.
* `Clock.served_calls` : the same for the calls of the running tasks.
-/

namespace Shiro

open Sched

variable {E : Type*}

/-- `(i - current) mod 8`. -/
def ahead (current i : Slot) : ℕ := (i + 8 - current) % 8

/-- `PickNext` at tick `now` stops no later than at a slot that can run, and it wakes no task whose
deadline lies ahead. -/
structure Sched.PicksInTurn (s : Sched E) (now : ℕ) : Prop where
  runnable : ∀ i, i ≠ s.current → (s.tasks i).Runnable now →
    (s.tasks (s.pickNext now).2).Runnable now ∧
      ((s.pickNext now).1.tasks (s.pickNext now).2).state = .ready
  between : ∀ i, i ≠ s.current → (s.tasks i).Runnable now →
    0 < ahead s.current (s.pickNext now).2 ∧
      ahead s.current (s.pickNext now).2 ≤ ahead s.current i
  wakes : ∀ i, (s.pickNext now).1.tasks i = s.tasks i ∨
    (s.tasks i).state = .sleeping ∧ (s.tasks i).sleepUntil ≤ now ∧
      (s.pickNext now).1.tasks i = { s.tasks i with state := .ready }
  rest : (s.pickNext now).1 = { s with tasks := (s.pickNext now).1.tasks }

namespace Clock

/-- The table and the tick count at the time of a `Yield`. -/
structure Turn (E : Type*) where
  tasks : Slot → Task E
  spawnedCount : ℕ
  ticks : ℕ

/-- The tasks change in whatever way, and then the running one calls `Yield`. -/
def turn (s : Clock E) (t : Turn E) : Clock E :=
  ({ sched := { s.sched with tasks := t.tasks, spawnedCount := t.spawnedCount }
     ticks := t.ticks } : Clock E).yield

/-- The runs of a scheduler that has been started, one `Yield` a step. -/
def turns (E : Type*) : Lts (Clock E) (Turn E) :=
  .det (fun s => s.sched.ready = true) fun s t => some (s.turn t)

/-- The `Yield` switches to another task. -/
def Switches (s : Clock E) (t : Turn E) : Prop := (s.turn t).sched.current ≠ s.sched.current

/-- Task `i` can run at each of these `Yield`s. -/
def CanRun (i : Slot) (ts : List (Turn E)) : Prop := ∀ t ∈ ts, (t.tasks i).Runnable t.ticks

/-- Among the `Yield`s `ts` from `s` on, the first ones, `n` at most, all switch, and the last of
them switches to task `i`. -/
def ServedWithin (s : Clock E) (i : Slot) (ts : List (Turn E)) (n : ℕ) : Prop :=
  ∃ pre t, pre <+: ts ∧ ((turns E).guard Switches).Run s pre t ∧ pre.length ≤ n ∧
    t.sched.current = i

/-- The call is a `Yield`, or contains one. -/
def Call.yields : Call E → Bool
  | .spawn .. => false
  | .yield => true
  | .sleep _ => true
  | .tick preempts => preempts

end Clock

variable {now k : ℕ} {c i j : Slot}

/-! ### Distances -/

theorem ahead_slot (c : Slot) (hk : k < 7) : ahead c (slot c (1 + k)) = 1 + k := by
  have hc : (c : ℕ) < 8 := c.isLt
  rw [ahead, val_slot]
  omega

theorem exists_slot_of_ne (hi : i ≠ c) : ∃ k < 7, slot c (1 + k) = i := by
  obtain ⟨k, hk, rfl⟩ := exists_slot c i
  refine ⟨k, ?_, rfl⟩
  by_contra hk7
  have hc : (c : ℕ) < 8 := c.isLt
  refine hi (Fin.ext ?_)
  rw [val_slot]
  omega

theorem ahead_eq_zero_iff : ahead c i = 0 ↔ c = i := by
  have hc : (c : ℕ) < 8 := c.isLt
  have hi : (i : ℕ) < 8 := i.isLt
  rw [ahead, Fin.ext_iff]
  omega

/-- Who moves towards `i`, without going past it, comes nearer. -/
theorem ahead_lt (hpos : 0 < ahead c j) (hle : ahead c j ≤ ahead c i) : ahead j i < ahead c i := by
  have hc : (c : ℕ) < 8 := c.isLt
  have hi : (i : ℕ) < 8 := i.isLt
  have hj : (j : ℕ) < 8 := j.isLt
  unfold ahead at *
  omega

/-! ### `PickNext` -/

/-- **`PickNext` stops in time.** -/
theorem pickNext_between {s : Sched E} (hi : i ≠ s.current) (hrun : (s.tasks i).Runnable now) :
    (s.tasks (s.pickNext now).2).Runnable now ∧ 0 < ahead s.current (s.pickNext now).2 ∧
      ahead s.current (s.pickNext now).2 ≤ ahead s.current i := by
  obtain ⟨m, hm, rfl⟩ := exists_slot_of_ne hi
  rcases pickLoop_cases now s.current 8 1 s.tasks with ⟨k, -, hbefore, hat, heq⟩ | ⟨hnone, -⟩
  · have hpick : (s.pickNext now).2 = slot s.current (1 + k) := by rw [pickNext, heq]
    have hkm : k ≤ m := by
      by_contra hlt
      exact hbefore m (Nat.lt_of_not_le hlt) hrun
    rw [hpick, ahead_slot _ hm, ahead_slot _ (hkm.trans_lt hm)]
    exact ⟨hat, Nat.zero_lt_of_ne_zero (Nat.add_comm 1 k ▸ k.succ_ne_zero),
      Nat.add_le_add_left hkm 1⟩
  · exact absurd hrun (hnone m (hm.trans (by decide)))

/-- **What `PickNext` returns and changes.** -/
theorem picksInTurn (s : Sched E) (now : ℕ) : s.PicksInTurn now where
  runnable i hi hrun := by
    obtain ⟨hnext, -, -⟩ := pickNext_between hi hrun
    refine ⟨hnext, ?_⟩
    rcases pickNext_cases s now with ⟨j, hj, heq⟩ | ⟨hnone, -⟩
    · rw [heq]
      dsimp only
      rw [Function.update_self]
      exact Task.wake_state_eq_ready_iff.2 hj
    · exact absurd hrun (hnone i)
  between i hi hrun := (pickNext_between hi hrun).2
  wakes i := by
    rcases pickNext_cases s now with ⟨j, -, heq⟩ | ⟨-, heq⟩
    · rw [heq]
      dsimp only
      by_cases hij : i = j
      · subst hij
        rw [Function.update_self, Task.wake]
        split
        · rename_i hs
          exact .inr ⟨hs.1, hs.2, rfl⟩
        · exact .inl rfl
      · exact .inl (Function.update_of_ne hij _ _)
    · rw [heq]
      exact .inl rfl
  rest := rfl

/-! ### Turns -/

namespace Clock

variable {s s' : Clock E} {t : Turn E} {ts : List (Turn E)}

/-- `Yield` switches to the task that `PickNext` returns. -/
theorem yield_current (hready : s.sched.ready = true) :
    s.yield.sched.current = (s.sched.pickNext s.ticks).2 ∧ s.yield.sched.ready = true := by
  unfold yield
  rw [hready]
  dsimp only
  by_cases h : (s.sched.pickNext s.ticks).2 = s.sched.current
  · rw [if_pos h]
    exact ⟨h.symm, hready⟩
  · rw [if_neg h]
    exact ⟨rfl, hready⟩

/-- **A `Yield` brings the turn of a task nearer**, if the task can run and does not. -/
theorem ahead_yield_lt (hready : s.sched.ready = true) (hi : i ≠ s.sched.current)
    (hrun : (s.sched.tasks i).Runnable s.ticks) :
    ahead s.yield.sched.current i < ahead s.sched.current i := by
  obtain ⟨-, hpos, hle⟩ := pickNext_between hi hrun
  rw [(yield_current hready).1]
  exact ahead_lt hpos hle

theorem ahead_turn_lt (hready : s.sched.ready = true) (hi : i ≠ s.sched.current)
    (hrun : (t.tasks i).Runnable t.ticks) :
    ahead (s.turn t).sched.current i < ahead s.sched.current i :=
  ahead_yield_lt (s := ⟨{ s.sched with tasks := t.tasks, spawnedCount := t.spawnedCount }, t.ticks⟩)
    hready hi hrun

theorem ready_turn (hready : s.sched.ready = true) (t : Turn E) :
    (s.turn t).sched.ready = true :=
  (yield_current
    (s := ⟨{ s.sched with tasks := t.tasks, spawnedCount := t.spawnedCount }, t.ticks⟩) hready).2

theorem run_turns (s : Clock E) (ts : List (Turn E)) :
    (turns E).Run s ts (ts.foldl turn s) := by
  rw [turns, Lts.run_det_iff]
  induction ts generalizing s with
  | nil => rfl
  | cons t ts ih => exact ih (s.turn t)

/-- The run lemma: with each `Yield` the turn of task `i` comes nearer. -/
theorem served (hready : s.sched.ready = true) (hrun : CanRun i ts)
    (hlen : ahead s.sched.current i ≤ ts.length) :
    s.ServedWithin i ts (ahead s.sched.current i) := by
  have hrank := (run_turns s ts).exists_rank_zero (I := fun u => u.sched.ready = true)
    (C := Switches) (r := fun u => ahead u.sched.current i) (p := fun _ => true) hready
    (by simpa using hlen) ?_
  · obtain ⟨pre, u, hpre, hsw, hn, hz⟩ := hrank
    exact ⟨pre, u, hpre, hsw, by simpa using hn, ahead_eq_zero_iff.1 hz⟩
  · rintro t ht u _ hu hne ⟨⟩
    have hlt : ahead (u.turn t).sched.current i < ahead u.sched.current i :=
      ahead_turn_lt hu (fun hi => hne (ahead_eq_zero_iff.2 hi.symm)) (hrun t ht)
    refine ⟨?_, ready_turn hu t, hlt.le, fun _ => hlt⟩
    intro heq
    rw [heq] at hlt
    exact lt_irrefl _ hlt

/-- **A task that can run gets its turn**: `PickNext` never goes past it, and so it is switched to
after at most `(i - current) mod 8` switches, whatever happens to the table between them. -/
theorem round_robin :
    (∀ (s : Sched E) (now : ℕ), s.PicksInTurn now) ∧
      ∀ (s : Clock E) (i : Slot) (ts : List (Turn E)), s.sched.ready = true → CanRun i ts →
        ahead s.sched.current i ≤ ts.length → s.ServedWithin i ts (ahead s.sched.current i) :=
  ⟨picksInTurn, fun _ _ _ => served⟩

/-- The table is full, and nobody sleeps. -/
def fullTable : Turn ℕ := ⟨fun _ => { emptyTask 0 with state := .ready }, 8, 0⟩

/-- The last of eight tasks gets its turn. -/
theorem round_robin_full : (boot 0 0).ServedWithin 7 (List.replicate 7 fullTable) 7 := by
  refine round_robin.2 (boot 0 0) 7 _ rfl (fun t ht => ?_) (by decide)
  rw [List.eq_of_mem_replicate ht]
  exact .inl rfl

/-! ### Calls -/

/-- A call that does not yield leaves the running task on, and one that yields brings the turn of
a task nearer that can run. -/
theorem ahead_step {cl : Call E} (hready : s.sched.ready = true) (hi : i ≠ s.sched.current)
    (hrun : (s.sched.tasks i).Runnable s.ticks) (hrange : s.InRange cl) :
    (s.step cl).sched.ready = true ∧
      ahead (s.step cl).sched.current i ≤ ahead s.sched.current i ∧
      (cl.yields → ahead (s.step cl).sched.current i < ahead s.sched.current i) := by
  cases cl with
  | spawn stack esp name =>
    obtain ⟨hr, hcur, -⟩ := spawn_tasks s.sched stack.toNat esp name
    refine ⟨hr.trans hready, ?_, Bool.noConfusion⟩
    rw [step]
    dsimp only
    rw [hcur]
  | yield =>
    have hlt := ahead_yield_lt hready hi hrun
    exact ⟨(yield_current hready).2, hlt.le, fun _ => hlt⟩
  | sleep ms =>
    rw [step_sleep hready]
    have hsame := sleep_of_ne hi s.ticks ms.toNat
    have hlt := ahead_yield_lt (s := { s with sched := s.sched.sleep s.ticks ms.toNat }) (i := i)
      hready hi (by dsimp only; rwa [hsame])
    exact ⟨(yield_current (s := { s with sched := s.sched.sleep s.ticks ms.toNat }) hready).2,
      hlt.le, fun _ => hlt⟩
  | tick preempts =>
    have hle : s.ticks ≤ s.count.ticks := by
      rw [count, u32_of_lt hrange]
      exact Nat.le_succ _
    -- a tick may bring a deadline, and takes none away
    have hrun' : (s.count.sched.tasks i).Runnable s.count.ticks :=
      hrun.imp_right fun hs => ⟨hs.1, hs.2.trans hle⟩
    cases preempts with
    | false => exact ⟨hready, le_rfl, Bool.noConfusion⟩
    | true =>
      have hlt := ahead_yield_lt (s := s.count) hready hi hrun'
      exact ⟨(yield_current (s := s.count) hready).2, hlt.le, fun _ => hlt⟩

/-- **The calls of the running tasks serve a task that can run** before `(i - current) mod 8` of
them have yielded. -/
theorem served_calls {cs : List (Call E)} (hready : s.sched.ready = true)
    (h : ((lts E).guard fun u _ => (u.sched.tasks i).Runnable u.ticks).Run s cs s')
    (hlen : ahead s.sched.current i ≤ cs.countP Call.yields) :
    ∃ pre t, pre <+: cs ∧ (lts E).Run s pre t ∧
      pre.countP Call.yields ≤ ahead s.sched.current i ∧ t.sched.current = i := by
  have hrank := h.exists_rank_zero (I := fun u => u.sched.ready = true) (C := fun _ _ => True)
    (r := fun u => ahead u.sched.current i) (p := Call.yields) hready hlen ?_
  · obtain ⟨pre, u, hpre, hrun, hn, hz⟩ := hrank
    exact ⟨pre, u, hpre, hrun.of_guard.of_guard, hn, ahead_eq_zero_iff.1 hz⟩
  · rintro cl - u u' hu hne ⟨hrun, hst⟩
    obtain ⟨hrange, rfl⟩ := lts_step.1 hst
    exact ⟨trivial, ahead_step hu (fun hi => hne (ahead_eq_zero_iff.2 hi.symm)) hrun hrange⟩

end Clock

end Shiro
