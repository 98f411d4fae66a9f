import Mathlib.Order.Bounds.Basic
import Shiro.Sched.Sleep

/-!
# When a sleep ends

`Scheduler::Sleep` and `Timer::Sleep` turn milliseconds into ticks and wait until the tick count
has reached a target.  The product, the target and the tick count are words of 32 bits.  If the
product does not fit, the sleep is too short; if the target lies behind the end of the count, it
counts as reached from the start.

* `Timer.tick`, `Timer.target`, `Timer.sleepLoop` : the tick count, and `Timer::Sleep`.
* `Timer.sleepLoop_iff` : the loop ends when the target is reached for the first time.
* `isLeast_reached_iff` : when that is.
* `OnTime`, `onTime_iff` : **both sleeps end on time** exactly when nothing wraps.
-/

namespace Shiro

open Sched

variable {E : Type*}

namespace Timer

/-- `ticks++`. -/
def tick (ticks : ℕ) : ℕ := u32 (ticks + 1)

/-- The `needed` of `Sleep(ms)`. -/
def needed (ms : ℕ) : ℕ :=
  let needed := u32 (ms * tickHz) / 1000
  if needed = 0 then 1 else needed

/-- The `target` of `Sleep(ms)`. -/
def target (ticks ms : ℕ) : ℕ := u32 (ticks + needed ms)

/-- The loop of `Sleep`, one tick a round: the tick count when it ends, if it does so within `n`
rounds. -/
def sleepLoop : ℕ → ℕ → ℕ → Option ℕ
  | 0, _, _ => none
  | n + 1, ticks, target => if ticks < target then sleepLoop n (tick ticks) target else some ticks

/-- The exit condition of `Sleep(ms)`, `k` ticks after the call. -/
def Exits (now ms k : ℕ) : Prop := ¬ tick^[k] now < target now ms

end Timer

/-- The wake condition of `Sleep(ms)`, `k` ticks after the call, as `PickNext` tests it. -/
def Sched.Wakes (s : Sched E) (now ms k : ℕ) : Prop :=
  ((s.sleep now ms).tasks s.current).Runnable (Timer.tick^[k] now)

/-- The ticks in `ms` milliseconds, one at least. -/
def wholeTicks (ms : ℕ) : ℕ := max 1 (ms * tickHz / 1000)

/-- Both sleeps of `ms` milliseconds that begin at tick `now` end after just as many ticks. -/
structure OnTime (s : Sched E) (now ms : ℕ) : Prop where
  wakes : IsLeast {k | s.Wakes now ms k} (wholeTicks ms)
  exits : IsLeast {k | Timer.Exits now ms k} (wholeTicks ms)

variable {now ms n d : ℕ}

/-! ### The tick count -/

theorem Timer.tick_iterate (hnow : now < 2 ^ 32) (k : ℕ) : Timer.tick^[k] now = u32 (now + k) := by
  induction k with
  | zero => exact (u32_of_lt hnow).symm
  | succ k ih => rw [Function.iterate_succ_apply', ih, Timer.tick, u32_add_u32, Nat.add_assoc]

/-- **When a target is reached**: on time, or at once if it lies behind the end of the count. -/
theorem isLeast_reached_iff (hnow : now < 2 ^ 32) (hn : n < 2 ^ 32) :
    IsLeast {k | u32 (now + n) ≤ Timer.tick^[k] now} d ↔
      d = if now + n < 2 ^ 32 then n else 0 := by
  have hleast : IsLeast {k | u32 (now + n) ≤ Timer.tick^[k] now}
      (if now + n < 2 ^ 32 then n else 0) := by
    split
    · rename_i hlt
      refine ⟨?_, ?_⟩
      · exact (Timer.tick_iterate hnow n).ge
      · intro k hk
        by_contra hkn
        have hklt : now + k < 2 ^ 32 := by omega
        rw [Set.mem_ofPred_eq, Timer.tick_iterate hnow, u32_of_lt hlt, u32_of_lt hklt] at hk
        omega
    · rename_i hge
      refine ⟨?_, fun k _ => Nat.zero_le k⟩
      show u32 (now + n) ≤ now
      unfold u32
      omega
  constructor
  · intro h
    exact h.unique hleast
  · rintro rfl
    exact hleast

/-- **The loop of `Timer::Sleep` ends** when the target is reached for the first time. -/
theorem Timer.sleepLoop_iff (target : ℕ) (n now r : ℕ) :
    Timer.sleepLoop n now target = some r ↔
      ∃ d < n, IsLeast {k | target ≤ Timer.tick^[k] now} d ∧ Timer.tick^[d] now = r := by
  induction n generalizing now with
  | zero => simp [sleepLoop]
  | succ n ih =>
    rw [sleepLoop]
    by_cases h : now < target
    · rw [if_pos h, ih]
      constructor
      · rintro ⟨d, hd, hleast, rfl⟩
        refine ⟨d + 1, Nat.succ_lt_succ hd, ⟨hleast.1, ?_⟩, rfl⟩
        intro k hk
        cases k with
        | zero => exact absurd hk (Nat.not_le_of_lt h)
        | succ k => exact Nat.succ_le_succ (hleast.2 hk)
      · rintro ⟨d, hd, hleast, rfl⟩
        cases d with
        | zero => exact absurd hleast.1 (Nat.not_le_of_lt h)
        | succ d =>
          refine ⟨d, Nat.lt_of_succ_lt_succ hd, ⟨hleast.1, ?_⟩, rfl⟩
          intro k hk
          exact Nat.le_of_succ_le_succ (hleast.2 (show k + 1 ∈ _ from hk))
    · have hzero : IsLeast {k | target ≤ Timer.tick^[k] now} 0 :=
        ⟨Nat.le_of_not_lt h, fun k _ => Nat.zero_le k⟩
      rw [if_neg h, Option.some.injEq]
      constructor
      · rintro rfl
        exact ⟨0, n.succ_pos, hzero, rfl⟩
      · rintro ⟨d, -, hleast, rfl⟩
        rw [hleast.unique hzero]
        rfl

/-! ### The two sleeps -/

theorem Timer.needed_eq_sleepTicks (ms : ℕ) : Timer.needed ms = sleepTicks ms := rfl

theorem Timer.exits_iff (now ms k : ℕ) :
    Timer.Exits now ms k ↔ u32 (now + sleepTicks ms) ≤ Timer.tick^[k] now := Nat.not_lt

/-- A sleeper wakes when its deadline is reached. -/
theorem Sched.wakes_iff (s : Sched E) (now ms k : ℕ) :
    s.Wakes now ms k ↔ u32 (now + sleepTicks ms) ≤ Timer.tick^[k] now := by
  rw [Sched.Wakes, Sched.sleep]
  dsimp only
  rw [Function.update_self, Task.Runnable]
  simp

theorem sleepTicks_eq_max (ms : ℕ) : sleepTicks ms = max 1 (u32 (ms * tickHz) / 1000) := by
  unfold sleepTicks
  dsimp only
  split <;> omega

theorem sleepTicks_lt (ms : ℕ) : sleepTicks ms < 2 ^ 32 := by
  have hlt := u32_lt (ms * tickHz)
  rw [sleepTicks_eq_max]
  omega

/-- A product that does not fit makes the sleep too short. -/
theorem sleepTicks_lt_wholeTicks (h : 2 ^ 32 ≤ ms * tickHz) : sleepTicks ms < wholeTicks ms := by
  have hle : u32 (ms * tickHz) ≤ ms * tickHz - 2 ^ 32 := by
    rw [u32, Nat.mod_eq_sub_mod h]
    exact Nat.mod_le _ _
  rw [sleepTicks_eq_max, wholeTicks]
  omega

theorem wholeTicks_eq_iff (now ms : ℕ) :
    wholeTicks ms = (if now + sleepTicks ms < 2 ^ 32 then sleepTicks ms else 0) ↔
      ms * tickHz < 2 ^ 32 ∧ now + wholeTicks ms < 2 ^ 32 := by
  have hpos : 0 < wholeTicks ms := lt_max_of_lt_left Nat.one_pos
  by_cases h : ms * tickHz < 2 ^ 32
  · have heq : sleepTicks ms = wholeTicks ms := by rw [sleepTicks_eq_max, u32_of_lt h, wholeTicks]
    rw [heq]
    split
    · rename_i hlt
      exact iff_of_true rfl ⟨h, hlt⟩
    · rename_i hge
      exact iff_of_false hpos.ne' fun hc => hge hc.2
  · have hshort := sleepTicks_lt_wholeTicks (Nat.le_of_not_lt h)
    refine iff_of_false ?_ fun hc => h hc.1
    split
    · exact hshort.ne'
    · exact hpos.ne'

/-- **Both sleeps end on time** exactly when neither the product nor the target wraps. -/
theorem onTime_iff (s : Sched E) (now ms : UInt32) :
    OnTime s now.toNat ms.toNat ↔
      ms.toNat * tickHz < 2 ^ 32 ∧ now.toNat + wholeTicks ms.toNat < 2 ^ 32 := by
  have hreach := isLeast_reached_iff (d := wholeTicks ms.toNat) now.toNat_lt
    (sleepTicks_lt ms.toNat)
  rw [wholeTicks_eq_iff] at hreach
  rw [← hreach]
  constructor
  · intro h
    have hwakes := h.wakes
    simp only [Sched.wakes_iff] at hwakes
    exact hwakes
  · intro h
    refine ⟨?_, ?_⟩
    · simp only [Sched.wakes_iff]
      exact h
    · simp only [Timer.exits_iff]
      exact h

/-- `Sleep(42949673)` asks for nearly twelve hours, and waits one tick. -/
theorem not_onTime_half_day :
    ¬ ∀ (s : Sched ℕ) (now ms : UInt32), OnTime s now.toNat ms.toNat := by
  intro hall
  have hleast := (hall (Sched.start 0) 0 42949673).exits
  have hone : Timer.Exits 0 42949673 1 := by
    unfold Timer.Exits
    decide
  have hle : wholeTicks 42949673 ≤ 1 := hleast.2 hone
  exact absurd hle (by decide)

end Shiro
