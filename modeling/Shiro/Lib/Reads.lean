import Mathlib.Data.List.Basic
import Shiro.Lib.CString
import Shiro.Lib.Memory

/-!
# Computations that read a memory

A computation that reads a memory and does not change it is a tree: it is done, or it reads a cell
and goes on with what stands there.  The tree says which cells are read, and in which order, in any
memory.

* `Reads.run`, `Reads.trace` : the result, and the addresses read on the way to it.
* `Reads.Within` : only addresses with some property are read; the rules below compose it.
* `Reads.run_congr` : **cells that are not read make no difference.**
* `Reads.read8`, `Reads.read32`, `Reads.read64` : the words of a byte-addressed memory.
* `Reads.readBytes`, `Reads.readStr` : a range of bytes, and a string up to its NUL.
-/

namespace Shiro

universe u

/-- A computation that reads cells `V` at addresses `A` and returns an `α`. -/
inductive Reads (A V : Type) (α : Type u) where
  | done (x : α)
  | read (a : A) (next : V → Reads A V α)

namespace Reads

variable {A V : Type} {α β : Type u}

/-- One computation after the other. -/
def bind : Reads A V α → (α → Reads A V β) → Reads A V β
  | done x, f => f x
  | read a next, f => read a fun v => (next v).bind f

instance : Monad (Reads A V) where
  pure := done
  bind := bind

/-- The result in the memory `m`. -/
def run (m : A → V) : Reads A V α → α
  | done x => x
  | read a next => (next (m a)).run m

/-- The addresses read in the memory `m`, in order. -/
def trace (m : A → V) : Reads A V α → List A
  | done _ => []
  | read a next => a :: (next (m a)).trace m

/-- Every address read has the property `P`. -/
def Within (m : A → V) (P : A → Prop) (c : Reads A V α) : Prop := ∀ a ∈ c.trace m, P a

section

variable {m m' : A → V} {P Q : A → Prop} {c : Reads A V α}

@[simp] theorem run_pure (m : A → V) (x : α) : (pure x : Reads A V α).run m = x := rfl

@[simp] theorem run_bind (m : A → V) (c : Reads A V α) (f : α → Reads A V β) :
    (c >>= f).run m = (f (c.run m)).run m := by
  induction c with
  | done x => rfl
  | read a next ih => exact ih (m a)

@[simp] theorem trace_bind (m : A → V) (c : Reads A V α) (f : α → Reads A V β) :
    (c >>= f).trace m = c.trace m ++ (f (c.run m)).trace m := by
  induction c with
  | done x => rfl
  | read a next ih => exact congrArg (a :: ·) (ih (m a))

theorem run_ite (m : A → V) (p : Prop) [Decidable p] (c d : Reads A V α) :
    (if p then c else d).run m = if p then c.run m else d.run m := apply_ite _ _ _ _

/-- **Cells that are not read make no difference**, neither to the result nor to what is read. -/
theorem run_congr (h : c.Within m fun a => m' a = m a) :
    c.run m' = c.run m ∧ c.trace m' = c.trace m := by
  induction c with
  | done x => exact ⟨rfl, rfl⟩
  | read a next ih =>
    have ha : m' a = m a := h a List.mem_cons_self
    obtain ⟨hrun, htrace⟩ := ih (m a) fun b hb => h b (List.mem_cons_of_mem _ hb)
    constructor
    · rw [run, ha, hrun, run]
    · rw [trace, ha, htrace, trace]

/-! ### Rules -/

theorem Within.mono (h : c.Within m P) (hPQ : ∀ a, P a → Q a) : c.Within m Q :=
  fun a ha => hPQ a (h a ha)

@[simp] theorem within_pure (x : α) : (pure x : Reads A V α).Within m P :=
  fun _ ha => absurd ha List.not_mem_nil

theorem within_read {a : A} {next : V → Reads A V α} :
    (read a next).Within m P ↔ P a ∧ (next (m a)).Within m P := List.forall_mem_cons

@[simp] theorem within_bind {c : Reads A V α} {f : α → Reads A V β} :
    (c >>= f).Within m P ↔ c.Within m P ∧ (f (c.run m)).Within m P := by
  unfold Within
  rw [trace_bind]
  exact List.forall_mem_append

/-- A loop over a list folds the results of its body. -/
theorem run_foldlM (m : A → V) (f : β → α → Reads A V β) (xs : List α) (s : β) :
    (xs.foldlM f s).run m = xs.foldl (fun s x => (f s x).run m) s := by
  induction xs generalizing s with
  | nil => rfl
  | cons x xs ih => rw [List.foldlM_cons, run_bind, ih, List.foldl_cons]

/-- A loop that collects the results of its body. -/
theorem run_collect (m : A → V) (f : α → Reads A V β) (xs : List α) (acc : List β) :
    (xs.foldlM (fun acc x => do return acc ++ [← f x]) acc).run m =
      acc ++ xs.map fun x => (f x).run m := by
  induction xs generalizing acc with
  | nil => exact (List.append_nil acc).symm
  | cons x xs ih =>
    rw [List.foldlM_cons, run_bind, ih, run_bind, run_pure, List.append_assoc]
    rfl

/-- A loop over a list reads what its body reads. -/
theorem within_foldlM {f : β → α → Reads A V β} {xs : List α}
    (h : ∀ x ∈ xs, ∀ s, (f s x).Within m P) (s : β) : (xs.foldlM f s).Within m P := by
  induction xs generalizing s with
  | nil => exact within_pure s
  | cons x xs ih =>
    rw [List.foldlM_cons, within_bind]
    exact ⟨h x List.mem_cons_self s, ih (fun y hy => h y (List.mem_cons_of_mem _ hy)) _⟩

/-- Each element of the list has its turn in the loop. -/
theorem Within.of_foldlM {f : β → α → Reads A V β} {xs : List α} {s : β}
    (h : (xs.foldlM f s).Within m P) {x : α} (hx : x ∈ xs) : ∃ s, (f s x).Within m P := by
  induction xs generalizing s with
  | nil => cases hx
  | cons y xs ih =>
    rw [List.foldlM_cons, within_bind] at h
    rcases List.mem_cons.1 hx with rfl | hx
    · exact ⟨s, h.1⟩
    · exact ih h.2 hx

/-- What a loop over a list reads, if that does not depend on what its body has computed so far. -/
theorem within_foldlM_iff {f : β → α → Reads A V β} {Q : α → Prop} {xs : List α}
    (h : ∀ s, ∀ x ∈ xs, (f s x).Within m P ↔ Q x) (s : β) :
    (xs.foldlM f s).Within m P ↔ ∀ x ∈ xs, Q x := by
  constructor
  · intro hall x hx
    obtain ⟨s', hbody⟩ := hall.of_foldlM hx
    exact (h s' x hx).1 hbody
  · exact fun hall => within_foldlM (fun x hx s' => (h s' x hx).2 (hall x hx)) s

/-- A search of a list returns the first element that its test accepts. -/
theorem run_findM? {α : Type} (m : A → V) (p : α → Reads A V Bool) (xs : List α) :
    (xs.findM? p).run m = xs.find? fun x => (p x).run m := by
  induction xs with
  | nil => rfl
  | cons x xs ih =>
    rw [List.findM?, run_bind, List.find?_cons]
    cases (p x).run m with
    | true => rfl
    | false => exact ih

/-- A search reads what its tests read. -/
theorem within_findM? {α : Type} {p : α → Reads A V Bool} {xs : List α}
    (h : ∀ x ∈ xs, (p x).Within m P) : (xs.findM? p).Within m P := by
  induction xs with
  | nil => exact within_pure none
  | cons x xs ih =>
    rw [List.findM?, within_bind]
    refine ⟨h x List.mem_cons_self, ?_⟩
    cases (p x).run m with
    | true => exact within_pure (some x)
    | false => exact ih fun y hy => h y (List.mem_cons_of_mem _ hy)

end

/-! ### Bytes and words -/

/-- The byte at address `a`. -/
def read8 (a : ℕ) : Reads ℕ UInt8 ℕ := read (u32 a) fun v => done v.toNat

/-- The `uint32_t` at address `a`. -/
def read32 (a : ℕ) : Reads ℕ UInt8 ℕ := do
  let b0 ← read8 a
  let b1 ← read8 (a + 1)
  let b2 ← read8 (a + 2)
  let b3 ← read8 (a + 3)
  return b0 + 2 ^ 8 * b1 + 2 ^ 16 * b2 + 2 ^ 24 * b3

/-- The `uint64_t` at address `a`. -/
def read64 (a : ℕ) : Reads ℕ UInt8 ℕ := do
  let lo ← read32 a
  let hi ← read32 (a + 4)
  return lo + 2 ^ 32 * hi

/-- The `n` bytes from address `a` on. -/
def readBytes : ℕ → ℕ → Reads ℕ UInt8 (List UInt8)
  | _, 0 => return []
  | a, n + 1 => read (u32 a) fun c => do return c :: (← readBytes (a + 1) n)

/-- The string at address `a`: up to its NUL, which is read too, and at most `n` bytes of it. -/
def readStr : ℕ → ℕ → Reads ℕ UInt8 (List UInt8)
  | a, 0 => read (u32 a) fun _ => return []
  | a, n + 1 => read (u32 a) fun c =>
    if c = 0 then return [] else do return c :: (← readStr (a + 1) n)

/-- The `n` bytes from address `a` on have the property `P`. -/
def Bytes (P : ℕ → Prop) (a n : ℕ) : Prop := ∀ k < n, P (u32 (a + k))

variable {m : Mem} {P : ℕ → Prop} {a b n k : ℕ}

-- `(rfl)` keeps these three from being used inside the instances of an `if`.
@[simp] theorem run_read8 (m : Mem) (a : ℕ) : (read8 a).run m = m.read8 a := (rfl)

@[simp] theorem run_read32 (m : Mem) (a : ℕ) : (read32 a).run m = m.read32 a := (rfl)

@[simp] theorem run_read64 (m : Mem) (a : ℕ) : (read64 a).run m = m.read64 a := (rfl)

theorem Bytes.mono {Q : ℕ → Prop} (h : Bytes P a n) (hPQ : ∀ x, P x → Q x) : Bytes Q a n :=
  fun k hk => hPQ _ (h k hk)

/-- A part of a range. -/
theorem Bytes.sub (h : Bytes P a n) (hk : k + b ≤ n) : Bytes P (a + k) b := by
  intro i hi
  rw [Nat.add_assoc]
  exact h _ (by omega)

/-- Two ranges end to end. -/
theorem bytes_add : Bytes P a (n + k) ↔ Bytes P a n ∧ Bytes P (a + n) k := by
  constructor
  · exact fun h => ⟨h.sub (k := 0) (by omega), h.sub le_rfl⟩
  · rintro ⟨h1, h2⟩ i hi
    by_cases hn : i < n
    · exact h1 i hn
    · obtain ⟨j, rfl⟩ := Nat.exists_eq_add_of_le (Nat.le_of_not_lt hn)
      rw [← Nat.add_assoc]
      exact h2 j (Nat.lt_of_add_lt_add_left hi)

@[simp] theorem bytes_zero : Bytes P a 0 := fun _ hk => absurd hk (Nat.not_lt_zero _)

theorem bytes_succ : Bytes P a (n + 1) ↔ P (u32 a) ∧ Bytes P (a + 1) n := by
  constructor
  · intro h
    refine ⟨h 0 (Nat.zero_lt_succ n), fun k hk => ?_⟩
    rw [Nat.add_assoc, Nat.add_comm 1 k]
    exact h (k + 1) (Nat.succ_lt_succ hk)
  · rintro ⟨h0, h⟩ k hk
    cases k with
    | zero => exact h0
    | succ k =>
      rw [← Nat.add_assoc, Nat.add_right_comm]
      exact h k (Nat.lt_of_succ_lt_succ hk)

@[simp] theorem within_read8 : (read8 a).Within m P ↔ P (u32 a) := List.forall_mem_singleton

@[simp] theorem within_read32 : (read32 a).Within m P ↔ Bytes P a 4 := by
  simp [read32, bytes_succ, Nat.add_assoc]

@[simp] theorem within_read64 : (read64 a).Within m P ↔ Bytes P a 8 := by
  rw [read64, within_bind, within_read32, within_bind, within_read32, bytes_add (n := 4) (k := 4)]
  simp

@[simp] theorem run_readBytes (m : Mem) (a n : ℕ) : (readBytes a n).run m = m.readBytes a n := by
  induction n generalizing a with
  | zero => rfl
  | succ n ih =>
    rw [Mem.readBytes_succ, ← ih (a + 1)]
    exact run_bind m (readBytes (a + 1) n) _

@[simp] theorem within_readBytes : (readBytes a n).Within m P ↔ Bytes P a n := by
  induction n generalizing a with
  | zero => simp [readBytes]
  | succ n ih =>
    rw [readBytes, within_read, within_bind, ih, bytes_succ]
    simp

theorem run_readStr (m : Mem) (a n : ℕ) : (readStr a n).run m = cstr (m.readBytes a n) := by
  induction n generalizing a with
  | zero => rfl
  | succ n ih =>
    rw [Mem.readBytes_succ, readStr, run, run_ite]
    by_cases hc : m (u32 a) = 0
    · rw [if_pos hc, hc]
      rfl
    · rw [if_neg hc, cstr_cons hc, ← ih (a + 1)]
      exact run_bind m (readStr (a + 1) n) _

/-- A string is read up to its NUL. -/
theorem within_readStr (hk : k ≤ n) (hnul : k < n → m (u32 (a + k)) = 0) (h : Bytes P a (k + 1)) :
    (readStr a n).Within m P := by
  induction n generalizing a k with
  | zero =>
    rw [readStr, within_read]
    exact ⟨h 0 (Nat.zero_lt_succ k), within_pure []⟩
  | succ n ih =>
    rw [bytes_succ] at h
    rw [readStr, within_read]
    refine ⟨h.1, ?_⟩
    split
    · exact within_pure []
    · rename_i hc
      cases k with
      | zero => exact absurd (hnul (Nat.zero_lt_succ n)) hc
      | succ k =>
        rw [within_bind]
        refine ⟨ih (Nat.le_of_succ_le_succ hk) (fun hlt => ?_) h.2, within_pure _⟩
        rw [Nat.add_assoc, Nat.add_comm 1]
        exact hnul (Nat.succ_lt_succ hlt)

end Reads

end Shiro
