import Mathlib.Data.List.TakeWhile

/-!
# C strings in arrays

An array of bytes holds a string: the bytes in front of the first NUL.  What lies behind the NUL
stays there, so a string that is cut short leaves bytes that a later read can still see.

* `cstr`, `strlen`, `strcpy` : the string of an array, its length, and the copy of a string.
* `cstr_strcpy`, `cstr_cut` : **what a copy and a NUL stored into the string make of it.**
* `ZeroTail` : no byte behind the string is left of an older one, up to some index.
-/

namespace Shiro

/-- The string that an array holds. -/
def cstr (xs : List UInt8) : List UInt8 := xs.takeWhile (· ≠ 0)

/-- `strlen` -/
def strlen (xs : List UInt8) : ℕ := (cstr xs).length

/-- `strcpy` -/
def strcpy (dst src : List UInt8) : List UInt8 := cstr src ++ 0 :: dst.drop (strlen src + 1)

variable {xs ys s : List UInt8} {c : UInt8} {i : ℕ}

@[simp] theorem cstr_nil : cstr [] = [] := rfl

@[simp] theorem cstr_zero_cons (xs : List UInt8) : cstr (0 :: xs) = [] := rfl

theorem cstr_cons (hc : c ≠ 0) (xs : List UInt8) : cstr (c :: xs) = c :: cstr xs :=
  List.takeWhile_cons_of_pos (by simpa using hc)

theorem zero_notMem_cstr (xs : List UInt8) : 0 ∉ cstr xs := by
  intro h
  simpa using List.mem_takeWhile_imp h

theorem cstr_append_zero (h : 0 ∉ s) (xs : List UInt8) : cstr (s ++ 0 :: xs) = s := by
  induction s with
  | nil => rfl
  | cons c cs ih =>
    obtain ⟨hc, hcs⟩ := not_or.1 (mt List.mem_cons.2 h)
    rw [List.cons_append, cstr_cons (Ne.symm hc), ih hcs]

/-- A NUL behind an array ends its string, if there is none before. -/
theorem cstr_append_nul (s xs : List UInt8) : cstr (s ++ 0 :: xs) = cstr s := by
  induction s with
  | nil => rfl
  | cons c s ih =>
    by_cases hc : c = 0
    · subst hc
      rfl
    · rw [List.cons_append, cstr_cons hc, cstr_cons hc, ih]

theorem cstr_eq_self (h : 0 ∉ s) : cstr s = s := by
  refine List.takeWhile_eq_self_iff.2 fun x hx => ?_
  have : x ≠ 0 := fun h0 => h (h0 ▸ hx)
  simpa using this

/-- **A copied string reads back.** -/
@[simp] theorem cstr_strcpy (dst src : List UInt8) : cstr (strcpy dst src) = cstr src :=
  cstr_append_zero (zero_notMem_cstr src) _

theorem strlen_cons (hc : c ≠ 0) (xs : List UInt8) : strlen (c :: xs) = strlen xs + 1 := by
  rw [strlen, cstr_cons hc, List.length_cons, strlen]

/-- A string is a prefix of its array. -/
theorem getD_of_lt_strlen (h : i < strlen xs) : xs.getD i 0 = (cstr xs).getD i 0 := by
  induction xs generalizing i with
  | nil => rfl
  | cons c xs ih =>
    by_cases hc : c = 0
    · subst hc
      exact absurd h (Nat.not_lt_zero _)
    · rw [strlen_cons hc] at h
      rw [cstr_cons hc]
      cases i with
      | zero => rfl
      | succ i => simpa using ih (by omega)

/-- **A NUL stored over the last byte of a string** takes it off. -/
theorem cstr_cut (h : 0 < strlen xs) : cstr (xs.set (strlen xs - 1) 0) = (cstr xs).dropLast := by
  induction xs with
  | nil => rfl
  | cons c xs ih =>
    by_cases hc : c = 0
    · subst hc
      exact absurd h (Nat.not_lt_zero _)
    · rw [strlen_cons hc, cstr_cons hc, Nat.add_sub_cancel]
      rcases Nat.eq_zero_or_pos (strlen xs) with h0 | h0
      · rw [h0, List.eq_nil_of_length_eq_zero h0]
        rfl
      · have hne : cstr xs ≠ [] := List.ne_nil_of_length_pos h0
        obtain ⟨n, hn⟩ := Nat.exists_eq_add_of_lt h0
        rw [Nat.zero_add] at hn
        have := ih h0
        rw [hn, Nat.add_sub_cancel] at this
        rw [hn, List.set_cons_succ, cstr_cons hc, this, List.dropLast_cons_of_ne_nil hne]

/-! ### What lies behind the string -/

/-- The bytes from the end of the string up to `size` are zero. -/
def ZeroTail (xs : List UInt8) (size : ℕ) : Prop :=
  ∀ j, strlen xs ≤ j → j < size → xs.getD j 0 = 0

theorem zeroTail_strlen (xs : List UInt8) : ZeroTail xs (strlen xs) := by
  intro j h1 h2
  omega

/-- Behind a copied string there is its NUL, and then what was there before. -/
theorem strcpy_getD (dst : List UInt8) {src : List UInt8} {j : ℕ} (h : strlen src ≤ j) :
    (strcpy dst src).getD j 0 = 0 ∨ (strcpy dst src).getD j 0 = dst.getD j 0 := by
  obtain ⟨k, rfl⟩ := Nat.exists_eq_add_of_le h
  have hlen : (cstr src).length = strlen src := rfl
  rw [strcpy, List.getD_eq_getElem?_getD, List.getElem?_append_right (by omega), hlen,
    Nat.add_sub_cancel_left]
  cases k with
  | zero => exact .inl rfl
  | succ k =>
    refine .inr ?_
    rw [List.getElem?_cons_succ, List.getElem?_drop, List.getD_eq_getElem?_getD]
    congr 2
    omega

/-- A longer copy of the string leaves no old bytes behind it. -/
theorem ZeroTail.strcpy {dst src : List UInt8} {size : ℕ} (h : ZeroTail dst size)
    (hle : strlen dst ≤ strlen src) : ZeroTail (strcpy dst src) size := by
  intro j hj hsize
  rw [strlen, cstr_strcpy, ← strlen] at hj
  rcases strcpy_getD dst hj with h0 | h0
  · exact h0
  · exact h0.trans (h j (hle.trans hj) hsize)

/-- Nor does a NUL over its last byte. -/
theorem ZeroTail.cut {size : ℕ} (h : ZeroTail xs size) (hpos : 0 < strlen xs) :
    ZeroTail (xs.set (strlen xs - 1) 0) size := by
  intro j hj hsize
  rw [strlen, cstr_cut hpos, List.length_dropLast, ← strlen] at hj
  rw [List.getD_eq_getElem?_getD, List.getElem?_set]
  split
  · split <;> rfl
  · rw [← List.getD_eq_getElem?_getD]
    exact h j (by omega) hsize

/-! ### A part of the array -/

theorem length_strcpy (dst src : List UInt8) :
    (strcpy dst src).length = max dst.length (strlen src + 1) := by
  rw [strcpy, List.length_append, List.length_cons, List.length_drop, ← strlen]
  omega

/-- **A string that ends in the array** does not depend on what lies behind it. -/
theorem cstr_take_append {n : ℕ} (hnul : strlen xs < xs.length) (h : strlen xs < n)
    (ys : List UInt8) : cstr (xs.take n ++ ys) = cstr xs := by
  induction xs generalizing n with
  | nil => exact absurd hnul (Nat.not_lt_zero _)
  | cons c xs ih =>
    obtain ⟨n, rfl⟩ := Nat.exists_eq_succ_of_ne_zero (Nat.ne_of_gt ((Nat.zero_le _).trans_lt h))
    by_cases hc : c = 0
    · subst hc
      rfl
    · rw [strlen_cons hc, List.length_cons] at hnul
      rw [strlen_cons hc] at h
      rw [List.take_succ_cons, List.cons_append, cstr_cons hc, cstr_cons hc,
        ih (by omega) (by omega)]

theorem cstr_append_of_lt (hnul : strlen xs < xs.length) (ys : List UInt8) :
    cstr (xs ++ ys) = cstr xs := by
  have h := cstr_take_append hnul hnul ys
  rwa [List.take_length] at h

theorem ZeroTail.append {n : ℕ} (hnul : strlen xs < xs.length) (h : ZeroTail xs n)
    (ys : List UInt8) : ZeroTail (xs ++ ys) (min n xs.length) := by
  intro j hj hlt
  rw [strlen, cstr_append_of_lt hnul, ← strlen] at hj
  rw [List.getD_eq_getElem?_getD, List.getElem?_append_left (by omega),
    ← List.getD_eq_getElem?_getD]
  exact h j hj (by omega)

theorem ZeroTail.take {n k : ℕ} (hnul : strlen xs < xs.length) (hk : strlen xs < k)
    (h : ZeroTail xs (min n k)) : ZeroTail (xs.take k) n := by
  intro j hj hlt
  have hsame : cstr (xs.take k) = cstr xs := by
    have := cstr_take_append hnul hk []
    rwa [List.append_nil] at this
  rw [strlen, hsame, ← strlen] at hj
  rw [List.getD_eq_getElem?_getD, List.getElem?_take]
  split
  · rw [← List.getD_eq_getElem?_getD]
    exact h j hj (by omega)
  · rfl

/-- A string that fills the array runs on behind it. -/
theorem cstr_append_of_notMem (h : 0 ∉ xs) (ys : List UInt8) : cstr (xs ++ ys) = xs ++ cstr ys := by
  induction xs with
  | nil => rfl
  | cons c xs ih =>
    obtain ⟨hc, hxs⟩ := not_or.1 (mt List.mem_cons.2 h)
    rw [List.cons_append, cstr_cons (Ne.symm hc), ih hxs, List.cons_append]

@[simp] theorem cstr_set_zero (xs : List UInt8) : cstr (xs.set 0 0) = [] := by
  cases xs <;> rfl

end Shiro
