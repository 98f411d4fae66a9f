import Mathlib.Algebra.Ring.Nat
import Mathlib.Data.List.Basic
import Mathlib.Data.List.TakeWhile
import Mathlib.Data.Nat.Notation

/-!
# Numerals

The numeral of a number in some base is the list of its digits in ASCII, the highest first and
without leading zeros.  A program that prints a number mostly collects the digits the other way
round, by dividing.

* `numeral` : the numeral, by `Nat.toDigits`.
* `digitOf`, `numeralValue` : the value of a digit, in either case, and of a string of digits.
* `numeralValue_numeral` : **a numeral reads back.**
* `foldl_digits` : the value of a numeral of a fixed width.
* `digitRun` : the digits at the start of a string.
* `lowDigits` : the digits that a loop of divisions collects; `reverse_lowDigits` : **their reverse
  is the numeral.**
-/

namespace Shiro

/-- The digit of value `d`. -/
def digit (d : ℕ) : UInt8 := d.digitChar.toUInt8

/-- The numeral of `n` in base `b`. -/
def numeral (b n : ℕ) : List UInt8 := (Nat.toDigits b n).map Char.toUInt8

/-- The value of a digit, `none` for any other byte. -/
def digitOf (c : UInt8) : Option ℕ :=
  if 48 ≤ c ∧ c ≤ 57 then some (c.toNat - 48)
  else if 97 ≤ c ∧ c ≤ 102 then some (c.toNat - 87)
  else if 65 ≤ c ∧ c ≤ 70 then some (c.toNat - 55)
  else none

/-- The value of a string of digits in base `b`. -/
def numeralValue (b : ℕ) (s : List UInt8) : ℕ := s.foldl (fun v c => b * v + (digitOf c).getD 0) 0

/-- The digits at the start of a string. -/
def digitRun (s : List UInt8) : List UInt8 := s.takeWhile fun c => (digitOf c).isSome

/-- The digits of `v`, at most `n` of them and the lowest first. -/
def lowDigits (b : ℕ) : ℕ → ℕ → List UInt8
  | 0, _ => []
  | n + 1, v => if v = 0 then [] else digit (v % b) :: lowDigits b n (v / b)

variable {b c d n v : ℕ}

/-! ### Digits -/

theorem digitOf_digit (hd : d < 16) : digitOf (digit d) = some d := by
  have h : ∀ d < 16, digitOf (digit d) = some d := by decide
  exact h d hd

theorem digitOf_zero : digitOf 0 = none := by
  decide

theorem digit_ne_zero (hd : d < 16) : digit d ≠ 0 := by
  have h : ∀ d < 16, digit d ≠ 0 := by decide
  exact h d hd

theorem digitOf_lt {c : UInt8} (h : digitOf c = some d) : d < 16 := by
  unfold digitOf at h
  split at h
  · rename_i hc
    have := UInt8.le_iff_toNat_le.1 hc.2
    cases h
    simp at this
    omega
  split at h
  · rename_i hc
    have := UInt8.le_iff_toNat_le.1 hc.2
    cases h
    simp at this
    omega
  split at h
  · rename_i hc
    have := UInt8.le_iff_toNat_le.1 hc.2
    cases h
    simp at this
    omega
  · cases h

/-! ### Numerals -/

theorem numeral_of_lt (h : n < b) : numeral b n = [digit n] := by
  rw [numeral, Nat.toDigits_of_lt_base h]
  rfl

theorem numeral_of_le (hb : 1 < b) (h : b ≤ n) :
    numeral b n = numeral b (n / b) ++ [digit (n % b)] := by
  rw [numeral, Nat.toDigits_of_base_le hb h, List.map_append]
  rfl

theorem length_numeral_le_iff (hb : 1 < b) (hc : 0 < c) : (numeral b n).length ≤ c ↔ n < b ^ c := by
  rw [numeral, List.length_map, Nat.length_toDigits_le_iff hb hc]

theorem numeral_ne_nil (b n : ℕ) : numeral b n ≠ [] := by
  rw [numeral, ne_eq, List.map_eq_nil_iff]
  exact Nat.toDigits_ne_nil

/-- A numeral consists of digits of its base. -/
theorem mem_numeral (hb : 1 < b) {x : UInt8} (hx : x ∈ numeral b n) : ∃ d < b, x = digit d := by
  induction n using Nat.strong_induction_on with
  | _ n ih =>
    rcases Nat.lt_or_ge n b with hlt | hle
    · rw [numeral_of_lt hlt, List.mem_singleton] at hx
      exact ⟨n, hlt, hx⟩
    · rw [numeral_of_le hb hle, List.mem_append, List.mem_singleton] at hx
      rcases hx with hx | hx
      · exact ih (n / b) (Nat.div_lt_self (by omega) hb) hx
      · exact ⟨n % b, Nat.mod_lt _ (by omega), hx⟩

theorem zero_notMem_numeral (hb : 1 < b) (hb' : b ≤ 16) (n : ℕ) : (0 : UInt8) ∉ numeral b n := by
  intro h
  obtain ⟨d, hd, h0⟩ := mem_numeral hb h
  exact digit_ne_zero (hd.trans_le hb') h0.symm

theorem numeralValue_append (b : ℕ) (s : List UInt8) (c : UInt8) :
    numeralValue b (s ++ [c]) = b * numeralValue b s + (digitOf c).getD 0 := by
  rw [numeralValue, List.foldl_append]
  rfl

/-- **A numeral reads back.** -/
theorem numeralValue_numeral (hb : 1 < b) (hb' : b ≤ 16) (n : ℕ) :
    numeralValue b (numeral b n) = n := by
  induction n using Nat.strong_induction_on with
  | _ n ih =>
    rcases Nat.lt_or_ge n b with hlt | hle
    · rw [numeral_of_lt hlt, ← List.nil_append [digit n], numeralValue_append,
        digitOf_digit (hlt.trans_le hb')]
      exact (Nat.zero_add n)
    · have hmod : n % b < b := Nat.mod_lt _ (by omega)
      rw [numeral_of_le hb hle, numeralValue_append, ih _ (Nat.div_lt_self (by omega) hb),
        digitOf_digit (hmod.trans_le hb')]
      exact Nat.div_add_mod n b

/-- A numeral consists of digits. -/
theorem digitRun_numeral (hb : 1 < b) (hb' : b ≤ 16) (n : ℕ) :
    digitRun (numeral b n) = numeral b n := by
  refine List.takeWhile_eq_self_iff.2 fun x hx => ?_
  obtain ⟨d, hd, rfl⟩ := mem_numeral hb hx
  rw [digitOf_digit (hd.trans_le hb')]
  rfl

/-! ### Digits of a fixed width -/

/-- **Digits of a fixed width**, the highest first. -/
theorem foldl_digits (b v n : ℕ) :
    (List.range n).foldl (fun w i => b * w + v / b ^ (n - 1 - i) % b) 0 = v % b ^ n := by
  induction n generalizing v with
  | zero => rw [List.range_zero, List.foldl_nil, Nat.pow_zero, Nat.mod_one]
  | succ n ih =>
    have hdigits : (List.range n).foldl (fun w i => b * w + v / b ^ (n + 1 - 1 - i) % b) 0 =
        (List.range n).foldl (fun w i => b * w + v / b / b ^ (n - 1 - i) % b) 0 := by
      refine List.foldl_ext _ _ _ fun w i hi => ?_
      have hi := List.mem_range.1 hi
      rw [Nat.div_div_eq_div_mul, ← Nat.pow_succ', show (n - 1 - i).succ = n + 1 - 1 - i by omega]
    rw [List.range_succ, List.foldl_append, hdigits, ih, List.foldl_cons, List.foldl_nil,
      Nat.add_sub_cancel, Nat.sub_self, Nat.pow_zero, Nat.div_one, Nat.pow_succ', Nat.mod_mul,
      Nat.add_comm]
/-! ### Collecting digits -/

theorem lowDigits_zero (b n : ℕ) : lowDigits b n 0 = [] := by
  cases n with
  | zero => rfl
  | succ n => rfl

/-- **The digits that the loop collects are the numeral, backwards.** -/
theorem reverse_lowDigits (hb : 1 < b) (hv : v ≠ 0) (h : v < b ^ n) :
    (lowDigits b n v).reverse = numeral b v := by
  induction n generalizing v with
  | zero =>
    rw [Nat.pow_zero] at h
    omega
  | succ n ih =>
    rw [lowDigits, if_neg hv, List.reverse_cons]
    rcases Nat.lt_or_ge v b with hlt | hle
    · -- the last digit
      rw [Nat.div_eq_of_lt hlt, lowDigits_zero, Nat.mod_eq_of_lt hlt, numeral_of_lt hlt]
      rfl
    · have hdiv : v / b ≠ 0 := (Nat.div_pos hle (by omega)).ne'
      have hlt : v / b < b ^ n := Nat.div_lt_of_lt_mul (by rwa [← Nat.pow_succ'])
      rw [ih hdiv hlt, numeral_of_le hb hle]

end Shiro
