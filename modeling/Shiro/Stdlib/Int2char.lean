import Shiro.Lib.Numeral
import Shiro.Lib.Reads
import Shiro.Shell.Numbers

/-!
# Numbers in the log

`int2char` fills a static buffer from behind with the digits of its argument, an `int`, and takes
them from a literal, at the remainders of the divisions by ten.  The loop ends on zero, so zero has
no digits; and the remainders of a negative number are negative, so they lie in front of the
literal.

* `int2char` : the function, as a computation that reads around the literal.
* `returned` : the string it returns after a series of earlier calls.
* `Converts` : it returns the decimal form of its argument and reads digits only.
* `converts_iff` : **exactly when** it does.
-/

namespace Shiro

open Reads

/-! ### The function -/

/-- The literal of `int2char`. -/
def digitLiteral : List UInt8 := text "0123456789abcdef"

/-- The loop of `int2char`, with `i` down to zero: the buffer and `i` behind it. -/
def int2charLoop : ℕ → ℤ → List UInt8 → Reads ℤ UInt8 (List UInt8 × ℕ)
  | 0, _, buf => return (buf, 0)
  | i + 1, val, buf =>
    if val = 0 then return (buf, i + 1)
    else read (val.tmod 10) fun c => int2charLoop i (val.tdiv 10) (buf.set (i + 1) c)

/-- `int2char(val)` on its static buffer: the buffer afterwards, and the index of the string it
returns in it.  The cells that are read count from the start of the literal. -/
def int2char (val : ℤ) (buf : List UInt8) : Reads ℤ UInt8 (List UInt8 × ℕ) := do
  let (buf, i) ← int2charLoop 30 val buf
  return (buf, i + 1)

/-- In the memory `lit` the literal stands at index 0. -/
def HoldsLiteral (lit : ℤ → UInt8) : Prop := ∀ k : ℕ, k < 16 → lit k = digitLiteral.getD k 0

/-- The buffer after calls with the arguments `vs`. -/
def bufferAfter (lit : ℤ → UInt8) (vs : List Int32) : List UInt8 :=
  vs.foldl (fun buf v => ((int2char v.toInt buf).run lit).1) (List.replicate 32 0)

/-- The string that `int2char(v)` returns after calls with the arguments `vs`. -/
def returned (lit : ℤ → UInt8) (vs : List Int32) (v : Int32) : List UInt8 :=
  let (buf, i) := (int2char v.toInt (bufferAfter lit vs)).run lit
  cstr (buf.drop i)

/-! ### What it should do -/

/-- The value of a decimal number with an optional sign. -/
def decimalValue (s : List UInt8) : ℤ :=
  if s.head? = some 45 then -numeralValue 10 s.tail else numeralValue 10 s

/-- `int2char(v)` returns the decimal form of `v`, which reads back, and reads digits only. -/
structure Converts (v : Int32) : Prop where
  decimal : ∀ lit, HoldsLiteral lit → ∀ vs, returned lit vs v = text (toString v.toInt)
  back : ∀ lit, HoldsLiteral lit → ∀ vs, decimalValue (returned lit vs v) = v.toInt
  reads : ∀ lit, HoldsLiteral lit → ∀ vs,
    (int2char v.toInt (bufferAfter lit vs)).Within lit fun k => 0 ≤ k ∧ k < 16

variable {lit : ℤ → UInt8} {buf : List UInt8} {i n : ℕ} {val : ℤ} {v : Int32}

/-! ### The buffer -/

/-- The last byte of the buffer is its NUL. -/
theorem drop_int2charLoop (hi : i < 31) (hbuf : buf.drop 31 = [0]) :
    ((int2charLoop i val buf).run lit).1.drop 31 = [0] := by
  induction i generalizing val buf with
  | zero => exact hbuf
  | succ i ih =>
    rw [int2charLoop]
    split
    · exact hbuf
    · exact ih (by omega) (by rwa [List.drop_set_of_lt (by omega)])

theorem run_int2char (lit : ℤ → UInt8) (val : ℤ) (buf : List UInt8) :
    (int2char val buf).run lit =
      (((int2charLoop 30 val buf).run lit).1, ((int2charLoop 30 val buf).run lit).2 + 1) := by
  rw [int2char, run_bind]
  rfl

theorem drop_bufferAfter (lit : ℤ → UInt8) (vs : List Int32) :
    (bufferAfter lit vs).drop 31 = [0] := by
  induction vs using List.reverseRecOn with
  | nil => rfl
  | append_singleton vs v ih =>
    rw [bufferAfter, List.foldl_append, ← bufferAfter, List.foldl_cons, List.foldl_nil,
      run_int2char]
    exact drop_int2charLoop (i := 30) (by decide) ih

/-! ### Positive numbers -/

theorem literal_digit (hlit : HoldsLiteral lit) (n : ℕ) :
    lit ((n : ℤ).tmod 10) = digit (n % 10) := by
  have hdigit : ∀ d < 10, digitLiteral.getD d 0 = digit d := by decide
  have hmod : (n : ℤ).tmod 10 = (n % 10 : ℕ) := rfl
  have hlt : n % 10 < 10 := Nat.mod_lt _ (by decide)
  rw [hmod, hlit _ (by omega), hdigit _ hlt]

/-- **The loop puts the digits of a positive number in front of what is there.** -/
theorem run_int2charLoop (hlit : HoldsLiteral lit) (hi : i < buf.length) :
    ∃ r, (int2charLoop i n buf).run lit = r ∧
      r.1.drop (r.2 + 1) = (lowDigits 10 i n).reverse ++ buf.drop (i + 1) := by
  induction i generalizing n buf with
  | zero => exact ⟨_, rfl, rfl⟩
  | succ i ih =>
    rw [int2charLoop, lowDigits]
    by_cases hn : n = 0
    · subst hn
      exact ⟨_, rfl, rfl⟩
    · have hdiv : (n : ℤ).tdiv 10 = (n / 10 : ℕ) := rfl
      have hlen : i < (buf.set (i + 1) (digit (n % 10))).length := by
        rw [List.length_set]
        omega
      obtain ⟨r, hr, hdrop⟩ := ih (n := n / 10) hlen
      refine ⟨r, ?_, ?_⟩
      · rw [if_neg (by omega), run, literal_digit hlit, hdiv, hr]
      · rw [hdrop, if_neg hn, List.reverse_cons, List.append_assoc]
        congr 1
        rw [List.drop_set, if_neg (lt_irrefl _), Nat.sub_self, List.drop_eq_getElem_cons hi]
        rfl

theorem head_numeral_ne_minus (n : ℕ) : (numeral 10 n).head? ≠ some 45 := by
  have hdigit : ∀ d < 10, digit d ≠ 45 := by decide
  intro h
  obtain ⟨d, hd, hminus⟩ := mem_numeral (by decide) (List.mem_of_mem_head? h)
  exact hdigit d hd hminus.symm

/-- A positive number is written out. -/
theorem returned_of_pos (hlit : HoldsLiteral lit) (vs : List Int32) (hv : 0 < v.toInt) :
    returned lit vs v = numeral 10 v.toInt.toNat := by
  obtain ⟨n, hn⟩ := Int.eq_ofNat_of_zero_le hv.le
  have hlt : v.toInt < 2 ^ 31 := v.toInt_lt
  have hnul := drop_bufferAfter lit vs
  have hlen : 30 < (bufferAfter lit vs).length := by
    by_contra hle
    rw [List.drop_of_length_le (by omega)] at hnul
    cases hnul
  obtain ⟨r, hr, hdrop⟩ := run_int2charLoop (n := n) hlit hlen
  rw [returned, run_int2char, hn, hr]
  dsimp only
  rw [hdrop, hnul, reverse_lowDigits (by decide) (by omega) (by omega), Int.toNat_natCast]
  exact cstr_append_zero (zero_notMem_numeral (by decide) (by decide) n) []

theorem within_int2charLoop (n : ℕ) (buf : List UInt8) :
    (int2charLoop i n buf).Within lit fun k => 0 ≤ k ∧ k < 16 := by
  induction i generalizing n buf with
  | zero => exact within_pure _
  | succ i ih =>
    rw [int2charLoop]
    split
    · exact within_pure _
    · have hmod : (n : ℤ).tmod 10 = (n % 10 : ℕ) := rfl
      have hdiv : (n : ℤ).tdiv 10 = (n / 10 : ℕ) := rfl
      rw [within_read, hmod, hdiv]
      exact ⟨by omega, ih _ _⟩

/-! ### Negative numbers -/

/-- **A negative number reads in front of the literal**, with its first digit at the latest. -/
theorem not_within_int2charLoop (hneg : val < 0) (hlarge : -10 ^ i < val) (buf : List UInt8) :
    ¬ (int2charLoop i val buf).Within lit fun k => 0 ≤ k ∧ k < 16 := by
  induction i generalizing val buf with
  | zero => omega
  | succ i ih =>
    rw [int2charLoop, if_neg (by omega), within_read]
    rintro ⟨hread, hrest⟩
    have hdivmod := Int.tmod_add_mul_tdiv val 10
    have hmod : 0 ≤ (-val).tmod 10 := Int.tmod_nonneg 10 (by omega)
    have hlt : -10 < val.tmod 10 := Int.lt_tmod_of_pos val (by decide)
    rw [Int.neg_tmod] at hmod
    rw [pow_succ] at hlarge
    exact ih (by omega) (by omega) _ hrest

/-! ### All numbers -/

/-- A memory with the literal in it, and zeros around it. -/
def literalAlone (k : ℤ) : UInt8 := if k < 0 then 0 else digitLiteral.getD k.toNat 0

theorem holdsLiteral_literalAlone : HoldsLiteral literalAlone := by
  intro k _
  rw [literalAlone, if_neg (by omega), Int.toNat_natCast]

/-- Zero has no digits. -/
theorem returned_of_zero (lit : ℤ → UInt8) (vs : List Int32) (hv : v.toInt = 0) :
    returned lit vs v = [] := by
  have hrun : (int2char 0 (bufferAfter lit vs)).run lit = (bufferAfter lit vs, 31) := rfl
  rw [returned, hv, hrun]
  dsimp only
  rw [drop_bufferAfter]
  rfl

/-- **`int2char` converts a number rightly**, reading no character but its digits, if and only if
the number is positive. -/
theorem converts_iff (v : Int32) : Converts v ↔ 0 < v.toInt := by
  constructor
  · intro h
    rcases Int.lt_trichotomy v.toInt 0 with hneg | hzero | hpos
    · -- a digit of a negative number is read in front of the literal
      have hle : -2 ^ 31 ≤ v.toInt := v.le_toInt
      have hwithin := h.reads literalAlone holdsLiteral_literalAlone []
      rw [int2char, within_bind] at hwithin
      exact absurd hwithin.1 (not_within_int2charLoop hneg (by omega) _)
    · have hdecimal := h.decimal literalAlone holdsLiteral_literalAlone []
      rw [returned_of_zero _ _ hzero, hzero] at hdecimal
      cases hdecimal
    · exact hpos
  · intro hpos
    obtain ⟨n, hn⟩ := Int.eq_ofNat_of_zero_le hpos.le
    have hreturned : ∀ lit, HoldsLiteral lit → ∀ vs, returned lit vs v = numeral 10 n := by
      intro lit hlit vs
      rw [returned_of_pos hlit vs hpos, hn, Int.toNat_natCast]
    refine ⟨fun lit hlit vs => ?_, fun lit hlit vs => ?_, fun lit hlit vs => ?_⟩
    · rw [hreturned lit hlit vs, hn]
      exact numeral_ten n
    · rw [hreturned lit hlit vs, hn, decimalValue, if_neg (head_numeral_ne_minus n),
        numeralValue_numeral (by decide) (by decide)]
    · rw [int2char, within_bind, hn]
      exact ⟨within_int2charLoop n _, within_pure _⟩

/-- Zero is printed as nothing. -/
theorem not_converts_zero : ¬ ∀ v, Converts v := by
  intro h
  have hdecimal := (h 0).decimal literalAlone holdsLiteral_literalAlone []
  revert hdecimal
  decide

end Shiro
