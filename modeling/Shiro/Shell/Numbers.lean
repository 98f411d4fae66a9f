import Shiro.Lib.Numeral
import Shiro.Lib.Stores
import Shiro.Lib.Word
import Shiro.Shell.Commands

/-!
# Numbers on the screen

`IntToStr` and `HexToStr` print a number into a buffer of a given capacity, which they are passed as
an `int`; `u32_to_str` is a copy of the first for the tasks.  `ParseHex` reads a hexadecimal number.

* `intToStr`, `hexToStr` : what is printed.
* `Commands.intToStr`, `Commands.hexToStr`, `DemoTasks.u32ToStr` : the functions and their stores.
* `parseHex`, `hexRun` : `ParseHex`, and the digits it should read; `parseHex_eq` : **it returns
  what 32 bits keep of them.**
* `Prints` : a string is printed within a capacity.
* `prints_numbers` : **the functions print the numerals**, as far as they fit, and they read back.
-/

namespace Shiro

/-! ### What is printed -/

/-- The loop of `IntToStr` that collects the digits, the lowest first. -/
def intDigits : ℕ → ℕ → List UInt8
  | 0, _ => []
  | n + 1, v => if v = 0 then [] else UInt8.ofNat (48 + v % 10) :: intDigits n (v / 10)

/-- `IntToStr(v, buf, cap)`: what it writes. -/
def intToStr (v cap : ℕ) : List UInt8 :=
  if cap < 2 then []
  else if v = 0 then text "0"
  else (intDigits 15 v).reverse.take (cap - 1)

/-- The loop of `HexToStr` that collects the digits, the lowest first. -/
def hexDigits : ℕ → ℕ → List UInt8
  | 0, _ => []
  | n + 1, v =>
    if v = 0 then []
    else (text "0123456789abcdef").getD (v &&& 0xF) 0 :: hexDigits n (v >>> 4)

/-- `HexToStr(v, buf, cap)`: what it writes. -/
def hexToStr (v cap : ℕ) : List UInt8 :=
  if cap < 4 then []
  else text "0x" ++ (if v = 0 then text "0" else (hexDigits 8 v).reverse).take (cap - 3)

/-! ### The functions -/

namespace Commands

open Stores

/-- `AppendStr(dst, idx, cap, s)`. -/
def appendStr (idx : ℕ) (cap : ℤ) (s : List UInt8) : Stores ℕ := do
  let idx ← putsBelow (cap - 1) (cstr s) idx
  put idx 0
  return idx

/-- `IntToStr(v, buf, cap)`. -/
def intToStr (v : ℕ) (cap : ℤ) : Stores ℕ :=
  if cap < 2 then do
    if cap > 0 then put 0 0
    return 0
  else if v = 0 then do
    put 0 48
    put 1 0
    return 1
  else do
    let j ← putsBelow (cap - 1) (intDigits 15 v).reverse 0
    put j 0
    return j

/-- `HexToStr(v, buf, cap)`. -/
def hexToStr (v : ℕ) (cap : ℤ) : Stores ℕ :=
  if cap < 4 then do
    if cap > 0 then put 0 0
    return 0
  else do
    put 0 48
    put 1 120
    let tmp := if v = 0 then [48] else hexDigits 8 v
    let j ← putsBelow (cap - 1) tmp.reverse 2
    put j 0
    return j

end Commands

namespace DemoTasks

open Stores

/-- `u32_to_str(v, buf, cap)`. -/
def u32ToStr (v : ℕ) (cap : ℤ) : Stores ℕ :=
  if cap < 2 then do
    if cap > 0 then put 0 0
    return 0
  else if v = 0 then do
    put 0 48
    put 1 0
    return 1
  else do
    let j ← putsBelow (cap - 1) (intDigits 15 v).reverse 0
    put j 0
    return j

/-- `u32_to_2digit(v, out)`. -/
def u32To2Digit (v : ℕ) : Stores Unit := do
  put 0 (UInt8.ofNat (48 + v / 10 % 10))
  put 1 (UInt8.ofNat (48 + v % 10))

end DemoTasks

/-! ### Reading -/

/-- The value of a hex digit in `ParseHex`. -/
def hexDigit (c : UInt8) : Option ℕ :=
  if c ≥ 48 ∧ c ≤ 57 then some (c.toNat - 48)
  else if c ≥ 97 ∧ c ≤ 102 then some (c.toNat - 97 + 10)
  else if c ≥ 65 ∧ c ≤ 70 then some (c.toNat - 65 + 10)
  else none

/-- The loop of `ParseHex`: the variables `v` and `any` behind it. -/
def parseLoop : List UInt8 → ℕ → Bool → ℕ × Bool
  | [], v, any => (v, any)
  | c :: s, v, any =>
    if c = 0 then (v, any)
    else
      match hexDigit c with
      | none => (v, any)
      | some d => parseLoop s (u32 (v <<< 4) ||| d) true

/-- `ParseHex(s, &out)`: what it returns, and `out` afterwards. -/
def parseHex (s : List UInt8) (out : ℕ) : Bool × ℕ :=
  if s.headD 0 = 0 then (false, out)
  else
    let s := if s.headD 0 = 48 ∧ (s.getD 1 0 = 120 ∨ s.getD 1 0 = 88) then s.drop 2 else s
    let (v, any) := parseLoop s 0 false
    if !any then (false, out) else (true, v)

/-- The hex digits at the start of a string, behind an optional `0x` or `0X`. -/
def hexRun (s : List UInt8) : List UInt8 :=
  let s := cstr s
  digitRun (if text "0x" <+: s ∨ text "0X" <+: s then s.drop 2 else s)

/-- The string `s` is printed: it is in the buffer, and its length is returned.  At most `cap` bytes
are stored to. -/
structure Prints (c : Stores ℕ) (cap : ℤ) (s : List UInt8) : Prop where
  value : c.value = s.length
  within : c.Within cap
  string : 0 < cap → ∀ buf : List UInt8, cap ≤ buf.length →
    c.fill buf = s ++ 0 :: buf.drop (s.length + 1)

variable {n v out : ℕ} {cap : ℤ} {c : UInt8} {s rest : List UInt8}

/-! ### Collecting digits -/

theorem length_intDigits_le (n v : ℕ) : (intDigits n v).length ≤ n := by
  induction n generalizing v with
  | zero => exact le_rfl
  | succ n ih =>
    rw [intDigits]
    split
    · exact Nat.zero_le _
    · exact Nat.succ_le_succ (ih _)

theorem length_intToStr_le (v cap : ℕ) : (intToStr v cap).length ≤ 15 := by
  unfold intToStr
  split_ifs
  · exact Nat.zero_le _
  · decide
  · rw [List.length_take, List.length_reverse]
    exact (Nat.min_le_right _ _).trans (length_intDigits_le 15 v)

theorem length_intToStr_lt (v : ℕ) {cap : ℕ} (hcap : 0 < cap) : (intToStr v cap).length < cap := by
  have htext : (text "0").length = 1 := by decide
  unfold intToStr
  split_ifs
  · exact hcap
  · omega
  · rw [List.length_take]
    omega

theorem intDigits_eq (n v : ℕ) : intDigits n v = lowDigits 10 n v := by
  induction n generalizing v with
  | zero => rfl
  | succ n ih =>
    have hdigit : ∀ d < 10, UInt8.ofNat (48 + d) = digit d := by decide
    rw [intDigits, lowDigits, ih, hdigit _ (Nat.mod_lt _ (by decide))]

theorem hexDigits_eq (n v : ℕ) : hexDigits n v = lowDigits 16 n v := by
  induction n generalizing v with
  | zero => rfl
  | succ n ih =>
    have hdigit : ∀ d < 16, (text "0123456789abcdef").getD d 0 = digit d := by decide
    have hmod : v &&& 0xF = v % 16 := Nat.and_two_pow_sub_one_eq_mod v 4
    have hdiv : v >>> 4 = v / 16 := Nat.shiftRight_eq_div_pow v 4
    rw [hexDigits, lowDigits, ih, hmod, hdiv, hdigit _ (Nat.mod_lt _ (by decide))]

/-! ### What is printed -/

theorem reverse_intDigits (hv : v ≠ 0) (h : v < 2 ^ 32) :
    (intDigits 15 v).reverse = numeral 10 v := by
  rw [intDigits_eq, reverse_lowDigits (by decide) hv (h.trans (by decide))]

theorem reverse_hexDigits (hv : v ≠ 0) (h : v < 2 ^ 32) :
    (hexDigits 8 v).reverse = numeral 16 v := by
  rw [hexDigits_eq, reverse_lowDigits (by decide) hv (h.trans_eq (by decide))]

/-- **`IntToStr` prints the first digits of the decimal numeral.** -/
theorem intToStr_eq (h : v < 2 ^ 32) (cap : ℕ) :
    intToStr v cap = (numeral 10 v).take (cap - 1) := by
  unfold intToStr
  split_ifs with hcap hv
  · rw [show cap - 1 = 0 by omega, List.take_zero]
  · rw [hv, numeral_of_lt (by decide), List.take_of_length_le (show 1 ≤ cap - 1 by omega)]
    decide
  · rw [reverse_intDigits hv h]

/-- **`HexToStr` prints the first digits of the hexadecimal numeral.** -/
theorem hexToStr_eq (h : v < 2 ^ 32) {cap : ℕ} (hcap : 4 ≤ cap) :
    hexToStr v cap = text "0x" ++ (numeral 16 v).take (cap - 3) := by
  rw [hexToStr, if_neg (by omega)]
  split_ifs with hv
  · rw [hv, numeral_of_lt (by decide)]
    rfl
  · rw [reverse_hexDigits hv h]

theorem length_hexToStr_le (h : v < 2 ^ 32) (cap : ℕ) : (hexToStr v cap).length ≤ 10 := by
  rcases Nat.lt_or_ge cap 4 with hcap | hcap
  · rw [hexToStr, if_pos hcap]
    exact Nat.zero_le _
  · have hdigits : (numeral 16 v).length ≤ 8 :=
      (length_numeral_le_iff (by decide) (by decide)).2 (h.trans_eq (by decide))
    have htext : (text "0x").length = 2 := by decide
    rw [hexToStr_eq h hcap, List.length_append, List.length_take]
    omega

theorem length_hexToStr_lt (v : ℕ) {cap : ℕ} (hcap : 0 < cap) : (hexToStr v cap).length < cap := by
  have htext : (text "0x").length = 2 := by decide
  unfold hexToStr
  split
  · exact hcap
  · rw [List.length_append, List.length_take, htext]
    omega

/-! ### The stores -/

open Stores

theorem writes_intToStr (v : ℕ) (hcap : 0 < cap) :
    (Commands.intToStr v cap).Writes (intToStr v cap.toNat) := by
  unfold Commands.intToStr intToStr
  by_cases h2 : cap < 2
  · obtain rfl : cap = 1 := by omega
    exact ⟨rfl, rfl⟩
  · rw [if_neg h2, if_neg (show ¬ cap.toNat < 2 by omega)]
    split
    · exact ⟨rfl, rfl⟩
    · have hroom : (cap - 1 - (0 : ℕ)).toNat = cap.toNat - 1 := by omega
      rw [putsBelow_eq, hroom]
      exact writes_append (c := pure ()) (s := []) rfl

theorem writes_hexToStr (v : ℕ) (hcap : 0 < cap) :
    (Commands.hexToStr v cap).Writes (hexToStr v cap.toNat) := by
  unfold Commands.hexToStr hexToStr
  by_cases h4 : cap < 4
  · rw [if_pos h4, if_pos hcap, if_pos (show cap.toNat < 4 by omega)]
    exact ⟨rfl, rfl⟩
  · have hroom : (cap - 1 - (2 : ℕ)).toNat = cap.toNat - 3 := by omega
    have htmp : (if v = 0 then [48] else hexDigits 8 v).reverse =
        if v = 0 then text "0" else (hexDigits 8 v).reverse := by
      split <;> rfl
    rw [if_neg h4, if_neg (show ¬ cap.toNat < 4 by omega)]
    dsimp only
    rw [putsBelow_eq, hroom, htmp]
    exact writes_append (c := do put 0 48; put 1 120) (s := text "0x") rfl

/-- Without room nothing is stored. -/
theorem intToStr_of_nonpos (v : ℕ) (hcap : cap ≤ 0) : Commands.intToStr v cap = pure 0 := by
  rw [Commands.intToStr, if_pos (by omega), if_neg (by omega)]

theorem hexToStr_of_nonpos (v : ℕ) (hcap : cap ≤ 0) : Commands.hexToStr v cap = pure 0 := by
  rw [Commands.hexToStr, if_pos (by omega), if_neg (by omega)]

/-- `u32_to_str` is `IntToStr`. -/
theorem u32ToStr_eq (v : ℕ) (cap : ℤ) : DemoTasks.u32ToStr v cap = Commands.intToStr v cap := rfl

theorem Stores.Writes.prints {c : Stores ℕ} (h : c.Writes s) (hs : (s.length : ℤ) < cap) :
    Prints c cap s := by
  refine ⟨h.value, h.within hs, fun _ buf hbuf => h.fill ?_⟩
  omega

theorem prints_nil (hcap : cap ≤ 0) : Prints (pure 0) cap [] :=
  ⟨rfl, within_pure _, fun h => absurd h (by omega)⟩

theorem prints_intToStr (h : v < 2 ^ 32) (cap : ℤ) :
    Prints (Commands.intToStr v cap) cap ((numeral 10 v).take (cap - 1).toNat) := by
  by_cases hcap : 0 < cap
  · have htake : (cap - 1).toNat = cap.toNat - 1 := by omega
    have hwrites := writes_intToStr v hcap
    rw [intToStr_eq h] at hwrites
    rw [htake]
    refine hwrites.prints ?_
    rw [List.length_take]
    omega
  · rw [intToStr_of_nonpos v (by omega), show (cap - 1).toNat = 0 by omega, List.take_zero]
    exact prints_nil (by omega)

theorem prints_hexToStr (v : ℕ) (cap : ℤ) :
    Prints (Commands.hexToStr v cap) cap (hexToStr v cap.toNat) := by
  by_cases hcap : 0 < cap
  · have hpos : 0 < cap.toNat := by omega
    have hlen := length_hexToStr_lt v hpos
    exact (writes_hexToStr v hcap).prints (by omega)
  · rw [hexToStr_of_nonpos v (by omega), hexToStr, if_pos (by omega)]
    exact prints_nil (by omega)

/-! ### `ParseHex` -/

theorem hexDigit_eq (c : UInt8) : hexDigit c = digitOf c := by
  unfold hexDigit digitOf
  simp only [ge_iff_le]
  split
  · rfl
  split
  · rename_i hc
    have := UInt8.le_iff_toNat_le.1 hc.1
    simp at this
    congr 1
    omega
  split
  · rename_i hc
    have := UInt8.le_iff_toNat_le.1 hc.1
    simp at this
    congr 1
    omega
  · rfl

/-- One digit more, in 32 bits. -/
theorem u32_shift_or (v : ℕ) {d : ℕ} (hd : d < 16) :
    u32 (u32 v <<< 4) ||| d = u32 (16 * v + d) := by
  have hshift : u32 (u32 v <<< 4) = (v % 2 ^ 28) <<< 4 := by
    rw [Nat.shiftLeft_eq, Nat.shiftLeft_eq]
    unfold u32
    omega
  rw [hshift, ← Nat.shiftLeft_add_eq_or_of_lt (by omega), Nat.shiftLeft_eq]
  unfold u32
  omega

/-- **The loop keeps 32 bits of the number that the digits denote.** -/
theorem parseLoop_eq (s : List UInt8) (v : ℕ) (any : Bool) :
    parseLoop s (u32 v) any =
      (u32 ((digitRun s).foldl (fun v c => 16 * v + (digitOf c).getD 0) v),
        any || !(digitRun s).isEmpty) := by
  induction s generalizing v any with
  | nil => simp [parseLoop, digitRun]
  | cons c s ih =>
    rw [parseLoop, hexDigit_eq]
    by_cases hc : c = 0
    · subst hc
      simp [digitRun, digitOf_zero]
    · rw [if_neg hc]
      cases hd : digitOf c with
      | none => simp [digitRun, hd]
      | some d =>
        dsimp only
        rw [u32_shift_or v (digitOf_lt hd), ih]
        simp [digitRun, hd]

/-- No digit lies behind the NUL. -/
theorem digitRun_cstr (s : List UInt8) : digitRun (cstr s) = digitRun s := by
  unfold digitRun
  induction s with
  | nil => rfl
  | cons c s ih =>
    by_cases hc : c = 0
    · subst hc
      simp [digitOf_zero]
    · rw [cstr_cons hc, List.takeWhile_cons, List.takeWhile_cons, ih]

/-- `ParseHex` skips the prefix rightly. -/
theorem hexRun_eq (hs : s.headD 0 ≠ 0) : hexRun s =
    digitRun (if s.headD 0 = 48 ∧ (s.getD 1 0 = 120 ∨ s.getD 1 0 = 88) then s.drop 2 else s) := by
  have htext : text "0x" = [48, 120] ∧ text "0X" = [48, 88] := by decide
  unfold hexRun
  dsimp only
  rw [htext.1, htext.2]
  match s with
  | [] => exact absurd rfl hs
  | [c] =>
    have hc : c ≠ 0 := hs
    simp [cstr_cons hc]
  | c :: x :: s =>
    have hc : c ≠ 0 := hs
    by_cases hx : x = 0
    · subst hx
      simp [cstr_cons hc, digitRun, digitOf_zero, List.takeWhile_cons]
    · have hprefixed : ∀ y : UInt8, [48, y] <+: c :: x :: cstr s ↔ c = 48 ∧ x = y := by
        intro y
        simp [eq_comm]
      have hhead : (c :: x :: s).headD 0 = c ∧ (c :: x :: s).getD 1 0 = x := ⟨rfl, rfl⟩
      simp only [cstr_cons hc, cstr_cons hx, hprefixed, ← and_or_left, hhead]
      split
      · exact digitRun_cstr s
      · rw [← cstr_cons hx, ← cstr_cons hc, digitRun_cstr]

/-- **`ParseHex` returns what 32 bits keep of the number that was typed**, and nothing if there are
no digits. -/
theorem parseHex_eq (s : List UInt8) (out : ℕ) : parseHex s out =
    if hexRun s = [] then (false, out) else (true, u32 (numeralValue 16 (hexRun s))) := by
  by_cases hs : s.headD 0 = 0
  · have hempty : cstr s = [] := by
      cases s with
      | nil => rfl
      | cons c s =>
        obtain rfl : c = 0 := hs
        rfl
    have hrun : hexRun s = [] := by
      rw [hexRun, hempty]
      rfl
    rw [parseHex, if_pos hs, if_pos hrun]
  · rw [parseHex, if_neg hs, hexRun_eq hs]
    dsimp only
    generalize (if s.headD 0 = 48 ∧ (s.getD 1 0 = 120 ∨ s.getD 1 0 = 88) then s.drop 2 else s) = t
    rw [show (0 : ℕ) = u32 0 from rfl, parseLoop_eq]
    by_cases hrun : digitRun t = []
    · simp [hrun]
    · have hany : (digitRun t).isEmpty = false := by simpa using hrun
      rw [if_neg hrun, hany]
      rfl

/-- The digits behind a printed prefix. -/
theorem hexRun_numeral (v : ℕ) (rest : List UInt8) :
    hexRun (text "0x" ++ numeral 16 v ++ 0 :: rest) = numeral 16 v := by
  have hcstr : cstr (text "0x" ++ numeral 16 v ++ 0 :: rest) = text "0x" ++ numeral 16 v := by
    refine cstr_append_zero (fun h => ?_) rest
    rcases List.mem_append.1 h with h | h
    · exact absurd h (by decide)
    · exact zero_notMem_numeral (by decide) (by decide) v h
  have hdrop : (text "0x" ++ numeral 16 v).drop 2 = numeral 16 v := rfl
  rw [hexRun, hcstr, if_pos (.inl (List.prefix_append _ _)), hdrop,
    digitRun_numeral (by decide) (by decide)]

/-! ### Numbers printed and read -/

/-- What printing the number `v` with the capacity `cap` does. -/
structure NumberLaw (v : ℕ) (cap : ℤ) : Prop where
  /-- `u32_to_str` stores what `IntToStr` stores. -/
  same : DemoTasks.u32ToStr v cap = Commands.intToStr v cap
  /-- The first digits of the decimal numeral, as many as fit in front of the NUL. -/
  decimal : Prints (Commands.intToStr v cap) cap ((numeral 10 v).take (cap - 1).toNat)
  decimal_back : 11 ≤ cap → numeralValue 10 ((numeral 10 v).take (cap - 1).toNat) = v
  hex : Prints (Commands.hexToStr v cap) cap (hexToStr v cap.toNat)
  hex_back : 11 ≤ cap → ∀ buf : List UInt8, cap ≤ buf.length → ∀ out,
    parseHex ((Commands.hexToStr v cap).fill buf) out = (true, v)

/-- The decimal numeral is the usual one. -/
theorem numeral_ten (v : ℕ) : numeral 10 v = text (toString v) := by
  rw [numeral, text, Nat.toString_eq_ofList_toDigits, String.toList_ofList]

/-- **The functions print the numerals of all numbers, as far as they fit, and with room for eleven
bytes they read back.** -/
theorem prints_numbers (v : UInt32) (cap : ℤ) : NumberLaw v.toNat cap := by
  have hv : v.toNat < 2 ^ 32 := v.toNat_lt
  refine ⟨u32ToStr_eq _ _, prints_intToStr hv cap, fun hcap => ?_, prints_hexToStr _ cap,
    fun hcap buf hbuf out => ?_⟩
  · have hlen : (numeral 10 v.toNat).length ≤ 10 :=
      (length_numeral_le_iff (by decide) (by decide)).2 (hv.trans (by decide))
    rw [List.take_of_length_le (by omega), numeralValue_numeral (by decide) (by decide)]
  · have hlen : (numeral 16 v.toNat).length ≤ 8 :=
      (length_numeral_le_iff (by decide) (by decide)).2 (hv.trans_eq (by decide))
    have hfull : hexToStr v.toNat cap.toNat = text "0x" ++ numeral 16 v.toNat := by
      rw [hexToStr_eq hv (by omega), List.take_of_length_le (by omega)]
    rw [(prints_hexToStr v.toNat cap).string (by omega) buf hbuf, hfull, parseHex_eq,
      hexRun_numeral, if_neg (numeral_ne_nil _ _), numeralValue_numeral (by decide) (by decide), u32_of_lt hv]

end Shiro
