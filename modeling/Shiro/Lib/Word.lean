import Mathlib.Data.Nat.Bitwise
import Mathlib.Tactic.Ring

/-!
# Unsigned machine words as natural numbers

The values of `uint32_t` and `uint64_t` are natural numbers below `2 ^ w`; an operation that
can leave that range is followed by an explicit reduction.  The file also relates the bit
trick `x & ~(2 ^ k - 1)` to division.
-/

namespace Shiro

/-- What a `uint32_t` keeps of a number. -/
def u32 (n : ℕ) : ℕ := n % 2 ^ 32

/-- What a `uint64_t` keeps of a number. -/
def u64 (n : ℕ) : ℕ := n % 2 ^ 64

/-- `a - b` on `uint32_t`. -/
def sub32 (a b : ℕ) : ℕ := u32 (a + 2 ^ 32 - b)

/-- `x & ~m` on an unsigned type of `w` bits. -/
def andNot (w x m : ℕ) : ℕ := x &&& (2 ^ w - 1 - m)

theorem u32_lt (n : ℕ) : u32 n < 2 ^ 32 := Nat.mod_lt _ (by decide)

theorem u32_of_lt {n : ℕ} (h : n < 2 ^ 32) : u32 n = n := Nat.mod_eq_of_lt h

theorem u64_of_lt {n : ℕ} (h : n < 2 ^ 64) : u64 n = n := Nat.mod_eq_of_lt h

theorem sub32_of_le {a b : ℕ} (ha : a < 2 ^ 32) (h : b ≤ a) : sub32 a b = a - b := by
  unfold sub32 u32; omega

theorem u32_add_u32 (a b : ℕ) : u32 (u32 a + b) = u32 (a + b) := by
  unfold u32; omega

/-- The mask `1 << i` of a byte. -/
theorem ofNat_shiftLeft (i : ℕ) : BitVec.ofNat 8 (1 <<< i) = BitVec.twoPow 8 i :=
  BitVec.eq_of_toNat_eq (by rw [BitVec.toNat_ofNat, Nat.one_shiftLeft, BitVec.toNat_twoPow])

/-- `2 ^ w - 2 ^ k` has exactly the bits from `k` up to `w` set. -/
theorem testBit_two_pow_sub_two_pow {w k : ℕ} (hk : k ≤ w) (i : ℕ) :
    (2 ^ w - 2 ^ k).testBit i = (decide (k ≤ i) && decide (i < w)) := by
  have h : 2 ^ w - 2 ^ k = (2 ^ (w - k) - 1) <<< k := by
    rw [Nat.shiftLeft_eq, Nat.sub_mul, Nat.one_mul, ← Nat.pow_add, Nat.sub_add_cancel hk]
  rw [h, Nat.testBit_shiftLeft, Nat.testBit_two_pow_sub_one]
  by_cases hi : k ≤ i
  · simp only [hi, decide_true, Bool.true_and, decide_eq_decide]
    omega
  · simp [hi]

/-- Masking off the low `k` bits rounds down to a multiple of `2 ^ k`. -/
theorem andNot_two_pow {w k x : ℕ} (hx : x < 2 ^ w) (hk : k ≤ w) :
    andNot w x (2 ^ k - 1) = x / 2 ^ k * 2 ^ k := by
  have hpos : 0 < 2 ^ k := Nat.two_pow_pos k
  have hle : 2 ^ k ≤ 2 ^ w := Nat.pow_le_pow_right (by decide) hk
  have hm : 2 ^ w - 1 - (2 ^ k - 1) = 2 ^ w - 2 ^ k := by omega
  rw [andNot, hm, ← Nat.shiftRight_eq_div_pow, ← Nat.shiftLeft_eq]
  apply Nat.eq_of_testBit_eq
  intro i
  rw [Nat.testBit_land, testBit_two_pow_sub_two_pow hk, Nat.testBit_shiftLeft,
    Nat.testBit_shiftRight]
  by_cases hi : k ≤ i
  · rw [Nat.add_sub_cancel' hi]
    by_cases hw : i < w
    · simp [hi, hw]
    · have : x.testBit i = false :=
        Nat.testBit_lt_two_pow (hx.trans_le (Nat.pow_le_pow_right (by decide) (by omega)))
      simp [this]
  · simp [hi]

end Shiro
