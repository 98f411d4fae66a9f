import Mathlib.Data.Finset.Card
import Mathlib.Order.Bounds.Basic

/-!
# Bitmaps stored in bytes

Bit `i` of a bitmap is bit `i % 8` of byte `i / 8`.  Setting and clearing a bit change that bit
and no other (`get_set`, `get_clear`), so the set of clear bits below a bound loses or gains one
element (`clearBits_set`, `clearBits_clear`).

A search for the first clear bit may go byte by byte (`findSome?_blocks`); what it finds is the
least element of the clear bits (`leastClear_eq_some`).
-/

namespace Shiro

/-- A bitmap: the byte at every index. -/
abbrev Bitmap := ℕ → BitVec 8

namespace Bitmap

/-- Bit `i`. -/
def get (bm : Bitmap) (i : ℕ) : Bool := (bm (i / 8)).getLsbD (i % 8)

/-- Set bit `i`. -/
def set (bm : Bitmap) (i : ℕ) : Bitmap :=
  Function.update bm (i / 8) (bm (i / 8) ||| BitVec.twoPow 8 (i % 8))

/-- Clear bit `i`. -/
def clear (bm : Bitmap) (i : ℕ) : Bitmap :=
  Function.update bm (i / 8) (bm (i / 8) &&& ~~~BitVec.twoPow 8 (i % 8))

/-- The clear bits below `n`. -/
def clearBits (n : ℕ) (bm : Bitmap) : Finset ℕ := (Finset.range n).filter fun i => bm.get i = false

/-- The first clear bit below `n`. -/
def leastClear (n : ℕ) (bm : Bitmap) : Option ℕ := (List.range n).find? fun i => !bm.get i

variable (bm : Bitmap) {i j n : ℕ}

theorem eq_iff_div_mod (i j : ℕ) : i = j ↔ i / 8 = j / 8 ∧ i % 8 = j % 8 := by
  omega

theorem get_set (i j : ℕ) : (bm.set i).get j = (decide (i = j) || bm.get j) := by
  have hmod : j % 8 < 8 := Nat.mod_lt _ (by decide)
  have hmod' : i % 8 < 8 := Nat.mod_lt _ (by decide)
  by_cases hdiv : j / 8 = i / 8
  · simp only [get, set, hdiv, Function.update_self, BitVec.getLsbD_or, BitVec.getLsbD_twoPow,
      eq_iff_div_mod i j, hmod', decide_true, Bool.true_and, true_and]
    rw [Bool.or_comm]
  · have hij : ¬ i = j := fun h => hdiv (by rw [h])
    simp [get, set, Function.update_of_ne hdiv, hij]

theorem get_clear (i j : ℕ) : (bm.clear i).get j = (!decide (i = j) && bm.get j) := by
  have hmod : j % 8 < 8 := Nat.mod_lt _ (by decide)
  have hmod' : i % 8 < 8 := Nat.mod_lt _ (by decide)
  by_cases hdiv : j / 8 = i / 8
  · simp only [get, clear, hdiv, Function.update_self, BitVec.getLsbD_and, BitVec.getLsbD_not,
      BitVec.getLsbD_twoPow, eq_iff_div_mod i j, hmod, hmod', decide_true, Bool.true_and, true_and]
    rw [Bool.and_comm]
  · have hij : ¬ i = j := fun h => hdiv (by rw [h])
    simp [get, clear, Function.update_of_ne hdiv, hij]

theorem mem_clearBits : i ∈ bm.clearBits n ↔ i < n ∧ bm.get i = false := by
  simp [clearBits]

theorem clearBits_set (i n : ℕ) : (bm.set i).clearBits n = (bm.clearBits n).erase i := by
  ext j
  simp only [mem_clearBits, get_set, Finset.mem_erase, Bool.or_eq_false_iff,
    decide_eq_false_iff_not]
  tauto

theorem clearBits_clear (hi : i < n) : (bm.clear i).clearBits n = insert i (bm.clearBits n) := by
  ext j
  simp only [mem_clearBits, get_clear, Finset.mem_insert, Bool.and_eq_false_iff,
    Bool.not_eq_false', decide_eq_true_eq]
  constructor
  · rintro ⟨hj, rfl | h⟩
    · exact .inl rfl
    · exact .inr ⟨hj, h⟩
  · rintro (rfl | ⟨hj, h⟩)
    · exact ⟨hi, .inl rfl⟩
    · exact ⟨hj, .inr h⟩

/-! ### Searching -/

theorem leastClear_eq_some :
    bm.leastClear n = some i ↔ IsLeast {j | j < n ∧ bm.get j = false} i := by
  rw [leastClear, List.find?_range_eq_some]
  simp only [Bool.not_eq_true', List.mem_range, Bool.not_not, IsLeast, lowerBounds,
    Set.mem_ofPred_eq]
  constructor
  · rintro ⟨hi, hn, hbelow⟩
    refine ⟨⟨hn, hi⟩, fun j hj => ?_⟩
    by_contra hlt
    rw [hbelow j (by omega)] at hj
    exact absurd hj.2 (by decide)
  · rintro ⟨⟨hn, hi⟩, hleast⟩
    refine ⟨hi, hn, fun j hj => ?_⟩
    by_contra hclear
    have := hleast ⟨hj.trans hn, by simpa using hclear⟩
    omega

theorem leastClear_eq_none : bm.leastClear n = none ↔ ∀ i < n, bm.get i = true := by
  rw [leastClear, List.find?_range_eq_none]
  simp only [Bool.not_not]

/-- Searching block by block is searching from the start. -/
theorem findSome?_blocks (n k : ℕ) (p : ℕ → Bool) :
    ((List.range n).findSome? fun b =>
      ((List.range k).find? fun i => p (b * k + i)).map (b * k + ·)) =
      (List.range (n * k)).find? p := by
  induction n with
  | zero =>
    rw [Nat.zero_mul]
    rfl
  | succ n ih =>
    rw [List.range_succ, List.findSome?_append, ih, Nat.succ_mul, List.range_add, List.find?_append,
      List.find?_map, List.findSome?_singleton]
    rfl

end Bitmap

end Shiro
