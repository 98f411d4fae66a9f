import Shiro.Pmm.Basic

/-!
# Ranges of pages

`MarkRangeFree` and `MarkRangeUsed` round their range to whole pages in 64 bits, divide, cut the
page numbers to 32 bits, and only then compare them with the size of the bitmap.  A range behind
`2 ^ 44` comes out of the cut as one of low pages, and a range that ends at `2 ^ 44` or at the top of
the address space loses its end.

* `Inside`, `Meets` : a page and a range of bytes.
* `FreesExactly`, `UsesExactly` : what the two functions should do to the bitmap.
* `Narrows` : page numbers that can be cut.
* `markRange_exact_iff` : **exactly which ranges the two functions mark** as they should.
-/

namespace Shiro

namespace Pmm

/-! ### Pages and bytes -/

/-- The page `p` lies inside `[lo, hi)`. -/
def Inside (p lo hi : ℕ) : Prop := lo ≤ p * pageSize ∧ (p + 1) * pageSize ≤ hi

/-- The page `p` shares a byte with `[lo, hi)`. -/
def Meets (p lo hi : ℕ) : Prop := p * pageSize < hi ∧ lo < (p + 1) * pageSize

instance (p lo hi : ℕ) : Decidable (Inside p lo hi) := inferInstanceAs (Decidable (_ ∧ _))

instance (p lo hi : ℕ) : Decidable (Meets p lo hi) := inferInstanceAs (Decidable (_ ∧ _))

/-- `MarkRangeFree(addr, size)` clears the bits of the pages inside the range, and no others. -/
def FreesExactly (s : Pmm) (addr size : ℕ) : Prop :=
  ∀ p, isUsed (markRangeFree s addr size).bitmap p =
    if p < maxPages ∧ Inside p addr (addr + size) then false else isUsed s.bitmap p

/-- `MarkRangeUsed(addr, size)` sets the bits of the pages that meet the range, and no others. -/
def UsesExactly (s : Pmm) (addr size : ℕ) : Prop :=
  ∀ p, isUsed (markRangeUsed s addr size).bitmap p =
    if p < maxPages ∧ Meets p addr (addr + size) then true else isUsed s.bitmap p

/-- The same tracked pages lie between `first` and `last` as between what 32 bits keep of them. -/
def Narrows (first last : ℕ) : Prop :=
  last ≤ first ∨
    if first < maxPages then last < 2 ^ 32 ∨ maxPages ≤ last % 2 ^ 32
    else maxPages ≤ first % 2 ^ 32 ∨ last % 2 ^ 32 ≤ first % 2 ^ 32

/-- The ranges that `MarkRangeFree` marks as it should. -/
def FreeExact (addr size : ℕ) : Prop :=
  if addr + size = 2 ^ 64 then maxPages ≤ (addr + (pageSize - 1)) / pageSize
  else addr + (pageSize - 1) < 2 ^ 64 ∧
    Narrows ((addr + (pageSize - 1)) / pageSize) ((addr + size) / pageSize)

/-- The ranges that `MarkRangeUsed` marks as it should. -/
def UseExact (addr size : ℕ) : Prop :=
  if 2 ^ 64 ≤ addr + size + (pageSize - 1) then maxPages ≤ addr / pageSize
  else Narrows (addr / pageSize) ((addr + size + (pageSize - 1)) / pageSize)

instance (first last : ℕ) : Decidable (Narrows first last) := inferInstanceAs (Decidable (_ ∨ _))

instance (addr size : ℕ) : Decidable (FreeExact addr size) :=
  inferInstanceAs (Decidable (if addr + size = 2 ^ 64 then maxPages ≤ _ else _ ∧ Narrows _ _))

instance (addr size : ℕ) : Decidable (UseExact addr size) :=
  inferInstanceAs (Decidable (if 2 ^ 64 ≤ _ then maxPages ≤ addr / pageSize else Narrows _ _))

variable {s : Pmm} {addr size p q first last : ℕ}

/-! ### What the loops do to the bits -/

theorem isUsed_touchFree (s : Pmm) (p q : ℕ) :
    isUsed (touchFree s p).bitmap q = if q = p then false else isUsed s.bitmap q := by
  unfold touchFree
  by_cases hqp : q = p
  · subst hqp
    rw [if_pos rfl]
    split
    · rw [isUsed_eq, setFree_eq, Bitmap.get_clear]
      simp
    · rename_i hu
      simpa using hu
  · rw [if_neg hqp]
    split
    · rw [isUsed_eq, setFree_eq, Bitmap.get_clear, isUsed_eq]
      simp [Ne.symm hqp]
    · rfl

theorem isUsed_touchUsed (s : Pmm) (p q : ℕ) :
    isUsed (touchUsed s p).bitmap q = if q = p then true else isUsed s.bitmap q := by
  unfold touchUsed
  by_cases hqp : q = p
  · subst hqp
    rw [if_pos rfl]
    split
    · rw [isUsed_eq, setUsed_eq, Bitmap.get_set]
      simp
    · rename_i hu
      simpa using hu
  · rw [if_neg hqp]
    split
    · rw [isUsed_eq, setUsed_eq, Bitmap.get_set, isUsed_eq]
      simp [Ne.symm hqp]
    · rfl

/-- A loop that writes `v` to the bits of the pages it visits. -/
theorem isUsed_foldl {f : Pmm → ℕ → Pmm} {v : Bool}
    (hf : ∀ s p q, isUsed (f s p).bitmap q = if q = p then v else isUsed s.bitmap q)
    (ps : List ℕ) (s : Pmm) (q : ℕ) :
    isUsed (ps.foldl f s).bitmap q = if q ∈ ps then v else isUsed s.bitmap q := by
  induction ps generalizing s with
  | nil => simp
  | cons p ps ih =>
    rw [List.foldl_cons, ih, hf]
    by_cases hmem : q ∈ ps
    · rw [if_pos hmem, if_pos (List.mem_cons_of_mem _ hmem)]
    · rw [if_neg hmem]
      simp [hmem]

/-- `MarkRangeFree` clears the bits of the pages it visits. -/
theorem isUsed_markRangeFree (s : Pmm) (addr size p : ℕ) :
    isUsed (markRangeFree s addr size).bitmap p =
      if p ∈ inwardPages addr size then false else isUsed s.bitmap p :=
  isUsed_foldl isUsed_touchFree _ s p

/-- `MarkRangeUsed` sets the bits of the pages it visits. -/
theorem isUsed_markRangeUsed (s : Pmm) (addr size p : ℕ) :
    isUsed (markRangeUsed s addr size).bitmap p =
      if p ∈ outwardPages addr size then true else isUsed s.bitmap p :=
  isUsed_foldl isUsed_touchUsed _ s p

/-- Every page used. -/
def full : Pmm := { init with bitmap := fun _ => 0xFF }

theorem isUsed_full (p : ℕ) : isUsed full.bitmap p = true := by
  have hmod : p % 8 < 8 := Nat.mod_lt _ (by decide)
  have hones : full.bitmap (p / 8) = BitVec.allOnes 8 := rfl
  rw [isUsed_eq, Bitmap.get, hones, BitVec.getLsbD_allOnes]
  exact decide_eq_true hmod

theorem isUsed_init (p : ℕ) : isUsed init.bitmap p = false := by
  rw [isUsed_eq, Bitmap.get]
  exact BitVec.getLsbD_zero

/-- `MarkRangeFree` is exact when it visits the pages inside its range. -/
theorem freesExactly_iff : (∀ s, FreesExactly s addr size) ↔
    ∀ p, p ∈ inwardPages addr size ↔ p < maxPages ∧ Inside p addr (addr + size) := by
  constructor
  · intro h p
    have hp := h full p
    rw [isUsed_markRangeFree, isUsed_full] at hp
    by_cases hin : p ∈ inwardPages addr size <;>
      by_cases hspec : p < maxPages ∧ Inside p addr (addr + size) <;> simp_all
  · intro h s p
    rw [isUsed_markRangeFree]
    simp only [h p]

/-- `MarkRangeUsed` is exact when it visits the pages that meet its range. -/
theorem usesExactly_iff : (∀ s, UsesExactly s addr size) ↔
    ∀ p, p ∈ outwardPages addr size ↔ p < maxPages ∧ Meets p addr (addr + size) := by
  constructor
  · intro h p
    have hp := h init p
    rw [isUsed_markRangeUsed, isUsed_init] at hp
    by_cases hin : p ∈ outwardPages addr size <;>
      by_cases hspec : p < maxPages ∧ Meets p addr (addr + size) <;> simp_all
  · intro h s p
    rw [isUsed_markRangeUsed]
    simp only [h p]

/-! ### Rounding and cutting -/

theorem andNot_page {x : ℕ} (hx : x < 2 ^ 64) : andNot 64 x (pageSize - 1) = x / 4096 * 4096 :=
  andNot_two_pow (k := 12) hx (by decide)

theorem andNot_u64 (x : ℕ) : andNot 64 (u64 x) (pageSize - 1) = u64 x / 4096 * 4096 :=
  andNot_page (Nat.mod_lt _ (by decide))

theorem inwardPages_eq (addr size : ℕ) : inwardPages addr size =
    pagesBetween (u64 (addr + 4095) / 4096 * 4096) (u64 (addr + size) / 4096 * 4096) := by
  rw [inwardPages, andNot_u64, andNot_u64]
  rfl

theorem outwardPages_eq (ha : addr < 2 ^ 64) (size : ℕ) : outwardPages addr size =
    pagesBetween (addr / 4096 * 4096) (u64 (addr + size + 4095) / 4096 * 4096) := by
  rw [outwardPages, andNot_u64, andNot_page ha]
  rfl

/-- The pages between two page boundaries, after the cut. -/
theorem mem_pagesBetween_mul : p ∈ pagesBetween (first * 4096) (last * 4096) ↔
    first < last ∧ first % 2 ^ 32 ≤ p ∧ p < last % 2 ^ 32 ∧ p < maxPages := by
  have hpage : pageSize = 4096 := rfl
  rw [mem_pagesBetween, hpage, Nat.mul_div_cancel _ (by decide), Nat.mul_div_cancel _ (by decide),
    u32, u32]
  exact and_congr_left fun _ => by omega

/-- **When the cut does no harm.** -/
theorem narrows_iff : Narrows first last ↔
    ∀ p, (first < last ∧ first % 2 ^ 32 ≤ p ∧ p < last % 2 ^ 32 ∧ p < maxPages) ↔
      p < maxPages ∧ first ≤ p ∧ p < last := by
  have hmax := maxPages_eq
  unfold Narrows
  constructor
  · intro h p
    split at h <;> omega
  · intro h
    by_contra hn
    split at hn
    · -- the first tracked page that the cut loses
      have := h (max first (last % 2 ^ 32))
      omega
    · -- the first low page that the cut brings in
      have := h (first % 2 ^ 32)
      omega

/-- **Exactly which ranges `MarkRangeFree` visits** as it should. -/
theorem freeExact_iff (h : addr + size ≤ 2 ^ 64) (ha : addr < 2 ^ 64) : FreeExact addr size ↔
    ∀ p, p ∈ inwardPages addr size ↔ p < maxPages ∧ Inside p addr (addr + size) := by
  have hpage : pageSize = 4096 := rfl
  have hmax := maxPages_eq
  have hinside : ∀ p, Inside p addr (addr + size) ↔
      (addr + 4095) / 4096 ≤ p ∧ p < (addr + size) / 4096 := by
    intro p
    rw [Inside, hpage]
    omega
  simp only [hinside, inwardPages_eq, mem_pagesBetween_mul, FreeExact, hpage, Nat.reduceSub]
  split
  · -- the end of the range is cut to zero, and no page is visited
    rename_i htop
    have hzero : u64 (2 ^ 64) / 4096 = 0 := rfl
    simp only [htop, hzero, Nat.not_lt_zero, false_and, false_iff]
    constructor
    · intro hle p
      omega
    · intro hp
      have := hp ((addr + 4095) / 4096)
      omega
  · rename_i htop
    rw [u64_of_lt (n := addr + size) (by omega)]
    by_cases hwrap : addr + 4095 < 2 ^ 64
    · rw [u64_of_lt hwrap, and_iff_right hwrap, narrows_iff]
    · -- the start of the range is rounded up to zero, and every page is visited
      have hzero : u64 (addr + 4095) / 4096 = 0 := by unfold u64; omega
      refine iff_of_false (fun hf => hwrap hf.1) fun hp => ?_
      have h0 := hp 0
      rw [hzero] at h0
      omega

/-- **Exactly which ranges `MarkRangeUsed` visits** as it should. -/
theorem useExact_iff (h : addr + size ≤ 2 ^ 64) (ha : addr < 2 ^ 64) (hsize : 0 < size) :
    UseExact addr size ↔
      ∀ p, p ∈ outwardPages addr size ↔ p < maxPages ∧ Meets p addr (addr + size) := by
  have hpage : pageSize = 4096 := rfl
  have hmax := maxPages_eq
  have hmeets : ∀ p, Meets p addr (addr + size) ↔
      addr / 4096 ≤ p ∧ p < (addr + size + 4095) / 4096 := by
    intro p
    rw [Meets, hpage]
    omega
  simp only [hmeets, outwardPages_eq ha, mem_pagesBetween_mul, UseExact, hpage, Nat.reduceSub]
  split
  · -- the end of the range is rounded up to zero, and no page is visited
    rename_i htop
    have hzero : u64 (addr + size + 4095) / 4096 = 0 := by unfold u64; omega
    simp only [hzero, Nat.not_lt_zero, false_and, false_iff]
    constructor
    · intro hle p
      omega
    · intro hp
      have := hp (addr / 4096)
      omega
  · rw [u64_of_lt (by omega), narrows_iff]

/-! ### Exactly when -/

/-- **`MarkRangeFree` and `MarkRangeUsed` mark exactly the pages they should**, in every bitmap, for
the ranges whose page numbers survive the cut to 32 bits. -/
theorem markRange_exact_iff (addr size : UInt64) (h : addr.toNat + size.toNat ≤ 2 ^ 64) :
    ((∀ s, FreesExactly s addr.toNat size.toNat) ↔ FreeExact addr.toNat size.toNat) ∧
      (0 < size → ((∀ s, UsesExactly s addr.toNat size.toNat) ↔
        UseExact addr.toNat size.toNat)) := by
  refine ⟨?_, fun hsize => ?_⟩
  · rw [freesExactly_iff, freeExact_iff h addr.toNat_lt]
  · rw [usesExactly_iff, useExact_iff h addr.toNat_lt (UInt64.lt_iff_toNat_lt.1 hsize)]

/-- Three pages from 4 KiB on. -/
theorem markRange_exact_low :
    (∀ s, FreesExactly s 0x1000 0x3000) ∧ ∀ s, UsesExactly s 0x1000 0x3000 := by
  have h := markRange_exact_iff 0x1000 0x3000 (by decide)
  exact ⟨h.1.2 (by decide), (h.2 (by decide)).2 (by decide)⟩

/-- A range of one page at `2 ^ 44` frees page zero. -/
theorem not_markRange_exact_high :
    ¬ ∀ addr size : UInt64, addr.toNat + size.toNat ≤ 2 ^ 64 → ∀ s,
      FreesExactly s addr.toNat size.toNat ∧
        (0 < size → UsesExactly s addr.toNat size.toNat) := by
  intro hall
  have hfree : ∀ s, FreesExactly s (2 ^ 44) 0x1000 := fun s =>
    (hall 0x100000000000 0x1000 (by decide) s).1
  exact absurd ((freeExact_iff (by decide) (by decide)).2 (freesExactly_iff.1 hfree)) (by decide)

end Pmm

end Shiro
