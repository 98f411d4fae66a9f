import Mathlib.Data.List.Find
import Shiro.Pmm.Count

/-!
# The search for a free page

`AllocPage` searches the bitmap byte by byte and skips a byte that is `0xFF` without looking at its
bits.  The plain search looks at the bits of all the pages one after the other.

* `plainScan` : the plain search.
* `Takes` : one page is taken, and nothing else changes.
* `allocPage_plain` : **`AllocPage` takes the first free page of the plain search**, for every
  bitmap.
-/

namespace Shiro

namespace Pmm

/-- The search of the pages one after the other. -/
def plainScan (bm : Bitmap) : Option ℕ := (List.range maxPages).find? fun p => !isUsed bm p

/-- The first free page. -/
def IsFirstFree (s : Pmm) (p : ℕ) : Prop := IsLeast {q | q < maxPages ∧ isUsed s.bitmap q = false} p

/-- In the step from `s` to `s'` the page `p` is taken, and nothing else changes. -/
structure Takes (s : Pmm) (p : ℕ) (s' : Pmm) : Prop where
  bits : ∀ q, isUsed s'.bitmap q = (decide (p = q) || isUsed s.bitmap q)
  freePages : s'.freePages = sub32 s.freePages 1
  usedPages : s'.usedPages = u32 (s.usedPages + 1)
  totalPages : s'.totalPages = s.totalPages
  reservedPages : s'.reservedPages = s.reservedPages
  ready : s'.ready = s.ready

variable {bm : Bitmap} {s : Pmm} {p : ℕ}

theorem plainScan_eq (bm : Bitmap) : plainScan bm = bm.leastClear maxPages := by
  unfold plainScan Bitmap.leastClear
  simp only [isUsed_eq]

/-- The inner loop finds the first clear bit of its byte. -/
theorem scanByte_eq (byte : BitVec 8) :
    scanByte byte = (List.range 8).find? fun i => !byte.getLsbD i := by
  unfold scanByte
  congr 1
  funext i
  rw [Bool.eq_iff_iff, decide_eq_true_eq, and_one_shiftLeft_eq_zero, Bool.not_eq_true']
  rfl

/-- A byte that is `0xFF` is skipped rightly: its inner loop would find nothing. -/
theorem scanByte_full : scanByte 0xFF = none := by
  decide

/-- The bits of the byte `b` are those of the pages from `b * 8` on. -/
theorem scanByte_page (bm : Bitmap) (b : ℕ) :
    scanByte (bm b) = (List.range 8).find? fun i => !isUsed bm (b * 8 + i) := by
  rw [scanByte_eq]
  refine List.find?_congr fun i hi => ?_
  have h8 := List.mem_range.1 hi
  rw [isUsed_eq, Bitmap.get, show (b * 8 + i) / 8 = b by omega, show (b * 8 + i) % 8 = i by omega]

/-- **The scan by bytes is the plain scan.** -/
theorem scan_eq_plainScan (bm : Bitmap) : scan bm = plainScan bm := by
  rw [plainScan, show maxPages = bitmapBytes * 8 from rfl, ← Bitmap.findSome?_blocks, scan]
  congr 1
  funext b
  rw [← scanByte_page]
  split
  · rename_i hfull
    rw [hfull, scanByte_full]
    rfl
  · rfl

theorem plainScan_eq_some : plainScan s.bitmap = some p ↔ s.IsFirstFree p := by
  rw [plainScan_eq, Bitmap.leastClear_eq_some, IsFirstFree]
  simp only [isUsed_eq]

theorem plainScan_eq_none : plainScan bm = none ↔ ∀ p < maxPages, isUsed bm p = true := by
  rw [plainScan_eq, Bitmap.leastClear_eq_none]
  simp only [isUsed_eq]

/-- The address of a page fits in 32 bits. -/
theorem IsFirstFree.address_lt (hp : s.IsFirstFree p) : p * pageSize < 2 ^ 32 := by
  have hlt : p < maxPages := hp.1.1
  rw [maxPages_eq] at hlt
  unfold pageSize
  omega

/-- **`AllocPage` takes the first free page of the plain scan and returns its address; if there is
none it returns 0 and changes nothing.** -/
theorem allocPage_plain (s : Pmm) (hready : s.ready = true) :
    scan s.bitmap = plainScan s.bitmap ∧
    (∀ p, s.IsFirstFree p → p * pageSize < 2 ^ 32 ∧
      ∃ s', allocPage s = (s', p * pageSize) ∧ s.Takes p s') ∧
    ((∀ p < maxPages, isUsed s.bitmap p = true) → allocPage s = (s, 0)) := by
  have htaken : taken s = plainScan s.bitmap := (if_pos hready).trans (scan_eq_plainScan _)
  refine ⟨scan_eq_plainScan s.bitmap, fun p hp => ⟨hp.address_lt, ?_⟩, fun hall => ?_⟩ <;>
    rcases allocPage_cases s with ⟨hnone, halloc⟩ | ⟨q, -, hsome, halloc⟩
  · rw [htaken, plainScan_eq_some.2 hp] at hnone
    cases hnone
  · rw [htaken, plainScan_eq_some.2 hp] at hsome
    cases hsome
    exact ⟨_, halloc, isUsed_setUsed s.bitmap p, rfl, rfl, rfl, rfl, rfl⟩
  · exact halloc
  · rw [htaken, plainScan_eq_none.2 hall] at hsome
    cases hsome

/-- A bitmap with one clear bit, the very last. -/
def lastFree : Pmm :=
  { init with bitmap := fun i => if i = 131071 then 0x7F else 0xFF, freePages := 1, ready := true }

theorem isFirstFree_lastFree : lastFree.IsFirstFree 1048575 := by
  refine ⟨⟨by decide +kernel, by decide +kernel⟩, fun p hp => ?_⟩
  obtain ⟨hlt, hclear⟩ : p < maxPages ∧ isUsed lastFree.bitmap p = false := hp
  rw [isUsed_eq, Bitmap.get] at hclear
  by_contra hbelow
  have h8 : p % 8 < 8 := Nat.mod_lt _ (by decide)
  have hfull : ∀ i < 8, (0xFF : BitVec 8).getLsbD i = true := by decide
  have hlast : ∀ i < 7, (0x7F : BitVec 8).getLsbD i = true := by decide
  by_cases hbyte : p / 8 = 131071
  · rw [show lastFree.bitmap (p / 8) = 0x7F from if_pos hbyte, hlast _ (by omega)] at hclear
    cases hclear
  · rw [show lastFree.bitmap (p / 8) = 0xFF from if_neg hbyte, hfull _ h8] at hclear
    cases hclear

/-- The last page of the bitmap is found, at the top of the 4 GiB. -/
theorem allocPage_plain_lastFree :
    ∃ s', allocPage lastFree = (s', 0xFFFFF000) ∧ lastFree.Takes 1048575 s' :=
  ((allocPage_plain lastFree rfl).2.1 1048575 isFirstFree_lastFree).2

end Pmm

end Shiro
