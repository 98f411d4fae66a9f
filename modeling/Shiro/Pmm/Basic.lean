import Shiro.Lib.Bitmap
import Shiro.Multiboot.Tags

/-!
# The physical memory manager

`PMM::Start`, `PMM::AllocPage` and `PMM::FreePage` as they run, over the bitmap with one bit for
each 4 KiB page.  A loop over the pages of a range is a fold over `inwardPages` or `outwardPages`,
whose body is `touchFree` or `touchUsed`.  The messages written to the serial log are left out.

## Main definitions

* `Pmm` : the static variables of the class.
* `Pmm.markRangeFree`, `Pmm.markRangeUsed`, `Pmm.start`, `Pmm.allocPage`, `Pmm.freePage`.
* `Pmm.freeSet` : the pages whose bit is clear.
-/

namespace Shiro

open Multiboot

/-- The static variables of `System::PMM`. -/
structure Pmm where
  bitmap : Bitmap
  totalPages : ℕ
  freePages : ℕ
  usedPages : ℕ
  reservedPages : ℕ
  ready : Bool

namespace Pmm

/-- `PAGE_SIZE`. -/
def pageSize : ℕ := 4096

/-- `MAX_PAGES`. -/
def maxPages : ℕ := 1 <<< 20

/-- `BITMAP_BYTES`. -/
def bitmapBytes : ℕ := maxPages / 8

/-- The static variables before `PMM::Start`. -/
def init : Pmm := ⟨fun _ => 0, 0, 0, 0, 0, false⟩

/-! ### Bits -/

/-- `PMM::SetUsed(page)`. -/
def setUsed (bm : Bitmap) (page : ℕ) : Bitmap :=
  Function.update bm (page >>> 3) (bm (page >>> 3) ||| BitVec.ofNat 8 (1 <<< (page &&& 7)))

/-- `PMM::SetFree(page)`. -/
def setFree (bm : Bitmap) (page : ℕ) : Bitmap :=
  Function.update bm (page >>> 3) (bm (page >>> 3) &&& ~~~BitVec.ofNat 8 (1 <<< (page &&& 7)))

/-- `PMM::IsUsed(page)`. -/
def isUsed (bm : Bitmap) (page : ℕ) : Bool :=
  (bm (page >>> 3)).toNat >>> (page &&& 7) &&& 1 != 0

/-! ### Ranges -/

/-- The pages of the loops in `MarkRangeFree` and `MarkRangeUsed`, from the page boundary `start` to
the page boundary `stop`. -/
def pagesBetween (start stop : ℕ) : List ℕ :=
  if stop ≤ start then []
  else
    let first := u32 (start / pageSize)
    let last := u32 (stop / pageSize)
    let last := if last > maxPages then maxPages else last
    List.range' first (last - first)

/-- The pages `MarkRangeFree(addr, size)` visits: the range is rounded inwards. -/
def inwardPages (addr size : ℕ) : List ℕ :=
  pagesBetween (andNot 64 (u64 (addr + pageSize - 1)) (pageSize - 1))
    (andNot 64 (u64 (addr + size)) (pageSize - 1))

/-- The pages `MarkRangeUsed(addr, size)` visits: the range is rounded outwards. -/
def outwardPages (addr size : ℕ) : List ℕ :=
  pagesBetween (andNot 64 addr (pageSize - 1))
    (andNot 64 (u64 (addr + size + pageSize - 1)) (pageSize - 1))

/-- The loop body of `MarkRangeFree`. -/
def touchFree (s : Pmm) (p : ℕ) : Pmm :=
  if isUsed s.bitmap p then
    { s with
      bitmap := setFree s.bitmap p
      freePages := u32 (s.freePages + 1)
      reservedPages :=
        if s.reservedPages > 0 then sub32 s.reservedPages 1 else s.reservedPages }
  else s

/-- The loop body of `MarkRangeUsed`. -/
def touchUsed (s : Pmm) (p : ℕ) : Pmm :=
  if !isUsed s.bitmap p then
    { s with
      bitmap := setUsed s.bitmap p
      freePages := if s.freePages > 0 then sub32 s.freePages 1 else s.freePages
      usedPages := u32 (s.usedPages + 1) }
  else s

/-- `PMM::MarkRangeFree(addr, size)`. -/
def markRangeFree (s : Pmm) (addr size : ℕ) : Pmm := (inwardPages addr size).foldl touchFree s

/-- `PMM::MarkRangeUsed(addr, size)`. -/
def markRangeUsed (s : Pmm) (addr size : ℕ) : Pmm := (outwardPages addr size).foldl touchUsed s

/-! ### `PMM::Start` -/

/-- Step 1: reserve everything. -/
def reserveAll (s : Pmm) : Pmm :=
  { s with
    bitmap := fun i => if i < bitmapBytes then 0xFF else s.bitmap i
    totalPages := maxPages
    usedPages := 0
    freePages := 0
    reservedPages := maxPages }

/-- The body of the loop over the entries of a memory map. -/
def freeEntry (m : Mem) (s : Pmm) (entry : ℕ) : Pmm :=
  if m.read32 (entry + 16) = memoryAvailable then
    markRangeFree s (m.read64 entry) (m.read64 (entry + 8))
  else s

/-- The body of the loop over the tags.  A memory map with `entry_size = 0` divides by zero. -/
def visitTag (m : Mem) (tag : ℕ) (s : Pmm) : Option (ForInStep Pmm) :=
  if m.read32 tag = tagMmap then
    let entrySize := m.read32 (tag + 8)
    let entriesSize := sub32 (m.read32 (tag + 4)) 16
    if entrySize = 0 then none
    else
      let count := entriesSize / entrySize
      some (.yield ((List.range count).foldl
        (fun s i => freeEntry m s (tag + 16 + i * entrySize)) s))
  else some (.yield s)

/-- Steps 3 and 4: reserve the kernel and the heap, and the first MiB. -/
def reserveKernel (s : Pmm) (kernelStart kernelEndPlusHeap : ℕ) : Pmm :=
  markRangeUsed (markRangeUsed s kernelStart (sub32 kernelEndPlusHeap kernelStart)) 0 0x100000

/-- `PMM::Start(mbi, kernel_start, kernel_end_plus_heap)`. -/
def start (m : Mem) (mbi kernelStart kernelEndPlusHeap : ℕ) (s : Pmm) : Option Pmm :=
  let s := reserveAll s
  if mbi = 0 then some s
  else
    (walkTags m (visitTag m) walkFuel (mbi + 8) s).map fun s =>
      { reserveKernel s kernelStart kernelEndPlusHeap with ready := true }

/-! ### Pages -/

/-- The inner loop of `AllocPage`: the first clear bit of a byte. -/
def scanByte (byte : BitVec 8) : Option ℕ :=
  (List.range 8).find? fun bit => byte.toNat &&& 1 <<< bit = 0

/-- The loops of `AllocPage`: whole bytes that are fully allocated are skipped. -/
def scan (bm : Bitmap) : Option ℕ :=
  (List.range bitmapBytes).findSome? fun byteI =>
    if bm byteI = 0xFF then none else (scanByte (bm byteI)).map (byteI * 8 + ·)

/-- `PMM::AllocPage()`: the state afterwards and the address returned. -/
def allocPage (s : Pmm) : Pmm × ℕ :=
  if !s.ready then (s, 0)
  else
    match scan s.bitmap with
    | none => (s, 0)
    | some page =>
      ({ s with
          bitmap := setUsed s.bitmap page
          freePages := sub32 s.freePages 1
          usedPages := u32 (s.usedPages + 1) },
        u32 (page * pageSize))

/-- `PMM::FreePage(physical_addr)`. -/
def freePage (s : Pmm) (physicalAddr : ℕ) : Pmm :=
  if !s.ready then s
  else
    let page := physicalAddr / pageSize
    if page ≥ maxPages then s
    else if !isUsed s.bitmap page then s
    else
      { s with
        bitmap := setFree s.bitmap page
        freePages := u32 (s.freePages + 1)
        usedPages := sub32 s.usedPages 1 }

/-! ### The bitmap -/

theorem and_seven (n : ℕ) : n &&& 7 = n % 8 := Nat.and_two_pow_sub_one_eq_mod n 3

theorem shiftRight_three (n : ℕ) : n >>> 3 = n / 8 := Nat.shiftRight_eq_div_pow n 3

theorem setUsed_eq (bm : Bitmap) (p : ℕ) : setUsed bm p = bm.set p := by
  rw [setUsed, and_seven, shiftRight_three, ofNat_shiftLeft]
  rfl

theorem setFree_eq (bm : Bitmap) (p : ℕ) : setFree bm p = bm.clear p := by
  rw [setFree, and_seven, shiftRight_three, ofNat_shiftLeft]
  rfl

theorem isUsed_eq (bm : Bitmap) (p : ℕ) : isUsed bm p = bm.get p := by
  rw [isUsed, and_seven, shiftRight_three, Nat.and_comm]
  rfl

/-- The pages whose bit is clear. -/
def freeSet (s : Pmm) : Finset ℕ := s.bitmap.clearBits maxPages

theorem mem_freeSet {s : Pmm} {p : ℕ} : p ∈ s.freeSet ↔ p < maxPages ∧ isUsed s.bitmap p = false := by
  rw [freeSet, Bitmap.mem_clearBits, isUsed_eq]

theorem maxPages_eq : maxPages = 1048576 := rfl

theorem card_freeSet_le (s : Pmm) : s.freeSet.card ≤ maxPages := by
  have := Finset.card_filter_le (Finset.range maxPages) fun i => s.bitmap.get i = false
  rwa [Finset.card_range] at this

/-! ### The loop bodies -/

theorem freeSet_touchFree (s : Pmm) {p : ℕ} (hp : p < maxPages) :
    (touchFree s p).freeSet = insert p s.freeSet := by
  unfold touchFree
  split
  · simp only [freeSet, setFree_eq, Bitmap.clearBits_clear _ hp]
  · rename_i hu
    rw [Finset.insert_eq_of_mem (mem_freeSet.2 ⟨hp, by simpa using hu⟩)]

theorem freeSet_touchUsed (s : Pmm) (p : ℕ) : (touchUsed s p).freeSet = s.freeSet.erase p := by
  unfold touchUsed
  split
  · simp only [freeSet, setUsed_eq, Bitmap.clearBits_set]
  · rename_i hu
    rw [Finset.erase_eq_of_notMem fun hmem => hu (by simp [(mem_freeSet.1 hmem).2])]

theorem freeSet_foldl_touchFree {ps : List ℕ} (s : Pmm) (hps : ∀ p ∈ ps, p < maxPages) :
    (ps.foldl touchFree s).freeSet = s.freeSet ∪ ps.toFinset := by
  induction ps generalizing s with
  | nil => simp
  | cons p ps ih =>
    rw [List.foldl_cons, ih _ fun q hq => hps q (List.mem_cons_of_mem _ hq),
      freeSet_touchFree s (hps p List.mem_cons_self), List.toFinset_cons, Finset.insert_union,
      Finset.union_insert]

theorem freeSet_foldl_touchUsed (ps : List ℕ) (s : Pmm) :
    (ps.foldl touchUsed s).freeSet = s.freeSet \ ps.toFinset := by
  induction ps generalizing s with
  | nil => simp
  | cons p ps ih =>
    rw [List.foldl_cons, ih, freeSet_touchUsed, List.toFinset_cons, Finset.sdiff_insert]
    rw [Finset.erase_sdiff_comm]

theorem mem_pagesBetween {start stop p : ℕ} : p ∈ pagesBetween start stop ↔
    start < stop ∧ u32 (start / pageSize) ≤ p ∧ p < u32 (stop / pageSize) ∧ p < maxPages := by
  unfold pagesBetween
  split
  · simp only [List.not_mem_nil, false_iff]
    omega
  · simp only [List.mem_range'_1]
    split <;> omega

/-- A range never reaches past the bitmap. -/
theorem lt_of_mem_inwardPages {addr size p : ℕ} (hp : p ∈ inwardPages addr size) : p < maxPages :=
  (mem_pagesBetween.1 hp).2.2.2

/-! ### The scan -/

theorem and_one_shiftLeft_eq_zero (n i : ℕ) : n &&& 1 <<< i = 0 ↔ n.testBit i = false := by
  rw [Nat.one_shiftLeft, Nat.and_two_pow]
  cases n.testBit i <;> simp

theorem scanByte_eq_some {byte : BitVec 8} {bit : ℕ} (h : scanByte byte = some bit) :
    bit < 8 ∧ byte.getLsbD bit = false := by
  have hmem := List.mem_range.1 (List.mem_of_find?_eq_some h)
  have hp := List.find?_some h
  rw [decide_eq_true_eq, and_one_shiftLeft_eq_zero] at hp
  exact ⟨hmem, hp⟩

/-- **The scan returns a free page.** -/
theorem mem_freeSet_of_scan {s : Pmm} {p : ℕ} (h : scan s.bitmap = some p) : p ∈ s.freeSet := by
  obtain ⟨byteI, hmem, hb⟩ := List.exists_of_findSome?_eq_some h
  have hlt := List.mem_range.1 hmem
  split at hb
  · cases hb
  · obtain ⟨bit, hbit, rfl⟩ := Option.map_eq_some_iff.1 hb
    obtain ⟨h8, hclear⟩ := scanByte_eq_some hbit
    have hbytes : bitmapBytes = 131072 := rfl
    refine mem_freeSet.2 ⟨by rw [maxPages_eq]; omega, ?_⟩
    rw [isUsed_eq, Bitmap.get, show (byteI * 8 + bit) / 8 = byteI by omega,
      show (byteI * 8 + bit) % 8 = bit by omega]
    exact hclear

end Pmm

end Shiro
