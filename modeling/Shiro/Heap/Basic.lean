import Shiro.Lib.FreeList
import Shiro.Lib.Memory

/-!
# The kernel heap

`Heap::Start`, `Heap::Alloc` and `Heap::Free` as they run: block headers are sixteen bytes of
memory (`magic`, `size`, `used`, `next`), pointers are 32-bit addresses, and the class's static
variables are the fields of `Heap`.  The messages written to the serial log are left out.

A loop along the `next` pointers is a recursion with `walkFuel` as its budget, and `none` means
that the budget was not enough.  A walk that ends visits each non-zero address at most once, so
`none` stands for the walks that never end.

## Main definitions

* `Heap.start`, `Heap.alloc`, `Heap.free` : the three operations.
* `Heap.blocks` : the blocks reached from `first` through `next`.
-/

namespace Shiro

open FreeList (Block)

/-- The static variables of `System::Heap`, and the memory its headers live in. -/
structure Heap where
  mem : Mem
  first : ℕ
  base : ℕ
  /-- The variable `end`. -/
  heapEnd : ℕ
  bytesUsed : ℕ
  bytesFree : ℕ
  allocCount : ℕ
  freeCount : ℕ
  ready : Bool

namespace Heap

/-- `HEAP_MAGIC`. -/
def heapMagic : ℕ := 0x5481B07E

/-- `HEAP_SIZE`. -/
def heapSize : ℕ := 0x00400000

/-- `sizeof(block_header_t)`. -/
def headerSize : ℕ := 16

/-! ### The fields of a block header -/

/-- `b->magic`. -/
def magic (m : Mem) (b : ℕ) : ℕ := m.read32 b

/-- `b->size`. -/
def size (m : Mem) (b : ℕ) : ℕ := m.read32 (b + 4)

/-- `b->used`. -/
def used (m : Mem) (b : ℕ) : ℕ := m.read32 (b + 8)

/-- `b->next`. -/
def next (m : Mem) (b : ℕ) : ℕ := m.read32 (b + 12)

/-- The steps after which a walk along `next` has either ended or entered a cycle. -/
def walkFuel : ℕ := 2 ^ 32

/-- The blocks reached from `b` through `next`. -/
def walk (m : Mem) : ℕ → ℕ → Option (List Block)
  | 0, _ => none
  | fuel + 1, b =>
    if b = 0 then some []
    else (walk m fuel (next m b)).map (⟨b, size m b, used m b != 0⟩ :: ·)

theorem walk_zero (m : Mem) : walk m walkFuel 0 = some [] := rfl

/-- The blocks of a heap. -/
def blocks (h : Heap) : Option (List Block) := walk h.mem walkFuel h.first

/-! ### `Heap::Start` -/

/-- Where the heap goes: past the hint or the kernel, on the next page boundary. -/
def startBase (kernelEnd baseHint : ℕ) : ℕ :=
  let base := if baseHint > kernelEnd then baseHint else kernelEnd
  if base &&& 0xFFF ≠ 0 then andNot 32 (u32 (base + 0xFFF)) 0xFFF else base

/-- `Heap::Start(base_hint)` with `_kernel_end` at `kernelEnd`. -/
def start (m : Mem) (kernelEnd baseHint : ℕ) : Heap :=
  let base := startBase kernelEnd baseHint
  let m := m.write32 base heapMagic
  let m := m.write32 (base + 4) (heapSize - headerSize)
  let m := m.write32 (base + 8) 0
  let m := m.write32 (base + 12) 0
  { mem := m
    first := base
    base := base
    heapEnd := u32 (base + heapSize)
    bytesUsed := 0
    bytesFree := size m base
    allocCount := 0
    freeCount := 0
    ready := true }

/-! ### `Heap::Alloc` -/

/-- `Heap::Round(n)`. -/
def round (n : ℕ) : ℕ :=
  let n := if n < 8 then 8 else n
  andNot 32 (u32 (n + 7)) 7

/-- The search loop of `Alloc`: the first block that is free and large enough, `0` if the list
has none. -/
def firstFit (m : Mem) (n : ℕ) : ℕ → ℕ → Option ℕ
  | 0, _ => none
  | fuel + 1, b =>
    if b = 0 then some 0
    else if used m b ≠ 0 ∨ size m b < n then firstFit m n fuel (next m b)
    else some b

theorem firstFit_zero (m : Mem) (n : ℕ) : firstFit m n walkFuel 0 = some 0 := rfl

/-- Cut the block `b` down to `n` bytes and link a free block into the rest. -/
def split (h : Heap) (b n leftover : ℕ) : Heap :=
  let tail := u32 (b + headerSize + n)
  let m := h.mem.write32 tail heapMagic
  let m := m.write32 (tail + 4) (sub32 leftover headerSize)
  let m := m.write32 (tail + 8) 0
  let m := m.write32 (tail + 12) (next m b)
  let m := m.write32 (b + 4) n
  let m := m.write32 (b + 12) tail
  { h with mem := m, bytesFree := sub32 h.bytesFree headerSize }

/-- Mark the block `b` used. -/
def claim (h : Heap) (b : ℕ) : Heap :=
  let m := h.mem.write32 (b + 8) 1
  { h with
    mem := m
    bytesUsed := u32 (h.bytesUsed + size m b)
    bytesFree := sub32 h.bytesFree (size m b)
    allocCount := u32 (h.allocCount + 1) }

/-- `Heap::Alloc(size)`: the heap afterwards and the pointer returned. -/
def alloc (h : Heap) (n : ℕ) : Option (Heap × ℕ) :=
  if !h.ready then some (h, 0)
  else
    let n := round n
    (firstFit h.mem n walkFuel h.first).map fun b =>
      if b = 0 then (h, 0)
      else
        let leftover := sub32 (size h.mem b) n
        let h := if leftover > headerSize + 16 then split h b n leftover else h
        (claim h b, u32 (b + headerSize))

/-! ### `Heap::Free` -/

/-- Mark the block `b` free. -/
def release (h : Heap) (b : ℕ) : Heap :=
  let m := h.mem.write32 (b + 8) 0
  { h with
    mem := m
    bytesUsed := sub32 h.bytesUsed (size m b)
    bytesFree := u32 (h.bytesFree + size m b)
    freeCount := u32 (h.freeCount + 1) }

/-- Let the block `b` take over the block `n` that its `next` names. -/
def merge (h : Heap) (b n : ℕ) : Heap :=
  let m := h.mem.write32 (b + 4) (u32 (size h.mem b + (headerSize + size h.mem n)))
  let m := m.write32 (b + 12) (next m n)
  { h with mem := m, bytesFree := u32 (h.bytesFree + headerSize) }

/-- Forward coalesce. -/
def coalesceForward (h : Heap) (b : ℕ) : Heap :=
  let n := next h.mem b
  if n ≠ 0 ∧ used h.mem n = 0 then merge h b n else h

/-- The search for the predecessor of `b`: `0` if `b` is the first block. -/
def findPrev (m : Mem) (b : ℕ) : ℕ → ℕ → ℕ → Option ℕ
  | 0, _, _ => none
  | fuel + 1, cur, prev =>
    if cur = 0 ∨ cur = b then some prev else findPrev m b fuel (next m cur) cur

/-- Backward coalesce. -/
def coalesceBackward (h : Heap) (b : ℕ) : Option Heap :=
  (findPrev h.mem b walkFuel h.first 0).map fun prev =>
    if prev ≠ 0 ∧ used h.mem prev = 0 then merge h prev b else h

/-- `Heap::Free(p)`. -/
def free (h : Heap) (p : ℕ) : Option Heap :=
  if !h.ready || p == 0 then some h
  else
    let b := sub32 p headerSize
    if magic h.mem b ≠ heapMagic then some h
    else if used h.mem b = 0 then some h
    else coalesceBackward (coalesceForward (release h b) b) b

/-! ### Rounding -/

theorem round_eq (n : ℕ) : round n = u32 (max n 8 + 7) / 8 * 8 := by
  have h : (7 : ℕ) = 2 ^ 3 - 1 := rfl
  have hmax : (if n < 8 then 8 else n) = max n 8 := by split <;> omega
  rw [round, hmax]
  conv_lhs => rw [h]
  exact andNot_two_pow (u32_lt _) (by decide)

theorem dvd_round (n : ℕ) : 8 ∣ round n := by
  rw [round_eq]; exact Dvd.intro_left _ rfl

/-- Rounding a request up does not wrap before the last seven values of `uint32_t`. -/
theorem le_round {n : ℕ} (h : n ≤ 0xFFFFFFF8) : n ≤ round n ∧ round n ≤ max n 8 + 7 := by
  rw [round_eq, u32_of_lt (by omega)]
  omega

/-- The last seven requests of `uint32_t` wrap to zero. -/
theorem round_eq_zero {n : ℕ} (h : 0xFFFFFFF8 < n) (hn : n < 2 ^ 32) : round n = 0 := by
  rw [round_eq]
  unfold u32
  omega

/-- The page boundary at or above the hint and the kernel, before the reduction to 32 bits. -/
def pageUp (kernelEnd baseHint : ℕ) : ℕ := (max baseHint kernelEnd + 0xFFF) / 0x1000 * 0x1000

theorem startBase_eq {kernelEnd baseHint : ℕ} (hk : kernelEnd < 2 ^ 32) (hb : baseHint < 2 ^ 32) :
    startBase kernelEnd baseHint = u32 (pageUp kernelEnd baseHint) := by
  have h12 : (0xFFF : ℕ) = 2 ^ 12 - 1 := rfl
  have hmax : (if baseHint > kernelEnd then baseHint else kernelEnd) = max baseHint kernelEnd := by
    split <;> omega
  have hand : max baseHint kernelEnd &&& 0xFFF = max baseHint kernelEnd % 0x1000 := by
    rw [h12, Nat.and_two_pow_sub_one_eq_mod]
  have hnot : andNot 32 (u32 (max baseHint kernelEnd + 0xFFF)) 0xFFF =
      u32 (max baseHint kernelEnd + 0xFFF) / 0x1000 * 0x1000 := by
    conv_lhs => rw [h12]
    exact andNot_two_pow (u32_lt _) (by decide)
  rw [startBase, hmax, hand, hnot, pageUp]
  unfold u32
  split <;> omega

end Heap

end Shiro
