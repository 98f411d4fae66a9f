import Shiro.Lib.Memory

/-!
# Descriptor tables of IA-32

The segment descriptors of the global table and the gates of the interrupt table are eight bytes
each, in memory.  The processor finds them through a selector or a vector and a table register, and
refuses those that lie outside of the table, are not present or are of the wrong kind.  There is no
local table; task gates and 16-bit gates are left out.

* `Segment`, `Gate` : the descriptors, as the processor reads them.
* `segmentAt`, `gateAt` : the descriptor at an address.
* `Segment.access` : **the linear address** of an access through a segment.
* `interrupt` : **where a vector leads.**
-/

namespace Shiro

namespace Ia32

/-- A table register. -/
structure TableReg where
  base : ℕ
  limit : ℕ
  deriving DecidableEq

/-- The faults of segmentation, with the selector or the vector they name. -/
inductive Fault where
  | generalProtection (code : ℕ)
  | notPresent (code : ℕ)
  /-- A kind of gate that is left out here. -/
  | unmodelled
  deriving DecidableEq

/-- What an instruction does with memory. -/
inductive Access where
  | read
  | write
  | fetch
  deriving DecidableEq

/-- A segment: its first byte, its last offset, and its rights. -/
structure Segment where
  base : ℕ
  limit : ℕ
  present : Bool
  dpl : ℕ
  /-- S: code or data, not a system segment. -/
  user : Bool
  code : Bool
  /-- Of a code segment: conforming; of a data segment: expand-down. -/
  special : Bool
  /-- Of a code segment: readable; of a data segment: writable. -/
  more : Bool
  /-- D/B. -/
  big : Bool
  deriving DecidableEq

/-- What the fields of a descriptor say: the base, the 20 bits of the limit, the byte of the rights,
and the four flags AVL, L, D/B and G. -/
def descriptor (base limit access flags : ℕ) : Segment where
  base := base
  -- G: the limit counts pages
  limit := if flags.testBit 3 then limit * 2 ^ 12 + (2 ^ 12 - 1) else limit
  present := access.testBit 7
  dpl := access / 2 ^ 5 % 4
  user := access.testBit 4
  code := access.testBit 3
  special := access.testBit 2
  more := access.testBit 1
  big := flags.testBit 2

/-- The segment descriptor at an address. -/
def segmentAt (m : Mem) (a : ℕ) : Segment :=
  descriptor (m.read16 (a + 2) + 2 ^ 16 * m.read8 (a + 4) + 2 ^ 24 * m.read8 (a + 7))
    (m.read16 a + 2 ^ 16 * (m.read8 (a + 6) % 2 ^ 4)) (m.read8 (a + 5)) (m.read8 (a + 6) / 2 ^ 4)

/-- The segment that a selector names. -/
def lookup (m : Mem) (gdtr : TableReg) (selector : ℕ) : Except Fault Segment :=
  if selector / 4 = 0 then .error (.generalProtection 0)
  -- bit 2 asks for the local table
  else if selector.testBit 2 then .error (.generalProtection (selector / 4 * 4))
  else if gdtr.limit < selector / 8 * 8 + 7 then .error (.generalProtection (selector / 4 * 4))
  else .ok (segmentAt m (gdtr.base + selector / 8 * 8))

namespace Segment

/-- The segment allows the access. -/
def Allows (s : Segment) : Access → Prop
  | .read => s.code = false ∨ s.more = true
  | .write => s.code = false ∧ s.more = true
  | .fetch => s.code = true

instance (s : Segment) (x : Access) : Decidable (s.Allows x) := by
  cases x <;> unfold Allows <;> infer_instance

/-- The `n` bytes from `offset` on lie within the limit. -/
def Within (s : Segment) (offset n : ℕ) : Prop :=
  if s.code = false ∧ s.special = true then
    s.limit < offset ∧ offset + n ≤ if s.big then 2 ^ 32 else 2 ^ 16
  else offset + n ≤ s.limit + 1

instance (s : Segment) (offset n : ℕ) : Decidable (s.Within offset n) := by
  unfold Within
  infer_instance

/-- **The linear address** of an access to `n` bytes through the segment. -/
def access (s : Segment) (x : Access) (offset n : ℕ) : Except Fault ℕ :=
  if !s.present then .error (.notPresent 0)
  else if s.user ∧ s.Allows x ∧ s.Within offset n then .ok (u32 (s.base + offset))
  else .error (.generalProtection 0)

/-- A segment that covers all addresses one to one. -/
structure Flat (s : Segment) : Prop where
  base : s.base = 0
  limit : s.limit = 2 ^ 32 - 1
  present : s.present = true
  user : s.user = true
  special : s.special = false

/-- **An access through a flat segment** goes to its own offset, if the segment allows it. -/
theorem Flat.access {s : Segment} (h : s.Flat) {offset n : ℕ} (hn : 0 < n)
    (hfit : offset + n ≤ 2 ^ 32) (x : Access) :
    s.access x offset n =
      if s.Allows x then .ok offset else .error (.generalProtection 0) := by
  have hwithin : s.Within offset n := by
    rw [Within, if_neg (by simp [h.special]), h.limit]
    exact hfit
  have hbase : u32 (s.base + offset) = offset := by
    rw [h.base, Nat.zero_add, u32_of_lt (by omega)]
  unfold Segment.access
  rw [h.present, h.user, hbase]
  by_cases hx : s.Allows x
  · simp [hx, hwithin]
  · simp [hx]

end Segment

/-- A gate of the interrupt table. -/
structure Gate where
  offset : ℕ
  selector : ℕ
  present : Bool
  dpl : ℕ
  /-- The five bits for the kind of the gate. -/
  kind : ℕ
  deriving DecidableEq

/-- The gate at an address. -/
def gateAt (m : Mem) (a : ℕ) : Gate :=
  let flags := m.read8 (a + 5)
  { offset := m.read16 a + 2 ^ 16 * m.read16 (a + 6)
    selector := m.read16 (a + 2)
    present := flags.testBit 7
    dpl := flags / 2 ^ 5 % 4
    kind := flags % 2 ^ 5 }

/-- The kind of a 32-bit interrupt gate: interrupts are off behind it. -/
def interruptGate : ℕ := 0x0E

/-- The kind of a 32-bit trap gate. -/
def trapGate : ℕ := 0x0F

/-- The kinds of the task gate and of the 16-bit gates. -/
def otherGates : List ℕ := [0x05, 0x06, 0x07]

/-- Where an interrupt leads. -/
structure Target where
  /-- The new CS. -/
  selector : ℕ
  /-- The linear address of the handler. -/
  address : ℕ
  /-- IF is cleared. -/
  masks : Bool
  deriving DecidableEq

/-- **Where the vector `v` leads**, when the hardware raises it. -/
def interrupt (m : Mem) (gdtr idtr : TableReg) (v : ℕ) : Except Fault Target :=
  let g := gateAt m (idtr.base + 8 * v)
  -- the error code names the gate: the vector, in the interrupt table
  let code := 8 * v + 2
  if idtr.limit < 8 * v + 7 then .error (.generalProtection code)
  else if g.kind ∈ otherGates then .error .unmodelled
  else if g.kind ≠ interruptGate ∧ g.kind ≠ trapGate then .error (.generalProtection code)
  else if !g.present then .error (.notPresent code)
  else do
    let s ← lookup m gdtr g.selector
    if !(s.user && s.code) then .error (.generalProtection (g.selector / 4 * 4))
    else if !s.present then .error (.notPresent (g.selector / 4 * 4))
    else if ¬ s.Within g.offset 1 then .error (.generalProtection 0)
    else
      .ok ⟨g.selector, u32 (s.base + g.offset), decide (g.kind = interruptGate)⟩

variable {m m' : Mem} {a : ℕ}

/-- A descriptor depends on its eight bytes. -/
theorem segmentAt_congr (h : ∀ i < 8, m'.read8 (a + i) = m.read8 (a + i)) :
    segmentAt m' a = segmentAt m a := by
  have h0 := h 0 (by decide)
  rw [Nat.add_zero] at h0
  have hlow : m'.read16 a = m.read16 a := Mem.read16_congr h0 (h 1 (by decide))
  have hbase : m'.read16 (a + 2) = m.read16 (a + 2) :=
    Mem.read16_congr (h 2 (by decide)) (h 3 (by decide))
  simp only [segmentAt, hlow, hbase, h 4 (by decide), h 5 (by decide), h 6 (by decide),
    h 7 (by decide)]

theorem gateAt_congr (h : ∀ i < 8, m'.read8 (a + i) = m.read8 (a + i)) :
    gateAt m' a = gateAt m a := by
  have h0 := h 0 (by decide)
  rw [Nat.add_zero] at h0
  have hlow : m'.read16 a = m.read16 a := Mem.read16_congr h0 (h 1 (by decide))
  have hsel : m'.read16 (a + 2) = m.read16 (a + 2) :=
    Mem.read16_congr (h 2 (by decide)) (h 3 (by decide))
  have hhigh : m'.read16 (a + 6) = m.read16 (a + 6) :=
    Mem.read16_congr (h 6 (by decide)) (h 7 (by decide))
  simp only [gateAt, hlow, hsel, hhigh, h 5 (by decide)]

end Ia32

end Shiro
