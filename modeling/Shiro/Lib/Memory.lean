import Shiro.Lib.Word

/-!
# Byte-addressed memory with little-endian words

A memory assigns a byte to every address.  Accesses reduce the address modulo `2 ^ 32`, as
the address bus of a 32-bit machine does, so pointer arithmetic in the models can be written
without a reduction after every addition.

The two rules the rest of the development uses are `read32_write32` (a word reads back) and
`read32_write32_of_disjoint` (a write leaves the other words alone).
-/

namespace Shiro

/-- A memory: the byte at every address. -/
abbrev Mem := ℕ → UInt8

namespace Mem

/-- The byte at address `a`. -/
def read8 (m : Mem) (a : ℕ) : ℕ := (m (u32 a)).toNat

/-- The `uint32_t` at address `a`. -/
def read32 (m : Mem) (a : ℕ) : ℕ :=
  m.read8 a + 2 ^ 8 * m.read8 (a + 1) + 2 ^ 16 * m.read8 (a + 2) + 2 ^ 24 * m.read8 (a + 3)

/-- The `uint16_t` at address `a`. -/
def read16 (m : Mem) (a : ℕ) : ℕ := m.read8 a + 2 ^ 8 * m.read8 (a + 1)

/-- The `uint64_t` at address `a`. -/
def read64 (m : Mem) (a : ℕ) : ℕ := m.read32 a + 2 ^ 32 * m.read32 (a + 4)

/-- Store one byte. -/
def write8 (m : Mem) (a : ℕ) (v : UInt8) : Mem := fun x => if x = u32 a then v else m x

/-- Store a `uint16_t`, lowest byte first. -/
def write16 (m : Mem) (a v : ℕ) : Mem := fun x =>
  if x = u32 a then UInt8.ofNat v
  else if x = u32 (a + 1) then UInt8.ofNat (v / 2 ^ 8)
  else m x

/-- Store a `uint32_t`, lowest byte first. -/
def write32 (m : Mem) (a v : ℕ) : Mem := fun x =>
  if x = u32 a then UInt8.ofNat v
  else if x = u32 (a + 1) then UInt8.ofNat (v / 2 ^ 8)
  else if x = u32 (a + 2) then UInt8.ofNat (v / 2 ^ 16)
  else if x = u32 (a + 3) then UInt8.ofNat (v / 2 ^ 24)
  else m x

/-- The bytes `bs` stand in memory from address `a` on. -/
def BytesAt (m : Mem) (a : ℕ) (bs : List UInt8) : Prop :=
  ∀ i, (h : i < bs.length) → m (u32 (a + i)) = bs[i]

/-- The `n` bytes from address `a` on. -/
def readBytes (m : Mem) (a n : ℕ) : List UInt8 := (List.range n).map fun i => m (u32 (a + i))

/-- The four bytes of a word, lowest first. -/
def le32 (n : ℕ) : List UInt8 :=
  [UInt8.ofNat n, UInt8.ofNat (n / 2 ^ 8), UInt8.ofNat (n / 2 ^ 16), UInt8.ofNat (n / 2 ^ 24)]

variable {m m' : Mem} {a b v x : ℕ}

theorem read8_lt (m : Mem) (a : ℕ) : m.read8 a < 2 ^ 8 := (m (u32 a)).toNat_lt

theorem read32_lt (m : Mem) (a : ℕ) : m.read32 a < 2 ^ 32 := by
  have h0 := m.read8_lt a
  have h1 := m.read8_lt (a + 1)
  have h2 := m.read8_lt (a + 2)
  have h3 := m.read8_lt (a + 3)
  unfold read32; omega

/-- A word depends on its four bytes only. -/
theorem read32_congr (h : ∀ i < 4, m (u32 (a + i)) = m' (u32 (a + i))) :
    m.read32 a = m'.read32 a := by
  have h0 := h 0 (by decide)
  have h1 := h 1 (by decide)
  have h2 := h 2 (by decide)
  have h3 := h 3 (by decide)
  simp only [read32, read8, Nat.add_zero] at *
  rw [h0, h1, h2, h3]

/-- Addresses count modulo `2 ^ 32`. -/
theorem read32_u32 (m : Mem) (a : ℕ) : m.read32 (u32 a) = m.read32 a := by
  have hcong : ∀ k, u32 (u32 a + k) = u32 (a + k) := fun k => by unfold u32; omega
  have h0 := hcong 0
  rw [Nat.add_zero, Nat.add_zero] at h0
  simp only [read32, read8, hcong, h0]

/-- **A stored word reads back.** -/
theorem read32_write32 (m : Mem) (a : ℕ) (hv : v < 2 ^ 32) : (m.write32 a v).read32 a = v := by
  have h01 : u32 (a + 1) ≠ u32 a := by unfold u32; omega
  have h02 : u32 (a + 2) ≠ u32 a := by unfold u32; omega
  have h03 : u32 (a + 3) ≠ u32 a := by unfold u32; omega
  have h12 : u32 (a + 2) ≠ u32 (a + 1) := by unfold u32; omega
  have h13 : u32 (a + 3) ≠ u32 (a + 1) := by unfold u32; omega
  have h23 : u32 (a + 3) ≠ u32 (a + 2) := by unfold u32; omega
  simp only [read32, read8, write32, h01, h02, h03, h12, h13, h23, ↓reduceIte,
    UInt8.toNat_ofNat']
  omega

/-- A store changes the four bytes of its word only. -/
theorem write32_apply_of_disjoint (ha : a + 4 ≤ 2 ^ 32) (h : x < a ∨ a + 4 ≤ x) :
    m.write32 a v x = m x := by
  have h0 : x ≠ u32 a := by unfold u32; omega
  have h1 : x ≠ u32 (a + 1) := by unfold u32; omega
  have h2 : x ≠ u32 (a + 2) := by unfold u32; omega
  have h3 : x ≠ u32 (a + 3) := by unfold u32; omega
  simp only [write32, h0, h1, h2, h3, ↓reduceIte]

/-- **A store leaves the words beside it alone.** -/
theorem read32_write32_of_disjoint (ha : a + 4 ≤ 2 ^ 32) (hb : b + 4 ≤ 2 ^ 32)
    (h : a + 4 ≤ b ∨ b + 4 ≤ a) : (m.write32 a v).read32 b = m.read32 b := by
  refine read32_congr fun i hi => write32_apply_of_disjoint ha ?_
  rw [u32_of_lt (by omega)]; omega

/-! ### Bytes and half words -/

theorem read8_write8 (m : Mem) (a : ℕ) (v : UInt8) : (m.write8 a v).read8 a = v.toNat := by
  rw [read8, write8, if_pos rfl]

theorem read8_write8_of_ne {v : UInt8} (ha : a < 2 ^ 32) (hb : b < 2 ^ 32) (h : b ≠ a) :
    (m.write8 a v).read8 b = m.read8 b := by
  rw [read8, write8, u32_of_lt ha, u32_of_lt hb, if_neg h, read8, u32_of_lt hb]

/-- **A stored half word reads back.** -/
theorem read16_write16 (m : Mem) (a : ℕ) (hv : v < 2 ^ 16) : (m.write16 a v).read16 a = v := by
  have h01 : u32 (a + 1) ≠ u32 a := by unfold u32; omega
  simp only [read16, read8, write16, h01, ↓reduceIte, UInt8.toNat_ofNat']
  omega

theorem read8_write16_of_ne (ha : a + 2 ≤ 2 ^ 32) (hb : b < 2 ^ 32) (h : b < a ∨ a + 2 ≤ b) :
    (m.write16 a v).read8 b = m.read8 b := by
  have h0 : b ≠ a := by omega
  have h1 : b ≠ a + 1 := by omega
  rw [read8, write16, u32_of_lt hb, u32_of_lt (show a < 2 ^ 32 by omega),
    u32_of_lt (show a + 1 < 2 ^ 32 by omega), if_neg h0, if_neg h1, read8, u32_of_lt hb]

theorem read8_write16_low (m : Mem) (a v : ℕ) : (m.write16 a v).read8 a = v % 2 ^ 8 := by
  rw [read8, write16, if_pos rfl, UInt8.toNat_ofNat']

theorem read8_write16_high (ha : a + 1 < 2 ^ 32) (hb : b = a + 1) :
    (m.write16 a v).read8 b = v / 2 ^ 8 % 2 ^ 8 := by
  have hne : a + 1 ≠ a := by omega
  rw [hb, read8, write16, u32_of_lt ha, u32_of_lt (show a < 2 ^ 32 by omega), if_neg hne,
    if_pos rfl, UInt8.toNat_ofNat']

theorem read16_congr (h0 : m'.read8 a = m.read8 a) (h1 : m'.read8 (a + 1) = m.read8 (a + 1)) :
    m'.read16 a = m.read16 a := by
  rw [read16, read16, h0, h1]

/-! ### Byte strings in memory -/

theorem bytesAt_nil (m : Mem) (a : ℕ) : m.BytesAt a [] := fun _ h => absurd h (Nat.not_lt_zero _)

theorem bytesAt_cons {c : UInt8} {cs : List UInt8} :
    m.BytesAt a (c :: cs) ↔ m (u32 a) = c ∧ m.BytesAt (a + 1) cs := by
  constructor
  · refine fun h => ⟨h 0 (Nat.zero_lt_succ _), fun i hi => ?_⟩
    rw [Nat.add_assoc, Nat.add_comm 1 i]
    exact h (i + 1) (Nat.succ_lt_succ hi)
  · rintro ⟨h0, h⟩ i hi
    cases i with
    | zero => exact h0
    | succ i =>
      rw [← Nat.add_assoc, Nat.add_right_comm]
      exact h i (Nat.lt_of_succ_lt_succ hi)

theorem bytesAt_append {xs ys : List UInt8} :
    m.BytesAt a (xs ++ ys) ↔ m.BytesAt a xs ∧ m.BytesAt (a + xs.length) ys := by
  induction xs generalizing a with
  | nil => simp [bytesAt_nil]
  | cons x xs ih =>
    rw [List.cons_append, bytesAt_cons, bytesAt_cons, ih, and_assoc, List.length_cons,
      Nat.add_assoc, Nat.add_comm 1]

theorem readBytes_succ (m : Mem) (a n : ℕ) :
    m.readBytes a (n + 1) = m (u32 a) :: m.readBytes (a + 1) n := by
  rw [readBytes, List.range_succ_eq_map, List.map_cons, List.map_map, readBytes]
  refine congrArg (m (u32 a) :: ·) (List.map_congr_left fun i _ => ?_)
  rw [Function.comp_apply, Nat.succ_eq_add_one, Nat.add_assoc, Nat.add_comm 1]

@[simp] theorem length_readBytes (m : Mem) (a n : ℕ) : (m.readBytes a n).length = n := by
  rw [readBytes, List.length_map, List.length_range]

/-- The bytes that stand there are read. -/
theorem readBytes_of_bytesAt {xs : List UInt8} (h : m.BytesAt a xs) :
    m.readBytes a xs.length = xs := by
  refine List.ext_getElem (length_readBytes m a _) ?_
  intro i hi hi'
  simp only [readBytes, List.getElem_map, List.getElem_range]
  exact h i hi'

@[simp] theorem length_le32 (n : ℕ) : (le32 n).length = 4 := rfl

/-- **A stored little-endian word reads back.** -/
theorem read32_of_bytesAt {n : ℕ} (h : m.BytesAt a (le32 n)) (hn : n < 2 ^ 32) :
    m.read32 a = n := by
  simp only [le32, bytesAt_cons] at h
  obtain ⟨h0, h1, h2, h3, -⟩ := h
  simp only [read32, read8, h0, h1, h2, h3, UInt8.toNat_ofNat']
  omega

end Mem

/-! ### Memories that agree on a range -/

/-- Two memories agree on the bytes from `lo` up to `hi`. -/
def EqOn (m m' : Mem) (lo hi : ℕ) : Prop := ∀ x, lo ≤ x → x < hi → m' x = m x

variable {m m' m'' : Mem} {a lo hi lo' hi' v : ℕ}

theorem EqOn.refl (m : Mem) (lo hi : ℕ) : EqOn m m lo hi := fun _ _ _ => rfl

theorem EqOn.trans (h : EqOn m m' lo hi) (h' : EqOn m' m'' lo hi) : EqOn m m'' lo hi :=
  fun x h1 h2 => (h' x h1 h2).trans (h x h1 h2)

theorem EqOn.mono (h : EqOn m m' lo hi) (hlo : lo ≤ lo') (hhi : hi' ≤ hi) : EqOn m m' lo' hi' :=
  fun x h1 h2 => h x (hlo.trans h1) (h2.trans_le hhi)

theorem EqOn.read8 (h : EqOn m m' lo hi) (hlo : lo ≤ a) (hhi : a < hi) (hfit : hi ≤ 2 ^ 32) :
    m'.read8 a = m.read8 a := by
  rw [Mem.read8, Mem.read8, u32_of_lt (hhi.trans_le hfit), h a hlo hhi]

theorem EqOn.read32 (h : EqOn m m' lo hi) (hlo : lo ≤ a) (hhi : a + 4 ≤ hi) (hfit : hi ≤ 2 ^ 32) :
    m'.read32 a = m.read32 a := by
  refine Mem.read32_congr fun i hi' => ?_
  rw [u32_of_lt (by omega)]
  exact h _ (by omega) (by omega)

theorem EqOn.read64 (h : EqOn m m' lo hi) (hlo : lo ≤ a) (hhi : a + 8 ≤ hi) (hfit : hi ≤ 2 ^ 32) :
    m'.read64 a = m.read64 a := by
  rw [Mem.read64, Mem.read64, h.read32 hlo (by omega) hfit, h.read32 (by omega) (by omega) hfit]

/-- A store leaves the ranges beside its word alone. -/
theorem eqOn_write32 (ha : a + 4 ≤ 2 ^ 32) (h : hi ≤ a ∨ a + 4 ≤ lo) :
    EqOn m (m.write32 a v) lo hi :=
  fun _ _ _ => Mem.write32_apply_of_disjoint ha (by omega)

/-- Only bytes of `[lo, hi)` have changed. -/
def OnlyIn (m m' : Mem) (lo hi : ℕ) : Prop := ∀ x, x < lo ∨ hi ≤ x → m' x = m x

theorem OnlyIn.refl (m : Mem) (lo hi : ℕ) : OnlyIn m m lo hi := fun _ _ => rfl

theorem OnlyIn.mono (h : OnlyIn m m' lo hi) (hlo : lo' ≤ lo) (hhi : hi ≤ hi') :
    OnlyIn m m' lo' hi' :=
  fun x hx => h x (hx.imp (·.trans_le hlo) hhi.trans)

/-- A store inside of the range. -/
theorem OnlyIn.write32 (h : OnlyIn m m' lo hi) (hfit : hi ≤ 2 ^ 32) (hlo : lo ≤ a)
    (hhi : a + 4 ≤ hi) (v : ℕ) : OnlyIn m (m'.write32 a v) lo hi :=
  fun x hx => (Mem.write32_apply_of_disjoint (hhi.trans hfit) (by omega)).trans (h x hx)

/-- Stores of a byte and of a half word inside of the range. -/
theorem OnlyIn.write8 (h : OnlyIn m m' lo hi) (hfit : hi ≤ 2 ^ 32) (hlo : lo ≤ a) (hhi : a < hi)
    (v : UInt8) : OnlyIn m (m'.write8 a v) lo hi := fun x hx => by
  have hne : x ≠ a := by omega
  rw [Mem.write8, u32_of_lt (hhi.trans_le hfit), if_neg hne]
  exact h x hx

theorem OnlyIn.write16 (h : OnlyIn m m' lo hi) (hfit : hi ≤ 2 ^ 32) (hlo : lo ≤ a)
    (hhi : a + 2 ≤ hi) (v : ℕ) : OnlyIn m (m'.write16 a v) lo hi := fun x hx => by
  have hne : x ≠ a := by omega
  have hne1 : x ≠ a + 1 := by omega
  rw [Mem.write16, u32_of_lt (show a < 2 ^ 32 by omega), u32_of_lt (show a + 1 < 2 ^ 32 by omega),
    if_neg hne, if_neg hne1]
  exact h x hx

theorem OnlyIn.read8 {x : ℕ} (h : OnlyIn m m' lo hi) (hx : x < 2 ^ 32) (hout : x < lo ∨ hi ≤ x) :
    m'.read8 x = m.read8 x := by
  rw [Mem.read8, Mem.read8, u32_of_lt hx, h x hout]

theorem OnlyIn.trans (h : OnlyIn m m' lo hi) (h' : OnlyIn m' m'' lo hi) : OnlyIn m m'' lo hi :=
  fun x hx => (h' x hx).trans (h x hx)

theorem OnlyIn.eqOn (h : OnlyIn m m' lo hi) (hout : hi' ≤ lo ∨ hi ≤ lo') : EqOn m m' lo' hi' :=
  fun x h1 h2 => h x (by omega)

end Shiro
