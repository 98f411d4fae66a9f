import Shiro.Heap.Basic

/-!
# Heaps in memory

How a list of blocks lies in memory, and what the statements of `Alloc` and `Free` do to it.

`Seg m a bs z` says that following `next` from the pointer `a` visits exactly the blocks `bs` and
arrives at the pointer `z`.  `Holds base h bs` is the invariant of a heap whose blocks are `bs`:
the blocks tile the region, and the counters count them.  Each of `split`, `claim`, `release`,
`coalesceForward` and `coalesceBackward` has one rule that says how it changes `bs`.
-/

namespace Shiro

open FreeList

namespace Heap

/-! ### Headers -/

/-- The header of `b` stands in memory, whatever its `next`. -/
def Header (m : Mem) (b : Block) : Prop :=
  magic m b.addr = heapMagic ∧ size m b.addr = b.size ∧ used m b.addr = b.used.toNat

/-- Two memories agree on the header at `a`. -/
def Agree (m m' : Mem) (a : ℕ) : Prop :=
  magic m' a = magic m a ∧ size m' a = size m a ∧ used m' a = used m a ∧ next m' a = next m a

theorem Agree.of_eqOn {m m' : Mem} {a : ℕ} (h : EqOn m m' a (a + 16)) (ha : a + 16 ≤ 2 ^ 32) :
    Agree m m' a :=
  ⟨h.read32 le_rfl (by omega) ha, h.read32 (by omega) (by omega) ha,
    h.read32 (by omega) (by omega) ha, h.read32 (by omega) le_rfl ha⟩

theorem Header.of_agree {m m' : Mem} {b : Block} (h : Header m b) (ha : Agree m m' b.addr) :
    Header m' b :=
  ⟨ha.1.trans h.1, ha.2.1.trans h.2.1, ha.2.2.1.trans h.2.2⟩

/-- `Alloc` passes over a block that does not fit. -/
theorem Header.skip {m : Mem} {b : Block} {n : ℕ} (h : Header m b) (hb : ¬ Fits n b) :
    used m b.addr ≠ 0 ∨ size m b.addr < n := by
  rw [h.2.1, h.2.2]
  cases hu : b.used
  · exact .inr (Nat.lt_of_not_le fun hle => hb ⟨hu, hle⟩)
  · exact .inl (by decide)

/-! ### Segments of the list -/

/-- Following `next` from `a` visits the blocks `bs` and arrives at `z`. -/
def Seg (m : Mem) : ℕ → List Block → ℕ → Prop
  | a, [], z => a = z
  | a, b :: bs, z => a = b.addr ∧ a ≠ 0 ∧ Header m b ∧ Seg m (next m a) bs z

variable {m m' : Mem} {a z : ℕ}

@[simp] theorem seg_nil : Seg m a [] z ↔ a = z := Iff.rfl

@[simp] theorem seg_cons {b : Block} {bs : List Block} :
    Seg m a (b :: bs) z ↔ a = b.addr ∧ a ≠ 0 ∧ Header m b ∧ Seg m (next m a) bs z := Iff.rfl

theorem seg_append {xs ys : List Block} :
    Seg m a (xs ++ ys) z ↔ ∃ c, Seg m a xs c ∧ Seg m c ys z := by
  induction xs generalizing a with
  | nil => simp
  | cons x xs ih => simp only [List.cons_append, seg_cons, ih, and_assoc, exists_and_left]

/-- A segment depends on the headers of its blocks only. -/
theorem Seg.frame {bs : List Block} (h : Seg m a bs z) (hag : ∀ b ∈ bs, Agree m m' b.addr) :
    Seg m' a bs z := by
  induction bs generalizing a with
  | nil => exact h
  | cons b bs ih =>
    obtain ⟨rfl, h0, hh, h⟩ := h
    have hb := hag b List.mem_cons_self
    refine ⟨rfl, h0, hh.of_agree hb, ?_⟩
    rw [hb.2.2.2]
    exact ih h fun c hc => hag c (List.mem_cons_of_mem _ hc)

/-- Replace the middle of a segment. -/
theorem Seg.splice {pre post : List Block} (mid mid' : List Block)
    (h : Seg m a (pre ++ (mid ++ post)) z)
    (hpre : ∀ b ∈ pre, Agree m m' b.addr) (hpost : ∀ b ∈ post, Agree m m' b.addr)
    (hmid : ∀ p q, Seg m p mid q → Seg m' p mid' q) : Seg m' a (pre ++ (mid' ++ post)) z := by
  obtain ⟨p, h1, h⟩ := seg_append.1 h
  obtain ⟨q, h2, h3⟩ := seg_append.1 h
  exact seg_append.2 ⟨p, h1.frame hpre, seg_append.2 ⟨q, hmid p q h2, h3.frame hpost⟩⟩

theorem Seg.ne_zero {b : Block} {bs : List Block} (h : Seg m a bs z) (hb : b ∈ bs) :
    b.addr ≠ 0 := by
  induction bs generalizing a with
  | nil => cases hb
  | cons c bs ih =>
    obtain ⟨rfl, h0, -, h⟩ := h
    rcases List.mem_cons.1 hb with rfl | hb
    · exact h0
    · exact ih h hb

theorem Seg.header {b : Block} {bs : List Block} (h : Seg m a bs z) (hb : b ∈ bs) :
    Header m b := by
  induction bs generalizing a with
  | nil => cases hb
  | cons c bs ih =>
    obtain ⟨rfl, h0, hc, h⟩ := h
    rcases List.mem_cons.1 hb with rfl | hb
    · exact hc
    · exact ih h hb

/-- The walk along a whole list returns its blocks. -/
theorem Seg.walk_eq {bs : List Block} (h : Seg m a bs 0) {fuel : ℕ} (hf : bs.length < fuel) :
    walk m fuel a = some bs := by
  induction bs generalizing a fuel with
  | nil =>
    obtain ⟨k, rfl⟩ := Nat.exists_eq_add_of_lt hf
    simp only [seg_nil] at h
    simp [walk, h]
  | cons b bs ih =>
    obtain ⟨rfl, h0, hh, h⟩ := h
    cases fuel with
    | zero => omega
    | succ k =>
      have hu : (used m b.addr != 0) = b.used := by rw [hh.2.2]; cases b.used <;> rfl
      rw [walk, if_neg h0, ih h (by simpa using hf)]
      simp [hu, hh.2.1]

/-- The search of `Alloc` stops at the first block that fits. -/
theorem Seg.firstFit_eq {n : ℕ} {pre post : List Block} {b : Block}
    (h : Seg m a (pre ++ b :: post) 0) (hpre : ∀ c ∈ pre, ¬ Fits n c) (hb : Fits n b) {fuel : ℕ}
    (hf : pre.length < fuel) : firstFit m n fuel a = some b.addr := by
  induction pre generalizing a fuel with
  | nil =>
    obtain ⟨rfl, h0, hh, -⟩ := h
    obtain ⟨k, rfl⟩ := Nat.exists_eq_add_of_lt hf
    have hstop : ¬ (used m b.addr ≠ 0 ∨ size m b.addr < n) := by
      rw [hh.2.1, hh.2.2, hb.1]
      simpa using hb.2
    simp only [List.length_nil, Nat.zero_add, firstFit]
    rw [if_neg h0, if_neg hstop]
  | cons c pre ih =>
    obtain ⟨rfl, h0, hh, h⟩ := h
    cases fuel with
    | zero => omega
    | succ k =>
      rw [firstFit, if_neg h0, if_pos (hh.skip (hpre c List.mem_cons_self))]
      exact ih h (fun x hx => hpre x (List.mem_cons_of_mem _ hx)) (by simpa using hf)

/-- The search of `Alloc` finds nothing if no block fits. -/
theorem Seg.firstFit_eq_zero {n : ℕ} {bs : List Block} (h : Seg m a bs 0)
    (hbs : ∀ c ∈ bs, ¬ Fits n c) {fuel : ℕ} (hf : bs.length < fuel) :
    firstFit m n fuel a = some 0 := by
  induction bs generalizing a fuel with
  | nil =>
    obtain ⟨k, rfl⟩ := Nat.exists_eq_add_of_lt hf
    simp only [seg_nil] at h
    simp [firstFit, h]
  | cons c bs ih =>
    obtain ⟨rfl, h0, hh, h⟩ := h
    cases fuel with
    | zero => omega
    | succ k =>
      rw [firstFit, if_neg h0, if_pos (hh.skip (hbs c List.mem_cons_self))]
      exact ih h (fun x hx => hbs x (List.mem_cons_of_mem _ hx)) (by simpa using hf)

/-- The address of the last block before a place in the list, or what was before. -/
def lastAddr (prev : ℕ) (pre : List Block) : ℕ := (pre.getLast?.map Block.addr).getD prev

/-- The search of `Free` finds the block before `b`. -/
theorem Seg.findPrev_eq {pre post : List Block} {b : Block} (h : Seg m a (pre ++ b :: post) z)
    (hne : ∀ c ∈ pre, c.addr ≠ b.addr) {fuel prev : ℕ} (hf : pre.length < fuel) :
    findPrev m b.addr fuel a prev = some (lastAddr prev pre) := by
  induction pre generalizing a fuel prev with
  | nil =>
    obtain ⟨rfl, h0, -, -⟩ := h
    obtain ⟨k, rfl⟩ := Nat.exists_eq_add_of_lt hf
    simp [findPrev, lastAddr]
  | cons c pre ih =>
    obtain ⟨rfl, h0, hh, h⟩ := h
    cases fuel with
    | zero => omega
    | succ k =>
      have hc := hne c List.mem_cons_self
      rw [findPrev, if_neg (by simp [h0, hc]),
        ih h (fun x hx => hne x (List.mem_cons_of_mem _ hx)) (by simpa using hf)]
      cases pre with
      | nil => rfl
      | cons d pre => rfl

/-! ### The invariant -/

/-- The free list of a heap at `base`. -/
def layout (base : ℕ) : Layout where
  hdr := headerSize
  unit := 8
  slack := headerSize + 16
  lo := base
  hi := base + heapSize
  hdr_pos := by decide
  hdr_le_slack := by decide
  unit_dvd_hdr := by decide

/-- The region of the heap is aligned and lies inside the 32-bit address space, past address
zero.  It may be the last of the address space; then its end is the address zero. -/
structure Region (base : ℕ) : Prop where
  pos : 0 < base
  aligned : 8 ∣ base
  fits : base + heapSize ≤ 2 ^ 32

/-- The region has an end that is an address. -/
structure Room (base : ℕ) : Prop extends Region base where
  lt : base + heapSize < 2 ^ 32

/-- The heap `h` consists of the blocks `bs`. -/
structure Holds (base : ℕ) (h : Heap) (bs : List Block) : Prop where
  ready : h.ready = true
  first : h.first = base
  base_eq : h.base = base
  heapEnd_eq : h.heapEnd = u32 (base + heapSize)
  seg : Seg h.mem base bs 0
  tiles : Tiles (layout base) base bs (base + heapSize)
  bytesUsed : h.bytesUsed = bytes (usedBlocks bs)
  bytesFree : h.bytesFree = bytes (freeBlocks bs)
  count : sub32 h.allocCount h.freeCount = u32 (usedBlocks bs).length
  allocCount : h.allocCount < 2 ^ 32
  freeCount : h.freeCount < 2 ^ 32
  /-- A payload begins inside the region, also that of the last block. -/
  payload : ∀ b ∈ bs, b.addr + headerSize < base + heapSize

variable {base : ℕ} {h : Heap} {pre post : List Block} {b c : Block}

/-- Where a block of the heap lies. -/
structure Place (base : ℕ) (pre : List Block) (b : Block) (post : List Block) : Prop where
  lo : base ≤ b.addr
  hi : b.addr + 16 + b.size ≤ base + heapSize
  before : ∀ x ∈ pre, x.addr + 16 ≤ b.addr
  behind : ∀ x ∈ post, b.addr + 16 + b.size ≤ x.addr ∧ x.addr + 16 ≤ base + heapSize
  room : bytes (usedBlocks pre) + bytes (freeBlocks pre) + b.size +
    bytes (usedBlocks post) + bytes (freeBlocks post) ≤ heapSize
  length : (pre ++ b :: post).length ≤ heapSize

theorem place_of_tiles (ht : Tiles (layout base) base (pre ++ b :: post) (base + heapSize)) :
    Place base pre b post where
  lo := (ht.bounds (by simp)).1
  hi := (ht.bounds (b := b) (by simp)).2
  before x hx := by
    have := (List.pairwise_append.1 ht.pairwise).2.2 x hx b List.mem_cons_self
    simp only [Layout.stop, layout, headerSize] at this
    omega
  behind x hx := by
    have h1 := (List.pairwise_cons.1 (List.pairwise_append.1 ht.pairwise).2.1).1 x hx
    have h2 := (ht.bounds (b := x) (by simp [hx])).2
    simp only [Layout.stop, layout, headerSize] at h1 h2
    omega
  room := by
    have := ht.length_eq
    have h1 := bytes_usedBlocks_add pre
    have h2 := bytes_usedBlocks_add post
    simp only [bytes_append, bytes_cons] at this
    omega
  length := by
    have := ht.length_eq
    simp only [layout, headerSize] at this
    omega

theorem Holds.place (H : Holds base h (pre ++ b :: post)) : Place base pre b post :=
  place_of_tiles H.tiles

/-- What changes inside a block leaves the other headers alone. -/
theorem Place.agree {m m' : Mem} (hp : Place base pre b post) (hR : Region base)
    (h : OnlyIn m m' b.addr (b.addr + 16 + b.size)) {x : Block} (hx : x ∈ pre ∨ x ∈ post) :
    Agree m m' x.addr := by
  have hf := hR.fits
  have hhi := hp.hi
  rcases hx with hx | hx
  · have := hp.before x hx
    exact .of_eqOn (h.eqOn (.inl this)) (by omega)
  · have := hp.behind x hx
    exact .of_eqOn (h.eqOn (.inr this.1)) (by omega)

/-! ### The rules -/

/-- What changes inside a payload leaves the list as it is. -/
theorem holds_payload (hR : Region base) {bs : List Block} (H : Holds base h bs) (hb : b ∈ bs)
    {m' : Mem} (hm : OnlyIn h.mem m' (b.addr + 16) (b.addr + 16 + b.size)) :
    Holds base { h with mem := m' } bs := by
  refine { H with seg := H.seg.frame fun x hx => ?_ }
  have hf := hR.fits
  have h1 := (H.tiles.bounds hx).2
  have h2 := H.tiles.eq_or_apart hb hx
  simp only [Layout.stop, layout, headerSize] at h1 h2
  have hout : EqOn h.mem m' x.addr (x.addr + 16) := by
    refine hm.eqOn ?_
    rcases h2 with rfl | h2
    · exact .inl le_rfl
    · omega
  exact .of_eqOn hout (by omega)

/-- A byte stored into a payload leaves the list as it is. -/
theorem holds_store (hR : Region base) {bs : List Block} (H : Holds base h bs) (hb : b ∈ bs)
    {a : ℕ} {v : UInt8} (hlo : b.addr + 16 ≤ a) (hhi : a < b.addr + 16 + b.size) :
    Holds base { h with mem := h.mem.write8 a v } bs := by
  refine holds_payload hR H hb fun x hx => ?_
  have hf := hR.fits
  have hstop := (H.tiles.bounds hb).2
  simp only [Layout.stop, layout, headerSize] at hstop
  have hne : x ≠ u32 a := by
    rw [u32_of_lt (by omega)]
    omega
  exact if_neg hne

theorem holds_split (hR : Region base) (H : Holds base h (pre ++ b :: post))
    (hb : b.used = false) {n : ℕ} (hn : n + 32 < b.size) :
    Holds base (split h b.addr n (b.size - n))
      (pre ++ ⟨b.addr, n, false⟩ :: ⟨b.addr + 16 + n, b.size - n - 16, false⟩ :: post) := by
  have hp := H.place
  have hf := hR.fits
  have hhi := hp.hi
  have hroom := hp.room
  have hs : heapSize = 4194304 := rfl
  have hmg : heapMagic < 2 ^ 32 := by decide
  have ht : u32 (b.addr + 16 + n) = b.addr + 16 + n := u32_of_lt (by omega)
  have hl : sub32 (b.size - n) 16 = b.size - n - 16 := sub32_of_le (by omega) (by omega)
  obtain ⟨ready, first, base_eq, heapEnd_eq, seg, tiles, bytesUsed, bytesFree, count, hac, hfc,
    payload⟩ := H
  -- both headers that `Split` writes lie inside the old block
  have hin : OnlyIn h.mem (split h b.addr n (b.size - n)).mem b.addr (b.addr + 16 + b.size) := by
    have hfit : b.addr + 16 + b.size ≤ 2 ^ 32 := by omega
    simp only [split, headerSize, ht]
    exact ((((((OnlyIn.refl _ _ _).write32 hfit (by omega) (by omega) _).write32 hfit
      (by omega) (by omega) _).write32 hfit (by omega) (by omega) _).write32 hfit (by omega)
      (by omega) _).write32 hfit (by omega) (by omega) _).write32 hfit (by omega) (by omega) _
  refine ⟨ready, first, base_eq, heapEnd_eq, ?_, ?_, ?_, ?_, ?_, hac, hfc, ?_⟩
  · refine Seg.splice [b]
      [⟨b.addr, n, false⟩, ⟨b.addr + 16 + n, b.size - n - 16, false⟩] seg
      (fun x hx => hp.agree hR hin (.inl hx)) (fun x hx => hp.agree hR hin (.inr hx)) ?_
    · rintro p q ⟨rfl, h0, ⟨hm, -, hu⟩, rfl⟩
      simp only [split, headerSize, ht, hl]
      simp only [hb] at hu
      simp only [seg_cons, seg_nil, Header, magic, size, used, next] at *
      simp (disch := omega) only [Mem.read32_write32, Mem.read32_write32_of_disjoint]
      refine ⟨trivial, h0, ⟨hm, trivial, hu⟩, trivial, by omega, ⟨trivial, trivial, rfl⟩, ?_⟩
      exact Mem.read32_write32 _ _ (Mem.read32_lt _ _)
  · obtain ⟨c, h1, rfl, h2⟩ := tiles_append.1 tiles
    refine tiles_append.2 ⟨_, h1, rfl, rfl, ?_⟩
    convert h2 using 1
    simp only [Layout.stop, layout, headerSize]
    omega
  · simp [split, bytesUsed, usedBlocks_append, hb]
  · simp only [freeBlocks_append, freeBlocks_cons, hb, bytes_append, bytes_cons,
      Bool.false_eq_true, ↓reduceIte] at bytesFree ⊢
    simp only [split, bytesFree, headerSize]
    rw [sub32_of_le (by omega) (by omega)]
    omega
  · simp [split, count, usedBlocks_append, hb]
  · simp only [List.forall_mem_append, List.forall_mem_cons, headerSize] at payload ⊢
    exact ⟨payload.1, payload.2.1, by omega, payload.2.2⟩

/-- The flag of a block set or cleared. -/
theorem seg_mark (hR : Region base) (H : Holds base h (pre ++ b :: post)) (u : Bool) :
    Seg (h.mem.write32 (b.addr + 8) u.toNat) base (pre ++ { b with used := u } :: post) 0 ∧
      size (h.mem.write32 (b.addr + 8) u.toNat) b.addr = b.size := by
  have hp := H.place
  have hf := hR.fits
  have hhi := hp.hi
  have hu : u.toNat < 2 ^ 32 := by cases u <;> decide
  have hin : OnlyIn h.mem (h.mem.write32 (b.addr + 8) u.toNat) b.addr (b.addr + 16 + b.size) :=
    (OnlyIn.refl _ _ _).write32 (by omega) (by omega) (by omega) _
  have hsize : size (h.mem.write32 (b.addr + 8) u.toNat) b.addr = b.size := by
    rw [size, Mem.read32_write32_of_disjoint (by omega) (by omega) (by omega)]
    exact (H.seg.header (b := b) (by simp)).2.1
  refine ⟨Seg.splice [b] [{ b with used := u }] H.seg (fun x hx => hp.agree hR hin (.inl hx))
    (fun x hx => hp.agree hR hin (.inr hx)) ?_, hsize⟩
  rintro p q ⟨rfl, h0, ⟨hm, hsz, -⟩, rfl⟩
  simp only [seg_cons, seg_nil, Header, magic, size, used, next] at *
  simp (disch := omega) only [Mem.read32_write32, Mem.read32_write32_of_disjoint]
  exact ⟨trivial, h0, ⟨hm, hsz, trivial⟩, trivial⟩

theorem tiles_mark (H : Holds base h (pre ++ b :: post)) (u : Bool) :
    Tiles (layout base) base (pre ++ { b with used := u } :: post) (base + heapSize) := by
  obtain ⟨c, h1, rfl, h2⟩ := tiles_append.1 H.tiles
  exact tiles_append.2 ⟨_, h1, rfl, h2⟩

theorem payload_mark (H : Holds base h (pre ++ b :: post)) (u : Bool) :
    ∀ c ∈ pre ++ { b with used := u } :: post, c.addr + headerSize < base + heapSize := by
  have hpayload := H.payload
  rw [List.forall_mem_append, List.forall_mem_cons] at hpayload ⊢
  exact hpayload

theorem holds_claim (hR : Region base) (H : Holds base h (pre ++ b :: post))
    (hb : b.used = false) : Holds base (claim h b.addr) (pre ++ { b with used := true } :: post) := by
  have hp := H.place
  have hf := hR.fits
  have hhi := hp.hi
  have hroom := hp.room
  have hs : heapSize = 4194304 := rfl
  obtain ⟨hseg, hsize⟩ : _ ∧ size (h.mem.write32 (b.addr + 8) 1) b.addr = b.size :=
    seg_mark hR H true
  have htiles := tiles_mark H true
  have hpayload := payload_mark H true
  obtain ⟨ready, first, base_eq, heapEnd_eq, -, -, bytesUsed, bytesFree, count, hac, hfc, -⟩ := H
  refine ⟨ready, first, base_eq, heapEnd_eq, hseg, htiles, ?_, ?_, ?_, u32_lt _, hfc, hpayload⟩
  · simp only [usedBlocks_append, usedBlocks_cons, hb, bytes_append, bytes_cons,
      Bool.false_eq_true, ↓reduceIte] at bytesUsed ⊢
    simp only [claim, hsize, bytesUsed]
    rw [u32_of_lt (by omega)]
    omega
  · simp only [freeBlocks_append, freeBlocks_cons, hb, bytes_append, bytes_cons,
      Bool.false_eq_true, ↓reduceIte] at bytesFree ⊢
    simp only [claim, hsize, bytesFree]
    rw [sub32_of_le (by omega) (by omega)]
    omega
  · simp only [usedBlocks_append, usedBlocks_cons, hb, List.length_append, List.length_cons,
      Bool.false_eq_true, ↓reduceIte] at count ⊢
    simp only [claim]
    unfold sub32 u32 at *
    omega

theorem holds_release (hR : Region base) (H : Holds base h (pre ++ b :: post))
    (hb : b.used = true) :
    Holds base (release h b.addr) (pre ++ { b with used := false } :: post) := by
  have hp := H.place
  have hf := hR.fits
  have hhi := hp.hi
  have hroom := hp.room
  have hs : heapSize = 4194304 := rfl
  obtain ⟨hseg, hsize⟩ : _ ∧ size (h.mem.write32 (b.addr + 8) 0) b.addr = b.size :=
    seg_mark hR H false
  have htiles := tiles_mark H false
  have hpayload := payload_mark H false
  obtain ⟨ready, first, base_eq, heapEnd_eq, -, -, bytesUsed, bytesFree, count, hac, hfc, -⟩ := H
  refine ⟨ready, first, base_eq, heapEnd_eq, hseg, htiles, ?_, ?_, ?_, hac, u32_lt _, hpayload⟩
  · simp only [usedBlocks_append, usedBlocks_cons, hb, bytes_append, bytes_cons,
      Bool.false_eq_true, ↓reduceIte] at bytesUsed ⊢
    simp only [release, hsize, bytesUsed]
    rw [sub32_of_le (by omega) (by omega)]
    omega
  · simp only [freeBlocks_append, freeBlocks_cons, hb, bytes_append, bytes_cons,
      Bool.false_eq_true, ↓reduceIte] at bytesFree ⊢
    simp only [release, hsize, bytesFree]
    rw [u32_of_lt (by omega)]
    omega
  -- the number of used blocks stays below `2 ^ 32`, so the difference does not wrap
  · have hlen := hp.length
    have hle : (usedBlocks (pre ++ b :: post)).length ≤ (pre ++ b :: post).length :=
      List.length_filter_le _ _
    simp only [usedBlocks_append, usedBlocks_cons, hb, List.length_append, List.length_cons,
      Bool.false_eq_true, ↓reduceIte] at count hle hlen ⊢
    simp only [release]
    unfold sub32 u32 at *
    omega

/-- Merging two free neighbours. -/
theorem holds_merge (hR : Region base) (H : Holds base h (pre ++ b :: c :: post))
    (hb : b.used = false) (hc : c.used = false) :
    Holds base (merge h b.addr c.addr)
      (pre ++ { b with size := b.size + 16 + c.size } :: post) := by
  have hp := H.place
  have hpc : Place base (pre ++ [b]) c post := place_of_tiles (by simpa using H.tiles)
  have hchi := hpc.hi
  have hf := hR.fits
  have hhi := hp.hi
  have hbc := (hp.behind c List.mem_cons_self).1
  have hroom := hp.room
  have hs : heapSize = 4194304 := rfl
  obtain ⟨hbm, hbs, hbu⟩ := H.seg.header (b := b) (by simp)
  obtain ⟨hcm, hcs, hcu⟩ := H.seg.header (b := c) (by simp)
  have hlt : u32 (b.size + (16 + c.size)) = b.size + 16 + c.size := by
    rw [u32_of_lt (by omega)]; omega
  obtain ⟨ready, first, base_eq, heapEnd_eq, seg, tiles, bytesUsed, bytesFree, count, hac, hfc,
    payload⟩ := H
  -- only the header of `b` is written; that of `c` becomes payload
  have hin : OnlyIn h.mem (merge h b.addr c.addr).mem b.addr (b.addr + 16 + b.size) := by
    have hfit : b.addr + 16 + b.size ≤ 2 ^ 32 := by omega
    exact ((OnlyIn.refl _ _ _).write32 hfit (by omega) (by omega) _).write32 hfit (by omega)
      (by omega) _
  refine ⟨ready, first, base_eq, heapEnd_eq, ?_, ?_, ?_, ?_, ?_, hac, hfc, ?_⟩
  · refine Seg.splice [b, c] [{ b with size := b.size + 16 + c.size }] seg ?_ ?_ ?_
    · exact fun x hx => hp.agree hR hin (.inl hx)
    · exact fun x hx => hp.agree hR hin (.inr (List.mem_cons_of_mem _ hx))
    · rintro p q ⟨rfl, h0, -, hnext, -, -, rfl⟩
      have hnlt := Mem.read32_lt h.mem (c.addr + 12)
      simp only [merge, headerSize, hbs, hcs, hlt]
      simp only [seg_cons, seg_nil, Header, magic, size, used, next] at *
      simp (disch := omega) only [Mem.read32_write32, Mem.read32_write32_of_disjoint]
      exact ⟨trivial, h0, ⟨hbm, trivial, hbu⟩, by rw [hnext]⟩
  · obtain ⟨d, h1, rfl, h2, h3⟩ := tiles_append.1 tiles
    refine tiles_append.2 ⟨_, h1, rfl, ?_⟩
    convert h3 using 1
    simp only [Layout.stop, layout, headerSize] at h2 ⊢
    omega
  · simp [merge, bytesUsed, usedBlocks_append, hb, hc]
  · simp only [freeBlocks_append, freeBlocks_cons, hb, hc, bytes_append, bytes_cons,
      Bool.false_eq_true, ↓reduceIte] at bytesFree hroom ⊢
    simp only [merge, bytesFree, headerSize]
    rw [u32_of_lt (by omega)]
    omega
  · simp [merge, count, usedBlocks_append, hb, hc]
  · rw [List.forall_mem_append, List.forall_mem_cons, List.forall_mem_cons] at payload
    rw [List.forall_mem_append, List.forall_mem_cons]
    exact ⟨payload.1, payload.2.1, payload.2.2.2⟩

/-- A block's `next` names the block behind it. -/
theorem Holds.next_eq (H : Holds base h (pre ++ b :: post)) :
    Seg h.mem (next h.mem b.addr) post 0 := by
  obtain ⟨p, -, rfl, -, -, hnext⟩ := seg_append.1 H.seg
  exact hnext

theorem holds_coalesceForward (hR : Region base) (H : Holds base h (pre ++ b :: post))
    (hb : b.used = false) :
    Holds base (coalesceForward h b.addr) (pre ++ absorb (layout base) b post) := by
  have hn := H.next_eq
  cases post with
  | nil =>
    simp only [seg_nil] at hn
    rw [coalesceForward, if_neg (by simp [hn])]
    exact H
  | cons c post =>
    obtain ⟨hn, h0, ⟨-, -, hu⟩, -⟩ := hn
    rw [absorb_cons]
    cases hc : c.used
    · rw [coalesceForward, hn, if_pos ⟨hn ▸ h0, by rw [hu, hc]; rfl⟩]
      exact holds_merge hR H hb hc
    · rw [coalesceForward, hn, if_neg (by simp [hu, hc])]
      exact H

/-- Backward coalescing merges `b` into the block before it if that one is free. -/
theorem coalesceBackward_eq (H : Holds base h (pre ++ b :: post)) :
    coalesceBackward h b.addr = some
      (match pre.getLast? with
      | none => h
      | some p => if p.used then h else merge h p.addr b.addr) := by
  have hp := H.place
  have hlen := hp.length
  have hs : heapSize = 4194304 := rfl
  have hfuel : pre.length < walkFuel := by
    simp only [List.length_append, List.length_cons] at hlen
    unfold walkFuel; omega
  have hne : ∀ c ∈ pre, c.addr ≠ b.addr := fun c hc => by have := hp.before c hc; omega
  have hfind : findPrev h.mem b.addr walkFuel h.first 0 = some (lastAddr 0 pre) :=
    Seg.findPrev_eq (H.first ▸ H.seg) hne hfuel
  rw [coalesceBackward, hfind]
  cases hl : pre.getLast? with
  | none => simp [lastAddr, hl]
  | some p =>
    have hmem : p ∈ pre ++ b :: post := List.mem_append_left _ (List.mem_of_getLast? hl)
    obtain ⟨-, -, hu⟩ := H.seg.header hmem
    have h0 := H.seg.ne_zero hmem
    cases hpu : p.used <;> simp [lastAddr, hl, hu, hpu, h0]

theorem holds_coalesceBackward (hR : Region base) (H : Holds base h (pre ++ b :: post))
    (hb : b.used = false) :
    ∃ h', coalesceBackward h b.addr = some h' ∧
      Holds base h' (join (layout base) pre (b :: post)) := by
  refine ⟨_, coalesceBackward_eq H, ?_⟩
  -- no block before `b`, a used one, or a free one
  rcases join_cases (L := layout base) pre (b :: post) with
    ⟨rfl, he⟩ | ⟨pre', p, rfl, hpu, he⟩ | ⟨pre', p, rfl, hpu, he⟩
  · rw [he]
    exact H
  · rw [he]
    simpa [hpu] using H
  · rw [List.append_assoc] at H
    rw [he, absorb_cons, if_neg (by simp [hb])]
    simpa [hpu, layout, headerSize] using holds_merge hR H hpu hb

/-! ### The operations -/

/-- What `Free` executes for a used block. -/
theorem free_eq (hR : Region base) (H : Holds base h (pre ++ b :: post)) (hb : b.used = true) :
    free h (b.addr + 16) =
      coalesceBackward (coalesceForward (release h b.addr) b.addr) b.addr := by
  have hp := H.place
  have hf := hR.fits
  have hhi := hp.hi
  have hs : heapSize = 4194304 := rfl
  have hpayload := H.payload b (by simp)
  have hsub : sub32 (b.addr + 16) headerSize = b.addr := by
    unfold headerSize at hpayload
    rw [sub32, headerSize, u32]
    omega
  obtain ⟨hm, -, hu⟩ := H.seg.header (b := b) (by simp)
  rw [free, if_neg (by simp [H.ready])]
  simp only [hsub, hm, hu, hb]
  rfl

/-- **`Free` of a used block** runs to its end and releases the block. -/
theorem holds_free (hR : Region base) (H : Holds base h (pre ++ b :: post))
    (hb : b.used = true) :
    ∃ h', free h (b.addr + 16) = some h' ∧
      Holds base h' (FreeList.free (layout base) b.addr (pre ++ b :: post)) := by
  have hne : ∀ c ∈ pre, c.addr ≠ b.addr := fun c hc => by have := H.place.before c hc; omega
  have H1 := holds_release hR H hb
  have H2 := holds_coalesceForward hR H1 rfl
  obtain ⟨n, cs, he⟩ := absorb_eq_cons (L := layout base) { b with used := false } post
  rw [he] at H2
  obtain ⟨h', h1, h2⟩ := holds_coalesceBackward hR H2 rfl
  rw [free_append hne, he]
  exact ⟨h', (free_eq hR H hb).trans h1, h2⟩

/-- **`Alloc` without a block that fits** returns `NULL` and changes nothing. -/
theorem alloc_eq_null {bs : List Block} (H : Holds base h bs) {n : ℕ}
    (hbs : ∀ c ∈ bs, ¬ Fits (round n) c) : alloc h n = some (h, 0) := by
  have hlen := H.tiles.length_eq
  have hs : heapSize = 4194304 := rfl
  have hfuel : bs.length < walkFuel := by
    simp only [layout, headerSize] at hlen
    unfold walkFuel; omega
  rw [alloc, if_neg (by simp [H.ready])]
  simp [H.first, H.seg.firstFit_eq_zero hbs hfuel]

/-- What `Alloc` executes when `b` is the first block that fits. -/
theorem alloc_eq (hR : Region base) (H : Holds base h (pre ++ b :: post)) {n : ℕ}
    (hpre : ∀ c ∈ pre, ¬ Fits (round n) c) (hb : Fits (round n) b) :
    alloc h n = some (claim (if 32 < b.size - round n then
      split h b.addr (round n) (b.size - round n) else h) b.addr, b.addr + 16) := by
  have hp := H.place
  have hf := hR.fits
  have hhi := hp.hi
  have hlen := hp.length
  have hs : heapSize = 4194304 := rfl
  have hfuel : pre.length < walkFuel := by
    simp only [List.length_append, List.length_cons] at hlen
    unfold walkFuel; omega
  have h0 := H.seg.ne_zero (b := b) (by simp)
  have hsize := (H.seg.header (b := b) (by simp)).2.1
  have hleft : sub32 b.size (round n) = b.size - round n := sub32_of_le (by omega) hb.2
  have hret : u32 (b.addr + headerSize) = b.addr + 16 :=
    u32_of_lt ((H.payload b (by simp)).trans_le hf)
  rw [alloc, if_neg (by simp [H.ready])]
  simp only [H.first, H.seg.firstFit_eq hpre hb hfuel, Option.map_some, h0, ↓reduceIte, hsize,
    hleft, hret]
  rfl

/-- **`Alloc` takes the first block that fits.** -/
theorem holds_alloc (hR : Region base) (H : Holds base h (pre ++ b :: post)) {n : ℕ}
    (hpre : ∀ c ∈ pre, ¬ Fits (round n) c) (hb : Fits (round n) b) :
    ∃ h', alloc h n = some (h', b.addr + 16) ∧
      Holds base h' (pre ++ (carve (layout base) (round n) b ++ post)) := by
  refine ⟨_, alloc_eq hR H hpre hb, ?_⟩
  unfold carve
  simp only [layout, headerSize, Nat.reduceAdd]
  by_cases hgt : 32 < b.size - round n
  · have H1 := holds_split hR H hb.1 (n := round n) (by omega)
    simp only [hgt, ↓reduceIte]
    exact holds_claim (b := ⟨b.addr, round n, false⟩) hR H1 rfl
  · simp only [hgt, ↓reduceIte]
    exact holds_claim hR H hb.1

end Heap

end Shiro
