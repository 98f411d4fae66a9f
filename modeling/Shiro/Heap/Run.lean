import Shiro.Heap.Chain
import Shiro.Lib.Lts

/-!
# Runs of the heap

A client starts the heap, asks it for memory, gives memory back, and writes into the memory it
was given.  `clientLts` is that system; its states carry, beside the heap, the list of the
client's live allocations (the pointer and the size that was asked for).

* `Client.Inv` : the invariant: the heap holds an arena whose used blocks are exactly the live
  allocations.
* `reachable_inv`, `wellFormed_of_holds` : in every reachable state the list in memory tiles the heap
  region and the counters agree with it.
* `wellFormed_iff` : the condition on the place of the heap under which that is so.
-/

namespace Shiro

open FreeList

namespace Heap

/-! ### The client system -/

/-- A heap and the live allocations of its clients: pointer and requested size. -/
structure Client where
  heap : Heap
  live : List (ℕ × ℕ)

/-- What a client does. -/
inductive Op where
  /-- `Alloc(n)`. -/
  | alloc (n : UInt32)
  /-- `Free(p)`. -/
  | free (p : ℕ)
  /-- A byte stored into the client's own memory. -/
  | store (a : ℕ) (v : UInt8)

/-- `p` is a live pointer. -/
def Client.Live (s : Client) (p : ℕ) : Prop := ∃ n, (p, n) ∈ s.live

/-- The steps of a client. -/
inductive Client.Step : Client → Op → Client → Prop
  | alloc {s : Client} {n : UInt32} {h' : Heap} {p : ℕ} :
      s.heap.alloc n.toNat = some (h', p) →
      Step s (.alloc n) ⟨h', if p = 0 then s.live else (p, n.toNat) :: s.live⟩
  | free {s : Client} {p : ℕ} {h' : Heap} :
      p = 0 ∨ s.Live p → s.heap.free p = some h' →
      Step s (.free p) ⟨h', s.live.filter (·.1 ≠ p)⟩
  | store {s : Client} {p a : ℕ} {v : UInt8} :
      s.Live p → p ≤ a → a < p + size s.heap.mem (p - headerSize) →
      Step s (.store a v) ⟨{ s.heap with mem := s.heap.mem.write8 a v }, s.live⟩

/-- A client of the heap that `Heap::Start(baseHint)` sets up. -/
def clientLts (m : Mem) (kernelEnd baseHint : UInt32) : Lts Client Op where
  init s := s = ⟨start m kernelEnd.toNat baseHint.toNat, []⟩
  step := Client.Step

/-! ### What holds of the heap -/

/-- The blocks of the heap tile its region and the counters count them. -/
structure WellFormed (h : Heap) (bs : List Block) : Prop where
  /-- The walk from `first` ends, and visits the blocks `bs`. -/
  walk : h.blocks = some bs
  /-- The blocks tile the region. -/
  region : h.heapEnd = h.base + heapSize
  tiles : Tiles (layout h.base) h.base bs h.heapEnd
  /-- Each `next` is the end of its block, and `NULL` for the last. -/
  next : ∀ pre b post, bs = pre ++ b :: post →
    next h.mem b.addr = if post = [] then 0 else b.addr + headerSize + b.size
  magic : ∀ b ∈ bs, magic h.mem b.addr = heapMagic
  aligned : ∀ b ∈ bs, 8 ∣ b.addr + headerSize
  coalesced : Coalesced bs
  bytesUsed : h.bytesUsed = bytes (usedBlocks bs)
  bytesFree : h.bytesFree = bytes (freeBlocks bs)
  total : h.bytesUsed + h.bytesFree + headerSize * bs.length = heapSize
  count : sub32 h.allocCount h.freeCount = u32 (usedBlocks bs).length

/-! ### The invariant -/

/-- The heap holds the arena `A`, whose used blocks are the live allocations. -/
structure Client.Inv (base : ℕ) (s : Client) (A : Arena (layout base)) : Prop where
  holds : Holds base s.heap A.blocks
  live : ∀ p n, (p, n) ∈ s.live → ∃ b ∈ A.used, p = b.addr + headerSize ∧ round n ≤ b.size
  used : ∀ b ∈ A.used, s.Live (b.addr + headerSize)
  nodup : (s.live.map Prod.fst).Nodup

variable {base : ℕ} {s s' : Client} {A : Arena (layout base)}

theorem Client.Inv.mem_used (hI : s.Inv base A) {p : ℕ} (hp : s.Live p) :
    ∃ b ∈ A.used, p = b.addr + headerSize := by
  obtain ⟨n, hn⟩ := hp
  obtain ⟨b, hb, he, -⟩ := hI.live p n hn
  exact ⟨b, hb, he⟩

/-- **`Alloc` refines first-fit allocation in the arena.** -/
theorem alloc_refines (hR : Region base) {h : Heap} (H : Holds base h A.blocks) (n : ℕ) :
    match A.alloc (round n) (dvd_round n) with
    | none => alloc h n = some (h, 0)
    | some (a, A') => ∃ h', alloc h n = some (h', a + headerSize) ∧ Holds base h' A'.blocks := by
  split
  · rename_i hnone
    exact alloc_eq_null H (Arena.alloc_eq_none.1 hnone)
  · rename_i a A' hsome
    obtain ⟨pre, b, post, hbs, hpre, hb, rfl, hbs'⟩ := alloc_eq_some (Arena.alloc_eq_some.1 hsome)
    rw [hbs] at H
    rw [hbs']
    exact holds_alloc hR H hpre hb

/-- **`Free` refines the release of a used block of the arena.** -/
theorem free_refines (hR : Region base) {h : Heap} (H : Holds base h A.blocks) {b : Block}
    (hb : b ∈ A.used) :
    ∃ h', free h (b.addr + headerSize) = some h' ∧ Holds base h' (A.free b.addr).blocks := by
  obtain ⟨hmem, hu⟩ := Arena.mem_used.1 hb
  obtain ⟨pre, post, hbs⟩ := List.append_of_mem hmem
  have hrule := holds_free hR (show Holds base h (pre ++ b :: post) by rwa [← hbs]) hu
  rw [← hbs] at hrule
  exact hrule

theorem alloc_null_or {h h' : Heap} {n p : ℕ} (hR : Region base) (H : Holds base h A.blocks)
    (ha : alloc h n = some (h', p)) :
    (p = 0 ∧ h' = h ∧ ∀ b ∈ A.blocks, ¬ Fits (round n) b) ∨
    ∃ a A', A.alloc (round n) (dvd_round n) = some (a, A') ∧ p = a + headerSize ∧
      Holds base h' A'.blocks := by
  have href := alloc_refines hR H n
  split at href
  · rename_i hnone
    rw [href] at ha
    cases ha
    exact .inl ⟨rfl, rfl, Arena.alloc_eq_none.1 hnone⟩
  · rename_i a A' hsome
    obtain ⟨h₁, h1, h2⟩ := href
    rw [h1] at ha
    cases ha
    exact .inr ⟨a, A', hsome, rfl, h2⟩

/-- A fresh allocation is not live already. -/
theorem Client.Inv.not_live (hI : s.Inv base A) {b : Block} (hb : b ∈ A.blocks)
    (hu : b.used = false) : ¬ s.Live (b.addr + headerSize) := by
  intro hl
  obtain ⟨c, hc, he⟩ := hI.mem_used hl
  obtain ⟨hc, hcu⟩ := Arena.mem_used.1 hc
  rw [← A.tiles.eq_of_addr hb hc (by simpa using he), hu] at hcu
  cases hcu

/-- An allocation in the arena is one more live pointer. -/
theorem Client.Inv.alloc_some (hI : s.Inv base A) {n a : ℕ} {A' : Arena (layout base)}
    (hA : A.alloc (round n) (dvd_round n) = some (a, A')) {h' : Heap}
    (H : Holds base h' A'.blocks) :
    Client.Inv base ⟨h', (a + headerSize, n) :: s.live⟩ A' := by
  obtain ⟨b, hb, hfit, rfl, -, hused⟩ := Arena.mem_used_alloc hA
  refine ⟨H, ?_, ?_, ?_⟩
  · intro q k hqk
    rcases List.mem_cons.1 hqk with hqk | hqk
    · cases hqk
      exact ⟨_, (hused _).2 (.inl rfl), rfl, le_granted hfit.2⟩
    · obtain ⟨c, hc, hcq⟩ := hI.live q k hqk
      exact ⟨c, (hused c).2 (.inr hc), hcq⟩
  · intro c hc
    rcases (hused c).1 hc with rfl | hc
    · exact ⟨n, List.mem_cons_self⟩
    · obtain ⟨k, hk⟩ := hI.used c hc
      exact ⟨k, List.mem_cons_of_mem _ hk⟩
  · refine List.nodup_cons.2 ⟨fun hmem => ?_, hI.nodup⟩
    obtain ⟨⟨q, k⟩, hqk, rfl⟩ := List.mem_map.1 hmem
    exact hI.not_live hb hfit.1 ⟨k, hqk⟩

theorem Client.Inv.alloc (hR : Region base) (hI : s.Inv base A) {n p : ℕ} {h' : Heap}
    (ha : s.heap.alloc n = some (h', p)) :
    ∃ A', Client.Inv base ⟨h', if p = 0 then s.live else (p, n) :: s.live⟩ A' := by
  rcases alloc_null_or hR hI.holds ha with ⟨rfl, rfl, -⟩ | ⟨a, A', hA, rfl, H⟩
  · exact ⟨A, hI⟩
  · refine ⟨A', ?_⟩
    rw [if_neg (by unfold headerSize; omega : a + headerSize ≠ 0)]
    exact hI.alloc_some hA H

theorem Client.Inv.free (hR : Region base) (hI : s.Inv base A) {b : Block} (hb : b ∈ A.used)
    {h' : Heap} (hf : s.heap.free (b.addr + headerSize) = some h') :
    Client.Inv base ⟨h', s.live.filter (·.1 ≠ b.addr + headerSize)⟩ (A.free b.addr) := by
  obtain ⟨h₁, h1, H⟩ := free_refines hR hI.holds hb
  rw [h1] at hf
  cases hf
  refine ⟨H, ?_, ?_, ?_⟩
  · intro q k hqk
    obtain ⟨hqk, hne⟩ := List.mem_filter.1 hqk
    obtain ⟨c, hc, rfl, hk⟩ := hI.live q k hqk
    refine ⟨c, (Arena.mem_used_free hb c).2 ⟨hc, ?_⟩, rfl, hk⟩
    rintro rfl
    simp at hne
  · intro c hc
    obtain ⟨hc, hne⟩ := (Arena.mem_used_free hb c).1 hc
    obtain ⟨k, hk⟩ := hI.used c hc
    refine ⟨k, List.mem_filter.2 ⟨hk, ?_⟩⟩
    simpa using fun hcb => hne (A.eq_of_addr hc hb hcb)
  · exact hI.nodup.sublist (List.filter_sublist.map _)

/-- What changes inside a live allocation changes nothing for the heap. -/
theorem Client.Inv.payload (hR : Region base) (hI : s.Inv base A) {b : Block} (hb : b ∈ A.used)
    {m' : Mem}
    (hm : OnlyIn s.heap.mem m' (b.addr + headerSize) (b.addr + headerSize + b.size)) :
    Client.Inv base ⟨{ s.heap with mem := m' }, s.live⟩ A :=
  ⟨holds_payload hR hI.holds (Arena.mem_used.1 hb).1 hm, hI.live, hI.used, hI.nodup⟩

/-- **Every step of a client keeps the invariant.** -/
theorem Client.Inv.step (hR : Region base) (hI : s.Inv base A) {l : Op} (hst : s.Step l s') :
    ∃ A', s'.Inv base A' := by
  cases hst with
  | alloc ha => exact hI.alloc hR ha
  | @free p h' hp hf =>
    by_cases h0 : p = 0
    · subst h0
      have : s.live.filter (·.1 ≠ 0) = s.live := by
        refine List.filter_eq_self.2 fun ⟨q, k⟩ hqk => ?_
        obtain ⟨b, -, rfl, -⟩ := hI.live q k hqk
        simp [headerSize]
      rw [Heap.free, if_pos (by simp)] at hf
      cases hf
      exact ⟨A, hI.holds, this.symm ▸ hI.live, fun b hb => by
        simpa only [Client.Live, this] using hI.used b hb, this.symm ▸ hI.nodup⟩
    · obtain ⟨b, hb, rfl⟩ := hI.mem_used (hp.resolve_left h0)
      exact ⟨_, hI.free hR hb hf⟩
  | @store p a v hp hlo hhi =>
    obtain ⟨b, hb, rfl⟩ := hI.mem_used hp
    obtain ⟨hbm, -⟩ := Arena.mem_used.1 hb
    have hsz := (hI.holds.seg.header hbm).2.1
    rw [Nat.add_sub_cancel, hsz] at hhi
    exact ⟨A, holds_store hR hI.holds hbm hlo hhi, hI.live, hI.used, hI.nodup⟩

/-! ### Runs -/

/-- The heap begins at a page boundary. -/
theorem dvd_startBase (kernelEnd baseHint : UInt32) :
    0x1000 ∣ startBase kernelEnd.toNat baseHint.toNat := by
  rw [startBase_eq kernelEnd.toNat_lt baseHint.toNat_lt]
  exact Nat.dvd_of_mod_eq_zero (by unfold u32 pageUp; omega)

/-- The base of a heap that fits the address space. -/
theorem startBase_of_fits {kernelEnd baseHint : UInt32}
    (hfit : pageUp kernelEnd.toNat baseHint.toNat + heapSize ≤ 2 ^ 32) :
    startBase kernelEnd.toNat baseHint.toNat = pageUp kernelEnd.toNat baseHint.toNat := by
  have hs : 0 < heapSize := by decide
  rw [startBase_eq kernelEnd.toNat_lt baseHint.toNat_lt, u32_of_lt (by omega)]

theorem region_start {kernelEnd baseHint : UInt32}
    (hpos : 0 < pageUp kernelEnd.toNat baseHint.toNat)
    (hfit : pageUp kernelEnd.toNat baseHint.toNat + heapSize ≤ 2 ^ 32) :
    Region (startBase kernelEnd.toNat baseHint.toNat) := by
  have hbase := startBase_of_fits hfit
  exact ⟨hbase ▸ hpos, Nat.dvd_trans (by decide) (dvd_startBase kernelEnd baseHint), hbase ▸ hfit⟩

theorem room_start {kernelEnd baseHint : UInt32}
    (hpos : 0 < pageUp kernelEnd.toNat baseHint.toNat)
    (hfit : pageUp kernelEnd.toNat baseHint.toNat + heapSize < 2 ^ 32) :
    Room (startBase kernelEnd.toNat baseHint.toNat) where
  toRegion := region_start hpos hfit.le
  lt := by rwa [startBase_of_fits hfit.le]

theorem room_of_base {kernelEnd baseHint : UInt32}
    (hpos : startBase kernelEnd.toNat baseHint.toNat ≠ 0)
    (hfit : startBase kernelEnd.toNat baseHint.toNat + heapSize < 2 ^ 32) :
    0 < pageUp kernelEnd.toNat baseHint.toNat ∧
      pageUp kernelEnd.toNat baseHint.toNat + heapSize < 2 ^ 32 := by
  have h1 := kernelEnd.toNat_lt
  have h2 := baseHint.toNat_lt
  rw [startBase_eq h1 h2] at hpos hfit
  unfold u32 pageUp at *
  omega

theorem layout_room (base : ℕ) : (layout base).lo + (layout base).hdr ≤ (layout base).hi := by
  simp only [layout, headerSize, heapSize]
  omega

theorem layout_dvd (base : ℕ) :
    (layout base).unit ∣ (layout base).hi - (layout base).lo - (layout base).hdr := by
  simp only [layout, headerSize, heapSize]
  omega

/-- The arena `Heap::Start` sets up. -/
def startArena (base : ℕ) : Arena (layout base) :=
  Arena.init (layout base) (layout_room base) (layout_dvd base)

theorem startArena_blocks (base : ℕ) :
    (startArena base).blocks = [⟨base, heapSize - headerSize, false⟩] := by
  simp [startArena, Arena.init, layout, headerSize, heapSize]

theorem startBase_lt (kernelEnd baseHint : UInt32) :
    startBase kernelEnd.toNat baseHint.toNat + 0x1000 ≤ 2 ^ 32 := by
  rw [startBase_eq kernelEnd.toNat_lt baseHint.toNat_lt]
  unfold u32 pageUp
  omega

/-- `Heap::Start` establishes the invariant, whether or not the region wraps. -/
theorem inv_start (m : Mem) {kernelEnd baseHint : ℕ} (hpos : startBase kernelEnd baseHint ≠ 0)
    (hfit : startBase kernelEnd baseHint + headerSize ≤ 2 ^ 32) :
    Client.Inv (startBase kernelEnd baseHint) ⟨start m kernelEnd baseHint, []⟩
      (startArena (startBase kernelEnd baseHint)) := by
  have hs : heapSize = 4194304 := rfl
  have hmg : heapMagic < 2 ^ 32 := by decide
  have hH : headerSize = 16 := rfl
  refine ⟨⟨rfl, rfl, rfl, rfl, ?_, ?_, ?_, ?_, ?_, Nat.two_pow_pos _, Nat.two_pow_pos _, ?_⟩, ?_,
    ?_, .nil⟩
  · rw [startArena_blocks]
    simp only [start, seg_cons, seg_nil, Header, magic, size, used, next]
    simp (disch := omega) only [Mem.read32_write32, Mem.read32_write32_of_disjoint]
    exact ⟨trivial, hpos, ⟨trivial, trivial, rfl⟩, trivial⟩
  · exact (startArena _).tiles
  · simp [startArena_blocks, start]
  · rw [startArena_blocks]
    simp only [start, size]
    simp (disch := omega) only [Mem.read32_write32, Mem.read32_write32_of_disjoint]
    simp
  · simp [startArena_blocks, start, sub32, u32]
  · rw [startArena_blocks, List.forall_mem_singleton]
    exact Nat.add_lt_add_left (by decide) _
  · simp
  · simp [startArena, Arena.init, Arena.used]

/-- The list that `Heap::Start` sets up, whether or not the region wraps. -/
theorem seg_start (m : Mem) {kernelEnd baseHint : UInt32}
    (h0 : startBase kernelEnd.toNat baseHint.toNat ≠ 0) :
    Seg (start m kernelEnd.toNat baseHint.toNat).mem (startBase kernelEnd.toNat baseHint.toNat)
      [⟨startBase kernelEnd.toNat baseHint.toNat, heapSize - headerSize, false⟩] 0 := by
  have hle := startBase_lt kernelEnd baseHint
  have hI := inv_start m h0 (by unfold headerSize; omega)
  exact startArena_blocks _ ▸ hI.holds.seg

theorem start_blocks (m : Mem) {kernelEnd baseHint : UInt32}
    (h0 : startBase kernelEnd.toNat baseHint.toNat ≠ 0) :
    (start m kernelEnd.toNat baseHint.toNat).blocks =
      some (startArena (startBase kernelEnd.toNat baseHint.toNat)).blocks := by
  rw [startArena_blocks]
  exact (seg_start m h0).walk_eq (Nat.one_lt_two_pow (by decide))

/-- `Alloc` begins its search with a block that fits every request but the largest. -/
theorem firstFit_start (m : Mem) {kernelEnd baseHint : UInt32}
    (h0 : startBase kernelEnd.toNat baseHint.toNat ≠ 0) {n : ℕ} (hn : n ≤ heapSize - headerSize) :
    firstFit (start m kernelEnd.toNat baseHint.toNat).mem n walkFuel
        (start m kernelEnd.toNat baseHint.toNat).first =
      some (startBase kernelEnd.toNat baseHint.toNat) := by
  have hseg : Seg (start m kernelEnd.toNat baseHint.toNat).mem
      (startBase kernelEnd.toNat baseHint.toNat)
      ([] ++ [⟨startBase kernelEnd.toNat baseHint.toNat, heapSize - headerSize, false⟩]) 0 :=
    seg_start m h0
  exact hseg.firstFit_eq (List.forall_mem_nil _) ⟨rfl, hn⟩ (Nat.two_pow_pos 32)

/-- The invariant in every reachable state. -/
theorem reachable_inv {m : Mem} {kernelEnd baseHint : UInt32}
    (hR : Region (startBase kernelEnd.toNat baseHint.toNat))
    (hs : (clientLts m kernelEnd baseHint).Reachable s) :
    ∃ A, s.Inv (startBase kernelEnd.toNat baseHint.toNat) A := by
  have hle := startBase_lt kernelEnd baseHint
  refine hs.induct (I := fun s => ∃ A, s.Inv (startBase kernelEnd.toNat baseHint.toNat) A)
    ?_ fun _ _ _ ⟨_, hI⟩ hst => hI.step hR hst
  rintro _ rfl
  exact ⟨_, inv_start m hR.pos.ne' (by unfold headerSize; omega)⟩

/-- The walk through a heap visits its blocks. -/
theorem Holds.blocks_eq {h : Heap} {bs : List Block} (H : Holds base h bs) :
    h.blocks = some bs := by
  have hs : heapSize = 4194304 := rfl
  have hlen := H.tiles.length_eq
  simp only [layout, headerSize] at hlen
  rw [blocks, H.first]
  exact H.seg.walk_eq (by unfold walkFuel; omega)

/-- A heap that holds an arena is well formed. -/
theorem wellFormed_of_holds (hR : Room base) {h : Heap} (H : Holds base h A.blocks) :
    WellFormed h A.blocks := by
  have hlen := H.tiles.length_eq
  have hend : h.heapEnd = h.base + heapSize := by
    rw [H.heapEnd_eq, H.base_eq, u32_of_lt hR.lt]
  have hbase := H.base_eq
  simp only [layout, headerSize] at hlen
  refine ⟨H.blocks_eq, hend, ?_, ?_, fun b hb => (H.seg.header hb).1, ?_, A.coalesced,
    H.bytesUsed, H.bytesFree, ?_, H.count⟩
  · rw [hend, hbase]; exact H.tiles
  · rintro pre b post hbs
    have H' : Holds base h (pre ++ b :: post) := hbs ▸ H
    have hn := H'.next_eq
    have ht := H'.tiles
    cases post with
    | nil => simpa using hn
    | cons c post =>
      obtain ⟨-, -, -, hc, -⟩ := tiles_append.1 ht
      rw [if_neg (by simp), hn.1, hc]
      rfl
  · intro b hb
    have := H.tiles.dvd_addr hR.aligned A.aligned b hb
    exact Nat.dvd_add this (by decide)
  · have := bytes_usedBlocks_add A.blocks
    rw [H.bytesUsed, H.bytesFree, headerSize]
    omega

/-- A heap that is well formed from the start has its region past address zero and inside the
address space. -/
theorem room_of_wellFormed {m : Mem} {kernelEnd baseHint : UInt32} {bs : List Block}
    (hw : WellFormed (start m kernelEnd.toNat baseHint.toNat) bs) :
    0 < pageUp kernelEnd.toNat baseHint.toNat ∧
      pageUp kernelEnd.toNat baseHint.toNat + heapSize < 2 ^ 32 := by
  -- a heap at address zero has no first block
  have hpos : startBase kernelEnd.toNat baseHint.toNat ≠ 0 := by
    intro h0
    have hwalk := hw.walk
    have htiles := hw.tiles
    rw [hw.region] at htiles
    rw [blocks, start, h0, walk_zero, Option.some.injEq] at hwalk
    rw [← hwalk] at htiles
    simp [start, h0, heapSize] at htiles
  have hend := hw.region
  have hlt : u32 (startBase kernelEnd.toNat baseHint.toNat + heapSize) < 2 ^ 32 := u32_lt _
  simp only [start] at hend
  rw [hend] at hlt
  exact room_of_base hpos hlt

/-- **The heap is well formed in every reachable state of its clients** exactly when `Heap::Start`
finds room for it: past address zero and without wrapping the 32-bit address space. -/
theorem wellFormed_iff (m : Mem) (kernelEnd baseHint : UInt32) :
    (∀ s, (clientLts m kernelEnd baseHint).Reachable s → ∃ bs, WellFormed s.heap bs) ↔
      0 < pageUp kernelEnd.toNat baseHint.toNat ∧
        pageUp kernelEnd.toNat baseHint.toNat + heapSize < 2 ^ 32 := by
  constructor
  · intro h
    obtain ⟨bs, hw⟩ := h ⟨start m kernelEnd.toNat baseHint.toNat, []⟩ (.of_init rfl)
    exact room_of_wellFormed hw
  · rintro ⟨hpos, hfit⟩ s hs
    have hR := room_start hpos hfit
    obtain ⟨A, hI⟩ := reachable_inv hR.toRegion hs
    exact ⟨_, wellFormed_of_holds hR hI.holds⟩

/-- A module that ends in the last page pushes the heap over the end of the address space: its
base is rounded up to address zero, where a pointer is `NULL`. -/
theorem not_wellFormed_last_page :
    ¬ ∀ s, (clientLts (fun _ => 0) 0x200000 0xFFFFF001).Reachable s →
      ∃ bs, WellFormed s.heap bs := by
  intro h
  obtain ⟨bs, hw⟩ := h _ (.of_init rfl)
  exact absurd (room_of_wellFormed hw) (by decide)

end Heap

end Shiro
