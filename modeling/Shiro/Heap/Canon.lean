import Mathlib.Data.Set.Insert
import Shiro.Heap.Run

/-!
# The heap forgets its history

Which blocks are live determines the heap: two histories that end with the same live blocks end
with the same block list and the same byte counters.  So the order of a series of frees does not
matter, a `Free` undoes the `Alloc` right before it, and freeing everything leaves the single
block `Heap::Start` made.

The argument is `Arena.ext_used`: coalescing leaves no choice for the free blocks.

* `Canonical` : the law and its three consequences, for the heap that a system starts with.
* `canonical_iff` : **the heap is canonical** exactly when its region does not wrap.
-/

namespace Shiro

open FreeList

namespace Heap

/-- The live blocks: payload address and payload size. -/
def Client.liveBlocks (s : Client) : Set (ℕ × ℕ) :=
  {r | s.Live r.1 ∧ r.2 = size s.heap.mem (r.1 - headerSize)}

/-- The two heaps have the same blocks and byte counters. -/
structure SameBlocks (h h' : Heap) : Prop where
  blocks : h.blocks = h'.blocks
  bytesUsed : h.bytesUsed = h'.bytesUsed
  bytesFree : h.bytesFree = h'.bytesFree

/-- The history of a heap that begins as `h₀` shows in its live blocks only. -/
structure Canonical (S : Lts Client Op) (h₀ : Heap) : Prop where
  /-- Two runs that end with the same live blocks end with the same blocks. -/
  law : ∀ s t, S.Reachable s → S.Reachable t → s.liveBlocks = t.liveBlocks →
    SameBlocks s.heap t.heap
  /-- The order in which pointers are freed does not matter. -/
  order : ∀ s t u (ps qs : List ℕ), S.Reachable s → (∀ p, p ∈ ps ↔ p ∈ qs) → S.Run s (ps.map Op.free) t →
    S.Run s (qs.map Op.free) u → SameBlocks t.heap u.heap
  /-- `Free` undoes the `Alloc` right before it. -/
  undo : ∀ s n, S.Reachable s → ∃ h' p h'', alloc s.heap (n : UInt32).toNat = some (h', p) ∧
    free h' p = some h'' ∧ SameBlocks h'' s.heap
  /-- Freeing everything gives back the initial block. -/
  all : ∀ s t (ps : List ℕ), S.Reachable s → (∀ p, s.Live p → p ∈ ps) →
    S.Run s (ps.map Op.free) t →
      SameBlocks t.heap h₀ ∧ t.heap.blocks = some [⟨h₀.base, heapSize - headerSize, false⟩]

variable {base : ℕ} {s s' t : Client} {A B : Arena (layout base)} {m : Mem}
  {kernelEnd baseHint : UInt32}

/-! ### Live blocks and used blocks -/

theorem Client.Inv.size_eq (hI : s.Inv base A) {b : Block} (hb : b ∈ A.used) :
    size s.heap.mem (b.addr + headerSize - headerSize) = b.size := by
  rw [Nat.add_sub_cancel]
  exact (hI.holds.seg.header (Arena.mem_used.1 hb).1).2.1

/-- The live blocks are the used blocks of the arena. -/
theorem Client.Inv.mem_liveBlocks (hI : s.Inv base A) {r : ℕ × ℕ} :
    r ∈ s.liveBlocks ↔ ∃ b ∈ A.used, r = (b.addr + headerSize, b.size) := by
  constructor
  · rintro ⟨hl, hk⟩
    obtain ⟨b, hb, hp⟩ := hI.mem_used hl
    rw [hp, hI.size_eq hb] at hk
    exact ⟨b, hb, Prod.ext hp hk⟩
  · rintro ⟨b, hb, rfl⟩
    exact ⟨hI.used b hb, (hI.size_eq hb).symm⟩

theorem Client.Inv.mem_used_iff (hI : s.Inv base A) {b : Block} :
    b ∈ A.used ↔ b.used = true ∧ (b.addr + headerSize, b.size) ∈ s.liveBlocks := by
  rw [hI.mem_liveBlocks]
  constructor
  · exact fun hb => ⟨(Arena.mem_used.1 hb).2, b, hb, rfl⟩
  · rintro ⟨hu, c, hc, he⟩
    obtain ⟨addr, size, used⟩ := b
    obtain ⟨caddr, csize, cused⟩ := c
    have hcu : cused = true := (Arena.mem_used.1 hc).2
    simp only [Prod.mk.injEq, Nat.add_right_cancel_iff] at he hu
    obtain ⟨rfl, rfl⟩ := he
    rwa [hu, ← hcu]

/-- Equal live blocks, equal arenas. -/
theorem Client.Inv.arena_eq (hs : s.Inv base A) (ht : t.Inv base B)
    (h : s.liveBlocks = t.liveBlocks) : A = B :=
  Arena.ext_used fun b => by rw [hs.mem_used_iff, ht.mem_used_iff, h]

theorem Holds.same {h h' : Heap} (H : Holds base h A.blocks) (H' : Holds base h' A.blocks) :
    SameBlocks h h' where
  blocks := H.blocks_eq.trans H'.blocks_eq.symm
  bytesUsed := H.bytesUsed.trans H'.bytesUsed.symm
  bytesFree := H.bytesFree.trans H'.bytesFree.symm

theorem Client.Inv.same (hs : s.Inv base A) (ht : t.Inv base B)
    (h : s.liveBlocks = t.liveBlocks) : SameBlocks s.heap t.heap := by
  obtain rfl := hs.arena_eq ht h
  exact hs.holds.same ht.holds

/-! ### What `Free` takes away -/

/-- **A `Free` takes its block from the live blocks and leaves the others.** -/
theorem Client.Inv.liveBlocks_free (hR : Region base) (hI : s.Inv base A) {p : ℕ}
    (hst : s.Step (.free p) s') {r : ℕ × ℕ} :
    r ∈ s'.liveBlocks ↔ r ∈ s.liveBlocks ∧ r.1 ≠ p := by
  cases hst with
  | @free _ h' hp hf =>
  rcases eq_or_ne p 0 with rfl | h0
  · have hne : ∀ r ∈ s.liveBlocks, r.1 ≠ 0 := by
      intro r hr
      obtain ⟨b, -, rfl⟩ := hI.mem_liveBlocks.1 hr
      simp [headerSize]
    rw [Heap.free, if_pos (by simp), Option.some.injEq] at hf
    subst hf
    simp only [liveBlocks, Live, Set.mem_ofPred_eq, List.mem_filter] at *
    constructor
    · rintro ⟨⟨n, hn, h0⟩, hk⟩
      exact ⟨⟨⟨n, hn⟩, hk⟩, by simpa using h0⟩
    · rintro ⟨⟨⟨n, hn⟩, hk⟩, h0⟩
      exact ⟨⟨n, hn, by simpa using h0⟩, hk⟩
  · obtain ⟨b, hb, rfl⟩ := hI.mem_used (hp.resolve_left h0)
    have hI' := hI.free hR hb hf
    rw [hI'.mem_liveBlocks, hI.mem_liveBlocks]
    constructor
    · rintro ⟨c, hc, rfl⟩
      obtain ⟨hc, hne⟩ := (Arena.mem_used_free hb c).1 hc
      refine ⟨⟨c, hc, rfl⟩, fun hcb => hne ?_⟩
      exact A.eq_of_addr hc hb (by simpa using hcb)
    · rintro ⟨⟨c, hc, rfl⟩, hne⟩
      exact ⟨c, (Arena.mem_used_free hb c).2 ⟨hc, fun hcb => hne (by rw [hcb])⟩, rfl⟩

/-- What a series of frees leaves of the live blocks does not depend on its order. -/
theorem Client.Inv.run_free {m : Mem} (hR : Region base) (hI : s.Inv base A) {ps : List ℕ}
    (hr : (clientLts m kernelEnd baseHint).Run s (ps.map Op.free) t) :
    (∃ B, t.Inv base B) ∧ ∀ r, r ∈ t.liveBlocks ↔ r ∈ s.liveBlocks ∧ r.1 ∉ ps := by
  generalize hl : ps.map Op.free = ls at hr
  induction hr generalizing ps with
  | nil =>
    obtain rfl := List.map_eq_nil_iff.1 hl
    exact ⟨⟨A, hI⟩, by simp⟩
  | @snoc ls t u l _ hst ih =>
    obtain ⟨qs, q, rfl⟩ : ∃ qs q, ps = qs ++ [q] := by
      rcases List.eq_nil_or_concat ps with rfl | ⟨qs, q, rfl⟩
      · simp at hl
      · exact ⟨qs, q, List.concat_eq_append⟩
    rw [List.map_append] at hl
    obtain ⟨hls, hq⟩ := List.append_inj' hl rfl
    cases hq
    obtain ⟨⟨B, hB⟩, hmem⟩ := ih hls
    refine ⟨hB.step hR hst, fun r => ?_⟩
    rw [hB.liveBlocks_free hR hst, hmem, List.mem_append, List.mem_singleton, not_or, and_assoc]

/-! ### The law -/

theorem free_undoes_alloc (hR : Region base) (hI : s.Inv base A) (n : ℕ) :
    ∃ h' p h'', alloc s.heap n = some (h', p) ∧ free h' p = some h'' ∧
      SameBlocks h'' s.heap := by
  have href := alloc_refines hR hI.holds n
  split at href
  · exact ⟨s.heap, 0, s.heap, href, by rw [free, if_pos (by simp)], ⟨rfl, rfl, rfl⟩⟩
  · rename_i a A' hA
    obtain ⟨h', ha, H⟩ := href
    obtain ⟨b, -, -, rfl, -, hused⟩ := Arena.mem_used_alloc hA
    obtain ⟨h'', hf, H'⟩ := free_refines hR H ((hused _).2 (.inl rfl))
    have hundo : A'.free (granted (layout base) (round n) b).addr = A := Arena.free_alloc hA
    rw [hundo] at H'
    exact ⟨h', _, h'', ha, hf, H'.same hI.holds⟩

/-- **In a region inside the address space the heap is canonical.** -/
theorem canonical_of_region (m : Mem)
    (hR : Region (startBase kernelEnd.toNat baseHint.toNat)) :
    Canonical (clientLts m kernelEnd baseHint) (start m kernelEnd.toNat baseHint.toNat) := by
  have hle := startBase_lt kernelEnd baseHint
  have hstart := inv_start m hR.pos.ne' (by unfold headerSize; omega)
  refine ⟨fun s t hs ht h => ?_, fun s t u ps qs hs hpq ht hu => ?_, fun s n hs => ?_,
    fun s t ps hs hps ht => ?_⟩
  · obtain ⟨A, hA⟩ := reachable_inv hR hs
    obtain ⟨B, hB⟩ := reachable_inv hR ht
    exact hA.same hB h
  · obtain ⟨A, hA⟩ := reachable_inv hR hs
    obtain ⟨⟨B, hB⟩, hBl⟩ := hA.run_free hR ht
    obtain ⟨⟨C, hC⟩, hCl⟩ := hA.run_free hR hu
    exact hB.same hC (Set.ext fun r => by rw [hBl, hCl, hpq])
  · obtain ⟨A, hA⟩ := reachable_inv hR hs
    exact free_undoes_alloc hR hA n.toNat
  · obtain ⟨A, hA⟩ := reachable_inv hR hs
    obtain ⟨⟨B, hB⟩, hBl⟩ := hA.run_free hR ht
    have hsame := hB.same hstart <| Set.ext fun r => by
      rw [hBl]
      constructor
      · exact fun ⟨hr, hn⟩ => absurd (hps _ hr.1) hn
      · exact fun ⟨⟨n, hn⟩, _⟩ => by cases hn
    refine ⟨hsame, hsame.blocks.trans ?_⟩
    rw [hstart.holds.blocks_eq, startArena_blocks]
    rfl

/-! ### Exactly when -/

/-- A heap at address zero has no first block. -/
theorem base_ne_zero_of_canonical
    (hcan : Canonical (clientLts m kernelEnd baseHint) (start m kernelEnd.toNat baseHint.toNat)) :
    startBase kernelEnd.toNat baseHint.toNat ≠ 0 := by
  intro h0
  have hblocks := (hcan.all ⟨_, []⟩ ⟨_, []⟩ [] (.of_init rfl) (fun _ ⟨_, hn⟩ => by cases hn) .nil).2
  have hfirst : (start m kernelEnd.toNat baseHint.toNat).first = 0 := h0
  rw [blocks, hfirst, walk_zero] at hblocks
  cases hblocks

/-- The first `Alloc` splits the heap, whether or not the region wraps. -/
theorem start_alloc_split (m : Mem) (h0 : startBase kernelEnd.toNat baseHint.toNat ≠ 0) {n : ℕ}
    (hn : round n + 32 < heapSize - headerSize) :
    alloc (start m kernelEnd.toNat baseHint.toNat) n =
      some (claim (split (start m kernelEnd.toNat baseHint.toNat)
        (startBase kernelEnd.toNat baseHint.toNat) (round n)
          (heapSize - headerSize - round n)) (startBase kernelEnd.toNat baseHint.toNat),
        startBase kernelEnd.toNat baseHint.toNat + headerSize) := by
  have hs : heapSize = 4194304 := rfl
  have hle := startBase_lt kernelEnd baseHint
  have hsize : size (start m kernelEnd.toNat baseHint.toNat).mem
      (startBase kernelEnd.toNat baseHint.toNat) = heapSize - headerSize :=
    (seg_start m h0).2.2.1.2.1
  have hleft : sub32 (heapSize - headerSize) (round n) = heapSize - headerSize - round n :=
    sub32_of_le (by omega) (by omega)
  rw [alloc, if_neg (by simp [start])]
  simp only [firstFit_start m h0 (n := round n) (by omega), Option.map_some, h0, ↓reduceIte, hsize,
    hleft]
  rw [if_pos (by unfold headerSize at *; omega), u32_of_lt (by unfold headerSize; omega)]

/-- The header of a block that was cut down to `n` bytes. -/
theorem header_claim_split (h : Heap) {b n : ℕ} (l : ℕ) (hb : b + 16 ≤ 2 ^ 32) (hn : n < 2 ^ 32) :
    size (claim (split h b n l) b).mem b = n ∧
      next (claim (split h b n l) b).mem b = u32 (b + headerSize + n) := by
  have htail := u32_lt (b + headerSize + n)
  simp only [claim, split, size, next]
  simp (disch := omega) only [Mem.read32_write32, Mem.read32_write32_of_disjoint]
  exact ⟨trivial, trivial⟩

/-- `Free` of a first block without a successor leaves its size. -/
theorem size_free_of_alone {h h' : Heap} {b : ℕ} (hf : free h (b + headerSize) = some h')
    (hlt : b + 16 < 2 ^ 32) (hfirst : h.first = b) (hnext : next h.mem b = 0) :
    size h'.mem b = size h.mem b ∧ h'.first = b := by
  have hsub : sub32 (b + headerSize) headerSize = b := by
    rw [sub32, headerSize, u32]
    omega
  have hrel : size (release h b).mem b = size h.mem b :=
    Mem.read32_write32_of_disjoint (by omega) (by omega) (by omega)
  have hrelNext : next (release h b).mem b = 0 :=
    (Mem.read32_write32_of_disjoint (by omega) (by omega) (by omega)).trans hnext
  have hforward : coalesceForward (release h b) b = release h b := if_neg (by simp [hrelNext])
  have hprev : findPrev (release h b).mem b walkFuel b 0 = some 0 := if_pos (.inr rfl)
  have hback : coalesceBackward (release h b) b = some (release h b) := by
    have hfirst' : (release h b).first = b := hfirst
    rw [coalesceBackward, hfirst', hprev]
    rfl
  rw [free, hsub] at hf
  dsimp only at hf
  rw [hforward, hback] at hf
  split at hf
  · cases hf
    exact ⟨rfl, hfirst⟩
  split at hf
  · cases hf
    exact ⟨rfl, hfirst⟩
  split at hf
  · cases hf
    exact ⟨rfl, hfirst⟩
  · cases hf
    exact ⟨hrel, hfirst⟩

/-- The first block of a walk has the size in its header. -/
theorem size_of_walk {m : Mem} {a : ℕ} {b : Block} {bs : List Block}
    (h : walk m walkFuel a = some (b :: bs)) : size m a = b.size := by
  have hstep : walk m walkFuel a = if a = 0 then some []
    else (walk m (2 ^ 32 - 1) (next m a)).map (⟨a, size m a, used m a != 0⟩ :: ·) := rfl
  rw [hstep] at h
  split at h
  · cases h
  · obtain ⟨cs, -, heq⟩ := Option.map_eq_some_iff.1 h
    injection heq with hb
    exact congrArg Block.size hb

/-- In a heap that wraps, the request that ends at the last address puts the header of the rest at
address zero: the list ends there, and `Free` does not bring the rest back. -/
theorem not_canonical_of_wraps (m : Mem) (h0 : startBase kernelEnd.toNat baseHint.toNat ≠ 0)
    (hwrap : 2 ^ 32 < startBase kernelEnd.toNat baseHint.toNat + heapSize) :
    ¬ Canonical (clientLts m kernelEnd baseHint) (start m kernelEnd.toNat baseHint.toNat) := by
  intro hcan
  have hs : heapSize = 4194304 := rfl
  have hH : headerSize = 16 := rfl
  have hle := startBase_lt kernelEnd baseHint
  have hpage := dvd_startBase kernelEnd baseHint
  have halloc := fun n => start_alloc_split (n := n) m h0
  have hstart := start_blocks m h0
  rw [startArena_blocks] at hstart
  have hfirst : (start m kernelEnd.toNat baseHint.toNat).first =
      startBase kernelEnd.toNat baseHint.toNat := rfl
  generalize startBase kernelEnd.toNat baseHint.toNat = base at *
  have hround : round (2 ^ 32 - base - 16) = 2 ^ 32 - base - 16 := by
    rw [round_eq]
    unfold u32
    omega
  have hn : (UInt32.ofNat (2 ^ 32 - base - 16)).toNat = 2 ^ 32 - base - 16 :=
    UInt32.toNat_ofNat_of_lt (by unfold UInt32.size; omega)
  obtain ⟨h', p, h'', ha, hf, hsame⟩ :=
    hcan.undo ⟨_, []⟩ (UInt32.ofNat (2 ^ 32 - base - 16)) (.of_init rfl)
  rw [hn, halloc _ (by rw [hround]; omega), hround, Option.some.injEq, Prod.mk.injEq] at ha
  obtain ⟨rfl, rfl⟩ := ha
  -- the header of the rest is at address zero, so the first block has no successor
  have htail : u32 (base + headerSize + (2 ^ 32 - base - 16)) = 0 := by
    unfold u32
    omega
  obtain ⟨hsize, hnext⟩ := header_claim_split (start m kernelEnd.toNat baseHint.toNat) (b := base)
    (n := 2 ^ 32 - base - 16) (heapSize - headerSize - (2 ^ 32 - base - 16)) (by omega) (by omega)
  obtain ⟨hkeep, hfirst'⟩ := size_free_of_alone hf (by omega) hfirst (hnext.trans htail)
  have hblocks := hsame.blocks.trans hstart
  rw [blocks, hfirst'] at hblocks
  have hlast := (hkeep.trans hsize).symm.trans (size_of_walk hblocks)
  dsimp only at hlast
  omega

/-- **The heap forgets its history** exactly when its region lies past address zero and inside the
32-bit address space. -/
theorem canonical_iff (m : Mem) (kernelEnd baseHint : UInt32) :
    Canonical (clientLts m kernelEnd baseHint) (start m kernelEnd.toNat baseHint.toNat) ↔
      0 < pageUp kernelEnd.toNat baseHint.toNat ∧
        pageUp kernelEnd.toNat baseHint.toNat + heapSize ≤ 2 ^ 32 := by
  constructor
  · intro hcan
    have h0 := base_ne_zero_of_canonical hcan
    have hle : startBase kernelEnd.toNat baseHint.toNat + heapSize ≤ 2 ^ 32 :=
      Nat.le_of_not_lt fun hwrap => not_canonical_of_wraps m h0 hwrap hcan
    rw [startBase_eq kernelEnd.toNat_lt baseHint.toNat_lt] at h0 hle
    have h1 := kernelEnd.toNat_lt
    have h2 := baseHint.toNat_lt
    unfold u32 pageUp at *
    omega
  · exact fun ⟨hpos, hfit⟩ => canonical_of_region m (region_start hpos hfit)

/-- The last four mebibytes of the address space are room enough. -/
example : Canonical (clientLts (fun _ => 0) 0x200000 0xFFC00000)
    (start (fun _ => 0) 0x200000 0xFFC00000) :=
  canonical_of_region _ (region_start (by decide) (by decide))

/-- In a heap that starts 64 KiB below the end of the address space, a split can put a header at
address zero: the list ends there, and freeing the block does not bring the rest back. -/
theorem not_canonical_wrapped :
    ¬ Canonical (clientLts (fun _ => 0) 0x200000 0xFFFF0000)
      (start (fun _ => 0) 0x200000 0xFFFF0000) :=
  not_canonical_of_wraps _ (by decide) (by decide)

end Heap

end Shiro
