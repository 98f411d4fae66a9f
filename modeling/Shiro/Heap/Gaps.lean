import Shiro.Heap.Canon
import Shiro.Heap.Grant
import Shiro.Lib.FreeSpace

/-!
# `Alloc` and the free space

`Alloc` looks for one free block that is large enough.  Its law speaks of the bytes of the heap that
no live block covers: it returns `NULL` exactly when no run of them holds a header and the rounded
request, and otherwise it takes the front of the lowest run that does.

* `Client.Gap`, `Client.LowestGap` : the free space in terms of the live blocks.
* `AllocLaw` : the law, for one call.
* `allocLaw_iff` : **it holds in every reachable state** exactly when the heap region does not wrap.
-/

namespace Shiro

open FreeList

namespace Heap

/-- The bytes of the live blocks: headers and payloads. -/
def Client.covered (s : Client) : Set ℕ :=
  {x | ∃ r ∈ s.liveBlocks, r.1 - headerSize ≤ x ∧ x < r.1 + r.2}

/-- `[a, e)` is a maximal run of bytes of the heap outside of the live blocks. -/
def Client.Gap (s : Client) (a e : ℕ) : Prop := MaxRun s.covered s.heap.base s.heap.heapEnd a e

/-- `a` is the front of the lowest run that holds a header and `Round(n)` bytes. -/
structure Client.LowestGap (s : Client) (n a : ℕ) : Prop where
  exists_gap : ∃ e, s.Gap a e ∧ headerSize + round n ≤ e - a
  lowest : ∀ a' e, s.Gap a' e → headerSize + round n ≤ e - a' → a ≤ a'

/-- What `Alloc(n)` returns and changes, in terms of the free space. -/
structure AllocLaw (s : Client) (n : ℕ) (h' : Heap) (p : ℕ) : Prop where
  /-- It returns `NULL` exactly when every run is too short. -/
  null_iff : p = 0 ↔ ∀ a e, s.Gap a e → e - a < headerSize + round n
  /-- Then it changes nothing. -/
  null : p = 0 → h' = s.heap
  /-- Otherwise the block is at the front of the lowest run that is long enough, it is at most 32
  bytes larger than `Round(n)`, and the other live blocks stay as they are. -/
  grant : p ≠ 0 → ∃ a k, p = a + headerSize ∧ s.LowestGap n a ∧ round n ≤ k ∧ k ≤ round n + 32 ∧
    Client.liveBlocks ⟨h', (p, n) :: s.live⟩ = insert (p, k) s.liveBlocks

/-- `Alloc` keeps to the law, whatever a client asks for. -/
def AllocLawful (s : Client) : Prop :=
  ∀ n ≤ 0xFFFFFFF8, ∃ h' p, s.heap.alloc n = some (h', p) ∧ AllocLaw s n h' p

variable {base : ℕ} {s : Client} {A : Arena (layout base)} {m : Mem} {a e n : ℕ}
  {kernelEnd baseHint : UInt32}

/-! ### The free space of the arena -/

theorem Client.Inv.covered_eq (hI : s.Inv base A) : s.covered = A.covered := by
  ext x
  constructor
  · rintro ⟨r, hr, hlo, hhi⟩
    obtain ⟨b, hb, rfl⟩ := hI.mem_liveBlocks.1 hr
    exact ⟨b, hb, by simpa using hlo, hhi⟩
  · rintro ⟨b, hb, hlo, hhi⟩
    exact ⟨_, hI.mem_liveBlocks.2 ⟨b, hb, rfl⟩, by simpa using hlo, hhi⟩

theorem Client.Inv.gap_iff (hR : Room base) (hI : s.Inv base A) :
    s.Gap a e ↔ MaxRun A.covered base (base + heapSize) a e := by
  rw [Gap, hI.covered_eq, hI.holds.base_eq, hI.holds.heapEnd_eq, u32_of_lt hR.lt]

theorem Client.Inv.lowestGap (hR : Room base) (hI : s.Inv base A)
    (h : A.LowestRun (round n) a) : s.LowestGap n a := by
  obtain ⟨⟨e, hrun, hlong⟩, hlowest⟩ := h
  exact ⟨⟨e, (hI.gap_iff hR).2 hrun, hlong⟩, fun a' e' hgap => hlowest a' e' ((hI.gap_iff hR).1 hgap)⟩

/-- A new live block. -/
theorem Client.Inv.liveBlocks_alloc (hI : s.Inv base A) {A' : Arena (layout base)} {h' : Heap}
    {p : ℕ} {b : Block} (hI' : Client.Inv base ⟨h', (p, n) :: s.live⟩ A')
    (hp : p = b.addr + headerSize) (hused : ∀ c, c ∈ A'.used ↔ c = b ∨ c ∈ A.used) :
    Client.liveBlocks ⟨h', (p, n) :: s.live⟩ = insert (p, b.size) s.liveBlocks := by
  ext r
  rw [hI'.mem_liveBlocks, Set.mem_insert_iff, hI.mem_liveBlocks]
  constructor
  · rintro ⟨c, hc, rfl⟩
    rcases (hused c).1 hc with rfl | hc
    · exact .inl (by rw [hp])
    · exact .inr ⟨c, hc, rfl⟩
  · rintro (rfl | ⟨c, hc, rfl⟩)
    · exact ⟨b, (hused b).2 (.inl rfl), by rw [hp]⟩
    · exact ⟨c, (hused c).2 (.inr hc), rfl⟩

/-- **A heap that holds an arena keeps to the law.** -/
theorem Client.Inv.lawful (hR : Room base) (hI : s.Inv base A) : AllocLawful s := by
  intro n _
  have href := alloc_refines hR.toRegion hI.holds n
  split at href
  · rename_i hnone
    refine ⟨s.heap, 0, href, iff_of_true rfl fun a e hgap => ?_, fun _ => rfl, fun h => absurd rfl h⟩
    exact Arena.alloc_eq_none_iff.1 hnone a e ((hI.gap_iff hR).1 hgap)
  · rename_i a A' hsome
    obtain ⟨h', halloc, H⟩ := href
    obtain ⟨hlow, b, rfl, hle, hslack, hused⟩ := Arena.alloc_spec hsome
    have hlowest := hI.lowestGap hR hlow
    have hp : b.addr + headerSize ≠ 0 := by unfold headerSize; omega
    refine ⟨h', _, halloc, iff_of_false hp fun hall => ?_, fun h => absurd h hp, fun _ => ?_⟩
    · obtain ⟨e, hgap, hlong⟩ := hlowest.exists_gap
      have := hall _ e hgap
      omega
    · exact ⟨b.addr, b.size, rfl, hlowest, hle, hslack,
        hI.liveBlocks_alloc (hI.alloc_some hsome H) rfl hused⟩

/-! ### Exactly when -/

/-- In a heap without room the first call breaks the law: at address zero it returns `NULL`, and
past a wrapped end it finds a block where there is no heap. -/
theorem not_lawful_start (hR : ¬ Room (startBase kernelEnd.toNat baseHint.toNat)) :
    ¬ AllocLawful ⟨start m kernelEnd.toNat baseHint.toNat, []⟩ := by
  intro hlaw
  obtain ⟨h', p, halloc, hnull, -, -⟩ := hlaw 8 (by decide)
  have hcovered : Client.covered ⟨start m kernelEnd.toNat baseHint.toNat, []⟩ = ∅ := by
    ext x
    simp [Client.covered, Client.liveBlocks, Client.Live]
  rcases not_room hR with h0 | hwrap
  · rw [start_zero h0, Option.some.injEq, Prod.mk.injEq] at halloc
    have hshort := hnull.1 halloc.2.symm 0 heapSize
    have hgap : Client.Gap ⟨start m kernelEnd.toNat baseHint.toNat, []⟩ 0 heapSize := by
      have hbase : (start m kernelEnd.toNat baseHint.toNat).base = 0 := h0
      have hend : (start m kernelEnd.toNat baseHint.toNat).heapEnd = heapSize := by
        show u32 (startBase kernelEnd.toNat baseHint.toNat + heapSize) = heapSize
        rw [h0]
        rfl
      rw [Client.Gap, hcovered, hbase, hend]
      exact ⟨le_rfl, by decide, le_rfl, fun _ _ _ h => h, .inl rfl, .inl rfl⟩
    exact absurd (hshort hgap) (by decide)
  · have h0 : startBase kernelEnd.toNat baseHint.toNat ≠ 0 := by omega
    obtain ⟨h'', halloc', -⟩ := start_alloc (m := m) (n := 8) h0 (by decide)
    rw [halloc', Option.some.injEq, Prod.mk.injEq] at halloc
    -- the region is empty, so there is no run at all
    have hzero : p = 0 := hnull.2 fun a e hgap => by
      have h1 := hgap.lo_le
      have h2 := hgap.lt
      have h3 := hgap.le_hi
      change startBase _ _ ≤ a at h1
      change e ≤ u32 (_ + heapSize) at h3
      omega
    exact absurd (halloc.2.trans hzero) (by unfold headerSize; omega)

/-- **`Alloc` takes the front of the lowest run of free bytes that is long enough**, in every
reachable state, exactly when the heap has room past address zero without wrapping. -/
theorem allocLaw_iff (m : Mem) (kernelEnd baseHint : UInt32) :
    (∀ s, (clientLts m kernelEnd baseHint).Reachable s → AllocLawful s) ↔
      0 < pageUp kernelEnd.toNat baseHint.toNat ∧
        pageUp kernelEnd.toNat baseHint.toNat + heapSize < 2 ^ 32 := by
  constructor
  · intro hall
    have hR : Room (startBase kernelEnd.toNat baseHint.toNat) := by
      by_contra hR
      exact not_lawful_start hR (hall _ (.of_init rfl))
    exact room_of_base hR.pos.ne' hR.lt
  · rintro ⟨hpos, hfit⟩ s hs
    have hR := room_start hpos hfit
    obtain ⟨A, hI⟩ := reachable_inv hR.toRegion hs
    exact hI.lawful hR

/-- A heap that starts 64 KiB below the end of the address space grants eight bytes, although no
byte lies between its base and its end. -/
theorem not_allocLaw_wrapped :
    ¬ ∀ (m : Mem) (kernelEnd baseHint : UInt32) s,
      (clientLts m kernelEnd baseHint).Reachable s → AllocLawful s := by
  intro hall
  have hR : ¬ Room (startBase (0x200000 : UInt32).toNat (0xFFFF0000 : UInt32).toNat) :=
    fun hR => absurd hR.lt (by decide)
  exact not_lawful_start hR (hall (fun _ => 0) _ _ _ (.of_init rfl))

end Heap

end Shiro
