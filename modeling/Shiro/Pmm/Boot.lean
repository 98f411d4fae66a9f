import Shiro.Heap.Run
import Shiro.Pmm.Count
import Shiro.Pmm.Range

/-!
# Memory at boot

`shiro_main` looks for the end of the last boot module, puts the heap behind it, and gives the
memory manager the range from the kernel to the end of the heap.  The pages that are free then are
those the memory map calls available, less the first MiB, the kernel and the heap.

Two things can go wrong on the way.  `MarkRangeFree` truncates the page number behind an entry to
32 bits before it compares it with the size of the bitmap, so an entry that ends at `2 ^ 44`
exactly frees nothing; and the heap header is written before the memory map is read, so it must
not lie on a word that the memory manager reads of the info block.

* `boot` : the first two steps of `shiro_main`.
* `bootPages` : the pages that should be free.
* `BootSound` : the free pages are these, and only these are ever handed out.
* `InfoClear` : the heap header lies on none of the words that are read behind its store.
* `boot_sound_iff` : **exactly when** the boot is sound, for an info block that is clear so.
-/

namespace Shiro

open Multiboot

/-! ### The first steps of `shiro_main` -/

/-- The body of the loop that looks for the end of the last boot module. -/
def preScanTag (m : Mem) (tag acc : ℕ) : ℕ :=
  if m.read32 tag = tagModule then
    let modEnd := m.read32 (tag + 12)
    if modEnd > acc then modEnd else acc
  else acc

/-- Step 1a: the end of the last boot module. -/
def preScan (m : Mem) (mbi : ℕ) : Option ℕ :=
  if mbi = 0 then some 0
  else walkTags m (fun tag acc => some (.yield (preScanTag m tag acc))) walkFuel (mbi + 8) 0

/-- Steps 1 and 2 of `shiro_main`: the heap, then the memory manager. -/
def boot (m : Mem) (mbi kernelStart kernelEnd : ℕ) : Option (Heap × Pmm) :=
  (preScan m mbi).bind fun initrdEnd =>
    let h := Heap.start m kernelEnd initrdEnd
    (Pmm.start h.mem mbi kernelStart h.heapEnd Pmm.init).map fun s => (h, s)

namespace Pmm

/-! ### What should hold -/

/-- The pages that should be free after boot: inside an available entry, clear of the first MiB and
of the kernel and heap. -/
def bootPages (m : Mem) (ts : List Tag) (kernelStart heapEnd : ℕ) : Finset ℕ :=
  (Finset.range maxPages).filter fun p =>
    (∃ e ∈ available m ts, Inside p e.base (e.base + e.length)) ∧
      ¬ Meets p 0 0x100000 ∧ ¬ Meets p kernelStart heapEnd

/-- Only pages that are handed out are freed. -/
def Careful (t : Session) : PageOp → Prop
  | .alloc _ _ => True
  | .free a => a.toNat / pageSize ∈ t.out

/-- The memory manager after boot knows exactly the pages that should be free, and hands out no
others. -/
structure BootState (m : Mem) (ts : List Tag) (kernelStart kernelEnd : ℕ) (h : Heap) (s : Pmm) :
    Prop where
  freeSet : s.freeSet = bootPages m ts kernelStart h.heapEnd
  freePages : s.freePages = (bootPages m ts kernelStart h.heapEnd).card
  alloc : ∀ ls t, ((pageLts s).guard Careful).Run ⟨s, ∅⟩ ls t → ∀ r page, .alloc r page ∈ ls →
    r ≠ 0 → ∃ p ∈ bootPages m ts kernelStart h.heapEnd, r = p * pageSize ∧
      ¬ Meets p kernelStart kernelEnd ∧ ¬ Meets p h.base h.heapEnd ∧
        ∀ x ∈ modules m ts, ¬ Meets p x.1 x.2

/-- Boot ends, in such a state. -/
def BootSound (m : Mem) (mbi : ℕ) (ts : List Tag) (kernelStart kernelEnd : ℕ) : Prop :=
  ∃ h s, boot m mbi kernelStart kernelEnd = some (h, s) ∧
    BootState m ts kernelStart kernelEnd h s

/-- Every page above the heap that lies in an available entry ending at `2 ^ 44` also lies in one
that ends below. -/
def TopCovered (m : Mem) (ts : List Tag) (heapEnd : ℕ) : Prop :=
  ∀ p < maxPages, heapEnd ≤ p * pageSize → ∀ e ∈ available m ts, e.base + e.length = 2 ^ 44 →
    Inside p e.base (e.base + e.length) →
      ∃ e' ∈ available m ts, e'.base + e'.length < 2 ^ 44 ∧ Inside p e'.base (e'.base + e'.length)

/-! ### Rounding -/

/-- A range that ends below `2 ^ 44` has page numbers that can be cut. -/
theorem narrows_of_lt {first last : ℕ} (h : last < 2 ^ 32) : Narrows first last := by
  unfold Narrows
  split <;> omega

/-- **`MarkRangeFree` visits the pages inside its range**, for a range that ends below `2 ^ 44`. -/
theorem mem_inwardPages {addr size p : ℕ} (h : addr + size < 2 ^ 44) :
    p ∈ inwardPages addr size ↔ p < maxPages ∧ Inside p addr (addr + size) := by
  have hpage : pageSize = 4096 := rfl
  refine (freeExact_iff (by omega) (by omega)).1 ?_ p
  rw [FreeExact, if_neg (by omega), hpage]
  exact ⟨by omega, narrows_of_lt (by omega)⟩

/-- For a range that ends at `2 ^ 44` it visits none. -/
theorem inwardPages_top {addr size : ℕ} (h : addr + size = 2 ^ 44) : inwardPages addr size = [] := by
  refine List.eq_nil_iff_forall_not_mem.2 fun p hp => ?_
  rw [inwardPages_eq, mem_pagesBetween_mul, h] at hp
  have hzero : u64 (2 ^ 44) / 4096 % 2 ^ 32 = 0 := rfl
  omega

/-- **`MarkRangeUsed` visits the pages that meet its range.** -/
theorem mem_outwardPages {addr size p : ℕ} (hsize : 0 < size) (h : addr + size ≤ 2 ^ 32) :
    p ∈ outwardPages addr size ↔ p < maxPages ∧ Meets p addr (addr + size) := by
  have hpage : pageSize = 4096 := rfl
  refine (useExact_iff (by omega) (by omega) hsize).1 ?_ p
  rw [UseExact, if_neg (by omega), hpage]
  exact narrows_of_lt (by omega)

/-! ### What boot does -/

variable {m m' : Mem} {mbi kernelStart heapEnd : ℕ} {ts : List Tag} {s : Pmm} {p : ℕ}

theorem mem_freeSet_frees (es : List Entry) (s : Pmm) :
    p ∈ ((es.flatMap fun e => freeTouches e.base e.length).foldl touch s).freeSet ↔
      p ∈ s.freeSet ∨ ∃ e ∈ es, p ∈ inwardPages e.base e.length := by
  induction es generalizing s with
  | nil => simp
  | cons e es ih =>
    rw [List.flatMap_cons, List.foldl_append, ih, ← markRangeFree_eq, markRangeFree,
      freeSet_foldl_touchFree _ fun _ => lt_of_mem_inwardPages, Finset.mem_union, List.mem_toFinset,
      or_assoc]
    simp only [List.mem_cons, exists_eq_or_imp]

/-- The free pages behind `PMM::Start`. -/
theorem mem_freeSet_start (ts : List Tag) (s : Pmm) :
    p ∈ ((bootTouches m ts kernelStart heapEnd).foldl touch (reserveAll s)).freeSet ↔
      (∃ e ∈ available m ts, p ∈ inwardPages e.base e.length) ∧
        p ∉ outwardPages kernelStart (sub32 heapEnd kernelStart) ∧ p ∉ outwardPages 0 0x100000 := by
  have hempty : p ∉ (reserveAll s).freeSet := by
    rw [freeSet_reserveAll]
    exact Finset.notMem_empty p
  rw [bootTouches, List.foldl_append, List.foldl_append, ← markRangeUsed_eq, ← markRangeUsed_eq,
    markRangeUsed, markRangeUsed, freeSet_foldl_touchUsed, freeSet_foldl_touchUsed,
    Finset.mem_sdiff, Finset.mem_sdiff, mem_freeSet_frees, List.mem_toFinset, List.mem_toFinset,
    or_iff_right hempty, and_assoc]

/-- A careful step hands out and frees only pages that were free at the start. -/
theorem careful_step {F : Finset ℕ} {t t' : Session} {l : PageOp} (hF : t.pmm.freeSet ⊆ F)
    (hout : t.out ⊆ F) (hok : Careful t l) (hst : t.Step l t') :
    t'.pmm.freeSet ⊆ F ∧ t'.out ⊆ F := by
  cases hst with
  | alloc ha =>
    rcases allocPage_cases t.pmm with ⟨htaken, h⟩ | ⟨q, hq, htaken, h⟩ <;>
      cases h.symm.trans ha <;> rw [htaken]
    · exact ⟨hF, hout⟩
    · refine ⟨?_, Finset.insert_subset (hF hq) hout⟩
      simp only [freeSet, setUsed_eq, Bitmap.clearBits_set]
      exact (Finset.erase_subset _ _).trans hF
  | @free a =>
    refine ⟨?_, (Finset.erase_subset _ _).trans hout⟩
    rcases freePage_cases t.pmm a.toNat with h | ⟨hlt, -, h⟩ <;> simp only [h]
    · exact hF
    · simp only [freeSet, setFree_eq, Bitmap.clearBits_clear _ hlt]
      exact Finset.insert_subset (hout hok) hF

/-- **Careful clients are only ever handed pages that were free at the start.** -/
theorem careful_run {ls : List PageOp} {t : Session}
    (hr : ((pageLts s).guard Careful).Run ⟨s, ∅⟩ ls t) :
    (t.pmm.freeSet ⊆ s.freeSet ∧ t.out ⊆ s.freeSet) ∧
      ∀ r page, .alloc r page ∈ ls → ∀ p ∈ page, p ∈ s.freeSet := by
  induction hr with
  | nil => exact ⟨⟨subset_rfl, Finset.empty_subset _⟩, by simp⟩
  | snoc _ hst ih =>
    obtain ⟨⟨hF, hout⟩, hpages⟩ := ih
    obtain ⟨hok, hst⟩ := hst
    refine ⟨careful_step hF hout hok hst, fun r page hmem p hp => ?_⟩
    rcases List.mem_append.1 hmem with hmem | hmem
    · exact hpages r page hmem p hp
    · rw [List.mem_singleton] at hmem
      subst hmem
      exact hF ((Session.Step.alloc_page hst).2 p hp).1

/-! ### The heap at boot -/

theorem preScanTag_eq (m : Mem) (ts : List Tag) (acc : ℕ) (hts : ∀ t ∈ ts, t.type = m.read32 t.addr) :
    ts.foldl (fun acc t => preScanTag m t.addr acc) acc =
      ((modules m ts).map Prod.snd).foldl max acc := by
  induction ts generalizing acc with
  | nil => rfl
  | cons t ts ih =>
    have ht := hts t List.mem_cons_self
    rw [List.foldl_cons, ih _ fun t ht => hts t (List.mem_cons_of_mem _ ht), preScanTag, ← ht,
      modules_cons]
    by_cases hm : t.type = tagModule
    · rw [if_pos hm, if_pos hm, List.map_cons, List.foldl_cons]
      congr 1
      dsimp only
      split <;> omega
    · rw [if_neg hm, if_neg hm]

/-- **The first scan finds the end of the last boot module.** -/
theorem preScan_eq (hb : InfoBlock m mbi ts) : preScan m mbi = some (lastModuleEnd m ts) := by
  rw [preScan, if_neg hb.nonnull, hb.walk_eq, forTags_yield, lastModuleEnd,
    preScanTag_eq m ts 0 fun t ht => (hb.chain.mem ht).2.2.1]

/-- `Heap::Start` writes one header. -/
theorem eqOn_start {kernelEnd baseHint lo hi base : ℕ} (m : Mem)
    (hbase : Heap.startBase kernelEnd baseHint = base) (hfit : base + 16 ≤ 2 ^ 32)
    (hd : hi ≤ base ∨ base + 16 ≤ lo) :
    EqOn m (Heap.start m kernelEnd baseHint).mem lo hi := by
  intro x hlo hhi
  simp only [Heap.start, hbase]
  rw [Mem.write32_apply_of_disjoint (by omega) (by omega),
    Mem.write32_apply_of_disjoint (by omega) (by omega),
    Mem.write32_apply_of_disjoint (by omega) (by omega),
    Mem.write32_apply_of_disjoint (by omega) (by omega)]

/-- Where the heap begins at boot. -/
def heapBase (m : Mem) (ts : List Tag) (kernelEnd : ℕ) : ℕ :=
  Heap.pageUp kernelEnd (lastModuleEnd m ts)

/-- The `n` bytes from `a` on are clear of the header of a heap at `base`. -/
def ClearOf (base a n : ℕ) : Prop := a + n ≤ base ∨ base + 16 ≤ a

/-- The header of a heap at `base` does not lie on a word of the tag that `PMM::Start` reads. -/
structure TagClear (m : Mem) (base : ℕ) (t : Tag) : Prop where
  words : ClearOf base t.addr 8
  entrySize : t.type = tagMmap → ClearOf base (t.addr + 8) 4
  entryType : t.type = tagMmap → ∀ x ∈ t.entryAddrs m, ClearOf base (x + 16) 4
  entry : t.type = tagMmap → ∀ x ∈ t.entryAddrs m, m.read32 (x + 16) = memoryAvailable →
    ClearOf base x 16

/-- The header of the heap does not lie on a word of the info block that `PMM::Start` reads: it may
lie on the bytes of a command line, say. -/
structure InfoClear (m : Mem) (mbi : ℕ) (ts : List Tag) (kernelEnd : ℕ) : Prop where
  tag : ∀ t ∈ ts, TagClear m (heapBase m ts kernelEnd) t
  endTag : ClearOf (heapBase m ts kernelEnd) (mbi + m.read32 mbi - 8) 4

/-- A header outside the block lies on none of its words. -/
theorem InfoClear.of_apart {kernelEnd : ℕ} (hb : InfoBlock m mbi ts)
    (h : ClearOf (heapBase m ts kernelEnd) mbi (m.read32 mbi)) : InfoClear m mbi ts kernelEnd := by
  have hend := hb.chain.end_le
  unfold ClearOf at h
  refine ⟨fun t ht => ?_, by unfold ClearOf; omega⟩
  obtain ⟨hlo, hhi, -, -, -, hcov⟩ := hb.chain.mem ht
  have height := hcov.eight_le
  refine ⟨by unfold ClearOf; omega, fun _ => by unfold ClearOf; omega, fun hm x hx => ?_,
    fun hm x hx _ => ?_⟩
  all_goals
    obtain ⟨h1, h2⟩ := hcov.entry_bounds hm hx
    unfold ClearOf
    omega

/-- What `PMM::Start` reads of a tag is the same in both memories. -/
structure TagSame (m m' : Mem) (t : Tag) : Prop where
  words : m'.read32 t.addr = m.read32 t.addr ∧ m'.read32 (t.addr + 4) = m.read32 (t.addr + 4)
  entrySize : t.type = tagMmap → m'.read32 (t.addr + 8) = m.read32 (t.addr + 8)
  entry : t.type = tagMmap → ∀ x ∈ t.entryAddrs m, ∀ s, freeEntry m' s x = freeEntry m s x

theorem TagSame.visitTag_eq (h : TagSame m m' t) (hcov : t.Covers m)
    (htype : t.type = m.read32 t.addr) (hsize : t.size = m.read32 (t.addr + 4)) :
    visitTag m' t.addr = visitTag m t.addr := by
  funext s
  rw [visitTag, visitTag, h.words.1, h.words.2, ← htype, ← hsize]
  by_cases hm : t.type = tagMmap
  · have hfields := hcov.fields
    rw [hm] at hfields
    have hsub : sub32 t.size 16 = t.size - 16 := sub32_of_le (hsize ▸ Mem.read32_lt _ _) hfields
    rw [if_pos hm, if_pos hm, h.entrySize hm]
    dsimp only
    split
    · rfl
    · refine congrArg (fun s => some (ForInStep.yield s)) (List.foldl_ext _ _ _ fun s i hi => ?_)
      refine h.entry hm _ (List.mem_map.2 ⟨i, ?_, rfl⟩) s
      rwa [hsub] at hi
  · rw [if_neg hm, if_neg hm]

/-- **`PMM::Start` runs as before** in a memory where the words that it reads are as before. -/
theorem start_congr (hb : InfoBlock m mbi ts) (htags : ∀ t ∈ ts, TagSame m m' t)
    (hend : m'.read32 (mbi + m.read32 mbi - 8) = tagEnd) (kernelStart kernelEnd : ℕ) (s : Pmm) :
    start m' mbi kernelStart kernelEnd s = start m mbi kernelStart kernelEnd s := by
  rw [start, start,
    hb.chain.walk_congr hb.fits hend (fun t ht => (htags t ht).words) fun t ht => ?_]
  obtain ⟨-, -, htype, hsize, -, hcov⟩ := hb.chain.mem ht
  exact (htags t ht).visitTag_eq hcov htype hsize

/-- A word that the header of the heap does not lie on. -/
theorem read32_start {kernelEnd baseHint base a : ℕ} (m : Mem)
    (hbase : Heap.startBase kernelEnd baseHint = base) (hfit : base + 16 ≤ 2 ^ 32)
    (h : ClearOf base a 4) (ha : a + 4 ≤ 2 ^ 32) :
    (Heap.start m kernelEnd baseHint).mem.read32 a = m.read32 a :=
  (eqOn_start m hbase hfit h).read32 le_rfl le_rfl ha

theorem tagSame_start {kernelEnd baseHint base : ℕ} (hb : InfoBlock m mbi ts)
    (hbase : Heap.startBase kernelEnd baseHint = base) (hfit : base + 16 ≤ 2 ^ 32) (ht : t ∈ ts)
    (h : TagClear m base t) : TagSame m (Heap.start m kernelEnd baseHint).mem t := by
  obtain ⟨hlo, hhi, -, -, -, hcov⟩ := hb.chain.mem ht
  have height := hcov.eight_le
  have hfits := hb.fits
  have hwords := eqOn_start m hbase hfit h.words
  refine ⟨⟨hwords.read32 le_rfl (by omega) (by omega), hwords.read32 (by omega) le_rfl (by omega)⟩,
    fun hm => ?_, fun hm x hx s => ?_⟩
  · have hfields := hcov.fields
    rw [hm] at hfields
    have h16 : fieldBytes tagMmap = 16 := rfl
    exact read32_start m hbase hfit (h.entrySize hm) (by omega)
  · obtain ⟨h1, h2⟩ := hcov.entry_bounds hm hx
    rw [freeEntry, freeEntry, read32_start m hbase hfit (h.entryType hm x hx) (by omega)]
    by_cases havail : m.read32 (x + 16) = memoryAvailable
    · have hentry := eqOn_start m hbase hfit (h.entry hm x hx havail)
      rw [hentry.read64 le_rfl (by omega) (by omega),
        hentry.read64 (by omega) (by omega) (by omega)]
    · rw [if_neg havail, if_neg havail]

/-- Boot ends, with a heap and a memory manager that touched the listed pages. -/
theorem boot_eq (hb : InfoBlock m mbi ts) (kernelStart : ℕ) (kernelEnd : UInt32)
    (hfit : heapBase m ts kernelEnd.toNat + Heap.heapSize < 2 ^ 32)
    (hclear : InfoClear m mbi ts kernelEnd.toNat) :
    ∃ h, h.base = heapBase m ts kernelEnd.toNat ∧
      h.heapEnd = heapBase m ts kernelEnd.toNat + Heap.heapSize ∧
      boot m mbi kernelStart kernelEnd.toNat = some (h,
        { (bootTouches m ts kernelStart h.heapEnd).foldl touch (reserveAll init) with
          ready := true }) := by
  have hs : Heap.heapSize = 4194304 := rfl
  have hbase : Heap.startBase kernelEnd.toNat (lastModuleEnd m ts) =
      heapBase m ts kernelEnd.toNat := by
    rw [Heap.startBase_eq kernelEnd.toNat_lt (lastModuleEnd_lt m ts)]
    exact u32_of_lt (by unfold heapBase at hfit; omega)
  -- the second walk reads the end tag behind the store of the heap's header
  have hend : (Heap.start m kernelEnd.toNat (lastModuleEnd m ts)).mem.read32
      (mbi + m.read32 mbi - 8) = tagEnd := by
    have hlast := hb.chain.end_le
    have hfits := hb.fits
    rw [read32_start m hbase (by omega) hclear.endTag (by omega)]
    exact hb.chain.read_end
  refine ⟨Heap.start m kernelEnd.toNat (lastModuleEnd m ts), hbase, ?_, ?_⟩
  · exact (congrArg (fun b => u32 (b + Heap.heapSize)) hbase).trans (u32_of_lt hfit)
  · rw [boot, preScan_eq hb, Option.bind_some]
    dsimp only
    rw [start_congr hb (fun t ht => tagSame_start hb hbase (by omega) ht (hclear.tag t ht)) hend,
      start_eq hb, Option.map_some]

/-! ### Exactly when -/

/-- A page clear of the first MiB and of the kernel and heap lies above the heap. -/
theorem clear_iff (hheap : 0x100000 < heapEnd) :
    (¬ Meets p 0 0x100000 ∧ ¬ Meets p 0x100000 heapEnd) ↔ heapEnd ≤ p * pageSize := by
  unfold Meets pageSize
  omega

/-- The free pages behind boot: those of the entries that end below `2 ^ 44`. -/
theorem mem_freeSet_boot (hends : ∀ e ∈ available m ts, e.base + e.length ≤ 2 ^ 44)
    (hheap : 0x100000 < heapEnd) (hfit : heapEnd < 2 ^ 32) (s : Pmm) :
    p ∈ ((bootTouches m ts 0x100000 heapEnd).foldl touch (reserveAll s)).freeSet ↔
      p < maxPages ∧ (∃ e ∈ available m ts, e.base + e.length < 2 ^ 44 ∧
        Inside p e.base (e.base + e.length)) ∧ heapEnd ≤ p * pageSize := by
  have hsub : sub32 heapEnd 0x100000 = heapEnd - 0x100000 := sub32_of_le hfit hheap.le
  have hin : ∀ e ∈ available m ts, (p ∈ inwardPages e.base e.length ↔
      p < maxPages ∧ e.base + e.length < 2 ^ 44 ∧ Inside p e.base (e.base + e.length)) := by
    intro e he
    rcases Nat.lt_or_eq_of_le (hends e he) with hlt | htop
    · rw [mem_inwardPages hlt]
      exact and_congr_right fun _ => (and_iff_right hlt).symm
    · rw [inwardPages_top htop, htop]
      simp
  rw [mem_freeSet_start, hsub, mem_outwardPages (by omega) (by omega),
    mem_outwardPages (by decide) (by decide), Nat.add_sub_cancel' hheap.le, ← clear_iff hheap]
  constructor
  · rintro ⟨⟨e, he, hp⟩, h1, h2⟩
    obtain ⟨hlt, hend, hinside⟩ := (hin e he).1 hp
    exact ⟨hlt, ⟨e, he, hend, hinside⟩, fun h => h2 ⟨hlt, h⟩, fun h => h1 ⟨hlt, h⟩⟩
  · rintro ⟨hlt, ⟨e, he, hend, hinside⟩, h1, h2⟩
    exact ⟨⟨e, he, (hin e he).2 ⟨hlt, hend, hinside⟩⟩, fun h => h2 h.2, fun h => h1 h.2⟩

theorem mem_bootPages (hheap : 0x100000 < heapEnd) : p ∈ bootPages m ts 0x100000 heapEnd ↔
    p < maxPages ∧ (∃ e ∈ available m ts, Inside p e.base (e.base + e.length)) ∧
      heapEnd ≤ p * pageSize := by
  rw [bootPages, Finset.mem_filter, Finset.mem_range, clear_iff hheap]

/-- The pages that are free are those that should be exactly when the top is covered. -/
theorem freeSet_eq_iff (hends : ∀ e ∈ available m ts, e.base + e.length ≤ 2 ^ 44)
    (hheap : 0x100000 < heapEnd) (hfit : heapEnd < 2 ^ 32) (s : Pmm) :
    ((bootTouches m ts 0x100000 heapEnd).foldl touch (reserveAll s)).freeSet =
      bootPages m ts 0x100000 heapEnd ↔ TopCovered m ts heapEnd := by
  rw [Finset.ext_iff]
  simp only [mem_freeSet_boot hends hheap hfit, mem_bootPages hheap]
  constructor
  · -- the page is one that should be free, so another entry made it so
    intro h p hp hheap e he _ hinside
    exact ((h p).2 ⟨hp, ⟨e, he, hinside⟩, hheap⟩).2.1
  · intro h p
    constructor
    · rintro ⟨hp, ⟨e, he, -, hinside⟩, hheap⟩
      exact ⟨hp, ⟨e, he, hinside⟩, hheap⟩
    · rintro ⟨hp, ⟨e, he, hinside⟩, hheap⟩
      refine ⟨hp, ?_, hheap⟩
      rcases Nat.lt_or_eq_of_le (hends e he) with hlt | htop
      · exact ⟨e, he, hlt, hinside⟩
      · exact h p hp hheap e he htop hinside

theorem le_heapBase (m : Mem) (ts : List Tag) (kernelEnd : ℕ) :
    kernelEnd ≤ heapBase m ts kernelEnd ∧ lastModuleEnd m ts ≤ heapBase m ts kernelEnd := by
  unfold heapBase Heap.pageUp
  omega

/-- A memory manager whose free pages are the right ones hands out no others. -/
theorem bootState_of_freeSet {kernelEnd base : ℕ} {h : Heap} (hbase : h.base = base)
    (hend : h.heapEnd = base + Heap.heapSize) (hkernel : kernelEnd ≤ base)
    (hmodules : ∀ x ∈ modules m ts, x.2 ≤ base) (hcount : s.freePages = s.freeSet.card)
    (hfree : s.freeSet = bootPages m ts 0x100000 h.heapEnd) :
    BootState m ts 0x100000 kernelEnd h s := by
  have hs : Heap.heapSize = 4194304 := rfl
  refine ⟨hfree, hfree ▸ hcount, fun ls t hr r page hmem hr0 => ?_⟩
  have hret := run_alloc hr.of_guard hmem
  cases page with
  | none => exact absurd hret hr0
  | some p =>
    have hp := (careful_run hr).2 r (some p) hmem p rfl
    rw [hfree] at hp
    have habove := ((mem_bootPages (by omega)).1 hp).2.2
    refine ⟨p, hp, hret, fun hmeet => ?_, fun hmeet => ?_, fun x hx hmeet => ?_⟩
    · exact absurd hmeet.1 (by omega)
    · exact absurd hmeet.1 (by omega)
    · have := hmodules x hx
      exact absurd hmeet.1 (by omega)

theorem sound_iff_freeSet (hb : InfoBlock m mbi ts) (kernelEnd : UInt32)
    (hfit : heapBase m ts kernelEnd.toNat + Heap.heapSize < 2 ^ 32)
    (hclear : InfoClear m mbi ts kernelEnd.toNat) (heapEnd : ℕ)
    (hheap : heapEnd = heapBase m ts kernelEnd.toNat + Heap.heapSize) :
    BootSound m mbi ts 0x100000 kernelEnd.toNat ↔
      ((bootTouches m ts 0x100000 heapEnd).foldl touch (reserveAll init)).freeSet =
        bootPages m ts 0x100000 heapEnd := by
  have hs : Heap.heapSize = 4194304 := rfl
  obtain ⟨h, hbase, hend, hboot⟩ := boot_eq hb 0x100000 kernelEnd hfit hclear
  obtain rfl : h.heapEnd = heapEnd := hend.trans hheap.symm
  constructor
  · rintro ⟨h', s', hboot', hstate⟩
    rw [hboot, Option.some.injEq, Prod.mk.injEq] at hboot'
    obtain ⟨rfl, rfl⟩ := hboot'
    exact hstate.freeSet
  · intro hfree
    obtain ⟨hkernel, hlast⟩ := le_heapBase m ts kernelEnd.toNat
    exact ⟨h, _, hboot, bootState_of_freeSet hbase hend hkernel
      (fun x hx => (le_lastModuleEnd hx).trans hlast) (booting_start m ts _ _ init).counts.free hfree⟩

/-- **After boot exactly the pages of available memory above the heap are free, and only these are
ever handed out**, if and only if the pages of entries that end at `2 ^ 44` are listed once more. -/
theorem boot_sound_iff (hb : InfoBlock m mbi ts) (kernelEnd : UInt32)
    (hends : ∀ e ∈ available m ts, e.base + e.length ≤ 2 ^ 44)
    (hfit : heapBase m ts kernelEnd.toNat + Heap.heapSize < 2 ^ 32)
    (hclear : InfoClear m mbi ts kernelEnd.toNat) :
    BootSound m mbi ts 0x100000 kernelEnd.toNat ↔
      TopCovered m ts (heapBase m ts kernelEnd.toNat + Heap.heapSize) := by
  have hs : Heap.heapSize = 4194304 := rfl
  rw [sound_iff_freeSet hb kernelEnd hfit hclear _ rfl]
  exact freeSet_eq_iff hends (by omega) hfit init

theorem available_smallMap :
    available smallMap [⟨0x9008, tagMmap, 40⟩] = [⟨0x200000, 0x7E00000, memoryAvailable⟩] := by
  decide +kernel

/-- A machine with 128 MiB boots with the pages from the end of the heap on. -/
theorem boot_sound_smallMap :
    BootSound smallMap 0x9000 [⟨0x9008, tagMmap, 40⟩] 0x100000 0x200000 := by
  refine (boot_sound_iff smallMap_wf 0x200000 ?_ (by decide +kernel)
    (.of_apart smallMap_wf (.inl (by decide +kernel)))).2 ?_
  · rw [available_smallMap]
    decide
  · intro p _ _ e he htop
    rw [available_smallMap, List.mem_singleton] at he
    subst he
    cases htop

/-- Memory from 16 MiB to 16 TiB. -/
def topMap : Mem := mapBlock 0x1000000 0 0xFF000000 0xFFF

theorem topMap_wf : InfoBlock topMap 0x9000 [⟨0x9008, tagMmap, 40⟩] where
  nonnull := by decide
  chain := by
    refine ⟨rfl, by decide +kernel, by decide +kernel, by decide, ⟨?_, ?_, ?_⟩, ?_, ?_, ?_⟩
    all_goals decide +kernel
  fits := by decide +kernel

theorem available_topMap :
    available topMap [⟨0x9008, tagMmap, 40⟩] = [⟨0x1000000, 0xFFFFF000000, memoryAvailable⟩] := by
  decide +kernel

/-- A machine whose memory ends at 16 TiB boots without a single free page. -/
theorem not_boot_sound_top :
    ¬ ∀ m mbi ts (kernelEnd : UInt32), InfoBlock m mbi ts →
      (∀ e ∈ available m ts, e.base + e.length ≤ 2 ^ 44) →
      heapBase m ts kernelEnd.toNat + Heap.heapSize < 2 ^ 32 →
      BootSound m mbi ts 0x100000 kernelEnd.toNat := by
  intro hall
  have hends : ∀ e ∈ available topMap [⟨0x9008, tagMmap, 40⟩], e.base + e.length ≤ 2 ^ 44 := by
    rw [available_topMap]
    decide
  have hsound := hall topMap 0x9000 [⟨0x9008, tagMmap, 40⟩] 0x200000 topMap_wf hends
    (by decide +kernel)
  have hclear : InfoClear topMap 0x9000 [⟨0x9008, tagMmap, 40⟩] (0x200000 : UInt32).toNat :=
    .of_apart topMap_wf (.inl (by decide +kernel))
  rw [sound_iff_freeSet topMap_wf 0x200000 (by decide +kernel) hclear 0x600000 (by decide +kernel),
    freeSet_eq_iff hends (by decide) (by decide)] at hsound
  obtain ⟨e, he, hlt, -⟩ := hsound 0x1000 (by decide) (by decide) _
    (available_topMap ▸ List.mem_cons_self) (by decide) (by decide)
  rw [available_topMap, List.mem_singleton] at he
  subst he
  exact absurd hlt (by decide)

end Pmm

end Shiro
