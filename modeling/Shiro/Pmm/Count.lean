import Shiro.Lib.Lts
import Shiro.Pmm.Basic

/-!
# The counters of the physical memory manager

`free_pages` counts the clear bits, and with `used_pages` and `reserved_pages` it adds up to
`total_pages`, from `PMM::Start` on and through every series of `AllocPage` and `FreePage`.

`PMM::Start` is a list of *touches* of single pages (`bootTouches`), each the body of one of its
two loops; `start_eq` says so.  `Booting` is what every touch preserves, `Counts` what remains of it
under `FreePage`, which may count a reserved page as a used one.

* `bootTouches_pass` : the guards `> 0` of the loop bodies never hold a decrement back.
* `reuse` : a page is handed out again only after it was freed.
* `counters_agree` : **the counters agree with the bitmap**, over all runs.
-/

namespace Shiro

open Multiboot

namespace Pmm

/-! ### The touches of `PMM::Start` -/

/-- One round of the loop in `MarkRangeFree` or `MarkRangeUsed`. -/
inductive Touch where
  | free (p : ℕ)
  | use (p : ℕ)

/-- The loop bodies. -/
def touch (s : Pmm) : Touch → Pmm
  | .free p => touchFree s p
  | .use p => touchUsed s p

/-- The touches of `MarkRangeFree(addr, size)`. -/
def freeTouches (addr size : ℕ) : List Touch := (inwardPages addr size).map .free

/-- The touches of `MarkRangeUsed(addr, size)`. -/
def useTouches (addr size : ℕ) : List Touch := (outwardPages addr size).map .use

/-- The touches of the loop over the entries of the tag `t`. -/
def tagTouches (m : Mem) (t : Tag) : List Touch :=
  if t.type = tagMmap then
    ((t.entries m).filter (·.type = memoryAvailable)).flatMap fun e => freeTouches e.base e.length
  else []

/-- The touches of `PMM::Start` on a block with the tags `ts`. -/
def bootTouches (m : Mem) (ts : List Tag) (kernelStart kernelEndPlusHeap : ℕ) : List Touch :=
  (available m ts).flatMap (fun e => freeTouches e.base e.length) ++
    (useTouches kernelStart (sub32 kernelEndPlusHeap kernelStart) ++ useTouches 0 0x100000)

variable {m : Mem} {mbi : ℕ} {ts : List Tag} {t : Tag} {s s' : Pmm}

theorem markRangeFree_eq (s : Pmm) (addr size : ℕ) :
    markRangeFree s addr size = (freeTouches addr size).foldl touch s := by
  rw [markRangeFree, freeTouches, List.foldl_map]
  rfl

theorem markRangeUsed_eq (s : Pmm) (addr size : ℕ) :
    markRangeUsed s addr size = (useTouches addr size).foldl touch s := by
  rw [markRangeUsed, useTouches, List.foldl_map]
  rfl

/-- The loop over the entries touches the available ones. -/
theorem foldl_freeEntry (s : Pmm) (xs : List ℕ) :
    xs.foldl (freeEntry m) s =
      (((xs.map (entryAt m)).filter (·.type = memoryAvailable)).flatMap
        fun e => freeTouches e.base e.length).foldl touch s := by
  induction xs generalizing s with
  | nil => rfl
  | cons x xs ih =>
    rw [List.foldl_cons, ih, List.map_cons, List.filter_cons]
    by_cases hx : m.read32 (x + 16) = memoryAvailable
    · have hx' : (entryAt m x).type = memoryAvailable := hx
      rw [if_pos (decide_eq_true hx'), List.flatMap_cons, List.foldl_append, freeEntry, if_pos hx,
        markRangeFree_eq]
      rfl
    · have hx' : ¬ (entryAt m x).type = memoryAvailable := hx
      rw [if_neg (by simpa using hx'), freeEntry, if_neg hx]

/-- The body of the loop over the tags touches what the tag lists. -/
theorem visitTag_eq (hcov : t.Covers m) (htype : t.type = m.read32 t.addr)
    (hsize : t.size = m.read32 (t.addr + 4)) (s : Pmm) :
    visitTag m t.addr s = some (.yield ((tagTouches m t).foldl touch s)) := by
  rw [visitTag, tagTouches, ← htype]
  by_cases hm : t.type = tagMmap
  · have hes : 24 ≤ m.read32 (t.addr + 8) := hcov.entry hm
    have hf : 16 ≤ t.size := by simpa [hm, fieldBytes, tagModule, tagMeminfo, tagMmap] using hcov.fields
    have hlt := Mem.read32_lt m (t.addr + 4)
    have hsub : sub32 t.size 16 = t.size - 16 := sub32_of_le (by omega) hf
    have hne : ¬ m.read32 (t.addr + 8) = 0 := by omega
    simp only [hm, ↓reduceIte, ← hsize, hsub]
    rw [if_neg hne, Tag.entries, ← foldl_freeEntry, Tag.entryAddrs, List.foldl_map]
    rfl
  · simp only [hm, ↓reduceIte, List.foldl_nil]

theorem available_cons (m : Mem) (t : Tag) (ts : List Tag) :
    (available m (t :: ts)).flatMap (fun e => freeTouches e.base e.length) =
      tagTouches m t ++ (available m ts).flatMap fun e => freeTouches e.base e.length := by
  rw [tagTouches, available, List.filter_cons]
  by_cases hm : t.type = tagMmap
  · simp only [hm, decide_true, ↓reduceIte, List.flatMap_cons, List.flatMap_append]
    rfl
  · simp only [hm, decide_false, Bool.false_eq_true, ↓reduceIte, List.nil_append]
    rfl

/-- The loop over the tags touches what the available entries list. -/
theorem forTags_visitTag {a e : ℕ} (h : Chain m a ts e) (s : Pmm) :
    forTags (visitTag m) ts s = some
      (((available m ts).flatMap fun e => freeTouches e.base e.length).foldl touch s) := by
  induction ts generalizing a s with
  | nil => rfl
  | cons t ts ih =>
    obtain ⟨rfl, htype, hsize, -, hcov, h⟩ := h
    rw [forTags, visitTag_eq hcov htype hsize, available_cons, List.foldl_append]
    exact ih h _

/-- **`PMM::Start` is its touches.** -/
theorem start_eq (hb : InfoBlock m mbi ts) (kernelStart kernelEndPlusHeap : ℕ) (s : Pmm) :
    start m mbi kernelStart kernelEndPlusHeap s = some
      { (bootTouches m ts kernelStart kernelEndPlusHeap).foldl touch (reserveAll s) with
        ready := true } := by
  rw [start, if_neg hb.nonnull, hb.walk_eq, forTags_visitTag hb.chain, Option.map_some, reserveKernel,
    bootTouches, List.foldl_append, List.foldl_append, ← markRangeUsed_eq, ← markRangeUsed_eq]

/-! ### The counters while `PMM::Start` runs -/

/-- The guard of a loop body lets its decrement through. -/
def GuardPasses (s : Pmm) : Touch → Prop
  | .free p => isUsed s.bitmap p = true → 0 < s.reservedPages
  | .use p => isUsed s.bitmap p = false → 0 < s.freePages

/-- What the loops of `PMM::Start` keep. -/
structure Booting (s : Pmm) : Prop where
  free : s.freePages = s.freeSet.card
  sum : s.freePages + s.usedPages + s.reservedPages = maxPages
  total : s.totalPages = maxPages

theorem card_insert_free {p : ℕ} (hp : p < maxPages) (hu : isUsed s.bitmap p = true) :
    (insert p s.freeSet).card = s.freeSet.card + 1 ∧ s.freeSet.card < maxPages := by
  have hnot : p ∉ s.freeSet := by
    rw [mem_freeSet, hu]
    simp
  have hcard := Finset.card_insert_of_notMem hnot
  have hsub : insert p s.freeSet ⊆ Finset.range maxPages := by
    intro q hq
    rcases Finset.mem_insert.1 hq with rfl | hq
    · exact Finset.mem_range.2 hp
    · exact Finset.mem_range.2 (mem_freeSet.1 hq).1
  have hle := Finset.card_le_card hsub
  rw [Finset.card_range] at hle
  exact ⟨hcard, by omega⟩

theorem card_erase_free {p : ℕ} (hp : p < maxPages) (hu : isUsed s.bitmap p = false) :
    (s.freeSet.erase p).card = s.freeSet.card - 1 ∧ 0 < s.freeSet.card := by
  have hmem : p ∈ s.freeSet := mem_freeSet.2 ⟨hp, hu⟩
  exact ⟨Finset.card_erase_of_mem hmem, Finset.card_pos.2 ⟨p, hmem⟩⟩

/-- A page freed before any is reserved again: its reservation is there to be taken back. -/
theorem Booting.free_step (hs : Booting s) (h0 : s.usedPages = 0) {p : ℕ} (hp : p < maxPages) :
    GuardPasses s (.free p) ∧ Booting (touch s (.free p)) ∧ (touch s (.free p)).usedPages = 0 := by
  have hfree := hs.free
  have hsum := hs.sum
  have hset := freeSet_touchFree s hp
  have hmax := maxPages_eq
  -- a page that is free already is left alone
  cases hu : isUsed s.bitmap p
  · refine ⟨fun h => by simp [hu] at h, ?_⟩
    simp only [touch, touchFree, hu, Bool.false_eq_true, ↓reduceIte]
    exact ⟨hs, h0⟩
  · obtain ⟨hcard, hlt⟩ := card_insert_free hp hu
    have hpos : 0 < s.reservedPages := by omega
    refine ⟨fun _ => hpos, ⟨?_, ?_, ?_⟩, ?_⟩ <;>
      simp only [touch, touchFree, hu, ↓reduceIte] at hset ⊢
    · rw [hset, hcard, u32_of_lt (by omega), hfree]
    · rw [if_pos hpos, u32_of_lt (by omega), sub32_of_le (by omega) hpos]
      omega
    · exact hs.total
    · exact h0

/-- A page reserved again was counted as free. -/
theorem Booting.use_step (hs : Booting s) {p : ℕ} (hp : p < maxPages) :
    GuardPasses s (.use p) ∧ Booting (touch s (.use p)) := by
  have hfree := hs.free
  have hsum := hs.sum
  have hset := freeSet_touchUsed s p
  have hmax := maxPages_eq
  cases hu : isUsed s.bitmap p
  · obtain ⟨hcard, hpos⟩ := card_erase_free hp hu
    refine ⟨fun _ => by omega, ⟨?_, ?_, ?_⟩⟩ <;>
      simp only [touch, touchUsed, hu, Bool.not_false, ↓reduceIte] at hset ⊢
    · rw [hset, hcard, if_pos (by omega), sub32_of_le (by omega) (by omega), hfree]
    · rw [if_pos (by omega), u32_of_lt (by omega), sub32_of_le (by omega) (by omega)]
      omega
    · exact hs.total
  · refine ⟨fun h => by simp [hu] at h, ?_⟩
    simpa only [touch, touchUsed, hu, Bool.not_true, Bool.false_eq_true, ↓reduceIte] using hs

/-- A series of frees before any page is reserved again. -/
theorem Booting.frees (hs : Booting s) (h0 : s.usedPages = 0) {xs : List Touch}
    (hxs : ∀ x ∈ xs, ∃ p < maxPages, x = .free p) :
    Booting (xs.foldl touch s) ∧ (xs.foldl touch s).usedPages = 0 := by
  induction xs generalizing s with
  | nil => exact ⟨hs, h0⟩
  | cons x xs ih =>
    obtain ⟨p, hp, rfl⟩ := hxs x List.mem_cons_self
    obtain ⟨-, hs', h0'⟩ := hs.free_step h0 hp
    exact ih hs' h0' fun y hy => hxs y (List.mem_cons_of_mem _ hy)

/-- A series of reservations. -/
theorem Booting.uses (hs : Booting s) {xs : List Touch}
    (hxs : ∀ x ∈ xs, ∃ p < maxPages, x = .use p) : Booting (xs.foldl touch s) := by
  induction xs generalizing s with
  | nil => exact hs
  | cons x xs ih =>
    obtain ⟨p, hp, rfl⟩ := hxs x List.mem_cons_self
    exact ih (hs.use_step hp).2 fun y hy => hxs y (List.mem_cons_of_mem _ hy)

/-- Along a series of frees and then of reservations every guard passes. -/
theorem Booting.pass (hs : Booting s) (h0 : s.usedPages = 0) {fs us pre post : List Touch}
    {x : Touch} (hfs : ∀ x ∈ fs, ∃ p < maxPages, x = .free p)
    (hus : ∀ x ∈ us, ∃ p < maxPages, x = .use p) (h : fs ++ us = pre ++ x :: post) :
    GuardPasses (pre.foldl touch s) x := by
  rcases List.append_eq_append_iff.1 h with ⟨vs, rfl, rfl⟩ | ⟨gs, rfl, hx⟩
  · -- among the reservations, behind all the frees
    obtain ⟨p, hp, rfl⟩ := hus _ (List.mem_append_right _ List.mem_cons_self)
    have hfrees := (hs.frees h0 hfs).1
    have huses := hfrees.uses fun y hy => hus y (List.mem_append_left _ hy)
    rw [List.foldl_append]
    exact (huses.use_step hp).1
  · cases gs with
    | nil =>
      rw [List.nil_append] at hx
      obtain ⟨p, hp, rfl⟩ := hus x (hx ▸ List.mem_cons_self)
      have hfrees := (hs.frees h0 hfs).1
      rw [List.append_nil] at hfrees
      exact (hfrees.use_step hp).1
    | cons y gs =>
      obtain ⟨rfl, -⟩ := List.cons_eq_cons.1 hx
      obtain ⟨p, hp, rfl⟩ := hfs _ (List.mem_append_right _ List.mem_cons_self)
      obtain ⟨hpre, hpre0⟩ := hs.frees h0 fun y hy => hfs y (List.mem_append_left _ hy)
      exact (hpre.free_step hpre0 hp).1

theorem freeSet_reserveAll (s : Pmm) : (reserveAll s).freeSet = ∅ := by
  refine Finset.eq_empty_of_forall_notMem fun p hp => ?_
  obtain ⟨hlt, hu⟩ := mem_freeSet.1 hp
  have hbyte : p / 8 < bitmapBytes := by
    have hbytes : bitmapBytes = 131072 := rfl
    rw [maxPages_eq] at hlt
    omega
  have h8 : p % 8 < 8 := Nat.mod_lt _ (by decide)
  have hff : ∀ i < 8, (0xFF : BitVec 8).getLsbD i = true := by decide
  rw [isUsed_eq, Bitmap.get] at hu
  simp only [reserveAll, hbyte, ↓reduceIte, hff _ h8] at hu
  cases hu

theorem booting_reserveAll (s : Pmm) : Booting (reserveAll s) := by
  refine ⟨?_, ?_, rfl⟩
  · rw [freeSet_reserveAll]
    rfl
  · simp [reserveAll]

theorem mem_freeTouches {es : List Entry} {x : Touch}
    (hx : x ∈ es.flatMap fun e => freeTouches e.base e.length) : ∃ p < maxPages, x = .free p := by
  obtain ⟨e, -, hx⟩ := List.mem_flatMap.1 hx
  obtain ⟨p, hp, rfl⟩ := List.mem_map.1 hx
  exact ⟨p, lt_of_mem_inwardPages hp, rfl⟩

theorem mem_useTouches {addr size addr' size' : ℕ} {x : Touch}
    (hx : x ∈ useTouches addr size ++ useTouches addr' size') : ∃ p < maxPages, x = .use p := by
  rcases List.mem_append.1 hx with hx | hx <;>
  · obtain ⟨p, hp, rfl⟩ := List.mem_map.1 hx
    exact ⟨p, (mem_pagesBetween.1 hp).2.2.2, rfl⟩

/-- **The guards `> 0` of `PMM::Start` never hold a decrement back.** -/
theorem bootTouches_pass (m : Mem) (ts : List Tag) (kernelStart kernelEndPlusHeap : ℕ) (s : Pmm)
    {pre post : List Touch} {x : Touch}
    (h : bootTouches m ts kernelStart kernelEndPlusHeap = pre ++ x :: post) :
    GuardPasses (pre.foldl touch (reserveAll s)) x := by
  exact (booting_reserveAll s).pass rfl (fun _ hx => mem_freeTouches hx)
    (fun _ hx => mem_useTouches hx) h

theorem booting_start (m : Mem) (ts : List Tag) (kernelStart kernelEndPlusHeap : ℕ) (s : Pmm) :
    Booting ((bootTouches m ts kernelStart kernelEndPlusHeap).foldl touch (reserveAll s)) := by
  rw [bootTouches, List.foldl_append]
  exact ((booting_reserveAll s).frees rfl fun x hx => mem_freeTouches hx).1.uses
    fun x hx => mem_useTouches hx

/-! ### Runs -/

/-- The memory manager and the pages it has handed out. -/
structure Session where
  pmm : Pmm
  out : Finset ℕ

inductive PageOp where
  /-- `AllocPage()` returning `r`, and the page it took if it took one. -/
  | alloc (r : ℕ) (page : Option ℕ)
  /-- `FreePage(a)`. -/
  | free (a : UInt32)

/-- The page that `AllocPage` takes. -/
def taken (s : Pmm) : Option ℕ := if s.ready then scan s.bitmap else none

inductive Session.Step : Session → PageOp → Session → Prop
  | alloc {s : Session} {p' : Pmm} {r : ℕ} :
      allocPage s.pmm = (p', r) →
      Step s (.alloc r (taken s.pmm)) ⟨p', (taken s.pmm).elim s.out (insert · s.out)⟩
  | free {s : Session} {a : UInt32} :
      Step s (.free a) ⟨freePage s.pmm a.toNat, s.out.erase (a.toNat / pageSize)⟩

/-- `AllocPage` and `FreePage` from the state `s` on. -/
def pageLts (s : Pmm) : Lts Session PageOp where
  init t := t = ⟨s, ∅⟩
  step := Session.Step

/-- The counters agree with the bitmap. -/
structure Counts (s : Pmm) : Prop where
  free : s.freePages = s.freeSet.card
  sum : u32 (s.freePages + s.usedPages + s.reservedPages) = u32 s.totalPages

/-- Between two allocations that take the same page there is a `FreePage` of an address in it. -/
def NoReuse (ls : List PageOp) : Prop :=
  ∀ pre mid post r r' p, ls = pre ++ .alloc r (some p) :: (mid ++ .alloc r' (some p) :: post) →
    ∃ a : UInt32, .free a ∈ mid ∧ a.toNat / pageSize = p

variable {t t' : Session} {s₀ : Pmm}

/-- What `AllocPage` does: nothing and returns 0, or it takes a free page and returns its
address. -/
theorem allocPage_cases (s : Pmm) :
    (taken s = none ∧ allocPage s = (s, 0)) ∨
    ∃ p ∈ s.freeSet, taken s = some p ∧ allocPage s =
      ({ s with
          bitmap := setUsed s.bitmap p
          freePages := sub32 s.freePages 1
          usedPages := u32 (s.usedPages + 1) }, p * pageSize) := by
  unfold taken allocPage
  cases s.ready
  · exact .inl ⟨rfl, rfl⟩
  · cases hscan : scan s.bitmap with
    | none => exact .inl ⟨rfl, rfl⟩
    | some p =>
      have hmem := mem_freeSet_of_scan hscan
      have hlt : u32 (p * pageSize) = p * pageSize := by
        have hp := (mem_freeSet.1 hmem).1
        rw [maxPages_eq] at hp
        exact u32_of_lt (by unfold pageSize; omega)
      refine .inr ⟨p, hmem, rfl, ?_⟩
      rw [← hlt]
      rfl

/-- What `FreePage` does: nothing, or it clears the bit of a used page. -/
theorem freePage_cases (s : Pmm) (a : ℕ) :
    freePage s a = s ∨ (a / pageSize < maxPages ∧ isUsed s.bitmap (a / pageSize) = true ∧
      freePage s a =
        { s with
          bitmap := setFree s.bitmap (a / pageSize)
          freePages := u32 (s.freePages + 1)
          usedPages := sub32 s.usedPages 1 }) := by
  unfold freePage
  cases s.ready
  · exact .inl rfl
  · by_cases hp : a / pageSize ≥ maxPages
    · exact .inl (by simp [hp])
    · cases hu : isUsed s.bitmap (a / pageSize)
      · exact .inl (by simp [hu])
      · exact .inr ⟨by omega, rfl, by simp [hp, hu]⟩

theorem Counts.alloc {p : ℕ} (hs : Counts s) (hp : p ∈ s.freeSet) :
    Counts
      { s with
        bitmap := setUsed s.bitmap p
        freePages := sub32 s.freePages 1
        usedPages := u32 (s.usedPages + 1) } := by
  obtain ⟨hlt, hu⟩ := mem_freeSet.1 hp
  obtain ⟨hcard, hpos⟩ := card_erase_free hlt hu
  have hfree := hs.free
  have hsum := hs.sum
  have hle := card_freeSet_le s
  have hmax := maxPages_eq
  have hsub : sub32 s.freePages 1 = s.freePages - 1 := sub32_of_le (by omega) (by omega)
  refine ⟨?_, ?_⟩
  · simp only [freeSet, setUsed_eq, Bitmap.clearBits_set]
    rw [hsub, hfree]
    exact hcard.symm
  · simp only [hsub]
    unfold u32 at *
    omega

theorem Counts.free_page {p : ℕ} (hs : Counts s) (hlt : p < maxPages)
    (hu : isUsed s.bitmap p = true) :
    Counts
      { s with
        bitmap := setFree s.bitmap p
        freePages := u32 (s.freePages + 1)
        usedPages := sub32 s.usedPages 1 } := by
  obtain ⟨hcard, hle⟩ := card_insert_free hlt hu
  have hfree := hs.free
  have hsum := hs.sum
  have hmax := maxPages_eq
  have hadd : u32 (s.freePages + 1) = s.freePages + 1 := u32_of_lt (by omega)
  refine ⟨?_, ?_⟩
  · simp only [freeSet, setFree_eq, Bitmap.clearBits_clear _ hlt]
    rw [hadd, hfree]
    exact hcard.symm
  · simp only [hadd]
    unfold sub32 u32 at *
    omega

/-- **`AllocPage` and `FreePage` keep the counters in step with the bitmap.** -/
theorem Counts.step (hs : Counts t.pmm) {l : PageOp} (hst : t.Step l t') : Counts t'.pmm := by
  cases hst with
  | alloc ha =>
    rcases allocPage_cases t.pmm with ⟨-, h⟩ | ⟨p, hp, -, h⟩ <;> cases h.symm.trans ha
    · exact hs
    · exact hs.alloc hp
  | @free a =>
    rcases freePage_cases t.pmm a.toNat with h | ⟨hlt, hu, h⟩
    · simpa only [h] using hs
    · simpa only [h] using hs.free_page hlt hu

theorem Booting.counts (hs : Booting s) : Counts { s with ready := true } :=
  ⟨hs.free, congrArg u32 (hs.sum.trans hs.total.symm)⟩

/-! ### Reuse -/

theorem isUsed_setUsed (bm : Bitmap) (p q : ℕ) :
    isUsed (setUsed bm p) q = (decide (p = q) || isUsed bm q) := by
  rw [isUsed_eq, isUsed_eq, setUsed_eq, Bitmap.get_set]

theorem isUsed_setFree (bm : Bitmap) (p q : ℕ) :
    isUsed (setFree bm p) q = (!decide (p = q) && isUsed bm q) := by
  rw [isUsed_eq, isUsed_eq, setFree_eq, Bitmap.get_clear]

/-- A used page stays used until it is freed. -/
theorem Session.Step.isUsed {l : PageOp} {p : ℕ} (hst : t.Step l t')
    (hu : isUsed t.pmm.bitmap p = true) (hl : ∀ a, l = .free a → a.toNat / pageSize ≠ p) :
    Pmm.isUsed t'.pmm.bitmap p = true := by
  cases hst with
  | alloc ha =>
    rcases allocPage_cases t.pmm with ⟨-, h⟩ | ⟨q, hq, -, h⟩ <;> cases h.symm.trans ha
    · exact hu
    · simp [isUsed_setUsed, hu]
  | @free a =>
    rcases freePage_cases t.pmm a.toNat with h | ⟨hlt, -, h⟩
    · simpa only [h] using hu
    · simp [h, isUsed_setFree, hu, hl a rfl]

theorem run_isUsed {ls : List PageOp} {p : ℕ}
    (hr : (pageLts s₀).Run t ls t')
    (hu : isUsed t.pmm.bitmap p = true)
    (hl : ∀ a : UInt32, .free a ∈ ls → a.toNat / pageSize ≠ p) : isUsed t'.pmm.bitmap p = true := by
  induction hr with
  | nil => exact hu
  | snoc _ hst ih =>
    refine Session.Step.isUsed hst (ih fun a ha => hl a (List.mem_append_left _ ha)) ?_
    rintro a rfl
    exact hl a (by simp)

/-- An allocation that takes a page returns its address; the page was free and is used now. -/
theorem Session.Step.alloc_page {r : ℕ} {page : Option ℕ} (hst : t.Step (.alloc r page) t') :
    r = page.elim 0 (· * pageSize) ∧ ∀ p ∈ page,
      p ∈ t.pmm.freeSet ∧ Pmm.isUsed t'.pmm.bitmap p = true := by
  cases hst with
  | alloc ha =>
    rcases allocPage_cases t.pmm with ⟨htaken, h⟩ | ⟨q, hq, htaken, h⟩ <;>
      cases h.symm.trans ha <;> rw [htaken]
    · exact ⟨rfl, by simp⟩
    · refine ⟨rfl, fun p hp => ?_⟩
      obtain rfl := Option.some.inj hp
      exact ⟨hq, by simp [isUsed_setUsed]⟩

/-- **A page is handed out again only after it was freed.** -/
theorem reuse {ls : List PageOp}
    (hr : (pageLts s₀).Run t ls t') : NoReuse ls := by
  rintro pre mid post r r' p rfl
  by_contra hno
  push Not at hno
  -- the page is used behind the first of the two, stays so, and was free before the second
  obtain ⟨t₁, -, hr⟩ := hr.split
  obtain ⟨t₂, h₁, hr⟩ := hr.head
  obtain ⟨t₃, h₂, hr⟩ := hr.split
  obtain ⟨t₄, h₃, -⟩ := hr.head
  have hused := ((Session.Step.alloc_page h₁).2 p rfl).2
  have hfree := (mem_freeSet.1 ((Session.Step.alloc_page h₃).2 p rfl).1).2
  rw [run_isUsed h₂ hused hno] at hfree
  cases hfree

theorem run_alloc {ls : List PageOp} (hr : (pageLts s₀).Run t ls t') {r : ℕ} {page : Option ℕ}
    (hmem : .alloc r page ∈ ls) : r = page.elim 0 (· * pageSize) := by
  obtain ⟨pre, post, rfl⟩ := List.append_of_mem hmem
  obtain ⟨t₁, -, hr⟩ := hr.split
  obtain ⟨t₂, hst, -⟩ := hr.head
  exact (Session.Step.alloc_page hst).1

/-- **The counters agree with the bitmap** from `PMM::Start` on, its guards hold no decrement back,
and no page is handed out twice, whatever the memory map and whatever is freed. -/
theorem counters_agree (hb : InfoBlock m mbi ts) (kernelStart kernelEndPlusHeap : UInt32) :
    (∀ pre x post,
      bootTouches m ts kernelStart.toNat kernelEndPlusHeap.toNat = pre ++ x :: post →
        GuardPasses (pre.foldl touch (reserveAll init)) x) ∧
    ∃ s, start m mbi kernelStart.toNat kernelEndPlusHeap.toNat init = some s ∧
      ∀ ls t, (pageLts s).Run ⟨s, ∅⟩ ls t → Counts t.pmm ∧ NoReuse ls ∧
        ∀ r page, .alloc r page ∈ ls → r = page.elim 0 (· * pageSize) := by
  refine ⟨fun pre x post h => bootTouches_pass m ts _ _ _ h, _, start_eq hb _ _ _,
    fun ls t hr => ⟨?_, reuse hr, fun r page hmem => run_alloc hr hmem⟩⟩
  exact hr.invariant (I := fun t => Counts t.pmm) (booting_start m ts _ _ _).counts
    fun _ _ _ hs hst => hs.step hst

/-- The counters of a machine with one entry in its memory map. -/
theorem counters_agree_smallMap :
    ∃ s, start smallMap 0x9000 0x100000 0x600000 init = some s ∧
      ∀ ls t, (pageLts s).Run ⟨s, ∅⟩ ls t → Counts t.pmm := by
  obtain ⟨s, hs, hr⟩ := (counters_agree smallMap_wf 0x100000 0x600000).2
  exact ⟨s, hs, fun ls t h => (hr ls t h).1⟩

end Pmm

end Shiro
