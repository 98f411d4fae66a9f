import Shiro.Pmm.Boot

/-!
# Freeing what was not handed out

`FreePage` ignores a page whose bit is clear, which its comment calls a double free.  But the bit is
set for the pages that `AllocPage` has handed out and for those that were reserved at boot alike,
so freeing a reserved page makes it free.  One such address is zero, which `AllocPage` returns
when it fails.

* `Unreserved` : a page that was free after boot.
* `Ledger` : the free pages and those handed out are the ones that were free after boot.
* `Guarded` : bad frees change nothing, and what follows from that.
* `guarded_iff` : **a run has this property** exactly when no reserved page is freed.
-/

namespace Shiro

open Multiboot

namespace Pmm

/-- If this is `FreePage(a)`, the page of `a` was free in the state `s` that `PMM::Start` left. -/
def Unreserved (s : Pmm) : PageOp → Prop
  | .alloc _ _ => True
  | .free a => s.ready = true → a.toNat / pageSize ∈ s.freeSet

/-- The books after boot in state `s`: a page that was free then is free or handed out. -/
structure Ledger (s : Pmm) (t : Session) : Prop where
  ready : t.pmm.ready = s.ready
  idle : s.ready = false → t.out = ∅
  free : t.pmm.freeSet = s.freeSet \ t.out
  out : t.out ⊆ s.freeSet
  used : t.pmm.usedPages = s.usedPages + t.out.card

/-- In the run `ls` from `s` on `FreePage` of a page that is not handed out changes nothing,
`used_pages` does not wrap, no reserved page gets free, and `AllocPage` fails only when no page is
free. -/
structure Guarded (s : Pmm) (ls : List PageOp) : Prop where
  reject : ∀ pre a t, pre ++ [.free a] <+: ls → (pageLts s).Run ⟨s, ∅⟩ pre t →
    a.toNat / pageSize ∉ t.out → freePage t.pmm a.toNat = t.pmm
  used : ∀ pre a t, pre ++ [.free a] <+: ls → (pageLts s).Run ⟨s, ∅⟩ pre t →
    freePage t.pmm a.toNat ≠ t.pmm → 0 < t.pmm.usedPages
  reserved : ∀ pre t, pre <+: ls → (pageLts s).Run ⟨s, ∅⟩ pre t → t.pmm.freeSet ⊆ s.freeSet
  alloc : ∀ pre t, pre <+: ls → (pageLts s).Run ⟨s, ∅⟩ pre t → (allocPage t.pmm).2 = 0 →
    t.pmm.freeSet = ∅

variable {m : Mem} {mbi kernelStart kernelEndPlusHeap : ℕ} {s s₀ : Pmm} {t t' : Session}
  {l : PageOp} {a : UInt32} {p : ℕ}

/-! ### After boot -/

/-- What holds when `PMM::Start` returns. -/
structure Started (s : Pmm) : Prop extends Booting s where
  zero : 0 ∉ s.freeSet
  disabled : s.ready = false → s.freeSet = ∅

theorem Booting.started (h : Booting s) (h0 : 0 ∉ s.freeSet) : Started { s with ready := true } :=
  ⟨⟨h.free, h.sum, h.total⟩, h0, Bool.noConfusion⟩

/-- The body of the loop over the tags only frees. -/
theorem booting_visitTag {cursor : ℕ} {r : ForInStep Pmm} (hs : Booting s ∧ s.usedPages = 0)
    (h : visitTag m cursor s = some r) : Booting r.value ∧ r.value.usedPages = 0 := by
  unfold visitTag at h
  split at h
  · dsimp only at h
    split at h
    · cases h
    · cases h
      rw [ForInStep.value, ← List.foldl_map, foldl_freeEntry]
      exact hs.1.frees hs.2 fun x hx => mem_freeTouches hx
  · cases h
    exact hs

/-- The first page is among those that are reserved last. -/
theorem zero_mem_outwardPages : 0 ∈ outwardPages 0 0x100000 :=
  (mem_outwardPages (by decide) (by decide)).2 ⟨by decide, by decide⟩

/-- **Whatever the info block says**, the counters fit the bitmap when `PMM::Start` returns, and the
first page is reserved. -/
theorem started_of_start (h : start m mbi kernelStart kernelEndPlusHeap init = some s) :
    Started s := by
  have hempty := freeSet_reserveAll init
  rw [start] at h
  split at h
  · cases h
    refine ⟨booting_reserveAll init, ?_, fun _ => hempty⟩
    rw [hempty]
    exact Finset.notMem_empty 0
  · obtain ⟨u, hwalk, rfl⟩ := Option.map_eq_some_iff.1 h
    have hu := walkTags_invariant (I := fun u => Booting u ∧ u.usedPages = 0)
      (fun cursor u r => booting_visitTag) ⟨booting_reserveAll init, rfl⟩ hwalk
    have huses : Booting (reserveKernel u kernelStart kernelEndPlusHeap) := by
      rw [reserveKernel, markRangeUsed_eq, markRangeUsed_eq, ← List.foldl_append]
      exact hu.1.uses fun x hx => mem_useTouches hx
    refine huses.started ?_
    rw [reserveKernel, markRangeUsed, freeSet_foldl_touchUsed, Finset.mem_sdiff]
    exact fun hmem => hmem.2 (List.mem_toFinset.2 zero_mem_outwardPages)

/-! ### The two calls -/

theorem page_lt (a : UInt32) : a.toNat / pageSize < maxPages := by
  have hlt := a.toNat_lt
  rw [maxPages_eq, pageSize]
  omega

/-- A page is free or its bit is set. -/
theorem isUsed_page_iff (s : Pmm) (a : UInt32) :
    isUsed s.bitmap (a.toNat / pageSize) = true ↔ a.toNat / pageSize ∉ s.freeSet := by
  rw [mem_freeSet, and_iff_right (page_lt a), Bool.not_eq_false]

/-- **`FreePage` clears the bit** of its page if it is set. -/
theorem freePage_of_used (hready : s.ready = true) (hused : a.toNat / pageSize ∉ s.freeSet) :
    (freePage s a.toNat).freeSet = insert (a.toNat / pageSize) s.freeSet ∧
      (freePage s a.toNat).usedPages = sub32 s.usedPages 1 ∧ (freePage s a.toNat).ready = true := by
  have heq : freePage s a.toNat =
      { s with
        bitmap := setFree s.bitmap (a.toNat / pageSize)
        freePages := u32 (s.freePages + 1)
        usedPages := sub32 s.usedPages 1 } := by
    simp [freePage, hready, (isUsed_page_iff s a).2 hused, Nat.not_le_of_lt (page_lt a)]
  rw [heq]
  refine ⟨?_, rfl, hready⟩
  simp only [freeSet, setFree_eq, Bitmap.clearBits_clear _ (page_lt a)]

/-- Otherwise it does nothing. -/
theorem freePage_of_free (h : s.ready = true → a.toNat / pageSize ∈ s.freeSet) :
    freePage s a.toNat = s := by
  unfold freePage
  cases hready : s.ready with
  | false => rfl
  | true =>
    have hclear : isUsed s.bitmap (a.toNat / pageSize) = false := (mem_freeSet.1 (h hready)).2
    simp [hclear]

/-- The scan fails only when no page is free. -/
theorem freeSet_of_scan_none (h : scan s.bitmap = none) : s.freeSet = ∅ := by
  refine Finset.eq_empty_of_forall_notMem fun p hp => ?_
  obtain ⟨hlt, hclear⟩ := mem_freeSet.1 hp
  rw [isUsed_eq, Bitmap.get] at hclear
  have hbit : p % 8 < 8 := Nat.mod_lt _ (by decide)
  have hbyte : p / 8 ∈ List.range bitmapBytes := by
    have hbytes : bitmapBytes = 131072 := rfl
    rw [maxPages_eq] at hlt
    exact List.mem_range.2 (by omega)
  have hnone := List.findSome?_eq_none_iff.1 h (p / 8) hbyte
  split at hnone
  · rename_i hff
    have hone : ∀ i < 8, (0xFF : BitVec 8).getLsbD i = true := by decide
    rw [hff, hone _ hbit] at hclear
    cases hclear
  · have hscan := List.find?_eq_none.1 (Option.map_eq_none_iff.1 hnone) (p % 8)
      (List.mem_range.2 hbit)
    rw [decide_eq_true_eq, and_one_shiftLeft_eq_zero] at hscan
    exact hscan hclear

/-- **`AllocPage` fails only when no page is free**, as long as the first page is not. -/
theorem freeSet_of_allocPage (h0 : 0 ∉ s.freeSet) (hdisabled : s.ready = false → s.freeSet = ∅)
    (h : (allocPage s).2 = 0) : s.freeSet = ∅ := by
  rcases allocPage_cases s with ⟨htaken, -⟩ | ⟨p, hp, -, heq⟩
  · cases hready : s.ready with
    | false => exact hdisabled hready
    | true =>
      rw [taken, hready] at htaken
      exact freeSet_of_scan_none htaken
  · rw [heq] at h
    have hzero : p = 0 := by
      rcases Nat.mul_eq_zero.1 h with hp0 | hps
      · exact hp0
      · cases hps
    exact absurd (hzero ▸ hp) h0

/-! ### The books -/

theorem ledger_init (s : Pmm) : Ledger s ⟨s, ∅⟩ where
  ready := rfl
  idle _ := rfl
  free := Finset.sdiff_empty.symm
  out := Finset.empty_subset _
  used := rfl

theorem Ledger.subset (h : Ledger s t) : t.pmm.freeSet ⊆ s.freeSet := by
  rw [h.free]
  exact Finset.sdiff_subset

/-- **An allocation moves a page** from the free ones to those handed out. -/
theorem Ledger.alloc (hs : Started s) (h : Ledger s t) {p' : Pmm} {r : ℕ}
    (ha : allocPage t.pmm = (p', r)) :
    Ledger s ⟨p', (taken t.pmm).elim t.out (insert · t.out)⟩ := by
  rcases allocPage_cases t.pmm with ⟨htaken, heq⟩ | ⟨p, hp, htaken, heq⟩
  · cases heq.symm.trans ha
    rw [htaken]
    exact h
  · cases heq.symm.trans ha
    rw [h.free, Finset.mem_sdiff] at hp
    rw [htaken]
    have hcard := Finset.card_insert_of_notMem hp.2
    have hout : insert p t.out ⊆ s.freeSet := Finset.insert_subset hp.1 h.out
    refine ⟨h.ready, fun hready => ?_, ?_, hout, ?_⟩
    · rw [taken, h.ready, hready] at htaken
      cases htaken
    · show Bitmap.clearBits maxPages (setUsed t.pmm.bitmap p) = s.freeSet \ insert p t.out
      rw [setUsed_eq, Bitmap.clearBits_set, Finset.sdiff_insert, ← h.free]
      rfl
    · show u32 (t.pmm.usedPages + 1) = s.usedPages + (insert p t.out).card
      have hle := Finset.card_le_card hout
      have hsum := hs.sum
      have hfree := hs.free
      have hmax := maxPages_eq
      rw [h.used, hcard, u32_of_lt (by omega), Nat.add_assoc]

/-- **A free of an unreserved page** moves it back, if it was handed out. -/
theorem Ledger.freePage (h : Ledger s t) (hok : Unreserved s (.free a)) (hs : Started s) :
    Ledger s ⟨freePage t.pmm a.toNat, t.out.erase (a.toNat / pageSize)⟩ := by
  by_cases hmem : a.toNat / pageSize ∈ t.out
  · have hready : t.pmm.ready = true := by
      by_contra hnot
      rw [h.ready, Bool.not_eq_true] at hnot
      rw [h.idle hnot] at hmem
      exact Finset.notMem_empty _ hmem
    have hused : a.toNat / pageSize ∉ t.pmm.freeSet := by
      rw [h.free, Finset.mem_sdiff]
      exact fun hand => hand.2 hmem
    obtain ⟨hfree, husedPages, hready'⟩ := freePage_of_used hready hused
    have hcard := Finset.card_erase_add_one hmem
    refine ⟨hready'.trans (hready.symm.trans h.ready), fun hnot => ?_, ?_, ?_, ?_⟩
    · rw [← h.ready, hready] at hnot
      cases hnot
    · show (Pmm.freePage t.pmm a.toNat).freeSet = _
      rw [hfree, h.free, Finset.sdiff_erase (h.out hmem)]
    · exact (Finset.erase_subset _ _).trans h.out
    · show (Pmm.freePage t.pmm a.toNat).usedPages =
        s.usedPages + (t.out.erase (a.toNat / pageSize)).card
      have hle := Finset.card_le_card h.out
      have hsum := hs.sum
      have hfreePages := hs.free
      have hmax := maxPages_eq
      rw [husedPages, h.used, sub32_of_le (by omega) (by omega)]
      omega
  · have hsame : Pmm.freePage t.pmm a.toNat = t.pmm := by
      refine freePage_of_free fun hready => ?_
      rw [h.free, Finset.mem_sdiff]
      exact ⟨hok (h.ready.symm.trans hready), hmem⟩
    rw [hsame, Finset.erase_eq_of_notMem hmem]
    exact h

/-- **Every step keeps the books** that frees no reserved page. -/
theorem Ledger.step (hs : Started s) (h : Ledger s t) (hok : Unreserved s l) (hst : t.Step l t') :
    Ledger s t' := by
  cases hst with
  | alloc ha => exact h.alloc hs ha
  | free => exact h.freePage hok hs

/-- **A reserved page that is freed gets free.** -/
theorem Ledger.not_subset (h : Ledger s t) (hbad : ¬ Unreserved s l) (hst : t.Step l t') :
    ¬ t'.pmm.freeSet ⊆ s.freeSet := by
  cases hst with
  | alloc ha => exact absurd trivial hbad
  | @free a =>
    obtain ⟨hready, hnot⟩ : s.ready = true ∧ a.toNat / pageSize ∉ s.freeSet :=
      Classical.not_imp.1 hbad
    have hused : a.toNat / pageSize ∉ t.pmm.freeSet := by
      rw [h.free, Finset.mem_sdiff]
      exact fun hand => hnot hand.1
    intro hsub
    refine hnot (hsub ?_)
    rw [(freePage_of_used (h.ready.trans hready) hused).1]
    exact Finset.mem_insert_self _ _

/-- **Bad frees change nothing, and what follows from that**, in exactly the runs that free no
reserved page. -/
theorem guarded_iff (hstart : start m mbi kernelStart kernelEndPlusHeap init = some s)
    (ls : List PageOp) :
    Guarded s ls ↔ ∀ pre l t t', pre ++ [l] <+: ls → (pageLts s).Run ⟨s, ∅⟩ pre t →
      (pageLts s).step t l t' → Unreserved s l := by
  have hs := started_of_start hstart
  have hreserved : (∀ pre t, pre <+: ls → (pageLts s).Run ⟨s, ∅⟩ pre t →
      t.pmm.freeSet ⊆ s.freeSet) ↔ _ :=
    Lts.Run.forall_iff (I := Ledger s) ls (ledger_init s) (fun t h => h.subset)
      (fun t l t' h (hok : Unreserved s l) hst => h.step hs hok hst)
      fun t l t' h hbad hst => h.not_subset hbad hst
  refine ⟨fun h => hreserved.1 h.reserved, fun hok => ?_⟩
  have hledger : ∀ pre t, pre <+: ls → (pageLts s).Run ⟨s, ∅⟩ pre t → Ledger s t := by
    intro pre t hle hrun
    refine hrun.invariant_of_ok (ledger_init s)
      (fun t l t' h (hok : Unreserved s l) hst => h.step hs hok hst) ?_
    intro pre' l u u' hle'
    exact hok pre' l u u' (hle'.trans hle)
  have hfree : ∀ pre a t, pre ++ [.free a] <+: ls → (pageLts s).Run ⟨s, ∅⟩ pre t →
      Ledger s t ∧ (s.ready = true → a.toNat / pageSize ∈ s.freeSet) := by
    intro pre a t hle hrun
    exact ⟨hledger pre t ((List.prefix_append _ _).trans hle) hrun,
      hok pre (.free a) t _ hle hrun .free⟩
  refine ⟨?_, ?_, hreserved.2 hok, ?_⟩
  · intro pre a t hle hrun hnot
    obtain ⟨h, hmem⟩ := hfree pre a t hle hrun
    refine freePage_of_free fun hready => ?_
    rw [h.free, Finset.mem_sdiff]
    exact ⟨hmem (h.ready.symm.trans hready), hnot⟩
  · intro pre a t hle hrun hchange
    obtain ⟨h, hmem⟩ := hfree pre a t hle hrun
    have hout : a.toNat / pageSize ∈ t.out := by
      by_contra hnot
      refine hchange (freePage_of_free fun hready => ?_)
      rw [h.free, Finset.mem_sdiff]
      exact ⟨hmem (h.ready.symm.trans hready), hnot⟩
    rw [h.used]
    exact Nat.add_pos_right _ (Finset.card_pos.2 ⟨_, hout⟩)
  · intro pre t hle hrun halloc
    have h := hledger pre t hle hrun
    refine freeSet_of_allocPage (fun h0 => hs.zero (h.subset h0)) (fun hready => ?_) halloc
    refine Finset.subset_empty.1 (h.subset.trans ?_)
    rw [hs.disabled (h.ready.symm.trans hready)]

/-- The runs of a machine with one entry in its memory map. -/
theorem guarded_smallMap : ∃ s, start smallMap 0x9000 0x100000 0x600000 init = some s ∧
    ∀ ls, Guarded s ls ↔ ∀ pre l t t', pre ++ [l] <+: ls → (pageLts s).Run ⟨s, ∅⟩ pre t →
      (pageLts s).step t l t' → Unreserved s l :=
  ⟨_, start_eq smallMap_wf _ _ _, guarded_iff (start_eq smallMap_wf _ _ _)⟩

/-- On such a machine `FreePage(0)` makes the first page free. -/
theorem not_guarded_zero :
    ¬ ∀ m mbi ts kernelStart kernelEndPlusHeap s ls, InfoBlock m mbi ts →
      start m mbi kernelStart kernelEndPlusHeap init = some s → Guarded s ls := by
  intro hall
  have hstart := start_eq smallMap_wf 0x100000 0x600000 init
  have hs := started_of_start hstart
  have hguarded := hall _ _ _ _ _ _ [.free 0] smallMap_wf hstart
  refine (ledger_init _).not_subset (l := .free 0) (fun hok => hs.zero (hok rfl)) .free ?_
  exact hguarded.reserved [.free 0] _ (List.prefix_refl _) (.snoc .nil .free)

end Pmm

end Shiro
