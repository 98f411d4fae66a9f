import Shiro.Multiboot.Info
import Shiro.Pmm.Boot

/-!
# Free memory and reported memory

The memory map is read twice.  `Multiboot::Start` adds up the lengths of its available entries, and
`PMM::Start` frees the pages inside each of them, once even if entries overlap.  What is free never
exceeds what was reported: each entry has at least the bytes of its pages, and the free pages are
among those of all the entries together.

* `entryPages` : the pages that `PMM::Start` visits for a list of entries.
* `freePages_le_available` : **`free_pages` never exceeds `mmap_total_available`**, over all runs
  that free only what was handed out.
-/

namespace Shiro

open Multiboot BootInfo

namespace Pmm

/-- The pages that `MarkRangeFree` visits for the entries `es`, one entry after the other. -/
def entryPages (es : List Entry) : List ℕ := es.flatMap fun e => inwardPages e.base e.length

variable {m : Mem} {mbi addr size kernelStart kernelEndPlusHeap : ℕ} {ts : List Tag} {s₀ s : Pmm}
  {es : List Entry}

/-- A range has at least the bytes of the pages inside it. -/
theorem length_inwardPages_le (h : addr + size ≤ 2 ^ 44) :
    (inwardPages addr size).length * pageSize ≤ size := by
  rcases Nat.lt_or_eq_of_le h with hlt | htop
  · have hpage : pageSize = 4096 := rfl
    rw [inwardPages_eq, u64_of_lt (by omega), u64_of_lt (by omega), pagesBetween, hpage,
      Nat.mul_div_cancel _ (by decide), Nat.mul_div_cancel _ (by decide)]
    split
    · simp
    · rw [u32_of_lt (by omega), u32_of_lt (by omega), List.length_range']
      split <;> omega
  · rw [inwardPages_top htop]
    simp

/-- The union bound over the entries. -/
theorem length_entryPages_le (hends : ∀ e ∈ es, e.base + e.length ≤ 2 ^ 44) :
    (entryPages es).length * pageSize ≤ (es.map Entry.length).sum := by
  induction es with
  | nil => simp [entryPages]
  | cons e es ih =>
    have he := length_inwardPages_le (hends e List.mem_cons_self)
    have hes := ih fun e' he' => hends e' (List.mem_cons_of_mem _ he')
    rw [entryPages] at hes
    rw [entryPages, List.flatMap_cons, List.length_append, Nat.add_mul, List.map_cons,
      List.sum_cons]
    exact Nat.add_le_add he hes

/-- The free pages behind `PMM::Start` are among the pages of the entries. -/
theorem freeSet_start_subset (ts : List Tag) (s : Pmm) :
    ((bootTouches m ts kernelStart kernelEndPlusHeap).foldl touch (reserveAll s)).freeSet ⊆
      (entryPages (available m ts)).toFinset := by
  intro p hp
  obtain ⟨⟨e, he, hpages⟩, -⟩ := (mem_freeSet_start ts s).1 hp
  exact List.mem_toFinset.2 (List.mem_flatMap.2 ⟨e, he, hpages⟩)

/-- The counter along a run is at most the number of pages that were free at its start. -/
theorem freePages_le_card (hs : Counts s) {ls : List PageOp} {t : Session}
    (hr : ((pageLts s).guard Careful).Run ⟨s, ∅⟩ ls t) : t.pmm.freePages ≤ s.freeSet.card := by
  have hcounts : Counts t.pmm := hr.of_guard.invariant (I := fun t => Counts t.pmm) hs
    fun _ _ _ h hst => h.step hst
  have hsub : t.pmm.freeSet ⊆ s.freeSet := (careful_run hr).1.1
  calc t.pmm.freePages = t.pmm.freeSet.card := hcounts.free
    _ ≤ s.freeSet.card := Finset.card_le_card hsub

/-- **The free pages never exceed the memory that was reported**, from `PMM::Start` on and through
every series of `AllocPage` and `FreePage` of pages handed out. -/
theorem freePages_le_available (hb : InfoBlock m mbi ts)
    (hends : ∀ e ∈ available m ts, e.base + e.length ≤ 2 ^ 44)
    (hsum : ((available m ts).map Entry.length).sum < 2 ^ 64)
    (kernelStart kernelEndPlusHeap : ℕ) (s₀ : Pmm) :
    ∃ info s, BootInfo.start m bootloaderMagic mbi = some info ∧
      Pmm.start m mbi kernelStart kernelEndPlusHeap s₀ = some s ∧
      ∀ ls t, ((pageLts s).guard Careful).Run ⟨s, ∅⟩ ls t →
        t.pmm.freePages * pageSize ≤ info.mmapTotalAvailable := by
  refine ⟨_, _, BootInfo.start_eq hb, Pmm.start_eq hb kernelStart kernelEndPlusHeap s₀,
    fun ls t hr => ?_⟩
  have htotal : (summary m ts).mmapTotalAvailable = ((available m ts).map Entry.length).sum :=
    u64_of_lt hsum
  have hcount := freePages_le_card (booting_start m ts kernelStart kernelEndPlusHeap s₀).counts hr
  have hpages : t.pmm.freePages ≤ (entryPages (available m ts)).length :=
    calc t.pmm.freePages
      _ ≤ _ := hcount
      _ ≤ (entryPages (available m ts)).toFinset.card :=
        Finset.card_le_card (freeSet_start_subset ts s₀)
      _ ≤ (entryPages (available m ts)).length := List.toFinset_card_le _
  rw [htotal]
  exact (Nat.mul_le_mul_right _ hpages).trans (length_entryPages_le hends)

/-- A machine with 126 MiB in one entry. -/
theorem freePages_le_available_smallMap :
    ∃ info s, BootInfo.start smallMap bootloaderMagic 0x9000 = some info ∧
      Pmm.start smallMap 0x9000 0x100000 0x600000 init = some s ∧
      ∀ ls t, ((pageLts s).guard Careful).Run ⟨s, ∅⟩ ls t →
        t.pmm.freePages * pageSize ≤ info.mmapTotalAvailable := by
  refine freePages_le_available smallMap_wf ?_ ?_ 0x100000 0x600000 init <;>
  · rw [available_smallMap]
    decide

end Pmm

end Shiro
