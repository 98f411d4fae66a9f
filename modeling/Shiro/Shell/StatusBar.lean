import Shiro.Heap.Run
import Shiro.Pmm.Ledger
import Shiro.Sched.Table
import Shiro.Shell.Peek

/-!
# Lines of eighty bytes

The status bar and the rows of `dumpmem` are built in buffers of eighty bytes, with stores that
nothing guards between numbers of some length.  The numbers are short enough: the heap counts its
bytes in 32 bits, the memory manager has 2 ^ 20 pages, the scheduler eight tasks.

* `DemoTasks.statusLine`, `DemoTasks.taskStatusbar` : the line of the status bar.
* `fits_statusLine`, `fits_dumpRow` : the two lines fit.
* `lines_fit` : **they do in every reachable state**, and for whatever is in memory.
-/

namespace Shiro

open Multiboot Stores

/-- `Scheduler::Count()`. -/
def Sched.count {E : Type*} (s : Sched E) : ℕ :=
  (List.finRange maxTasks).countP fun i => (s.tasks i).state ≠ .unused

namespace DemoTasks

/-- What stands between two metrics. -/
def bar : List UInt8 := [32, 32, 0xB3, 32, 32]

/-- The line that `task_statusbar` builds from what its calls return: the ticks, the bytes used,
these again, the bytes free, the free pages, the number of tasks, and the ticks again. -/
def statusLine (ticks used used' free pages count ticks' : ℕ) : Stores ℕ := do
  let totalSec := ticks / tickHz
  let h := totalSec / 3600
  let m := totalSec / 60 % 60
  let s := totalSec % 60
  -- " up HH:MM:SS"
  let j ← puts 0 (text " up ")
  (u32To2Digit h).offset j
  let j := j + 2
  let j ← puts j (text ":")
  (u32To2Digit m).offset j
  let j := j + 2
  let j ← puts j (text ":")
  (u32To2Digit s).offset j
  let j := j + 2
  -- "  |  mem <K>K/<M>M"
  let j ← puts j (bar ++ text "mem ")
  let j := j + (← (u32ToStr (used / 1024) (80 - j)).offset j)
  let j ← puts j (text "K/")
  let j := j + (← (u32ToStr (u32 (used' + free) / (1024 * 1024)) (80 - j)).offset j)
  let j ← puts j (text "M")
  -- "  |  pmm <M>M free"
  let j ← puts j (bar ++ text "pmm ")
  let j := j + (← (u32ToStr (pages / 256) (80 - j)).offset j)
  let j ← puts j (text "M free")
  -- "  |  tasks N"
  let j ← puts j (bar ++ text "tasks ")
  let j := j + (← (u32ToStr count (80 - j)).offset j)
  -- "  |  ticks NNNN"
  let j ← puts j (bar ++ text "ticks ")
  let j := j + (← (u32ToStr ticks' (80 - j)).offset j)
  put j 0
  return j

/-- The body of the loop of `task_statusbar`, up to the end of the line. -/
def taskStatusbar {E : Type*} (h : Heap) (p : Pmm) (s : Sched E) (ticks : ℕ) : Stores ℕ :=
  statusLine ticks h.bytesUsed h.bytesUsed h.bytesFree p.freePages s.count ticks

end DemoTasks

variable {v d j k : ℕ} {n : ℤ}

/-! ### Numbers in a line -/

theorem within_u32ToStr (v : ℕ) (cap : ℤ) : (DemoTasks.u32ToStr v cap).Within cap := by
  rw [u32ToStr_eq]
  by_cases hcap : 0 < cap
  · have hpos : 0 < cap.toNat := by omega
    have hlen := length_intToStr_lt v hpos
    exact (writes_intToStr v hcap).within (by omega)
  · rw [intToStr_of_nonpos v (by omega)]
    exact within_pure 0

theorem value_u32ToStr_lt (v : ℕ) {cap : ℤ} (hcap : 0 < cap) :
    (DemoTasks.u32ToStr v cap).value < cap := by
  have hpos : 0 < cap.toNat := by omega
  have hlen := length_intToStr_lt v hpos
  rw [u32ToStr_eq, (writes_intToStr v hcap).value]
  omega

theorem value_u32ToStr_le (hv : v < 2 ^ 32) (hd : 0 < d) (hvd : v < 10 ^ d) (cap : ℤ) :
    (DemoTasks.u32ToStr v cap).value ≤ d := by
  rw [u32ToStr_eq, (prints_intToStr hv cap).value, List.length_take]
  exact (Nat.min_le_right _ _).trans ((length_numeral_le_iff (by decide) hd).2 hvd)

/-- A number of at most `d` digits behind `j` bytes of the line. -/
theorem ends_u32ToStr (hv : v < 2 ^ 32) (hd : 0 < d) (hvd : v < 10 ^ d) (j : ℕ) :
    ((DemoTasks.u32ToStr v (80 - j)).offset j).Ends 80 d :=
  ⟨within_offset.2 (within_u32ToStr v _), value_u32ToStr_le hv hd hvd _⟩

theorem within_u32To2Digit (v : ℕ) (h : j + 2 ≤ 80) :
    ((DemoTasks.u32To2Digit v).offset j).Within 80 := by
  rw [within_offset, DemoTasks.u32To2Digit, within_bind, within_put, within_put]
  omega

namespace DemoTasks

/-- **The status bar fits**: 61 bytes, numbers of at most 7, 4, 4 and 1 digits, and the ticks as far
as there is room. -/
theorem fits_statusLine {ticks used used' free pages count ticks' : ℕ} (hused : used < 2 ^ 32)
    (hpages : pages ≤ Pmm.maxPages) (hcount : count ≤ maxTasks) :
    (statusLine ticks used used' free pages count ticks').Fits 80 := by
  have hmax := Pmm.maxPages_eq
  have htasks : maxTasks = 8 := rfl
  have hsum := u32_lt (used' + free)
  unfold statusLine
  dsimp only
  refine (ends_puts 4 (k := 0) le_rfl (by decide) (by decide)).fits fun j hj => ?_
  refine .after (within_u32To2Digit _ (by omega)) ?_
  refine (ends_puts 7 (k := 6) (by omega) (by decide) (by decide)).fits fun j hj => ?_
  refine .after (within_u32To2Digit _ (by omega)) ?_
  refine (ends_puts 10 (k := 9) (by omega) (by decide) (by decide)).fits fun j hj => ?_
  refine .after (within_u32To2Digit _ (by omega)) ?_
  refine (ends_puts 21 (k := 12) (by omega) (by decide) (by decide)).fits fun j hj => ?_
  refine (ends_u32ToStr (d := 7) (by omega) (by decide) (by omega) j).fits fun r hr => ?_
  refine (ends_puts 30 (k := 28) (by omega) (by decide) (by decide)).fits fun j hj => ?_
  refine (ends_u32ToStr (d := 4) (by omega) (by decide) (by omega) j).fits fun r hr => ?_
  refine (ends_puts 35 (k := 34) (by omega) (by decide) (by decide)).fits fun j hj => ?_
  refine (ends_puts 44 hj (by decide) (by decide)).fits fun j hj => ?_
  refine (ends_u32ToStr (d := 4) (by omega) (by decide) (by omega) j).fits fun r hr => ?_
  refine (ends_puts 54 (k := 48) (by omega) (by decide) (by decide)).fits fun j hj => ?_
  refine (ends_puts 65 hj (by decide) (by decide)).fits fun j hj => ?_
  refine (ends_u32ToStr (d := 1) (by omega) (by decide) (by omega) j).fits fun r hr => ?_
  refine (ends_puts 77 (k := 66) (by omega) (by decide) (by decide)).fits fun j hj => ?_
  -- the ticks and the NUL take what is left
  refine .after (within_offset.2 (within_u32ToStr _ _)) (fits_nul ?_)
  have hroom : (0 : ℤ) < 80 - j := by omega
  have hticks := value_u32ToStr_lt ticks' hroom
  rw [value_offset]
  omega

end DemoTasks

/-! ### A row of `dumpmem` -/

theorem ends_hexToStr (h : v < 2 ^ 32) : (Commands.hexToStr v 80).Ends 80 10 := by
  have hprints := prints_hexToStr v 80
  refine ⟨hprints.within, ?_⟩
  rw [hprints.value]
  exact length_hexToStr_le h _

theorem ends_appendStr (l : ℕ) {s : List UInt8} (h : j ≤ k) (hl : k + s.length ≤ l) (hn : l < 80) :
    (Commands.appendStr j 80 s).Ends 80 l := by
  have hlen : ((cstr s).take (80 - 1 - j : ℤ).toNat).length ≤ s.length :=
    (List.length_take_le' _ _).trans (List.takeWhile_sublist _).length_le
  rw [Commands.appendStr, putsBelow_eq]
  refine (ends_puts l h (by omega) (by omega)).bind fun i hi => ⟨?_, hi⟩
  exact within_bind.2 ⟨within_put.2 (by omega), within_pure i⟩

/-- Three characters for each byte, and one more in the middle. -/
theorem ends_hexColumn {bytes : List UInt8} (hb : bytes.length = 16) (h : j ≤ k)
    (hk : k + 49 ≤ 80) : (hexColumn bytes j).Ends 80 (k + 49) := by
  have hsum : (bytes.zipIdx.map fun x => if x.2 = 7 then 4 else 3).sum = 49 := by
    have hcols : bytes.zipIdx.map (fun x => if x.2 = 7 then 4 else 3) =
        (bytes.zipIdx.map Prod.snd).map fun col => if col = 7 then 4 else 3 := by
      rw [List.map_map]
      rfl
    rw [hcols, List.zipIdx_map_snd, hb]
    decide
  rw [← hsum] at hk ⊢
  refine ends_foldlM (fun x _ j k hj hk => ?_) h (by omega)
  dsimp only
  by_cases hcol : x.2 = 7
  · rw [if_pos hcol] at hk ⊢
    simp only [hcol, ↓reduceIte]
    refine (ends_puts (k + 3) hj le_rfl (by omega)).bind fun i hi => ?_
    exact ends_puts (k + 4) hi le_rfl (by omega)
  · rw [if_neg hcol] at hk ⊢
    simp only [hcol, ↓reduceIte]
    exact (ends_puts (k + 3) hj le_rfl (by omega)).bind fun i hi => ends_pure hi

/-- One character for each byte. -/
theorem ends_asciiColumn {bytes : List UInt8} (hb : bytes.length = 16) (h : j ≤ k)
    (hk : k + 16 ≤ 80) : (asciiColumn bytes j).Ends 80 (k + 16) := by
  have hsum : (bytes.map fun _ => 1).sum = 16 := by simp [hb]
  rw [← hsum] at hk ⊢
  refine ends_foldlM (fun x _ j k hj hk => ?_) h (by omega)
  exact ends_puts (k + 1) hj le_rfl hk

/-- **A row of `dumpmem` fits**, with the longest address in front of it. -/
theorem fits_dumpRow {addr : ℕ} {hexBytes asciiBytes : List UInt8} (haddr : addr < 2 ^ 32)
    (hhex : hexBytes.length = 16) (hascii : asciiBytes.length = 16) :
    (dumpRow addr hexBytes asciiBytes).Fits 80 := by
  unfold dumpRow
  refine (ends_hexToStr haddr).fits fun j hj => ?_
  refine (ends_appendStr 13 hj (by decide) (by decide)).fits fun j hj => ?_
  refine (ends_hexColumn hhex hj (by decide)).fits fun j hj => ?_
  refine (ends_puts 63 hj (by decide) (by decide)).fits fun j hj => ?_
  refine (ends_asciiColumn hascii hj (by decide)).fits fun j hj => ?_
  exact fits_nul (by omega)

/-! ### Every reachable state -/

namespace Heap

theorem bytesUsed_alloc {h h' : Heap} {size p : ℕ} (h32 : h.bytesUsed < 2 ^ 32)
    (ha : h.alloc size = some (h', p)) : h'.bytesUsed < 2 ^ 32 := by
  unfold alloc at ha
  split at ha
  · cases ha
    exact h32
  · obtain ⟨b, -, hb⟩ := Option.map_eq_some_iff.1 ha
    split at hb
    · cases hb
      exact h32
    · cases hb
      exact u32_lt _

theorem coalesceForward_bytesUsed (h : Heap) (b : ℕ) :
    (coalesceForward h b).bytesUsed = h.bytesUsed := by
  unfold coalesceForward
  dsimp only
  split <;> rfl

theorem coalesceBackward_bytesUsed {h h' : Heap} {b : ℕ} (hc : coalesceBackward h b = some h') :
    h'.bytesUsed = h.bytesUsed := by
  obtain ⟨prev, -, rfl⟩ := Option.map_eq_some_iff.1 hc
  split <;> rfl

theorem bytesUsed_free {h h' : Heap} {p : ℕ} (h32 : h.bytesUsed < 2 ^ 32)
    (hf : h.free p = some h') : h'.bytesUsed < 2 ^ 32 := by
  unfold free at hf
  dsimp only at hf
  split at hf
  · cases hf
    exact h32
  split at hf
  · cases hf
    exact h32
  split at hf
  · cases hf
    exact h32
  · rw [coalesceBackward_bytesUsed hf, coalesceForward_bytesUsed]
    exact u32_lt _

/-- The heap counts its bytes in 32 bits. -/
theorem bytesUsed_lt {m : Mem} {kernelEnd baseHint : UInt32} {c : Client}
    (hc : (clientLts m kernelEnd baseHint).Reachable c) : c.heap.bytesUsed < 2 ^ 32 := by
  obtain ⟨c₀, ls, rfl, hr⟩ := hc
  have hstart : (start m kernelEnd.toNat baseHint.toNat).bytesUsed = 0 := rfl
  have h0 : (start m kernelEnd.toNat baseHint.toNat).bytesUsed < 2 ^ 32 := by
    rw [hstart]
    exact Nat.two_pow_pos 32
  refine hr.invariant (I := fun c => c.heap.bytesUsed < 2 ^ 32) h0 fun c l c' h32 hst => ?_
  cases hst with
  | alloc ha => exact bytesUsed_alloc h32 ha
  | free _ hf => exact bytesUsed_free h32 hf
  | store => exact h32

end Heap

theorem Sched.count_le {E : Type*} (s : Sched E) : s.count ≤ maxTasks :=
  (List.countP_le_length).trans_eq (List.length_finRange)

/-- The pages that are free are pages. -/
theorem Pmm.freePages_le {m : Mem} {mbi kernelStart kernelEndPlusHeap : ℕ} {s : Pmm}
    (hs : Pmm.start m mbi kernelStart kernelEndPlusHeap Pmm.init = some s) {ls : List PageOp}
    {t : Session} (hr : (pageLts s).Run ⟨s, ∅⟩ ls t) : t.pmm.freePages ≤ maxPages := by
  have hcounts : Counts t.pmm := by
    refine hr.invariant (I := fun t => Counts t.pmm) ?_ fun _ _ _ h hst => h.step hst
    have hstarted := started_of_start hs
    exact ⟨hstarted.free, congrArg u32 (hstarted.sum.trans hstarted.total.symm)⟩
  rw [hcounts.free]
  exact card_freeSet_le t.pmm

/-- The rows that `dumpmem` prints fit. -/
theorem fits_cmdDumpmem (m : Mem) (addr : ℕ) (args : List UInt8) {c : Stores ℕ}
    (hc : .buf c ∈ (cmdDumpmem addr args).run m) : c.Fits 80 := by
  unfold cmdDumpmem at hc
  dsimp only at hc
  split at hc
  · simp at hc
  · rw [Reads.run_collect, List.nil_append, List.mem_map] at hc
    obtain ⟨row, -, hrow⟩ := hc
    rw [dumpRowReads, Reads.run_bind, Reads.run_readBytes, Reads.run_bind, Reads.run_readBytes,
      Reads.run_pure] at hrow
    obtain rfl := Printed.buf.inj hrow
    exact fits_dumpRow (u32_lt _) (Mem.length_readBytes _ _ _) (Mem.length_readBytes _ _ _)

/-- **The status bar and the rows of `dumpmem` fit their buffers**, NUL included, for every
reachable heap and memory manager, every scheduler and tick count, and whatever is in memory. -/
theorem lines_fit {E : Type*} {m m' : Mem} {kernelEnd baseHint : UInt32} {c : Heap.Client}
    {mbi kernelStart kernelEndPlusHeap : ℕ} {s : Pmm} {ls : List Pmm.PageOp} {t : Pmm.Session}
    (hheap : (Heap.clientLts m kernelEnd baseHint).Reachable c)
    (hstart : Pmm.start m' mbi kernelStart kernelEndPlusHeap Pmm.init = some s)
    (hpages : (Pmm.pageLts s).Run ⟨s, ∅⟩ ls t) (sched : Sched E) (ticks : UInt32) :
    (DemoTasks.taskStatusbar c.heap t.pmm sched ticks.toNat).Fits 80 ∧
      ∀ (m : Mem) (addr : ℕ) (args : List UInt8), ∀ c, .buf c ∈ (cmdDumpmem addr args).run m →
        c.Fits 80 :=
  ⟨DemoTasks.fits_statusLine (Heap.bytesUsed_lt hheap) (Pmm.freePages_le hstart hpages)
    sched.count_le, fun m addr args _ hc => fits_cmdDumpmem m addr args hc⟩

/-- The status bar after an `Alloc` and an `AllocPage`, at the last tick of the counter. -/
theorem lines_fit_used : ∃ h s, h.bytesUsed = 5000 ∧
    Pmm.start smallMap 0x9000 0x100000 0x600000 Pmm.init = some s ∧
    (DemoTasks.taskStatusbar h (Pmm.allocPage s).1 (Sched.start 0)
      (0xFFFFFFFF : UInt32).toNat).Fits 80 := by
  have hrun : (Heap.alloc (Heap.start (fun _ => 0) 0x200000 0) 5000).map (fun a => a.1.bytesUsed) =
      some 5000 := by
    decide +kernel
  obtain ⟨⟨h, p⟩, ha, hused⟩ := Option.map_eq_some_iff.1 hrun
  have hheap : (Heap.clientLts (fun _ => 0) 0x200000 0).Reachable ⟨h, _⟩ :=
    (Lts.Reachable.of_init rfl).step (.alloc (n := 5000) ha)
  obtain ⟨s, hstart⟩ : ∃ s, Pmm.start smallMap 0x9000 0x100000 0x600000 Pmm.init = some s :=
    ⟨_, Pmm.start_eq smallMap_wf 0x100000 0x600000 Pmm.init⟩
  have hpages : (Pmm.pageLts s).Run ⟨s, ∅⟩ [.alloc s.allocPage.2 (Pmm.taken s)]
      ⟨s.allocPage.1, (Pmm.taken s).elim ∅ (insert · ∅)⟩ :=
    .snoc .nil (.alloc Prod.mk.eta.symm)
  exact ⟨h, s, hused, hstart, (lines_fit hheap hstart hpages (Sched.start 0) 0xFFFFFFFF).1⟩

end Shiro
