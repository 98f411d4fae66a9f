import Shiro.Initrd.Basic
import Shiro.Multiboot.Info
import Shiro.Multiboot.Reads
import Shiro.Pmm.Boot

/-!
# Where the boot walks stop

`shiro_main`, `PMM::Start`, `Initrd::Start` and `Multiboot::Start` trust the boot loader: none of
them compares its cursor with the size of the block, or a size with the tag it belongs to.  So they
end, and stay inside the block, exactly when the sizes lead from tag to tag inside the block and
then to an end tag.  A field that is read again is read once here.

* `preScanReads`, `Pmm.startReads`, `Initrd.startReads`, `BootInfo.startReads` : the four walks.
* `WalksSafe` : they end, and stay inside.
* `Contained` : what the bytes of the block must be.
* `boot_walks` : **the walks are safe exactly then**, in particular on every well-formed block.
-/

namespace Shiro

open Multiboot Reads

/-! ### The four walks -/

/-- The body of the loop that looks for the end of the last boot module. -/
def preScanTagReads (tag acc : ℕ) : Reads ℕ UInt8 (Option (ForInStep ℕ)) := do
  let type ← read32 tag
  if type = tagModule then do
    let modEnd ← read32 (tag + 12)
    return some (.yield (if modEnd > acc then modEnd else acc))
  else return some (.yield acc)

/-- Step 1a of `shiro_main`. -/
def preScanReads (mbi : ℕ) : Reads ℕ UInt8 (Option ℕ) :=
  if mbi = 0 then return some 0
  else walkTagsReads preScanTagReads walkFuel (mbi + 8) 0

/-- The loop over the entries of the memory map at `tag`. -/
def entriesReads {σ : Type} (body : σ → ℕ → Reads ℕ UInt8 σ) (tag count entrySize : ℕ) (s : σ) :
    Reads ℕ UInt8 σ :=
  (List.range count).foldlM (fun s i => body s (tag + 16 + i * entrySize)) s

namespace Pmm

/-- The body of the loop over the entries of a memory map. -/
def freeEntryReads (s : Pmm) (entry : ℕ) : Reads ℕ UInt8 Pmm := do
  let type ← read32 (entry + 16)
  if type = memoryAvailable then do
    let base ← read64 entry
    let length ← read64 (entry + 8)
    return markRangeFree s base length
  else return s

/-- The body of the loop over the tags. -/
def visitTagReads (tag : ℕ) (s : Pmm) : Reads ℕ UInt8 (Option (ForInStep Pmm)) := do
  let type ← read32 tag
  if type = tagMmap then do
    let size ← read32 (tag + 4)
    let entrySize ← read32 (tag + 8)
    if entrySize = 0 then return none
    else do
      let s ← entriesReads freeEntryReads tag (sub32 size 16 / entrySize) entrySize s
      return some (.yield s)
  else return some (.yield s)

/-- `PMM::Start(mbi, kernel_start, kernel_end_plus_heap)`. -/
def startReads (mbi kernelStart kernelEndPlusHeap : ℕ) (s : Pmm) :
    Reads ℕ UInt8 (Option Pmm) :=
  let s := reserveAll s
  if mbi = 0 then return some s
  else do
    let found ← walkTagsReads visitTagReads walkFuel (mbi + 8) s
    return found.map fun s => { reserveKernel s kernelStart kernelEndPlusHeap with ready := true }

end Pmm

namespace Initrd

/-- The body of the loop over the tags. -/
def visitTagReads (tag : ℕ) (r : Initrd) : Reads ℕ UInt8 (Option (ForInStep Initrd)) := do
  let type ← read32 tag
  if type = tagModule then do
    let modStart ← read32 (tag + 8)
    let modEnd ← read32 (tag + 12)
    let word ← read32 modStart
    if word ≠ magic then return some (.yield r)
    else do
      let fileCount ← read32 (modStart + 4)
      return some (.done ⟨modStart, sub32 modEnd modStart, fileCount, u32 (modStart + 8), true⟩)
  else return some (.yield r)

/-- `Initrd::Start(mbi)`. -/
def startReads (mbi : ℕ) : Reads ℕ UInt8 (Option Initrd) :=
  let r : Initrd := ⟨0, 0, 0, 0, false⟩
  if mbi = 0 then return some r else walkTagsReads visitTagReads walkFuel (mbi + 8) r

end Initrd

namespace BootInfo

/-- The body of the loop over the entries of a memory map. -/
def addEntryReads (r : BootInfo) (entry : ℕ) : Reads ℕ UInt8 BootInfo := do
  let type ← read32 (entry + 16)
  if type = memoryAvailable then do
    let length ← read64 (entry + 8)
    return { r with mmapTotalAvailable := u64 (r.mmapTotalAvailable + length) }
  else return r

/-- The body of the loop over the tags. -/
def visitTagReads (tag : ℕ) (r : BootInfo) : Reads ℕ UInt8 (Option (ForInStep BootInfo)) := do
  let type ← read32 tag
  if type = tagCmdline then return some (.yield { r with cmdline := u32 (tag + 8) })
  else if type = tagMeminfo then do
    let memLower ← read32 (tag + 8)
    let memUpper ← read32 (tag + 12)
    return some (.yield { r with memLower := memLower, memUpper := memUpper })
  else if type = tagMmap then do
    let size ← read32 (tag + 4)
    let entrySize ← read32 (tag + 8)
    if entrySize = 0 then return none
    else do
      let count := sub32 size 16 / entrySize
      let r ← entriesReads addEntryReads tag count entrySize { r with mmapCount := count }
      return some (.yield r)
  else if type = tagFramebuffer then do
    let addr ← read64 (tag + 8)
    let width ← read32 (tag + 20)
    let height ← read32 (tag + 24)
    let bpp ← read8 (tag + 28)
    let type ← read8 (tag + 29)
    return some (.yield { r with
      fbAddr := addr
      fbWidth := width
      fbHeight := height
      fbBpp := bpp
      fbType := type })
  else return some (.yield r)

/-- `Multiboot::Start(magic, mbi)`. -/
def startReads (magic mbi : ℕ) : Reads ℕ UInt8 (Option BootInfo) :=
  if magic ≠ bootloaderMagic then return some reset
  else if mbi = 0 then return some reset
  else walkTagsReads visitTagReads walkFuel (mbi + 8) { reset with valid := true }

end BootInfo

/-! ### Safety -/

/-- The address `x` lies in the block, which is as long as its header says. -/
def InBlock (m : Mem) (mbi x : ℕ) : Prop := ∃ k < m.read32 mbi, x = u32 (mbi + k)

/-- The address `x` lies in the first two words of a module that a tag lists. -/
def InModuleHeader (m : Mem) (mbi x : ℕ) : Prop :=
  ∃ c, Visited m (mbi + 8) c ∧ m.read32 c = tagModule ∧ ∃ k < 8, x = u32 (m.read32 (c + 8) + k)

/-- The four walks end without a fault, and read nothing behind the block. -/
structure WalksSafe (m : Mem) (mbi : ℕ) : Prop where
  preScan : (preScan m mbi).isSome ∧ (preScanReads mbi).Within m (InBlock m mbi)
  pmm : ∀ kernelStart kernelEnd s, (Pmm.start m mbi kernelStart kernelEnd s).isSome ∧
    (Pmm.startReads mbi kernelStart kernelEnd s).Within m (InBlock m mbi)
  multiboot : (BootInfo.start m BootInfo.bootloaderMagic mbi).isSome ∧
    (BootInfo.startReads BootInfo.bootloaderMagic mbi).Within m (InBlock m mbi)
  /-- `Initrd::Start` looks at the modules besides. -/
  initrd : (Initrd.start m mbi).isSome ∧
    (Initrd.startReads mbi).Within m fun x => InBlock m mbi x ∨ InModuleHeader m mbi x
  /-- The size of a memory map does not underflow. -/
  mmap : ∀ c, Visited m (mbi + 8) c → m.read32 c = tagMmap → 16 ≤ m.read32 (c + 4)

/-- The entry of a memory map at `x` is read inside `P`. -/
def EntryFits (m : Mem) (P : ℕ → Prop) (x : ℕ) : Prop :=
  Bytes P (x + 16) 4 ∧ (m.read32 (x + 16) = memoryAvailable → Bytes P x 16)

/-- The tag at `c` has its size and its fields inside `P`, and a memory map has a size that makes
sense. -/
structure TagFits (m : Mem) (P : ℕ → Prop) (c : ℕ) : Prop where
  size : Bytes P (c + 4) 4
  module : m.read32 c = tagModule → Bytes P (c + 8) 8
  meminfo : m.read32 c = tagMeminfo → Bytes P (c + 8) 8
  framebuffer : m.read32 c = tagFramebuffer → Bytes P (c + 8) 8 ∧ Bytes P (c + 20) 10
  mmap : m.read32 c = tagMmap →
    16 ≤ m.read32 (c + 4) ∧ Bytes P (c + 8) 4 ∧ m.read32 (c + 8) ≠ 0
  entries : m.read32 c = tagMmap →
    ∀ i < (m.read32 (c + 4) - 16) / m.read32 (c + 8),
      EntryFits m P (c + 16 + i * m.read32 (c + 8))

/-- The sizes lead from tag to tag inside the block, and to an end tag. -/
structure Contained (m : Mem) (mbi : ℕ) : Prop where
  ends : ∃ c, Visited m (mbi + 8) c ∧ m.read32 c = tagEnd
  type : ∀ c, Visited m (mbi + 8) c → Bytes (InBlock m mbi) c 4
  tag : ∀ c, Visited m (mbi + 8) c → m.read32 c ≠ tagEnd → TagFits m (InBlock m mbi) c

/-- What the boot walks do with an info block. -/
structure BootWalks (m : Mem) (magic mbi : ℕ) : Prop where
  /-- `Multiboot::Start` does not look at it under another magic number. -/
  refused : magic ≠ BootInfo.bootloaderMagic → ∀ m',
    BootInfo.start m' magic mbi = some BootInfo.reset ∧
      (BootInfo.startReads magic mbi).trace m' = []
  /-- The walks are safe exactly when its tags are contained. -/
  contained : mbi ≠ 0 → (WalksSafe m mbi ↔ Contained m mbi)
  /-- They are safe on a well-formed block. -/
  wellFormed : ∀ ts, InfoBlock m mbi ts → WalksSafe m mbi

variable {m : Mem} {P : ℕ → Prop} {mbi a c e n x : ℕ} {ts : List Tag} {t : Tag}

/-! ### The results are those of the walks -/

theorem run_entriesReads {σ : Type} (m : Mem) (body : σ → ℕ → Reads ℕ UInt8 σ)
    (tag count entrySize : ℕ) (s : σ) : (entriesReads body tag count entrySize s).run m =
      (List.range count).foldl (fun s i => (body s (tag + 16 + i * entrySize)).run m) s :=
  run_foldlM m _ _ s

@[simp] theorem run_preScanReads (m : Mem) (mbi : ℕ) : (preScanReads mbi).run m = preScan m mbi := by
  have hbody : (fun tag acc => (preScanTagReads tag acc).run m) =
      fun tag acc => some (.yield (preScanTag m tag acc)) := by
    funext tag acc
    simp only [preScanTagReads, preScanTag, run_bind, run_read32, run_ite, run_pure]
    split <;> rfl
  rw [preScanReads, preScan, run_ite, run_walkTagsReads, hbody]
  rfl

@[simp] theorem Pmm.run_startReads (m : Mem) (mbi kernelStart kernelEnd : ℕ) (s : Pmm) :
    (Pmm.startReads mbi kernelStart kernelEnd s).run m = Pmm.start m mbi kernelStart kernelEnd s := by
  have hentry : (fun s entry => (Pmm.freeEntryReads s entry).run m) = Pmm.freeEntry m := by
    funext s entry
    simp only [Pmm.freeEntryReads, Pmm.freeEntry, run_bind, run_read32, run_read64, run_ite, run_pure]
  have hbody : (fun tag s => (Pmm.visitTagReads tag s).run m) = Pmm.visitTag m := by
    funext tag s
    simp only [Pmm.visitTagReads, Pmm.visitTag, run_bind, run_read32, run_ite, run_pure,
      run_entriesReads, ← hentry]
  simp only [Pmm.startReads, Pmm.start, run_ite, run_bind, run_pure, run_walkTagsReads, hbody]

@[simp] theorem Initrd.run_startReads (m : Mem) (mbi : ℕ) :
    (Initrd.startReads mbi).run m = Initrd.start m mbi := by
  have hbody : (fun tag r => (Initrd.visitTagReads tag r).run m) = Initrd.visitTag m := by
    funext tag r
    simp only [Initrd.visitTagReads, Initrd.visitTag, Initrd.loaded, run_bind, run_read32, run_ite,
      run_pure]
  simp only [Initrd.startReads, Initrd.start, run_ite, run_pure, run_walkTagsReads, hbody]

@[simp] theorem BootInfo.run_startReads (m : Mem) (magic mbi : ℕ) :
    (BootInfo.startReads magic mbi).run m = BootInfo.start m magic mbi := by
  have hentry : (fun r entry => (BootInfo.addEntryReads r entry).run m) = BootInfo.addEntry m := by
    funext r entry
    simp only [BootInfo.addEntryReads, BootInfo.addEntry, run_bind, run_read32, run_read64, run_ite,
      run_pure]
  have hbody : (fun tag r => (BootInfo.visitTagReads tag r).run m) = BootInfo.visitTag m := by
    funext tag r
    simp only [BootInfo.visitTagReads, BootInfo.visitTag, run_bind, run_read32, run_read64,
      run_read8, run_ite, run_pure, run_entriesReads, ← hentry]
  simp only [BootInfo.startReads, BootInfo.start, run_ite, run_pure, run_walkTagsReads, hbody]

/-! ### From tag to tag -/

theorem count_eq (h : 16 ≤ m.read32 (c + 4)) : sub32 (m.read32 (c + 4)) 16 = m.read32 (c + 4) - 16 :=
  sub32_of_le (Mem.read32_lt _ _) h

/-- The loop over the entries of a memory map that fits. -/
theorem TagFits.within_entries {σ : Type} {body : σ → ℕ → Reads ℕ UInt8 σ} (h : TagFits m P c)
    (hm : m.read32 c = tagMmap) (hbody : ∀ x s, EntryFits m P x → (body s x).Within m P) (s : σ) :
    (entriesReads body c (sub32 (m.read32 (c + 4)) 16 / m.read32 (c + 8)) (m.read32 (c + 8))
      s).Within m P := by
  rw [count_eq (h.mmap hm).1]
  exact within_foldlM (fun i hi s => hbody _ s (h.entries hm i (List.mem_range.1 hi))) s

theorem within_freeEntryReads {s : Pmm} :
    (Pmm.freeEntryReads s x).Within m P ↔ EntryFits m P x := by
  rw [Pmm.freeEntryReads, within_bind, within_read32, run_read32, EntryFits]
  refine and_congr_right fun _ => ?_
  split
  · rename_i havail
    simp only [within_bind, within_read64, within_pure, and_true, havail, forall_const]
    exact (bytes_add (n := 8) (k := 8)).symm
  · rename_i havail
    simp only [within_pure, true_iff]
    exact fun h => absurd h havail

theorem EntryFits.within_addEntryReads (h : EntryFits m P x) (r : BootInfo) :
    (BootInfo.addEntryReads r x).Within m P := by
  rw [BootInfo.addEntryReads, within_bind, within_read32, run_read32]
  refine ⟨h.1, ?_⟩
  split
  · rename_i havail
    rw [within_bind, within_read64]
    exact ⟨(h.2 havail).sub le_rfl, within_pure _⟩
  · exact within_pure _

theorem TagFits.within_preScanTag (h : TagFits m P c) (htype : Bytes P c 4) (acc : ℕ) :
    (preScanTagReads c acc).Within m P := by
  rw [preScanTagReads, within_bind, within_read32, run_read32]
  refine ⟨htype, ?_⟩
  split
  · rename_i hm
    rw [within_bind, within_read32]
    exact ⟨(h.module hm).sub (k := 4) le_rfl, within_pure _⟩
  · exact within_pure _

theorem TagFits.within_pmm (h : TagFits m P c) (htype : Bytes P c 4) (s : Pmm) :
    (Pmm.visitTagReads c s).Within m P := by
  rw [Pmm.visitTagReads, within_bind, within_read32, run_read32]
  refine ⟨htype, ?_⟩
  split
  · rename_i hm
    rw [within_bind, within_read32, run_read32, within_bind, within_read32, run_read32]
    refine ⟨h.size, (h.mmap hm).2.1, ?_⟩
    split
    · exact within_pure _
    · rw [within_bind]
      exact ⟨h.within_entries hm (fun _ _ => within_freeEntryReads.2) s, within_pure _⟩
  · exact within_pure _

theorem TagFits.within_multiboot (h : TagFits m P c) (htype : Bytes P c 4) (r : BootInfo) :
    (BootInfo.visitTagReads c r).Within m P := by
  rw [BootInfo.visitTagReads, within_bind, within_read32, run_read32]
  refine ⟨htype, ?_⟩
  split
  · exact within_pure _
  split
  · rename_i hm
    rw [within_bind, within_read32, within_bind, within_read32]
    have hfields := h.meminfo hm
    exact ⟨hfields.sub (k := 0) (by decide), hfields.sub (k := 4) (by decide), within_pure _⟩
  split
  · rename_i hm
    rw [within_bind, within_read32, run_read32, within_bind, within_read32, run_read32]
    refine ⟨h.size, (h.mmap hm).2.1, ?_⟩
    split
    · exact within_pure _
    · dsimp only
      rw [within_bind]
      exact ⟨h.within_entries hm (fun _ r hx => hx.within_addEntryReads r) _, within_pure _⟩
  split
  · rename_i hm
    obtain ⟨haddr, hrest⟩ := h.framebuffer hm
    simp only [within_bind, within_read64, within_read32, within_read8, within_pure, and_true]
    refine ⟨haddr, hrest.sub (k := 0) (by decide), hrest.sub (k := 4) (by decide), ?_, ?_⟩
    · exact hrest 8 (by decide)
    · exact hrest 9 (by decide)
  · exact within_pure _

theorem TagFits.within_initrd {Q : ℕ → Prop} (h : TagFits m P c) (htype : Bytes P c 4)
    (hheader : m.read32 c = tagModule → Bytes Q (m.read32 (c + 8)) 8) (r : Initrd) :
    (Initrd.visitTagReads c r).Within m fun x => P x ∨ Q x := by
  have hleft : ∀ {p n}, Bytes P p n → Bytes (fun x => P x ∨ Q x) p n :=
    fun hp => hp.mono fun _ => .inl
  rw [Initrd.visitTagReads, within_bind, within_read32, run_read32]
  refine ⟨hleft htype, ?_⟩
  split
  · rename_i hm
    have hfields := h.module hm
    have hwords : Bytes (fun x => P x ∨ Q x) (m.read32 (c + 8)) 8 :=
      (hheader hm).mono fun _ => .inr
    simp only [within_bind, within_read32, run_read32]
    refine ⟨hleft (hfields.sub (k := 0) (by decide)), hleft (hfields.sub (k := 4) (by decide)),
      hwords.sub (k := 0) (by decide), ?_⟩
    split
    · exact within_pure _
    · rw [within_bind, within_read32]
      exact ⟨hwords.sub (k := 4) (by decide), within_pure _⟩
  · exact within_pure _

/-! ### Contained tags make safe walks -/

/-- A walk along contained tags ends and reads what its body reads. -/
theorem Contained.walk {σ : Type} {body : ℕ → σ → Reads ℕ UInt8 (Option (ForInStep σ))}
    (h : Contained m mbi) (hP : ∀ x, InBlock m mbi x → P x)
    (hbody : ∀ c s, Visited m (mbi + 8) c → TagFits m (InBlock m mbi) c →
      Bytes (InBlock m mbi) c 4 → (body c s).Within m P ∧ ((body c s).run m).isSome) (s : σ) :
    ((walkTagsReads body walkFuel (mbi + 8) s).run m).isSome ∧
      (walkTagsReads body walkFuel (mbi + 8) s).Within m P := by
  constructor
  · rw [run_walkTagsReads]
    exact walkTags_isSome h.ends (fun c s hc hne => (hbody c s hc (h.tag c hc hne) (h.type c hc)).2) s
  · refine within_walkTagsReads ?_ ?_ ?_ s
    · exact fun c hc => (h.type c hc).mono hP
    · exact fun c hc hne => (h.tag c hc hne).size.mono hP
    · exact fun c s hc hne => (hbody c s hc (h.tag c hc hne) (h.type c hc)).1

theorem isSome_preScanTag (m : Mem) (c acc : ℕ) : ((preScanTagReads c acc).run m).isSome := by
  rw [preScanTagReads, run_bind, run_ite]
  split <;> rfl

theorem TagFits.isSome_pmm (h : TagFits m P c) (s : Pmm) :
    ((Pmm.visitTagReads c s).run m).isSome := by
  simp only [Pmm.visitTagReads, run_bind, run_read32, run_ite]
  split
  · rename_i hm
    rw [if_neg (h.mmap hm).2.2]
    rfl
  · rfl

theorem TagFits.isSome_multiboot (h : TagFits m P c) (r : BootInfo) :
    ((BootInfo.visitTagReads c r).run m).isSome := by
  simp only [BootInfo.visitTagReads, run_bind, run_read32, run_ite]
  split_ifs with h1 h2 hm hzero
  · rfl
  · rfl
  · exact absurd hzero (h.mmap hm).2.2
  · rfl
  · rfl
  · rfl

theorem isSome_initrd (m : Mem) (c : ℕ) (r : Initrd) :
    ((Initrd.visitTagReads c r).run m).isSome := by
  simp only [Initrd.visitTagReads, run_bind, run_read32, run_ite]
  split_ifs <;> rfl

/-- **On contained tags the walks are safe.** -/
theorem Contained.walksSafe (h : Contained m mbi) (hmbi : mbi ≠ 0) : WalksSafe m mbi where
  preScan := by
    rw [← run_preScanReads, preScanReads, if_neg hmbi]
    exact h.walk (fun _ hx => hx)
      (fun c acc _ hc htype => ⟨hc.within_preScanTag htype acc, isSome_preScanTag m c acc⟩) 0
  pmm kernelStart kernelEnd s := by
    have hwalk := h.walk (fun _ hx => hx)
      (fun c s _ hc htype => ⟨hc.within_pmm htype s, hc.isSome_pmm s⟩) (Pmm.reserveAll s)
    rw [← Pmm.run_startReads]
    dsimp only [Pmm.startReads]
    rw [if_neg hmbi, run_bind, run_pure, Option.isSome_map, within_bind]
    exact ⟨hwalk.1, hwalk.2, within_pure _⟩
  multiboot := by
    rw [← BootInfo.run_startReads, BootInfo.startReads, if_neg (not_not_intro rfl), if_neg hmbi]
    exact h.walk (fun _ hx => hx)
      (fun c r _ hc htype => ⟨hc.within_multiboot htype r, hc.isSome_multiboot r⟩) _
  initrd := by
    rw [← Initrd.run_startReads]
    dsimp only [Initrd.startReads]
    rw [if_neg hmbi]
    refine h.walk (fun _ hx => .inl hx) (fun c r hvis hc htype => ⟨?_, isSome_initrd m c r⟩) _
    exact hc.within_initrd htype (fun hm k hk => ⟨c, hvis, hm, k, hk, rfl⟩) r
  mmap c hc hm := by
    have hne : m.read32 c ≠ tagEnd := hm ▸ by decide
    exact ((h.tag c hc hne).mmap hm).1

/-! ### Safe walks need contained tags -/

theorem preScanTag_ne_done (m : Mem) (c acc t : ℕ) :
    (preScanTagReads c acc).run m ≠ some (.done t) := by
  simp only [preScanTagReads, run_bind, run_read32, run_ite, run_pure]
  split <;> simp

theorem pmm_ne_done (m : Mem) (c : ℕ) (s t : Pmm) :
    (Pmm.visitTagReads c s).run m ≠ some (.done t) := by
  simp only [Pmm.visitTagReads, run_bind, run_read32, run_ite, run_pure]
  split_ifs <;> simp

theorem multiboot_ne_done (m : Mem) (c : ℕ) (r t : BootInfo) :
    (BootInfo.visitTagReads c r).run m ≠ some (.done t) := by
  simp only [BootInfo.visitTagReads, run_bind, run_read32, run_ite, run_pure]
  split_ifs <;> simp

/-- What the memory manager's walk needs of a memory map. -/
theorem mmap_of_within {s : Pmm} (h : (Pmm.visitTagReads c s).Within m P)
    (hsome : ((Pmm.visitTagReads c s).run m).isSome) (hm : m.read32 c = tagMmap)
    (h16 : 16 ≤ m.read32 (c + 4)) :
    (Bytes P (c + 8) 4 ∧ m.read32 (c + 8) ≠ 0) ∧
      ∀ i < (m.read32 (c + 4) - 16) / m.read32 (c + 8),
        EntryFits m P (c + 16 + i * m.read32 (c + 8)) := by
  simp only [Pmm.visitTagReads, within_bind, run_bind, run_read32, within_read32, if_pos hm]
    at h hsome
  obtain ⟨-, -, hsize, h⟩ := h
  have hne : m.read32 (c + 8) ≠ 0 := by
    intro hzero
    rw [if_pos hzero] at hsome
    cases hsome
  rw [if_neg hne, within_bind, count_eq h16] at h
  refine ⟨⟨hsize, hne⟩, fun i hi => ?_⟩
  obtain ⟨t, ht⟩ := h.1.of_foldlM (x := i) (List.mem_range.2 hi)
  exact within_freeEntryReads.1 ht

/-- What the walk of `Multiboot::Start` needs of the memory sizes and of the framebuffer. -/
theorem fields_of_within {r : BootInfo} (h : (BootInfo.visitTagReads c r).Within m P) :
    (m.read32 c = tagMeminfo → Bytes P (c + 8) 8) ∧
      (m.read32 c = tagFramebuffer → Bytes P (c + 8) 8 ∧ Bytes P (c + 20) 10) := by
  rw [BootInfo.visitTagReads, within_bind, run_read32] at h
  constructor
  · intro hm
    rw [hm, if_neg (by decide), if_pos rfl] at h
    simp only [within_bind, within_read32] at h
    exact (bytes_add (n := 4) (k := 4)).2 ⟨h.2.1, h.2.2.1⟩
  · intro hm
    rw [hm, if_neg (by decide), if_neg (by decide), if_neg (by decide), if_pos rfl] at h
    simp only [within_bind, within_read64, within_read32, within_read8] at h
    obtain ⟨-, haddr, hwidth, hheight, hbpp, htype, -⟩ := h
    refine ⟨haddr, (bytes_add (n := 4) (k := 6)).2 ⟨hwidth, ?_⟩⟩
    refine (bytes_add (n := 4) (k := 2)).2 ⟨hheight, ?_⟩
    exact bytes_succ.2 ⟨hbpp, bytes_succ.2 ⟨htype, bytes_zero⟩⟩

/-- The cursors are aligned with the block. -/
theorem offset_visited (h : Visited m (mbi + 8) c) :
    ∃ o < 2 ^ 32, o % 8 = 0 ∧ u32 c = u32 (mbi + o) := by
  induction h with
  | here => exact ⟨8, by decide, by decide, rfl⟩
  | @next c _ _ ih =>
    obtain ⟨o, -, ho, heq⟩ := ih
    have hstep : andNot 32 (u32 (m.read32 (c + 4) + 7)) 7 = u32 (m.read32 (c + 4) + 7) / 8 * 8 :=
      andNot_two_pow (k := 3) (u32_lt _) (by decide)
    refine ⟨u32 (o + u32 (m.read32 (c + 4) + 7) / 8 * 8), u32_lt _, ?_, ?_⟩
    · unfold u32
      omega
    · rw [nextTag, hstep]
      unfold u32 at heq ⊢
      omega

/-- The bytes of the block have their offsets below its size. -/
theorem inBlock_iff {o : ℕ} (ho : o < 2 ^ 32) : InBlock m mbi (u32 (mbi + o)) ↔ o < m.read32 mbi := by
  constructor
  · rintro ⟨k, hk, heq⟩
    have htotal := m.read32_lt mbi
    unfold u32 at heq
    omega
  · exact fun h => ⟨o, h, rfl⟩

/-- A tag whose size and whose fourth word lie in the block has its third word there too: the block
is shorter than the address space, and the tag is aligned with it. -/
theorem bytes_between (h : Visited m (mbi + 8) c) (hsize : Bytes (InBlock m mbi) (c + 4) 4)
    (hfourth : Bytes (InBlock m mbi) (c + 12) 4) : Bytes (InBlock m mbi) (c + 8) 8 := by
  obtain ⟨o, hlt, ho, heq⟩ := offset_visited h
  have hshift : ∀ j, u32 (c + j) = u32 (mbi + (o + j)) := by
    intro j
    unfold u32 at heq ⊢
    omega
  have htotal := m.read32_lt mbi
  have h7 := hsize 3 (by decide)
  rw [Nat.add_assoc, hshift, inBlock_iff (by omega)] at h7
  have h15 := hfourth 3 (by decide)
  rw [Nat.add_assoc, hshift, inBlock_iff (by omega)] at h15
  intro k hk
  rw [Nat.add_assoc, hshift, inBlock_iff (by omega)]
  omega

/-- **Where the walks are safe, the tags are contained.** -/
theorem WalksSafe.contained (h : WalksSafe m mbi) (hmbi : mbi ≠ 0) : Contained m mbi := by
  have hscan := h.preScan
  rw [← run_preScanReads, preScanReads, if_neg hmbi] at hscan
  obtain ⟨hends, hscan⟩ := visited_of_within (preScanTag_ne_done m) hscan.1 hscan.2
  have hpmm := h.pmm 0 0 Pmm.init
  rw [← Pmm.run_startReads] at hpmm
  dsimp only [Pmm.startReads] at hpmm
  rw [if_neg hmbi, run_bind, run_pure, Option.isSome_map, within_bind] at hpmm
  obtain ⟨-, hpmm⟩ := visited_of_within (pmm_ne_done m) hpmm.1 hpmm.2.1
  have hmb := h.multiboot
  rw [← BootInfo.run_startReads, BootInfo.startReads, if_neg (not_not_intro rfl), if_neg hmbi] at hmb
  obtain ⟨-, hmb⟩ := visited_of_within (multiboot_ne_done m) hmb.1 hmb.2
  refine ⟨hends, fun c hc => (hscan c hc).1, fun c hc hne => ?_⟩
  obtain ⟨hsize, acc, hacc, -⟩ := (hscan c hc).2 hne
  obtain ⟨-, s, hs, hsome⟩ := (hpmm c hc).2 hne
  obtain ⟨-, r, hr, -⟩ := (hmb c hc).2 hne
  obtain ⟨hmeminfo, hframebuffer⟩ := fields_of_within hr
  have hmmap := fun hm => mmap_of_within hs hsome hm (h.mmap c hc hm)
  refine ⟨hsize, fun hm => bytes_between hc hsize ?_, hmeminfo, hframebuffer,
    fun hm => ⟨h.mmap c hc hm, (hmmap hm).1⟩, fun hm => (hmmap hm).2⟩
  rw [preScanTagReads, within_bind, run_read32, if_pos hm, within_bind] at hacc
  exact within_read32.1 hacc.2.1

/-- **What lies behind the block makes no difference** to walks that are safe. -/
theorem WalksSafe.congr {m' : Mem} (h : WalksSafe m mbi)
    (hsame : ∀ x, InBlock m mbi x → m' x = m x) :
    Shiro.preScan m' mbi = Shiro.preScan m mbi ∧
      BootInfo.start m' BootInfo.bootloaderMagic mbi =
        BootInfo.start m BootInfo.bootloaderMagic mbi ∧
      ∀ kernelStart kernelEnd s,
        Pmm.start m' mbi kernelStart kernelEnd s = Pmm.start m mbi kernelStart kernelEnd s := by
  refine ⟨?_, ?_, fun kernelStart kernelEnd s => ?_⟩
  · rw [← run_preScanReads, (run_congr (h.preScan.2.mono hsame)).1, run_preScanReads]
  · rw [← BootInfo.run_startReads, (run_congr (h.multiboot.2.mono hsame)).1,
      BootInfo.run_startReads]
  · rw [← Pmm.run_startReads, (run_congr ((h.pmm kernelStart kernelEnd s).2.mono hsame)).1,
      Pmm.run_startReads]

/-! ### Well-formed blocks -/

/-- A range inside the block. -/
theorem bytes_inBlock (hlo : mbi ≤ x) (hhi : x + n ≤ mbi + m.read32 mbi) :
    Bytes (InBlock m mbi) x n := by
  intro k hk
  refine ⟨x + k - mbi, by omega, ?_⟩
  rw [Nat.add_sub_cancel' (by omega)]

/-- The cursors of a well-formed chain are its tags and the end tag. -/
theorem chain_visited (h : Chain m a ts e) (hfit : e ≤ 2 ^ 32) (hc : Visited m a c) :
    (∃ t ∈ ts, t.addr = c) ∨ m.read32 c = tagEnd ∧ a ≤ c ∧ c + 8 = e := by
  induction ts generalizing a with
  | nil =>
    rcases visited_cases hc with rfl | ⟨hne, -⟩
    · exact .inr ⟨h.1, le_rfl, h.2.2⟩
    · exact absurd h.1 hne
  | cons t ts ih =>
    obtain ⟨rfl, -, hsize, -, -, h⟩ := h
    have hend := h.end_le
    rcases visited_cases hc with rfl | ⟨-, hc⟩
    · exact .inl ⟨t, List.mem_cons_self, rfl⟩
    · rw [nextTag_eq hsize (by omega)] at hc
      rcases ih h hc with ⟨u, hu, hc⟩ | ⟨hend, hle, hc⟩
      · exact .inl ⟨u, List.mem_cons_of_mem _ hu, hc⟩
      · exact .inr ⟨hend, by omega, hc⟩

/-- A well-formed chain leads to its end tag. -/
theorem chain_ends (h : Chain m a ts e) (hfit : e ≤ 2 ^ 32) :
    ∃ c, Visited m a c ∧ m.read32 c = tagEnd := by
  induction ts generalizing a with
  | nil => exact ⟨a, .here, h.1⟩
  | cons t ts ih =>
    obtain ⟨rfl, htype, hsize, hne, -, h⟩ := h
    have hend := h.end_le
    obtain ⟨c, hc, hcend⟩ := ih h
    rw [← nextTag_eq hsize (by omega)] at hc
    exact ⟨c, .of_next (htype ▸ hne) hc, hcend⟩

/-- A tag of a well-formed block has its fields inside. -/
theorem tagFits_of_mem (hb : InfoBlock m mbi ts) (ht : t ∈ ts) :
    TagFits m (InBlock m mbi) t.addr := by
  obtain ⟨hlo, hhi, htype, hsize, -, hcov⟩ := hb.chain.mem ht
  have hfields := hcov.fields
  have height := hcov.eight_le
  have hin : ∀ k n, k + n ≤ t.size → Bytes (InBlock m mbi) (t.addr + k) n :=
    fun k n hk => bytes_inBlock (by omega) (by omega)
  have hsub : ∀ k n, k + n ≤ fieldBytes (m.read32 t.addr) →
      Bytes (InBlock m mbi) (t.addr + k) n :=
    fun k n hk => hin k n (hk.trans (htype ▸ hfields))
  refine ⟨hin 4 4 height, fun hm => hsub 8 8 (by rw [hm]; decide),
    fun hm => hsub 8 8 (by rw [hm]; decide),
    fun hm => ⟨hsub 8 8 (by rw [hm]; decide), hsub 20 10 (by rw [hm]; decide)⟩, fun hm => ?_,
    fun hm i hi => ?_⟩
  · have hes : 24 ≤ m.read32 (t.addr + 8) := hcov.entry (htype.trans hm)
    rw [htype, hm] at hfields
    exact ⟨hsize ▸ hfields, hsub 8 4 (by rw [hm]; decide), by omega⟩
  · have hx : t.addr + 16 + i * m.read32 (t.addr + 8) ∈ t.entryAddrs m := by
      refine List.mem_map.2 ⟨i, List.mem_range.2 ?_, rfl⟩
      rwa [Tag.entrySize, hsize]
    obtain ⟨h1, h2⟩ := hcov.entry_bounds (htype.trans hm) hx
    exact ⟨bytes_inBlock (by omega) (by omega), fun _ => bytes_inBlock (by omega) (by omega)⟩

/-- **A well-formed block is contained.** -/
theorem contained_of_infoBlock (hb : InfoBlock m mbi ts) : Contained m mbi where
  ends := chain_ends hb.chain hb.fits
  type c hc := by
    rcases chain_visited hb.chain hb.fits hc with ⟨t, ht, rfl⟩ | ⟨-, hle, hend⟩
    · obtain ⟨hlo, hhi, -⟩ := hb.chain.mem ht
      exact bytes_inBlock (by omega) (by omega)
    · exact bytes_inBlock (by omega) (by omega)
  tag c hc hne := by
    rcases chain_visited hb.chain hb.fits hc with ⟨t, ht, rfl⟩ | ⟨hend, -⟩
    · exact tagFits_of_mem hb ht
    · exact absurd hend hne

/-- The walks are safe on a well-formed block. -/
theorem walksSafe_of_infoBlock (hb : InfoBlock m mbi ts) : WalksSafe m mbi :=
  (contained_of_infoBlock hb).walksSafe hb.nonnull

/-- **The boot walks end and stay inside the block** exactly when its tags are contained. -/
theorem boot_walks (m : Mem) (magic mbi : ℕ) : BootWalks m magic mbi where
  refused hmagic m' := by
    rw [BootInfo.start, BootInfo.startReads, if_pos hmagic, if_pos hmagic]
    exact ⟨rfl, rfl⟩
  contained hmbi := ⟨fun h => h.contained hmbi, fun h => h.walksSafe hmbi⟩
  wellFormed _ hb := walksSafe_of_infoBlock hb

/-- A block with one tag, whose size is zero. -/
def stuckBlock : Mem :=
  let m : Mem := fun _ => 0
  let m := (m.write32 0x9000 24).write32 0x9008 BootInfo.tagCmdline
  m.write32 0x9014 8

/-- A tag of size zero is visited again and again. -/
theorem walkTags_stuck {σ : Type} {body : ℕ → σ → Option (ForInStep σ)}
    (hnext : nextTag m c = c) (hne : m.read32 c ≠ tagEnd)
    (hbody : ∀ s t, body c s ≠ some (.done t)) (fuel : ℕ) (s : σ) :
    walkTags m body fuel c s = none := by
  induction fuel generalizing s with
  | zero => rfl
  | succ fuel ih =>
    rw [walkTags, if_neg hne, hnext]
    cases hr : body c s with
    | none => rfl
    | some r =>
      cases r with
      | done t => exact absurd hr (hbody s t)
      | yield t => exact ih t

/-- On such a block `shiro_main` never ends. -/
theorem not_walks_safe_stuckBlock : ¬ ∀ m magic mbi, mbi ≠ 0 → mbi < 2 ^ 32 →
    WalksSafe m mbi ∧ (magic ≠ BootInfo.bootloaderMagic →
      (preScanReads mbi).trace m = [] ∧ (Initrd.startReads mbi).trace m = [] ∧
      (∀ kernelStart kernelEnd s, (Pmm.startReads mbi kernelStart kernelEnd s).trace m = []) ∧
      (BootInfo.startReads magic mbi).trace m = []) := by
  intro hall
  obtain ⟨hsafe, -⟩ := hall stuckBlock 0 0x9000 (by decide) (by decide)
  have hnone : preScan stuckBlock 0x9000 = none := by
    rw [preScan, if_neg (by decide)]
    refine walkTags_stuck (by decide +kernel) (by decide +kernel) ?_ _ _
    intro s t heq
    cases heq
  have hsome := hsafe.preScan.1
  rw [hnone] at hsome
  cases hsome

end Shiro
