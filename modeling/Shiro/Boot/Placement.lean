import Shiro.Pmm.Boot

/-!
# Where the heap goes

`shiro_main` looks for the end of the last boot module and `Heap::Start` puts the heap on the next
page boundary behind it.  Nothing asks whether four mebibytes fit there, nor where the info block
lies, although the block is read again once the heap is in use.

* `heapAtBoot` : step 1 of `shiro_main`.
* `Placed` : the heap lies in the address space, clear of the kernel, the modules and the block.
* `placed_iff` : **exactly when** it does.
-/

namespace Shiro

open Multiboot

/-- Step 1 of `shiro_main`: the heap behind the last boot module. -/
def heapAtBoot (m : Mem) (mbi kernelEnd : ℕ) : Option Heap :=
  (preScan m mbi).map fun initrdEnd => Heap.start m kernelEnd initrdEnd

/-- The regions `[lo, hi)` and `[lo', hi')` share no byte. -/
def Apart (lo hi lo' hi' : ℕ) : Prop := ∀ x, lo ≤ x → x < hi → lo' ≤ x → ¬ x < hi'

theorem apart_iff {lo hi lo' hi' : ℕ} :
    Apart lo hi lo' hi' ↔ hi ≤ lo ∨ hi' ≤ lo' ∨ hi ≤ lo' ∨ hi' ≤ lo := by
  constructor
  · intro h
    have := h (max lo lo')
    omega
  · intro h x
    omega

instance (lo hi lo' hi' : ℕ) : Decidable (Apart lo hi lo' hi') := decidable_of_iff _ apart_iff.symm

/-- The heap does not wrap, and shares no byte with what is in memory at boot. -/
structure HeapPlaced (m : Mem) (mbi : ℕ) (ts : List Tag) (kernelStart kernelEnd : ℕ) (h : Heap) :
    Prop where
  noWrap : h.heapEnd = h.base + Heap.heapSize
  kernel : Apart h.base h.heapEnd kernelStart kernelEnd
  modules : ∀ r ∈ modules m ts, Apart h.base h.heapEnd r.1 r.2
  info : Apart h.base h.heapEnd mbi (mbi + m.read32 mbi)

/-- The heap at boot is placed so. -/
def Placed (m : Mem) (mbi : ℕ) (ts : List Tag) (kernelStart kernelEnd : ℕ) : Prop :=
  ∃ h, heapAtBoot m mbi kernelEnd = some h ∧ HeapPlaced m mbi ts kernelStart kernelEnd h

/-- What may lie in memory at boot: nothing on the kernel, and no module on the info block. -/
structure BootLayout (m : Mem) (mbi : ℕ) (ts : List Tag) (kernelStart kernelEnd : ℕ) : Prop where
  block : InfoBlock m mbi ts
  kernel : kernelStart < kernelEnd
  info : Apart mbi (mbi + m.read32 mbi) kernelStart kernelEnd
  modules : ∀ r ∈ Multiboot.modules m ts, r.1 ≤ r.2 ∧ Apart r.1 r.2 kernelStart kernelEnd ∧
    Apart r.1 r.2 mbi (mbi + m.read32 mbi)

variable {m : Mem} {mbi : ℕ} {ts : List Tag}

theorem heapAtBoot_eq (hb : InfoBlock m mbi ts) (kernelEnd : ℕ) :
    heapAtBoot m mbi kernelEnd = some (Heap.start m kernelEnd (lastModuleEnd m ts)) := by
  rw [heapAtBoot, Pmm.preScan_eq hb, Option.map_some]

/-- Where the heap begins and ends, in the variables of the class. -/
theorem start_bounds (m : Mem) (ts : List Tag) (kernelEnd : UInt32) :
    (Heap.start m kernelEnd.toNat (lastModuleEnd m ts)).base =
      u32 (Pmm.heapBase m ts kernelEnd.toNat) ∧
    (Heap.start m kernelEnd.toNat (lastModuleEnd m ts)).heapEnd =
      u32 (Pmm.heapBase m ts kernelEnd.toNat + Heap.heapSize) := by
  have hbase := Heap.startBase_eq kernelEnd.toNat_lt (lastModuleEnd_lt m ts)
  exact ⟨hbase, (congrArg (fun b => u32 (b + Heap.heapSize)) hbase).trans (u32_add_u32 _ _)⟩

/-- A heap that is placed does not wrap. -/
theorem HeapPlaced.fits {kernelEnd : UInt32} (hkernel : 0x100000 < kernelEnd.toNat)
    (h : HeapPlaced m mbi ts 0x100000 kernelEnd.toNat
      (Heap.start m kernelEnd.toNat (lastModuleEnd m ts))) :
    Pmm.heapBase m ts kernelEnd.toNat + Heap.heapSize < 2 ^ 32 := by
  obtain ⟨hbase, hend⟩ := start_bounds m ts kernelEnd
  have hnowrap := h.noWrap
  have hapart := apart_iff.1 h.kernel
  rw [hbase, hend] at hnowrap hapart
  have hlast := lastModuleEnd_lt m ts
  have hlt := kernelEnd.toNat_lt
  have hle : Pmm.heapBase m ts kernelEnd.toNat ≤ 2 ^ 32 := by
    unfold Pmm.heapBase Heap.pageUp
    omega
  have hs : Heap.heapSize = 4194304 := rfl
  -- a base that is rounded up to address zero puts the heap on the kernel
  unfold u32 at *
  omega

/-- **The heap at boot lies in the address space, clear of the kernel, of every boot module and of
the info block**, exactly when four mebibytes fit behind the last module and the block does not lie
in them. -/
theorem placed_iff (hb : InfoBlock m mbi ts) (kernelEnd : UInt32)
    (hkernel : 0x100000 < kernelEnd.toNat) :
    Placed m mbi ts 0x100000 kernelEnd.toNat ↔
      Pmm.heapBase m ts kernelEnd.toNat + Heap.heapSize < 2 ^ 32 ∧
        Apart (Pmm.heapBase m ts kernelEnd.toNat)
          (Pmm.heapBase m ts kernelEnd.toNat + Heap.heapSize) mbi (mbi + m.read32 mbi) := by
  obtain ⟨hbase, hend⟩ := start_bounds m ts kernelEnd
  have heq := heapAtBoot_eq hb kernelEnd.toNat
  constructor
  · rintro ⟨h, hh, hplaced⟩
    rw [heq, Option.some.injEq] at hh
    subst hh
    have hfits := hplaced.fits hkernel
    have hinfo := hplaced.info
    rw [hbase, hend, u32_of_lt (by omega), u32_of_lt hfits] at hinfo
    exact ⟨hfits, hinfo⟩
  · rintro ⟨hfits, hinfo⟩
    obtain ⟨hle, hlast⟩ := Pmm.le_heapBase m ts kernelEnd.toNat
    rw [u32_of_lt (by omega)] at hbase
    rw [u32_of_lt hfits] at hend
    refine ⟨_, heq, ?_, ?_, fun r hr => ?_, ?_⟩ <;> rw [hbase, hend]
    · exact apart_iff.2 (.inr (.inr (.inr hle)))
    · exact apart_iff.2 (.inr (.inr (.inr ((le_lastModuleEnd hr).trans hlast))))
    · exact hinfo

/-- A module behind the kernel, and a block below it: the heap begins at `0x204000`. -/
theorem placed_bootBlock : Placed bootBlock 0x9000 bootTags 0x100000 0x200800 := by
  exact (placed_iff bootBlock_wf 0x200800 (by decide)).2 ⟨by decide +kernel, by decide +kernel⟩

/-- An info block without tags, at `0x210000`. -/
def highBlock : Mem := (Mem.write32 (fun _ => 0) 0x210000 16).write32 0x21000C 8

theorem highBlock_layout : BootLayout highBlock 0x210000 [] 0x100000 0x200000 where
  block := ⟨by decide, ⟨by decide +kernel, by decide +kernel, by decide +kernel⟩, by decide +kernel⟩
  kernel := by decide
  info := by decide +kernel
  modules := by decide

/-- An info block behind the kernel lies in the heap. -/
theorem not_placed_high :
    ¬ ∀ m mbi ts (kernelEnd : UInt32), BootLayout m mbi ts 0x100000 kernelEnd.toNat →
      Placed m mbi ts 0x100000 kernelEnd.toNat := by
  intro hall
  obtain ⟨h, hh, hplaced⟩ := hall highBlock 0x210000 [] 0x200000 highBlock_layout
  rw [heapAtBoot_eq highBlock_layout.block, Option.some.injEq] at hh
  subst hh
  exact absurd hplaced.info (by decide +kernel)

end Shiro
