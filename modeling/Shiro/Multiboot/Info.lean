import Shiro.Multiboot.Tags

/-!
# What the kernel keeps of the info block

`Multiboot::Start` walks the tags and keeps the command line, the memory sizes, the memory map and
the framebuffer, each from the last tag of its kind.  The messages written to the serial log are
left out.

* `BootInfo` : the fields of the class.
* `BootInfo.start` : `Multiboot::Start`.
* `BootInfo.start_eq` : **what it computes** from a well-formed block.
-/

namespace Shiro

open Multiboot

/-- The fields of `System::Multiboot`.  `cmdline` is a pointer, `0` if there is none. -/
structure BootInfo where
  valid : Bool
  memLower : ℕ
  memUpper : ℕ
  cmdline : ℕ
  mmapCount : ℕ
  mmapTotalAvailable : ℕ
  fbAddr : ℕ
  fbWidth : ℕ
  fbHeight : ℕ
  fbBpp : ℕ
  fbType : ℕ
  deriving DecidableEq, Repr

namespace BootInfo

/-- `MULTIBOOT2_BOOTLOADER_MAGIC`. -/
def bootloaderMagic : ℕ := 0x36d76289

/-- `MB2_TAG_CMDLINE`. -/
def tagCmdline : ℕ := 1

/-- `Reset()`. -/
def reset : BootInfo := ⟨false, 0, 0, 0, 0, 0, 0, 0, 0, 0, 0⟩

/-- The body of the loop over the entries of a memory map. -/
def addEntry (m : Mem) (r : BootInfo) (entry : ℕ) : BootInfo :=
  if m.read32 (entry + 16) = memoryAvailable then
    { r with mmapTotalAvailable := u64 (r.mmapTotalAvailable + m.read64 (entry + 8)) }
  else r

/-- The body of the loop over the tags.  A memory map with `entry_size = 0` divides by zero. -/
def visitTag (m : Mem) (tag : ℕ) (r : BootInfo) : Option (ForInStep BootInfo) :=
  if m.read32 tag = tagCmdline then some (.yield { r with cmdline := u32 (tag + 8) })
  else if m.read32 tag = tagMeminfo then
    some (.yield { r with memLower := m.read32 (tag + 8), memUpper := m.read32 (tag + 12) })
  else if m.read32 tag = tagMmap then
    let entriesSize := sub32 (m.read32 (tag + 4)) 16
    let entrySize := m.read32 (tag + 8)
    if entrySize = 0 then none
    else
      let count := entriesSize / entrySize
      some (.yield ((List.range count).foldl
        (fun r i => addEntry m r (tag + 16 + i * entrySize)) { r with mmapCount := count }))
  else if m.read32 tag = tagFramebuffer then
    some (.yield { r with
      fbAddr := m.read64 (tag + 8)
      fbWidth := m.read32 (tag + 20)
      fbHeight := m.read32 (tag + 24)
      fbBpp := m.read8 (tag + 28)
      fbType := m.read8 (tag + 29) })
  else some (.yield r)

/-- `Multiboot::Start(magic, mbi)`. -/
def start (m : Mem) (magic mbi : ℕ) : Option BootInfo :=
  if magic ≠ bootloaderMagic then some reset
  else if mbi = 0 then some reset
  else walkTags m (visitTag m) walkFuel (mbi + 8) { reset with valid := true }

/-! ### What it computes -/

/-- The last tag of a type. -/
def lastTag (type : ℕ) (ts : List Tag) : Option Tag := (ts.filter (·.type = type)).getLast?

/-- A field of the last tag of a type, `0` if there is none. -/
def lastField (type : ℕ) (ts : List Tag) (f : ℕ → ℕ) : ℕ :=
  ((lastTag type ts).map fun t => f t.addr).getD 0

/-- What the tags of the block say. -/
def summary (m : Mem) (ts : List Tag) : BootInfo where
  valid := true
  memLower := lastField tagMeminfo ts fun a => m.read32 (a + 8)
  memUpper := lastField tagMeminfo ts fun a => m.read32 (a + 12)
  cmdline := lastField tagCmdline ts fun a => u32 (a + 8)
  mmapCount := ((lastTag tagMmap ts).map fun t => (t.entries m).length).getD 0
  mmapTotalAvailable := u64 ((available m ts).map Entry.length).sum
  fbAddr := lastField tagFramebuffer ts fun a => m.read64 (a + 8)
  fbWidth := lastField tagFramebuffer ts fun a => m.read32 (a + 20)
  fbHeight := lastField tagFramebuffer ts fun a => m.read32 (a + 24)
  fbBpp := lastField tagFramebuffer ts fun a => m.read8 (a + 28)
  fbType := lastField tagFramebuffer ts fun a => m.read8 (a + 29)

variable {m m' : Mem} {mbi a e n : ℕ} {t : Tag} {ts : List Tag} {r : BootInfo}

theorem lastTag_append (type : ℕ) (ts : List Tag) (t : Tag) :
    lastTag type (ts ++ [t]) = if t.type = type then some t else lastTag type ts := by
  rw [lastTag, List.filter_append]
  by_cases h : t.type = type <;> simp [lastTag, h]

theorem lastField_append (type : ℕ) (ts : List Tag) (t : Tag) (f : ℕ → ℕ) :
    lastField type (ts ++ [t]) f = if t.type = type then f t.addr else lastField type ts f := by
  rw [lastField, lastTag_append]
  split <;> rfl

theorem available_append (m : Mem) (ts : List Tag) (t : Tag) :
    available m (ts ++ [t]) = available m ts ++
      if t.type = tagMmap then (t.entries m).filter (·.type = memoryAvailable) else [] := by
  rw [available, List.filter_append, List.flatMap_append]
  by_cases h : t.type = tagMmap <;> simp [available, h]

/-- The loop over the entries adds up the lengths of the available ones. -/
theorem foldl_addEntry (xs : List ℕ) (r : BootInfo) (n : ℕ) (hr : r.mmapTotalAvailable = u64 n) :
    xs.foldl (addEntry m) r = { r with
      mmapTotalAvailable := u64 (n +
        (((xs.map (entryAt m)).filter (·.type = memoryAvailable)).map Entry.length).sum) } := by
  induction xs generalizing r n with
  | nil => simp [← hr]
  | cons x xs ih =>
    rw [List.foldl_cons, List.map_cons, List.filter_cons]
    by_cases hx : m.read32 (x + 16) = memoryAvailable
    · have hx' : (entryAt m x).type = memoryAvailable := hx
      have hadd : addEntry m r x =
          { r with mmapTotalAvailable := u64 (n + (entryAt m x).length) } := by
        rw [addEntry, if_pos hx, hr, u64, u64, u64, Nat.mod_add_mod]
        rfl
      rw [ih _ (n + (entryAt m x).length) (by rw [hadd]), hadd]
      simp [hx', Nat.add_assoc]
    · have hx' : ¬ (entryAt m x).type = memoryAvailable := hx
      have hadd : addEntry m r x = r := by rw [addEntry, if_neg hx]
      rw [hadd, ih _ n hr]
      simp [hx']

/-- The body of the loop over the tags adds one tag to the summary. -/
theorem visitTag_summary (hcov : t.Covers m) (htype : t.type = m.read32 t.addr)
    (hsize : t.size = m.read32 (t.addr + 4)) (ts : List Tag) :
    visitTag m t.addr (summary m ts) = some (.yield (summary m (ts ++ [t]))) := by
  rw [visitTag, ← htype, summary, summary]
  simp only [lastField_append, lastTag_append, available_append]
  by_cases h1 : t.type = tagCmdline
  · simp [h1, tagCmdline, tagMeminfo, tagMmap, tagFramebuffer]
  by_cases h2 : t.type = tagMeminfo
  · simp [h2, tagCmdline, tagMeminfo, tagMmap, tagFramebuffer]
  by_cases h3 : t.type = tagMmap
  · have hes := hcov.entry h3
    have hf : 16 ≤ t.size := by
      simpa [h3, fieldBytes, tagModule, tagMeminfo, tagMmap] using hcov.fields
    have hsub : sub32 t.size 16 = t.size - 16 :=
      sub32_of_le (hsize ▸ Mem.read32_lt m (t.addr + 4)) hf
    have hne : ¬ m.read32 (t.addr + 8) = 0 := fun h0 => by
      rw [Tag.entrySize, h0] at hes
      omega
    rw [if_neg h1, if_neg h2, if_pos h3, ← hsize, hsub]
    simp only [hne, ↓reduceIte, Option.some.injEq, ForInStep.yield.injEq]
    rw [← List.foldl_map (f := fun i => t.addr + 16 + i * m.read32 (t.addr + 8))
      (g := addEntry m), foldl_addEntry _ _ _ rfl]
    simp [h3, Tag.entries, Tag.entryAddrs, Tag.entrySize, tagCmdline, tagMeminfo, tagMmap,
      tagFramebuffer]
  by_cases h4 : t.type = tagFramebuffer
  · simp [h4, tagCmdline, tagMeminfo, tagMmap, tagFramebuffer]
  · simp [h1, h2, h3, h4]

theorem forTags_visitTag (h : Chain m a ts e) (done : List Tag) :
    forTags (visitTag m) ts (summary m done) = some (summary m (done ++ ts)) := by
  induction ts generalizing a done with
  | nil => rw [List.append_nil]; rfl
  | cons t ts ih =>
    obtain ⟨rfl, htype, hsize, -, hcov, h⟩ := h
    rw [forTags, visitTag_summary hcov htype hsize]
    simpa using ih h (done ++ [t])

/-- **What `Multiboot::Start` computes** from a well-formed block. -/
theorem start_eq (hb : InfoBlock m mbi ts) :
    start m bootloaderMagic mbi = some (summary m ts) := by
  have hempty : { reset with valid := true } = summary m [] := rfl
  rw [start, if_neg (by simp), if_neg hb.nonnull, hb.walk_eq, hempty, forTags_visitTag hb.chain,
    List.nil_append]

end BootInfo

end Shiro
