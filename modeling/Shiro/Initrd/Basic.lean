import Shiro.Initrd.Pack
import Shiro.Multiboot.Tags

/-!
# The ramdisk reader

`Initrd::Start` looks for the first boot module that begins with the magic number, `Find` compares
the padded names of its table with a string, and `Data` adds the offset of an entry to the address
of the module.  The messages written to the serial log are left out.

* `Initrd.start`, `Initrd.find`, `Initrd.data`, `Initrd.entryAt` : the operations.
* `strncmp_eq_zero_iff` : the comparison of two strings that end in time.
* `start_eq` : which module `Initrd::Start` takes.
-/

namespace Shiro

open Multiboot

/-- The static variables of `System::Initrd`. -/
structure Initrd where
  base : ℕ
  length : ℕ
  fileCount : ℕ
  entries : ℕ
  ready : Bool

namespace Initrd

/-- `sizeof(file_entry_t)`. -/
def entrySize : ℕ := 40

/-! ### `Initrd::Start` -/

/-- What `Initrd::Start` remembers of the module `[modStart, modEnd)`. -/
def loaded (m : Mem) (modStart modEnd : ℕ) : Initrd where
  base := modStart
  length := sub32 modEnd modStart
  fileCount := m.read32 (modStart + 4)
  entries := u32 (modStart + 8)
  ready := true

/-- The body of the loop over the tags. -/
def visitTag (m : Mem) (tag : ℕ) (r : Initrd) : Option (ForInStep Initrd) :=
  if m.read32 tag = tagModule then
    let modStart := m.read32 (tag + 8)
    let modEnd := m.read32 (tag + 12)
    if m.read32 modStart ≠ magic then some (.yield r)
    else some (.done (loaded m modStart modEnd))
  else some (.yield r)

/-- `Initrd::Start(mbi)`. -/
def start (m : Mem) (mbi : ℕ) : Option Initrd :=
  let r : Initrd := ⟨0, 0, 0, 0, false⟩
  if mbi = 0 then some r else walkTags m (visitTag m) walkFuel (mbi + 8) r

/-! ### Files -/

/-- `strncmp_(a, b, n)`. -/
def strncmp (m : Mem) : ℕ → ℕ → ℕ → ℤ
  | _, _, 0 => 0
  | a, b, n + 1 =>
    let ca := m.read8 a
    let cb := m.read8 b
    if ca ≠ cb then (ca : ℤ) - cb
    else if ca = 0 then 0
    else strncmp m (a + 1) (b + 1) n

/-- `&entries[i]`. -/
def entry (r : Initrd) (i : ℕ) : ℕ := u32 (r.entries + i * entrySize)

/-- `e->size`. -/
def size (m : Mem) (e : ℕ) : ℕ := m.read32 (e + 32)

/-- `e->offset`. -/
def offset (m : Mem) (e : ℕ) : ℕ := m.read32 (e + 36)

/-- `Initrd::Find(name)`: a pointer to the entry, or `0`. -/
def find (m : Mem) (r : Initrd) (name : ℕ) : ℕ :=
  if !r.ready then 0
  else
    match (List.range r.fileCount).find? fun i => strncmp m (entry r i) name nameLen = 0 with
    | none => 0
    | some i => entry r i

/-- `Initrd::Data(e)`. -/
def data (m : Mem) (r : Initrd) (e : ℕ) : ℕ :=
  if !r.ready || e == 0 then 0 else u32 (r.base + offset m e)

/-- `Initrd::Count()`. -/
def count (r : Initrd) : ℕ := if r.ready then r.fileCount else 0

/-- `Initrd::EntryAt(i)`. -/
def entryAt (r : Initrd) (i : ℕ) : ℕ := if !r.ready || decide (i ≥ r.fileCount) then 0 else entry r i

variable {m : Mem} {mbi a b n : ℕ} {ts : List Tag} {xs ys : List UInt8}

/-! ### The comparison -/

theorem read8_of_cons {x : UInt8} (h : m.BytesAt a (x :: xs)) : m.read8 a = x.toNat := by
  rw [Mem.read8, (Mem.bytesAt_cons.1 h).1]

/-- **Two strings that end within `n` bytes compare as equal** exactly when they are. -/
theorem strncmp_eq_zero_iff (hx : m.BytesAt a (xs ++ [0])) (hy : m.BytesAt b (ys ++ [0]))
    (hx0 : 0 ∉ xs) (hy0 : 0 ∉ ys) (hn : xs.length < n) : strncmp m a b n = 0 ↔ xs = ys := by
  induction n generalizing a b xs ys with
  | zero => omega
  | succ n ih =>
    have hne : ∀ {z : UInt8} {zs : List UInt8}, 0 ∉ z :: zs → z.toNat ≠ 0 := by
      intro z zs hz h0
      exact hz (by rw [UInt8.toNat_inj.1 (h0.trans UInt8.toNat_zero.symm)]; exact .head _)
    rw [strncmp]
    cases xs with
    | nil =>
      rw [read8_of_cons hx]
      cases ys with
      | nil =>
        rw [read8_of_cons hy]
        simp
      | cons y ys =>
        have hy' := hne hy0
        rw [read8_of_cons hy]
        simp only [UInt8.toNat_zero, ne_eq, hy'.symm, not_false_eq_true, ↓reduceIte,
          List.nil_eq, reduceCtorEq, iff_false]
        omega
    | cons x xs =>
      have hx' := hne hx0
      rw [read8_of_cons hx]
      cases ys with
      | nil =>
        rw [read8_of_cons hy]
        simp only [UInt8.toNat_zero, ne_eq, hx', not_false_eq_true, ↓reduceIte, reduceCtorEq,
          iff_false]
        omega
      | cons y ys =>
        rw [read8_of_cons hy]
        by_cases hxy : x = y
        · subst hxy
          have htail := ih (Mem.bytesAt_cons.1 hx).2 (Mem.bytesAt_cons.1 hy).2
            (fun h => hx0 (.tail _ h)) (fun h => hy0 (.tail _ h)) (by simpa using hn)
          simp [hx', htail]
        · have hnat : x.toNat ≠ y.toNat := fun h => hxy (UInt8.toNat_inj.1 h)
          simp only [ne_eq, hnat, not_false_eq_true, ↓reduceIte, List.cons.injEq, hxy, false_and,
            iff_false]
          omega

/-! ### The module taken -/

theorem forTags_visitTag (hts : ∀ t ∈ ts, t.type = m.read32 t.addr) {pre post : List (ℕ × ℕ)}
    (hmod : modules m ts = pre ++ (a, b) :: post) (hpre : ∀ x ∈ pre, m.read32 x.1 ≠ magic)
    (ha : m.read32 a = magic) (r : Initrd) :
    forTags (visitTag m) ts r = some (loaded m a b) := by
  induction ts generalizing pre with
  | nil => simp [modules] at hmod
  | cons t ts ih =>
    have ht := hts t List.mem_cons_self
    have hts := fun t ht => hts t (List.mem_cons_of_mem _ ht)
    rw [modules_cons] at hmod
    rw [forTags, visitTag, ← ht]
    by_cases hm : t.type = tagModule
    · rw [if_pos hm] at hmod ⊢
      cases pre with
      | nil =>
        obtain ⟨hhead, -⟩ := List.cons_eq_cons.1 hmod
        obtain ⟨h1, h2⟩ := Prod.mk.inj hhead
        simp [h1, h2, ha]
      | cons x pre =>
        obtain ⟨rfl, hrest⟩ := List.cons_eq_cons.1 hmod
        have hx := hpre _ List.mem_cons_self
        simp only [ne_eq, hx, not_false_eq_true, ↓reduceIte]
        exact ih hts hrest fun y hy => hpre y (List.mem_cons_of_mem _ hy)
    · rw [if_neg hm] at hmod ⊢
      exact ih hts hmod hpre

/-- **`Initrd::Start` takes the first module that begins with the magic number.** -/
theorem start_eq (hb : InfoBlock m mbi ts) {pre post : List (ℕ × ℕ)}
    (hmod : modules m ts = pre ++ (a, b) :: post) (hpre : ∀ x ∈ pre, m.read32 x.1 ≠ magic)
    (ha : m.read32 a = magic) : start m mbi = some (loaded m a b) := by
  rw [start, if_neg hb.nonnull, hb.walk_eq]
  exact forTags_visitTag (fun t ht => (hb.chain.mem ht).2.2.1) hmod hpre ha _

end Initrd

end Shiro
