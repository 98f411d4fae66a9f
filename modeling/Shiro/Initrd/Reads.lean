import Shiro.Initrd.Basic
import Shiro.Lib.Reads

/-!
# What the ramdisk reader reads

`Find` and `Data` once more, as computations that say which bytes they read.  `EntryAt` and `Count`
read none: they compute with the static variables.  The length of the module is not among the
things they compute with.

* `findReads`, `dataReads` : `Find` and `Data`; `run_findReads`, `run_dataReads` connect them.
* `RamdiskAt` : a module of at least eight bytes that begins with the magic number.
* `TableFits`, `NamesEnd`, `DataFits` : what its contents may or may not keep to.
* `within_findReads` : **`Find` stays in a table that fits**, and in the string it is given.
* `bytes_data_iff` : **the contents of an entry lie inside the module** exactly when they fit.
-/

namespace Shiro

open Reads

namespace Initrd

/-! ### The operations -/

/-- `strncmp_(a, b, n)`. -/
def strncmpReads : ℕ → ℕ → ℕ → Reads ℕ UInt8 ℤ
  | _, _, 0 => return 0
  | a, b, n + 1 => do
    let ca ← read8 a
    let cb ← read8 b
    if ca ≠ cb then return (ca : ℤ) - cb
    else if ca = 0 then return 0
    else strncmpReads (a + 1) (b + 1) n

/-- `Initrd::Find(name)`. -/
def findReads (r : Initrd) (name : ℕ) : Reads ℕ UInt8 ℕ :=
  if !r.ready then return 0
  else do
    let found ← (List.range r.fileCount).findM? fun i => do
      return decide ((← strncmpReads (entry r i) name nameLen) = 0)
    match found with
    | none => return 0
    | some i => return entry r i

/-- `e->size`. -/
def sizeReads (e : ℕ) : Reads ℕ UInt8 ℕ := read32 (e + 32)

/-- `Initrd::Data(e)`. -/
def dataReads (r : Initrd) (e : ℕ) : Reads ℕ UInt8 ℕ :=
  if !r.ready || e == 0 then return 0 else do return u32 (r.base + (← read32 (e + 36)))

/-! ### Modules -/

/-- A module `[a, b)` with room for the header, whose first word is the magic number. -/
structure RamdiskAt (m : Mem) (a b : ℕ) : Prop where
  magic : m.read32 a = magic
  header : a + 8 ≤ b
  stop : b < 2 ^ 32

/-- The address `x` lies in the module. -/
def InModule (a b x : ℕ) : Prop := a ≤ x ∧ x < b

/-- The address `x` is one of the first `n` bytes of the string at `p`. -/
def InString (p n x : ℕ) : Prop := ∃ k < n, x = u32 (p + k)

/-- The table fits into the module. -/
def TableFits (m : Mem) (a b : ℕ) : Prop := 8 + m.read32 (a + 4) * entrySize ≤ b - a

/-- Every name of the table ends inside its field. -/
def NamesEnd (m : Mem) (a b : ℕ) : Prop :=
  ∀ i < m.read32 (a + 4), ∃ k < nameLen, m (u32 (entry (loaded m a b) i + k)) = 0

/-- The contents of an entry fit into the module. -/
def DataFits (m : Mem) (a b e : ℕ) : Prop := size m e = 0 ∨ offset m e + size m e ≤ b - a

instance (a b x : ℕ) : Decidable (InModule a b x) := inferInstanceAs (Decidable (_ ∧ _))

instance (m : Mem) (a b : ℕ) : Decidable (TableFits m a b) := inferInstanceAs (Decidable (_ ≤ _))

variable {m m' : Mem} {P : ℕ → Prop} {r : Initrd} {a b e i k n p name : ℕ}

/-! ### The results are those of the reader -/

@[simp] theorem run_strncmpReads (m : Mem) (a b n : ℕ) :
    (strncmpReads a b n).run m = strncmp m a b n := by
  induction n generalizing a b with
  | zero => rfl
  | succ n ih =>
    rw [strncmpReads, strncmp]
    simp only [run_bind, run_read8, run_ite, run_pure, ih]

@[simp] theorem run_findReads (m : Mem) (r : Initrd) (name : ℕ) :
    (findReads r name).run m = find m r name := by
  have hsearch : ((List.range r.fileCount).findM? fun i => do
      return decide ((← strncmpReads (entry r i) name nameLen) = 0)).run m =
        (List.range r.fileCount).find? fun i => strncmp m (entry r i) name nameLen = 0 := by
    rw [run_findM?]
    simp only [run_bind, run_strncmpReads, run_pure]
  rw [findReads, find, run_ite, run_bind, hsearch]
  split
  · rfl
  · cases (List.range r.fileCount).find? fun i => strncmp m (entry r i) name nameLen = 0 with
    | none => rfl
    | some i => rfl

@[simp] theorem run_sizeReads (m : Mem) (e : ℕ) : (sizeReads e).run m = size m e := (rfl)

@[simp] theorem run_dataReads (m : Mem) (r : Initrd) (e : ℕ) :
    (dataReads r e).run m = data m r e := by
  rw [dataReads, data, run_ite]
  rfl

/-! ### What they read -/

/-- A comparison reads no more than `n` bytes of each string. -/
theorem within_strncmpReads (ha : Bytes P a n) (hb : Bytes P b n) :
    (strncmpReads a b n).Within m P := by
  induction n generalizing a b with
  | zero => exact within_pure 0
  | succ n ih =>
    rw [bytes_succ] at ha hb
    simp only [strncmpReads, within_bind, within_read8]
    refine ⟨ha.1, hb.1, ?_⟩
    split
    · exact within_pure _
    · split
      · exact within_pure 0
      · exact ih ha.2 hb.2

/-- A search of the table reads the names of its entries and the string. -/
theorem within_find_of_bytes (hentries : ∀ i < r.fileCount, Bytes P (entry r i) nameLen)
    (hname : Bytes P name nameLen) : (findReads r name).Within m P := by
  unfold findReads
  split
  · exact within_pure 0
  · rw [within_bind]
    refine ⟨within_findM? fun i hi => ?_, ?_⟩
    · rw [within_bind]
      exact ⟨within_strncmpReads (hentries i (List.mem_range.1 hi)) hname, within_pure _⟩
    · split
      · exact within_pure 0
      · exact within_pure _

theorem within_dataReads (h : Bytes P (e + 36) 4) : (dataReads r e).Within m P := by
  unfold dataReads
  split
  · exact within_pure 0
  · rw [within_bind, within_read32]
    exact ⟨h, within_pure _⟩

/-! ### Inside the module -/

/-- A range inside the module. -/
theorem bytes_inModule (ha : a ≤ p) (hb : p + n ≤ b) (hstop : b ≤ 2 ^ 32) :
    Bytes (InModule a b) p n := by
  intro k hk
  rw [u32_of_lt (by omega)]
  exact ⟨by omega, by omega⟩

theorem entry_loaded (m : Mem) (a b i : ℕ) :
    entry (loaded m a b) i = u32 (a + 8 + i * entrySize) := u32_add_u32 _ _

/-- `EntryAt` refuses an index behind the table, and nothing else. -/
theorem entryAt_loaded (m : Mem) (a b i : ℕ) : (loaded m a b).entryAt i =
    if i < m.read32 (a + 4) then u32 (a + 8 + i * entrySize) else 0 := by
  rw [entryAt, entry_loaded]
  by_cases hi : i < m.read32 (a + 4)
  · rw [if_pos hi, if_neg (by simpa [loaded] using hi)]
  · rw [if_neg hi, if_pos (by simpa [loaded] using hi)]

theorem entryAt_of_lt (hi : i < m.read32 (a + 4)) :
    (loaded m a b).entryAt i = entry (loaded m a b) i := by
  rw [entryAt_loaded, if_pos hi, entry_loaded]

/-- Where the entries of a table that fits lie. -/
theorem TableFits.entry_inside (hfits : TableFits m a b) (h : RamdiskAt m a b)
    (hi : i < m.read32 (a + 4)) :
    entry (loaded m a b) i = a + 8 + i * entrySize ∧ a + 8 + i * entrySize + entrySize ≤ b := by
  have hmul : (i + 1) * entrySize ≤ m.read32 (a + 4) * entrySize := Nat.mul_le_mul_right _ hi
  have hheader := h.header
  have hstop := h.stop
  unfold TableFits at hfits
  rw [Nat.succ_mul] at hmul
  have hpos : 0 < entrySize := by decide
  rw [entry_loaded, u32_of_lt (by omega)]
  exact ⟨rfl, by omega⟩

/-- A field of an entry lies inside the module. -/
theorem TableFits.bytes_entry (hfits : TableFits m a b) (h : RamdiskAt m a b)
    (hi : i < m.read32 (a + 4)) (hk : k + n ≤ entrySize) :
    Bytes (InModule a b) (entry (loaded m a b) i + k) n := by
  obtain ⟨hentry, hend⟩ := hfits.entry_inside h hi
  have hstop := h.stop
  rw [hentry]
  exact bytes_inModule (by omega) (by omega) hstop.le

/-- **`Find` reads the table and the string it is given**, for a table that fits. -/
theorem within_findReads (hfits : TableFits m a b) (h : RamdiskAt m a b) (name : ℕ) :
    (findReads (loaded m a b) name).Within m
      fun x => InModule a b x ∨ InString name nameLen x := by
  refine within_find_of_bytes (fun i hi k hk => .inl ?_) fun k hk => .inr ⟨k, hk, rfl⟩
  have hentry := hfits.bytes_entry (k := 0) (n := nameLen) h hi (by decide)
  exact hentry k hk

/-- What `Find` returns is an entry of the table, or null. -/
theorem find_mem (hfound : find m r name ≠ 0) :
    ∃ i < r.fileCount, find m r name = entry r i := by
  unfold find at hfound ⊢
  split
  · rename_i hready
    exact absurd (if_pos hready) hfound
  · rename_i hready
    rw [if_neg hready] at hfound
    cases hsearch : (List.range r.fileCount).find? fun i =>
        strncmp m (entry r i) name nameLen = 0 with
    | none =>
      rw [hsearch] at hfound
      exact absurd rfl hfound
    | some i => exact ⟨i, List.mem_range.1 (List.mem_of_find?_eq_some hsearch), rfl⟩

/-- **`Find` depends on the table and the string only**, for a table that fits. -/
theorem find_congr (hfits : TableFits m a b) (h : RamdiskAt m a b)
    (hsame : ∀ x, InModule a b x ∨ InString name nameLen x → m' x = m x) :
    find m' (loaded m a b) name = find m (loaded m a b) name := by
  have hrun := run_congr ((within_findReads hfits h name).mono hsame)
  rw [← run_findReads, hrun.1, run_findReads]

/-- **The contents of an entry lie inside the module** exactly when they fit. -/
theorem bytes_data_iff (h : RamdiskAt m a b) (he : e ≠ 0) :
    Bytes (InModule a b) (data m (loaded m a b) e) (size m e) ↔ DataFits m a b e := by
  have hdata : data m (loaded m a b) e = u32 (a + offset m e) := by
    simp [data, loaded, he]
  have hheader := h.header
  have hstop := h.stop
  have hoffset : offset m e < 2 ^ 32 := Mem.read32_lt _ _
  unfold DataFits
  rw [hdata]
  constructor
  · intro hin
    by_contra hfits
    obtain ⟨hsize, hlong⟩ := not_or.1 hfits
    by_cases hoff : offset m e < b - a
    · -- the contents begin inside, and meet the byte behind the module
      obtain ⟨-, hlt⟩ := hin (b - a - offset m e) (by omega)
      rw [u32_add_u32, Nat.add_assoc, Nat.add_sub_cancel' hoff.le,
        Nat.add_sub_cancel' (by omega), u32_of_lt hstop] at hlt
      exact lt_irrefl b hlt
    · -- the contents begin behind the module, or in front of it after a wrap
      obtain ⟨hge, hlt⟩ := hin 0 (Nat.pos_of_ne_zero hsize)
      rw [u32_add_u32 (a + offset m e) 0, Nat.add_zero] at hge hlt
      unfold u32 at hge hlt
      omega
  · rintro (hsize | hend)
    · rw [hsize]
      exact bytes_zero
    · intro k hk
      rw [u32_add_u32, u32_of_lt (by omega)]
      exact ⟨by omega, by omega⟩

end Initrd

end Shiro
