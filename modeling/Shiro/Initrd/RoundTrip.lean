import Mathlib.Data.List.Nodup
import Shiro.Initrd.Basic

/-!
# The ramdisk round trip

The packer and the reader are written in two languages and share nothing but the layout `image`.
An image loaded as a boot module is accepted by `Initrd::Start`, and every file of the directory is
found under its name, with its contents.

* `Packable` : the directories that the image can hold.
* `Module` : the image as the first boot module with the magic number.
* `RoundTrip` : what the reader sees.
* `round_trip` : **the reader sees the directory that was packed.**
-/

namespace Shiro

open Multiboot

namespace Initrd

open Mem (le32)

/-- The names of the directory are distinct, and none is cut short. -/
structure Packable (dir : List File) : Prop where
  nodup : (dir.map File.name).Nodup
  short : ∀ f ∈ dir, (utf8 f.name).length ≤ 31
  nul : ∀ f ∈ dir, 0 ∉ utf8 f.name

/-- The bytes `bs` lie at `a` as the first boot module that begins with the magic number. -/
structure Module (m : Mem) (mbi : ℕ) (ts : List Tag) (a : ℕ) (bs : List UInt8) : Prop where
  block : InfoBlock m mbi ts
  bytes : m.BytesAt a bs
  listed : ∃ pre post, modules m ts = pre ++ (a, a + bs.length) :: post ∧
    ∀ x ∈ pre, m.read32 x.1 ≠ magic

/-- The reader `r` sees the directory `dir` in the module of `n` bytes at `a`. -/
structure RoundTrip (m : Mem) (r : Initrd) (dir : List File) (a n : ℕ) : Prop where
  count : r.count = dir.length
  /-- Each file is found under its name. -/
  find : ∀ f ∈ dir, ∀ p, m.BytesAt p (utf8 f.name ++ [0]) →
    (∃ i < r.count, find m r p = r.entryAt i) ∧ find m r p ≠ 0 ∧
      size m (find m r p) = f.payload.length ∧ m.BytesAt (data m r (find m r p)) f.payload
  /-- Nothing is found under another name. -/
  find_other : ∀ q p, 0 ∉ q → m.BytesAt p (q ++ [0]) → (∀ f ∈ dir, q ≠ utf8 f.name) →
    Initrd.find m r p = 0
  /-- The contents lie inside the module. -/
  inside : ∀ i < r.count, a ≤ data m r (r.entryAt i) ∧
    data m r (r.entryAt i) + size m (r.entryAt i) ≤ a + n
  /-- The contents of different entries lie apart. -/
  apart : ∀ i j, i < j → j < r.count →
    data m r (r.entryAt i) + size m (r.entryAt i) ≤ data m r (r.entryAt j)

variable {m : Mem} {mbi a : ℕ} {ts : List Tag} {dir fs pre post : List File} {f : File}

/-! ### Names -/

theorem utf8_inj {s t : String} : utf8 s = utf8 t ↔ s = t := by
  constructor
  · intro h
    exact String.toByteArray_inj.1 (ByteArray.ext (Array.toList_inj.1 h))
  · exact congrArg utf8

/-- A short name is padded with at least one zero. -/
theorem packName_eq {name : String} (h : (utf8 name).length ≤ 31) :
    packName name = utf8 name ++ [0] ++ List.replicate (31 - (utf8 name).length) 0 := by
  have htake : (utf8 name).take (nameLen - 1) = utf8 name := List.take_of_length_le h
  have hsub : nameLen - (utf8 name).length = 31 - (utf8 name).length + 1 := by
    unfold nameLen
    omega
  simp only [packName]
  rw [htake, hsub, List.replicate_succ, List.append_assoc, List.singleton_append]

/-! ### The layout in memory -/

theorem payloads_append (xs ys : List File) :
    payloads (xs ++ ys) = payloads xs ++ payloads ys := List.flatMap_append

theorem table_append (c : ℕ) (xs ys : List File) :
    table c (xs ++ ys) = table c xs ++ table (c + (payloads xs).length) ys := by
  induction xs generalizing c with
  | nil => rfl
  | cons x xs ih =>
    rw [List.cons_append, table, ih, table, payloads_cons, List.length_append, Nat.add_assoc,
      List.append_assoc]

/-- What lies in memory for one file of an image. -/
structure Placed (m : Mem) (a n : ℕ) (pre : List File) (f : File) : Prop where
  name : m.BytesAt (a + 8 + pre.length * 40) (packName f.name)
  size : Initrd.size m (a + 8 + pre.length * 40) = f.payload.length
  offset : Initrd.offset m (a + 8 + pre.length * 40) = headerSize n + (payloads pre).length
  payload : m.BytesAt (a + (headerSize n + (payloads pre).length)) f.payload

theorem placed_of_image (h : m.BytesAt a (image (pre ++ f :: post)))
    (hfit : (image (pre ++ f :: post)).length < 2 ^ 32) :
    Placed m a (pre ++ f :: post).length pre f := by
  have hlen := length_image (pre ++ f :: post)
  rw [payloads_append, payloads_cons, List.length_append, List.length_append] at hlen
  rw [image, table_append, table, payloads_append, payloads_cons, entryBytes] at h
  simp only [Mem.bytesAt_append, List.length_append, Mem.length_le32, length_table,
    length_packName] at h
  obtain ⟨⟨-, -, ⟨hname, hsize, hoffset⟩, -⟩, -, hpayload, -⟩ := h
  have hlt : headerSize (pre ++ f :: post).length + (payloads pre).length < 2 ^ 32 := by
    rw [List.length_append]
    omega
  have hpos : 4 + 4 + (pre.length * 40 + (32 + (4 + 4) + post.length * 40)) =
      headerSize (pre ++ f :: post).length := by
    rw [headerSize, List.length_append, List.length_cons]
    omega
  rw [hpos, Nat.add_assoc] at hpayload
  rw [← List.length_append] at hoffset
  refine ⟨hname, Mem.read32_of_bytesAt hsize ?_, Mem.read32_of_bytesAt hoffset hlt, hpayload⟩
  rw [List.length_append] at hlen
  omega

/-- The address of an entry of an image. -/
theorem entry_eq {b i : ℕ} (hfit : a + (image fs).length < 2 ^ 32) (hi : i < fs.length) :
    entry (loaded m a b) i = a + 8 + i * 40 := by
  rw [length_image, headerSize] at hfit
  rw [entry, loaded, u32_add_u32, u32_of_lt (by unfold entrySize; omega)]
  rfl

theorem placed_at (h : m.BytesAt a (image fs)) (hfit : a + (image fs).length < 2 ^ 32) {i : ℕ}
    (hi : i < fs.length) : Placed m a fs.length (fs.take i) fs[i] := by
  have hsplit : fs = fs.take i ++ fs[i] :: fs.drop (i + 1) := by
    rw [← List.drop_eq_getElem_cons hi, List.take_append_drop]
  rw [hsplit] at h hfit
  have hp := placed_of_image h (by omega)
  rwa [← hsplit] at hp

/-- The contents of an entry end where those of the next begin, or before. -/
theorem length_payloads_take {i j : ℕ} (hi : i < fs.length) (hij : i < j) :
    (payloads (fs.take i)).length + fs[i].payload.length ≤ (payloads (fs.take j)).length := by
  have hsucc : payloads (fs.take (i + 1)) = payloads (fs.take i) ++ fs[i].payload := by
    rw [← List.take_append_getElem hi, payloads_append]
    simp [payloads]
  have htake : fs.take j = fs.take (i + 1) ++ (fs.take j).drop (i + 1) := by
    conv_lhs => rw [← List.take_append_drop (i + 1) (fs.take j), List.take_take, min_eq_left hij]
  rw [htake, payloads_append, hsucc, List.length_append, List.length_append]
  omega

/-! ### What the reader sees -/

/-- The module ends inside the address space. -/
theorem Module.fits {bs : List UInt8} (hm : Module m mbi ts a bs) : a + bs.length < 2 ^ 32 := by
  obtain ⟨pre, post, hlist, -⟩ := hm.listed
  have hmem : (a, a + bs.length) ∈ modules m ts := by
    rw [hlist]
    exact List.mem_append_right _ List.mem_cons_self
  obtain ⟨t, -, ht⟩ := List.mem_map.1 hmem
  rw [← (Prod.mk.inj ht).2]
  exact Mem.read32_lt _ _

theorem header_eq (h : m.BytesAt a (image fs)) (hfit : a + (image fs).length < 2 ^ 32) :
    m.read32 a = magic ∧ m.read32 (a + 4) = fs.length := by
  rw [length_image, headerSize] at hfit
  rw [image, Mem.bytesAt_append, Mem.bytesAt_append, Mem.bytesAt_append] at h
  exact ⟨Mem.read32_of_bytesAt h.1.1.1 (by decide), Mem.read32_of_bytesAt h.1.1.2 (by omega)⟩

/-- **`Initrd::Start` accepts a loaded image.** -/
theorem start_image (hm : Module m mbi ts a (image fs)) :
    start m mbi = some (loaded m a (a + (image fs).length)) := by
  obtain ⟨pre, post, hlist, hpre⟩ := hm.listed
  exact start_eq hm.block hlist hpre (header_eq hm.bytes hm.fits).1

variable {b : ℕ}

theorem count_eq (h : m.BytesAt a (image fs)) (hfit : a + (image fs).length < 2 ^ 32) :
    (loaded m a b).count = fs.length := (header_eq h hfit).2

theorem entryAt_eq (h : m.BytesAt a (image fs)) (hfit : a + (image fs).length < 2 ^ 32) {i : ℕ}
    (hi : i < fs.length) : entryAt (loaded m a b) i = a + 8 + i * 40 := by
  have hcount : (loaded m a b).fileCount = fs.length := (header_eq h hfit).2
  rw [entryAt, hcount, if_neg (by simp [loaded, hi]), entry_eq hfit hi]

/-- **The size and the contents of an entry** are those of its file. -/
theorem entry_spec (h : m.BytesAt a (image fs)) (hfit : a + (image fs).length < 2 ^ 32) {i : ℕ}
    (hi : i < fs.length) :
    size m (a + 8 + i * 40) = fs[i].payload.length ∧
      data m (loaded m a b) (a + 8 + i * 40) =
        a + (headerSize fs.length + (payloads (fs.take i)).length) ∧
      m.BytesAt (a + (headerSize fs.length + (payloads (fs.take i)).length)) fs[i].payload := by
  have hp := placed_at h hfit hi
  have hlen : (fs.take i).length = i := List.length_take_of_le hi.le
  have hle := length_payloads_take hi hi
  rw [List.take_length] at hle
  rw [length_image] at hfit
  have hsize := hp.size
  have hoffset := hp.offset
  rw [hlen] at hsize hoffset
  refine ⟨hsize, ?_, hp.payload⟩
  rw [data, if_neg (by simp [loaded]), hoffset]
  exact u32_of_lt (n := a + (headerSize fs.length + (payloads (fs.take i)).length)) (by omega)

/-- The name of an entry, and its NUL. -/
theorem name_at (h : m.BytesAt a (image fs)) (hfit : a + (image fs).length < 2 ^ 32)
    (hshort : ∀ f ∈ fs, (utf8 f.name).length ≤ 31) {i : ℕ} (hi : i < fs.length) :
    m.BytesAt (a + 8 + i * 40) (utf8 fs[i].name ++ [0]) := by
  have hname := (placed_at h hfit hi).name
  rw [packName_eq (hshort _ (List.getElem_mem hi)), Mem.bytesAt_append,
    List.length_take_of_le hi.le] at hname
  exact hname.1

/-- The comparison of an entry's name with a string. -/
theorem strncmp_entry (h : m.BytesAt a (image fs)) (hfit : a + (image fs).length < 2 ^ 32)
    (hshort : ∀ f ∈ fs, (utf8 f.name).length ≤ 31) (hnul : ∀ f ∈ fs, 0 ∉ utf8 f.name)
    {q : List UInt8} {p i : ℕ} (hq : 0 ∉ q) (hp : m.BytesAt p (q ++ [0])) (hi : i < fs.length) :
    strncmp m (entry (loaded m a b) i) p nameLen = 0 ↔ utf8 fs[i].name = q := by
  have hmem : fs[i] ∈ fs := List.getElem_mem hi
  rw [entry_eq hfit hi]
  exact strncmp_eq_zero_iff (name_at h hfit hshort hi) hp (hnul _ hmem) hq (Nat.lt_succ_of_le (hshort _ hmem))

/-- `Find` returns the first entry with the name. -/
theorem find_hit (h : m.BytesAt a (image fs)) (hfit : a + (image fs).length < 2 ^ 32) {p i : ℕ}
    (hi : i < fs.length) (hmatch : strncmp m (entry (loaded m a b) i) p nameLen = 0)
    (hfirst : ∀ j < i, strncmp m (entry (loaded m a b) j) p nameLen ≠ 0) :
    find m (loaded m a b) p = a + 8 + i * 40 := by
  have hcount : (loaded m a b).fileCount = fs.length := (header_eq h hfit).2
  rw [find, if_neg (by simp [loaded]), hcount, List.find?_range_eq_some.2
    ⟨decide_eq_true hmatch, List.mem_range.2 hi, fun j hj => by simpa using hfirst j hj⟩]
  exact entry_eq hfit hi

/-- `Find` returns `NULL` if no entry has the name. -/
theorem find_miss (h : m.BytesAt a (image fs)) (hfit : a + (image fs).length < 2 ^ 32) {p : ℕ}
    (hno : ∀ i < fs.length, strncmp m (entry (loaded m a b) i) p nameLen ≠ 0) :
    find m (loaded m a b) p = 0 := by
  have hcount : (loaded m a b).fileCount = fs.length := (header_eq h hfit).2
  rw [find, if_neg (by simp [loaded]), hcount,
    List.find?_range_eq_none.2 fun i hi => by simpa using hno i hi]

theorem sorted_perm (dir : List File) : (sorted dir).Perm dir := List.mergeSort_perm _ _

/-- A directory survives in the image of its files, in whatever order they are packed. -/
theorem roundTrip_of_image (hperm : fs.Perm dir) (hdir : Packable dir)
    (h : m.BytesAt a (image fs)) (hfit : a + (image fs).length < 2 ^ 32) :
    RoundTrip m (loaded m a b) dir a (image fs).length := by
  have hcount : (loaded m a b).count = fs.length := count_eq h hfit
  have hshort : ∀ f ∈ fs, (utf8 f.name).length ≤ 31 := fun f hf => hdir.short f (hperm.mem_iff.1 hf)
  have hnul : ∀ f ∈ fs, 0 ∉ utf8 f.name := fun f hf => hdir.nul f (hperm.mem_iff.1 hf)
  have hnodup : (fs.map File.name).Nodup := (hperm.map File.name).nodup_iff.2 hdir.nodup
  refine ⟨hcount.trans hperm.length_eq, fun f hf p hp => ?_, fun q p hq hp hother => ?_,
    fun i hi => ?_, fun i j hij hj => ?_⟩
  · obtain ⟨i, hi, rfl⟩ := List.getElem_of_mem (hperm.mem_iff.2 hf)
    have hq := hnul _ (List.getElem_mem hi)
    have hmatch := fun j (hj : j < fs.length) =>
      strncmp_entry (b := b) h hfit hshort hnul hq hp hj
    -- names are distinct, so no earlier entry matches
    have hfirst : ∀ j < i, strncmp m (entry (loaded m a b) j) p nameLen ≠ 0 := by
      intro j hj heq
      have hname := utf8_inj.1 ((hmatch j (hj.trans hi)).1 heq)
      have hi' : i < (fs.map File.name).length := by rwa [List.length_map]
      have hj' : j < (fs.map File.name).length := hj.trans hi'
      have hget : (fs.map File.name)[j] = (fs.map File.name)[i] := by simpa using hname
      exact hj.ne ((List.Nodup.getElem_inj_iff hnodup).1 hget)
    have hfind := find_hit h hfit hi ((hmatch i hi).2 rfl) hfirst
    obtain ⟨hsize, hdata, hbytes⟩ := entry_spec (b := b) h hfit hi
    rw [hfind, hdata]
    exact ⟨⟨i, by rwa [hcount], (entryAt_eq h hfit hi).symm⟩, by omega, hsize, hbytes⟩
  · refine find_miss h hfit fun i hi heq => ?_
    have hname := (strncmp_entry h hfit hshort hnul hq hp hi).1 heq
    exact hother _ (hperm.mem_iff.1 (List.getElem_mem hi)) hname.symm
  · rw [hcount] at hi
    obtain ⟨hsize, hdata, -⟩ := entry_spec (b := b) h hfit hi
    have hle := length_payloads_take hi hi
    rw [List.take_length] at hle
    rw [entryAt_eq h hfit hi, hdata, hsize, length_image]
    omega
  · rw [hcount] at hj
    obtain ⟨hsize, hdata, -⟩ := entry_spec (b := b) h hfit (hij.trans hj)
    obtain ⟨-, hdata', -⟩ := entry_spec (b := b) h hfit hj
    have hle := length_payloads_take (hij.trans hj) hij
    rw [entryAt_eq h hfit (hij.trans hj), entryAt_eq h hfit hj, hdata, hdata', hsize]
    omega

/-- **The reader sees the directory that was packed**, wherever the image is loaded. -/
theorem round_trip (hdir : Packable dir) (hm : Module m mbi ts a (pack dir)) :
    ∃ r, start m mbi = some r ∧ RoundTrip m r dir a (pack dir).length := by
  rw [pack_eq] at hm ⊢
  exact ⟨_, start_image hm, roundTrip_of_image (sorted_perm dir) hdir hm.bytes hm.fits⟩

/-! ### A small directory -/

/-- A directory of two files. -/
def smallDir : List File := [⟨"logo", [255, 0, 7]⟩, ⟨"motd", "hi".toUTF8.data.toList⟩]

/-- A block at `0x9000` that lists the module `bs` at 1 MiB, and the module. -/
def smallModule (bs : List UInt8) : Mem := fun x =>
  let m : Mem := fun _ => 0
  let m := (m.write32 0x9000 32).write32 0x9008 tagModule
  let m := (m.write32 0x900C 16).write32 0x9010 0x100000
  let m := (m.write32 0x9014 (0x100000 + bs.length)).write32 0x901C 8
  if 0x100000 ≤ x then bs.getD (x - 0x100000) 0 else m x

/-- The module lies at 1 MiB. -/
theorem bytesAt_smallModule {bs : List UInt8} (h : 0x100000 + bs.length < 2 ^ 32) :
    (smallModule bs).BytesAt 0x100000 bs := by
  intro i hi
  rw [u32_of_lt (by omega)]
  simp [smallModule, hi]

theorem smallDir_packable : Packable smallDir where
  nodup := by decide +kernel
  short := by decide +kernel
  nul := by decide +kernel

theorem pack_smallDir : pack smallDir = image smallDir := by
  rw [pack_eq, sorted, List.mergeSort_of_pairwise (by decide +kernel)]

theorem smallModule_wf :
    Module (smallModule (pack smallDir)) 0x9000 [⟨0x9008, tagModule, 16⟩] 0x100000
      (pack smallDir) := by
  rw [pack_smallDir]
  have hfits : 0x100000 + (image smallDir).length < 2 ^ 32 := by decide +kernel
  refine ⟨⟨by decide, ?_, by decide +kernel⟩, bytesAt_smallModule hfits, [], [], ?_, by simp⟩
  · refine ⟨rfl, by decide +kernel, by decide +kernel, by decide, ⟨?_, ?_, ?_⟩, ?_, ?_, ?_⟩
    all_goals decide +kernel
  · decide +kernel

theorem round_trip_smallDir :
    ∃ r, start (smallModule (pack smallDir)) 0x9000 = some r ∧
      RoundTrip (smallModule (pack smallDir)) r smallDir 0x100000 (pack smallDir).length :=
  round_trip smallDir_packable smallModule_wf

end Initrd

end Shiro
