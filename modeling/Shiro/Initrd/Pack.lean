import Mathlib.Data.List.Basic
import Shiro.Lib.Memory

/-!
# The ramdisk packer

`mkinitrd.py` writes a directory into one file: the magic number and the number of files, a table
with the padded name, the size and the offset of each file, and the contents one behind the other.
It allocates the whole image and then writes each piece at its running offset.

* `pack` : the packer.
* `image` : the layout of the image.
* `pack_eq` : **the packer writes that layout.**
-/

namespace Shiro

namespace Initrd

open Mem (le32)

/-- `MAGIC`. -/
def magic : ℕ := 0x53484952

/-- `NAME_LEN`. -/
def nameLen : ℕ := 32

/-- A file of the directory. -/
structure File where
  name : String
  payload : List UInt8

/-- `name.encode("utf-8")`. -/
def utf8 (name : String) : List UInt8 := name.toUTF8.data.toList

/-! ### The packer -/

/-- `pack_name(name)`. -/
def packName (name : String) : List UInt8 :=
  let raw := (utf8 name).take (nameLen - 1)
  raw ++ List.replicate (nameLen - raw.length) 0

/-- `out[pos:pos + len(xs)] = xs`. -/
def setSlice (out : List UInt8) (pos : ℕ) (xs : List UInt8) : List UInt8 :=
  out.take pos ++ xs ++ out.drop (pos + xs.length)

/-- The loop that computes `offsets` and the total size. -/
def offsets (headerSize : ℕ) (files : List File) : List ℕ × ℕ :=
  files.foldl (fun r f => (r.1 ++ [r.2], r.2 + f.payload.length)) ([], headerSize)

/-- The loop that writes the table from `pos` on. -/
def writeTable (out : List UInt8) (pos : ℕ) (entries : List (File × ℕ)) : List UInt8 × ℕ :=
  entries.foldl (fun r e =>
    let out := setSlice r.1 r.2 (packName e.1.name)
    let pos := r.2 + nameLen
    (setSlice out pos (le32 e.1.payload.length ++ le32 e.2), pos + 8)) (out, pos)

/-- The loop that writes the contents. -/
def writePayloads (out : List UInt8) (entries : List (File × ℕ)) : List UInt8 :=
  entries.foldl (fun out e => setSlice out e.2 e.1.payload) out

/-- The files of a directory in the order of their names. -/
def sorted (dir : List File) : List File := dir.mergeSort fun f g => f.name ≤ g.name

/-- `main`: the image of a directory. -/
def pack (dir : List File) : List UInt8 :=
  let files := sorted dir
  let headerSize := 4 + 4 + files.length * (nameLen + 4 + 4)
  let (offs, totalSize) := offsets headerSize files
  let out := List.replicate totalSize 0
  let out := setSlice out 0 (le32 magic ++ le32 files.length)
  let out := (writeTable out 8 (files.zip offs)).1
  writePayloads out (files.zip offs)

/-! ### The layout -/

/-- Where each file's contents begin if the first begins at `c`. -/
def offsetsFrom : ℕ → List File → List ℕ
  | _, [] => []
  | c, f :: fs => c :: offsetsFrom (c + f.payload.length) fs

/-- An entry of the table. -/
def entryBytes (f : File) (offset : ℕ) : List UInt8 :=
  packName f.name ++ (le32 f.payload.length ++ le32 offset)

/-- The table of the files whose contents begin at `c`. -/
def table : ℕ → List File → List UInt8
  | _, [] => []
  | c, f :: fs => entryBytes f c ++ table (c + f.payload.length) fs

/-- All contents. -/
def payloads (fs : List File) : List UInt8 := fs.flatMap File.payload

/-- Bytes before the contents. -/
def headerSize (n : ℕ) : ℕ := 8 + n * 40

/-- The image of the files `fs`. -/
def image (fs : List File) : List UInt8 :=
  le32 magic ++ le32 fs.length ++ table (headerSize fs.length) fs ++ payloads fs

variable {fs : List File} {f : File} {c n : ℕ} {done : List UInt8}

@[simp] theorem length_packName (name : String) : (packName name).length = 32 := by
  have := List.length_take_le (nameLen - 1) (utf8 name)
  simp only [packName, List.length_append, List.length_replicate, nameLen] at *
  omega

@[simp] theorem length_entryBytes (f : File) (c : ℕ) : (entryBytes f c).length = 40 := by
  simp [entryBytes]

@[simp] theorem length_table (c : ℕ) (fs : List File) : (table c fs).length = fs.length * 40 := by
  induction fs generalizing c with
  | nil => rfl
  | cons f fs ih =>
    rw [table, List.length_append, length_entryBytes, ih, List.length_cons]
    omega

@[simp] theorem payloads_cons (f : File) (fs : List File) :
    payloads (f :: fs) = f.payload ++ payloads fs := rfl

theorem length_image (fs : List File) :
    (image fs).length = headerSize fs.length + (payloads fs).length := by
  simp only [image, headerSize, List.length_append, Mem.length_le32, length_table]

/-! ### The packer writes the layout -/

/-- Writing behind what is done takes the place of zeros. -/
theorem setSlice_zeros (done xs : List UInt8) (n : ℕ) :
    setSlice (done ++ List.replicate n 0) done.length xs =
      done ++ xs ++ List.replicate (n - xs.length) 0 := by
  rw [setSlice, List.take_left', List.drop_append, List.drop_replicate]
  · rw [List.drop_eq_nil_of_le (by omega), List.nil_append, Nat.add_sub_cancel_left]
  · rfl

theorem offsets_eq (c : ℕ) (os : List ℕ) (fs : List File) :
    fs.foldl (fun r f => (r.1 ++ [r.2], r.2 + f.payload.length)) (os, c) =
      (os ++ offsetsFrom c fs, c + (payloads fs).length) := by
  induction fs generalizing c os with
  | nil => simp [offsetsFrom, payloads]
  | cons f fs ih =>
    rw [List.foldl_cons, ih, offsetsFrom, payloads_cons, List.length_append]
    simp [Nat.add_assoc]

theorem writeTable_eq (c : ℕ) (fs : List File) (done : List UInt8) (n : ℕ) :
    writeTable (done ++ List.replicate n 0) done.length (fs.zip (offsetsFrom c fs)) =
      (done ++ table c fs ++ List.replicate (n - (table c fs).length) 0,
        (done ++ table c fs).length) := by
  induction fs generalizing c done n with
  | nil => simp [writeTable, table, offsetsFrom]
  | cons f fs ih =>
    rw [offsetsFrom, List.zip_cons_cons, writeTable, List.foldl_cons, setSlice_zeros]
    have hpos : done.length + nameLen = (done ++ packName f.name).length := by simp [nameLen]
    have hend : done.length + nameLen + 8 = (done ++ entryBytes f c).length := by simp [nameLen]
    dsimp only
    rw [hend, hpos, setSlice_zeros, List.append_assoc done, ← entryBytes, table]
    have := ih (c + f.payload.length) (done ++ entryBytes f c)
      (n - (packName f.name).length - (le32 f.payload.length ++ le32 c).length)
    rw [writeTable] at this
    have h40 : 32 + (8 + fs.length * 40) = 40 + fs.length * 40 := by omega
    rw [this, List.append_assoc done, Nat.sub_sub, Nat.sub_sub]
    simp only [List.length_append, length_packName, length_entryBytes, length_table,
      Mem.length_le32, Nat.reduceAdd, h40]

theorem writePayloads_eq (fs : List File) (done : List UInt8) (n : ℕ) :
    writePayloads (done ++ List.replicate n 0) (fs.zip (offsetsFrom done.length fs)) =
      done ++ payloads fs ++ List.replicate (n - (payloads fs).length) 0 := by
  induction fs generalizing done n with
  | nil => simp [writePayloads, payloads, offsetsFrom]
  | cons f fs ih =>
    rw [offsetsFrom, List.zip_cons_cons, writePayloads, List.foldl_cons, setSlice_zeros]
    have := ih (done ++ f.payload) (n - f.payload.length)
    rw [List.length_append] at this
    rw [writePayloads] at this
    rw [this, payloads_cons, List.length_append, Nat.sub_sub, List.append_assoc done]

/-- **The packer writes the layout.** -/
theorem pack_eq (dir : List File) : pack dir = image (sorted dir) := by
  have hh : 4 + 4 + (sorted dir).length * (nameLen + 4 + 4) = headerSize (sorted dir).length := rfl
  have hoff := offsets_eq (headerSize (sorted dir).length) [] (sorted dir)
  rw [List.nil_append, ← offsets] at hoff
  have hlen : (le32 magic ++ le32 (sorted dir).length).length = 8 := rfl
  -- the image is written from front to back, each part in the place of zeros
  have hhead := setSlice_zeros [] (le32 magic ++ le32 (sorted dir).length)
    (headerSize (sorted dir).length + (payloads (sorted dir)).length)
  have htable := writeTable_eq (headerSize (sorted dir).length) (sorted dir)
    (le32 magic ++ le32 (sorted dir).length)
    (headerSize (sorted dir).length + (payloads (sorted dir)).length - 8)
  have hpay := writePayloads_eq (sorted dir)
    (le32 magic ++ le32 (sorted dir).length ++ table (headerSize (sorted dir).length) (sorted dir))
    (payloads (sorted dir)).length
  have hrest : headerSize (sorted dir).length + (payloads (sorted dir)).length - 8 -
      (table (headerSize (sorted dir).length) (sorted dir)).length =
        (payloads (sorted dir)).length := by
    rw [length_table, headerSize]
    omega
  have hdone : (le32 magic ++ le32 (sorted dir).length ++
      table (headerSize (sorted dir).length) (sorted dir)).length =
        headerSize (sorted dir).length := by
    rw [List.length_append, hlen, length_table, headerSize]
  rw [hlen] at hhead htable
  rw [List.nil_append, List.nil_append, List.length_nil] at hhead
  rw [hrest] at htable
  rw [hdone, Nat.sub_self, List.replicate_zero, List.append_nil] at hpay
  rw [pack]
  dsimp only
  rw [hh, hoff]
  dsimp only
  rw [hhead, htable]
  exact hpay

end Initrd

end Shiro
