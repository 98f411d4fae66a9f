import Shiro.Initrd.Reads
import Shiro.Shell.Files
import Shiro.Shell.Numbers

/-!
# What `ls` and `cat` read

`ls` prints the table of the ramdisk, and `cat` a file of it.  Neither compares what the table says
with the length of the module: a table that fits keeps both inside the module, and so do contents
that fit, but nothing is refused.

* `cmdLs` : `Commands::cmd_ls`.
* `cmdCatReads` : `Commands::cmd_cat`; `run_cmdCatReads` connects it with `cmdCat`.
* `StaysInside` : what the readers of the ramdisk read.
* `stays_inside` : **they do so in every module.**
-/

namespace Shiro

open Initrd Reads

/-! ### The commands -/

/-- `AppendStr(dst, idx, cap, s)` for a string in memory. -/
def appendStrReads (dst : List UInt8) (cap s : ℕ) : Reads ℕ UInt8 (List UInt8) := do
  return dst ++ (← readStr s (cap - 1 - dst.length))

/-- What `ls` has in its buffer in front of a name. -/
def lsColumns (size : ℕ) : List UInt8 :=
  let buf := appendStr [] 80 (text "  ")
  let buf := buf ++ intToStr size (80 - buf.length)
  let buf := buf ++ List.replicate (10 - buf.length) 32
  appendStr buf 80 (text "  ")

/-- The line of an entry. -/
def lsLine (e : ℕ) : Reads ℕ UInt8 (List UInt8) := do
  let size ← sizeReads e
  appendStrReads (lsColumns size) 80 e

/-- The first line. -/
def lsHeader (count length : ℕ) : List UInt8 :=
  let buf := appendStr [] 80 (text "Initrd contents (")
  let buf := buf ++ intToStr count (80 - buf.length)
  let buf := appendStr buf 80 (text " files, ")
  let buf := buf ++ intToStr length (80 - buf.length)
  appendStr buf 80 (text " bytes total):")

/-- `cmd_ls(args)`: the strings it prints. -/
def cmdLs (r : Initrd) : Reads ℕ UInt8 (List (List UInt8)) :=
  if !r.ready then return [text "ls: initrd not loaded"]
  else
    (List.range r.count).foldlM (fun printed i =>
      let e := r.entryAt i
      if e = 0 then return printed
      else do return printed ++ [← lsLine e]) [lsHeader r.count r.length]

/-- `cmd_cat(args)`: the strings it prints. -/
def cmdCatReads (r : Initrd) (args : ℕ) : Reads ℕ UInt8 (List (List UInt8)) := do
  let c ← read8 args
  if c = 0 then return [text "usage: cat <filename>"]
  else if !r.ready then return [text "cat: initrd not loaded"]
  else do
    let e ← findReads r args
    if e = 0 then
      return [← appendStrReads (appendStr [] 80 (text "cat: file not found: ")) 80 args]
    else do
      let data ← dataReads r e
      if data = 0 then return [text "cat: read error"]
      else do
        let size ← sizeReads e
        return feed catFlush [] (← readBytes data size)

/-- What the readers of the ramdisk read, in the module `[a, b)`.  Nothing is refused for not
fitting. -/
structure StaysInside (m : Mem) (a b : ℕ) : Prop where
  /-- `EntryAt` compares the index with the number of files, and reads nothing. -/
  entryAt : ∀ i, (loaded m a b).entryAt i =
    if i < m.read32 (a + 4) then u32 (a + 8 + i * entrySize) else 0
  /-- The entries of a table that fits lie inside the module. -/
  entry : TableFits m a b → ∀ i < m.read32 (a + 4),
    a ≤ (loaded m a b).entryAt i ∧ (loaded m a b).entryAt i + entrySize ≤ b
  /-- `Find` reads a table that fits, and the string it is given. -/
  find : TableFits m a b → ∀ name, (findReads (loaded m a b) name).Within m
    fun x => InModule a b x ∨ InString name nameLen x
  /-- `ls` reads a table that fits, if every name ends inside its field. -/
  ls : TableFits m a b → NamesEnd m a b → (cmdLs (loaded m a b)).Within m (InModule a b)
  /-- `cat` reads a table that fits, its argument, and contents that fit if it finds any. -/
  cat : TableFits m a b → ∀ args, (Initrd.find m (loaded m a b) args ≠ 0 →
      DataFits m a b (Initrd.find m (loaded m a b) args)) →
    (cmdCatReads (loaded m a b) args).Within m fun x => InModule a b x ∨ InString args 80 x
  /-- Contents that do not fit lie outside the module. -/
  data : ∀ e, e ≠ 0 →
    (Bytes (InModule a b) (data m (loaded m a b) e) (size m e) ↔ DataFits m a b e)
  /-- `cat` reads them all the same. -/
  cat_all : ∀ args e, m.read8 args ≠ 0 → Initrd.find m (loaded m a b) args = e → e ≠ 0 →
    Initrd.data m (loaded m a b) e ≠ 0 →
      Bytes (· ∈ (cmdCatReads (loaded m a b) args).trace m) (Initrd.data m (loaded m a b) e)
        (size m e)
  /-- `ls` reads an entry that does not fit all the same. -/
  ls_all : ∀ i, (loaded m a b).entryAt i ≠ 0 →
    Bytes (· ∈ (cmdLs (loaded m a b)).trace m) ((loaded m a b).entryAt i + 32) 4

variable {m : Mem} {P : ℕ → Prop} {r : Initrd} {a b e i k n p s args : ℕ} {dst : List UInt8}

/-! ### The results are those of `cat` -/

theorem take_readBytes (m : Mem) (a : ℕ) (h : n ≤ k) :
    (m.readBytes a k).take n = m.readBytes a n := by
  rw [Mem.readBytes, ← List.map_take, List.take_range, Nat.min_eq_left h, Mem.readBytes]

theorem run_appendStrReads (m : Mem) (dst : List UInt8) (s : ℕ) (h : n ≤ k + 1) :
    (appendStrReads dst n s).run m = appendStr dst n (m.readBytes s k) := by
  have hle : n - 1 - dst.length ≤ k := by omega
  rw [appendStrReads, run_bind, run_pure, run_readStr, appendStr, ← take_readBytes m s hle, cstr,
    ← List.take_takeWhile, cstr]

@[simp] theorem run_cmdCatReads (m : Mem) (r : Initrd) (args : ℕ) :
    (cmdCatReads r args).run m = cmdCat m r args := by
  have hname : ∀ dst, (appendStrReads dst 80 args).run m = appendStr dst 80 (m.readBytes args 80) :=
    fun dst => run_appendStrReads m dst args (by decide)
  simp only [cmdCatReads, cmdCat, run_bind, run_ite, run_pure, run_read8, run_findReads,
    run_dataReads, run_sizeReads, run_readBytes, hname]

/-! ### What `ls` reads -/

theorem length_appendStr_le (dst : List UInt8) (cap : ℕ) (s : List UInt8) :
    (appendStr dst cap s).length ≤ dst.length + s.length := by
  rw [appendStr, List.length_append, List.length_take]
  have hcstr : (cstr s).length ≤ s.length := (List.takeWhile_sublist _).length_le
  exact Nat.add_le_add_left ((Nat.min_le_right _ _).trans hcstr) _

/-- In front of a name there is room for the field. -/
theorem length_lsColumns_le (size : ℕ) : (lsColumns size).length ≤ 19 := by
  have hfirst : (appendStr [] 80 (text "  ")).length = 2 := by decide
  have hsize := length_intToStr_le size (80 - (appendStr [] 80 (text "  ")).length)
  have htext : (text "  ").length = 2 := by decide
  refine (length_appendStr_le _ _ _).trans ?_
  simp only [List.length_append, List.length_replicate]
  omega

/-- A line of `ls` reads the size of the entry and its name. -/
theorem within_lsLine (hk : k < nameLen) (hnul : m (u32 (e + k)) = 0) (hsize : Bytes P (e + 32) 4)
    (hname : Bytes P e nameLen) : (lsLine e).Within m P := by
  have hlen := length_lsColumns_le (size m e)
  have hfield : nameLen = 32 := rfl
  rw [lsLine, within_bind, sizeReads, within_read32, appendStrReads, within_bind]
  refine ⟨hsize, within_readStr (k := k) ?_ (fun _ => hnul) ?_, within_pure _⟩
  · rw [← sizeReads, run_sizeReads]
    omega
  · exact fun j hj => hname j (by omega)

/-- **`ls` reads the table**, for a table that fits and whose names end. -/
theorem within_cmdLs (hfits : TableFits m a b) (h : RamdiskAt m a b) (hend : NamesEnd m a b) :
    (cmdLs (loaded m a b)).Within m (InModule a b) := by
  unfold cmdLs
  split
  · exact within_pure _
  · refine within_foldlM (fun i hi printed => ?_) _
    have hi : i < m.read32 (a + 4) := List.mem_range.1 hi
    dsimp only
    split
    · exact within_pure _
    · obtain ⟨k, hk, hnul⟩ := hend i hi
      rw [entryAt_of_lt hi, within_bind]
      refine ⟨within_lsLine hk hnul ?_ ?_, within_pure _⟩
      · exact hfits.bytes_entry h hi (by decide)
      · exact hfits.bytes_entry (k := 0) h hi (by decide)

/-- `ls` reads the size of every entry, wherever it lies. -/
theorem bytes_cmdLs (hi : (loaded m a b).entryAt i ≠ 0)
    (h : (cmdLs (loaded m a b)).Within m P) : Bytes P ((loaded m a b).entryAt i + 32) 4 := by
  have hlt : i < m.read32 (a + 4) := by
    by_contra hge
    rw [entryAt_loaded, if_neg hge] at hi
    exact hi rfl
  rw [cmdLs, if_neg (by simp [loaded])] at h
  obtain ⟨printed, hbody⟩ := h.of_foldlM (x := i) (List.mem_range.2 hlt)
  dsimp only at hbody
  rw [if_neg hi, within_bind, lsLine, within_bind, sizeReads, within_read32] at hbody
  exact hbody.1.1

/-! ### What `cat` reads -/

/-- A name that is not found is read again, for the message. -/
theorem within_appendStrReads (h : Bytes P s n) (hn : 0 < n) :
    (appendStrReads dst n s).Within m P := by
  rw [appendStrReads, within_bind]
  refine ⟨within_readStr le_rfl (fun hlt => absurd hlt (lt_irrefl _)) ?_, within_pure _⟩
  exact fun k hk => h k (by omega)

/-- **`cat` reads the table, its argument, and the contents**, for a table that fits and an entry
whose contents fit. -/
theorem within_cmdCatReads (hfits : TableFits m a b) (h : RamdiskAt m a b)
    (hdata : find m (loaded m a b) args ≠ 0 → DataFits m a b (find m (loaded m a b) args)) :
    (cmdCatReads (loaded m a b) args).Within m
      fun x => InModule a b x ∨ InString args 80 x := by
  have hargs : ∀ n ≤ 80, Bytes (fun x => InModule a b x ∨ InString args 80 x) args n :=
    fun n hn k hk => .inr ⟨k, hk.trans_le hn, rfl⟩
  have hmodule : ∀ {p n}, Bytes (InModule a b) p n →
      Bytes (fun x => InModule a b x ∨ InString args 80 x) p n :=
    fun hin => hin.mono fun _ => .inl
  have hfind : (findReads (loaded m a b) args).Within m
      fun x => InModule a b x ∨ InString args 80 x := by
    refine (within_findReads hfits h args).mono fun x hx => hx.imp_right ?_
    rintro ⟨k, hk, rfl⟩
    exact ⟨k, hk.trans (by decide), rfl⟩
  rw [cmdCatReads, within_bind, within_read8]
  refine ⟨hargs 1 (by decide) 0 Nat.zero_lt_one, ?_⟩
  split
  · exact within_pure _
  split
  · exact within_pure _
  rw [within_bind]
  refine ⟨hfind, ?_⟩
  rw [run_findReads]
  split
  · rw [within_bind]
    exact ⟨within_appendStrReads (hargs 80 le_rfl) (by decide), within_pure _⟩
  · -- the entry that `Find` returns lies in the table
    rename_i hfound
    obtain ⟨i, hi, hentry⟩ := find_mem hfound
    have hfield : ∀ k, k + 4 ≤ entrySize →
        Bytes (InModule a b) (find m (loaded m a b) args + k) 4 := by
      intro k hk
      rw [hentry]
      exact hfits.bytes_entry h hi hk
    rw [within_bind]
    refine ⟨within_dataReads (hmodule (hfield 36 (by decide))), ?_⟩
    split
    · exact within_pure _
    · rw [within_bind, sizeReads, within_read32, within_bind, within_readBytes, run_dataReads]
      refine ⟨hmodule (hfield 32 (by decide)), hmodule ?_, within_pure _⟩
      exact (bytes_data_iff h hfound).2 (hdata hfound)

/-- `cat` reads the contents of the entry it finds, wherever they lie. -/
theorem bytes_cmdCatReads (hargs : m.read8 args ≠ 0) (hfind : find m r args = e) (he : e ≠ 0)
    (hdata : data m r e ≠ 0) (h : (cmdCatReads r args).Within m P) :
    Bytes P (data m r e) (size m e) := by
  have hready : ¬ (!r.ready) = true := by
    rw [ready_of_find (hfind.trans_ne he)]
    exact Bool.false_ne_true
  rw [cmdCatReads, within_bind, run_read8, if_neg hargs, if_neg hready, within_bind,
    run_findReads, hfind, if_neg he, within_bind, run_dataReads, if_neg hdata, within_bind,
    within_bind, within_readBytes, run_sizeReads] at h
  exact h.2.2.2.2.1

/-- **What the readers of the ramdisk read**, in every module. -/
theorem stays_inside (h : RamdiskAt m a b) : StaysInside m a b where
  entryAt := entryAt_loaded m a b
  entry hfits i hi := by
    obtain ⟨hentry, hend⟩ := hfits.entry_inside h hi
    rw [entryAt_of_lt hi, hentry]
    exact ⟨by omega, hend⟩
  find hfits := within_findReads hfits h
  ls hfits := within_cmdLs hfits h
  cat hfits _ := within_cmdCatReads hfits h
  data _ := bytes_data_iff h
  cat_all _ _ hargs hfind he hdata := bytes_cmdCatReads hargs hfind he hdata fun _ hx => hx
  ls_all _ hi := bytes_cmdLs hi fun _ hx => hx

/-- A module of two files, whose table fits and whose names end. -/
theorem stays_inside_smallDir :
    StaysInside (smallModule (image smallDir)) 0x100000 0x10005D ∧
      TableFits (smallModule (image smallDir)) 0x100000 0x10005D ∧
      NamesEnd (smallModule (image smallDir)) 0x100000 0x10005D := by
  refine ⟨stays_inside ⟨by decide +kernel, by decide, by decide⟩, by decide +kernel, ?_⟩
  unfold NamesEnd
  decide +kernel

/-- A module of a header only, which announces a file. -/
def headerOnly : Mem := smallModule (Mem.le32 magic ++ Mem.le32 1)

/-- In a module of eight bytes `Find` reads the ninth, and `EntryAt` does not refuse the entry. -/
theorem not_inside_headerOnly : ¬ ∀ m a b, RamdiskAt m a b →
    (∀ i, (loaded m a b).entryAt i ≠ 0 →
      a ≤ (loaded m a b).entryAt i ∧ (loaded m a b).entryAt i + entrySize ≤ b) ∧
    (∀ name, (findReads (loaded m a b) name).Within m
      fun x => InModule a b x ∨ InString name nameLen x) ∧
    (cmdLs (loaded m a b)).Within m (InModule a b) ∧
    ∀ args, (cmdCatReads (loaded m a b) args).Within m
      fun x => InModule a b x ∨ InString args 80 x := by
  intro hall
  have hmodule : RamdiskAt headerOnly 0x100000 0x100008 :=
    ⟨by decide +kernel, by decide, by decide⟩
  obtain ⟨-, hfind, -⟩ := hall _ _ _ hmodule
  have hread : 0x100008 ∈
      (findReads (loaded headerOnly 0x100000 0x100008) 0x5000).trace headerOnly := by
    decide +kernel
  rcases hfind 0x5000 0x100008 hread with ⟨-, hlt⟩ | ⟨k, hk, heq⟩
  · exact absurd hlt (by decide)
  · have hname : nameLen = 32 := rfl
    rw [u32_of_lt (by omega)] at heq
    omega

end Shiro
