import Shiro.Heap.Basic
import Shiro.Multiboot.Info
import Shiro.Pmm.Basic
import Shiro.Sched.Table
import Shiro.Shell.Output
import Shiro.Shell.Ramdisk
import Shiro.Tables.Paging

/-!
# The builtins of the shell

Each command reads some variables of the kernel and prints lines, which it builds in buffers on its
stack.  What a command reads is taken to stay as it is while the command runs.

* `Readings` : what the commands read.
* `Commands.outs` : what each of them prints, before it returns, halts, or resets the machine.
* `ok_outs`, `uncut_outs` : every line fits its buffer, and which lines are not cut.
* `sound_outs` : **what is printed is what the statements say, in full.**
* `outs_cat`, `outs_ls`, `outs_peek`, `outs_dumpmem` : the commands that read the memory.
-/

namespace Shiro

open Stores

/-- What the commands read. -/
structure Readings (E : Type*) where
  /-- `__DATE__ " " __TIME__` -/
  build : List UInt8
  heap : Heap
  multiboot : BootInfo
  pmm : Pmm
  control : Ia32.Control
  /-- `Paging::ready` -/
  pagingReady : Bool
  sched : Sched E
  ticks : UInt32
  initrd : Initrd
  mem : Mem
  /-- EAX, EBX, ECX and EDX behind `cpuid`. -/
  cpuid : ℕ → UInt32 × UInt32 × UInt32 × UInt32
  /-- Where the arguments stand in memory. -/
  argsAt : ℕ
  length_build : build.length = 20
  /-- A name ends inside its field. -/
  name_ends : ∀ i, (sched.tasks i).name.length = 16 ∧ 0 ∈ (sched.tasks i).name

/-- The description in the table. -/
def Builtin.desc : Builtin → List UInt8
  | help => text "List all commands"
  | ver => text "Kernel version & build info"
  | mem => text "Kernel heap stats"
  | pmm => text "Physical memory bitmap stats"
  | paging => text "MMU / page directory state"
  | tasks => text "List kernel tasks (scheduler)"
  | ls => text "List files in the initrd ramdisk"
  | cat => text "Print a file from the ramdisk"
  | peek => text "Read a 32-bit value: peek <hex-addr>"
  | dumpmem => text "Hexdump 64 bytes: dumpmem <hex-addr>"
  | uptime => text "Time since boot"
  | ticks => text "Raw timer tick count"
  | date => text "Approximate timestamp (uptime-based)"
  | clear => text "Clear current terminal"
  | echo => text "Print arguments"
  | cpuid => text "CPU vendor & feature flags"
  | halt => text "Halt the CPU forever"
  | reboot => text "Reboot via triple-fault"
  | panic => text "Trigger an intentional kernel panic"

/-! ### The commands -/

namespace Commands

open Piece (lit)

variable {E : Type*} (k : Readings E) (args : List UInt8)

/-- `cmd_help(args)` -/
def cmdHelp : List Out :=
  .str (text "Available commands:") :: builtins.map fun b =>
    .line 80 [lit "  ", .str b.name, .pad 12, lit "- ", .str b.desc, .nul]

/-- `cmd_ver(args)` -/
def cmdVer : List Out := [
  .str (text "Shiro - Operating System"),
  .str (text "  Version: 0.5 (development)"),
  .str (text "  Compiler: i686-elf-g++ 13.2.0"),
  .str (text "  Boot:     Multiboot2 / GRUB"),
  .str (text "  Build:    " ++ k.build)]

/-- `cmd_mem(args)` -/
def cmdMem : List Out := [
  .top (text "Kernel Heap (System::Heap)"),
  .box 80 [lit "base       = ", .hex (.ofNat k.heap.base), lit "    end = ",
    .hex (.ofNat k.heap.heapEnd)],
  .box 80 [lit "used       = ", .dec (.ofNat k.heap.bytesUsed), lit " bytes    free = ",
    .dec (.ofNat k.heap.bytesFree), lit " bytes"],
  .box 80 [lit "allocs     = ", .dec (.ofNat k.heap.allocCount), lit "    frees = ",
    .dec (.ofNat k.heap.freeCount)],
  .bottom,
  .top (text "Multiboot Info"),
  .box 80 [lit "mem_lower  = ", .dec (.ofNat k.multiboot.memLower), lit " KiB    mem_upper = ",
    .dec (.ofNat k.multiboot.memUpper), lit " KiB"],
  .box 80 [lit "mmap avail = ", .dec (.ofNat (k.multiboot.mmapTotalAvailable / (1024 * 1024))),
    lit " MiB across ", .dec (.ofNat k.multiboot.mmapCount), lit " regions"],
  .bottom]

/-- `cmd_pmm(args)` -/
def cmdPmm : List Out := [
  .top (text "Physical Memory Manager"),
  .boxed (text "page size = 4 KiB"),
  .box 80 [lit "total = ", .dec (.ofNat k.pmm.totalPages), lit " pages (",
    .dec (.ofNat k.pmm.totalPages / 256), lit " MiB tracked)"],
  .box 80 [lit "used  = ", .dec (.ofNat k.pmm.usedPages), lit " pages (",
    .dec (.ofNat k.pmm.usedPages * 4), lit " KiB)"],
  .box 80 [lit "free  = ", .dec (.ofNat k.pmm.freePages), lit " pages (",
    .dec (.ofNat k.pmm.freePages / 256), lit " MiB)"],
  .bottom]

/-- `cmd_paging(args)` -/
def cmdPaging : List Out := [
  .top (text "Paging / MMU"),
  .box 80 [lit "enabled    = ",
    .str (if k.pagingReady && Paging.isEnabled ⟨k.mem, k.control⟩ then text "yes (CR0.PG=1)"
      else text "no")],
  .box 80 [lit "CR0        = ", .hex (.ofNat k.control.cr0)],
  .box 80 [lit "CR3        = ", .hex (.ofNat k.control.cr3), lit "  (page directory)"],
  .box 80 [lit "CR4        = ", .hex (.ofNat k.control.cr4), lit "  (PSE bit ",
    .str (if k.control.cr4 &&& 0x10 ≠ 0 then text "on)" else text "off)")],
  .boxed (text "page size  = 4 MiB (PSE)"),
  .boxed (text "mapped     = 4 GiB identity (1024 x 4 MiB)"),
  .bottom]

/-- `st` -/
def stateName : TaskState → List UInt8
  | .unused => text "?"
  | .ready => text "READY   "
  | .sleeping => text "SLEEPING"
  | .done => text "DONE    "

/-- `CurrentId()`, as an unsigned number. -/
def currentId (s : Sched E) : UInt32 :=
  if s.ready then .ofNat (s.tasks s.current).id else .ofNat (2 ^ 32 - 1)

/-- `CurrentName()` -/
def currentName (s : Sched E) : List UInt8 :=
  if s.ready then (s.tasks s.current).name else text "?"

/-- The line of a task. -/
def taskLine (s : Sched E) (t : Task E) : Out :=
  .box 80 [.strBack (if UInt32.ofNat t.id = currentId s then text ">> " else text "   "),
    .dec (.ofNat t.id), .pad 4, .str (stateName t.state), lit "  ", .str t.name, .pad 33,
    .dec (.ofNat t.yields), .nul]

/-- `cmd_tasks(args)` -/
def cmdTasks : List Out :=
  [.top (text "Kernel Scheduler (preemptive @ 50ms)"),
    .box 80 [lit "id  state     name             yields"]] ++
  (((List.finRange maxTasks).map k.sched.tasks).filter fun t => t.state ≠ .unused).map
    (taskLine k.sched) ++
  [.box 80 [lit "running: ", .str (currentName k.sched)], .bottom]

/-- The line of a file. -/
def fileLine (e : ℕ) : Out :=
  .line 80 [lit "  ", .dec (.ofNat (Initrd.size k.mem e)), .pad 10, lit "  ",
    .str (k.mem.readBytes e 80), .nul]

/-- `cmd_ls(args)` -/
def cmdLs : List Out :=
  if !k.initrd.ready then [.str (text "ls: initrd not loaded")]
  else
    .line 80 [lit "Initrd contents (", .dec (.ofNat k.initrd.count), lit " files, ",
      .dec (.ofNat k.initrd.length), lit " bytes total):"] ::
    (((List.range k.initrd.count).map k.initrd.entryAt).filter fun e => e ≠ 0).map (fileLine k)

/-- `Print(line)`, where `held` stands for `line[0]` to `line[li - 1]`. -/
def heldLine (held : List UInt8) : Out := .line 80 [.raw held, .nul]

/-- `cmd_cat(args)` -/
def cmdCat : List Out :=
  if k.mem.read8 k.argsAt = 0 then [.str (text "usage: cat <filename>")]
  else if !k.initrd.ready then [.str (text "cat: initrd not loaded")]
  else
    let e := Initrd.find k.mem k.initrd k.argsAt
    if e = 0 then
      [.line 80 [lit "cat: file not found: ", .str (k.mem.readBytes k.argsAt 80)]]
    else
      let data := Initrd.data k.mem k.initrd e
      if data = 0 then [.str (text "cat: read error")]
      else (feed (fun held => [held]) [] (k.mem.readBytes data (Initrd.size k.mem e))).map heldLine

/-- `cmd_peek(args)` -/
def cmdPeek : List Out :=
  let (ok, addr) := parseHex args 0
  if !ok then [.str (text "usage: peek <hex-address>"), .str (text "example: peek 0xB8000")]
  else
    let addr := andNot 32 addr 3
    [.line 80 [lit "[", .hex (.ofNat addr), lit "] = ", .hex (.ofNat (k.mem.read32 addr))]]

/-- `hex[n]` -/
def hexChar (n : ℕ) : UInt8 := (text "0123456789abcdef").getD n 0

/-- The bytes that a round of the loop over the hex bytes stores. -/
def hexBytes (b : UInt8) (col : ℕ) : List UInt8 :=
  [hexChar (b.toNat >>> 4), hexChar (b.toNat &&& 0xF), 32] ++ if col = 7 then [32] else []

/-- The statements of a row of `dumpmem`. -/
def dumpPieces (addr : UInt32) (bytes : List UInt8) : List Piece :=
  [.hex addr, lit ":  "] ++ (bytes.zipIdx.map fun x => .raw (hexBytes x.1 x.2)) ++ [.raw [32]] ++
    (bytes.map fun b => .raw [if b ≥ 0x20 ∧ b < 0x7F then b else 46]) ++ [.nul]

/-- A round of the loop of `dumpmem`. -/
def dumpLine (addr row : ℕ) : Out :=
  .line 80 (dumpPieces (.ofNat (addr + row * 16)) (k.mem.readBytes (addr + row * 16) 16))

/-- `cmd_dumpmem(args)` -/
def cmdDumpmem : List Out :=
  let (ok, addr) := parseHex args 0
  if !ok then [.str (text "usage: dumpmem <hex-address>")]
  else (List.range 4).map (dumpLine k (andNot 32 addr 0xF))

/-- `cmd_uptime(args)` -/
def cmdUptime : List Out :=
  let hz : UInt32 := .ofNat tickHz
  let totalS := k.ticks / hz
  [.line 80 [lit "uptime: ", .dec (totalS / 3600), lit "h ", .dec (totalS % 3600 / 60), lit "m ",
    .dec (totalS % 60), lit "s  (", .dec k.ticks, lit " ticks @ ", .dec hz, lit " Hz)"]]

/-- `cmd_ticks(args)` -/
def cmdTicks : List Out := [.line 64 [lit "ticks = ", .dec k.ticks]]

/-- `cmd_date(args)` -/
def cmdDate : List Out := cmdUptime k

/-- `cmd_echo(args)` -/
def cmdEcho : List Out := [.str (if args.headD 0 ≠ 0 then args else [])]

/-- The bit `i` of the features. -/
def feature (d i : UInt32) : Piece := .dec (d >>> i &&& 1)

/-- `cmd_cpuid(args)` -/
def cmdCpuid : List Out :=
  let (_, b, c, d) := k.cpuid 0
  let (a1, _, _, d1) := k.cpuid 1
  let vendor := Mem.le32 b.toNat ++ Mem.le32 d.toNat ++ Mem.le32 c.toNat ++ [0]
  [.line 80 [lit "vendor: ", .str vendor],
    .line 80 [lit "family/model = ", .dec (a1 >>> 8 &&& 0xF), lit "/", .dec (a1 >>> 4 &&& 0xF),
      lit "  stepping = ", .dec (a1 &&& 0xF)],
    .line 80 [lit "features (EDX) = ", .hex d1],
    .line 80 [lit "  fpu=", feature d1 0, lit " pse=", feature d1 3, lit " tsc=", feature d1 4,
      lit " msr=", feature d1 5, lit " pae=", feature d1 6, lit " apic=", feature d1 9,
      lit " sse=", feature d1 25]]

/-- What a builtin prints.  `clear` prints nothing; `halt`, `reboot` and `panic` do not return. -/
def outs : Builtin → List Out
  | .help => cmdHelp
  | .ver => cmdVer k
  | .mem => cmdMem k
  | .pmm => cmdPmm k
  | .paging => cmdPaging k
  | .tasks => cmdTasks k
  | .ls => cmdLs k
  | .cat => cmdCat k
  | .peek => cmdPeek k args
  | .dumpmem => cmdDumpmem k args
  | .uptime => cmdUptime k
  | .ticks => cmdTicks k
  | .date => cmdDate k
  | .clear => []
  | .echo => cmdEcho args
  | .cpuid => cmdCpuid k
  | .halt => [.str (text "Halting CPU. Reset the machine to continue.")]
  | .reboot => [.str (text "Rebooting...")]
  | .panic => [.str (text "Triggering test panic via INT3 (breakpoint)...")]

end Commands

namespace Commands

variable {E : Type*} {k : Readings E} {args : List UInt8} {o : Out}

/-! ### What there is room for -/

theorem sized_cmdHelp : ∀ o ∈ cmdHelp, o.Sized := by
  rw [cmdHelp, List.forall_mem_cons]
  refine ⟨by simp +decide [Out.Sized], List.forall_mem_map.2 fun b _ => ?_⟩
  cases b <;> simp +decide [Out.Sized, Builtin.name, Builtin.desc]

theorem sized_cmdVer : ∀ o ∈ cmdVer k, o.Sized := by
  simp +decide [cmdVer, Out.Sized, k.length_build]

theorem sized_cmdMem : ∀ o ∈ cmdMem k, o.Sized := by
  simp +decide [cmdMem, Out.Sized, lineBound]

theorem sized_cmdPmm : ∀ o ∈ cmdPmm k, o.Sized := by
  simp +decide [cmdPmm, Out.Sized, lineBound]

theorem sized_cmdPaging : ∀ o ∈ cmdPaging k, o.Sized := by
  unfold cmdPaging
  split_ifs <;> simp +decide [Out.Sized, lineBound]

theorem sized_taskLine (s : Sched E) {t : Task E} (h : t.name.length = 16) :
    (taskLine s t).Sized := by
  unfold taskLine
  cases t.state <;> split_ifs <;> simp +decide [Out.Sized, lineBound, stateName, h]

theorem length_currentName_le (k : Readings E) : (currentName k.sched).length ≤ 16 := by
  unfold currentName
  split
  · exact (k.name_ends _).1.le
  · decide

theorem sized_cmdTasks : ∀ o ∈ cmdTasks k, o.Sized := by
  have hname := length_currentName_le k
  have hrunning : "running: ".length = 9 := by decide
  rw [cmdTasks, List.forall_mem_append, List.forall_mem_append]
  refine ⟨⟨?_, List.forall_mem_map.2 fun t ht => ?_⟩, ?_⟩
  · simp +decide [Out.Sized, lineBound]
  · obtain ⟨i, -, rfl⟩ := List.mem_map.1 (List.mem_of_mem_filter ht)
    exact sized_taskLine _ (k.name_ends i).1
  · simp only [List.forall_mem_cons]
    refine ⟨⟨le_rfl, by simp, by simp, ?_, ?_⟩, trivial, List.forall_mem_nil _⟩
    · simp [lineBound, hrunning]
      omega
    · simp [lineBound, hrunning]
      omega

theorem sized_cmdPeek : ∀ o ∈ cmdPeek k args, o.Sized := by
  simp only [cmdPeek]
  split <;> simp +decide [Out.Sized, lineBound]

theorem hexChar_ne_zero {n : ℕ} (h : n < 16) : hexChar n ≠ 0 := by
  revert n
  decide

theorem zero_notMem_hexBytes (b : UInt8) (col : ℕ) : 0 ∉ hexBytes b col := by
  have hhigh : b.toNat >>> 4 < 16 := by
    rw [Nat.shiftRight_eq_div_pow]
    exact Nat.div_lt_of_lt_mul b.toNat_lt
  have hlow : b.toNat &&& 0xF < 16 := Nat.lt_succ_of_le Nat.and_le_right
  have hchars := And.intro (hexChar_ne_zero hhigh) (hexChar_ne_zero hlow)
  unfold hexBytes
  split <;> simp [Ne.symm hchars.1, Ne.symm hchars.2]

/-- The string is as long as the buffer allows. -/
theorem sized_dumpLine (addr row : ℕ) : (dumpLine k addr row).Sized := by
  have hascii (b : UInt8) : 0 ∉ [if b ≥ 0x20 ∧ b < 0x7F then b else 46] := by
    rw [List.mem_singleton]
    split
    · rename_i h
      rintro rfl
      exact absurd h.1 (by decide)
    · decide
  have hrange : List.range 16 = [0, 1, 2, 3, 4, 5, 6, 7, 8, 9, 10, 11, 12, 13, 14, 15] := rfl
  refine ⟨le_rfl, ⟨.nul, List.getLast?_concat .., trivial⟩, ?_, ?_⟩
  · simp only [dumpPieces, List.forall_mem_append, List.forall_mem_map]
    refine ⟨⟨⟨⟨by simp, fun x _ => zero_notMem_hexBytes x.1 x.2⟩, by simp⟩, fun b _ => ?_⟩, by simp⟩
    exact hascii b
  · simp +decide [dumpPieces, Mem.readBytes, hrange, lineBound, hexBytes]

theorem sized_cmdDumpmem : ∀ o ∈ cmdDumpmem k args, o.Sized := by
  simp only [cmdDumpmem]
  split
  · simp +decide [Out.Sized]
  · exact List.forall_mem_map.2 fun row _ => sized_dumpLine _ row

theorem sized_cmdUptime : ∀ o ∈ cmdUptime k, o.Sized := by
  simp +decide [cmdUptime, Out.Sized, lineBound]

theorem sized_cmdTicks : ∀ o ∈ cmdTicks k, o.Sized := by
  simp +decide [cmdTicks, Out.Sized, lineBound]

/-- A flag is a digit. -/
theorem digits_flag (v : UInt32) : Piece.digits (v &&& 1) = 1 := by
  have hbit : (v &&& 1).toNat ≤ 1 := by
    rw [UInt32.toNat_and]
    exact Nat.and_le_right
  exact if_pos (UInt32.lt_iff_toNat_lt.2 (hbit.trans_lt (by decide)))

theorem uncut_cmdCpuid : ∀ o ∈ cmdCpuid k, o.Uncut := by
  simp only [cmdCpuid, List.forall_mem_cons]
  refine ⟨uncut_of_sized ?_, uncut_of_sized ?_, uncut_of_sized ?_, ?_, List.forall_mem_nil _⟩
  · simp +decide [Out.Sized, lineBound, Mem.le32]
  · simp +decide [Out.Sized, lineBound]
  · simp +decide [Out.Sized, lineBound]
  · -- there would be no room for seven long numbers
    refine ⟨le_rfl, by simp [feature], by simp [feature], ?_⟩
    simp +decide [lineWidth, feature, digits_flag]

theorem ok_fileLine (e : ℕ) : (fileLine k e).Ok :=
  ⟨by decide, le_rfl, ⟨.nul, rfl, trivial⟩,
    trivial, trivial, trivial, trivial, trivial, trivial, trivial⟩

theorem ok_cmdLs : ∀ o ∈ cmdLs k, o.Ok := by
  unfold cmdLs
  split
  · simp +decide [Out.Ok]
  · rw [List.forall_mem_cons]
    refine ⟨⟨by decide, le_rfl, ⟨_, rfl, trivial⟩, ?_⟩, ?_⟩
    · exact ⟨trivial, trivial, trivial, trivial, trivial, trivial⟩
    · exact List.forall_mem_map.2 fun e _ => ok_fileLine e

/-- The loop over the bytes of a file flushes the line before it is full. -/
theorem length_feed_le {held bs : List UInt8} (h : held.length ≤ 79) :
    ∀ l ∈ feed (fun held => [held]) held bs, l.length ≤ 79 := by
  induction bs generalizing held with
  | nil =>
    rw [feed]
    split
    · exact List.forall_mem_singleton.2 h
    · exact List.forall_mem_nil _
  | cons b bs ih =>
    by_cases hcr : b = carriageReturn
    · rw [feed, if_pos hcr]
      exact ih h
    · by_cases hflush : b = newline ∨ held.length ≥ 79
      · rw [feed, if_neg hcr, if_pos hflush]
        refine List.forall_mem_append.2 ⟨List.forall_mem_singleton.2 h, ih ?_⟩
        split <;> simp
      · rw [feed, if_neg hcr, if_neg hflush]
        refine ih ?_
        rw [List.length_append, List.length_singleton]
        omega

theorem ok_heldLine {held : List UInt8} (h : held.length ≤ 79) : (heldLine held).Ok :=
  ⟨by decide, le_rfl, ⟨.nul, rfl, trivial⟩, show 0 + held.length < 80 by omega, trivial, trivial⟩

theorem ok_cmdCat : ∀ o ∈ cmdCat k, o.Ok := by
  simp only [cmdCat]
  split_ifs
  · simp +decide [Out.Ok]
  · simp +decide [Out.Ok]
  · exact List.forall_mem_singleton.2
      ⟨by decide, le_rfl, ⟨_, rfl, trivial⟩, trivial, trivial, trivial⟩
  · simp +decide [Out.Ok]
  · exact List.forall_mem_map.2 fun l hl => ok_heldLine (length_feed_le (Nat.zero_le _) l hl)

theorem uncut_cmdEcho (h : args.length ≤ 79) : ∀ o ∈ cmdEcho args, o.Uncut := by
  refine List.forall_mem_singleton.2 ?_
  rw [Out.Uncut]
  split
  · exact h
  · decide

/-- **No number, no name and no line of a table is cut.** -/
theorem uncut_outs (h : args.length ≤ 79) {b : Builtin} (hls : b ≠ .ls) (hcat : b ≠ .cat) :
    ∀ o ∈ outs k args b, o.Uncut := by
  cases b with
  | help => exact fun o ho => uncut_of_sized (sized_cmdHelp o ho)
  | ver => exact fun o ho => uncut_of_sized (sized_cmdVer o ho)
  | mem => exact fun o ho => uncut_of_sized (sized_cmdMem o ho)
  | pmm => exact fun o ho => uncut_of_sized (sized_cmdPmm o ho)
  | paging => exact fun o ho => uncut_of_sized (sized_cmdPaging o ho)
  | tasks => exact fun o ho => uncut_of_sized (sized_cmdTasks o ho)
  | ls => exact absurd rfl hls
  | cat => exact absurd rfl hcat
  | peek => exact fun o ho => uncut_of_sized (sized_cmdPeek o ho)
  | dumpmem => exact fun o ho => uncut_of_sized (sized_cmdDumpmem o ho)
  | uptime | date => exact fun o ho => uncut_of_sized (sized_cmdUptime o ho)
  | ticks => exact fun o ho => uncut_of_sized (sized_cmdTicks o ho)
  | clear => exact List.forall_mem_nil _
  | echo => exact uncut_cmdEcho h
  | cpuid => exact uncut_cmdCpuid
  | halt | reboot | panic => simp +decide [outs, Out.Uncut]

/-- **Every line fits its buffer and the screen.** -/
theorem ok_outs (h : args.length ≤ 79) (b : Builtin) : ∀ o ∈ outs k args b, o.Ok := by
  by_cases hls : b = .ls
  · exact hls ▸ ok_cmdLs
  · by_cases hcat : b = .cat
    · exact hcat ▸ ok_cmdCat
    · exact fun o ho => (ok_of_uncut (uncut_outs h hls hcat o ho)).1

/-- **What the builtins print**: every buffer is large enough, no string depends on what was in it
or is too long for a row, and all but `ls` and `cat` print what they mean in full. -/
theorem sound_outs (k : Readings E) (h : args.length ≤ 79) (b : Builtin) :
    ∀ o ∈ outs k args b, o.Sound ∧ (b ≠ .ls → b ≠ .cat → o.text = o.whole) :=
  fun o ho => ⟨(ok_outs h b o ho).sound,
    fun hls hcat => (ok_of_uncut (uncut_outs h hls hcat o ho)).2⟩

/-- The kernel before it is started. -/
def noReadings : Readings Unit where
  build := text "Jan  1 2026 00:00:00"
  heap := ⟨fun _ => 0, 0, 0, 0, 0, 0, 0, 0, false⟩
  multiboot := ⟨false, 0, 0, 0, 0, 0, 0, 0, 0, 0, 0⟩
  pmm := ⟨fun _ => 0, 0, 0, 0, 0, false⟩
  control := ⟨1, 0, 0⟩
  pagingReady := false
  sched := .start ()
  ticks := 0
  initrd := ⟨0, 0, 0, 0, false⟩
  mem := fun _ => 0
  cpuid := fun _ => (0, 0, 0, 0)
  argsAt := 0
  length_build := by decide +kernel
  name_ends := by decide +kernel

/-- `uptime` before the first tick. -/
theorem sound_outs_uptime : ∃ o, outs noReadings [] .uptime = [o] ∧ o.Sound ∧ o.text = o.whole :=
  have h := sound_outs noReadings (show ([] : List UInt8).length ≤ 79 from Nat.zero_le _) .uptime _
    (.head _)
  ⟨_, rfl, h.1, h.2 nofun nofun⟩

end Commands

/-! ### The commands that read the memory -/

open Commands (build)

variable {E : Type*} {k : Readings E} {args t : List UInt8} {addr : ℕ}

theorem map_cstr_feed (held bs : List UInt8) :
    (feed (fun held => [held]) held bs).map cstr = feed catFlush held bs := by
  induction bs generalizing held with
  | nil =>
    rw [feed, feed]
    split <;> rfl
  | cons b bs ih =>
    rw [feed, feed]
    split_ifs <;> simp [ih, catFlush]

/-- `cat` prints the strings of `cmdCat`. -/
theorem outs_cat :
    (Commands.outs k args .cat).map Out.text = cmdCat k.mem k.initrd k.argsAt := by
  rw [Commands.outs, Commands.cmdCat, cmdCat]
  simp only [apply_ite (List.map Out.text)]
  refine ite_congr rfl (fun _ => by decide +kernel) fun _ => ?_
  refine ite_congr rfl (fun _ => by decide +kernel) fun _ => ?_
  refine ite_congr rfl (fun _ => ?_) fun _ => ?_
  · have hzero : 0 ∉ appendStr [] 80 (text "cat: file not found: ") :=
      zero_notMem_appendStr List.not_mem_nil _ _
    exact congrArg ([·]) (cstr_eq_self (zero_notMem_appendStr hzero _ _))
  · refine ite_congr rfl (fun _ => by decide +kernel) fun _ => ?_
    rw [List.map_map, ← map_cstr_feed]
    rfl

/-- The two ways to give what `Print` is passed. -/
def Out.printed : Out → Printed
  | .line cap ps => .buf (build cap ps)
  | .str s => .str s
  | o => .str o.text

theorem build_peek (addr value : ℕ) :
    build 80 [.lit "[", .hex (.ofNat addr), .lit "] = ", .hex (.ofNat value)] =
      peekLine (u32 addr) (u32 value) := by
  refine Stores.ext ?_ ?_ <;> simp [build, peekLine, Piece.store, u32]

theorem build_dump (addr : ℕ) (bytes : List UInt8) :
    build 80 (Commands.dumpPieces (.ofNat addr) bytes) = dumpRow (u32 addr) bytes bytes := by
  have hhex (j : ℕ) : (bytes.zipIdx.map fun x => Piece.raw (Commands.hexBytes x.1 x.2)).foldlM
      (fun j (p : Piece) => p.store 80 j) j = hexColumn bytes j := by
    rw [List.foldlM_map, hexColumn]
    congr 1
    funext j x
    rw [Piece.store, Commands.hexBytes, puts_append]
    refine congrArg (puts j _ >>= ·) (funext fun j => ?_)
    split <;> rfl
  have hascii (j : ℕ) :
      (bytes.map fun b => Piece.raw [if b ≥ 0x20 ∧ b < 0x7F then b else 46]).foldlM
        (fun j (p : Piece) => p.store 80 j) j = asciiColumn bytes j := by
    rw [List.foldlM_map]
    rfl
  simp only [build, Commands.dumpPieces, List.foldlM_append, hhex, hascii]
  simp [Piece.store, dumpRow, offset_zero, u32]

/-- What `peek` and `dumpmem` find in their argument. -/
theorem parseHex_cases (args : List UInt8) :
    (∀ addr, parseHex args addr = (false, addr)) ∨
      ∃ a < 2 ^ 32, ∀ addr, parseHex args addr = (true, a) := by
  by_cases hrun : hexRun args = []
  · exact .inl fun addr => by rw [parseHex_eq, if_pos hrun]
  · exact .inr ⟨_, u32_lt _, fun addr => by rw [parseHex_eq, if_neg hrun]⟩

/-- `peek` prints the strings of `cmdPeek`. -/
theorem outs_peek :
    (Commands.outs k args .peek).map Out.printed = (cmdPeek addr args).run k.mem := by
  rw [Commands.outs, Commands.cmdPeek, cmdPeek]
  rcases parseHex_cases args with hparse | ⟨a, ha, hparse⟩
  · rw [hparse, hparse]
    rfl
  · have hround : andNot 32 a 3 < 2 ^ 32 := Nat.and_le_left.trans_lt ha
    have hline := build_peek (andNot 32 a 3) (k.mem.read32 (andNot 32 a 3))
    rw [u32_of_lt hround, u32_of_lt (Mem.read32_lt _ _)] at hline
    rw [hparse, hparse]
    simpa [Out.printed] using hline

/-- `dumpmem` prints the strings of `cmdDumpmem`. -/
theorem outs_dumpmem :
    (Commands.outs k args .dumpmem).map Out.printed = (cmdDumpmem addr args).run k.mem := by
  rw [Commands.outs, Commands.cmdDumpmem, cmdDumpmem]
  rcases parseHex_cases args with hparse | ⟨a, ha, hparse⟩
  · rw [hparse, hparse]
    rfl
  · rw [hparse, hparse]
    dsimp only
    rw [if_neg (by decide), if_neg (by decide), Reads.run_collect, List.nil_append, List.map_map]
    refine List.map_congr_left fun row _ => ?_
    rw [Function.comp_apply, Commands.dumpLine, Out.printed, build_dump]
    simp [dumpRowReads]

/-- The loop of `ls`. -/
theorem run_lsLines (m : Mem) (f : ℕ → ℕ) (xs : List ℕ) (acc : List (List UInt8)) :
    Reads.run m (xs.foldlM (fun printed i =>
      if f i = 0 then return printed else do return printed ++ [← lsLine (f i)]) acc) =
      acc ++ ((xs.map f).filter fun e => e ≠ 0).map fun e => (lsLine e).run m := by
  induction xs generalizing acc with
  | nil => exact (List.append_nil acc).symm
  | cons x xs ih =>
    rw [List.foldlM_cons, Reads.run_bind, ih, List.map_cons, Reads.run_ite]
    by_cases hx : f x = 0
    · simp [hx]
    · simp [hx]

/-- `ls` prints the strings of `cmdLs`. -/
theorem outs_ls (hcount : k.initrd.fileCount < 2 ^ 32) (hlength : k.initrd.length < 2 ^ 32) :
    (Commands.outs k args .ls).map Out.text = (cmdLs k.initrd).run k.mem := by
  have hcount' : k.initrd.count < 2 ^ 32 := by
    unfold Initrd.count
    split
    · exact hcount
    · decide
  have hline (e : ℕ) : (Commands.fileLine k e).text = (lsLine e).run k.mem := by
    have hsize : (UInt32.ofNat (Initrd.size k.mem e)).toNat = Initrd.size k.mem e :=
      u32_of_lt (Mem.read32_lt _ _)
    rw [Commands.fileLine, Out.text, cstr_eq_self (zero_notMem_lineText 80 (by simp)), lsLine,
      Reads.run_bind, run_appendStrReads k.mem _ _ (show 80 ≤ 80 + 1 by decide),
      Initrd.run_sizeReads]
    simp only [lineText, List.foldl_cons, List.foldl_nil, Piece.text, Piece.lit, hsize]
    rfl
  rw [Commands.outs, Commands.cmdLs, cmdLs, apply_ite (List.map Out.text), Reads.run_ite]
  refine ite_congr rfl (fun _ => congrArg ([·]) (by decide +kernel)) fun _ => ?_
  rw [List.map_cons, List.map_map, run_lsLines]
  refine congrArg₂ List.cons ?_ ?_
  · have hdec : (UInt32.ofNat k.initrd.count).toNat = k.initrd.count := u32_of_lt hcount'
    have hdec' : (UInt32.ofNat k.initrd.length).toNat = k.initrd.length := u32_of_lt hlength
    rw [Out.text, cstr_eq_self (zero_notMem_lineText 80 (by simp))]
    simp only [lineText, List.foldl_cons, List.foldl_nil, Piece.text, Piece.lit, hdec, hdec']
    rfl
  · exact List.map_congr_left fun e _ => hline e

end Shiro
