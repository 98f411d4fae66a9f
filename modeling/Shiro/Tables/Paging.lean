import Mathlib.Data.List.Infix
import Shiro.Lib.Paging
import Shiro.Tables.Gdt

/-!
# Identity-mapped paging

`Paging::Start` fills a directory of 1024 large pages, turns large pages on, points CR3 to the
directory and then turns paging on.  The code runs while this happens, so what counts is that no
step changes where an address leads.

* `Paging.Instr`, `Paging.start` : the steps of the function.
* `Paging.identity` : **every address leads to itself** after every step, for the kernel.
* `Paging.physical_start` : with the segments of `GDT::Start`, **the kernel reaches every byte under
  its own address, and user code none.**
-/

namespace Shiro

open Ia32

namespace Paging

/-- The memory and the control registers. -/
structure Mmu where
  mem : Mem
  control : Control

/-- The steps of `Paging::Start`. -/
inductive Instr where
  /-- `directory[i] = v`. -/
  | store (address v : ℕ)
  /-- CR4 is read, and written back with the bits set. -/
  | setCr4 (bits : ℕ)
  /-- `mov cr3, v` -/
  | loadCr3 (v : ℕ)
  /-- CR0 is read, and written back with the bits set. -/
  | setCr0 (bits : ℕ)
  deriving DecidableEq

/-- The effect of a step. -/
def exec (s : Mmu) : Instr → Option Mmu
  | .store address v => some { s with mem := s.mem.write32 address v }
  | .setCr4 bits => some { s with control := { s.control with cr4 := s.control.cr4 ||| bits } }
  | .loadCr3 v => some { s with control := { s.control with cr3 := v } }
  | .setCr0 bits =>
    (movCr0 s.control (s.control.cr0 ||| bits)).map fun c => { s with control := c }

/-- `PDE_PRESENT`. -/
def pdePresent : ℕ := 0x001

/-- `PDE_RW`. -/
def pdeRw : ℕ := 0x002

/-- `PDE_PS`. -/
def pdePs : ℕ := 0x080

/-- `directory[i]`. -/
def entry (i : ℕ) : ℕ :=
  let phys := u32 (i * 0x00400000)
  phys ||| pdePresent ||| pdeRw ||| pdePs

/-- The loop over the first `n` entries. -/
def fill (directory n : ℕ) : List Instr :=
  (List.range n).map fun i => .store (directory + 4 * i) (entry i)

/-- The steps up to the one that turns paging on. -/
def prepare (directory : ℕ) : List Instr :=
  fill directory 1024 ++ [.setCr4 0x00000010, .loadCr3 directory]

/-- `Paging::Start()`. -/
def start (directory : ℕ) : List Instr := prepare directory ++ [.setCr0 0x80000000]

/-- `Paging::IsEnabled()`, where `ready` has been set. -/
def isEnabled (s : Mmu) : Bool := s.control.cr0 &&& 0x80000000 != 0

/-- The machine before `Paging::Start`, as the boot loader leaves it: protected, without paging. -/
structure Before (s : Mmu) : Prop where
  protect : s.control.protect = true
  paging : s.control.paging = false

/-- Where the compiler has put the directory. -/
structure Placed (directory : ℕ) : Prop where
  aligned : directory % 4096 = 0
  fits : directory + 4096 ≤ 2 ^ 32

/-- The directory maps every page onto itself. -/
def Mapped (m : Mem) (directory : ℕ) : Prop := ∀ i < 1024, m.read32 (directory + 4 * i) = entry i

/-- Paging is on, with a directory that maps every page onto itself. -/
structure Identity (s : Mmu) (directory : ℕ) : Prop where
  paging : s.control.paging = true
  large : s.control.largePages = true
  cr3 : s.control.cr3 = directory
  mapped : Mapped s.mem directory

variable {s s' : Mmu} {directory i n : ℕ} {x : PageAccess} {m m' : Mem}

/-! ### The entries -/

theorem entry_eq (hi : i < 1024) : entry i = i * 2 ^ 22 + 0x83 := by
  have hphys : u32 (i * 0x00400000) = i <<< 22 := by
    rw [Nat.shiftLeft_eq, u32_of_lt (by omega)]
  have hflags : pdePresent ||| pdeRw ||| pdePs = 0x83 := by decide
  rw [entry, hphys, Nat.or_assoc, Nat.or_assoc, ← Nat.or_assoc pdePresent, hflags,
    ← Nat.shiftLeft_add_eq_or_of_lt (by decide), Nat.shiftLeft_eq]

theorem entry_lt (hi : i < 1024) : entry i < 2 ^ 32 := by
  rw [entry_eq hi]
  omega

/-- The bits below the frame are those of the flags. -/
theorem testBit_entry (hi : i < 1024) {k : ℕ} (hk : k < 22) :
    (entry i).testBit k = Nat.testBit 0x83 k := by
  rw [entry_eq hi, Nat.mul_comm, Nat.testBit_two_pow_mul_add _ (by decide), if_pos hk]

/-- **An entry is a large page** of the frame with its own number, writable, for the kernel only. -/
theorem largeEntry (hi : i < 1024) : LargeEntry (entry i) i true false := by
  refine ⟨?_, ?_, ?_, ?_, ?_, ?_, ?_⟩
  · rw [testBit_entry hi (by decide)]
    decide
  · rw [testBit_entry hi (by decide)]
    decide
  · rw [testBit_entry hi (by decide)]
    decide
  · rw [testBit_entry hi (by decide)]
    decide
  · rw [testBit_entry hi (by decide)]
    decide
  · rw [entry_eq hi]
    omega
  · rw [entry_eq hi]
    omega

/-- **Every address leads to itself**, or to a fault if user code asks. -/
theorem Identity.translate (h : Identity s directory) (hp : Placed directory) {a : ℕ}
    (ha : a < 2 ^ 32) (x : PageAccess) :
    translate s.mem s.control x a =
      if x.user then .error (x.fault true false) else .ok a := by
  have hi : a / 2 ^ 22 < 1024 := by omega
  have haligned := hp.aligned
  have hentry : directoryEntry s.mem s.control a = entry (a / 2 ^ 22) := by
    rw [directoryEntry, h.cr3, show directory / 2 ^ 12 * 2 ^ 12 = directory by omega]
    exact h.mapped _ hi
  have hlarge := largeEntry hi
  rw [← hentry] at hlarge
  rw [translate_large h.paging h.large hlarge,
    show a / 2 ^ 22 * 2 ^ 22 + a % 2 ^ 22 = a by omega, permits]
  cases x.user <;> simp

/-! ### The steps -/

/-- A run of the steps. -/
def run (s : Mmu) (is : List Instr) : Option Mmu := is.foldlM exec s

theorem run_append (s : Mmu) (is js : List Instr) :
    run s (is ++ js) = (run s is).bind fun t => run t js := List.foldlM_append

/-- The step leaves CR0 alone. -/
def Instr.KeepsCr0 : Instr → Prop
  | .setCr0 _ => False
  | _ => True

/-- Steps that leave CR0 alone do not fail. -/
theorem run_of_keepsCr0 {is : List Instr} (h : ∀ e ∈ is, e.KeepsCr0) (s : Mmu) :
    ∃ t, run s is = some t ∧ t.control.cr0 = s.control.cr0 := by
  induction is generalizing s with
  | nil => exact ⟨s, rfl, rfl⟩
  | cons e is ih =>
    have hrest : ∀ e' ∈ is, e'.KeepsCr0 := fun e' he' => h e' (List.mem_cons_of_mem _ he')
    cases e with
    | store address v => exact ih hrest { s with mem := s.mem.write32 address v }
    | setCr4 bits =>
      exact ih hrest { s with control := { s.control with cr4 := s.control.cr4 ||| bits } }
    | loadCr3 v => exact ih hrest { s with control := { s.control with cr3 := v } }
    | setCr0 bits => exact absurd (h (.setCr0 bits) List.mem_cons_self) id

theorem keepsCr0_prepare (directory : ℕ) : ∀ e ∈ prepare directory, e.KeepsCr0 := by
  intro e he
  rcases List.mem_append.1 he with he | he
  · obtain ⟨i, -, rfl⟩ := List.mem_map.1 he
    trivial
  · simp only [List.mem_cons, List.not_mem_nil, or_false] at he
    rcases he with rfl | rfl <;> trivial

/-- **The loop fills the directory.** -/
theorem run_fill (s : Mmu) (hfit : directory + 4096 ≤ 2 ^ 32) (hn : n ≤ 1024) :
    ∃ m, run s (fill directory n) = some { s with mem := m } ∧
      (∀ i < n, m.read32 (directory + 4 * i) = entry i) ∧
      OnlyIn s.mem m directory (directory + 4096) := by
  induction n with
  | zero => exact ⟨s.mem, rfl, fun i hi => absurd hi (Nat.not_lt_zero i), OnlyIn.refl _ _ _⟩
  | succ n ih =>
    obtain ⟨m, hrun, hentries, honly⟩ := ih (Nat.le_of_succ_le hn)
    refine ⟨m.write32 (directory + 4 * n) (entry n), ?_, fun i hi => ?_,
      honly.write32 hfit (by omega) (by omega) _⟩
    · rw [fill, List.range_succ, List.map_append, run_append]
      exact (congrArg (Option.bind · _) hrun).trans rfl
    · rcases Nat.lt_succ_iff_lt_or_eq.1 hi with hlt | rfl
      · rw [Mem.read32_write32_of_disjoint (by omega) (by omega) (by omega)]
        exact hentries i hlt
      · exact Mem.read32_write32 _ _ (entry_lt (by omega))

/-- The state before the last step. -/
theorem run_prepare (s : Mmu) (hfit : directory + 4096 ≤ 2 ^ 32) :
    ∃ m, run s (prepare directory) =
        some ⟨m, ⟨s.control.cr0, directory, s.control.cr4 ||| 0x00000010⟩⟩ ∧
      Mapped m directory ∧ OnlyIn s.mem m directory (directory + 4096) := by
  obtain ⟨m, hrun, hentries, honly⟩ := run_fill s hfit le_rfl
  refine ⟨m, ?_, hentries, honly⟩
  rw [prepare, run_append, hrun]
  rfl

/-- **After the last step paging is on**, and nothing but the directory has changed. -/
theorem run_start (hs : Before s) (hfit : directory + 4096 ≤ 2 ^ 32) :
    ∃ t, run s (start directory) = some t ∧ Identity t directory ∧
      OnlyIn s.mem t.mem directory (directory + 4096) := by
  obtain ⟨m, hrun, hmapped, honly⟩ := run_prepare s hfit
  have hprotect : (s.control.cr0 ||| 0x80000000).testBit 0 = true := by
    have h := hs.protect
    rw [Control.protect] at h
    rw [Nat.testBit_or, h]
    rfl
  have hpaging : (s.control.cr0 ||| 0x80000000).testBit 31 = true := by
    rw [Nat.testBit_or, show Nat.testBit 0x80000000 31 = true by decide, Bool.or_true]
  have hlarge : (s.control.cr4 ||| 0x00000010).testBit 4 = true := by
    rw [Nat.testBit_or, show Nat.testBit 0x00000010 4 = true by decide, Bool.or_true]
  refine ⟨⟨m, ⟨s.control.cr0 ||| 0x80000000, directory, s.control.cr4 ||| 0x00000010⟩⟩, ?_,
    ⟨hpaging, hlarge, rfl, hmapped⟩, honly⟩
  have hlast (t : Mmu) : run t [.setCr0 0x80000000] = exec t (.setCr0 0x80000000) := by
    rw [run, List.foldlM_cons]
    cases exec t (.setCr0 0x80000000) <;> rfl
  rw [start, run_append, hrun, Option.bind_some, hlast, exec, movCr0_of_protect hprotect]
  rfl

/-- **Every address leads to itself after every step** of `Paging::Start`, for the kernel: the code
never loses its instructions, its stack or the directory while it turns paging on. -/
theorem identity (hs : Before s) (hp : Placed directory) {is : List Instr}
    (his : is <+: start directory) (hx : x.user = false) {a : ℕ} (ha : a < 2 ^ 32) :
    ∃ t, run s is = some t ∧ translate t.mem t.control x a = .ok a := by
  rcases List.prefix_concat_iff.1 (show is <+: prepare directory ++ _ from his) with heq | hpre
  · obtain ⟨t, hrun, hid, -⟩ := run_start hs hp.fits
    refine ⟨t, heq ▸ hrun, ?_⟩
    rw [hid.translate hp ha, hx]
    rfl
  · obtain ⟨t, hrun, hcr0⟩ := run_of_keepsCr0 (fun e he => keepsCr0_prepare directory e
      (hpre.subset he)) s
    have hoff : t.control.paging = false := by
      rw [Control.paging, hcr0]
      exact hs.paging
    exact ⟨t, hrun, translate_of_off hoff _ _ _⟩

/-- The kernel in the boot loader's hands: all addresses physical. -/
def loaded : Mmu := ⟨fun _ => 0, ⟨0x11, 0, 0⟩⟩

theorem identity_screen : ∃ t, run loaded (start 0x200000) = some t ∧
    translate t.mem t.control ⟨true, false⟩ 0xB8000 = .ok 0xB8000 :=
  identity (s := loaded) ⟨by decide, by decide⟩ ⟨by decide, by decide⟩ (List.prefix_refl _) rfl
    (by decide)

/-! ### With the segments -/

/-- The faults that an access to memory can raise. -/
inductive MemFault where
  | segment (f : Fault)
  | page (f : PageFault)
  deriving DecidableEq

/-- The access `x`, by code of the privilege level of the selector. -/
def pageAccess (x : Access) (selector : ℕ) : PageAccess := ⟨decide (x = .write), selector % 4 = 3⟩

/-- **The physical addresses** of the `n` bytes from `offset` on. -/
def physical (m : Mem) (c : Control) (gdtr : TableReg) (selector : ℕ) (x : Access)
    (offset n : ℕ) : Except MemFault (List ℕ) := do
  let s ← (lookup m gdtr selector).mapError .segment
  let a ← (s.access x offset n).mapError .segment
  ((List.range n).mapM fun k => translate m c (pageAccess x selector) (a + k)).mapError .page

/-- The tables are as the kernel has filled them, and the control registers point to them. -/
structure Installed (m : Mem) (c : Control) (gdt directory : ℕ) : Prop where
  segments : ∀ i < Gdt.count, segmentAt m (gdt + Gdt.entrySize * i) = Gdt.startEntry i
  pages : Identity ⟨m, c⟩ directory

/-- The tables share no byte. -/
def Apart (gdt directory : ℕ) : Prop :=
  gdt + Gdt.entrySize * Gdt.count ≤ directory ∨ directory + 4096 ≤ gdt

instance (gdt directory : ℕ) : Decidable (Apart gdt directory) :=
  inferInstanceAs (Decidable (_ ∨ _))

variable {gdt : ℕ} {c : Control}

/-- **The two `Start` functions install the tables.** -/
theorem installed_start (hs : Before s) (hp : Placed directory)
    (hgdt : gdt + Gdt.entrySize * Gdt.count ≤ 2 ^ 32) (hapart : Apart gdt directory) :
    ∃ t, run { s with mem := Gdt.start s.mem gdt } (start directory) = some t ∧
      Installed t.mem t.control gdt directory := by
  obtain ⟨t, hrun, hid, honly⟩ :=
    run_start (s := { s with mem := Gdt.start s.mem gdt }) ⟨hs.protect, hs.paging⟩ hp.fits
  refine ⟨t, hrun, fun i hi => ?_, hid⟩
  rw [← Gdt.segmentAt_start s.mem hgdt hi]
  unfold Apart Gdt.entrySize Gdt.count at *
  exact segmentAt_congr fun k hk => honly.read8 (by omega) (by omega)

/-- **Stores elsewhere leave the tables installed.** -/
theorem Installed.of_eqOn (h : Installed m c gdt directory) (hp : Placed directory)
    (hgdt : gdt + Gdt.entrySize * Gdt.count ≤ 2 ^ 32)
    (hsegments : EqOn m m' gdt (gdt + Gdt.entrySize * Gdt.count))
    (hpages : EqOn m m' directory (directory + 4096)) : Installed m' c gdt directory := by
  refine ⟨fun i hi => ?_, h.pages.paging, h.pages.large, h.pages.cr3, fun i hi => ?_⟩
  · rw [← h.segments i hi]
    unfold Gdt.entrySize Gdt.count at *
    refine segmentAt_congr fun k hk => ?_
    rw [Mem.read8, Mem.read8, u32_of_lt (show gdt + 8 * i + k < 2 ^ 32 by omega)]
    exact congrArg UInt8.toNat (hsegments _ (by omega) (by omega))
  · rw [← h.pages.mapped i hi]
    exact hpages.read32 (by omega) (by omega) hp.fits

/-- What a selector names, and what an access through it gives. -/
theorem Installed.access (h : Installed m c gdt directory) {selector : ℕ}
    (hsel : selector.testBit 2 = false) (hpos : 0 < selector / 8) (hlt : selector / 8 < Gdt.count)
    {x : Access} (hx : Gdt.Suits (selector / 8) x) {offset n : ℕ} (hn : 0 < n)
    (hoff : offset + n ≤ 2 ^ 32) :
    ∃ seg, lookup m (Gdt.ptr gdt) selector = .ok seg ∧ seg.access x offset n = .ok offset := by
  have hnull : selector / 4 ≠ 0 := by omega
  have hlocal : ¬ selector.testBit 2 = true := by simp [hsel]
  have hlimit : ¬ (Gdt.ptr gdt).limit < selector / 8 * 8 + 7 := by
    unfold Gdt.count at hlt
    have : (Gdt.ptr gdt).limit = 39 := rfl
    omega
  have hentry := h.segments _ hlt
  rw [show Gdt.entrySize * (selector / 8) = selector / 8 * 8 from Nat.mul_comm _ _] at hentry
  refine ⟨Gdt.startEntry (selector / 8), ?_, ?_⟩
  · rw [lookup, if_neg hnull, if_neg hlocal, if_neg hlimit]
    exact congrArg Except.ok hentry
  · rw [(Gdt.flat_startEntry _ hlt hpos).access hn hoff, if_pos ((Gdt.allows_iff hlt hpos x).2 hx)]

/-- Translations that all succeed. -/
theorem mapM_ok {f : ℕ → Except PageFault ℕ} {g : ℕ → ℕ} {ks : List ℕ}
    (h : ∀ k ∈ ks, f k = .ok (g k)) : ks.mapM f = .ok (ks.map g) := by
  induction ks with
  | nil => rfl
  | cons k ks ih =>
    rw [List.mapM_cons, h k List.mem_cons_self, ih fun j hj => h j (List.mem_cons_of_mem _ hj)]
    rfl

/-- **The kernel reaches every byte under its own address.** -/
theorem Installed.kernel (h : Installed m c gdt directory) (hp : Placed directory) {selector : ℕ}
    (hsel : selector = 0x08 ∨ selector = 0x10) {x : Access} (hx : Gdt.Suits (selector / 8) x)
    {offset n : ℕ} (hn : 0 < n) (hoff : offset + n ≤ 2 ^ 32) :
    physical m c (Gdt.ptr gdt) selector x offset n = .ok ((List.range n).map (offset + ·)) := by
  have hkernel : selector.testBit 2 = false ∧ 0 < selector / 8 ∧ selector / 8 < Gdt.count ∧
      selector % 4 ≠ 3 := by
    rcases hsel with rfl | rfl <;> decide
  obtain ⟨hlocal, hpos, hlt, hrpl⟩ := hkernel
  obtain ⟨seg, hlookup, haccess⟩ := h.access hlocal hpos hlt hx hn hoff
  have hbytes : ∀ k ∈ List.range n,
      translate m c (pageAccess x selector) (offset + k) = .ok (offset + k) := fun k hk => by
    have hk' := List.mem_range.1 hk
    have := h.pages.translate hp (a := offset + k) (by omega) (pageAccess x selector)
    rwa [pageAccess, if_neg (by simpa using hrpl)] at this
  simp only [physical, hlookup, haccess, Except.mapError, bind, Except.bind, mapM_ok hbytes]

/-- **User code reaches none**: the segments let it through, the pages do not. -/
theorem Installed.user (h : Installed m c gdt directory) (hp : Placed directory) {selector : ℕ}
    (hsel : selector = 0x1B ∨ selector = 0x23) {x : Access} (hx : Gdt.Suits (selector / 8) x)
    {offset n : ℕ} (hn : 0 < n) (hoff : offset + n ≤ 2 ^ 32) :
    physical m c (Gdt.ptr gdt) selector x offset n =
      .error (.page ⟨true, decide (x = .write), true, false⟩) := by
  have huser : selector.testBit 2 = false ∧ 0 < selector / 8 ∧ selector / 8 < Gdt.count ∧
      selector % 4 = 3 := by
    rcases hsel with rfl | rfl <;> decide
  obtain ⟨hlocal, hpos, hlt, hrpl⟩ := huser
  obtain ⟨seg, hlookup, haccess⟩ := h.access hlocal hpos hlt hx hn hoff
  obtain ⟨n, rfl⟩ := Nat.exists_eq_succ_of_ne_zero hn.ne'
  have hfirst : translate m c (pageAccess x selector) (offset + 0) =
      .error ⟨true, decide (x = .write), true, false⟩ := by
    have := h.pages.translate hp (a := offset + 0) (by omega) (pageAccess x selector)
    rw [this, pageAccess, hrpl]
    rfl
  have hmap : ((List.range (n + 1)).mapM fun k =>
      translate m c (pageAccess x selector) (offset + k)) =
        .error ⟨true, decide (x = .write), true, false⟩ := by
    rw [List.range_succ_eq_map, List.mapM_cons, hfirst]
    rfl
  simp only [physical, hlookup, haccess, Except.mapError, bind, Except.bind, hmap]

/-- **The address space of the kernel**, behind the two `Start` functions and any stores that spare
the tables: the kernel reaches every byte under its own address, and user code none. -/
theorem physical_start (hs : Before s) (hp : Placed directory)
    (hgdt : gdt + Gdt.entrySize * Gdt.count ≤ 2 ^ 32) (hapart : Apart gdt directory) :
    ∃ t, run { s with mem := Gdt.start s.mem gdt } (start directory) = some t ∧
      ∀ m', EqOn t.mem m' gdt (gdt + Gdt.entrySize * Gdt.count) →
        EqOn t.mem m' directory (directory + 4096) →
        ∀ selector x offset n, Gdt.Suits (selector / 8) x → 0 < n → offset + n ≤ 2 ^ 32 →
          (selector = 0x08 ∨ selector = 0x10 →
            physical m' t.control (Gdt.ptr gdt) selector x offset n =
              .ok ((List.range n).map (offset + ·))) ∧
          (selector = 0x1B ∨ selector = 0x23 →
            physical m' t.control (Gdt.ptr gdt) selector x offset n =
              .error (.page ⟨true, decide (x = .write), true, false⟩)) := by
  obtain ⟨t, hrun, hinstalled⟩ := installed_start hs hp hgdt hapart
  refine ⟨t, hrun, fun m' hsegments hpages selector x offset n hx hn hoff => ?_⟩
  have h := hinstalled.of_eqOn hp hgdt hsegments hpages
  exact ⟨fun hsel => h.kernel hp hsel hx hn hoff, fun hsel => h.user hp hsel hx hn hoff⟩

/-- The tables at two addresses, and a store to the screen. -/
theorem physical_start_screen :
    ∃ t, run { loaded with mem := Gdt.start loaded.mem 0x300000 } (start 0x200000) = some t ∧
      physical (t.mem.write32 0xB8000 0x07200720) t.control (Gdt.ptr 0x300000) 0x10 .write 0xB8000 2
        = .ok [0xB8000, 0xB8001] := by
  have hbefore : Before loaded := ⟨by decide, by decide⟩
  have hplaced : Placed 0x200000 := ⟨by decide, by decide⟩
  have hapart : Apart 0x300000 0x200000 := by decide
  obtain ⟨t, hrun, hspace⟩ := physical_start hbefore hplaced (by decide) hapart
  exact ⟨t, hrun, (hspace _ (eqOn_write32 (by decide) (by decide)) (eqOn_write32 (by decide)
    (by decide)) 0x10 .write 0xB8000 2 (by decide) (by decide) (by decide)).1 (by decide)⟩

end Paging

end Shiro
