import Shiro.Isr.Stub
import Shiro.Tables.Gdt

/-!
# The interrupt descriptor table

`IDT::Start` clears the table and installs an interrupt gate for each of the 48 vectors that have a
stub.  Together with the kernel's code segment these gates lead every vector to its stub; the other
vectors have an entry of zeros, which the processor refuses.

* `Idt.setGate`, `Idt.start` : the functions, on the memory that holds the table.
* `Idt.gateAt_start` : **all the 256 gates.**
* `Idt.interrupt_start` : **where every vector leads**, with the tables of the kernel.
-/

namespace Shiro

open Ia32

namespace Idt

/-- `sizeof(idt_entry_t)`. -/
def entrySize : ℕ := 8

/-- The number of entries. -/
def count : ℕ := 256

/-- The vectors that have a stub. -/
def vectors : ℕ := 48

/-- `memset(s, c, n)`. -/
def memset (m : Mem) (s : ℕ) (c : UInt8) : ℕ → Mem
  | 0 => m
  | n + 1 => (memset m s c n).write8 (s + n) c

/-- `IDT::SetGate(num, base, sel, flags)`, where the entries begin at `entries`. -/
def setGate (m : Mem) (entries num : ℕ) (base : UInt32) (sel : UInt16) (flags : UInt8) : Mem :=
  let entry := entries + entrySize * num
  let m := m.write16 entry (base.toNat &&& 0xFFFF)
  let m := m.write16 (entry + 6) (base.toNat >>> 16 &&& 0xFFFF)
  let m := m.write16 (entry + 2) sel.toNat
  let m := m.write8 (entry + 4) 0
  m.write8 (entry + 5) flags

/-- The calls for the first `n` vectors. -/
def setGates (m : Mem) (entries : ℕ) (im : Isr.Image) : ℕ → Mem
  | 0 => m
  | n + 1 => setGate (setGates m entries im n) entries n (im.isr (.ofNat n)) 0x08 0x8E

/-- `IDT::Start()`, up to `IDTFlush`. -/
def start (m : Mem) (entries : ℕ) (im : Isr.Image) : Mem :=
  setGates (memset m entries 0 (entrySize * count)) entries im vectors

/-- `ptr`, which `IDTFlush` loads. -/
def ptr (entries : ℕ) : TableReg := ⟨entries, entrySize * count - 1⟩

variable {m : Mem} {entries num i n : ℕ} {im : Isr.Image}

/-! ### One entry -/

/-- **A gate says what it was given.** -/
theorem gateAt_setGate (m : Mem) (base : UInt32) (sel : UInt16) (flags : UInt8)
    (hfit : entries + entrySize * num + 8 ≤ 2 ^ 32) :
    gateAt (setGate m entries num base sel flags) (entries + entrySize * num) =
      { offset := base.toNat
        selector := sel.toNat
        present := flags.toNat.testBit 7
        dpl := flags.toNat / 2 ^ 5 % 4
        kind := flags.toNat % 2 ^ 5 } := by
  have hand : ∀ n : ℕ, n &&& 0xFFFF = n % 2 ^ 16 := fun n => Nat.and_two_pow_sub_one_eq_mod n 16
  have hbase := base.toNat_lt
  have hsel := sel.toNat_lt
  dsimp only [setGate]
  generalize entries + entrySize * num = e at hfit ⊢
  simp only [hand, Nat.shiftRight_eq_div_pow]
  generalize hm : ((((m.write16 e (base.toNat % 2 ^ 16)).write16 (e + 6)
    (base.toNat / 2 ^ 16 % 2 ^ 16)).write16 (e + 2) sel.toNat).write8 (e + 4) 0).write8 (e + 5)
    flags = m'
  have hlow : m'.read16 e = base.toNat % 2 ^ 16 := by
    subst hm
    simp (disch := omega) only [Mem.read16, Mem.read8_write8_of_ne, Mem.read8_write16_of_ne,
      Mem.read8_write16_low, Mem.read8_write16_high]
    omega
  have hhigh : m'.read16 (e + 6) = base.toNat / 2 ^ 16 := by
    subst hm
    simp (disch := omega) only [Mem.read16, Mem.read8_write8_of_ne, Mem.read8_write16_of_ne,
      Mem.read8_write16_low, Mem.read8_write16_high]
    omega
  have hselector : m'.read16 (e + 2) = sel.toNat := by
    subst hm
    simp (disch := omega) only [Mem.read16, Mem.read8_write8_of_ne, Mem.read8_write16_low,
      Mem.read8_write16_high]
    omega
  have hflags : m'.read8 (e + 5) = flags.toNat := by
    subst hm
    exact Mem.read8_write8 _ _ _
  rw [gateAt, hlow, hhigh, hselector, hflags,
    show base.toNat % 2 ^ 16 + 2 ^ 16 * (base.toNat / 2 ^ 16) = base.toNat by omega]

/-- `SetGate` writes the eight bytes of its entry only. -/
theorem onlyIn_setGate (m : Mem) (base : UInt32) (sel : UInt16) (flags : UInt8)
    (hfit : entries + entrySize * num + 8 ≤ 2 ^ 32) :
    OnlyIn m (setGate m entries num base sel flags) (entries + entrySize * num)
      (entries + entrySize * num + 8) := by
  dsimp only [setGate]
  generalize entries + entrySize * num = e at hfit ⊢
  refine OnlyIn.write8 (OnlyIn.write8 (OnlyIn.write16 (OnlyIn.write16 (OnlyIn.write16
    (OnlyIn.refl m _ _) hfit ?_ ?_ _) hfit ?_ ?_ _) hfit ?_ ?_ _) hfit ?_ ?_ _) hfit ?_ ?_ _ <;>
    omega

/-! ### The table -/

theorem onlyIn_memset (m : Mem) (s : ℕ) (c : UInt8) (n : ℕ) (hfit : s + n ≤ 2 ^ 32) :
    OnlyIn m (memset m s c n) s (s + n) := by
  induction n with
  | zero => exact OnlyIn.refl m _ _
  | succ n ih =>
    exact ((ih (by omega)).mono le_rfl (by omega)).write8 hfit (by omega) (by omega) c

theorem read8_memset (m : Mem) (s : ℕ) (c : UInt8) (hfit : s + n ≤ 2 ^ 32) (hi : i < n) :
    (memset m s c n).read8 (s + i) = c.toNat := by
  induction n with
  | zero => exact absurd hi (Nat.not_lt_zero _)
  | succ n ih =>
    rw [memset]
    rcases Nat.lt_succ_iff_lt_or_eq.1 hi with hlt | rfl
    · rw [Mem.read8_write8_of_ne (by omega) (by omega) (by omega)]
      exact ih (by omega) hlt
    · exact Mem.read8_write8 _ _ _

/-- An entry of zeros: not even of a kind that exists. -/
def emptyGate : Gate := ⟨0, 0, false, 0, 0⟩

/-- The interrupt gate to a stub. -/
def stubGate (im : Isr.Image) (v : ℕ) : Gate :=
  ⟨(im.isr (.ofNat v)).toNat, 0x08, true, 0, interruptGate⟩

theorem gateAt_memset (m : Mem) (hfit : entries + entrySize * count ≤ 2 ^ 32) (hi : i < count) :
    gateAt (memset m entries 0 (entrySize * count)) (entries + entrySize * i) = emptyGate := by
  have hread : ∀ k < 8,
      (memset m entries 0 (entrySize * count)).read8 (entries + entrySize * i + k) = 0 := by
    intro k hk
    rw [Nat.add_assoc]
    exact read8_memset m entries 0 hfit (by unfold entrySize count at *; omega)
  generalize entries + entrySize * i = e at hread ⊢
  have h0 := hread 0 (by decide)
  rw [Nat.add_zero] at h0
  simp only [gateAt, Mem.read16, h0, hread 1 (by decide), hread 2 (by decide),
    hread 3 (by decide), hread 5 (by decide), hread 6 (by decide), hread 7 (by decide),
    Nat.add_assoc, Nat.reduceAdd]
  rfl

/-- The gates behind the first `n` calls: the later ones leave the earlier ones alone. -/
theorem gateAt_setGates (m : Mem) (im : Isr.Image) (hfit : entries + entrySize * count ≤ 2 ^ 32)
    (hn : n ≤ count) (hi : i < count) :
    gateAt (setGates m entries im n) (entries + entrySize * i) =
      if i < n then stubGate im i else gateAt m (entries + entrySize * i) := by
  unfold count at hfit hn hi
  induction n with
  | zero => rfl
  | succ n ih =>
    have hroom : entries + entrySize * n + 8 ≤ 2 ^ 32 := by
      unfold entrySize at *
      omega
    rw [setGates]
    by_cases hin : i = n
    · subst hin
      rw [gateAt_setGate _ _ _ _ hroom, if_pos (Nat.lt_succ_self i)]
      rfl
    · have hsame : gateAt (setGate (setGates m entries im n) entries n (im.isr (.ofNat n)) 0x08
          0x8E) (entries + entrySize * i) =
          gateAt (setGates m entries im n) (entries + entrySize * i) := by
        refine gateAt_congr fun k hk => ?_
        unfold entrySize at hroom
        exact (onlyIn_setGate _ _ _ _ hroom).read8 (by unfold entrySize at *; omega)
          (by unfold entrySize; omega)
      rw [hsame, ih (Nat.le_of_succ_le hn)]
      by_cases hlt : i < n
      · rw [if_pos hlt, if_pos (by omega)]
      · rw [if_neg hlt, if_neg (by omega)]

/-- **All the gates of the table**: those with a stub lead there, the others are empty. -/
theorem gateAt_start (m : Mem) (im : Isr.Image) (hfit : entries + entrySize * count ≤ 2 ^ 32)
    (hi : i < count) :
    gateAt (start m entries im) (entries + entrySize * i) =
      if i < vectors then stubGate im i else emptyGate := by
  rw [start, gateAt_setGates _ im hfit (by decide) hi, gateAt_memset m hfit hi]

/-- `IDT::Start` writes the table only. -/
theorem onlyIn_start (m : Mem) (im : Isr.Image) (hfit : entries + entrySize * count ≤ 2 ^ 32) :
    OnlyIn m (start m entries im) entries (entries + entrySize * count) := by
  have hgates : ∀ n ≤ count, ∀ m, OnlyIn m (setGates m entries im n) entries
      (entries + entrySize * count) := by
    intro n hn m
    unfold count at hfit hn ⊢
    induction n with
    | zero => exact OnlyIn.refl m _ _
    | succ n ih =>
      refine (ih (Nat.le_of_succ_le hn)).trans (OnlyIn.mono (onlyIn_setGate _ _ _ _ ?_) ?_ ?_) <;>
        unfold entrySize at * <;> omega
  exact (onlyIn_memset m entries 0 _ hfit).trans (hgates vectors (by decide) _)

/-- The tables share no byte. -/
def Apart (gdt idt : ℕ) : Prop :=
  gdt + Gdt.entrySize * Gdt.count ≤ idt ∨ idt + entrySize * count ≤ gdt

/-- **Where a vector leads**, by its gate and the segment of the kernel's code. -/
theorem interrupt_of_entries {m' : Mem} {im : Isr.Image} {gdt idt v : ℕ} (hv : v < count)
    (hgate : gateAt m' (idt + entrySize * v) = if v < vectors then stubGate im v else emptyGate)
    (hsegment : segmentAt m' (gdt + 8) = Gdt.startEntry 1) :
    interrupt m' (Gdt.ptr gdt) (ptr idt) v =
      if v < vectors then .ok ⟨0x08, (im.isr (.ofNat v)).toNat, true⟩
      else .error (.generalProtection (8 * v + 2)) := by
  have hlimit : ¬ (ptr idt).limit < 8 * v + 7 := by
    unfold count at hv
    have : (ptr idt).limit = 2047 := rfl
    omega
  have hlookup : lookup m' (Gdt.ptr gdt) 0x08 = .ok (Gdt.startEntry 1) :=
    congrArg Except.ok hsegment
  have hbase : (ptr idt).base + 8 * v = idt + entrySize * v := rfl
  unfold interrupt
  rw [if_neg hlimit, hbase, hgate]
  by_cases hlt : v < vectors
  · rw [if_pos hlt, if_pos hlt]
    have hflat := Gdt.flat_startEntry 1 (by decide) (by decide)
    have hcode : (Gdt.startEntry 1).code = true := by decide
    have hoffset := (im.isr (.ofNat v)).toNat_lt
    have hwithin : (Gdt.startEntry 1).Within (im.isr (.ofNat v)).toNat 1 := by
      rw [Segment.Within, if_neg (by simp [hflat.special]), hflat.limit]
      omega
    have hkinds : ¬ interruptGate ∈ otherGates := by decide
    simp only [stubGate, hkinds, hlookup, ↓reduceIte, ne_eq, not_true_eq_false, false_and,
      Bool.not_true, Bool.false_eq_true, decide_true]
    dsimp only [bind, Except.bind]
    simp only [hflat.present, hflat.user, hcode, hwithin, hflat.base, Bool.and_self, Bool.not_true,
      Bool.false_eq_true, not_true_eq_false, ↓reduceIte, Nat.zero_add, u32_of_lt hoffset]
  · rw [if_neg hlt, if_neg hlt]
    have hkinds : ¬ emptyGate.kind ∈ otherGates := by decide
    have hkind : emptyGate.kind ≠ interruptGate ∧ emptyGate.kind ≠ trapGate := by decide
    rw [if_neg hkinds, if_pos hkind]

/-- The gates do not overwrite the segments. -/
theorem segmentAt_start (m : Mem) (im : Isr.Image) {gdt idt i : ℕ}
    (hgdt : gdt + Gdt.entrySize * Gdt.count ≤ 2 ^ 32) (hidt : idt + entrySize * count ≤ 2 ^ 32)
    (hapart : Apart gdt idt) (hi : i < Gdt.count) :
    segmentAt (start (Gdt.start m gdt) idt im) (gdt + Gdt.entrySize * i) = Gdt.startEntry i := by
  refine Eq.trans (segmentAt_congr fun k hk => ?_) (Gdt.segmentAt_start m hgdt hi)
  refine (onlyIn_start _ im hidt).read8 ?_ ?_
  all_goals unfold Apart Gdt.entrySize Gdt.count at *
  all_goals omega

/-- The segments behind the two `Start` functions and any stores that spare them. -/
theorem segmentAt_of_eqOn {m m' : Mem} {im : Isr.Image} {gdt idt i : ℕ}
    (hgdt : gdt + Gdt.entrySize * Gdt.count ≤ 2 ^ 32) (hidt : idt + entrySize * count ≤ 2 ^ 32)
    (hapart : Apart gdt idt)
    (hsegments : EqOn (start (Gdt.start m gdt) idt im) m' gdt
      (gdt + Gdt.entrySize * Gdt.count)) (hi : i < Gdt.count) :
    segmentAt m' (gdt + Gdt.entrySize * i) = Gdt.startEntry i := by
  rw [← segmentAt_start m im hgdt hidt hapart hi]
  refine segmentAt_congr fun k hk => hsegments.read8 ?_ ?_ hgdt
  all_goals unfold Gdt.entrySize Gdt.count at *
  all_goals omega

/-- Where a vector leads behind them. -/
theorem interrupt_of_eqOn {m m' : Mem} {im : Isr.Image} {gdt idt v : ℕ}
    (hgdt : gdt + Gdt.entrySize * Gdt.count ≤ 2 ^ 32) (hidt : idt + entrySize * count ≤ 2 ^ 32)
    (hapart : Apart gdt idt)
    (hsegments : EqOn (start (Gdt.start m gdt) idt im) m' gdt
      (gdt + Gdt.entrySize * Gdt.count))
    (hgates : EqOn (start (Gdt.start m gdt) idt im) m' idt (idt + entrySize * count))
    (hv : v < count) :
    interrupt m' (Gdt.ptr gdt) (ptr idt) v =
      if v < vectors then .ok ⟨0x08, (im.isr (.ofNat v)).toNat, true⟩
      else .error (.generalProtection (8 * v + 2)) := by
  refine interrupt_of_entries hv ?_
    (segmentAt_of_eqOn hgdt hidt hapart hsegments (i := 1) (by decide))
  rw [← gateAt_start (Gdt.start m gdt) im hidt hv]
  refine gateAt_congr fun k hk => hgates.read8 ?_ ?_ hidt
  all_goals unfold entrySize count at *
  all_goals omega

/-- **Where every vector leads**, behind the two `Start` functions and any stores that spare their
tables: to its stub with interrupts off, if it has one, and otherwise to a general protection fault
that names the vector.  And all the segments are those of `GDT::Start`. -/
theorem interrupt_start (m m' : Mem) (im : Isr.Image) (gdt idt : ℕ)
    (hgdt : gdt + Gdt.entrySize * Gdt.count ≤ 2 ^ 32) (hidt : idt + entrySize * count ≤ 2 ^ 32)
    (hapart : Apart gdt idt)
    (hsegments : EqOn (start (Gdt.start m gdt) idt im) m' gdt
      (gdt + Gdt.entrySize * Gdt.count))
    (hgates : EqOn (start (Gdt.start m gdt) idt im) m' idt (idt + entrySize * count)) :
    (∀ v < count, interrupt m' (Gdt.ptr gdt) (ptr idt) v =
      if v < vectors then .ok ⟨0x08, (im.isr (.ofNat v)).toNat, true⟩
      else .error (.generalProtection (8 * v + 2))) ∧
      ∀ i < Gdt.count, segmentAt m' (gdt + Gdt.entrySize * i) = Gdt.startEntry i :=
  ⟨fun _ hv => interrupt_of_eqOn hgdt hidt hapart hsegments hgates hv,
    fun _ hi => segmentAt_of_eqOn hgdt hidt hapart hsegments hi⟩

/-- The timer's vector and the user's data segment, when something has been drawn on the screen. -/
theorem interrupt_start_timer :
    let m := start (Gdt.start (fun _ => 0) 0x200000) 0x200100 Isr.lowImage
    let m' := m.write32 0xB8000 0x4F204F20
    interrupt m' (Gdt.ptr 0x200000) (ptr 0x200100) 0x20 = .ok ⟨0x08, 0x100200, true⟩ ∧
      segmentAt m' 0x200020 = Gdt.startEntry 4 := by
  intro m m'
  obtain ⟨hinterrupt, hsegment⟩ := interrupt_start (fun _ => 0) m' Isr.lowImage 0x200000 0x200100
    (by decide) (by decide) (.inl (by decide)) (eqOn_write32 (by decide) (.inr (by decide)))
    (eqOn_write32 (by decide) (.inr (by decide)))
  exact ⟨hinterrupt 0x20 (by decide), hsegment 4 (by decide)⟩

end Idt

end Shiro
