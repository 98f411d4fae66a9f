import Mathlib.Data.List.Induction
import Mathlib.Tactic.IntervalCases
import Shiro.Lib.Descriptors

/-!
# The global descriptor table

`GDT::SetGate` takes a base, a limit, the byte of the rights and the granularity apart and stores
them into the eight bytes of an entry.  `GDT::Start` fills five entries: the null descriptor, and
code and data for the kernel and for user mode.

* `Gdt.setGate`, `Gdt.start` : the functions, on the memory that holds the table.
* `Gdt.segmentAt_setGates` : **every entry says what it was given last**, but for the bits that have
  no room.
* `Gdt.access_start` : **every access through a kernel or user selector** goes to its own offset or
  is refused for its kind.
-/

namespace Shiro

open Ia32

namespace Gdt

/-- `sizeof(gdt_entry_t)`. -/
def entrySize : ℕ := 8

/-- `GDT::SetGate(gate, base, limit, access, gran)`, where the entries begin at `entries`. -/
def setGate (m : Mem) (entries : ℕ) (gate : ℕ) (base limit : UInt32) (access gran : UInt8) : Mem :=
  let entry := entries + entrySize * gate
  let m := m.write16 (entry + 2) (base.toNat &&& 0xFFFF)
  let m := m.write8 (entry + 4) (.ofNat (base.toNat >>> 16 &&& 0xFF))
  let m := m.write8 (entry + 7) (.ofNat (base.toNat >>> 24 &&& 0xFF))
  let m := m.write16 entry (limit.toNat &&& 0xFFFF)
  let m := m.write8 (entry + 6) (.ofNat (limit.toNat >>> 16 &&& 0x0F))
  let m := m.write8 (entry + 6) (.ofNat (m.read8 (entry + 6)) ||| gran &&& 0xF0)
  m.write8 (entry + 5) access

/-- The number of entries. -/
def count : ℕ := 5

/-- The arguments of the five calls in `GDT::Start`. -/
def gates : List (UInt32 × UInt32 × UInt8 × UInt8) :=
  [(0, 0, 0, 0), (0, 0xFFFFFFFF, 0x9A, 0xCF), (0, 0xFFFFFFFF, 0x92, 0xCF),
    (0, 0xFFFFFFFF, 0xFA, 0xCF), (0, 0xFFFFFFFF, 0xF2, 0xCF)]

/-- `GDT::Start()`, up to `GDTFlush`. -/
def start (m : Mem) (entries : ℕ) : Mem :=
  let m := setGate m entries 0 0 0 0 0
  let m := setGate m entries 1 0 0xFFFFFFFF 0x9A 0xCF
  let m := setGate m entries 2 0 0xFFFFFFFF 0x92 0xCF
  let m := setGate m entries 3 0 0xFFFFFFFF 0xFA 0xCF
  setGate m entries 4 0 0xFFFFFFFF 0xF2 0xCF

/-- `ptr`, which `GDTFlush` loads. -/
def ptr (entries : ℕ) : TableReg := ⟨entries, entrySize * count - 1⟩

variable {m m' : Mem} {entries gate i : ℕ} {base limit : UInt32} {access gran : UInt8}

/-! ### One entry -/

/-- The two halves of the granularity byte. -/
theorem or_nibbles : ∀ l < 2 ^ 4, ∀ g < 2 ^ 8,
    (UInt8.ofNat l ||| UInt8.ofNat g &&& 0xF0).toNat = l + 2 ^ 4 * (g / 2 ^ 4) := by
  decide +kernel

/-- The bytes of an entry behind `SetGate`. -/
theorem read_setGate (m : Mem) (gate : ℕ) (base limit : UInt32) (access gran : UInt8)
    (hfit : entries + entrySize * gate + 8 ≤ 2 ^ 32) :
    let m' := setGate m entries gate base limit access gran
    let entry := entries + entrySize * gate
    m'.read16 entry = limit.toNat % 2 ^ 16 ∧ m'.read16 (entry + 2) = base.toNat % 2 ^ 16 ∧
      m'.read8 (entry + 4) = base.toNat / 2 ^ 16 % 2 ^ 8 ∧
      m'.read8 (entry + 5) = access.toNat ∧
      m'.read8 (entry + 6) = limit.toNat / 2 ^ 16 % 2 ^ 4 + 2 ^ 4 * (gran.toNat / 2 ^ 4) ∧
      m'.read8 (entry + 7) = base.toNat / 2 ^ 24 % 2 ^ 8 := by
  have hand : ∀ n : ℕ, n &&& 0xFFFF = n % 2 ^ 16 := fun n => Nat.and_two_pow_sub_one_eq_mod n 16
  have hand8 : ∀ n : ℕ, n &&& 0xFF = n % 2 ^ 8 := fun n => Nat.and_two_pow_sub_one_eq_mod n 8
  have hand4 : ∀ n : ℕ, n &&& 0x0F = n % 2 ^ 4 := fun n => Nat.and_two_pow_sub_one_eq_mod n 4
  have hgran : UInt8.ofNat gran.toNat = gran := UInt8.ofNat_toNat
  dsimp only [setGate]
  generalize entries + entrySize * gate = e at hfit ⊢
  have hbyte := or_nibbles (limit.toNat / 2 ^ 16 % 2 ^ 4) (Nat.mod_lt _ (by decide)) gran.toNat
    gran.toNat_lt
  rw [hgran] at hbyte
  simp only [hand, hand8, hand4, Nat.shiftRight_eq_div_pow]
  refine ⟨?_, ?_, ?_, ?_, ?_, ?_⟩
  · simp (disch := omega) only [Mem.read16, Mem.read8_write8_of_ne, Mem.read8_write16_low,
      Mem.read8_write16_high]
    omega
  · simp (disch := omega) only [Mem.read16, Mem.read8_write8_of_ne, Mem.read8_write16_of_ne,
      Mem.read8_write16_low, Mem.read8_write16_high]
    omega
  · simp (disch := omega) only [Mem.read8_write8_of_ne, Mem.read8_write16_of_ne, Mem.read8_write8,
      UInt8.toNat_ofNat']
    omega
  · rw [Mem.read8_write8]
  · simp (disch := omega) only [Mem.read8_write8_of_ne, Mem.read8_write8, UInt8.toNat_ofNat']
    rw [Nat.mod_eq_of_lt (show limit.toNat / 2 ^ 16 % 2 ^ 4 < 2 ^ 8 by omega)]
    exact hbyte
  · simp (disch := omega) only [Mem.read8_write8_of_ne, Mem.read8_write16_of_ne, Mem.read8_write8,
      UInt8.toNat_ofNat']
    omega

/-- **An entry says what it was given**: the base, the lower 20 bits of the limit, the rights, and
the upper half of the granularity. -/
theorem segmentAt_setGate (m : Mem) (gate : ℕ) (base limit : UInt32) (access gran : UInt8)
    (hfit : entries + entrySize * gate + 8 ≤ 2 ^ 32) :
    segmentAt (setGate m entries gate base limit access gran) (entries + entrySize * gate) =
      descriptor base.toNat (limit.toNat % 2 ^ 20) access.toNat (gran.toNat / 2 ^ 4) := by
  obtain ⟨hlow, hbase, hmiddle, haccess, hgran, hhigh⟩ :=
    read_setGate m gate base limit access gran hfit
  have hlt := base.toNat_lt
  have hbaseEq : base.toNat % 2 ^ 16 + 2 ^ 16 * (base.toNat / 2 ^ 16 % 2 ^ 8) +
      2 ^ 24 * (base.toNat / 2 ^ 24 % 2 ^ 8) = base.toNat := by omega
  have hlimit : limit.toNat % 2 ^ 16 + 2 ^ 16 *
      ((limit.toNat / 2 ^ 16 % 2 ^ 4 + 2 ^ 4 * (gran.toNat / 2 ^ 4)) % 2 ^ 4) =
      limit.toNat % 2 ^ 20 := by omega
  have hflags : (limit.toNat / 2 ^ 16 % 2 ^ 4 + 2 ^ 4 * (gran.toNat / 2 ^ 4)) / 2 ^ 4 =
      gran.toNat / 2 ^ 4 := by omega
  rw [segmentAt, hlow, hbase, hmiddle, haccess, hgran, hhigh, hbaseEq, hlimit, hflags]

/-- `SetGate` writes the eight bytes of its entry only. -/
theorem onlyIn_setGate (m : Mem) (gate : ℕ) (base limit : UInt32) (access gran : UInt8)
    (hfit : entries + entrySize * gate + 8 ≤ 2 ^ 32) :
    OnlyIn m (setGate m entries gate base limit access gran) (entries + entrySize * gate)
      (entries + entrySize * gate + 8) := by
  dsimp only [setGate]
  generalize entries + entrySize * gate = e at hfit ⊢
  refine OnlyIn.write8 (OnlyIn.write8 (OnlyIn.write8 (OnlyIn.write16 (OnlyIn.write8 (OnlyIn.write8
    (OnlyIn.write16 (OnlyIn.refl m _ _) hfit ?_ ?_ _) hfit ?_ ?_ _) hfit ?_ ?_ _) hfit ?_ ?_ _)
    hfit ?_ ?_ _) hfit ?_ ?_ _) hfit ?_ ?_ _ <;> omega

/-- **The other entries stay as they are.** -/
theorem segmentAt_setGate_of_ne (m : Mem) {gate i : ℕ} (base limit : UInt32) (access gran : UInt8)
    (hgate : entries + entrySize * gate + 8 ≤ 2 ^ 32) (hi : entries + entrySize * i + 8 ≤ 2 ^ 32)
    (hne : i ≠ gate) :
    segmentAt (setGate m entries gate base limit access gran) (entries + entrySize * i) =
      segmentAt m (entries + entrySize * i) := by
  unfold entrySize at *
  exact segmentAt_congr fun k hk =>
    (onlyIn_setGate m gate base limit access gran hgate).read8 (by omega)
      (by unfold entrySize; omega)

/-! ### The table -/

/-- The arguments of a call of `SetGate`. -/
structure Gate where
  gate : ℕ
  base : UInt32
  limit : UInt32
  access : UInt8
  gran : UInt8

/-- What the processor should read for it. -/
def Gate.segment (g : Gate) : Segment :=
  descriptor g.base.toNat (g.limit.toNat % 2 ^ 20) g.access.toNat (g.gran.toNat / 2 ^ 4)

/-- Some calls of `SetGate`. -/
def setGates (m : Mem) (entries : ℕ) (gs : List Gate) : Mem :=
  gs.foldl (fun m g => setGate m entries g.gate g.base g.limit g.access g.gran) m

/-- **Every entry says what it was given last**, and one that was given nothing is as before. -/
theorem segmentAt_setGates (m : Mem) {gs : List Gate}
    (hgs : ∀ g ∈ gs, entries + entrySize * g.gate + 8 ≤ 2 ^ 32)
    (hi : entries + entrySize * i + 8 ≤ 2 ^ 32) :
    segmentAt (setGates m entries gs) (entries + entrySize * i) =
      ((gs.reverse.find? (·.gate = i)).map Gate.segment).getD
        (segmentAt m (entries + entrySize * i)) := by
  induction gs using List.reverseRecOn with
  | nil => rfl
  | append_singleton gs g ih =>
    have hg := hgs g (List.mem_append_right _ (List.mem_singleton_self g))
    have hrest := ih fun g' hg' => hgs g' (List.mem_append_left _ hg')
    rw [setGates, List.foldl_append, List.foldl_cons, List.foldl_nil, List.reverse_append,
      List.reverse_singleton, List.singleton_append]
    by_cases hgate : g.gate = i
    · rw [List.find?_cons_of_pos (by simpa using hgate), ← hgate]
      exact segmentAt_setGate _ _ _ _ _ _ hg
    · rw [List.find?_cons_of_neg (by simpa using hgate), ← hrest]
      exact segmentAt_setGate_of_ne _ _ _ _ _ hg hi (Ne.symm hgate)

/-- Two segments of the BIOS area, under one index. -/
theorem segmentAt_setGates_bios :
    segmentAt (setGates (fun _ => 0) 0x200000 [⟨3, 0xF0000, 0xFFFF, 0x9A, 0x00⟩,
      ⟨4, 0, 0xFFFFF, 0x92, 0xC0⟩, ⟨3, 0xF0000, 0xFFFF, 0x92, 0x40⟩]) (0x200000 + 8 * 3) =
        descriptor 0xF0000 0xFFFF 0x92 4 :=
  segmentAt_setGates _ (by decide) (by decide)

/-- What `Start` writes for the entry `i`. -/
def startEntry (i : ℕ) : Segment :=
  let (base, limit, access, gran) := gates.getD i (0, 0, 0, 0)
  descriptor base.toNat (limit.toNat % 2 ^ 20) access.toNat (gran.toNat / 2 ^ 4)

theorem segmentAt_start (m : Mem) (hfit : entries + entrySize * count ≤ 2 ^ 32) (hi : i < count) :
    segmentAt (start m entries) (entries + entrySize * i) = startEntry i := by
  unfold count at hfit hi
  have hroom : ∀ j < 5, entries + entrySize * j + 8 ≤ 2 ^ 32 := fun j hj => by
    unfold entrySize at *
    omega
  have hself := fun j (hj : j < 5) m base limit access gran =>
    segmentAt_setGate m j base limit access gran (hroom j hj)
  -- an entry is the last one written under its index
  have hother := fun j (hj : j < 5) (hne : i ≠ j) m base limit access gran =>
    segmentAt_setGate_of_ne m base limit access gran (hroom j hj)
      (hroom i hi) hne
  unfold start
  interval_cases i
  · rw [hother 4 (by decide) (by decide), hother 3 (by decide) (by decide),
      hother 2 (by decide) (by decide), hother 1 (by decide) (by decide), hself 0 (by decide)]
    rfl
  · rw [hother 4 (by decide) (by decide), hother 3 (by decide) (by decide),
      hother 2 (by decide) (by decide), hself 1 (by decide)]
    rfl
  · rw [hother 4 (by decide) (by decide), hother 3 (by decide) (by decide), hself 2 (by decide)]
    rfl
  · rw [hother 4 (by decide) (by decide), hself 3 (by decide)]
    rfl
  · rw [hself 4 (by decide)]
    rfl

/-- **What a selector names** behind `GDT::Start`. -/
theorem lookup_start (m : Mem) (hfit : entries + entrySize * count ≤ 2 ^ 32) (selector : ℕ) :
    lookup (start m entries) (ptr entries) selector =
      if selector / 4 = 0 then .error (.generalProtection 0)
      else if selector.testBit 2 ∨ count ≤ selector / 8 then
        .error (.generalProtection (selector / 4 * 4))
      else .ok (startEntry (selector / 8)) := by
  unfold lookup
  by_cases hnull : selector / 4 = 0
  · rw [if_pos hnull, if_pos hnull]
  rw [if_neg hnull, if_neg hnull]
  by_cases hlocal : selector.testBit 2 = true
  · rw [if_pos hlocal, if_pos (.inl hlocal)]
  rw [if_neg hlocal]
  by_cases hout : count ≤ selector / 8
  · have hlimit : (ptr entries).limit < selector / 8 * 8 + 7 := by
      unfold count at hout
      have : (ptr entries).limit = 39 := rfl
      omega
    rw [if_pos hlimit, if_pos (.inr hout)]
  · have hlimit : ¬ (ptr entries).limit < selector / 8 * 8 + 7 := by
      unfold count at hout
      have : (ptr entries).limit = 39 := rfl
      omega
    rw [if_neg hlimit, if_neg (not_or.2 ⟨hlocal, hout⟩)]
    have hentry := segmentAt_start m hfit (Nat.not_le.1 hout)
    rw [show entrySize * (selector / 8) = selector / 8 * 8 from Nat.mul_comm _ _] at hentry
    exact congrArg Except.ok hentry

theorem flat_startEntry : ∀ i < count, 0 < i → (startEntry i).Flat := by
  intro i hi hpos
  unfold count at hi
  interval_cases i <;> exact ⟨by decide, by decide, by decide, by decide, by decide⟩

/-- The entries for code. -/
theorem code_startEntry : ∀ i < count, 0 < i →
    (startEntry i).code = decide (i % 2 = 1) ∧ (startEntry i).more = true := by
  decide

/-- An access of the kind `x` suits the entry `i`: writes go to data, fetches to code. -/
def Suits (i : ℕ) : Access → Prop
  | .read => True
  | .write => i % 2 = 0
  | .fetch => i % 2 = 1

instance (i : ℕ) (x : Access) : Decidable (Suits i x) := by
  cases x <;> unfold Suits <;> infer_instance

theorem allows_iff (hlt : i < count) (hpos : 0 < i) (x : Access) :
    (startEntry i).Allows x ↔ Suits i x := by
  obtain ⟨hcode, hmore⟩ := code_startEntry i hlt hpos
  cases x <;> simp [Segment.Allows, Suits, hcode, hmore]

/-- **Every access through a selector of the kernel or of user mode** goes to its own offset, or is
refused for its kind. -/
theorem access_start (m : Mem) (hfit : entries + entrySize * count ≤ 2 ^ 32) {selector : ℕ}
    (hsel : selector.testBit 2 = false) (hpos : 0 < selector / 8) (hlt : selector / 8 < count)
    (x : Access) {offset n : ℕ} (hn : 0 < n) (hoff : offset + n ≤ 2 ^ 32) :
    (lookup (start m entries) (ptr entries) selector).bind (fun s => s.access x offset n) =
      if Suits (selector / 8) x then .ok offset else .error (.generalProtection 0) := by
  have hnull : selector / 4 ≠ 0 := by omega
  have hin : ¬ (selector.testBit 2 = true ∨ count ≤ selector / 8) := by
    rw [hsel]
    simpa using hlt
  rw [lookup_start m hfit, if_neg hnull, if_neg hin]
  dsimp only [Except.bind]
  rw [(flat_startEntry _ hlt hpos).access hn hoff]
  have hiff := allows_iff hlt hpos x
  by_cases hx : Suits (selector / 8) x
  · rw [if_pos hx, if_pos (hiff.2 hx)]
  · rw [if_neg hx, if_neg fun h => hx (hiff.1 h)]

/-- The kernel writes to the screen. -/
theorem access_start_screen :
    (lookup (start (fun _ => 0) 0x200000) (ptr 0x200000) 0x10).bind
      (fun s => s.access .write 0xB8000 2) = .ok 0xB8000 :=
  access_start (fun _ => 0) (by decide) (by decide) (by decide) (by decide) .write (by decide)
    (by decide)

end Gdt

end Shiro
