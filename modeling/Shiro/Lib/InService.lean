import Mathlib.Data.Finset.Max
import Mathlib.Order.Fin.Basic
import Shiro.Lib.I8259

/-!
# Requests and service in fully nested mode

An interrupt controller latches the lines that request service and remembers those in service.  It
offers a requested line that is open and comes before all the lines in service; the processor takes
the first one offered, and the end of an interrupt clears the first line in service.

* `Nested` : a controller over a linear order of lines.
* `Nested.first_eq_some_iff` : **which line is offered first.**
* `Nested.finish_of_subset` : the end of the only interrupt in service.
* `I8259Lines` : two chips of eight lines, the slave at line 2 of the master.
* `I8259Lines.acknowledge` : what the processor takes from them.
-/

namespace Shiro

/-- The eight lines of a chip can be named by numerals. -/
local instance neZeroEight : @NeZero ℕ Zero.ofOfNat0 8 := ⟨Nat.succ_ne_zero 7⟩

/-- The lines that request service, and those in service. -/
structure Nested (α : Type*) where
  requested : Finset α
  serving : Finset α
  deriving DecidableEq

namespace Nested

variable {α : Type*} [LinearOrder α] {c : Nested α} {p : α → Prop} [DecidablePred p] {i j : α}

/-- The lines offered to the processor, where `p` are the lines that are open. -/
def offered (c : Nested α) (p : α → Prop) [DecidablePred p] : Finset α :=
  c.requested.filter fun i => p i ∧ ∀ j ∈ c.serving, i < j

/-- The first line offered. -/
def first (c : Nested α) (p : α → Prop) [DecidablePred p] : Option α :=
  if h : (c.offered p).Nonempty then some ((c.offered p).min' h) else none

/-- The processor takes a line. -/
def take (c : Nested α) (i : α) : Nested α := ⟨c.requested.erase i, insert i c.serving⟩

/-- The end of the interrupt that comes first among those in service. -/
def finish (c : Nested α) : Nested α :=
  if h : c.serving.Nonempty then { c with serving := c.serving.erase (c.serving.min' h) } else c

theorem mem_offered : i ∈ c.offered p ↔ i ∈ c.requested ∧ p i ∧ ∀ j ∈ c.serving, i < j := by
  rw [offered, Finset.mem_filter]

/-- With nothing in service all open lines are offered. -/
theorem mem_offered_of_idle (h : c.serving = ∅) : i ∈ c.offered p ↔ i ∈ c.requested ∧ p i := by
  rw [mem_offered, h]
  simp

theorem first_eq_none_iff : c.first p = none ↔ c.offered p = ∅ := by
  unfold first
  split
  · rename_i h
    exact iff_of_false (by simp) h.ne_empty
  · rename_i h
    exact iff_of_true rfl (Finset.not_nonempty_iff_eq_empty.1 h)

/-- **The line offered first.** -/
theorem first_eq_some_iff :
    c.first p = some i ↔ i ∈ c.offered p ∧ ∀ j ∈ c.offered p, i ≤ j := by
  unfold first
  split
  · rename_i h
    rw [Option.some.injEq]
    constructor
    · rintro rfl
      exact ⟨Finset.min'_mem _ h, fun j hj => Finset.min'_le _ j hj⟩
    · rintro ⟨hi, hle⟩
      exact le_antisymm (Finset.min'_le _ i hi) (hle _ (Finset.min'_mem _ h))
  · rename_i h
    refine iff_of_false (by simp) fun hi => h ⟨i, hi.1⟩

@[simp] theorem finish_requested (c : Nested α) : c.finish.requested = c.requested := by
  unfold finish
  split <;> rfl

/-- **The end of the only interrupt in service**, and of none. -/
theorem finish_of_subset (h : c.serving ⊆ {i}) : c.finish.serving = ∅ := by
  rcases Finset.subset_singleton_iff.1 h with hc | hc
  · rw [finish, dif_neg (by rw [hc]; exact Finset.not_nonempty_empty)]
    exact hc
  · have hne : c.serving.Nonempty := by
      rw [hc]
      exact Finset.singleton_nonempty i
    have hmin : c.serving.min' hne = i := Finset.mem_singleton.1 (h (Finset.min'_mem _ hne))
    rw [finish, dif_pos hne]
    dsimp only
    rw [hmin, hc, Finset.erase_singleton]

end Nested

/-! ### The 8259A pair -/

namespace Nested

/-- A byte on the command port of a chip: ICW1 clears the two registers, OCW2 ends the interrupt
that comes first in service or the one it names. -/
def command (c : Nested (Fin 8)) (v : BitVec 8) : Nested (Fin 8) :=
  if v.getLsbD 4 then ⟨∅, ∅⟩
  else if v.getLsbD 3 then c
  else if v.extractLsb' 5 3 = 1 then c.finish
  else if v.extractLsb' 5 3 = 3 then
    { c with serving := c.serving.erase (Fin.ofNat 8 (v.extractLsb' 0 3).toNat) }
  else c

end Nested

theorem slave_lt {irq : Fin 16} (_ : ¬ irq.val < 8) : irq.val - 8 < 8 := by
  omega

/-- Two chips with their mask registers, requests and interrupts in service. -/
structure I8259Lines where
  regs : I8259Pair
  master : Nested (Fin 8)
  slave : Nested (Fin 8)

namespace I8259Lines

/-- The input of the master that the slave's output is on. -/
def cascade : Fin 8 := 2

/-- The lines of a chip that are open. -/
def unmasked (c : I8259) (i : Fin 8) : Prop := c.imr.getLsbD i = false

instance (c : I8259) : DecidablePred (unmasked c) := fun _ => inferInstanceAs (Decidable (_ = _))

/-- The number that a chip puts on the bus for its line `i`. -/
def vectorOf (c : I8259) (i : Fin 8) : BitVec 8 := c.vector &&& 0xF8 ||| BitVec.ofNat 8 i

/-- The line that the slave offers. -/
def slaveFirst (s : I8259Lines) : Option (Fin 8) := s.slave.first (unmasked s.regs.slave)

/-- What the master sees: the slave requests its line when it offers one of its own. -/
def masterInput (s : I8259Lines) : Nested (Fin 8) :=
  { s.master with
    requested := if s.slaveFirst.isSome then insert cascade s.master.requested
      else s.master.requested }

/-- The line that the master offers to the processor. -/
def masterFirst (s : I8259Lines) : Option (Fin 8) :=
  s.masterInput.first (unmasked s.regs.master)

/-- A device requests service on a line. -/
def request (s : I8259Lines) (irq : Fin 16) : I8259Lines :=
  if h : irq.val < 8 then
    { s with master := { s.master with requested := insert ⟨irq, h⟩ s.master.requested } }
  else
    { s with slave := { s.slave with requested := insert ⟨irq - 8, by omega⟩ s.slave.requested } }

/-- A device takes its request back. -/
def withdraw (s : I8259Lines) (irq : Fin 16) : I8259Lines :=
  if h : irq.val < 8 then
    { s with master := { s.master with requested := s.master.requested.erase ⟨irq, h⟩ } }
  else
    { s with slave := { s.slave with requested := s.slave.requested.erase ⟨irq - 8, by omega⟩ } }

/-- The slave's part of an acknowledgement: the line it offers, or line 7 if it offers none any
more. -/
def acknowledgeSlave (s : I8259Lines) : I8259Lines × BitVec 8 :=
  let s := { s with master := s.master.take cascade }
  match s.slaveFirst with
  | some j => ({ s with slave := s.slave.take j }, vectorOf s.regs.slave j)
  | none => (s, vectorOf s.regs.slave 7)

/-- The pair's answer to the processor, where the master offers a line or none any more: then the
number is that of line 7. -/
def answer (s : I8259Lines) : Option (Fin 8) → I8259Lines × BitVec 8
  | none => (s, vectorOf s.regs.master 7)
  | some i =>
    if i = cascade then s.acknowledgeSlave
    else ({ s with master := s.master.take i }, vectorOf s.regs.master i)

/-- **The processor acknowledges an interrupt**: the pair as it leaves it, and the number on the
bus. -/
def acknowledge (s : I8259Lines) : I8259Lines × BitVec 8 := s.answer s.masterFirst

/-- The device on the line `irq` waits for its interrupt. -/
def Requested (s : I8259Lines) (irq : Fin 16) : Prop :=
  if h : irq.val < 8 then ⟨irq, h⟩ ∈ s.master.requested
  else ⟨irq - 8, by omega⟩ ∈ s.slave.requested

instance (s : I8259Lines) (irq : Fin 16) : Decidable (s.Requested irq) := by
  unfold Requested
  infer_instance

/-- The place of a line in the order of priority: those of the slave come behind lines 0 and 1. -/
def rank (irq : Fin 16) : ℕ :=
  if irq.val < 2 then irq else if irq.val < 8 then irq + 8 else irq - 6

/-- No interrupt is in service. -/
def Idle (s : I8259Lines) : Prop := s.master.serving = ∅ ∧ s.slave.serving = ∅

instance (s : I8259Lines) : Decidable s.Idle := inferInstanceAs (Decidable (_ ∧ _))

/-- A device waits on the line and the line gets through. -/
def Waiting (s : I8259Lines) (irq : Fin 16) : Prop := s.Requested irq ∧ s.regs.Delivers irq

instance (s : I8259Lines) (irq : Fin 16) : Decidable (s.Waiting irq) :=
  inferInstanceAs (Decidable (_ ∧ _))

/-- The line `irq` goes from the requests to the lines in service. -/
def enter (s : I8259Lines) (irq : Fin 16) : I8259Lines :=
  if h : irq.val < 8 then { s with master := s.master.take ⟨irq, h⟩ }
  else { s with master := s.master.take cascade, slave := s.slave.take ⟨irq - 8, by omega⟩ }

/-- The number of the line `irq` on the bus. -/
def vector (s : I8259Lines) (irq : Fin 16) : BitVec 8 :=
  if h : irq.val < 8 then vectorOf s.regs.master ⟨irq, h⟩
  else vectorOf s.regs.slave ⟨irq - 8, by omega⟩

variable {s : I8259Lines} {irq k : Fin 16} {i j : Fin 8}

theorem waiting_master (h : irq.val < 8) :
    s.Waiting irq ↔ ⟨irq, h⟩ ∈ s.master.requested ∧ unmasked s.regs.master ⟨irq, h⟩ := by
  have hle : ¬ 8 ≤ irq.val := by omega
  simp only [Waiting, Requested, I8259Pair.Delivers, I8259Pair.masked, unmasked, h, hle,
    ↓reduceDIte, ↓reduceIte, false_imp_iff, and_true]

theorem waiting_slave (h : ¬ irq.val < 8) :
    s.Waiting irq ↔ (⟨irq - 8, by omega⟩ ∈ s.slave.requested ∧
      unmasked s.regs.slave ⟨irq - 8, by omega⟩) ∧ unmasked s.regs.master cascade := by
  have hle : 8 ≤ irq.val := by omega
  simp only [Waiting, Requested, I8259Pair.Delivers, I8259Pair.masked, unmasked, cascade, h, hle,
    ↓reduceDIte, ↓reduceIte, true_imp_iff, and_assoc]
  rfl

/-- What the slave offers to an idle pair. -/
theorem mem_slave_offered (hidle : s.Idle) :
    j ∈ s.slave.offered (unmasked s.regs.slave) ↔
      j ∈ s.slave.requested ∧ unmasked s.regs.slave j := Nested.mem_offered_of_idle hidle.2

/-- What the master offers to the processor in an idle pair. -/
theorem mem_master_offered (hidle : s.Idle) (hc : cascade ∉ s.master.requested) :
    i ∈ s.masterInput.offered (unmasked s.regs.master) ↔
      (if i = cascade then s.slaveFirst.isSome = true else i ∈ s.master.requested) ∧
        unmasked s.regs.master i := by
  have hserving : s.masterInput.serving = ∅ := hidle.1
  rw [Nested.mem_offered_of_idle hserving]
  dsimp only [masterInput]
  refine and_congr_left fun _ => ?_
  by_cases hi : i = cascade
  · subst hi
    by_cases hs : s.slaveFirst.isSome = true <;> simp [hs, hc]
  · by_cases hs : s.slaveFirst.isSome = true <;> simp [hs, hi]

/-- A line of the slave that waits is offered by the master as its line 2. -/
theorem cascade_offered (hidle : s.Idle) (hc : cascade ∉ s.master.requested)
    (h : ¬ irq.val < 8) (hw : s.Waiting irq) :
    cascade ∈ s.masterInput.offered (unmasked s.regs.master) := by
  obtain ⟨hslave, hopen⟩ := (waiting_slave h).1 hw
  rw [mem_master_offered hidle hc, if_pos rfl]
  refine ⟨Option.isSome_iff_ne_none.2 fun hnone => ?_, hopen⟩
  have hempty := Nested.first_eq_none_iff.1 hnone
  have hmem := (mem_slave_offered hidle).2 hslave
  rw [hempty] at hmem
  exact absurd hmem (Finset.notMem_empty _)

/-- A line of the master that waits is offered under its own number. -/
theorem master_offered (hidle : s.Idle) (hc : cascade ∉ s.master.requested) (h : irq.val < 8)
    (hw : s.Waiting irq) :
    ⟨irq, h⟩ ∈ s.masterInput.offered (unmasked s.regs.master) := by
  obtain ⟨hreq, hopen⟩ := (waiting_master h).1 hw
  have hne : (⟨irq, h⟩ : Fin 8) ≠ cascade := fun heq => hc (heq ▸ hreq)
  rw [mem_master_offered hidle hc, if_neg hne]
  exact ⟨hreq, hopen⟩

theorem rank_of_slave (h : ¬ irq.val < 8) : rank irq = irq.val - 6 := by
  rw [rank, if_neg (by omega), if_neg h]

theorem rank_of_master (h : irq.val < 8) :
    rank irq = if irq.val < 2 then irq.val else irq.val + 8 := by
  rw [rank, if_pos h]

/-- What the slave offers does not depend on the master. -/
theorem slaveFirst_congr {t : I8259Lines} (hslave : t.slave = s.slave)
    (hregs : t.regs.slave = s.regs.slave) : t.slaveFirst = s.slaveFirst := by
  unfold slaveFirst
  rw [hslave, hregs]

theorem acknowledgeSlave_of_some (h : s.slaveFirst = some j) :
    s.acknowledgeSlave = ({ s with master := s.master.take cascade, slave := s.slave.take j },
      vectorOf s.regs.slave j) := by
  have hsame : slaveFirst { s with master := s.master.take cascade } = s.slaveFirst :=
    slaveFirst_congr rfl rfl
  rw [acknowledgeSlave]
  dsimp only
  rw [hsame, h]

theorem acknowledgeSlave_of_none (h : s.slaveFirst = none) :
    s.acknowledgeSlave =
      ({ s with master := s.master.take cascade }, vectorOf s.regs.slave 7) := by
  have hsame : slaveFirst { s with master := s.master.take cascade } = s.slaveFirst :=
    slaveFirst_congr rfl rfl
  rw [acknowledgeSlave]
  dsimp only
  rw [hsame, h]

theorem acknowledge_of_cascade (h : s.masterFirst = some cascade) :
    s.acknowledge = s.acknowledgeSlave := by
  rw [acknowledge, h, answer, if_pos rfl]

theorem acknowledge_of_master (h : s.masterFirst = some i) (hi : i ≠ cascade) :
    s.acknowledge = ({ s with master := s.master.take i }, vectorOf s.regs.master i) := by
  rw [acknowledge, h, answer, if_neg hi]

/-- **What an idle pair answers**: with the waiting line that comes first, or, if none waits, with
line 7 of the master, and then nothing is in service. -/
theorem acknowledge_cases (hidle : s.Idle) (hc : cascade ∉ s.master.requested) :
    (∃ irq, s.Waiting irq ∧ (∀ k, s.Waiting k → rank irq ≤ rank k) ∧
      s.acknowledge = (s.enter irq, s.vector irq)) ∨
    (∀ k, ¬ s.Waiting k) ∧ s.acknowledge = (s, vectorOf s.regs.master 7) := by
  cases hfirst : s.masterFirst with
  | none =>
    refine .inr ⟨fun k hk => ?_, by rw [acknowledge, hfirst]; rfl⟩
    have hempty := Nested.first_eq_none_iff.1 hfirst
    by_cases h : k.val < 8
    · exact absurd (master_offered hidle hc h hk) (by rw [hempty]; exact Finset.notMem_empty _)
    · exact absurd (cascade_offered hidle hc h hk) (by rw [hempty]; exact Finset.notMem_empty _)
  | some i =>
    obtain ⟨hmem, hle⟩ := Nested.first_eq_some_iff.1 hfirst
    obtain ⟨hreq, hopen⟩ := (mem_master_offered hidle hc).1 hmem
    have hslaveLe : ∀ k, s.Waiting k → ¬ k.val < 8 → i.val ≤ 2 := fun k hk h =>
      hle _ (cascade_offered hidle hc h hk)
    have hmasterLe : ∀ k, s.Waiting k → k.val < 8 → i.val ≤ k.val := fun k hk h =>
      hle _ (master_offered hidle hc h hk)
    by_cases hi : i = cascade
    · -- the slave's turn: of its lines the first one
      rw [if_pos hi] at hreq
      obtain ⟨j, hj⟩ := Option.isSome_iff_exists.1 hreq
      obtain ⟨hjmem, hjle⟩ := Nested.first_eq_some_iff.1 hj
      have hjreq := (mem_slave_offered hidle).1 hjmem
      obtain ⟨irq, hirq⟩ : ∃ irq : Fin 16, irq.val = j.val + 8 := ⟨⟨j + 8, by omega⟩, rfl⟩
      have hnot : ¬ irq.val < 8 := by omega
      have hsub : (⟨irq.val - 8, by omega⟩ : Fin 8) = j := Fin.ext (by simp [hirq])
      refine .inl ⟨irq, (waiting_slave hnot).2 ⟨by rw [hsub]; exact hjreq, hi ▸ hopen⟩,
        fun k hk => ?_, ?_⟩
      · rw [rank_of_slave hnot, hirq]
        by_cases h : k.val < 8
        · have hik := hmasterLe k hk h
          have hi2 : i.val = 2 := congrArg Fin.val hi
          rw [rank_of_master h]
          -- the line is not 2 itself, on which no device is
          have hne : k.val ≠ 2 := fun h2 => hc (by
            have hk2 : (⟨k.val, h⟩ : Fin 8) = cascade := Fin.ext h2
            rw [← hk2]
            exact ((waiting_master h).1 hk).1)
          rw [if_neg (by omega)]
          omega
        · have hjk : j.val ≤ k.val - 8 :=
            hjle _ ((mem_slave_offered hidle).2 ((waiting_slave h).1 hk).1)
          rw [rank_of_slave h]
          omega
      · rw [acknowledge_of_cascade (hi ▸ hfirst), acknowledgeSlave_of_some hj, enter, dif_neg hnot,
          vector, dif_neg hnot, hsub]
    · rw [if_neg hi] at hreq
      obtain ⟨irq, hirq⟩ : ∃ irq : Fin 16, irq.val = i.val := ⟨⟨i, by omega⟩, rfl⟩
      have hlt : irq.val < 8 := by omega
      have hsub : (⟨irq.val, hlt⟩ : Fin 8) = i := Fin.ext hirq
      have hne : i.val ≠ 2 := fun h2 => hi (Fin.ext h2)
      refine .inl ⟨irq, (waiting_master hlt).2 (by rw [hsub]; exact ⟨hreq, hopen⟩),
        fun k hk => ?_, ?_⟩
      · rw [rank_of_master hlt, hirq]
        by_cases h : k.val < 8
        · have hik := hmasterLe k hk h
          rw [rank_of_master h]
          split_ifs <;> omega
        · have hik := hslaveLe k hk h
          rw [rank_of_slave h, if_pos (by omega)]
          omega
      · rw [acknowledge_of_master hfirst hi, enter, dif_pos hlt, vector, dif_pos hlt, hsub]

/-! ### What changes the requests -/

theorem requested_master (h : irq.val < 8) :
    s.Requested irq ↔ ⟨irq, h⟩ ∈ s.master.requested := by
  rw [Requested, dif_pos h]

/-- A request adds its own line. -/
theorem requested_request (s : I8259Lines) (irq k : Fin 16) :
    (s.request irq).Requested k ↔ k = irq ∨ s.Requested k := by
  unfold request Requested
  by_cases hi : irq.val < 8 <;> by_cases hk : k.val < 8 <;>
    simp only [hi, hk, ↓reduceDIte, Finset.mem_insert, Fin.ext_iff]
  · have : k.val ≠ irq.val := by omega
    simp [this]
  · have : k.val ≠ irq.val := by omega
    simp [this]
  · refine or_congr_left ?_
    omega

/-- A request taken back removes its own line. -/
theorem requested_withdraw (s : I8259Lines) (irq k : Fin 16) :
    (s.withdraw irq).Requested k ↔ k ≠ irq ∧ s.Requested k := by
  unfold withdraw Requested
  by_cases hi : irq.val < 8 <;> by_cases hk : k.val < 8 <;>
    simp only [hi, hk, ↓reduceDIte, Finset.mem_erase, ne_eq, Fin.ext_iff]
  · have : k.val ≠ irq.val := by omega
    simp [this]
  · have : k.val ≠ irq.val := by omega
    simp [this]
  · refine and_congr_left fun _ => ?_
    omega

/-- An acknowledgement removes the line that goes into service. -/
theorem requested_enter (hc : cascade ∉ s.master.requested) (irq k : Fin 16) :
    (s.enter irq).Requested k ↔ k ≠ irq ∧ s.Requested k := by
  unfold enter Requested
  by_cases hi : irq.val < 8 <;> by_cases hk : k.val < 8 <;>
    simp only [hi, hk, ↓reduceDIte, Nested.take, Finset.mem_erase, ne_eq,
      Fin.ext_iff]
  · have : k.val ≠ irq.val := by omega
    simp [this]
  · have : k.val ≠ irq.val := by omega
    have hne : (⟨k.val, hk⟩ : Fin 8) ∈ s.master.requested → ¬ k.val = cascade.val :=
      fun hmem heq => hc (by rwa [show (⟨k.val, hk⟩ : Fin 8) = cascade from Fin.ext heq] at hmem)
    simp only [this, not_false_eq_true, true_and]
    exact ⟨And.right, fun hmem => ⟨hne hmem, hmem⟩⟩
  · refine and_congr_left fun _ => ?_
    omega

end I8259Lines

end Shiro
