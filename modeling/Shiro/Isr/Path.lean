import Shiro.Pic.Service
import Shiro.Tables.Idt

/-!
# The way of an interrupt

A line that a controller offers has to find its handler through four tables that different parts of
the kernel fill: the vectors of `PIC::Start`, the gates of `IDT::Start`, the segments of
`GDT::Start` and the numbers that the stubs push.  Here they meet.

* `Tables` : the memory with the tables of the kernel.
* `Irqs.Cause` : which line the processor gets from the controllers.
* `Irqs.serviced` : **every interrupt that the processor acknowledges** enters its own stub, is seen
  by `ISR::Handler` with its number and the interrupted context, and is ended at the controllers.
-/

namespace Shiro

open Ia32 Pic I8259Lines

/-- Where the tables of the kernel are, and where the linker has put its code. -/
structure Tables where
  gdt : ℕ
  idt : ℕ
  image : Isr.Image
  gdt_fits : gdt + Gdt.entrySize * Gdt.count ≤ 2 ^ 32
  idt_fits : idt + Idt.entrySize * Idt.count ≤ 2 ^ 32
  apart : Idt.Apart gdt idt

namespace Tables

/-- The memory behind `GDT::Start` and `IDT::Start`. -/
def start (T : Tables) (m : Mem) : Mem := Idt.start (Gdt.start m T.gdt) T.idt T.image

/-- Where a vector leads in a memory that still holds the tables. -/
def interrupt (T : Tables) (m : Mem) (v : UInt32) : Except Fault Target :=
  Ia32.interrupt m (Gdt.ptr T.gdt) (Idt.ptr T.idt) v.toNat

end Tables

namespace Irqs

variable {s s₁ : Irqs}

/-- The number that the processor gets with an event is that of a line: of a waiting line; of line 7
when none waits; of line 15 when the slave is asked and has none that waits. -/
inductive Cause (s : Irqs) : Fin 16 → Irq → Prop
  | waiting {irq : Fin 16} : s.pics.Waiting irq → Cause s irq .interrupt
  | spurious : (∀ k, ¬ s.pics.Waiting k) → Cause s 7 .interrupt
  | late : (∀ k, 8 ≤ k.val → ¬ s.pics.Waiting k) → Cause s 15 .late

/-- An interrupt on its way from the controllers, in the context `c`, and back to them. -/
structure Serviced (T : Tables) (m : Mem) (c : Ia32.Cpu) (e : Irq) (s s₁ s₂ : Irqs)
    (irq : Fin 16) : Prop where
  acknowledged : s.step e = some s₁
  cause : s.Cause irq e
  number : s₁.handling = some (intNo irq)
  vector : T.interrupt (T.start m) (intNo irq) =
    .ok ⟨0x08, (T.image.isr (intNo irq)).toNat, true⟩
  context : Isr.Faithful c (intNo irq) none
    (Isr.argument (Isr.enter T.image (intNo irq) none c))
  handled : s₁.step (.handler (Isr.argument (Isr.enter T.image (intNo irq) none c))) = some s₂
  ended : s₂.handling = none ∧ s₂.pics.Idle

theorem intNo_lt : ∀ irq, (intNo irq).toNat < Idt.vectors ∧
    UInt32.ofNat (intNo irq).toNat = intNo irq := by
  decide

/-- **What the processor gets**: it can ask for an interrupt whenever no handler runs. -/
theorem Served.cause_interrupt (h : s.Served) (hno : s.handling = none) :
    ∃ irq s₁, s.step .interrupt = some s₁ ∧ s.Cause irq .interrupt ∧
      s₁.handling = some (intNo irq) := by
  rcases h.interrupt hno with ⟨irq, hw, -, heq⟩ | ⟨hnone, heq⟩
  · exact ⟨irq, _, heq, .waiting hw, rfl⟩
  · exact ⟨7, _, heq, .spurious hnone, rfl⟩

/-- A slave that offers no line has none that waits. -/
theorem Served.cause_late (h : s.Served) (hst : s.step .late = some s₁) :
    s.Cause 15 .late ∧ s₁.handling = some (intNo 15) := by
  obtain ⟨⟨hno, hnone⟩, heq⟩ := Option.ite_none_right_eq_some.1 hst
  rw [acknowledgeSlave_of_none hnone] at heq
  cases heq
  refine ⟨.late fun k hk hw => ?_, congrArg some (number_vector h 15)⟩
  have hoffered := (mem_slave_offered (h.idle hno)).2
    ((waiting_slave (Nat.not_lt.2 hk)).1 hw).1
  rw [Nested.first_eq_none_iff.1 hnone] at hoffered
  exact absurd hoffered (Finset.notMem_empty _)

/-- An acknowledged interrupt reaches its stub, its handler, and its end. -/
theorem Served.serviced_of_cause (h : s.Served) {e : Irq} {irq : Fin 16} (hst : s.step e = some s₁)
    (hcause : s.Cause irq e) (hnum : s₁.handling = some (intNo irq)) (T : Tables) (m : Mem)
    (c : Ia32.Cpu) : ∃ s₂, Serviced T m c e s s₁ s₂ irq := by
  have hcontext := Isr.argument_enter_none T.image (intNo irq) c
  -- the handler reads the number that the stub has pushed
  have hhandler := step_handler (hnum.trans (congrArg some hcontext.intNo.symm))
  have hidle := ((h.step hst).step hhandler).idle rfl
  obtain ⟨hlt, hnat⟩ := intNo_lt irq
  refine ⟨_, hst, hcause, hnum, ?_, hcontext, hhandler, rfl, hidle⟩
  have hvector := Idt.interrupt_of_eqOn (v := (intNo irq).toNat) T.gdt_fits T.idt_fits T.apart
    (EqOn.refl (T.start m) _ _) (EqOn.refl _ _ _) (hlt.trans (by decide))
  rw [if_pos hlt, hnat] at hvector
  exact hvector

/-- **Every interrupt that the processor acknowledges is serviced**: by the stub of its own line, by
that of line 7 when no line waits, or by that of line 15 when the slave finds its request gone. -/
theorem serviced (hs : lts.Reachable s) (hno : s.handling = none) (T : Tables) (m : Mem)
    (c : Ia32.Cpu) :
    (∃ irq s₁ s₂, Serviced T m c .interrupt s s₁ s₂ irq) ∧
      ∀ s₁, s.step .late = some s₁ → ∃ s₂, Serviced T m c .late s s₁ s₂ 15 := by
  have hserved := served_of_reachable hs
  refine ⟨?_, fun s₁ hst => ?_⟩
  · obtain ⟨irq, s₁, hst, hcause, hnum⟩ := hserved.cause_interrupt hno
    exact ⟨irq, s₁, hserved.serviced_of_cause hst hcause hnum T m c⟩
  · obtain ⟨hcause, hnum⟩ := hserved.cause_late hst
    exact hserved.serviced_of_cause hst hcause hnum T m c

/-- Tables from 2 MiB on. -/
def lowTables : Tables where
  gdt := 0x200000
  idt := 0x200100
  image := Isr.lowImage
  gdt_fits := by decide
  idt_fits := by decide
  apart := .inl (by decide)

/-- A key. -/
theorem serviced_key : ∃ s irq s₁ s₂, s.pics.Waiting 1 ∧
    Serviced lowTables (fun _ => 0) Isr.kernelCpu .interrupt s s₁ s₂ irq := by
  obtain ⟨s, hs, h⟩ : ∃ s, lts.Reachable s ∧
      (decide (s.pics.Waiting 1) && decide (s.handling = none)) = true :=
    Lts.exists_reachable_det (f := step) rfl keyPressed_init keyPressed _ (by decide +kernel)
  simp only [Bool.and_eq_true, decide_eq_true_eq] at h
  obtain ⟨⟨irq, s₁, s₂, hserviced⟩, -⟩ :=
    serviced hs h.2 lowTables (fun _ => 0) Isr.kernelCpu
  exact ⟨s, irq, s₁, s₂, h.1, hserviced⟩

end Irqs

end Shiro
