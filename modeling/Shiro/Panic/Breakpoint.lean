import Shiro.Isr.Path
import Shiro.Panic.Fault
import Shiro.Shell.Session

/-!
# The command `panic`

`panic` prints a line and executes `int $0x03`.  The vector leads through its gate and the kernel's
code segment to its stub, and `ISR::Handler` calls `Panic::Trigger`.  What the command has printed
is never drawn, and of what was drawn before nothing is left.

* `Panic.Breaks` : the calls of the shell, and the way from the instruction to the panic screen.
* `breaks_panic` : **every line that runs `panic`** ends there.
-/

namespace Shiro

open Ia32 Drawing

variable {E : Type*}

namespace Panic

/-- `Dispatch(line)` prints its message and executes `int $0x03`, where `c` is the processor with
`eip` behind that instruction.  It runs in the kernel, so the privilege of the gate does not
matter. -/
structure Breaks (T : Tables) (s : Shell) (cs : List Shell.Call) (c : Ia32.Cpu) (r : Registers)
    (f : ℕ → UInt16) : Prop where
  /-- The message goes to the terminal. -/
  printed : cs = [.writeC (text "Triggering test panic via INT3 (breakpoint)...") false]
  /-- It is not drawn. -/
  undrawn : (cs.foldl Shell.call s).screen = s.screen
  vector : T.interrupt c.mem 3 = .ok ⟨0x08, (T.image.isr 3).toNat, true⟩
  handled : Isr.handler (Isr.argument (Isr.enter T.image 3 none c)) = [.trigger r]
  /-- What the screen shows in the end. -/
  heading : textOf f 160 26 = text "  Exception #3: Breakpoint"
  tells : Tells f 3 none c
  /-- Nothing of the shell is left on it. -/
  colour : ∀ i < size, f i >>> 8 = panicAttr.toUInt16

variable {T : Tables} {s : Shell} {k : Readings E} {line args : List UInt8} {cs : List Shell.Call}
  {c : Ia32.Cpu} {m : Mem}

/-- **Every line that runs `panic`** ends with the panic screen, whatever its arguments and whatever
was on the screen, while the tables are those of `GDT::Start` and `IDT::Start`. -/
theorem breaks_panic {lit : ℤ → UInt8} (hlit : HoldsLiteral lit) (vs : List Int32)
    (hline : dispatch line = .run .panic args) (hcs : s.Calls k line cs)
    (hsegments : EqOn (T.start m) c.mem T.gdt (T.gdt + Gdt.entrySize * Gdt.count))
    (hgates : EqOn (T.start m) c.mem T.idt (T.idt + Idt.entrySize * Idt.count))
    (hc : Beside (c.regs .esp)) (cr2 : UInt32) :
    ∃ r, Breaks T s cs c r
      (cells screen size (trigger lit vs r cr2 (Isr.enter T.image 3 none c).mem).2) := by
  obtain ⟨r, hr, -, htells, hcolour⟩ :=
    trigger_enter (v := 3) hlit vs T.image (by decide) none hc cr2
  have hundrawn := Shell.screen_of_calls hcs
  refine ⟨r, ?_, hundrawn, ?_, hr, ?_, htells, hcolour⟩
  · unfold Shell.Calls at hcs
    rw [hline] at hcs
    obtain ⟨strs, hstrs, rfl⟩ := hcs
    rw [Commands.response, hline] at hstrs
    obtain ⟨data, rest, hdata, hrest, rfl⟩ := List.forall₂_cons_left_iff.1 hstrs
    rw [List.forall₂_nil_left_iff.1 hrest]
    exact congrArg (fun data => [Shell.Call.writeC data false]) (hdata.trans (by decide +kernel))
  · have hvector := Idt.interrupt_of_eqOn (v := 3) T.gdt_fits T.idt_fits T.apart hsegments hgates
      (by decide)
    rwa [if_pos (by decide)] at hvector
  · exact htells.exception

/-- The kernel with its tables in memory. -/
def loadedCpu : Ia32.Cpu := { Isr.kernelCpu with mem := Irqs.lowTables.start fun _ => 0 }

/-- `panic now` is dispatched. -/
theorem breaks_panic_now : ∃ cs r,
    Shell.freshShell.Calls Commands.noReadings (text "panic now") cs ∧
    Breaks Irqs.lowTables Shell.freshShell cs loadedCpu r (cells screen size
      (trigger literalAlone [] r 0 (Isr.enter Irqs.lowTables.image 3 none loadedCpu).mem).2) := by
  obtain ⟨cs, hcs⟩ := Shell.exists_calls Shell.freshShell Commands.noReadings (text "panic now")
    (by decide)
  have hline : dispatch (text "panic now") = .run .panic (text "now") := by decide +kernel
  obtain ⟨r, hr⟩ := breaks_panic (T := Irqs.lowTables) (m := fun _ => 0) (c := loadedCpu)
    holdsLiteral_literalAlone [] hline hcs (EqOn.refl _ _ _) (EqOn.refl _ _ _)
    (by unfold Beside; decide +kernel) 0
  exact ⟨cs, r, hcs, hr⟩

end Panic

end Shiro
