import Mathlib.Data.Nat.Notation

/-!
# The interrupt controller 8259A

A chip has a command port and a data port.  A command with bit 4 set (ICW1) clears the mask
register and starts the initialisation: the next bytes on the data port are the words it announced.
After these a byte on the data port (OCW1) is the new mask.  Two chips work as a pair: the slave's
output is input 2 of the master.

* `I8259.command`, `I8259.data` : what a byte on the ports does.
* `I8259.initialise_eq` : **an initialisation with four words** from any state.
* `I8259Pair.masked`, `I8259Pair.Delivers` : the lines of a pair, and which of them get through.
-/

namespace Shiro

/-- The words of the initialisation that follow the first. -/
inductive InitWord where
  | icw2
  | icw3
  | icw4
  deriving DecidableEq

/-- A chip: its mask register, the number of its first vector, and the words it still expects. -/
structure I8259 where
  imr : BitVec 8
  vector : BitVec 8
  expects : List InitWord

namespace I8259

/-- A byte on the command port: ICW1, or a command that changes none of this. -/
def command (c : I8259) (v : BitVec 8) : I8259 :=
  if v.getLsbD 4 then
    { c with
      imr := 0
      -- bit 1 says that there is no second chip, bit 0 that ICW4 follows
      expects := .icw2 :: ((if v.getLsbD 1 then [] else [.icw3]) ++
        if v.getLsbD 0 then [.icw4] else []) }
  else c

/-- A byte on the data port: the word the chip expects, or the new mask. -/
def data (c : I8259) (v : BitVec 8) : I8259 :=
  match c.expects with
  | [] => { c with imr := v }
  | .icw2 :: ws => { c with vector := v, expects := ws }
  | _ :: ws => { c with expects := ws }

variable {c : I8259}

theorem data_of_ready (hc : c.expects = []) (v : BitVec 8) : c.data v = { c with imr := v } := by
  rw [data, hc]

/-- **The initialisation with four words, followed by a mask**, from any state of the chip. -/
theorem initialise_eq (c : I8259) (vector cascade mode mask : BitVec 8) :
    ((((c.command 0x11).data vector).data cascade).data mode).data mask = ⟨mask, vector, []⟩ := rfl

end I8259

/-- Two chips, the output of the slave at input 2 of the master. -/
structure I8259Pair where
  master : I8259
  slave : I8259

namespace I8259Pair

/-- The bit of the line `irq` in the mask register of its chip. -/
def masked (p : I8259Pair) (irq : ℕ) : Bool :=
  if irq < 8 then p.master.imr.getLsbD irq else p.slave.imr.getLsbD (irq - 8)

/-- The line `irq` gets through to the processor. -/
def Delivers (p : I8259Pair) (irq : ℕ) : Prop :=
  p.masked irq = false ∧ (8 ≤ irq → p.masked 2 = false)

/-- Both chips are initialised. -/
structure Ready (p : I8259Pair) : Prop where
  master : p.master.expects = []
  slave : p.slave.expects = []

instance (p : I8259Pair) (irq : ℕ) : Decidable (p.Delivers irq) :=
  inferInstanceAs (Decidable (_ ∧ _))

end I8259Pair

end Shiro
