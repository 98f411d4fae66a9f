import Shiro.Lib.Ia32

/-!
# The interrupt stubs

An exception or an interrupt enters `isrN`, which pushes a zero for the error code and the vector,
and `isr_common_stub`, which pushes the registers and calls `isr_handler`.  `ISR::Handler` reads
what lies on the stack as a `registers_t`.  For some exceptions the CPU has pushed an error code of
its own, and then every field behind `err_code` is read one word too low.

* `isrNoErrcode`, `commonEntry`, `commonExit` : the stubs.
* `Registers`, `Isr.handler` : what the handler reads, and what it does.
* `top_enter` : **the words on the stack** when the handler is called.
* `faithful_iff` : **the handler sees the interrupted context** exactly for the vectors without an
  error code.
-/

namespace Shiro

open Ia32

/-- `registers_t`. -/
structure Registers where
  ds : UInt32
  edi : UInt32
  esi : UInt32
  ebp : UInt32
  esp : UInt32
  ebx : UInt32
  edx : UInt32
  ecx : UInt32
  eax : UInt32
  intNo : UInt32
  errCode : UInt32
  eip : UInt32
  cs : UInt32
  eflags : UInt32
  useresp : UInt32
  ss : UInt32
  deriving DecidableEq

namespace Isr

/-- The structure at an address. -/
def registersAt (m : Mem) (a : UInt32) : Registers where
  ds := load m a
  edi := load m (a + 4)
  esi := load m (a + 8)
  ebp := load m (a + 12)
  esp := load m (a + 16)
  ebx := load m (a + 20)
  edx := load m (a + 24)
  ecx := load m (a + 28)
  eax := load m (a + 32)
  intNo := load m (a + 36)
  errCode := load m (a + 40)
  eip := load m (a + 44)
  cs := load m (a + 48)
  eflags := load m (a + 52)
  useresp := load m (a + 56)
  ss := load m (a + 60)

/-! ### The code -/

/-- Where the linker has put the code. -/
structure Image where
  /-- `isr0`, `isr1`, … -/
  isr : UInt32 → UInt32
  isrCommonStub : UInt32
  isrHandler : UInt32
  /-- The instruction behind `call isr_handler`. -/
  behindCall : UInt32

/-- The kernel's code segment, the selector of every gate. -/
def kernelCode : UInt16 := 0x08

/-- `ISR_NOERRCODE v` -/
def isrNoErrcode (im : Image) (v : UInt32) : List Instr :=
  [.cli, .pushImm 0, .pushImm v, .jmp im.isrCommonStub]

/-- `isr_common_stub`, up to the call. -/
def commonEntry (im : Image) : List Instr :=
  [.pusha, .movFromSeg .eax .ds, .push .eax, .movLow .eax 0x10, .movToSeg .ds .eax,
    .movToSeg .es .eax, .movToSeg .fs .eax, .movToSeg .gs .eax, .call im.isrHandler im.behindCall]

/-- `isr_common_stub`, behind the call. -/
def commonExit : List Instr :=
  [.pop .eax, .movToSeg .ds .eax, .movToSeg .es .eax, .movToSeg .fs .eax, .movToSeg .gs .eax,
    .popa, .addImm .esp 8, .sti, .iret]

/-- From the interrupted instruction to the handler, where the CPU has pushed `error`. -/
def enter (im : Image) (v : UInt32) (error : Option UInt32) (c : Cpu) : Cpu :=
  run (deliver c kernelCode (im.isr v) error) (isrNoErrcode im v ++ commonEntry im)

/-- What `ISR::Handler` does. -/
inductive Action where
  /-- `Panic::Trigger(regs)` -/
  | trigger (regs : Registers)
  /-- `Timer::Handler()` -/
  | timer
  /-- `Keyboard::Handler()` -/
  | keyboard
  /-- `PIC::EndOfInterrupt(irq)` -/
  | endOfInterrupt (irq : UInt8)
  /-- `outb(0x20, 0x20)` -/
  | ack
  deriving DecidableEq

/-- `ISR::Handler(regs)` -/
def handler (regs : Registers) : List Action :=
  if regs.intNo < 32 then [.trigger regs]
  else if regs.intNo ≤ 47 then
    let irq := (regs.intNo - 32).toUInt8
    (if irq = 0 then [.timer] else if irq = 1 then [.keyboard] else []) ++ [.endOfInterrupt irq]
  else [.ack]

/-- The argument of `isr_handler`, above its return address. -/
def argument (c : Cpu) : Registers := registersAt c.mem (c.regs .esp + 4)

/-- The exceptions for which the CPU pushes an error code. -/
def PushesError (v : UInt32) : Prop := v = 8 ∨ 10 ≤ v ∧ v ≤ 14 ∨ v = 17 ∨ v = 21

instance (v : UInt32) : Decidable (PushesError v) := inferInstanceAs (Decidable (_ ∨ _))

/-- The error code `e`, if the CPU pushes one. -/
def errorCode (v e : UInt32) : Option UInt32 := if PushesError v then some e else none

/-- The structure describes the exception `v` in the context `c`.  The stack pointer is the one that
`pusha` finds, below the five words pushed before. -/
structure Faithful (c : Cpu) (v : UInt32) (error : Option UInt32) (r : Registers) : Prop where
  intNo : r.intNo = v
  eip : r.eip = c.eip
  cs : r.cs = (c.segs .cs).toUInt32
  eflags : r.eflags = c.eflags
  eax : r.eax = c.regs .eax
  ecx : r.ecx = c.regs .ecx
  edx : r.edx = c.regs .edx
  ebx : r.ebx = c.regs .ebx
  esp : r.esp + 20 = c.regs .esp
  ebp : r.ebp = c.regs .ebp
  esi : r.esi = c.regs .esi
  edi : r.edi = c.regs .edi
  errCode : r.errCode = error.getD 0

/-! ### The words on the stack -/

variable {c : Cpu} {v e : UInt32} {im : Image} {error : Option UInt32}

/-- The stubs push a zero, the vector, the registers, `ds` and a return address. -/
def pushed (im : Image) (v : UInt32) (c : Cpu) : Cpu :=
  ((exec ((c.push 0).push v) .pusha).push (withLow (c.regs .eax) (c.segs .ds))).push im.behindCall

theorem run_entry (im : Image) (v : UInt32) (c : Cpu) :
    (run c (isrNoErrcode im v ++ commonEntry im)).mem = (pushed im v c).mem ∧
      (run c (isrNoErrcode im v ++ commonEntry im)).regs .esp = (pushed im v c).regs .esp := by
  constructor <;>
    simp [run, isrNoErrcode, commonEntry, pushed, exec, Cpu.push, Cpu.setReg, Cpu.setSeg]

/-- The CPU changes neither a register but `esp` nor `ds`. -/
theorem deliver_regs (c : Cpu) (selector : UInt16) (offset : UInt32) (error : Option UInt32)
    {r : Reg} (hr : r ≠ .esp) : (deliver c selector offset error).regs r = c.regs r := by
  cases error <;> simp [deliver, hr]

theorem deliver_ds (c : Cpu) (selector : UInt16) (offset : UInt32) (error : Option UInt32) :
    (deliver c selector offset error).segs .ds = c.segs .ds := by
  cases error <;> simp [deliver, Cpu.setSeg]

theorem deliver_esp (c : Cpu) (selector : UInt16) (offset : UInt32) (error : Option UInt32) :
    (deliver c selector offset error).regs .esp =
      if error.isSome then c.regs .esp - 16 else c.regs .esp - 12 := by
  cases error <;> simp [deliver] <;> grind

/-- **The words on the stack** when `isr_handler` is called, on top of those of the interrupted
code. -/
theorem top_enter_append (im : Image) (v : UInt32) (error : Option UInt32) {ws : List UInt32}
    (h : c.Top ws) (hlen : ws.length ≤ 8) :
    (enter im v error c).Top
      (im.behindCall :: withLow (c.regs .eax) (c.segs .ds) :: c.regs .edi :: c.regs .esi ::
        c.regs .ebp :: ((deliver c kernelCode (im.isr v) error).regs .esp - 4 - 4) ::
        c.regs .ebx :: c.regs .edx :: c.regs .ecx :: c.regs .eax :: v :: 0 ::
        (error.toList ++ c.eip :: (c.segs .cs).toUInt32 :: c.eflags :: ws)) := by
  have hdeliver := h.deliver (by omega) kernelCode (im.isr v) error
  have hregs : ∀ r ≠ Reg.esp, (deliver c kernelCode (im.isr v) error).regs r = c.regs r :=
    fun r hr => deliver_regs c _ _ error hr
  have hds := deliver_ds c kernelCode (im.isr v) error
  have hwords : (error.toList ++ c.eip :: (c.segs .cs).toUInt32 :: c.eflags :: ws).length ≤ 12 := by
    have herror : error.toList.length ≤ 1 := by cases error <;> simp
    simp only [List.length_append, List.length_cons]
    omega
  rw [enter, Cpu.Top, (run_entry im v _).1, (run_entry im v _).2]
  -- what the CPU pushed stays below what the stubs push, whatever it is
  generalize error.toList ++ c.eip :: (c.segs .cs).toUInt32 :: c.eflags :: ws = frame at *
  generalize deliver c kernelCode (im.isr v) error = c₁ at *
  have hstub := (hdeliver.push (by omega) 0).push (by simp only [List.length_cons]; omega) v
  have hpusha := hstub.pusha (by simp only [List.length_cons]; omega)
  have hdata := hpusha.push (by simp only [List.length_cons]; omega)
    (withLow (c₁.regs .eax) (c₁.segs .ds))
  have hcall : (pushed im v c₁).Top _ :=
    hdata.push (by simp only [List.length_cons]; omega) im.behindCall
  simp only [Cpu.push_of_ne, Cpu.push_esp, hregs, hds, ne_eq, reduceCtorEq, not_false_eq_true]
    at hcall
  exact hcall

theorem top_enter (im : Image) (v : UInt32) (error : Option UInt32) (c : Cpu) :
    (enter im v error c).Top
      (im.behindCall :: withLow (c.regs .eax) (c.segs .ds) :: c.regs .edi :: c.regs .esi ::
        c.regs .ebp :: ((deliver c kernelCode (im.isr v) error).regs .esp - 4 - 4) ::
        c.regs .ebx :: c.regs .edx :: c.regs .ecx :: c.regs .eax :: v :: 0 ::
        (error.toList ++ [c.eip, (c.segs .cs).toUInt32, c.eflags])) :=
  top_enter_append im v error c.top_nil (Nat.zero_le _)

/-! ### What the handler sees -/

/-- The fields of the structure are the words above the return address. -/
theorem argument_of_top {ret ds edi esi ebp esp ebx edx ecx eax intNo errCode eip cs eflags : UInt32}
    {ws : List UInt32}
    (h : c.Top (ret :: ds :: edi :: esi :: ebp :: esp :: ebx :: edx :: ecx :: eax :: intNo ::
      errCode :: eip :: cs :: eflags :: ws)) :
    argument c = { argument c with
      ds := ds, edi := edi, esi := esi, ebp := ebp, esp := esp, ebx := ebx, edx := edx, ecx := ecx,
      eax := eax, intNo := intNo, errCode := errCode, eip := eip, cs := cs, eflags := eflags } := by
  simp only [Cpu.Top, words_cons, UInt32.add_assoc, UInt32.reduceAdd] at h
  simp only [argument, registersAt, UInt32.add_assoc, UInt32.reduceAdd, h]

theorem handler_exception {r : Registers} (h : r.intNo < 32) : handler r = [.trigger r] := if_pos h

theorem handler_argument {regs r : Registers} (h : regs.intNo < 32) :
    handler regs = [.trigger r] ↔ r = regs := by
  rw [handler_exception h, List.cons.injEq, Action.trigger.injEq, eq_comm]
  exact and_iff_left rfl

/-- **The stack pointer in the structure** is the one that `pusha` finds, below the words pushed
since the interruption. -/
theorem argument_esp (im : Image) (v : UInt32) (error : Option UInt32) (c : Cpu) :
    (argument (enter im v error c)).esp = c.regs .esp - if error.isSome then 24 else 20 := by
  have hfield : (argument (enter im v error c)).esp =
      (deliver c kernelCode (im.isr v) error).regs .esp - 4 - 4 := by
    have htop := top_enter im v error c
    cases error <;> rw [argument_of_top htop]
  rw [hfield, deliver_esp]
  split <;> grind

/-- It is never that of the interrupted code. -/
theorem argument_esp_ne (im : Image) (v : UInt32) (error : Option UInt32) (c : Cpu) :
    (argument (enter im v error c)).esp ≠ c.regs .esp := by
  rw [argument_esp]
  split <;> grind

/-- Without an error code every field is in its place. -/
theorem argument_enter_none (im : Image) (v : UInt32) (c : Cpu) :
    Faithful c v none (argument (enter im v none c)) := by
  have hesp : (argument (enter im v none c)).esp = c.regs .esp - 20 := argument_esp im v none c
  rw [argument_of_top (top_enter im v none c)] at hesp ⊢
  exact ⟨rfl, rfl, rfl, rfl, rfl, rfl, rfl, rfl, by rw [hesp]; grind, rfl, rfl, rfl, rfl⟩

/-- With an error code the fields behind `err_code` are those of the word below. -/
theorem argument_enter_some (im : Image) (v e : UInt32) (c : Cpu) :
    (argument (enter im v (some e) c)).intNo = v ∧ (argument (enter im v (some e) c)).errCode = 0 ∧
      (argument (enter im v (some e) c)).eip = e ∧ (argument (enter im v (some e) c)).cs = c.eip ∧
      (argument (enter im v (some e) c)).eflags = (c.segs .cs).toUInt32 ∧
      (argument (enter im v (some e) c)).esp + 20 ≠ c.regs .esp := by
  have hesp : (argument (enter im v (some e) c)).esp = c.regs .esp - 24 :=
    argument_esp im v (some e) c
  rw [argument_of_top (top_enter im v (some e) c)] at hesp ⊢
  exact ⟨rfl, rfl, rfl, rfl, rfl, by rw [hesp]; grind⟩

/-- **`Panic::Trigger` sees the interrupted context** exactly for the exceptions without an error
code: the stubs push a zero in its place for every vector. -/
theorem faithful_iff (im : Image) (c : Cpu) (v e : UInt32) (hv : v ≤ 21) :
    (∃ r, handler (argument (enter im v (errorCode v e) c)) = [.trigger r] ∧
      Faithful c v (errorCode v e) r) ↔ ¬ PushesError v := by
  have hlt : v < 32 := UInt32.lt_of_le_of_lt hv (show (21 : UInt32) < 32 by decide)
  by_cases hp : PushesError v
  · rw [errorCode, if_pos hp]
    obtain ⟨hno, -, -, -, -, hesp⟩ := argument_enter_some im v e c
    refine iff_of_false ?_ (not_not.2 hp)
    rintro ⟨r, hr, hf⟩
    rw [← hno] at hlt
    rw [(handler_argument hlt).1 hr] at hf
    exact hesp hf.esp
  · rw [errorCode, if_neg hp]
    have hf := argument_enter_none im v c
    rw [← hf.intNo] at hlt
    exact iff_of_true ⟨_, handler_exception hlt, hf⟩ hp

/-- An image with its code from 1 MiB on. -/
def lowImage : Image := ⟨fun v => 0x100000 + 16 * v, 0x100400, 0x100500, 0x100420⟩

/-- The kernel in some code of its own. -/
def kernelCpu : Cpu :=
  ⟨fun _ => 0x8000, fun s => if s = .cs then 0x08 else 0x10, 0x101000, 0x202, fun _ => 0⟩

/-- A division by zero. -/
theorem faithful_divide :
    ∃ r, handler (argument (enter lowImage 0 (errorCode 0 0) kernelCpu)) = [.trigger r] ∧
      Faithful kernelCpu 0 (errorCode 0 0) r :=
  (faithful_iff lowImage kernelCpu 0 0 (by decide)).2 (by decide)

/-- A page fault: the handler gets the error code for `eip`, and zero for the error code. -/
theorem not_faithful_pageFault : ¬ ∀ im c (v e : UInt32), v ≤ 21 →
    ∃ r, handler (argument (enter im v (errorCode v e) c)) = [.trigger r] ∧
      Faithful c v (errorCode v e) r := by
  intro hall
  obtain ⟨r, hr, hf⟩ := hall lowImage kernelCpu 14 2 (by decide)
  obtain ⟨hno, herr, -⟩ := argument_enter_some lowImage 14 2 kernelCpu
  have hcode : errorCode 14 2 = some 2 := by decide
  rw [hcode] at hr hf
  have hlt : (argument (enter lowImage 14 (some 2) kernelCpu)).intNo < 32 := by
    rw [hno]
    decide
  have hzero := hf.errCode
  rw [(handler_argument hlt).1 hr, herr] at hzero
  exact absurd hzero (by decide)

end Isr

end Shiro
