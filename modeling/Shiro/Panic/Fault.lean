import Shiro.Panic.Shows

/-!
# From an exception to the screen

The stubs push a zero for the error code even where the CPU has pushed one, so `Trigger` finds the
words of the frame one place too low.  The snapshot of the stack does not depend on that: it begins
at the saved `esp`, which `pusha` has found on the number of the exception, below all that has been
pushed since the interruption.

* `Panic.frame` : the words that the stubs and the CPU have left there.
* `Panic.tells_exception` : **for every exception**, the snapshot shows the frame as it is, while
  `ERR` is zero, `EIP` is the error code if there is one, and a page fault always has the same cause.
-/

namespace Shiro

namespace Panic

open Ia32 Drawing

/-- The frame of an exception from its number on, and the words of the interrupted code. -/
def frame (v : UInt32) (error : Option UInt32) (c : Ia32.Cpu) : List UInt32 :=
  v :: 0 :: (error.toList ++
    [c.eip, (c.segs .cs).toUInt32, c.eflags, c.top 0, c.top 1, c.top 2])

/-- The stack pointer is not near the screen. -/
def Beside (esp : UInt32) : Prop :=
  ∀ k < 64, u32 ((esp - 32).toNat + k) < screen ∨ screen + 2 * size ≤ u32 ((esp - 32).toNat + k)

/-- What the screen tells about the exception `v` in the context `c`. -/
structure Tells (f : ℕ → UInt16) (v : UInt32) (error : Option UInt32) (c : Ia32.Cpu) : Prop where
  exception : textOf f 160 (heading v).length = heading v
  eax : hexOf f 4 6 = (c.regs .eax).toNat
  ebx : hexOf f 4 26 = (c.regs .ebx).toNat
  ecx : hexOf f 4 46 = (c.regs .ecx).toNat
  edx : hexOf f 4 66 = (c.regs .edx).toNat
  esi : hexOf f 5 6 = (c.regs .esi).toNat
  edi : hexOf f 5 26 = (c.regs .edi).toNat
  ebp : hexOf f 5 46 = (c.regs .ebp).toNat
  /-- Not the `esp` of the interrupted code: five or six words have been pushed. -/
  esp : hexOf f 5 66 = (c.regs .esp - if error.isSome then 24 else 20).toNat
  eip : hexOf f 7 6 = (error.getD c.eip).toNat
  eflags : hexOf f 7 29 = (if error.isSome then (c.segs .cs).toUInt32 else c.eflags).toNat
  errCode : hexOf f 7 49 = 0
  cause : v = 14 → textOf f 802 46 = text "Cause: page-not-present on read in kernel-mode"
  stack : ∀ i < 8, hexOf f (13 + i) 23 = ((frame v error c).getD i 0).toNat

variable {im : Isr.Image} {v : UInt32} {error : Option UInt32} {c : Ia32.Cpu}

/-! ### The argument of the handler -/

theorem esp_enter (im : Isr.Image) (v : UInt32) (error : Option UInt32) (c : Ia32.Cpu) :
    (Isr.enter im v error c).regs .esp + 40 =
      (deliver c Isr.kernelCode (im.isr v) error).regs .esp - 4 - 4 := by
  rw [Isr.enter, (Isr.run_entry im v _).2]
  simp only [Isr.pushed, exec, Ia32.Cpu.push_esp]
  grind

/-- How far the stack has grown when `pusha` saves `esp`. -/
theorem esp_saved (im : Isr.Image) (v : UInt32) (error : Option UInt32) (c : Ia32.Cpu) :
    (Isr.enter im v error c).regs .esp + 40 =
      c.regs .esp - if error.isSome then 24 else 20 := by
  rw [esp_enter, Isr.deliver_esp]
  split <;> grind

/-- The fields that `Trigger` shows. -/
theorem argument_enter (im : Isr.Image) (v : UInt32) (error : Option UInt32) (c : Ia32.Cpu) :
    ∃ r, Isr.argument (Isr.enter im v error c) = r ∧ r.intNo = v ∧ r.errCode = 0 ∧
      r.eip = error.getD c.eip ∧
      r.eflags = (if error.isSome then (c.segs .cs).toUInt32 else c.eflags) ∧
      r.esp = (Isr.enter im v error c).regs .esp + 40 ∧
      r.eax = c.regs .eax ∧ r.ebx = c.regs .ebx ∧ r.ecx = c.regs .ecx ∧ r.edx = c.regs .edx ∧
      r.esi = c.regs .esi ∧ r.edi = c.regs .edi ∧ r.ebp = c.regs .ebp := by
  have htop := Isr.top_enter im v error c
  rw [esp_enter]
  cases error with
  | none =>
    exact ⟨_, Isr.argument_of_top htop, rfl, rfl, rfl, rfl, rfl, rfl, rfl, rfl, rfl, rfl, rfl, rfl⟩
  | some e =>
    exact ⟨_, Isr.argument_of_top htop, rfl, rfl, rfl, rfl, rfl, rfl, rfl, rfl, rfl, rfl, rfl, rfl⟩

/-- **The snapshot begins with the frame.** -/
theorem wordsAt_enter (im : Isr.Image) (v : UInt32) (error : Option UInt32) (c : Ia32.Cpu) {i : ℕ}
    (hi : i < 8) :
    wordsAt (Isr.enter im v error c).mem ((Isr.enter im v error c).regs .esp + 40) i =
      ((frame v error c).getD i 0).toNat := by
  have hstack : c.Top [c.top 0, c.top 1, c.top 2] := by
    simp [Ia32.Cpu.Top, Ia32.Cpu.top, UInt32.add_assoc]
  have htop := Isr.top_enter_append im v error hstack (by simp)
  have hframe : Words (Isr.enter im v error c).mem ((Isr.enter im v error c).regs .esp + 40)
      (frame v error c) := Words.of_append [_, _, _, _, _, _, _, _, _, _] htop
  have hlt : i < (frame v error c).length := by
    cases error with
    | none => exact hi
    | some e => exact hi.trans (Nat.lt_succ_self 8)
  have haddr : u32 (((Isr.enter im v error c).regs .esp + 40).toNat + 4 * i) =
      ((Isr.enter im v error c).regs .esp + 40 + 4 * .ofNat i).toNat := by
    simp only [UInt32.toNat_add, UInt32.toNat_mul, UInt32.toNat_ofNat', UInt32.reduceToNat, u32]
    omega
  rw [wordsAt, ← Mem.read32_u32, haddr, List.getD_eq_getElem _ _ hlt, ← hframe.load_eq hlt, load,
    UInt32.toNat_ofNat', Nat.mod_eq_of_lt (Mem.read32_lt _ _)]

/-! ### The screen -/

/-- Where the snapshot lies. -/
theorem apart_enter (im : Isr.Image) (v : UInt32) (error : Option UInt32)
    (h : Beside (c.regs .esp)) : Apart ((Isr.enter im v error c).regs .esp + 40) := by
  intro k hk
  obtain ⟨n, hn, hesp⟩ : ∃ n ≤ 12, (Isr.enter im v error c).regs .esp + 40 =
      c.regs .esp - 32 + .ofNat n := by
    rw [esp_saved]
    cases error with
    | none => exact ⟨12, le_rfl, by simp; grind⟩
    | some e => exact ⟨8, by decide, by simp; grind⟩
  have haddr : u32 (((Isr.enter im v error c).regs .esp + 40).toNat + k) =
      u32 ((c.regs .esp - 32).toNat + (n + k)) := by
    rw [hesp, UInt32.toNat_add, UInt32.toNat_ofNat']
    unfold u32
    omega
  rw [haddr]
  exact h _ (by omega)

theorem causeLine_zero :
    causeLine 0 = text "Cause: page-not-present on read in kernel-mode" := by
  decide

/-- **An exception ends in `Trigger`**, which paints the whole screen and nothing else. -/
theorem trigger_enter {lit : ℤ → UInt8} (hlit : HoldsLiteral lit) (vs : List Int32)
    (im : Isr.Image) (hv : v < 32) (error : Option UInt32) (hc : Beside (c.regs .esp))
    (cr2 : UInt32) :
    ∃ r, Isr.handler (Isr.argument (Isr.enter im v error c)) = [.trigger r] ∧
      OnlyIn (Isr.enter im v error c).mem (trigger lit vs r cr2 (Isr.enter im v error c).mem).2
        screen (screen + 2 * size) ∧
      let f := cells screen size (trigger lit vs r cr2 (Isr.enter im v error c).mem).2
      Tells f v error c ∧ ∀ i < size, f i >>> 8 = panicAttr.toUInt16 := by
  obtain ⟨r, hr, hno, herr, heip, hfl, hesp, hax, hbx, hcx, hdx, hsi, hdi, hbp⟩ :=
    argument_enter im v error c
  have h32 : r.intNo < 32 := by rwa [hno]
  have hapart : Apart r.esp := by
    rw [hesp]
    exact apart_enter im v error hc
  obtain ⟨honly, h⟩ := trigger_cells hlit vs h32 hapart cr2 (Isr.enter im v error c).mem
  refine ⟨r, by rw [hr]; exact Isr.handler_exception h32, honly, ?_⟩
  generalize cells screen size (trigger lit vs r cr2 (Isr.enter im v error c).mem).2 = f at h ⊢
  refine ⟨⟨hno ▸ h.exception, hax ▸ h.eax, hbx ▸ h.ebx, hcx ▸ h.ecx, hdx ▸ h.edx, hsi ▸ h.esi,
    hdi ▸ h.edi, hbp ▸ h.ebp, ?_, heip ▸ h.eip, hfl ▸ h.eflags, ?_, fun h14 => ?_,
    fun i hi => ?_⟩, h.colour⟩
  · rw [h.esp, hesp, esp_saved]
  · rw [h.errCode, herr]
    rfl
  · have hcause := h.cause
    rw [if_pos (hno.trans h14), herr, causeLine_zero] at hcause
    exact hcause
  · rw [h.word i hi, hesp, wordsAt_enter im v error c hi]

/-- **What the screen tells about an exception.** -/
theorem tells_exception {lit : ℤ → UInt8} (hlit : HoldsLiteral lit) (vs : List Int32)
    (im : Isr.Image) (hv : v < 32) (error : Option UInt32) (hc : Beside (c.regs .esp))
    (cr2 : UInt32) :
    ∃ r, Isr.handler (Isr.argument (Isr.enter im v error c)) = [.trigger r] ∧
      Tells (cells screen size (trigger lit vs r cr2 (Isr.enter im v error c).mem).2) v error
        c := by
  obtain ⟨r, hr, -, htells, -⟩ := trigger_enter hlit vs im hv error hc cr2
  exact ⟨r, hr, htells⟩

/-- A page fault in the kernel: a write to a page that is there. -/
theorem tells_exception_pageFault :
    ∃ r, Isr.handler (Isr.argument (Isr.enter Isr.lowImage 14 (some 3) Isr.kernelCpu)) =
        [.trigger r] ∧
      Tells (cells screen size (trigger literalAlone [] r 0x400000
        (Isr.enter Isr.lowImage 14 (some 3) Isr.kernelCpu).mem).2) 14 (some 3) Isr.kernelCpu :=
  tells_exception holdsLiteral_literalAlone [] Isr.lowImage (by decide) (some 3)
    (by unfold Beside; decide +kernel) 0x400000

end Panic

end Shiro
