import Shiro.Isr.Stub

/-!
# The frames on a stack

Two kinds of frames lie on the stack of a task that does not run: the five words that `switch_task`
pushes, or that `Spawn` stores in their place, and the sixty bytes that an interrupt leaves on the
way to its handler.  Here the assembly that builds and takes down these frames is run instruction by
instruction.

* `switchTask`, `prepareStack` : the context switch, and the stack of a new task.
* `frameWords`, `Resume.words` : the two kinds of frames.
* `run_switchTask`, `run_exit` : **what the code pops** from such frames.
* `top_frame`, `top_saved`, `prepareStack_eq` : **what the code has pushed.**
-/

namespace Shiro

open Ia32 Isr

/-! ### The code -/

/-- `switch_task` at address `entry`, from its call on; the instruction behind the call is at
`back`. -/
def switchTask (entry back : UInt32) : List Instr :=
  [.call entry back, .push .ebp, .push .ebx, .push .esi, .push .edi, .load .eax .esp 20,
    .store .eax .esp, .load .esp .esp 24, .pop .edi, .pop .esi, .pop .ebx, .pop .ebp, .ret]

/-- `*(--sp) = w` -/
def pushWord (r : Mem × UInt32) (w : UInt32) : Mem × UInt32 := (store r.1 (r.2 - 4) w, r.2 - 4)

/-- The stores of `Spawn` on the stack that ends at `top`, and the `sp` it ends with. -/
def prepareStack (m : Mem) (top entry : UInt32) : Mem × UInt32 :=
  [entry, 0, 0, 0, 0].foldl pushWord (m, top)

/-- The words on the stack in a handler that was entered from the context `f`. -/
def frameWords (im : Image) (v : UInt32) (f : Cpu) : List UInt32 :=
  [im.behindCall, withLow (f.regs .eax) (f.segs .ds), f.regs .edi, f.regs .esi, f.regs .ebp,
    f.regs .esp - 20, f.regs .ebx, f.regs .edx, f.regs .ecx, f.regs .eax, v, 0, f.eip,
    (f.segs .cs).toUInt32, f.eflags]

/-- The callee-saved registers, the return address and the stack pointer that a suspended task goes
on with. -/
structure Resume where
  edi : UInt32
  esi : UInt32
  ebx : UInt32
  ebp : UInt32
  eip : UInt32
  esp : UInt32

/-- The words that `switch_task` pops. -/
def Resume.words (x : Resume) : List UInt32 := [x.edi, x.esi, x.ebx, x.ebp, x.eip]

/-! ### What the code does -/

variable {c : Cpu} {m m' : Mem} {im : Image} {entry back v : UInt32}

/-- What `switch_task` has pushed when it switches the stack. -/
def saved (c : Cpu) (back : UInt32) : Cpu :=
  ((((c.push back).push (c.regs .ebp)).push (c.regs .ebx)).push (c.regs .esi)).push (c.regs .edi)

theorem saved_esp (c : Cpu) (back : UInt32) : (saved c back).regs .esp = c.regs .esp - 20 := by
  simp only [saved, Cpu.push_esp]
  grind

theorem top_saved {ws : List UInt32} (h : c.Top ws) (hlen : ws.length ≤ 2) (back : UInt32) :
    (saved c back).Top
      (c.regs .edi :: c.regs .esi :: c.regs .ebx :: c.regs .ebp :: back :: ws) := by
  refine Cpu.Top.push (Cpu.Top.push (Cpu.Top.push (Cpu.Top.push (Cpu.Top.push h ?_ _) ?_ _) ?_ _)
    ?_ _) ?_ _
  · omega
  all_goals
    simp only [List.length_cons]
    omega

/-- **`switch_task(cell, sp)`** stores the stack pointer of its caller and goes on with what lies on
the other stack. -/
theorem run_switchTask {cell sp : UInt32} {x : Resume} (h : c.Top [cell, sp])
    (hcell : Ia32.Apart cell (c.regs .esp + 4)) (hsp : x.esp = sp + 20)
    (hx : Words (store (saved c back).mem cell (c.regs .esp - 20)) sp x.words) :
    let c' := run c (switchTask entry back)
    c'.mem = store (saved c back).mem cell (c.regs .esp - 20) ∧ c'.eip = x.eip ∧
      c'.regs .edi = x.edi ∧ c'.regs .esi = x.esi ∧ c'.regs .ebx = x.ebx ∧
      c'.regs .ebp = x.ebp ∧ c'.regs .esp = x.esp := by
  have htop := top_saved h (by simp) back
  have hesp := saved_esp c back
  simp only [Cpu.Top, hesp, words_cons, UInt32.add_assoc, UInt32.reduceAdd] at htop
  obtain ⟨-, -, -, -, -, hfirst, hsecond, -⟩ := htop
  rw [UInt32.sub_add_cancel] at hfirst
  -- the second argument is read behind the store
  have hother : load (store (saved c back).mem cell (c.regs .esp - 20)) (c.regs .esp - 20 + 24) =
      sp := by
    have hfour : c.regs .esp - 20 + 24 = c.regs .esp + 4 := by grind
    rw [hfour] at hsecond ⊢
    rw [load_store_of_apart hcell, hsecond]
  simp only [Resume.words, words_cons, UInt32.add_assoc, UInt32.reduceAdd] at hx
  obtain ⟨h0, h1, h2, h3, h4, -⟩ := hx
  have hrun : run c (switchTask entry back) = run { saved c back with eip := entry }
      [.load .eax .esp 20, .store .eax .esp, .load .esp .esp 24, .pop .edi, .pop .esi, .pop .ebx,
        .pop .ebp, .ret] := by
    simp [run, switchTask, exec, saved, Cpu.push, Cpu.setReg]
  rw [hrun]
  refine ⟨?_, ?_, ?_, ?_, ?_, ?_, ?_⟩ <;>
    simp [run, exec, Cpu.top, hesp, UInt32.add_assoc, hfirst, hother, h0, h1, h2, h3, h4, hsp]

/-- **The way back from a handler** restores every register. -/
theorem run_exit {f : Cpu} (h : c.Top (frameWords im v f))
    (hesp : c.regs .esp = f.regs .esp - 60) :
    let c' := run c (.ret :: commonExit)
    c'.mem = c.mem ∧ c'.regs = f.regs ∧ c'.eip = f.eip ∧ c'.eflags = f.eflags ∧
      c'.segs .cs = f.segs .cs ∧ c'.segs .ds = f.segs .ds := by
  simp only [Cpu.Top, frameWords, words_cons, UInt32.add_assoc, UInt32.reduceAdd] at h
  obtain ⟨-, h1, h2, h3, h4, -, h5, h6, h7, h8, -, -, h9, h10, h11, -⟩ := h
  have hback : c.regs .esp + 60 = f.regs .esp := by rw [hesp, UInt32.sub_add_cancel]
  refine ⟨?_, ?_, ?_, ?_, ?_, ?_⟩
  · simp [run, commonExit, exec]
  · funext r
    cases r <;> simp [run, commonExit, exec, Cpu.top, UInt32.add_assoc, hback, h2, h3, h4, h5, h6,
      h7, h8]
  · simp [run, commonExit, exec, Cpu.top, UInt32.add_assoc, h9]
  · simp [run, commonExit, exec, Cpu.top, UInt32.add_assoc, h11]
  · simp [run, commonExit, exec, Cpu.top, UInt32.add_assoc, Cpu.setSeg, h10]
  · simp [run, commonExit, exec, Cpu.top, UInt32.add_assoc, Cpu.setSeg, h1]

/-- **The way into a handler** leaves a frame of 60 bytes. -/
theorem top_frame (im : Image) (v : UInt32) (c : Cpu) :
    (enter im v none c).Top (frameWords im v c) := by
  have htop := top_enter im v none c
  have hesp : (deliver c kernelCode (im.isr v) none).regs .esp - 4 - 4 = c.regs .esp - 20 := by
    rw [deliver_esp]
    simp only [Option.isSome_none, Bool.false_eq_true, ↓reduceIte]
    grind
  rw [hesp] at htop
  exact htop

theorem grows_enter (im : Image) (v : UInt32) (h : 60 ≤ (c.regs .esp).toNat) :
    Grows c (enter im v none c) 60 := by
  have hdeliver : Grows c (deliver c kernelCode (im.isr v) none) 12 :=
    ((((Grows.refl c).push (by omega) c.eflags).push (by omega) (c.segs .cs).toUInt32).push
      (by omega) c.eip).congr rfl rfl
  have hpusha := ((hdeliver.push (by omega) 0).push (by omega) v).pusha (by omega)
  have hpushed : Grows c (pushed im v (deliver c kernelCode (im.isr v) none)) 60 :=
    (hpusha.push (by omega) _).push (by omega) _
  obtain ⟨hmem, hesp⟩ := run_entry im v (deliver c kernelCode (im.isr v) none)
  exact hpushed.congr hesp hmem

/-- Words stored downwards lie in memory in the other order. -/
theorem foldl_pushWord (ws : List UInt32) {vs : List UInt32} {a : UInt32} (h : Words m a vs)
    (hlen : 4 * (vs.length + ws.length) ≤ 2 ^ 32) :
    (ws.foldl pushWord (m, a)).2 = a - 4 * .ofNat ws.length ∧
      Words (ws.foldl pushWord (m, a)).1 (ws.foldl pushWord (m, a)).2 (ws.reverse ++ vs) := by
  induction ws generalizing m a vs with
  | nil => exact ⟨by simp, h⟩
  | cons w ws ih =>
    rw [List.length_cons] at hlen
    obtain ⟨h1, h2⟩ := ih (h.push (v := w) (by omega)) (by rw [List.length_cons]; omega)
    refine ⟨?_, ?_⟩
    · rw [List.foldl_cons, List.length_cons, UInt32.ofNat_add]
      refine h1.trans ?_
      simp only [UInt32.reduceOfNat]
      grind
    · rw [List.foldl_cons, List.reverse_cons, List.append_assoc]
      exact h2

/-- They leave the rest of the memory alone. -/
theorem eqOn_foldl_pushWord (ws : List UInt32) {a : UInt32} {lo hi : ℕ}
    (hroom : 4 * ws.length ≤ a.toNat) (hout : hi + 4 * ws.length ≤ a.toNat ∨ a.toNat ≤ lo) :
    EqOn m (ws.foldl pushWord (m, a)).1 lo hi := by
  induction ws generalizing m a with
  | nil => exact EqOn.refl _ _ _
  | cons w ws ih =>
    rw [List.length_cons] at hroom hout
    have hlt := a.toNat_lt
    have hnext : (a - 4).toNat = a.toNat - 4 :=
      UInt32.toNat_sub_of_le _ _ (UInt32.le_iff_toNat_le.2 (show 4 ≤ _ by omega))
    rw [List.foldl_cons]
    refine EqOn.trans (eqOn_write32 ?_ ?_) (ih ?_ ?_) <;> rw [hnext] <;> omega

/-- **The stack of a new task**: four zeros and its entry. -/
theorem prepareStack_eq (m : Mem) (top entry : UInt32) :
    (prepareStack m top entry).2 = top - 20 ∧
      Words (prepareStack m top entry).1 (top - 20) [0, 0, 0, 0, entry] := by
  obtain ⟨h1, h2⟩ := foldl_pushWord [entry, 0, 0, 0, 0] (show Words m top [] from trivial) (by simp)
  rw [h1] at h2
  exact ⟨h1, h2⟩

end Shiro
