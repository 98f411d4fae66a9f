import Mathlib.Logic.Function.Basic
import Mathlib.Tactic.Common
import Shiro.Lib.Memory

/-!
# A fragment of IA-32

The instructions that entry stubs and context switches are made of, in 32-bit flat mode without
changes of privilege: moves, the stack, calls, and the way into an interrupt handler and back.
Straight-line code is a list of instructions; `eip` is kept up at control transfers only.

The stack is described by the words on it.  `Words m a ws` says that the words `ws` lie in memory
from address `a` on, and each instruction that pushes or pops has a rule about the words on top of
the stack.

* `Cpu`, `Instr`, `exec`, `run` : the machine and its instructions.
* `deliver` : what the CPU does to enter a handler.
* `Words`, `Cpu.Top` : **the stack as a list of words.**
* `Cpu.Top.push`, `Cpu.Top.pusha`, `Cpu.Top.deliver` : what each push does to it.
* `Grows` : a stack that grows leaves the rest of the memory alone.
-/

namespace Shiro

namespace Ia32

/-- The general registers. -/
inductive Reg where
  | eax | ecx | edx | ebx | esp | ebp | esi | edi
  deriving DecidableEq, Repr

/-- The segment registers. -/
inductive Seg where
  | cs | ds | es | fs | gs
  deriving DecidableEq, Repr

/-- The registers and the memory. -/
structure Cpu where
  regs : Reg → UInt32
  segs : Seg → UInt16
  eip : UInt32
  eflags : UInt32
  mem : Mem

/-- The double word at an address. -/
def load (m : Mem) (a : UInt32) : UInt32 := .ofNat (m.read32 a.toNat)

/-- Store a double word. -/
def store (m : Mem) (a v : UInt32) : Mem := m.write32 a.toNat v.toNat

/-- A register after a write to its lower half. -/
def withLow (r : UInt32) (n : UInt16) : UInt32 := r &&& 0xFFFF0000 ||| n.toUInt32

/-- IF. -/
def flagIf : UInt32 := 0x200

/-- The flags that an interrupt gate clears: IF, and TF, NT, RF and VM. -/
def gateClears : UInt32 := 0x34300

/-- The instructions. -/
inductive Instr where
  | cli
  | sti
  | push (r : Reg)
  | pushImm (n : UInt32)
  | pop (r : Reg)
  | pusha
  | popa
  /-- `mov r, [base + disp]` -/
  | load (r base : Reg) (disp : UInt32)
  /-- `mov [base], r` -/
  | store (base r : Reg)
  /-- `mov r16, imm` -/
  | movLow (r : Reg) (n : UInt16)
  /-- `mov r16, sreg` -/
  | movFromSeg (r : Reg) (s : Seg)
  /-- `mov sreg, r16` -/
  | movToSeg (s : Seg) (r : Reg)
  /-- `add r, imm` -/
  | addImm (r : Reg) (n : UInt32)
  | jmp (target : UInt32)
  /-- `call target`, where the instruction behind it is at `back`. -/
  | call (target back : UInt32)
  | ret
  | iret
  deriving DecidableEq, Repr

/-! ### Execution -/

/-- Write a general register. -/
def Cpu.setReg (c : Cpu) (r : Reg) (v : UInt32) : Cpu :=
  { c with regs := Function.update c.regs r v }

/-- Write a segment register. -/
def Cpu.setSeg (c : Cpu) (s : Seg) (n : UInt16) : Cpu :=
  { c with segs := Function.update c.segs s n }

/-- Push a double word. -/
def Cpu.push (c : Cpu) (v : UInt32) : Cpu :=
  { c.setReg .esp (c.regs .esp - 4) with mem := Ia32.store c.mem (c.regs .esp - 4) v }

/-- The double word `i` places above the top of the stack. -/
def Cpu.top (c : Cpu) (i : UInt32) : UInt32 := Ia32.load c.mem (c.regs .esp + 4 * i)

/-- Take `n` double words off the stack. -/
def Cpu.drop (c : Cpu) (n : UInt32) : Cpu := c.setReg .esp (c.regs .esp + 4 * n)

/-- The effect of an instruction. -/
def exec (c : Cpu) : Instr → Cpu
  | .cli => { c with eflags := c.eflags &&& ~~~flagIf }
  | .sti => { c with eflags := c.eflags ||| flagIf }
  | .push r => c.push (c.regs r)
  | .pushImm n => c.push n
  | .pop r => (c.drop 1).setReg r (c.top 0)
  | .pusha =>
    -- `esp` is pushed as it was before the first of these pushes
    (((((((c.push (c.regs .eax)).push (c.regs .ecx)).push (c.regs .edx)).push (c.regs .ebx)).push
      (c.regs .esp)).push (c.regs .ebp)).push (c.regs .esi)).push (c.regs .edi)
  | .popa =>
    -- the word pushed for `esp` is skipped
    (((((((c.drop 8).setReg .edi (c.top 0)).setReg .esi (c.top 1)).setReg .ebp (c.top 2)).setReg
      .ebx (c.top 4)).setReg .edx (c.top 5)).setReg .ecx (c.top 6)).setReg .eax (c.top 7)
  | .load r base disp => c.setReg r (Ia32.load c.mem (c.regs base + disp))
  | .store base r => { c with mem := Ia32.store c.mem (c.regs base) (c.regs r) }
  | .movLow r n => c.setReg r (withLow (c.regs r) n)
  | .movFromSeg r s => c.setReg r (withLow (c.regs r) (c.segs s))
  | .movToSeg s r => c.setSeg s (c.regs r).toUInt16
  | .addImm r n => c.setReg r (c.regs r + n)
  | .jmp target => { c with eip := target }
  | .call target back => { c.push back with eip := target }
  | .ret => { c.drop 1 with eip := c.top 0 }
  | .iret =>
    { (c.drop 3).setSeg .cs (c.top 1).toUInt16 with eip := c.top 0, eflags := c.top 2 }

/-- The effect of straight-line code. -/
def run (c : Cpu) (is : List Instr) : Cpu := is.foldl exec c

/-- The CPU enters a handler through an interrupt gate: it pushes `eflags`, `cs`, `eip` and, for
some exceptions, an error code. -/
def deliver (c : Cpu) (selector : UInt16) (offset : UInt32) (error : Option UInt32) : Cpu :=
  let c' := ((c.push c.eflags).push (c.segs .cs).toUInt32).push c.eip
  let c' := match error with
    | none => c'
    | some e => c'.push e
  { c'.setSeg .cs selector with eip := offset, eflags := c.eflags &&& ~~~gateClears }

@[simp] theorem toUInt16_withLow (r : UInt32) (n : UInt16) : (withLow r n).toUInt16 = n := by
  apply UInt16.toBitVec_inj.1
  ext i
  simp [withLow]

section Accessors

variable (c : Cpu) {r r' : Reg} (v n : UInt32)

@[simp] theorem Cpu.setReg_self : (c.setReg r v).regs r = v := Function.update_self _ _ _

@[simp] theorem Cpu.setReg_of_ne (h : r' ≠ r) : (c.setReg r v).regs r' = c.regs r' :=
  Function.update_of_ne h _ _

@[simp] theorem Cpu.setReg_mem : (c.setReg r v).mem = c.mem := rfl

@[simp] theorem Cpu.setReg_segs : (c.setReg r v).segs = c.segs := rfl

@[simp] theorem Cpu.setReg_eflags : (c.setReg r v).eflags = c.eflags := rfl

@[simp] theorem Cpu.setReg_eip : (c.setReg r v).eip = c.eip := rfl

@[simp] theorem Cpu.setSeg_regs (s : Seg) (n : UInt16) : (c.setSeg s n).regs = c.regs := rfl

@[simp] theorem Cpu.setSeg_mem (s : Seg) (n : UInt16) : (c.setSeg s n).mem = c.mem := rfl

@[simp] theorem Cpu.setSeg_eflags (s : Seg) (n : UInt16) : (c.setSeg s n).eflags = c.eflags := rfl

@[simp] theorem Cpu.push_esp : (c.push v).regs .esp = c.regs .esp - 4 := by
  simp [Cpu.push]

@[simp] theorem Cpu.push_of_ne (h : r ≠ .esp) : (c.push v).regs r = c.regs r := by
  simp [Cpu.push, h]

@[simp] theorem Cpu.push_segs : (c.push v).segs = c.segs := rfl

@[simp] theorem Cpu.push_eip : (c.push v).eip = c.eip := rfl

@[simp] theorem Cpu.push_eflags : (c.push v).eflags = c.eflags := rfl

@[simp] theorem Cpu.drop_esp : (c.drop n).regs .esp = c.regs .esp + 4 * n := by
  simp [Cpu.drop]

@[simp] theorem Cpu.drop_of_ne (h : r ≠ .esp) : (c.drop n).regs r = c.regs r := by
  simp [Cpu.drop, h]

@[simp] theorem Cpu.drop_mem : (c.drop n).mem = c.mem := rfl

@[simp] theorem Cpu.drop_segs : (c.drop n).segs = c.segs := rfl

end Accessors

/-! ### Words in memory -/

/-- The double words `ws` lie in memory from address `a` on. -/
def Words (m : Mem) : UInt32 → List UInt32 → Prop
  | _, [] => True
  | a, w :: ws => load m a = w ∧ Words m (a + 4) ws

variable {m m' : Mem} {a b v : UInt32} {ws vs : List UInt32} {c : Cpu}

@[simp] theorem words_nil : Words m a [] := trivial

@[simp] theorem words_cons : Words m a (v :: ws) ↔ load m a = v ∧ Words m (a + 4) ws := Iff.rfl

theorem load_store (m : Mem) (a v : UInt32) : load (store m a v) a = v := by
  rw [load, store, Mem.read32_write32 _ _ v.toNat_lt, UInt32.ofNat_toNat]

/-- Two double words share no byte, around the end of the address space too. -/
def Apart (a b : UInt32) : Prop := 4 ≤ (b - a).toNat ∧ 4 ≤ (a - b).toNat

theorem apart_of_disjoint (ha : a.toNat + 4 ≤ 2 ^ 32) (hb : b.toNat + 4 ≤ 2 ^ 32)
    (h : a.toNat + 4 ≤ b.toNat ∨ b.toNat + 4 ≤ a.toNat) : Apart a b := by
  refine ⟨?_, ?_⟩ <;> rw [UInt32.toNat_sub] <;> omega

theorem load_store_of_apart (h : Apart a b) : load (store m a v) b = load m b := by
  have hlt := a.toNat_lt
  have hlt' := b.toNat_lt
  obtain ⟨h1, h2⟩ := h
  rw [UInt32.toNat_sub] at h1 h2
  rw [load, load, store]
  refine congrArg UInt32.ofNat (Mem.read32_congr fun i hi => ?_)
  have hne : ∀ j < 4, u32 (b.toNat + i) ≠ u32 (a.toNat + j) := by
    intro j hj
    unfold u32
    omega
  have hne0 := hne 0 (by decide)
  rw [Nat.add_zero] at hne0
  simp only [Mem.write32, hne0, hne 1 (by decide), hne 2 (by decide), hne 3 (by decide),
    ↓reduceIte]

/-- A word pushed lies apart from the words on the stack. -/
theorem apart_push {k : ℕ} (hk : 4 * k + 8 ≤ 2 ^ 32) : Apart (a - 4) (a + 4 * .ofNat k) := by
  have hnat : (4 * UInt32.ofNat k + 4).toNat = 4 * k + 4 := by
    rw [UInt32.toNat_add, UInt32.toNat_mul, UInt32.toNat_ofNat']
    simp only [UInt32.reduceToNat]
    omega
  have habove : a + 4 * .ofNat k - (a - 4) = 4 * .ofNat k + 4 := by grind
  have hbelow : a - 4 - (a + 4 * .ofNat k) = 0 - (4 * .ofNat k + 4) := by grind
  refine ⟨?_, ?_⟩
  · rw [habove, hnat]
    omega
  · rw [hbelow, UInt32.toNat_sub, hnat]
    simp only [UInt32.reduceToNat]
    omega

theorem Words.store (h : Words m a ws)
    (hb : ∀ k < ws.length, Apart b (a + 4 * .ofNat k)) : Words (store m b v) a ws := by
  induction ws generalizing a with
  | nil => trivial
  | cons w ws ih =>
    obtain ⟨hw, h⟩ := h
    have h0 := hb 0 (Nat.succ_pos _)
    rw [show a + 4 * .ofNat 0 = a by simp] at h0
    refine ⟨(load_store_of_apart h0).trans hw, ih h fun k hk => ?_⟩
    have hk' := hb (k + 1) (Nat.succ_lt_succ hk)
    rwa [show a + 4 * .ofNat (k + 1) = a + 4 + 4 * .ofNat k by
      rw [UInt32.ofNat_add]; grind] at hk'

/-- **A push puts a word in front.** -/
theorem Words.push (h : Words m a ws) (hlen : 4 * ws.length + 4 ≤ 2 ^ 32) :
    Words (Ia32.store m (a - 4) v) (a - 4) (v :: ws) := by
  refine ⟨load_store m (a - 4) v, ?_⟩
  rw [UInt32.sub_add_cancel]
  exact h.store fun k hk => apart_push (by omega)

/-- Words depend on their own bytes. -/
theorem Words.congr (h : Words m a ws) (hfit : a.toNat + 4 * ws.length ≤ 2 ^ 32)
    (heq : EqOn m m' a.toNat (a.toNat + 4 * ws.length)) : Words m' a ws := by
  induction ws generalizing a with
  | nil => trivial
  | cons w ws ih =>
    obtain ⟨hw, h⟩ := h
    rw [List.length_cons] at hfit heq
    refine ⟨?_, ?_⟩
    · rw [load, heq.read32 le_rfl (by omega) (by omega)]
      exact hw
    · cases ws with
      | nil => trivial
      | cons w' ws =>
        rw [List.length_cons] at hfit heq ih
        have hnext : (a + 4).toNat = a.toNat + 4 := by
          rw [UInt32.toNat_add]
          simp only [UInt32.reduceToNat]
          omega
        refine ih h ?_ (heq.mono ?_ ?_) <;> omega

/-- The words behind some others. -/
theorem Words.of_append (us : List UInt32) (h : Words m a (us ++ ws)) :
    Words m (a + 4 * .ofNat us.length) ws := by
  induction us generalizing a with
  | nil => simpa using h
  | cons u us ih =>
    have hnext : a + 4 * .ofNat (us.length + 1) = a + 4 + 4 * .ofNat us.length := by
      rw [UInt32.ofNat_add]
      grind
    rw [List.length_cons, hnext]
    exact ih h.2

theorem Words.load_eq (h : Words m a ws) {i : ℕ} (hi : i < ws.length) :
    load m (a + 4 * .ofNat i) = ws[i] := by
  rw [← List.take_append_drop i ws] at h
  have hdrop := h.of_append
  rw [List.length_take, Nat.min_eq_left hi.le, List.drop_eq_getElem_cons hi] at hdrop
  exact hdrop.1

/-! ### The words on the stack -/

/-- The words on top of the stack. -/
def Cpu.Top (c : Cpu) (ws : List UInt32) : Prop := Words c.mem (c.regs .esp) ws

theorem Cpu.top_nil (c : Cpu) : c.Top [] := trivial

theorem Cpu.Top.push (h : c.Top ws) (hlen : 4 * ws.length + 4 ≤ 2 ^ 32) (v : UInt32) :
    (c.push v).Top (v :: ws) := Words.push h hlen

/-- **`pusha` pushes the general registers**, with the stack pointer as it was. -/
theorem Cpu.Top.pusha (h : c.Top ws) (hlen : 4 * ws.length + 32 ≤ 2 ^ 32) :
    (exec c .pusha).Top (c.regs .edi :: c.regs .esi :: c.regs .ebp :: c.regs .esp :: c.regs .ebx ::
      c.regs .edx :: c.regs .ecx :: c.regs .eax :: ws) := by
  refine Cpu.Top.push (Cpu.Top.push (Cpu.Top.push (Cpu.Top.push (Cpu.Top.push (Cpu.Top.push
    (Cpu.Top.push (Cpu.Top.push h ?_ _) ?_ _) ?_ _) ?_ _) ?_ _) ?_ _) ?_ _) ?_ _
  · omega
  all_goals
    simp only [List.length_cons]
    omega

/-- **The words that the CPU pushes** to enter a handler. -/
theorem Cpu.Top.deliver (h : c.Top ws) (hlen : 4 * ws.length + 16 ≤ 2 ^ 32) (selector : UInt16)
    (offset : UInt32) (error : Option UInt32) :
    (deliver c selector offset error).Top
      (error.toList ++ c.eip :: (c.segs .cs).toUInt32 :: c.eflags :: ws) := by
  have h3 := ((h.push (by omega) c.eflags).push (by simp only [List.length_cons]; omega)
    (c.segs .cs).toUInt32).push (by simp only [List.length_cons]; omega) c.eip
  cases error with
  | none => exact h3
  | some e => exact h3.push (by simp only [List.length_cons]; omega) e

/-- Only the `n` bytes below the stack pointer of `c` have changed on the way to `c'`, where the
stack has grown by them. -/
structure Grows (c c' : Cpu) (n : ℕ) : Prop where
  esp : (c'.regs .esp).toNat + n = (c.regs .esp).toNat
  mem : ∀ lo hi, hi ≤ (c'.regs .esp).toNat ∨ (c.regs .esp).toNat ≤ lo → EqOn c.mem c'.mem lo hi

theorem Grows.refl (c : Cpu) : Grows c c 0 := ⟨rfl, fun _ _ _ => EqOn.refl _ _ _⟩

theorem Grows.push {c' : Cpu} {n : ℕ} (h : Grows c c' n) (hroom : n + 4 ≤ (c.regs .esp).toNat)
    (v : UInt32) : Grows c (c'.push v) (n + 4) := by
  have hesp := h.esp
  have hlt := (c.regs .esp).toNat_lt
  have hnew : ((c'.push v).regs .esp).toNat = (c'.regs .esp).toNat - 4 :=
    UInt32.toNat_sub_of_le _ _ (UInt32.le_iff_toNat_le.2 (show 4 ≤ _ by omega))
  refine ⟨by omega, fun lo hi hout => ?_⟩
  refine (h.mem lo hi (by omega)).trans (eqOn_write32 ?_ ?_) <;>
    rw [show (c'.regs .esp - 4).toNat = _ from hnew] <;> omega

theorem Grows.pusha {c' : Cpu} {n : ℕ} (h : Grows c c' n) (hroom : n + 32 ≤ (c.regs .esp).toNat) :
    Grows c (exec c' .pusha) (n + 32) :=
  (((((((h.push (by omega) _).push (by omega) _).push (by omega) _).push (by omega) _).push
    (by omega) _).push (by omega) _).push (by omega) _).push (by omega) _

/-- Instructions that leave the stack alone. -/
theorem Grows.congr {c' c'' : Cpu} {n : ℕ} (h : Grows c c' n) (hesp : c''.regs .esp = c'.regs .esp)
    (hmem : c''.mem = c'.mem) : Grows c c'' n := by
  refine ⟨by rw [hesp]; exact h.esp, fun lo hi => ?_⟩
  rw [hesp, hmem]
  exact h.mem lo hi

end Ia32

end Shiro
