import Shiro.Isr.Stub
import Shiro.Lib.Drawing
import Shiro.Stdlib.Int2char

/-!
# The panic screen

`Panic::Trigger` paints the screen red and shows the exception, the registers, CR2 and the eight
double words from the saved `esp` on.  It is the last thing the kernel does, so what can be learned
about a crash is what can be read from this screen.

The copy that goes to the serial port is left out.

* `Panic.trigger` : the function, on the memory that holds the screen and the stack.
* `Panic.runs` : the runs of cells that a panic consists of.
* `Panic.draws_trigger` : **`Trigger` draws them on a blank screen**, and nothing else.
-/

namespace Shiro

namespace Panic

open Drawing

/-! ### The function -/

/-- `screen` -/
def screen : ℕ := 0xB8000

/-- The number of cells. -/
def size : ℕ := 80 * 25

/-- `panic_attr`: white on red. -/
def panicAttr : UInt8 := 0x4F

/-- `ExceptionName(int_no)` -/
def exceptionName (intNo : UInt32) : List UInt8 :=
  text <| match intNo.toNat with
    | 0 => "Division by Zero"
    | 1 => "Debug"
    | 2 => "Non-Maskable Interrupt"
    | 3 => "Breakpoint"
    | 4 => "Overflow"
    | 5 => "Bound Range Exceeded"
    | 6 => "Invalid Opcode"
    | 7 => "Device Not Available"
    | 8 => "Double Fault"
    | 9 => "Coprocessor Segment Overrun"
    | 10 => "Invalid TSS"
    | 11 => "Segment Not Present"
    | 12 => "Stack-Segment Fault"
    | 13 => "General Protection Fault"
    | 14 => "Page Fault"
    | 15 => "Reserved"
    | 16 => "x87 Floating-Point Exception"
    | 17 => "Alignment Check"
    | 18 => "Machine Check"
    | 19 => "SIMD Floating-Point Exception"
    | 20 => "Virtualization Exception"
    | 21 => "Control Protection Exception"
    | _ => "Reserved Exception"

/-- `(uint16_t)c | ((uint16_t)attr << 8)`, where `c` is a signed `char`. -/
def cell (c attr : UInt8) : UInt16 := c.toInt8.toInt16.toUInt16 ||| attr.toUInt16 <<< 8

/-- `WriteAt(screen, offset, s, attr)` -/
def writeAt (offset : ℕ) (s : List UInt8) (attr : UInt8) : StateM Mem ℕ := do
  stores screen offset ((cstr s).map (cell · attr))
  return (cstr s).length

/-- The digits of `HexAt`. -/
def hex : List UInt8 := text "0123456789ABCDEF"

/-- `HexAt(screen, row, col, v, attr)` -/
def hexAt (row col : ℕ) (v : UInt32) (attr : UInt8) : StateM Mem Unit := do
  store screen (row * 80 + col + 0) (cell 48 attr)
  store screen (row * 80 + col + 1) (cell 120 attr)
  (List.range 8).forM fun i => do
    let nib := v >>> .ofNat (28 - i * 4) &&& 0xF
    store screen (row * 80 + col + 2 + i) (cell (hex.getD nib.toNat 0) attr)

/-- The loop that repaints the screen. -/
def repaint : StateM Mem Unit :=
  (List.range size).forM fun i => store screen i (cell 32 panicAttr)

/-- The title, and the number and the name of the exception. -/
def exception (number name : List UInt8) : StateM Mem Unit := do
  let _ ← writeAt (80 * 0 + 28) (text "*** KERNEL PANIC ***") panicAttr
  let off := 80 * 2
  let off := off + (← writeAt off (text "  Exception #") panicAttr)
  let off := off + (← writeAt off number panicAttr)
  let off := off + (← writeAt off (text ": ") panicAttr)
  let _ ← writeAt off name panicAttr

/-- "Two columns of register values, hex." -/
def registers (regs : Registers) : StateM Mem Unit := do
  let _ ← writeAt (80 * 4 + 2) (text "EAX=") panicAttr
  hexAt 4 6 regs.eax panicAttr
  let _ ← writeAt (80 * 4 + 22) (text "EBX=") panicAttr
  hexAt 4 26 regs.ebx panicAttr
  let _ ← writeAt (80 * 4 + 42) (text "ECX=") panicAttr
  hexAt 4 46 regs.ecx panicAttr
  let _ ← writeAt (80 * 4 + 62) (text "EDX=") panicAttr
  hexAt 4 66 regs.edx panicAttr
  let _ ← writeAt (80 * 5 + 2) (text "ESI=") panicAttr
  hexAt 5 6 regs.esi panicAttr
  let _ ← writeAt (80 * 5 + 22) (text "EDI=") panicAttr
  hexAt 5 26 regs.edi panicAttr
  let _ ← writeAt (80 * 5 + 42) (text "EBP=") panicAttr
  hexAt 5 46 regs.ebp panicAttr
  let _ ← writeAt (80 * 5 + 62) (text "ESP=") panicAttr
  hexAt 5 66 regs.esp panicAttr
  let _ ← writeAt (80 * 7 + 2) (text "EIP=") panicAttr
  hexAt 7 6 regs.eip panicAttr
  let _ ← writeAt (80 * 7 + 22) (text "EFLAGS=") panicAttr
  hexAt 7 29 regs.eflags panicAttr
  let _ ← writeAt (80 * 7 + 45) (text "ERR=") panicAttr
  hexAt 7 49 regs.errCode panicAttr

/-- `p_msg`, `rw_msg` and `us_msg`. -/
def pMsg (e : UInt32) : List UInt8 :=
  text (if e &&& 1 ≠ 0 then "protection-fault" else "page-not-present")

@[inherit_doc pMsg]
def rwMsg (e : UInt32) : List UInt8 := text (if e &&& 2 ≠ 0 then "write" else "read")

@[inherit_doc pMsg]
def usMsg (e : UInt32) : List UInt8 := text (if e &&& 4 ≠ 0 then "user-mode" else "kernel-mode")

/-- CR2 and, for a page fault, the bits of the error code in words. -/
def cause (regs : Registers) (cr2 : UInt32) : StateM Mem Unit := do
  let _ ← writeAt (80 * 9 + 2) (text "CR2 (faulting linear addr)= ") panicAttr
  hexAt 9 30 cr2 panicAttr
  if regs.intNo = 14 then do
    let e := regs.errCode
    let _ ← writeAt (80 * 10 + 2) (text "Cause: ") panicAttr
    let o := 80 * 10 + 9
    let o := o + (← writeAt o (pMsg e) panicAttr)
    let o := o + (← writeAt o (text " on ") panicAttr)
    let o := o + (← writeAt o (rwMsg e) panicAttr)
    let o := o + (← writeAt o (text " in ") panicAttr)
    let _ ← writeAt o (usMsg e) panicAttr

/-- `sp[i]` -/
def readStack (esp : UInt32) (i : ℕ) : StateM Mem ℕ :=
  fun m => (m.read32 (esp.toNat + 4 * i), m)

/-- "Stack snapshot — top 8 dwords from regs.esp upward." -/
def stack (esp : UInt32) : StateM Mem Unit := do
  let _ ← writeAt (80 * 12 + 2) (text "Top of stack:") panicAttr
  (List.range 8).forM fun i => do
    let _ ← writeAt (80 * (13 + i) + 4) (text "[esp+") panicAttr
    hexAt (13 + i) 9 (.ofNat (i * 4)) panicAttr
    let _ ← writeAt (80 * (13 + i) + 19) (text "] = ") panicAttr
    let v ← readStack esp i
    hexAt (13 + i) 23 (.ofNat v) panicAttr

/-- `Trigger(regs)`, up to the loop that halts.  `int2char` has been called with `vs` before. -/
def trigger (lit : ℤ → UInt8) (vs : List Int32) (regs : Registers) (cr2 : UInt32) :
    StateM Mem Unit := do
  repaint
  exception (returned lit vs regs.intNo.toInt32) (exceptionName regs.intNo)
  registers regs
  cause regs cr2
  stack regs.esp
  let _ ← writeAt (80 * 23 + 2) (text "System halted. Reboot to recover.") panicAttr

/-! ### Lines -/

/-- The line of the exception. -/
def exceptionLine (number name : List UInt8) : List UInt8 :=
  text "  Exception #" ++ (number ++ (text ": " ++ name))

/-- The line of the cause. -/
def causeLine (e : UInt32) : List UInt8 :=
  text "Cause: " ++ (pMsg e ++ (text " on " ++ (rwMsg e ++ (text " in " ++ usMsg e))))

/-! ### Cells -/

/-- The cells of a string. -/
def cellsOf (s : List UInt8) : List UInt16 := s.map (cell · panicAttr)

/-- The characters of `HexAt`. -/
def hexText (v : UInt32) : List UInt8 :=
  48 :: 120 :: (List.range 8).map fun i => hex.getD (v >>> .ofNat (28 - i * 4) &&& 0xF).toNat 0

/-- A run of the characters `s`. -/
def run (i : ℕ) (s : List UInt8) : ℕ × List UInt16 := (i, cellsOf s)

variable {f : ℕ → UInt16} {m₀ : Mem} {i n row col : ℕ} {s t : List UInt8} {v : UInt32}

theorem toUInt8_cell (c : UInt8) : (cell c panicAttr).toUInt8 = c := by
  have h : ∀ n < 256, (cell (.ofNat n) panicAttr).toUInt8 = .ofNat n := by decide +kernel
  have := h c.toNat c.toNat_lt
  rwa [UInt8.ofNat_toNat] at this

/-- The sign bit of a character would show in the colour. -/
theorem shiftRight_cell {c : UInt8} (hc : c < 128) :
    cell c panicAttr >>> 8 = panicAttr.toUInt16 := by
  have h : ∀ n < 128, cell (.ofNat n) panicAttr >>> 8 = panicAttr.toUInt16 := by decide +kernel
  have := h c.toNat (UInt8.lt_iff_toNat_lt.1 hc)
  rwa [UInt8.ofNat_toNat] at this

@[simp] theorem length_cellsOf (s : List UInt8) : (cellsOf s).length = s.length := List.length_map _

theorem map_toUInt8_cellsOf (s : List UInt8) : (cellsOf s).map UInt16.toUInt8 = s := by
  rw [cellsOf, List.map_map]
  exact (List.map_congr_left fun c _ => toUInt8_cell c).trans (List.map_id s)

/-! ### Numbers -/

theorem digitOf_hex : ∀ d < 16, digitOf (hex.getD d 0) = some d := by
  decide

/-- The digit `i` of a number. -/
theorem toNat_nibble (v : UInt32) (hi : i < 8) :
    (v >>> .ofNat (28 - i * 4) &&& 0xF).toNat = v.toNat / 16 ^ (7 - i) % 16 := by
  have hshift : (UInt32.ofNat (28 - i * 4)).toNat % 32 = 4 * (7 - i) := by
    rw [UInt32.toNat_ofNat']
    omega
  rw [UInt32.toNat_and, UInt32.toNat_shiftRight, hshift, Nat.shiftRight_eq_div_pow, Nat.pow_mul]
  exact Nat.and_two_pow_sub_one_eq_mod _ 4

/-- **The eight digits of a number read back.** -/
theorem numeralValue_hexText (v : UInt32) : numeralValue 16 ((hexText v).drop 2) = v.toNat := by
  have hdigit : ∀ i < 8, digitOf (hex.getD (v >>> .ofNat (28 - i * 4) &&& 0xF).toNat 0) =
      some (v.toNat / 16 ^ (7 - i) % 16) := fun i hi => by
    rw [toNat_nibble v hi]
    exact digitOf_hex _ (Nat.mod_lt _ (by decide))
  rw [hexText, List.drop_succ_cons, List.drop_succ_cons, List.drop_zero, numeralValue,
    List.foldl_map, ← Nat.mod_eq_of_lt (show v.toNat < 16 ^ 8 from v.toNat_lt),
    ← foldl_digits 16 v.toNat 8]
  refine List.foldl_ext _ _ _ fun w i hi => ?_
  rw [hdigit i (List.mem_range.1 hi)]
  rfl

theorem length_hexText (v : UInt32) : (hexText v).length = 10 := rfl

theorem ascii_hexText (v : UInt32) : ∀ c ∈ hexText v, c < 128 := by
  have hdigit : ∀ d < 16, hex.getD d 0 < 128 := by decide
  intro c hc
  rcases List.mem_cons.1 hc with rfl | hc
  · decide
  rcases List.mem_cons.1 hc with rfl | hc
  · decide
  obtain ⟨i, hi, rfl⟩ := List.mem_map.1 hc
  rw [toNat_nibble v (List.mem_range.1 hi)]
  exact hdigit _ (Nat.mod_lt _ (by decide))

/-! ### What the functions draw -/

theorem fits : screen + 2 * size ≤ 2 ^ 32 := by
  decide

theorem draws_writeAt (h0 : 0 ∉ s) (hi : i + s.length ≤ size) :
    Draws screen size m₀ (writeAt i s panicAttr) s.length fun f => draw f [run i s] := by
  rw [writeAt, cstr_eq_self h0]
  have hfit : i + (s.map (cell · panicAttr)).length ≤ size := by rwa [List.length_map]
  exact .of_eq (.bind (draws_stores fits hfit) (draws_pure s.length)) fun _ => rfl

theorem draws_hexAt (v : UInt32) (hi : row * 80 + col + 10 ≤ size) :
    Draws screen size m₀ (hexAt row col v panicAttr) ()
      fun f => draw f [run (row * 80 + col) (hexText v)] := by
  refine .of_eq (.bind (draws_store fits ?_ _) (.bind (draws_store fits ?_ _)
    (draws_forM_store fits ?_))) fun _ => rfl
  all_goals omega

/-- A line that is drawn in parts, behind other runs. -/
theorem draw_line (f : ℕ → UInt16) (ds : List (ℕ × List UInt16)) (i : ℕ) (ss : List (List UInt8)) :
    draw f (ds ++ consecutive i (ss.map cellsOf)) = draw f (ds ++ [run i ss.flatten]) := by
  rw [draw_append, draw_append, draw_consecutive, run, cellsOf, List.map_flatten]
  rfl

/-- The runs of the title and of the exception. -/
def exceptionRuns (number name : List UInt8) : List (ℕ × List UInt16) :=
  [run 28 (text "*** KERNEL PANIC ***"), run 160 (exceptionLine number name)]

theorem draws_exception {number name : List UInt8} (hnumber : 0 ∉ number) (hname : 0 ∉ name)
    (hlen : number.length + name.length ≤ 40) :
    Draws screen size m₀ (exception number name) ()
      fun f => draw f (exceptionRuns number name) := by
  have hsize : size = 2000 := rfl
  have hstart : (text "  Exception #").length = 13 := rfl
  have hcolon : (text ": ").length = 2 := rfl
  refine .of_eq (.append (draws_writeAt (by decide) (by decide)) <|
    .append (draws_writeAt (by decide) (by decide)) <| .append (draws_writeAt hnumber ?_) <|
    .append (draws_writeAt (by decide) ?_) <| .append (draws_writeAt hname ?_) (draws_nil ()))
    fun f => ?_
  · omega
  · omega
  · omega
  · have hline := draw_line f [run 28 (text "*** KERNEL PANIC ***")] 160
      [text "  Exception #", number, text ": ", name]
    simpa only [run, exceptionRuns, exceptionLine, List.map_cons, List.map_nil, consecutive,
      length_cellsOf, List.flatten_cons, List.flatten_nil, List.append_nil, List.cons_append,
      List.nil_append] using hline

/-- The runs of the registers. -/
def registersRuns (regs : Registers) : List (ℕ × List UInt16) :=
  [run 322 (text "EAX="), run 326 (hexText regs.eax), run 342 (text "EBX="),
    run 346 (hexText regs.ebx), run 362 (text "ECX="), run 366 (hexText regs.ecx),
    run 382 (text "EDX="), run 386 (hexText regs.edx), run 402 (text "ESI="),
    run 406 (hexText regs.esi), run 422 (text "EDI="), run 426 (hexText regs.edi),
    run 442 (text "EBP="), run 446 (hexText regs.ebp), run 462 (text "ESP="),
    run 466 (hexText regs.esp), run 562 (text "EIP="), run 566 (hexText regs.eip),
    run 582 (text "EFLAGS="), run 589 (hexText regs.eflags), run 605 (text "ERR="),
    run 609 (hexText regs.errCode)]

theorem draws_registers (regs : Registers) :
    Draws screen size m₀ (registers regs) () fun f => draw f (registersRuns regs) := by
  refine .of_eq (.append (draws_writeAt (by decide) (by decide)) <|
    .append (draws_hexAt _ (by decide)) <| .append (draws_writeAt (by decide) (by decide)) <|
    .append (draws_hexAt _ (by decide)) <| .append (draws_writeAt (by decide) (by decide)) <|
    .append (draws_hexAt _ (by decide)) <| .append (draws_writeAt (by decide) (by decide)) <|
    .append (draws_hexAt _ (by decide)) <| .append (draws_writeAt (by decide) (by decide)) <|
    .append (draws_hexAt _ (by decide)) <| .append (draws_writeAt (by decide) (by decide)) <|
    .append (draws_hexAt _ (by decide)) <| .append (draws_writeAt (by decide) (by decide)) <|
    .append (draws_hexAt _ (by decide)) <| .append (draws_writeAt (by decide) (by decide)) <|
    .append (draws_hexAt _ (by decide)) <| .append (draws_writeAt (by decide) (by decide)) <|
    .append (draws_hexAt _ (by decide)) <| .append (draws_writeAt (by decide) (by decide)) <|
    .append (draws_hexAt _ (by decide)) <| .append (draws_writeAt (by decide) (by decide))
      (draws_hexAt _ (by decide))) fun f => rfl

/-- The runs of CR2 and of the cause. -/
def causeRuns (regs : Registers) (cr2 : UInt32) : List (ℕ × List UInt16) :=
  [run 722 (text "CR2 (faulting linear addr)= "), run 750 (hexText cr2)] ++
    if regs.intNo = 14 then [run 802 (causeLine regs.errCode)] else []

theorem msg_facts (e : UInt32) : (0 ∉ pMsg e ∧ (pMsg e).length = 16) ∧
    (0 ∉ rwMsg e ∧ (rwMsg e).length ≤ 5) ∧ (0 ∉ usMsg e ∧ (usMsg e).length ≤ 11) := by
  unfold pMsg rwMsg usMsg
  refine ⟨?_, ?_, ?_⟩
  · split <;> decide
  · split <;> decide
  · split <;> decide

theorem draws_cause (regs : Registers) (cr2 : UInt32) :
    Draws screen size m₀ (cause regs cr2) () fun f => draw f (causeRuns regs cr2) := by
  have hsize : size = 2000 := rfl
  have hon : (text " on ").length = 4 := rfl
  have hin : (text " in ").length = 4 := rfl
  obtain ⟨⟨hp, hplen⟩, ⟨hrw, hrwlen⟩, hus, huslen⟩ := msg_facts regs.errCode
  rw [cause, causeRuns]
  by_cases h14 : regs.intNo = 14
  · rw [if_pos h14, if_pos h14]
    refine .of_eq (.append (draws_writeAt (by decide) (by decide)) <|
      .append (draws_hexAt _ (by decide)) <| .append (draws_writeAt (by decide) (by decide)) <|
      .append (draws_writeAt hp ?_) <| .append (draws_writeAt (by decide) ?_) <|
      .append (draws_writeAt hrw ?_) <| .append (draws_writeAt (by decide) ?_) <|
      .append (draws_writeAt hus ?_) (draws_nil ())) fun f => ?_
    · omega
    · omega
    · omega
    · omega
    · omega
    · have hline := draw_line f [run 722 (text "CR2 (faulting linear addr)= "),
        run 750 (hexText cr2)] 802 [text "Cause: ", pMsg regs.errCode, text " on ",
          rwMsg regs.errCode, text " in ", usMsg regs.errCode]
      have hcause : (text "Cause: ").length = 7 := rfl
      simpa only [run, causeLine, List.map_cons, List.map_nil, consecutive, length_cellsOf, hcause,
        List.flatten_cons, List.flatten_nil, List.append_nil, List.cons_append, List.nil_append,
        Nat.reduceMul, Nat.reduceAdd] using hline
  · rw [if_neg h14, if_neg h14]
    exact .of_eq (.append (draws_writeAt (by decide) (by decide)) <|
      .append (draws_hexAt _ (by decide)) (draws_nil ())) fun _ => rfl

/-- The runs of a row of the stack. -/
def rowRuns (i : ℕ) (v : UInt32) : List (ℕ × List UInt16) :=
  [run (80 * (13 + i) + 4) (text "[esp+"), run ((13 + i) * 80 + 9) (hexText (.ofNat (i * 4))),
    run (80 * (13 + i) + 19) (text "] = "), run ((13 + i) * 80 + 23) (hexText v)]

/-- The runs of the stack. -/
def stackRuns (words : ℕ → ℕ) : List (ℕ × List UInt16) :=
  run 962 (text "Top of stack:") :: (List.range 8).flatMap fun i => rowRuns i (.ofNat (words i))

/-- The words on the stack lie beside the screen. -/
def Apart (esp : UInt32) : Prop :=
  ∀ k < 32, u32 (esp.toNat + k) < screen ∨ screen + 2 * size ≤ u32 (esp.toNat + k)

/-- The words on the stack. -/
def wordsAt (m : Mem) (esp : UInt32) (i : ℕ) : ℕ := m.read32 (esp.toNat + 4 * i)

theorem draws_stack {esp : UInt32} (h : Apart esp) :
    Draws screen size m₀ (stack esp) () fun f => draw f (stackRuns (wordsAt m₀ esp)) := by
  have hsize : size = 2000 := rfl
  have hesp : (text "[esp+").length = 5 := rfl
  have heq : (text "] = ").length = 4 := rfl
  refine .of_eq (.append (draws_writeAt (by decide) (by decide)) <|
    draws_forM (r := fun i => rowRuns i (.ofNat (wordsAt m₀ esp i))) fun i hi => ?_) fun _ => rfl
  have hi := List.mem_range.1 hi
  refine .of_eq (.append (draws_writeAt (by decide) ?_) <| .append (draws_hexAt _ ?_) <|
    .append (draws_writeAt (by decide) ?_) <| .append (draws_read32 fun k hk => ?_) <|
    draws_hexAt _ ?_) fun _ => rfl
  · omega
  · omega
  · omega
  · rw [Nat.add_assoc]
    exact h _ (by omega)
  · omega

/-! ### The screen -/

/-- The runs of a panic, in order. -/
def runs (number : List UInt8) (regs : Registers) (cr2 : UInt32) (words : ℕ → ℕ) :
    List (ℕ × List UInt16) :=
  exceptionRuns number (exceptionName regs.intNo) ++ (registersRuns regs ++
    (causeRuns regs cr2 ++ (stackRuns words ++
      [run 1842 (text "System halted. Reboot to recover.")])))

/-- The screen behind the repaint. -/
def blank (f : ℕ → UInt16) : ℕ → UInt16 :=
  put f 0 ((List.range size).map fun _ => cell 32 panicAttr)

theorem draws_repaint : Draws screen size m₀ repaint () blank := by
  have h : Draws screen size m₀ _ () _ := draws_forM_store (h := fun _ => cell 32 panicAttr) fits
    (show 0 + size ≤ size by decide)
  simp only [Nat.zero_add] at h
  exact h

theorem exceptionName_facts (intNo : UInt32) :
    0 ∉ exceptionName intNo ∧ (exceptionName intNo).length ≤ 29 := by
  unfold exceptionName
  split <;> decide

/-- **What `Trigger` draws.** -/
theorem draws_trigger {lit : ℤ → UInt8} {vs : List Int32} {regs : Registers} {number : List UInt8}
    (hnumber : returned lit vs regs.intNo.toInt32 = number) (h0 : 0 ∉ number)
    (hlen : number.length ≤ 2) (hapart : Apart regs.esp) (cr2 : UInt32) :
    Draws screen size m₀ (trigger lit vs regs cr2) ()
      fun f => draw (blank f) (runs number regs cr2 (wordsAt m₀ regs.esp)) := by
  obtain ⟨hname0, hnamelen⟩ := exceptionName_facts regs.intNo
  have hrest : Draws screen size m₀ (do
      exception number (exceptionName regs.intNo)
      registers regs
      cause regs cr2
      stack regs.esp
      let _ ← writeAt (80 * 23 + 2) (text "System halted. Reboot to recover.") panicAttr) ()
      fun f => draw f (runs number regs cr2 (wordsAt m₀ regs.esp)) := by
    refine .of_eq (.append (draws_exception h0 hname0 (by omega)) <|
      .append (draws_registers regs) <| .append (draws_cause regs cr2) <|
      .append (draws_stack hapart) <| .append (draws_writeAt (by decide) (by decide))
        (draws_nil ())) fun f => ?_
    rw [runs, List.append_nil]
  rw [trigger, hnumber]
  refine .of_eq (draws_repaint.bind (q := fun _ => _) hrest) fun f => ?_
  rw [Function.comp_apply]

end Panic

end Shiro
