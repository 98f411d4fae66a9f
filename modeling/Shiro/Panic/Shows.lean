import Shiro.Panic.Screen

/-!
# What a panic shows

* `Panic.Shows` : what can be read from a panic screen.
* `Panic.shows_trigger` : **every number that `Trigger` shows reads back**, and nothing else is on
  the screen.
-/

namespace Shiro

namespace Panic

open Drawing

/-! ### What can be read -/

/-- The characters of `n` cells. -/
def textOf (f : ℕ → UInt16) (i n : ℕ) : List UInt8 := (window f i n).map UInt16.toUInt8

/-- The number that `HexAt` has put at (`col`, `row`). -/
def hexOf (f : ℕ → UInt16) (row col : ℕ) : ℕ :=
  numeralValue 16 (textOf f (row * 80 + col + 2) 8)

/-- The number of an exception, in decimal.  Zero is shown as nothing. -/
def numberText (intNo : UInt32) : List UInt8 := if intNo = 0 then [] else numeral 10 intNo.toNat

/-- The line of an exception. -/
def heading (intNo : UInt32) : List UInt8 :=
  exceptionLine (numberText intNo) (exceptionName intNo)

/-- What the screen shows. -/
structure Shows (f : ℕ → UInt16) (regs : Registers) (cr2 : UInt32) (words : ℕ → ℕ) : Prop where
  exception : textOf f 160 (heading regs.intNo).length = heading regs.intNo
  eax : hexOf f 4 6 = regs.eax.toNat
  ebx : hexOf f 4 26 = regs.ebx.toNat
  ecx : hexOf f 4 46 = regs.ecx.toNat
  edx : hexOf f 4 66 = regs.edx.toNat
  esi : hexOf f 5 6 = regs.esi.toNat
  edi : hexOf f 5 26 = regs.edi.toNat
  ebp : hexOf f 5 46 = regs.ebp.toNat
  esp : hexOf f 5 66 = regs.esp.toNat
  eip : hexOf f 7 6 = regs.eip.toNat
  eflags : hexOf f 7 29 = regs.eflags.toNat
  errCode : hexOf f 7 49 = regs.errCode.toNat
  cr2 : hexOf f 9 30 = cr2.toNat
  cause : textOf f 802 (causeLine regs.errCode).length =
    if regs.intNo = 14 then causeLine regs.errCode
    else List.replicate (causeLine regs.errCode).length 32
  offset : ∀ i < 8, hexOf f (13 + i) 9 = 4 * i
  word : ∀ i < 8, hexOf f (13 + i) 23 = words i
  colour : ∀ i < size, f i >>> 8 = panicAttr.toUInt16

/-! ### Where the runs lie -/

/-- A structure of zeros, for what does not depend on the numbers. -/
def zeros : Registers := Isr.registersAt (fun _ => 0) 0

theorem span_run (i : ℕ) (s : List UInt8) : span (run i s) = (i, i + s.length) := by
  rw [span, run, length_cellsOf]

theorem stacked_exception {number name : List UInt8} (hlen : number.length + name.length ≤ 40) :
    Drawing.Stacked 0 320 (exceptionRuns number name) := by
  have htitle : (text "*** KERNEL PANIC ***").length = 20 := rfl
  have hstart : (text "  Exception #").length = 13 := rfl
  have hcolon : (text ": ").length = 2 := rfl
  have hspan : (exceptionRuns number name).map span =
      [(28, 48), (160, 160 + (13 + (number.length + (2 + name.length))))] := by
    simp only [exceptionRuns, exceptionLine, List.map_cons, List.map_nil, span_run,
      List.length_append, htitle, hstart, hcolon, Nat.reduceAdd]
  constructor
  · rw [Ordered, hspan]
    simp
  · rw [hspan]
    simp
    omega

theorem stacked_registers (regs : Registers) : Drawing.Stacked 320 640 (registersRuns regs) := by
  have h : Drawing.Stacked 320 640 (registersRuns zeros) := ⟨by decide +kernel, by decide +kernel⟩
  refine h.congr ?_
  simp only [registersRuns, List.map_cons, List.map_nil, span_run, length_hexText]

theorem stacked_cause (regs : Registers) (cr2 : UInt32) :
    Drawing.Stacked 640 900 (causeRuns regs cr2) := by
  have h : Drawing.Stacked 640 800
      [run 722 (text "CR2 (faulting linear addr)= "), run 750 (hexText 0)] :=
    ⟨by decide +kernel, by decide +kernel⟩
  refine .append (h.congr (by simp only [List.map_cons, span_run, length_hexText])) ?_ (by decide)
    (by decide)
  split
  · obtain ⟨⟨-, hp⟩, ⟨-, hrw⟩, -, hus⟩ := msg_facts regs.errCode
    have hstart : (text "Cause: ").length = 7 := rfl
    have hon : (text " on ").length = 4 := rfl
    have hin : (text " in ").length = 4 := rfl
    have hspan : [run 802 (causeLine regs.errCode)].map span =
        [(802, 802 + (7 + (16 + (4 + ((rwMsg regs.errCode).length +
          (4 + (usMsg regs.errCode).length))))))] := by
      simp only [causeLine, List.map_cons, List.map_nil, span_run, List.length_append, hp, hstart,
        hon, hin]
    constructor
    · rw [Ordered, hspan]
      exact List.pairwise_singleton _ _
    · rw [hspan]
      simp
      omega
  · exact ⟨List.Pairwise.nil, fun _ hx => absurd hx List.not_mem_nil⟩

theorem stacked_stack (words : ℕ → ℕ) : Drawing.Stacked 900 1800 (stackRuns words) := by
  have h : Drawing.Stacked 900 1800 (stackRuns fun _ => 0) := ⟨by decide +kernel, by decide +kernel⟩
  refine h.congr ?_
  simp only [stackRuns, rowRuns, List.map_cons, List.map_nil, List.map_flatMap, span_run,
    length_hexText]

/-- **No two runs share a cell.** -/
theorem stacked_runs {number : List UInt8} (hlen : number.length ≤ 2) (regs : Registers)
    (cr2 : UInt32) (words : ℕ → ℕ) : Drawing.Stacked 0 2000 (runs number regs cr2 words) := by
  have hname := (exceptionName_facts regs.intNo).2
  have hend : Drawing.Stacked 1800 2000 [run 1842 (text "System halted. Reboot to recover.")] :=
    ⟨by decide +kernel, by decide +kernel⟩
  exact .append (stacked_exception (by omega)) (.append (stacked_registers regs)
    (.append (stacked_cause regs cr2) (.append (stacked_stack words) hend (by decide) (by decide))
      (by decide) (by decide)) (by decide) (by decide)) (by decide) (by decide)

/-! ### Reading -/

variable {f : ℕ → UInt16} {ds : List (ℕ × List UInt16)} {i row col : ℕ} {s : List UInt8}
  {v : UInt32} {number : List UInt8} {regs : Registers} {cr2 : UInt32} {words : ℕ → ℕ}

theorem textOf_draw (h : Ordered ds) (hmem : run i s ∈ ds) :
    textOf (draw f ds) i s.length = s := by
  have hwindow := window_draw (f := f) h hmem
  rw [run, length_cellsOf] at hwindow
  rw [textOf, hwindow, map_toUInt8_cellsOf]

theorem hexOf_draw (h : Ordered ds) (hmem : run (row * 80 + col) (hexText v) ∈ ds) :
    hexOf (draw f ds) row col = v.toNat := by
  have hall := textOf_draw (f := f) h hmem
  have hsplit : textOf (draw f ds) (row * 80 + col) (hexText v).length =
      textOf (draw f ds) (row * 80 + col) 2 ++ textOf (draw f ds) (row * 80 + col + 2) 8 := by
    rw [length_hexText, textOf, window_append _ _ 2 8, List.map_append]
    rfl
  have hlen : (textOf (draw f ds) (row * 80 + col) 2).length = 2 := by
    rw [textOf, List.length_map, length_window]
  rw [hexOf, ← numeralValue_hexText v, ← hall, hsplit, List.drop_left' hlen]

/-- A row of the stack is among the runs. -/
theorem mem_runs_of_row {d : ℕ × List UInt16} (hi : i < 8)
    (hd : d ∈ rowRuns i (.ofNat (words i))) : d ∈ runs number regs cr2 words := by
  refine List.mem_append_right _ (List.mem_append_right _ (List.mem_append_right _
    (List.mem_append_left _ (List.mem_cons_of_mem _ ?_))))
  exact List.mem_flatMap.2 ⟨i, List.mem_range.2 hi, hd⟩

/-- The line of the cause is left blank by the other runs. -/
theorem draw_cause_of_ne (hlen : number.length ≤ 2) (h14 : regs.intNo ≠ 14) {k : ℕ}
    (hlo : 800 ≤ k) (hhi : k < 900) : draw f (runs number regs cr2 words) k = f k := by
  have hname := (exceptionName_facts regs.intNo).2
  have hcause : Drawing.Stacked 640 800 (causeRuns regs cr2) := by
    have h : Drawing.Stacked 640 800
        [run 722 (text "CR2 (faulting linear addr)= "), run 750 (hexText 0)] :=
      ⟨by decide +kernel, by decide +kernel⟩
    rw [causeRuns, if_neg h14, List.append_nil]
    exact h.congr (by simp only [List.map_cons, span_run, length_hexText])
  refine draw_of_outside fun d hd => ?_
  rcases List.mem_append.1 hd with hd | hd
  · have : d.1 + d.2.length ≤ 320 := ((stacked_exception (by omega)).within (span d)
      (List.mem_map_of_mem hd)).2
    omega
  rcases List.mem_append.1 hd with hd | hd
  · have : d.1 + d.2.length ≤ 640 := ((stacked_registers regs).within (span d)
      (List.mem_map_of_mem hd)).2
    omega
  rcases List.mem_append.1 hd with hd | hd
  · have : d.1 + d.2.length ≤ 800 := (hcause.within (span d) (List.mem_map_of_mem hd)).2
    omega
  rcases List.mem_append.1 hd with hd | hd
  · have : 900 ≤ d.1 := ((stacked_stack words).within (span d) (List.mem_map_of_mem hd)).1
    omega
  · rw [List.mem_singleton.1 hd]
    exact .inl (hhi.trans_le (by decide))

/-! ### Colours -/

/-- The run is drawn in the colours of a panic. -/
def Coloured (d : ℕ × List UInt16) : Prop := ∀ x ∈ d.2, x >>> 8 = panicAttr.toUInt16

theorem coloured_run (h : ∀ c ∈ s, c < 128) : Coloured (run i s) := by
  intro x hx
  obtain ⟨c, hc, rfl⟩ := List.mem_map.1 hx
  exact shiftRight_cell (h c hc)

/-- The texts of the source are tested byte by byte: `decide` would try the quantifier on all 256
bytes. -/
theorem ascii_of_all (h : s.all (· < 128)) : ∀ c ∈ s, c < 128 :=
  fun c hc => of_decide_eq_true (List.all_eq_true.1 h c hc)

theorem coloured_literal (h : s.all (· < 128)) : Coloured (run i s) :=
  coloured_run (ascii_of_all h)

theorem coloured_hexText (i : ℕ) (v : UInt32) : Coloured (run i (hexText v)) :=
  coloured_run (ascii_hexText v)

theorem ascii_msg (e : UInt32) :
    (∀ c ∈ pMsg e, c < 128) ∧ (∀ c ∈ rwMsg e, c < 128) ∧ ∀ c ∈ usMsg e, c < 128 := by
  unfold pMsg rwMsg usMsg
  refine ⟨?_, ?_, ?_⟩
  · split <;> exact ascii_of_all (by decide)
  · split <;> exact ascii_of_all (by decide)
  · split <;> exact ascii_of_all (by decide)

theorem ascii_causeLine (e : UInt32) : ∀ c ∈ causeLine e, c < 128 := by
  obtain ⟨hp, hrw, hus⟩ := ascii_msg e
  simp only [causeLine, List.forall_mem_append]
  exact ⟨ascii_of_all (by decide), hp, ascii_of_all (by decide), hrw, ascii_of_all (by decide), hus⟩

theorem ascii_exceptionName (intNo : UInt32) : ∀ c ∈ exceptionName intNo, c < 128 := by
  unfold exceptionName
  split <;> exact ascii_of_all (by decide)

theorem numberText_facts {intNo : UInt32} (h : intNo < 32) : 0 ∉ numberText intNo ∧
    (numberText intNo).length ≤ 2 ∧ ∀ c ∈ numberText intNo, c < 128 := by
  have hlt : intNo.toNat < 10 ^ 2 := (UInt32.lt_iff_toNat_lt.1 h).trans (by decide)
  have hdigit : ∀ d < 10, digit d < 128 := by decide
  unfold numberText
  split
  · exact ⟨List.not_mem_nil, Nat.zero_le _, fun _ hc => absurd hc List.not_mem_nil⟩
  · refine ⟨zero_notMem_numeral (by decide) (by decide) _,
      (length_numeral_le_iff (by decide) (by decide)).2 hlt, fun c hc => ?_⟩
    obtain ⟨d, hd, rfl⟩ := mem_numeral (by decide) hc
    exact hdigit d hd

/-- **All runs are drawn in the same colours.** -/
theorem coloured_runs (hnumber : ∀ c ∈ number, c < 128) (regs : Registers) (cr2 : UInt32)
    (words : ℕ → ℕ) : ∀ d ∈ runs number regs cr2 words, Coloured d := by
  have hhex := coloured_hexText
  simp only [runs, List.forall_mem_append]
  refine ⟨?_, ?_, ?_, ?_, ?_⟩
  · simp only [exceptionRuns, List.forall_mem_cons]
    refine ⟨coloured_literal (by decide), coloured_run ?_,
      fun _ hd => absurd hd List.not_mem_nil⟩
    simp only [exceptionLine, List.forall_mem_append]
    exact ⟨ascii_of_all (by decide), hnumber, ascii_of_all (by decide), ascii_exceptionName _⟩
  · simp only [registersRuns, List.forall_mem_cons, hhex, true_and]
    refine ⟨coloured_literal ?_, coloured_literal ?_, coloured_literal ?_, coloured_literal ?_,
      coloured_literal ?_, coloured_literal ?_, coloured_literal ?_, coloured_literal ?_,
      coloured_literal ?_, coloured_literal ?_, coloured_literal ?_,
      fun _ hd => absurd hd List.not_mem_nil⟩ <;> decide
  · simp only [causeRuns, List.forall_mem_append, List.forall_mem_cons, hhex, true_and]
    refine ⟨⟨coloured_literal (by decide), fun _ hd => absurd hd List.not_mem_nil⟩, ?_⟩
    split
    · exact List.forall_mem_singleton.2 (coloured_run (ascii_causeLine _))
    · exact fun _ hd => absurd hd List.not_mem_nil
  · simp only [stackRuns, List.forall_mem_cons, List.forall_mem_flatMap]
    refine ⟨coloured_literal (by decide), fun i _ => ?_⟩
    simp only [rowRuns, List.forall_mem_cons, hhex, true_and]
    exact ⟨coloured_literal (by decide), coloured_literal (by decide),
      fun _ hd => absurd hd List.not_mem_nil⟩
  · exact List.forall_mem_singleton.2 (coloured_literal (by decide))

/-! ### The screen -/

theorem shows_runs (h32 : regs.intNo < 32) (hf : ∀ i < size, f i = cell 32 panicAttr)
    (hwords : ∀ i < 8, words i < 2 ^ 32) :
    Shows (draw f (runs (numberText regs.intNo) regs cr2 words)) regs cr2 words := by
  obtain ⟨-, hlen, hascii⟩ := numberText_facts h32
  have h := (stacked_runs hlen regs cr2 words).ordered
  have hcoloured := coloured_runs hascii regs cr2 words
  exact {
    exception := textOf_draw h (by simp [runs, exceptionRuns, heading])
    eax := hexOf_draw h (by simp [runs, registersRuns])
    ebx := hexOf_draw h (by simp [runs, registersRuns])
    ecx := hexOf_draw h (by simp [runs, registersRuns])
    edx := hexOf_draw h (by simp [runs, registersRuns])
    esi := hexOf_draw h (by simp [runs, registersRuns])
    edi := hexOf_draw h (by simp [runs, registersRuns])
    ebp := hexOf_draw h (by simp [runs, registersRuns])
    esp := hexOf_draw h (by simp [runs, registersRuns])
    eip := hexOf_draw h (by simp [runs, registersRuns])
    eflags := hexOf_draw h (by simp [runs, registersRuns])
    errCode := hexOf_draw h (by simp [runs, registersRuns])
    cr2 := hexOf_draw h (by simp [runs, causeRuns])
    cause := by
      obtain ⟨⟨-, hp⟩, ⟨-, hrw⟩, -, hus⟩ := msg_facts regs.errCode
      split
      · rename_i h14
        exact textOf_draw h (by simp [runs, causeRuns, h14])
      · rename_i h14
        have hstart : (causeLine regs.errCode).length ≤ 47 := by
          have hcause : (text "Cause: ").length = 7 := rfl
          have hon : (text " on ").length = 4 := rfl
          have hin : (text " in ").length = 4 := rfl
          simp only [causeLine, List.length_append, hcause, hon, hin]
          omega
        have hblank : window (draw f (runs (numberText regs.intNo) regs cr2 words)) 802
            (causeLine regs.errCode).length =
            List.replicate (causeLine regs.errCode).length (cell 32 panicAttr) := by
          refine List.eq_replicate_iff.2 ⟨length_window _ _ _, fun x hx => ?_⟩
          obtain ⟨k, hk, rfl⟩ := List.mem_map.1 hx
          have hk := List.mem_range.1 hk
          rw [draw_cause_of_ne hlen h14 (by omega) (by omega)]
          exact hf _ (by unfold size; omega)
        rw [textOf, hblank, List.map_replicate, toUInt8_cell]
    offset := fun i hi => by
      have hoff := hexOf_draw (f := f) h (mem_runs_of_row hi (d := run ((13 + i) * 80 + 9)
        (hexText (.ofNat (i * 4)))) (by simp [rowRuns]))
      rw [hoff, UInt32.toNat_ofNat']
      omega
    word := fun i hi => by
      have hword := hexOf_draw (f := f) h (mem_runs_of_row hi (d := run ((13 + i) * 80 + 23)
        (hexText (.ofNat (words i)))) (by simp [rowRuns]))
      rw [hword, UInt32.toNat_ofNat', Nat.mod_eq_of_lt (hwords i hi)]
    colour := fun i hi => by
      refine forall_draw (P := fun k (x : UInt16) => k < size → x >>> 8 = panicAttr.toUInt16)
        (fun k hk => ?_) (fun d hd x hx _ _ => hcoloured d hd x hx) i hi
      rw [hf k hk]
      exact shiftRight_cell (by decide) }

/-- What `int2char` returns for the number of an exception. -/
theorem returned_intNo {lit : ℤ → UInt8} (hlit : HoldsLiteral lit) (vs : List Int32) {intNo : UInt32}
    (h : intNo < 32) : returned lit vs intNo.toInt32 = numberText intNo := by
  have hlt : intNo.toNat < 32 := UInt32.lt_iff_toNat_lt.1 h
  have hint : intNo.toInt32.toInt = intNo.toNat := by
    exact BitVec.toInt_eq_toNat_of_lt (show 2 * intNo.toNat < 2 ^ 32 by omega)
  rw [numberText]
  split
  · rename_i h0
    exact returned_of_zero lit vs (by rw [hint, h0]; rfl)
  · rename_i h0
    have hpos : 0 < intNo.toNat :=
      Nat.pos_of_ne_zero fun h => h0 (UInt32.toNat_inj.1 h)
    rw [returned_of_pos hlit vs (by omega), hint, Int.toNat_natCast]

/-- What `Trigger` does to the memory, and what it draws. -/
theorem trigger_cells {lit : ℤ → UInt8} (hlit : HoldsLiteral lit) (vs : List Int32)
    (h32 : regs.intNo < 32) (hapart : Apart regs.esp) (cr2 : UInt32) (m : Mem) :
    OnlyIn m (trigger lit vs regs cr2 m).2 screen (screen + 2 * size) ∧
      Shows (cells screen size (trigger lit vs regs cr2 m).2) regs cr2 (wordsAt m regs.esp) := by
  obtain ⟨h0, hlen, -⟩ := numberText_facts h32
  obtain ⟨-, honly, hcells⟩ := draws_trigger (returned_intNo hlit vs h32) h0 hlen hapart
    cr2 m (OnlyIn.refl m _ _)
  rw [hcells]
  refine ⟨honly, shows_runs h32 (fun i hi => ?_) fun i _ => m.read32_lt _⟩
  have hput := put_of_lt (f := cells screen size m) (i := 0)
    (show i < ((List.range size).map fun _ => cell 32 panicAttr).length by
      rwa [List.length_map, List.length_range])
  rwa [Nat.zero_add, List.getElem_map] at hput

/-- **Every number that `Trigger` shows reads back**, whatever was on the screen before, and it
changes nothing but the screen. -/
theorem shows_trigger {lit : ℤ → UInt8} (hlit : HoldsLiteral lit) (vs : List Int32)
    (h32 : regs.intNo < 32) (hapart : Apart regs.esp) (cr2 : UInt32) (m : Mem) :
    Shows (cells screen size (trigger lit vs regs cr2 m).2) regs cr2 (wordsAt m regs.esp) ∧
      OnlyIn m (trigger lit vs regs cr2 m).2 screen (screen + 2 * size) :=
  (trigger_cells hlit vs h32 hapart cr2 m).symm

/-- A breakpoint. -/
def breakpoint : Registers := { zeros with intNo := 3, eip := 0x101234, esp := 0x8000 }

theorem shows_trigger_breakpoint :
    Shows (cells screen size (trigger literalAlone [] breakpoint 0 fun _ => 0).2) breakpoint 0
        (wordsAt (fun _ => 0) 0x8000) ∧
      OnlyIn (fun _ => 0) (trigger literalAlone [] breakpoint 0 fun _ => 0).2 screen
        (screen + 2 * size) :=
  shows_trigger holdsLiteral_literalAlone [] (by decide) (by unfold Apart; decide +kernel) 0 _

end Panic

end Shiro
