import Mathlib.Data.List.Induction
import Shiro.Lib.I8259
import Shiro.Lib.Word

/-!
# The interrupt lines

`PIC::Start` initialises the two interrupt controllers and masks all their lines.  `PIC::Unmask` and
`PIC::Mask` change the bit of one line in the register of its chip.  The lines from 8 on belong to
the slave, whose output is line 2 of the master, and nothing ever opens that line.

* `remap`, `start`, `mask`, `unmask` : the functions, on the ports of the pair.
* `masked_change` : **what a call does to the bits of all the lines.**
* `delivers_iff` : the lines that get through after a series of calls.
* `obeys_iff`, `obeys_prefixes_iff` : **exactly when** a series of calls opens the lines it should,
  at its end and all along.
-/

namespace Shiro

namespace Pic

/-! ### The functions -/

/-- `PIC1_CMD`. -/
def pic1Cmd : ℕ := 0x20

/-- `PIC1_DATA`. -/
def pic1Data : ℕ := 0x21

/-- `PIC2_CMD`. -/
def pic2Cmd : ℕ := 0xA0

/-- `PIC2_DATA`. -/
def pic2Data : ℕ := 0xA1

/-- `ICW1_INIT | ICW1_ICW4`. -/
def icw1 : BitVec 8 := 0x10 ||| 0x01

/-- `ICW4_8086`. -/
def icw4 : BitVec 8 := 0x01

/-- `outb(port, value)`. -/
def outb (p : I8259Pair) (port : ℕ) (value : BitVec 8) : I8259Pair :=
  if port = pic1Cmd then { p with master := p.master.command value }
  else if port = pic1Data then { p with master := p.master.data value }
  else if port = pic2Cmd then { p with slave := p.slave.command value }
  else if port = pic2Data then { p with slave := p.slave.data value }
  else p

/-- `inb(port)`, for the two data ports. -/
def inb (p : I8259Pair) (port : ℕ) : BitVec 8 :=
  if port = pic1Data then p.master.imr else p.slave.imr

/-- `PIC::Remap(master_offset, slave_offset)`. -/
def remap (p : I8259Pair) (masterOffset slaveOffset : BitVec 8) : I8259Pair :=
  let maskMaster := inb p pic1Data
  let maskSlave := inb p pic2Data
  let p := outb p pic1Cmd icw1
  let p := outb p pic2Cmd icw1
  let p := outb p pic1Data masterOffset
  let p := outb p pic2Data slaveOffset
  let p := outb p pic1Data 0x04
  let p := outb p pic2Data 0x02
  let p := outb p pic1Data icw4
  let p := outb p pic2Data icw4
  let p := outb p pic1Data maskMaster
  outb p pic2Data maskSlave

/-- `PIC::Start()`. -/
def start (p : I8259Pair) : I8259Pair :=
  let p := remap p 0x20 0x28
  let p := outb p pic1Data 0xFF
  outb p pic2Data 0xFF

/-- The port of a line, and its bit there. -/
def portBit (irq : ℕ) : ℕ × ℕ := if irq < 8 then (pic1Data, irq) else (pic2Data, irq - 8)

/-- `PIC::Unmask(irq)`. -/
def unmask (p : I8259Pair) (irq : ℕ) : I8259Pair :=
  let (port, bit) := portBit irq
  let mask := inb p port &&& ~~~BitVec.ofNat 8 (1 <<< bit)
  outb p port mask

/-- `PIC::Mask(irq)`. -/
def mask (p : I8259Pair) (irq : ℕ) : I8259Pair :=
  let (port, bit) := portBit irq
  let mask := inb p port ||| BitVec.ofNat 8 (1 <<< bit)
  outb p port mask

/-! ### Calls -/

/-- A line that a driver may name: any but the one the slave is on. -/
structure Line where
  irq : Fin 16
  not_cascade : irq ≠ 2
  deriving DecidableEq

attribute [ext] Line

/-- A call of a driver. -/
inductive Call where
  | mask (line : Line)
  | unmask (line : Line)
  deriving DecidableEq

/-- The line that a call names. -/
def Call.line : Call → Line
  | .mask l => l
  | .unmask l => l

/-- What a call does. -/
def Call.run (p : I8259Pair) : Call → I8259Pair
  | .mask l => Pic.mask p l.irq
  | .unmask l => Pic.unmask p l.irq

/-- The last call that names the line `l` is `Unmask`. -/
def LastUnmasks (cs : List Call) (l : Line) : Prop :=
  ∃ pre post, cs = pre ++ .unmask l :: post ∧ ∀ c ∈ post, c.line ≠ l

/-- After the calls `cs` exactly the lines get through that were unmasked last. -/
def Obeys (p : I8259Pair) (cs : List Call) : Prop :=
  ∀ l : Line, (cs.foldl Call.run (start p)).Delivers l.irq ↔ LastUnmasks cs l

variable {p : I8259Pair} {l : Line} {c : Call} {cs : List Call}

theorem lastUnmasks_append (cs : List Call) (c : Call) (l : Line) :
    LastUnmasks (cs ++ [c]) l ↔ c = .unmask l ∨ (c.line ≠ l ∧ LastUnmasks cs l) := by
  constructor
  · rintro ⟨pre, post, heq, hpost⟩
    rcases List.eq_nil_or_concat post with rfl | ⟨post, d, rfl⟩
    · obtain ⟨-, hc⟩ := List.append_inj' heq rfl
      exact .inl (by simpa using hc)
    · rw [List.concat_eq_append, ← List.cons_append, ← List.append_assoc] at heq
      obtain ⟨rfl, hc⟩ := List.append_inj' heq rfl
      obtain rfl : c = d := by simpa using hc
      exact .inr ⟨hpost c (by simp), pre, post, rfl, fun e he => hpost e (by simp [he])⟩
  · rintro (rfl | ⟨hne, pre, post, rfl, hpost⟩)
    · exact ⟨cs, [], rfl, by simp⟩
    · refine ⟨pre, post ++ [c], by simp, fun d hd => ?_⟩
      rcases List.mem_append.1 hd with hd | hd
      · exact hpost d hd
      · rw [List.mem_singleton.1 hd]
        exact hne

/-! ### The registers -/

/-- `PIC::Start` leaves both chips initialised and all lines masked, whatever state they were in. -/
theorem start_eq (p : I8259Pair) : start p = ⟨⟨0xFF, 0x20, []⟩, ⟨0xFF, 0x28, []⟩⟩ := by
  have hmaster : (start p).master = (((((p.master.command icw1).data 0x20).data 0x04).data
    icw4).data p.master.imr).data 0xFF := rfl
  have hslave : (start p).slave = (((((p.slave.command icw1).data 0x28).data 0x02).data
    icw4).data p.slave.imr).data 0xFF := rfl
  have hicw1 : icw1 = 0x11 := rfl
  rw [hicw1, I8259.initialise_eq, I8259.data_of_ready rfl] at hmaster hslave
  exact congrArg₂ I8259Pair.mk hmaster hslave

theorem start_ready (p : I8259Pair) : (start p).Ready := by
  rw [start_eq]
  exact ⟨rfl, rfl⟩

theorem masked_start (p : I8259Pair) (irq : Fin 16) : (start p).masked irq = true := by
  rw [start_eq]
  revert irq
  decide

theorem masked_eq (p : I8259Pair) (irq : ℕ) :
    p.masked irq = (inb p (portBit irq).1).getLsbD (portBit irq).2 := by
  unfold I8259Pair.masked portBit inb
  split <;> rfl

theorem port_cases (irq : ℕ) : (portBit irq).1 = pic1Data ∨ (portBit irq).1 = pic2Data := by
  unfold portBit
  split
  · exact .inl rfl
  · exact .inr rfl

theorem outb_pic1Data (hp : p.Ready) (v : BitVec 8) :
    outb p pic1Data v = { p with master := { p.master with imr := v } } := by
  rw [← I8259.data_of_ready hp.master]
  rfl

theorem outb_pic2Data (hp : p.Ready) (v : BitVec 8) :
    outb p pic2Data v = { p with slave := { p.slave with imr := v } } := by
  rw [← I8259.data_of_ready hp.slave]
  rfl

/-- The two data ports are the two mask registers. -/
theorem inb_outb (hp : p.Ready) (irq j : ℕ) (v : BitVec 8) :
    inb (outb p (portBit irq).1 v) (portBit j).1 =
      if (portBit irq).1 = (portBit j).1 then v else inb p (portBit j).1 := by
  rcases port_cases irq with hi | hi <;> rcases port_cases j with hj | hj <;> rw [hi, hj]
  · rw [outb_pic1Data hp]
    rfl
  · rw [outb_pic1Data hp]
    rfl
  · rw [outb_pic2Data hp]
    rfl
  · rw [outb_pic2Data hp]
    rfl

/-- A new mask leaves the chips initialised. -/
theorem outb_ready (hp : p.Ready) (irq : ℕ) (v : BitVec 8) : (outb p (portBit irq).1 v).Ready := by
  rcases port_cases irq with hi | hi <;> rw [hi]
  · rw [outb_pic1Data hp]
    exact ⟨hp.master, hp.slave⟩
  · rw [outb_pic2Data hp]
    exact ⟨hp.master, hp.slave⟩

theorem portBit_lt (irq : Fin 16) : (portBit irq).2 < 8 := by
  unfold portBit
  split <;> omega

/-- Two lines with the same port and bit are the same line. -/
theorem eq_of_portBit {irq j : Fin 16} (hport : (portBit irq).1 = (portBit j).1)
    (hbit : (portBit irq).2 = (portBit j).2) : irq = j := by
  revert irq j
  decide

/-- A write to the register of the line `irq` that differs from it in the bit of that line only. -/
theorem masked_outb (hp : p.Ready) {irq : Fin 16} {b : Bool} {v : BitVec 8}
    (hv : ∀ i < 8, v.getLsbD i =
      if i = (portBit irq).2 then b else (inb p (portBit irq).1).getLsbD i) (j : Fin 16) :
    (outb p (portBit irq).1 v).masked j = if irq = j then b else p.masked j := by
  rw [masked_eq, inb_outb hp, masked_eq]
  by_cases hport : (portBit irq).1 = (portBit j).1
  · rw [if_pos hport, hv _ (portBit_lt j), hport]
    by_cases hbit : (portBit j).2 = (portBit irq).2
    · rw [if_pos hbit, if_pos (eq_of_portBit hport hbit.symm)]
    · rw [if_neg hbit, if_neg fun h => hbit (by rw [h])]
  · rw [if_neg hport, if_neg fun h => hport (by rw [h])]

theorem mask_eq (p : I8259Pair) (irq : ℕ) : mask p irq =
    outb p (portBit irq).1 (inb p (portBit irq).1 ||| BitVec.ofNat 8 (1 <<< (portBit irq).2)) := rfl

theorem unmask_eq (p : I8259Pair) (irq : ℕ) : unmask p irq =
    outb p (portBit irq).1
      (inb p (portBit irq).1 &&& ~~~BitVec.ofNat 8 (1 <<< (portBit irq).2)) := rfl

/-- **`PIC::Mask` sets the bit of its own line and leaves all the others alone.** -/
theorem masked_mask (hp : p.Ready) (irq j : Fin 16) :
    (mask p irq).masked j = if irq = j then true else p.masked j := by
  rw [mask_eq]
  refine masked_outb hp (fun i hi => ?_) j
  rw [ofNat_shiftLeft, BitVec.getLsbD_or, BitVec.getLsbD_twoPow]
  by_cases hbit : i = (portBit irq).2
  · simp [hbit, portBit_lt irq]
  · simp [hbit, Ne.symm hbit]

/-- **`PIC::Unmask` clears the bit of its own line and leaves all the others alone.** -/
theorem masked_unmask (hp : p.Ready) (irq j : Fin 16) :
    (unmask p irq).masked j = if irq = j then false else p.masked j := by
  rw [unmask_eq]
  refine masked_outb hp (fun i hi => ?_) j
  rw [ofNat_shiftLeft, BitVec.getLsbD_and, BitVec.getLsbD_not, BitVec.getLsbD_twoPow]
  by_cases hbit : i = (portBit irq).2
  · simp [hbit, portBit_lt irq]
  · simp [hi, hbit, Ne.symm hbit]

/-! ### Series of calls -/

theorem Call.run_ready (hp : p.Ready) (c : Call) : (c.run p).Ready := by
  cases c with
  | mask l => exact outb_ready hp _ _
  | unmask l => exact outb_ready hp _ _

/-- **What a call does to the bits of all the lines.** -/
theorem Call.masked_run (hp : p.Ready) (c : Call) (j : Fin 16) :
    (c.run p).masked j = if c.line.irq = j then decide (c = .mask c.line) else p.masked j := by
  cases c with
  | mask l => simpa [Call.run, Call.line] using masked_mask hp l.irq j
  | unmask l => simpa [Call.run, Call.line] using masked_unmask hp l.irq j

/-- The line of the slave stays masked; every other line is open if it was unmasked last. -/
structure Tracks (cs : List Call) (p : I8259Pair) : Prop where
  ready : p.Ready
  cascade : p.masked 2 = true
  lines : ∀ l : Line, p.masked l.irq = false ↔ LastUnmasks cs l

theorem tracks_start (p : I8259Pair) : Tracks [] (start p) := by
  refine ⟨start_ready p, masked_start p 2, fun l => iff_of_false ?_ ?_⟩
  · rw [masked_start]
    decide
  · rintro ⟨pre, post, h, -⟩
    simp at h

theorem Tracks.call (hp : Tracks cs p) (c : Call) : Tracks (cs ++ [c]) (c.run p) := by
  have hrun := fun j => Call.masked_run hp.ready c j
  refine ⟨Call.run_ready hp.ready c, ?_, fun l => ?_⟩
  · rw [← hp.cascade]
    exact (hrun 2).trans (if_neg c.line.not_cascade)
  · rw [hrun, lastUnmasks_append]
    by_cases hl : c.line.irq = l.irq
    · obtain rfl : c.line = l := Line.ext hl
      cases c <;> simp [Call.line]
    · rw [if_neg hl, hp.lines]
      have hne : c.line ≠ l := fun h => hl (by rw [h])
      have hc : c ≠ .unmask l := fun h => hne (by rw [h]; rfl)
      simp [hne, hc]

theorem tracks_calls (p : I8259Pair) (cs : List Call) :
    Tracks cs (cs.foldl Call.run (start p)) := by
  induction cs using List.reverseRecOn with
  | nil => exact tracks_start p
  | append_singleton cs c ih =>
    rw [List.foldl_append]
    exact ih.call c

/-- **The lines that get through**: those of the master that were unmasked last. -/
theorem delivers_iff (p : I8259Pair) (cs : List Call) (l : Line) :
    (cs.foldl Call.run (start p)).Delivers l.irq ↔ LastUnmasks cs l ∧ l.irq < 8 := by
  have h := tracks_calls p cs
  rw [I8259Pair.Delivers, h.lines, h.cascade]
  simp only [Bool.true_eq_false, imp_false, not_le]
  rfl

/-- **Exactly the lines get through that were unmasked last**, if and only if none of the lines that
were unmasked last belongs to the slave. -/
theorem obeys_iff (p : I8259Pair) (cs : List Call) :
    Obeys p cs ↔ ∀ l, LastUnmasks cs l → l.irq < 8 := by
  refine forall_congr' fun l => ?_
  rw [delivers_iff]
  exact and_iff_left_iff_imp

/-- All along a series of calls this means that no call unmasks a line of the slave. -/
theorem obeys_prefixes_iff (p : I8259Pair) (cs : List Call) :
    (∀ pre, pre <+: cs → Obeys p pre) ↔ ∀ l, .unmask l ∈ cs → l.irq < 8 := by
  constructor
  · intro h l hmem
    obtain ⟨pre, post, rfl⟩ := List.append_of_mem hmem
    -- right behind the call the line should get through
    have hlast : LastUnmasks (pre ++ [.unmask l]) l := ⟨pre, [], rfl, by simp⟩
    have hdelivers := (h (pre ++ [.unmask l]) ⟨post, by simp⟩ l).2 hlast
    exact ((delivers_iff p _ l).1 hdelivers).2
  · intro h pre hpre l
    rw [delivers_iff]
    refine and_iff_left_of_imp ?_
    rintro ⟨before, after, rfl, -⟩
    exact h l (hpre.subset (by simp))

/-- The line of the real-time clock, the first of the slave. -/
def clockLine : Line := ⟨8, by decide⟩

/-- The line of the real-time clock does not get through when it is unmasked. -/
theorem not_obeys_clock : ¬ ∀ (p : I8259Pair) (cs : List Call), Obeys p cs := by
  intro hall
  have hdelivers := (hall ⟨⟨0, 0, []⟩, ⟨0, 0, []⟩⟩ [.unmask clockLine] clockLine).2
    ⟨[], [], rfl, by simp⟩
  exact absurd hdelivers (by decide)

end Pic

end Shiro
