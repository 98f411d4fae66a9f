import Mathlib.Data.Fintype.Basic
import Shiro.Isr.Stub
import Shiro.Lib.InService
import Shiro.Lib.Lts
import Shiro.Pic.Lines

/-!
# Interrupts in service

The devices raise their lines and take them back as they like, the processor acknowledges an
interrupt when none is being handled, `ISR::Handler` ends with `PIC::EndOfInterrupt`, and the
drivers mask and unmask their lines.  The controllers may also find a request gone when the
processor asks for it, and then give the number of line 7.

* `endOfInterrupt`, `Irqs.step` : the acknowledgements that the kernel sends, and the system.
* `in_service` : **in every reachable state** the lines in service are those of the running handler.
* `interrupt_first` : the processor gets the waiting line that comes first, and only then.
* `bounded_waiting` : **a line waits for no more acknowledged lines** than there are before it.  An
  acknowledgement for which the slave finds its request gone takes no line and is not counted.
-/

namespace Shiro

open I8259Lines

namespace Pic

/-- `PIC_EOI`. -/
def picEoi : BitVec 8 := 0x20

/-- `outb(port, value)`, with what it does to the lines in service. -/
def outbLines (s : I8259Lines) (port : ℕ) (value : BitVec 8) : I8259Lines where
  regs := outb s.regs port value
  master := if port = pic1Cmd then s.master.command value else s.master
  slave := if port = pic2Cmd then s.slave.command value else s.slave

/-- `PIC::EndOfInterrupt(irq)`. -/
def endOfInterrupt (s : I8259Lines) (irq : UInt8) : I8259Lines :=
  let s := if irq ≥ 8 then outbLines s pic2Cmd picEoi else s
  outbLines s pic1Cmd picEoi

/-- `PIC::Start()`: of its writes only ICW1 concerns the requests. -/
def startLines (s : I8259Lines) : I8259Lines :=
  ⟨start s.regs, s.master.command icw1, s.slave.command icw1⟩

/-- What an action of `ISR::Handler` does to the controllers. -/
def act (s : I8259Lines) : Isr.Action → I8259Lines
  | .endOfInterrupt irq => endOfInterrupt s irq
  | .ack => outbLines s pic1Cmd picEoi
  | _ => s

end Pic

open Pic

/-- The controllers, and the number of the interrupt that is being handled. -/
structure Irqs where
  pics : I8259Lines
  handling : Option UInt32

/-- What happens to them. -/
inductive Irq where
  /-- A device raises its line. -/
  | request (line : Line)
  /-- A device takes its request back. -/
  | withdraw (line : Line)
  /-- The processor acknowledges an interrupt. -/
  | interrupt
  /-- The same, where the master has passed on a request that the slave finds gone. -/
  | late
  /-- `ISR::Handler(regs)` runs. -/
  | handler (regs : Registers)
  /-- A driver masks or unmasks its line. -/
  | call (c : Pic.Call)
  deriving DecidableEq

namespace Irqs

/-- The number on the bus, as the stub passes it on. -/
def number (v : BitVec 8) : UInt32 := .ofNat v.toNat

/-- One step.  A handler runs with interrupts off. -/
def step (s : Irqs) : Irq → Option Irqs
  | .request l => some { s with pics := s.pics.request l.irq }
  | .withdraw l => some { s with pics := s.pics.withdraw l.irq }
  | .interrupt =>
    if s.handling = none then
      some ⟨s.pics.acknowledge.1, some (number s.pics.acknowledge.2)⟩
    else none
  | .late =>
    if s.handling = none ∧ s.pics.slaveFirst = none then
      some ⟨s.pics.acknowledgeSlave.1, some (number s.pics.acknowledgeSlave.2)⟩
    else none
  | .handler regs =>
    if s.handling = some regs.intNo then
      some ⟨(Isr.handler regs).foldl act s.pics, none⟩
    else none
  | .call c => some { s with pics := { s.pics with regs := c.run s.pics.regs } }

theorem step_handler {s : Irqs} {regs : Registers} (h : s.handling = some regs.intNo) :
    s.step (.handler regs) = some ⟨(Isr.handler regs).foldl act s.pics, none⟩ := if_pos h

/-- The runs from `PIC::Start`. -/
def lts : Lts Irqs Irq := Lts.det (fun s => ∃ p, s = ⟨startLines p, none⟩) step

/-- Nothing is in service but the line `irq`, and for a line of the slave the line it is on. -/
def OnlyServing (s : I8259Lines) (irq : Fin 16) : Prop :=
  if h : irq.val < 8 then s.master.serving ⊆ {⟨irq, h⟩} ∧ s.slave.serving = ∅
  else s.master.serving = {cascade} ∧ s.slave.serving ⊆ {⟨irq - 8, slave_lt h⟩}

/-- The number of the line `irq` in the interrupt table. -/
def intNo (irq : Fin 16) : UInt32 := 32 + .ofNat irq.val

/-- The lines in service are those of the running handler. -/
structure Served (s : Irqs) : Prop where
  ready : s.pics.regs.Ready
  master : s.pics.regs.master.vector = 0x20
  slave : s.pics.regs.slave.vector = 0x28
  cascade : I8259Lines.cascade ∉ s.pics.master.requested
  idle : s.handling = none → s.pics.Idle
  busy : ∀ v, s.handling = some v → ∃ irq, v = intNo irq ∧ OnlyServing s.pics irq

variable {s s' t u : Irqs} {e : Irq} {p : I8259Lines} {irq k : Fin 16}

/-! ### The end of an interrupt -/

theorem endOfInterrupt_master {irq : UInt8} (h : irq < 8) (p : I8259Lines) :
    endOfInterrupt p irq = { p with master := p.master.finish } := by
  have hnot : ¬ irq ≥ 8 := UInt8.not_le.2 h
  rw [endOfInterrupt, if_neg hnot]
  rfl

theorem endOfInterrupt_slave {irq : UInt8} (h : ¬ irq < 8) (p : I8259Lines) :
    endOfInterrupt p irq = { p with master := p.master.finish, slave := p.slave.finish } := by
  have hge : irq ≥ 8 := UInt8.not_lt.1 h
  rw [endOfInterrupt, if_pos hge]
  rfl

/-- **`PIC::EndOfInterrupt` ends the interrupt that is in service**, on both chips. -/
theorem idle_endOfInterrupt (h : OnlyServing p irq) :
    (endOfInterrupt p (.ofNat irq.val)).Idle := by
  have hval : (UInt8.ofNat irq.val).toNat = irq.val := by
    rw [UInt8.toNat_ofNat']
    omega
  unfold OnlyServing at h
  by_cases hirq : irq.val < 8
  · rw [dif_pos hirq] at h
    have hlt : UInt8.ofNat irq.val < 8 := by
      rw [UInt8.lt_iff_toNat_lt, hval]
      exact hirq
    rw [endOfInterrupt_master hlt]
    exact ⟨Nested.finish_of_subset h.1, h.2⟩
  · rw [dif_neg hirq] at h
    have hnot : ¬ UInt8.ofNat irq.val < 8 := by
      rw [UInt8.lt_iff_toNat_lt, hval]
      exact hirq
    rw [endOfInterrupt_slave hnot]
    exact ⟨Nested.finish_of_subset h.1.subset, Nested.finish_of_subset h.2⟩

theorem endOfInterrupt_kept (p : I8259Lines) (irq : UInt8) :
    (endOfInterrupt p irq).regs = p.regs ∧
      (endOfInterrupt p irq).master.requested = p.master.requested ∧
      (endOfInterrupt p irq).slave.requested = p.slave.requested := by
  by_cases h : irq < 8
  · rw [endOfInterrupt_master h]
    exact ⟨rfl, Nested.finish_requested _, rfl⟩
  · rw [endOfInterrupt_slave h]
    exact ⟨rfl, Nested.finish_requested _, Nested.finish_requested _⟩

/-- **What `ISR::Handler` sends for the interrupt of a line**: the end of that interrupt. -/
theorem foldl_handler {regs : Registers} (h : regs.intNo = intNo irq) (p : I8259Lines) :
    (Isr.handler regs).foldl act p = endOfInterrupt p (.ofNat irq.val) := by
  have hirq : ∀ k : Fin 16, ¬ intNo k < 32 ∧ intNo k ≤ 47 ∧
      (intNo k - 32).toUInt8 = UInt8.ofNat k.val := by decide
  obtain ⟨hge, hle, hsub⟩ := hirq irq
  rw [← h] at hge hle hsub
  rw [Isr.handler, if_neg hge, if_pos hle, hsub]
  dsimp only
  split_ifs <;> rfl

/-! ### The invariant -/

/-- After `PIC::Start` line `irq` has the number `0x20 + irq`. -/
theorem number_vector (h : s.Served) (irq : Fin 16) :
    number (s.pics.vector irq) = intNo irq := by
  have hmaster : ∀ i : Fin 8, number (vectorOf ⟨0, 0x20, []⟩ i) = 32 + .ofNat i.val := by decide
  have hslave : ∀ i : Fin 8, number (vectorOf ⟨0, 0x28, []⟩ i) = 40 + .ofNat i.val := by decide
  have hadd : ∀ k : Fin 16, ¬ k.val < 8 → 40 + UInt32.ofNat (k.val - 8) = intNo k := by decide
  unfold I8259Lines.vector
  split
  · rw [vectorOf, h.master]
    exact hmaster _
  · rename_i hirq
    rw [vectorOf, h.slave]
    exact (hslave _).trans (hadd irq hirq)

theorem run_kept {q : I8259Pair} (hq : q.Ready) (c : Pic.Call) :
    (c.run q).master.vector = q.master.vector ∧ (c.run q).slave.vector = q.slave.vector := by
  have houtb : ∀ (irq : ℕ) (v : BitVec 8),
      (outb q (portBit irq).1 v).master.vector = q.master.vector ∧
        (outb q (portBit irq).1 v).slave.vector = q.slave.vector := by
    intro irq v
    rcases port_cases irq with hi | hi <;> rw [hi]
    · rw [outb_pic1Data hq]
      exact ⟨rfl, rfl⟩
    · rw [outb_pic2Data hq]
      exact ⟨rfl, rfl⟩
  cases c with
  | mask l => exact houtb _ _
  | unmask l => exact houtb _ _

/-- No device is on the slave's line. -/
theorem cascade_requested (s : I8259Lines) : s.Requested 2 ↔ cascade ∈ s.master.requested :=
  requested_master (by decide)

theorem serving_request (p : I8259Lines) (irq : Fin 16) :
    (p.request irq).master.serving = p.master.serving ∧
      (p.request irq).slave.serving = p.slave.serving ∧ (p.request irq).regs = p.regs := by
  unfold I8259Lines.request
  split <;> exact ⟨rfl, rfl, rfl⟩

theorem serving_withdraw (p : I8259Lines) (irq : Fin 16) :
    (p.withdraw irq).master.serving = p.master.serving ∧
      (p.withdraw irq).slave.serving = p.slave.serving ∧ (p.withdraw irq).regs = p.regs := by
  unfold I8259Lines.withdraw
  split <;> exact ⟨rfl, rfl, rfl⟩

theorem onlyServing_enter (hidle : p.Idle) (irq : Fin 16) : OnlyServing (p.enter irq) irq := by
  obtain ⟨hm, hs⟩ := hidle
  unfold OnlyServing enter
  split
  · exact ⟨by simp [Nested.take, hm], hs⟩
  · exact ⟨by simp [Nested.take, hm], by simp [Nested.take, hs]⟩

/-- A step that leaves the lines in service and the numbers alone. -/
theorem Served.of_serving (h : s.Served) (hhandling : s'.handling = s.handling)
    (hready : s'.pics.regs.Ready)
    (hmaster : s'.pics.regs.master.vector = s.pics.regs.master.vector)
    (hslave : s'.pics.regs.slave.vector = s.pics.regs.slave.vector)
    (hcascade : I8259Lines.cascade ∉ s'.pics.master.requested)
    (hserving : s'.pics.master.serving = s.pics.master.serving ∧
      s'.pics.slave.serving = s.pics.slave.serving) : s'.Served := by
  refine ⟨hready, hmaster.trans h.master, hslave.trans h.slave, hcascade, fun hno => ?_,
    fun v hv => ?_⟩
  · rw [I8259Lines.Idle, hserving.1, hserving.2]
    exact h.idle (hhandling ▸ hno)
  · obtain ⟨irq, hirq, honly⟩ := h.busy v (hhandling ▸ hv)
    refine ⟨irq, hirq, ?_⟩
    unfold OnlyServing at honly ⊢
    rwa [hserving.1, hserving.2]

theorem served_start (p : I8259Lines) : (⟨startLines p, none⟩ : Irqs).Served where
  ready := start_ready _
  master := by rw [startLines, start_eq]
  slave := by rw [startLines, start_eq]
  cascade := Finset.notMem_empty _
  idle _ := ⟨rfl, rfl⟩
  busy v hv := by cases hv

/-- **The number that the processor gets** from the idle controllers. -/
theorem Served.interrupt (h : s.Served) (hno : s.handling = none) :
    (∃ irq, s.pics.Waiting irq ∧ (∀ k, s.pics.Waiting k → rank irq ≤ rank k) ∧
      s.step .interrupt = some ⟨s.pics.enter irq, some (intNo irq)⟩) ∨
    (∀ k, ¬ s.pics.Waiting k) ∧ s.step .interrupt = some ⟨s.pics, some (intNo 7)⟩ := by
  have hst : s.step .interrupt =
      some ⟨s.pics.acknowledge.1, some (number s.pics.acknowledge.2)⟩ := if_pos hno
  rcases acknowledge_cases (h.idle hno) h.cascade with ⟨irq, hw, hfirst, heq⟩ | ⟨hnone, heq⟩
  · refine .inl ⟨irq, hw, hfirst, ?_⟩
    rw [hst, heq, ← number_vector h]
  · refine .inr ⟨hnone, ?_⟩
    rw [hst, heq, ← number_vector h]
    rfl

theorem requested_cascade_enter (h : s.Served) (irq : Fin 16) :
    cascade ∉ (s.pics.enter irq).master.requested := by
  rw [← cascade_requested, requested_enter h.cascade]
  exact fun hc => h.cascade ((cascade_requested _).1 hc.2)

/-- Whatever the processor acknowledges goes into service, and nothing else. -/
theorem Served.step_interrupt (h : s.Served) (hst : s.step .interrupt = some s') : s'.Served := by
  have hno : s.handling = none := by
    by_contra hne
    rw [step, if_neg hne] at hst
    cases hst
  rcases h.interrupt hno with ⟨irq, -, -, heq⟩ | ⟨-, heq⟩
  · cases hst.symm.trans heq
    have hregs : (s.pics.enter irq).regs = s.pics.regs := by
      unfold enter
      split <;> rfl
    refine ⟨by rw [hregs]; exact h.ready, by rw [hregs]; exact h.master,
      by rw [hregs]; exact h.slave, requested_cascade_enter h irq, (fun hnone => by cases hnone),
      fun v hv => ?_⟩
    cases hv
    exact ⟨irq, rfl, onlyServing_enter (h.idle hno) irq⟩
  · cases hst.symm.trans heq
    refine ⟨h.ready, h.master, h.slave, h.cascade, (fun hnone => by cases hnone), fun v hv => ?_⟩
    cases hv
    have hidle := h.idle hno
    refine ⟨7, rfl, ?_⟩
    rw [OnlyServing, dif_pos (by decide), hidle.1]
    exact ⟨Finset.empty_subset _, hidle.2⟩

/-- A request that the slave finds gone puts only the slave's line into service. -/
theorem Served.step_late (h : s.Served) (hst : s.step .late = some s') : s'.Served := by
  obtain ⟨⟨hno, hnone⟩, heq⟩ := Option.ite_none_right_eq_some.1 hst
  have hidle := h.idle hno
  rw [acknowledgeSlave_of_none hnone] at heq
  cases heq
  refine ⟨h.ready, h.master, h.slave, ?_, (fun hn => by cases hn), fun v hv => ?_⟩
  · exact fun hc => h.cascade (Finset.mem_of_mem_erase hc)
  · cases hv
    refine ⟨15, number_vector h 15, ?_⟩
    rw [OnlyServing, dif_neg (by decide)]
    dsimp only [Nested.take]
    rw [hidle.1, hidle.2]
    exact ⟨rfl, Finset.empty_subset _⟩

/-- **Every step keeps the lines in service those of the running handler.** -/
theorem Served.step (h : s.Served) (hst : s.step e = some s') : s'.Served := by
  cases e with
  | request l =>
    cases hst
    obtain ⟨hm, hs, hr⟩ := serving_request s.pics l.irq
    refine h.of_serving rfl (by rw [hr]; exact h.ready) (by rw [hr]) (by rw [hr]) ?_ ⟨hm, hs⟩
    rw [← cascade_requested, requested_request]
    rintro (heq | hc)
    · exact l.not_cascade heq.symm
    · exact h.cascade ((cascade_requested _).1 hc)
  | withdraw l =>
    cases hst
    obtain ⟨hm, hs, hr⟩ := serving_withdraw s.pics l.irq
    refine h.of_serving rfl (by rw [hr]; exact h.ready) (by rw [hr]) (by rw [hr]) ?_ ⟨hm, hs⟩
    rw [← cascade_requested, requested_withdraw]
    exact fun hc => h.cascade ((cascade_requested _).1 hc.2)
  | interrupt => exact h.step_interrupt hst
  | late => exact h.step_late hst
  | handler regs =>
    obtain ⟨hhandling, heq⟩ := Option.ite_none_right_eq_some.1 hst
    obtain ⟨irq, hirq, honly⟩ := h.busy _ hhandling
    rw [foldl_handler hirq] at heq
    cases heq
    obtain ⟨hregs, hmaster, -⟩ := endOfInterrupt_kept s.pics (.ofNat irq.val)
    refine ⟨by rw [hregs]; exact h.ready, by rw [hregs]; exact h.master,
      by rw [hregs]; exact h.slave, by rw [hmaster]; exact h.cascade,
      fun _ => idle_endOfInterrupt honly, fun v hv => by cases hv⟩
  | call c =>
    cases hst
    obtain ⟨hm, hs⟩ := run_kept h.ready c
    exact h.of_serving rfl (Pic.Call.run_ready h.ready c) hm hs h.cascade ⟨rfl, rfl⟩

/-- **In every reachable state** the lines in service are those of the running handler, and nothing
is in service when none runs. -/
theorem served_of_reachable (h : lts.Reachable s) : s.Served :=
  h.induct (fun _ ⟨p, h₀⟩ => h₀ ▸ served_start p) fun _ _ _ hI hst => hI.step hst

/-- **Every handler ends its own interrupt**: while one runs, no line but its own is in service, and
when none runs, nothing is. -/
theorem in_service (h : lts.Reachable s) :
    (s.handling = none → s.pics.Idle) ∧
      ∀ v, s.handling = some v → ∃ irq, v = intNo irq ∧ OnlyServing s.pics irq :=
  ⟨(served_of_reachable h).idle, (served_of_reachable h).busy⟩

/-- The chips as they are switched on. -/
def poweredOn : I8259Lines := ⟨⟨⟨0, 0, []⟩, ⟨0, 0, []⟩⟩, ⟨∅, ∅⟩, ⟨∅, ∅⟩⟩

theorem keyboard_lt : 1 < 16 := by
  decide

theorem keyboard_not_cascade : (⟨1, keyboard_lt⟩ : Fin 16) ≠ 2 := by
  decide

/-- The line of the keyboard. -/
def keyboardLine : Line := ⟨⟨1, keyboard_lt⟩, keyboard_not_cascade⟩

/-- The keyboard's driver opens its line, and a key is pressed. -/
def keyPressed : List Irq := [.call (.unmask keyboardLine), .request keyboardLine]

theorem keyPressed_init : lts.init ⟨startLines poweredOn, none⟩ := ⟨poweredOn, rfl⟩

theorem in_service_keyPressed : ∃ s, lts.Reachable s ∧ s.pics.Waiting 1 ∧ s.pics.Idle := by
  obtain ⟨s, hs, h⟩ : ∃ s, lts.Reachable s ∧
      (decide (s.pics.Waiting 1) && decide (s.handling = none)) = true :=
    Lts.exists_reachable_det (f := step) rfl keyPressed_init keyPressed _ (by decide +kernel)
  simp only [Bool.and_eq_true, decide_eq_true_eq] at h
  exact ⟨s, hs, h.1, (in_service hs).1 h.2⟩

/-! ### Waiting -/

/-- The line `l`, and the lines that wait before it. -/
def upTo (s : Irqs) (l : Fin 16) : Finset (Fin 16) :=
  Finset.univ.filter fun k => s.pics.Waiting k ∧ rank k ≤ rank l

/-- The event raises no line before `l`, leaves the masks alone and does not take `l` back. -/
def KeepsOrder (l : Fin 16) : Irq → Prop
  | .request k => rank l ≤ rank k.irq
  | .withdraw k => k.irq ≠ l
  | .call _ => False
  | _ => True

/-- The processor acknowledges an interrupt that the controllers still offer. -/
def isInterrupt : Irq → Bool
  | .interrupt => true
  | _ => false

instance (l : Fin 16) : DecidablePred (KeepsOrder l) := fun e => by
  cases e <;> unfold KeepsOrder <;> infer_instance

variable {l : Fin 16}

theorem rank_injective {a b : Fin 16} (h : rank a = rank b) : a = b := by
  revert a b
  decide

/-- A step that lets no line wait that did not wait before, and `l` still. -/
theorem card_upTo_le (h : ∀ k, rank k ≤ rank l → t.pics.Waiting k → s.pics.Waiting k) :
    (t.upTo l).card ≤ (s.upTo l).card := by
  refine Finset.card_le_card fun k hk => ?_
  obtain ⟨-, hw, hle⟩ := Finset.mem_filter.1 hk
  exact Finset.mem_filter.2 ⟨Finset.mem_univ _, h k hle hw, hle⟩

/-- The requests are what a handler and an acknowledgement without a line leave alone. -/
theorem requested_iff {p q : I8259Lines} (hm : q.master.requested = p.master.requested)
    (hs : q.slave.requested = p.slave.requested) (k : Fin 16) : q.Requested k ↔ p.Requested k := by
  unfold Requested
  rw [hm, hs]

/-- **What a step does to the lines up to `l`**: it takes one of them if it is an acknowledgement,
and none of them otherwise. -/
theorem Served.upTo_step (h : s.Served) (hl : s.pics.Waiting l) (he : KeepsOrder l e)
    (hst : s.step e = some s') :
    (s'.pics.Waiting l ∧ (s'.upTo l).card + (if isInterrupt e then 1 else 0) ≤ (s.upTo l).card) ∨
      ¬ s'.pics.Waiting l ∧ s'.handling = some (intNo l) := by
  -- most steps keep every line up to `l` waiting
  have hsame : s'.pics.regs = s.pics.regs →
      (∀ k, rank k ≤ rank l → (s'.pics.Requested k → s.pics.Requested k)) →
      s'.pics.Requested l → isInterrupt e = false →
      (s'.pics.Waiting l ∧
        (s'.upTo l).card + (if isInterrupt e then 1 else 0) ≤ (s.upTo l).card) := by
    intro hregs hreq hself hnot
    refine ⟨⟨hself, by rw [hregs]; exact hl.2⟩, ?_⟩
    rw [hnot]
    exact card_upTo_le fun k hle hk => ⟨hreq k hle hk.1, by rw [← hregs]; exact hk.2⟩
  cases e with
  | request k =>
    cases hst
    refine .inl (hsame (serving_request _ _).2.2 (fun j hj hjreq => ?_) ?_ rfl)
    · rcases (requested_request _ _ _).1 hjreq with rfl | hjreq
      · -- the line raised is `l` itself, or comes behind it
        have hrank : rank k.irq = rank l := le_antisymm hj he
        rw [rank_injective hrank]
        exact hl.1
      · exact hjreq
    · exact (requested_request _ _ _).2 (.inr hl.1)
  | withdraw k =>
    cases hst
    refine .inl (hsame (serving_withdraw _ _).2.2 (fun j _ hj => ?_) ?_ rfl)
    · exact ((requested_withdraw _ _ _).1 hj).2
    · exact (requested_withdraw _ _ _).2 ⟨Ne.symm he, hl.1⟩
  | interrupt =>
    have hno : s.handling = none := by
      by_contra hne
      rw [Irqs.step, if_neg hne] at hst
      cases hst
    rcases h.interrupt hno with ⟨irq, hw, hfirst, heq⟩ | ⟨hnone, -⟩
    swap
    · exact absurd hl (hnone l)
    cases hst.symm.trans heq
    have hregs : (s.pics.enter irq).regs = s.pics.regs := by
      unfold enter
      split <;> rfl
    have hwaiting : ∀ k, (s.pics.enter irq).Waiting k ↔ k ≠ irq ∧ s.pics.Waiting k := fun k => by
      rw [Waiting, Waiting, hregs, requested_enter h.cascade, and_assoc]
    by_cases hirq : l = irq
    · subst hirq
      exact .inr ⟨fun hw' => ((hwaiting l).1 hw').1 rfl, rfl⟩
    · refine .inl ⟨(hwaiting l).2 ⟨hirq, hl⟩, ?_⟩
      -- the line that goes into service does not come behind `l`
      have hmem : irq ∈ s.upTo l := Finset.mem_filter.2 ⟨Finset.mem_univ _, hw, hfirst l hl⟩
      have hsub : upTo ⟨s.pics.enter irq, some (intNo irq)⟩ l ⊆ (s.upTo l).erase irq := by
        intro k hk
        obtain ⟨-, hk, hle⟩ := Finset.mem_filter.1 hk
        obtain ⟨hne, hk⟩ := (hwaiting k).1 hk
        exact Finset.mem_erase.2 ⟨hne, Finset.mem_filter.2 ⟨Finset.mem_univ _, hk, hle⟩⟩
      have hcard := Finset.card_le_card hsub
      rw [Finset.card_erase_of_mem hmem] at hcard
      have hpos : 0 < (s.upTo l).card := Finset.card_pos.2 ⟨irq, hmem⟩
      simp only [isInterrupt, ↓reduceIte]
      omega
  | late =>
    obtain ⟨⟨-, hnone⟩, heq⟩ := Option.ite_none_right_eq_some.1 hst
    rw [acknowledgeSlave_of_none hnone] at heq
    have hm : (s.pics.master.take I8259Lines.cascade).requested = s.pics.master.requested :=
      Finset.erase_eq_of_notMem h.cascade
    cases heq
    have hiff := fun k => requested_iff (p := s.pics)
      (q := { s.pics with master := s.pics.master.take I8259Lines.cascade }) hm rfl k
    exact .inl (hsame rfl (fun k _ hk => (hiff k).1 hk) ((hiff l).2 hl.1) rfl)
  | handler regs =>
    obtain ⟨hhandling, heq⟩ := Option.ite_none_right_eq_some.1 hst
    obtain ⟨irq, hirq, -⟩ := h.busy _ hhandling
    rw [foldl_handler hirq] at heq
    cases heq
    obtain ⟨hregs, hm, hs⟩ := endOfInterrupt_kept s.pics (.ofNat irq.val)
    have hiff := fun k => requested_iff hm hs k
    exact .inl (hsame hregs (fun k _ hk => (hiff k).1 hk) ((hiff l).2 hl.1) rfl)
  | call c => exact absurd he id

/-- **A line waits for no more acknowledged lines than there are before it**: after as many
acknowledgements of an offered line its own handler has been entered, whatever else happens in
between. -/
theorem bounded_waiting {es : List Irq} (hs : lts.Reachable s) (hl : s.pics.Waiting l)
    (hrun : lts.Run s es u) (hes : ∀ e ∈ es, KeepsOrder l e)
    (hlen : (s.upTo l).card ≤ es.countP isInterrupt) :
    ∃ pre t, pre <+: es ∧ lts.Run s pre t ∧ pre.countP isInterrupt ≤ (s.upTo l).card ∧
      t.handling = some (intNo l) := by
  -- the rank of a state is the number of lines up to `l`, and zero when `l` is served
  let r : Irqs → ℕ := fun t => if t.pics.Waiting l then (t.upTo l).card else 0
  have hr : ∀ t : Irqs, r t ≠ 0 → t.pics.Waiting l := fun t ht => by
    by_contra hnot
    exact ht (if_neg hnot)
  let C : Irqs → Irq → Prop := fun t e =>
    ∀ t', t.step e = some t' → t'.pics.Waiting l ∨ t'.handling = some (intNo l)
  have hrs : r s = (s.upTo l).card := if_pos hl
  obtain ⟨pre, t, hpre, hrun', hn, hz⟩ := hrun.exists_rank_zero (C := C) (r := r)
    (p := isInterrupt) (served_of_reachable hs) (by rw [hrs]; exact hlen) fun e he t t' ht hne hst => by
      have hw := hr t hne
      have hrt : r t = (t.upTo l).card := if_pos hw
      have hcases := fun t'' (h : t.step e = some t'') => ht.upTo_step hw (hes e he) h
      refine ⟨fun t'' h => (hcases t'' h).imp And.left And.right, ht.step hst, ?_⟩
      rw [hrt] at hne ⊢
      rcases hcases t' hst with ⟨hw', hle⟩ | ⟨hnot, -⟩
      · rw [show r t' = (t'.upTo l).card from if_pos hw']
        refine ⟨by omega, fun hint => ?_⟩
        rw [hint, if_pos rfl] at hle
        omega
      · rw [show r t' = 0 from if_neg hnot]
        exact ⟨Nat.zero_le _, fun _ => Nat.pos_of_ne_zero hne⟩
  -- on the way there `l` was waiting until its handler was entered
  rcases hrun'.until (I := fun t => t.pics.Waiting l)
    (Q := fun t => t.handling = some (intNo l)) hl (fun t e t' ht hst => hst.1 t' hst.2) with
    hw | ⟨pre', t', hle, hrun'', hQ⟩
  · rw [show r t = (t.upTo l).card from if_pos hw, Finset.card_eq_zero] at hz
    have hmem : l ∈ t.upTo l := Finset.mem_filter.2 ⟨Finset.mem_univ _, hw, le_rfl⟩
    rw [hz] at hmem
    exact absurd hmem (Finset.notMem_empty _)
  · rw [hrs] at hn
    exact ⟨pre', t', hle.trans hpre, hrun''.of_guard, (hle.sublist.countP_le).trans hn, hQ⟩

/-- The key is handled by the next handler. -/
theorem bounded_waiting_key : ∃ s u pre t, lts.Run s [.interrupt] u ∧ pre <+: [Irq.interrupt] ∧
    lts.Run s pre t ∧ t.handling = some (intNo 1) := by
  obtain ⟨s, hs, h⟩ : ∃ s, lts.Reachable s ∧ (decide (s.pics.Waiting 1) &&
      (decide (s.handling = none) && decide ((s.upTo 1).card ≤ 1))) = true :=
    Lts.exists_reachable_det (f := step) rfl keyPressed_init keyPressed _ (by decide +kernel)
  simp only [Bool.and_eq_true, decide_eq_true_eq] at h
  obtain ⟨hw, hno, hcard⟩ := h
  have hrun : lts.Run s [.interrupt] _ := .snoc .nil (Lts.det_step.2 (if_pos hno))
  obtain ⟨pre, t, hpre, hrun', -, hhandling⟩ := bounded_waiting hs hw hrun (by decide) hcard
  exact ⟨s, _, pre, t, hrun, hpre, hrun', hhandling⟩

end Irqs

end Shiro
