import Shiro.Heap.Run

/-!
# Freeing a pointer twice

`Free` looks at the header in front of the pointer and returns when that is not a used block.
A pointer that was freed is *stale* until `Alloc` returns it again.  The header in front of a
stale pointer may have been swallowed by a merge, and the header of a later split may have been
laid over it: its first word still reads `HEAP_MAGIC`, and its `used` word has become the magic
number of the other header.

* `callerLts` : clients that also free stale pointers, and never write to the heap.
* `Overlaid` : a later header lies over the `used` word of the one in front of a pointer.
* `Caller.Inv` : the `used` word in front of a stale pointer is zero or a magic number.
* `free_stale_iff` : **exactly when `Free` of a stale pointer changes nothing**.
-/

namespace Shiro

open FreeList

namespace Heap

/-! ### Clients that free twice -/

/-- A client and the pointers it freed that were not returned again since. -/
structure Caller where
  client : Client
  stale : List ℕ

inductive CallerOp where
  /-- `Alloc(n)`. -/
  | alloc (n : UInt32)
  /-- `Free(p)` of a live pointer or `NULL`. -/
  | free (p : ℕ)
  /-- `Free(p)` of a stale pointer. -/
  | again (p : ℕ)

inductive Caller.Step : Caller → CallerOp → Caller → Prop
  | alloc {s : Caller} {n : UInt32} {c : Client} :
      s.client.Step (.alloc n) c →
      Step s (.alloc n) ⟨c, s.stale.filter (· ∉ c.live.map Prod.fst)⟩
  | free {s : Caller} {p : ℕ} {c : Client} :
      s.client.Step (.free p) c →
      Step s (.free p) ⟨c, if p = 0 then s.stale else p :: s.stale⟩
  | again {s : Caller} {p : ℕ} {h' : Heap} :
      p ∈ s.stale → s.client.heap.free p = some h' →
      Step s (.again p) ⟨⟨h', s.client.live⟩, s.stale⟩

/-- Callers of the heap that `Heap::Start(baseHint)` sets up. -/
def callerLts (m : Mem) (kernelEnd baseHint : UInt32) : Lts Caller CallerOp where
  init s := s = ⟨⟨start m kernelEnd.toNat baseHint.toNat, []⟩, []⟩
  step := Caller.Step

/-- The header in front of `p` still has its magic number, and the header of another block lies
over its `used` word. -/
def Overlaid (h : Heap) (p : ℕ) : Prop :=
  magic h.mem (p - headerSize) = heapMagic ∧ used h.mem (p - headerSize) = heapMagic

instance (h : Heap) (p : ℕ) : Decidable (Overlaid h p) := inferInstanceAs (Decidable (_ ∧ _))

/-- The condition on the steps of a run: no overlaid pointer is freed again. -/
def NotOverlaid (s : Caller) : CallerOp → Prop
  | .again p => ¬ Overlaid s.client.heap p
  | _ => True

/-- `Free(p)` returns and changes nothing. -/
def FreeIgnores (h : Heap) (p : ℕ) : Prop :=
  ∃ h', free h p = some h' ∧ (∀ a, h'.mem a = h.mem a) ∧ h'.bytesUsed = h.bytesUsed ∧
    h'.bytesFree = h.bytesFree ∧ h'.freeCount = h.freeCount

/-- The word at `w` is zero or a magic number. -/
def Inert (m : Mem) (w : ℕ) : Prop := m.read32 w = 0 ∨ m.read32 w = heapMagic

variable {base : ℕ} {h h' : Heap} {c c' : Client} {s s' : Caller} {A : Arena (layout base)}
  {m : Mem} {kernelEnd baseHint : UInt32} {pre post : List Block} {b : Block} {w n x y : ℕ}

/-! ### What the operations do to an aligned word

Headers lie at multiples of eight, so a word at a multiple of eight is only ever the `magic` or
the `used` word of a header. -/

theorem inert_split (hi : Inert h.mem w) (hw : 8 ∣ w) (hw' : w + 4 ≤ 2 ^ 32) (hx : 8 ∣ x)
    (hn : 8 ∣ n) (ht : x + 16 + n + 16 ≤ 2 ^ 32) (l : ℕ) : Inert (split h x n l).mem w := by
  have hmg : heapMagic < 2 ^ 32 := by decide
  have htail : u32 (x + headerSize + n) = x + 16 + n := u32_of_lt (by unfold headerSize; omega)
  simp only [split, Inert, htail]
  rw [Mem.read32_write32_of_disjoint (by omega) hw' (by omega),
    Mem.read32_write32_of_disjoint (by omega) hw' (by omega),
    Mem.read32_write32_of_disjoint (by omega) hw' (by omega)]
  -- `w` is the `used` word of the tail, its `magic` word, or a word that stays
  by_cases h8 : w = x + 16 + n + 8
  · subst h8
    exact .inl (Mem.read32_write32 _ _ (by decide))
  · rw [Mem.read32_write32_of_disjoint (by omega) hw' (by omega),
      Mem.read32_write32_of_disjoint (by omega) hw' (by omega)]
    by_cases h0 : w = x + 16 + n
    · subst h0
      exact .inr (Mem.read32_write32 _ _ hmg)
    · rw [Mem.read32_write32_of_disjoint (by omega) hw' (by omega)]
      exact hi

theorem inert_claim (hi : Inert h.mem w) (hw : 8 ∣ w) (hw' : w + 4 ≤ 2 ^ 32) (hx : 8 ∣ x)
    (hx' : x + 16 ≤ 2 ^ 32) (hne : w ≠ x + 8) : Inert (claim h x).mem w := by
  simp only [claim, Inert]
  rw [Mem.read32_write32_of_disjoint (by omega) hw' (by omega)]
  exact hi

theorem inert_release (hi : w = x + 8 ∨ Inert h.mem w) (hw : 8 ∣ w) (hw' : w + 4 ≤ 2 ^ 32)
    (hx : 8 ∣ x) (hx' : x + 16 ≤ 2 ^ 32) : Inert (release h x).mem w := by
  simp only [release, Inert]
  by_cases h8 : w = x + 8
  · subst h8
    exact .inl (Mem.read32_write32 _ _ (by decide))
  · rw [Mem.read32_write32_of_disjoint (by omega) hw' (by omega)]
    exact hi.resolve_left h8

theorem inert_merge (hi : Inert h.mem w) (hw : 8 ∣ w) (hw' : w + 4 ≤ 2 ^ 32) (hx : 8 ∣ x)
    (hx' : x + 16 ≤ 2 ^ 32) : Inert (merge h x y).mem w := by
  simp only [merge, Inert]
  rw [Mem.read32_write32_of_disjoint (by omega) hw' (by omega),
    Mem.read32_write32_of_disjoint (by omega) hw' (by omega)]
  exact hi

/-- Where the blocks of a heap lie. -/
theorem block_place (hR : Region base) (hb : b ∈ A.blocks) :
    8 ∣ b.addr ∧ base ≤ b.addr ∧ b.addr + 16 + b.size ≤ base + heapSize := by
  have := A.tiles.bounds hb
  exact ⟨A.tiles.dvd_addr hR.aligned A.aligned b hb, this.1, this.2⟩

/-- **`Alloc` keeps a word inert** unless it is the `used` word of the block it hands out. -/
theorem inert_alloc (hR : Region base) (H : Holds base h A.blocks) {p : ℕ}
    (ha : alloc h n = some (h', p)) (hi : Inert h.mem w) (hw : 8 ∣ w) (hw' : w + 4 ≤ 2 ^ 32)
    (hne : w + 8 ≠ p) : Inert h'.mem w := by
  cases hal : A.alloc (round n) (dvd_round n) with
  | none =>
    rw [alloc_eq_null H (Arena.alloc_eq_none.1 hal)] at ha
    cases ha
    exact hi
  | some r =>
    obtain ⟨a, A'⟩ := r
    obtain ⟨pre, b, post, hbs, hpre, hb, -, -⟩ := alloc_eq_some (Arena.alloc_eq_some.1 hal)
    obtain ⟨h8, -, hhi⟩ := block_place (A := A) hR (b := b) (by simp [hbs])
    rw [hbs] at H
    rw [alloc_eq hR H hpre hb] at ha
    cases ha
    have hf := hR.fits
    refine inert_claim ?_ hw hw' h8 (by omega) (by omega)
    split
    · exact inert_split hi hw hw' h8 (dvd_round n) (by omega) _
    · exact hi

/-- **`Free` keeps a word inert**, and makes the `used` word of its block so. -/
theorem inert_free (hR : Region base) (H : Holds base h A.blocks) (hb : b ∈ A.used)
    (hf : free h (b.addr + 16) = some h') (hi : w = b.addr + 8 ∨ Inert h.mem w) (hw : 8 ∣ w)
    (hw' : w + 4 ≤ 2 ^ 32) : Inert h'.mem w := by
  obtain ⟨hbm, hu⟩ := Arena.mem_used.1 hb
  obtain ⟨pre, post, hbs⟩ := List.append_of_mem hbm
  have hplace := fun x (hx : x ∈ A.blocks) => block_place hR hx
  have hfit := hR.fits
  obtain ⟨h8, -, hhi⟩ := hplace b hbm
  rw [hbs] at H hplace
  have h1 := inert_release hi hw hw' h8 (by omega)
  have h2 : Inert (coalesceForward (release h b.addr) b.addr).mem w := by
    rw [coalesceForward]
    split
    · exact inert_merge h1 hw hw' h8 (by omega)
    · exact h1
  have H2 := holds_coalesceForward hR (holds_release hR H hu) rfl
  obtain ⟨k, cs, he⟩ := absorb_eq_cons (L := layout base) { b with used := false } post
  rw [he] at H2
  rw [free_eq hR H hu, coalesceBackward_eq H2] at hf
  cases hf
  split
  · exact h2
  · rename_i p hp
    obtain ⟨hp8, -, hphi⟩ := hplace p (List.mem_append_left _ (List.mem_of_getLast? hp))
    split
    · exact h2
    · exact inert_merge h2 hw hw' hp8 (by omega)

/-! ### The invariant -/

/-- The heap holds an arena whose used blocks are live, and in front of each stale pointer lies
a word that is zero or a magic number. -/
structure Caller.Inv (base : ℕ) (s : Caller) (A : Arena (layout base)) : Prop where
  client : s.client.Inv base A
  place : ∀ p ∈ s.stale, 8 ∣ p ∧ base + 16 ≤ p ∧ p < base + heapSize
  inert : ∀ p ∈ s.stale, Inert s.client.heap.mem (p - 8)

/-- `Free` leaves a pointer alone that is not overlaid. -/
theorem free_eq_self {p : ℕ} (hlo : 16 ≤ p) (hhi : p < 2 ^ 32) (hi : Inert h.mem (p - 8))
    (hno : ¬ Overlaid h p) : free h p = some h := by
  have hsub : sub32 p headerSize = p - headerSize := sub32_of_le hhi hlo
  have hu : used h.mem (p - headerSize) = h.mem.read32 (p - 8) := by
    rw [used, headerSize, show p - 16 + 8 = p - 8 by omega]
  rw [free]
  split
  · rfl
  · dsimp only
    rw [hsub]
    split
    · rfl
    · rename_i hm
      refine if_pos ?_
      rw [hu]
      exact hi.resolve_right fun hmagic => hno ⟨by simpa using hm, hu.trans hmagic⟩

theorem Caller.Inv.free_eq_self (hR : Region base) (hI : s.Inv base A) {p : ℕ} (hp : p ∈ s.stale)
    (hno : ¬ Overlaid s.client.heap p) : free s.client.heap p = some s.client.heap := by
  obtain ⟨-, hlo, hhi⟩ := hI.place p hp
  have hf := hR.fits
  exact Heap.free_eq_self (by omega) (by omega) (hI.inert p hp) hno

/-- **A step that frees no overlaid pointer keeps the invariant.** -/
theorem Caller.Inv.step (hR : Region base) (hI : s.Inv base A) {l : CallerOp}
    (hok : NotOverlaid s l) (hst : s.Step l s') : ∃ A', s'.Inv base A' := by
  have hf := hR.fits
  cases hst with
  | @alloc n c hst =>
    obtain ⟨A', hc⟩ := hI.client.step hR hst
    -- a pointer handed out again is stale no more
    have hold : ∀ q ∈ s.stale.filter (· ∉ c.live.map Prod.fst), q ∈ s.stale :=
      fun q hq => List.mem_of_mem_filter hq
    refine ⟨A', hc, fun q hq => hI.place q (hold q hq), fun q hq => ?_⟩
    obtain ⟨h8, hlo, hhi⟩ := hI.place q (hold q hq)
    cases hst with
    | @alloc _ h' p ha =>
      by_cases hp : p = 0
      · subst hp
        exact inert_alloc hR hI.client.holds ha (hI.inert q (hold q hq)) (by omega) (by omega)
          (by omega)
      · refine inert_alloc hR hI.client.holds ha (hI.inert q (hold q hq)) (by omega) (by omega) ?_
        have hnot := (List.mem_filter.1 hq).2
        simp only [hp, ↓reduceIte, List.map_cons, List.mem_cons, not_or, decide_eq_true_eq] at hnot
        omega
  | @free p c hst =>
    cases hst with
    | @free _ h' hp hfree =>
      -- `Free(NULL)` returns at once and makes no pointer stale
      by_cases h0 : p = 0
      · subst h0
        obtain ⟨A', hc⟩ := hI.client.step hR (.free hp hfree)
        rw [Heap.free, if_pos (by simp), Option.some.injEq] at hfree
        subst hfree
        exact ⟨A', hc, hI.place, hI.inert⟩
      · obtain ⟨b, hb, rfl⟩ := hI.client.mem_used (hp.resolve_left h0)
        obtain ⟨h8, hlo, hhi⟩ := block_place hR (Arena.mem_used.1 hb).1
        have hH : headerSize = 16 := rfl
        have hlt := hI.client.holds.payload b (Arena.mem_used.1 hb).1
        rw [if_neg h0]
        refine ⟨_, hI.client.free hR hb hfree, fun q hq => ?_, fun q hq => ?_⟩
        · rcases List.mem_cons.1 hq with rfl | hq
          · omega
          · exact hI.place q hq
        · rcases List.mem_cons.1 hq with rfl | hq
          · exact inert_free hR hI.client.holds hb hfree (.inl rfl) (by omega) (by omega)
          · obtain ⟨hq8, hqlo, hqhi⟩ := hI.place q hq
            exact inert_free hR hI.client.holds hb hfree (.inr (hI.inert q hq)) (by omega)
              (by omega)
  | @again p h' hp hfree =>
    rw [hI.free_eq_self hR hp hok, Option.some.injEq] at hfree
    subst hfree
    exact ⟨A, hI⟩

theorem caller_inv (hR : Region (startBase kernelEnd.toNat baseHint.toNat))
    (hs : ((callerLts m kernelEnd baseHint).guard NotOverlaid).Reachable s) :
    ∃ A, s.Inv (startBase kernelEnd.toNat baseHint.toNat) A := by
  have hle := startBase_lt kernelEnd baseHint
  refine hs.induct (I := fun s => ∃ A, s.Inv (startBase kernelEnd.toNat baseHint.toNat) A)
    ?_ fun _ _ _ ⟨_, hI⟩ ⟨hok, hst⟩ => hI.step hR hok hst
  rintro _ rfl
  exact ⟨_, inv_start m hR.pos.ne' (by unfold headerSize; omega), by simp, by simp⟩

/-! ### Exactly when -/

/-- Merging does not count frees. -/
theorem freeCount_coalesceForward (h : Heap) (b : ℕ) :
    (coalesceForward h b).freeCount = h.freeCount := by
  unfold coalesceForward
  dsimp only
  split <;> rfl

/-- `Free` of an overlaid pointer counts as a free. -/
theorem not_ignores_of_overlaid {p : ℕ} (hr : h.ready = true)
    (hlo : 16 ≤ p) (hhi : p < 2 ^ 32) (ho : Overlaid h p) : ¬ FreeIgnores h p := by
  rintro ⟨h', hf, -, -, -, hcount⟩
  have hsub : sub32 p headerSize = p - headerSize := sub32_of_le hhi hlo
  obtain ⟨hm, hu⟩ := ho
  rw [free, if_neg (by simp [hr]; omega)] at hf
  simp only [hsub, hm, hu, ne_eq, not_true_eq_false, ↓reduceIte] at hf
  rw [if_neg (by decide), coalesceBackward] at hf
  obtain ⟨prev, -, rfl⟩ := Option.map_eq_some_iff.1 hf
  -- the count after the release survives both ways of coalescing, and it differs from the old one
  have hfwd : (coalesceForward (release h (p - headerSize)) (p - headerSize)).freeCount =
      u32 (h.freeCount + 1) := freeCount_coalesceForward _ _
  have hkeep : u32 (h.freeCount + 1) = h.freeCount := by
    rw [← hfwd]
    generalize coalesceForward _ _ = h₁ at hcount
    refine Eq.trans ?_ hcount
    split <;> rfl
  unfold u32 at hkeep
  omega

/-- **`Free` of a stale pointer changes nothing** exactly when no later header lies over the
`used` word of the one in front of it. -/
theorem free_stale_iff (hpos : 0 < pageUp kernelEnd.toNat baseHint.toNat)
    (hfit : pageUp kernelEnd.toNat baseHint.toNat + heapSize ≤ 2 ^ 32)
    (hs : ((callerLts m kernelEnd baseHint).guard NotOverlaid).Reachable s) :
    ∀ p ∈ s.stale, FreeIgnores s.client.heap p ↔ ¬ Overlaid s.client.heap p := by
  have hR := region_start hpos hfit
  obtain ⟨A, hI⟩ := caller_inv hR hs
  intro p hp
  obtain ⟨-, hlo, hhi⟩ := hI.place p hp
  have hf := hR.fits
  constructor
  · exact fun hig ho => not_ignores_of_overlaid hI.client.holds.ready (by omega) (by omega) ho hig
  · exact fun hno => ⟨_, hI.free_eq_self hR hp hno, fun _ => rfl, rfl, rfl, rfl⟩

/-- Callers of the heap of a kernel that ends at 2 MiB, within the condition. -/
abbrev carefulCallers : Lts Caller CallerOp := (callerLts (fun _ => 0) 0x200000 0).guard NotOverlaid

/-- A pointer that was allocated and freed can be freed again. -/
theorem free_stale_twice : ∃ s : Caller, s.stale = [0x200010] ∧
    (FreeIgnores s.client.heap 0x200010 ↔ ¬ Overlaid s.client.heap 0x200010) := by
  have hrun : ((alloc (start (fun _ => 0) 0x200000 0) 8).bind fun a =>
      (free a.1 a.2).map fun _ => a.2) = some 0x200010 := by
    decide +kernel
  simp only [Option.bind_eq_some_iff, Option.map_eq_some_iff] at hrun
  obtain ⟨⟨h₁, p⟩, ha, h₂, hf, rfl⟩ := hrun
  have h0 : carefulCallers.Reachable ⟨⟨start (fun _ => 0) 0x200000 0, []⟩, []⟩ := .of_init rfl
  have h1 : carefulCallers.Reachable ⟨⟨h₁, [(0x200010, 8)]⟩, []⟩ :=
    h0.guarded (.alloc 8) trivial (.alloc (.alloc (p := 0x200010) ha))
  have h2 : carefulCallers.Reachable ⟨⟨h₂, []⟩, [0x200010]⟩ :=
    h1.guarded (.free 0x200010) trivial (.free (.free (.inr ⟨8, .head _⟩) hf))
  exact ⟨_, rfl, free_stale_iff (by decide) (by decide) h2 _ (.head _)⟩

/-- Two blocks of eight bytes, freed in the other order, then one of sixteen: the header behind
it lies over the one of the second block. -/
theorem not_free_stale :
    ¬ ∀ s, (callerLts (fun _ => 0) 0x200000 0).Reachable s →
      ∀ p ∈ s.stale, FreeIgnores s.client.heap p := by
  intro hall
  have hrun : ((alloc (start (fun _ => 0) 0x200000 0) 8).bind fun a =>
      (alloc a.1 8).bind fun b => (free b.1 b.2).bind fun h => (free h a.2).bind fun h =>
        (alloc h 16).map fun c => ((a.2, b.2, c.2), decide (Overlaid c.1 b.2))) =
      some ((0x200010, 0x200028, 0x200010), true) := by
    decide +kernel
  simp only [Option.bind_eq_some_iff, Option.map_eq_some_iff, Prod.mk.injEq] at hrun
  obtain ⟨⟨h₁, a⟩, ha, ⟨h₂, b⟩, hb, h₃, hfb, h₄, hfa, ⟨h₅, c⟩, hc, ⟨rfl, rfl, rfl⟩, ho⟩ := hrun
  have h0 : carefulCallers.Reachable ⟨⟨start (fun _ => 0) 0x200000 0, []⟩, []⟩ := .of_init rfl
  have h1 : carefulCallers.Reachable ⟨⟨h₁, [(0x200010, 8)]⟩, []⟩ :=
    h0.guarded (.alloc 8) trivial (.alloc (.alloc (p := 0x200010) ha))
  have h2 : carefulCallers.Reachable ⟨⟨h₂, [(0x200028, 8), (0x200010, 8)]⟩, []⟩ :=
    h1.guarded (.alloc 8) trivial (.alloc (.alloc (p := 0x200028) hb))
  have h3 : carefulCallers.Reachable ⟨⟨h₃, [(0x200010, 8)]⟩, [0x200028]⟩ :=
    h2.guarded (.free 0x200028) trivial (.free (.free (.inr ⟨8, .head _⟩) hfb))
  have h4 : carefulCallers.Reachable ⟨⟨h₄, []⟩, [0x200010, 0x200028]⟩ :=
    h3.guarded (.free 0x200010) trivial (.free (.free (.inr ⟨8, .head _⟩) hfa))
  have h5 : carefulCallers.Reachable ⟨⟨h₅, [(0x200010, 16)]⟩, [0x200028]⟩ :=
    h4.guarded (.alloc 16) trivial (.alloc (.alloc (p := 0x200010) hc))
  obtain ⟨A, hI⟩ := caller_inv (region_start (by decide) (by decide)) h5
  exact not_ignores_of_overlaid (p := 0x200028) hI.client.holds.ready (by decide) (by decide)
    (of_decide_eq_true ho) (hall _ h5.of_guard 0x200028 (.head _))

end Heap

end Shiro
