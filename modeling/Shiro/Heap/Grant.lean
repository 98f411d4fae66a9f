import Shiro.Heap.Run

/-!
# What `Alloc` grants

A caller of `Alloc(n)` relies on `n` bytes of its own: inside the heap, clear of every block
header, and apart from what the other callers were given.  `alloc_good_iff` says exactly when
`Alloc` keeps that promise: unless a block is handed out although `Round(n)` has wrapped to zero
or the heap region wraps.

* `Granted` : the promise.
* `Client.Inv.granted` : every live allocation that was not a wrapped request keeps it.
* `alloc_good_iff` : **exactly when `Alloc` keeps it**, along runs that have kept to the condition.
-/

namespace Shiro

open FreeList

namespace Heap

/-! ### The promise -/

/-- In the heap `h`, the bytes `[p, p + n)` are the caller's own, apart from the ranges
`others`. -/
structure Granted (h : Heap) (p n : ℕ) (others : List (ℕ × ℕ)) : Prop where
  inside : h.base ≤ p ∧ p + n ≤ h.heapEnd
  headers : ∃ bs, h.blocks = some bs ∧ ∀ b ∈ bs, p + n ≤ b.addr ∨ b.addr + headerSize ≤ p
  disjoint : ∀ q k, (q, k) ∈ others → p + n ≤ q ∨ q + k ≤ p
  payload : n ≤ size h.mem (p - headerSize)

/-- If `Alloc(n)` returns a pointer, it keeps the promise. -/
def AllocGood (s : Client) (n : ℕ) : Prop :=
  ∀ h' p, s.heap.alloc n = some (h', p) → p ≠ 0 → Granted h' p n s.live

/-- `Alloc(n)` finds no block, or neither the request nor the region wraps. -/
def AllocOk (s : Client) (n : ℕ) : Prop :=
  (∃ bs, s.heap.blocks = some bs ∧ ∀ b ∈ bs, ¬ Fits (round n) b) ∨
    (n ≤ 0xFFFFFFF8 ∧ s.heap.base < s.heap.heapEnd)

/-- The condition on the steps of a run. -/
def AllocGuard (s : Client) : Op → Prop
  | .alloc n => AllocOk s n.toNat
  | _ => True

variable {base : ℕ} {s s' : Client} {A : Arena (layout base)} {m : Mem}
  {kernelEnd baseHint : UInt32}

/-- The other live allocations. -/
def Client.others (s : Client) (p : ℕ) : List (ℕ × ℕ) := s.live.filter (·.1 ≠ p)

/-- **A live allocation whose request did not wrap is the caller's own.** -/
theorem Client.Inv.granted (hR : Room base) (hI : s.Inv base A)
    (hn : ∀ p n, (p, n) ∈ s.live → n ≤ 0xFFFFFFF8) {p n : ℕ} (hp : (p, n) ∈ s.live) :
    Granted s.heap p n (s.others p) := by
  obtain ⟨b, hb, rfl, hle⟩ := hI.live p n hp
  obtain ⟨hbm, -⟩ := Arena.mem_used.1 hb
  have hnb : n ≤ b.size := (le_round (hn _ _ hp)).1.trans hle
  have hbounds := A.tiles.bounds hbm
  have hfits := hR.lt
  simp only [Layout.stop, layout] at hbounds
  refine ⟨⟨?_, ?_⟩, ⟨_, hI.holds.blocks_eq, fun c hc => ?_⟩, ?_, ?_⟩
  · rw [hI.holds.base_eq]; omega
  · rw [hI.holds.heapEnd_eq, u32_of_lt hfits]; omega
  · rcases A.tiles.eq_or_apart hbm hc with rfl | h | h
    · exact .inr le_rfl
    · simp only [Layout.stop, layout] at h
      omega
    · simp only [Layout.stop, layout] at h
      omega
  · intro q k hqk
    obtain ⟨hqk, hne⟩ := List.mem_filter.1 hqk
    obtain ⟨c, hc, rfl, hk⟩ := hI.live q k hqk
    have hkc : k ≤ c.size := (le_round (hn _ _ hqk)).1.trans hk
    rcases A.tiles.eq_or_apart hbm (Arena.mem_used.1 hc).1 with rfl | h | h
    · simp at hne
    · simp only [Layout.stop, layout] at h
      omega
    · simp only [Layout.stop, layout] at h
      omega
  · rw [Nat.add_sub_cancel, (hI.holds.seg.header hbm).2.1]
    exact hnb

/-! ### Runs that keep to the condition -/

theorem alloc_fits (hI : s.Inv base A) {n : ℕ} (hok : AllocOk s n) {h' : Heap}
    {p : ℕ} (ha : s.heap.alloc n = some (h', p)) (hp : p ≠ 0) : n ≤ 0xFFFFFFF8 := by
  rcases hok with ⟨bs, hbs, hno⟩ | h
  · rw [hI.holds.blocks_eq, Option.some.injEq] at hbs
    rw [alloc_eq_null hI.holds (hbs ▸ hno), Option.some.injEq, Prod.mk.injEq] at ha
    exact absurd ha.2.symm hp
  · exact h.1

/-- The requests of a run that keeps to the condition do not wrap. -/
theorem guarded_inv (hR : Region (startBase kernelEnd.toNat baseHint.toNat))
    (hs : ((clientLts m kernelEnd baseHint).guard AllocGuard).Reachable s) :
    ∃ A, s.Inv (startBase kernelEnd.toNat baseHint.toNat) A ∧
      ∀ p n, (p, n) ∈ s.live → n ≤ 0xFFFFFFF8 := by
  have hle := startBase_lt kernelEnd baseHint
  refine hs.induct (I := fun s => ∃ A, s.Inv (startBase kernelEnd.toNat baseHint.toNat) A ∧
    ∀ p n, (p, n) ∈ s.live → n ≤ 0xFFFFFFF8) ?_ ?_
  · rintro _ rfl
    exact ⟨_, inv_start m hR.pos.ne' (by unfold headerSize; omega), by simp⟩
  · rintro s l s' ⟨A, hI, hn⟩ ⟨hok, hst⟩
    obtain ⟨A', hI'⟩ := hI.step hR hst
    refine ⟨A', hI', ?_⟩
    cases hst with
    | alloc ha =>
      intro p n hp
      split at hp
      · exact hn p n hp
      · rename_i hp0
        rcases List.mem_cons.1 hp with hp | hp
        · cases hp
          exact alloc_fits hI hok ha hp0
        · exact hn p n hp
    | free => exact fun p n hp => hn p n (List.mem_of_mem_filter hp)
    | store => exact hn

/-! ### A region that wraps -/

/-- Without room for the heap its base is at address zero, or its end is below its base. -/
theorem not_room (hR : ¬ Room (startBase kernelEnd.toNat baseHint.toNat)) :
    startBase kernelEnd.toNat baseHint.toNat = 0 ∨
      u32 (startBase kernelEnd.toNat baseHint.toNat + heapSize) <
        startBase kernelEnd.toNat baseHint.toNat := by
  have hlt := startBase_lt kernelEnd baseHint
  have h8 : 8 ∣ startBase kernelEnd.toNat baseHint.toNat :=
    Nat.dvd_trans (by decide) (dvd_startBase kernelEnd baseHint)
  rcases Nat.eq_zero_or_pos (startBase kernelEnd.toNat baseHint.toNat) with h0 | hpos
  · exact .inl h0
  · refine .inr ?_
    have hwrap : ¬ startBase kernelEnd.toNat baseHint.toNat + heapSize < 2 ^ 32 :=
      fun hf => hR ⟨⟨hpos, h8, hf.le⟩, hf⟩
    have hs : heapSize = 4194304 := rfl
    unfold u32
    omega

theorem start_zero (h0 : startBase kernelEnd.toNat baseHint.toNat = 0) (n : ℕ) :
    alloc (start m kernelEnd.toNat baseHint.toNat) n =
      some (start m kernelEnd.toNat baseHint.toNat, 0) := by
  have hfirst : (start m kernelEnd.toNat baseHint.toNat).first = 0 := h0
  simp only [alloc, hfirst, firstFit_zero]
  rfl

/-- In a heap whose region wraps, `Alloc` within the condition returns `NULL`. -/
theorem start_alloc_eq_null (hR : ¬ Room (startBase kernelEnd.toNat baseHint.toNat)) {n : ℕ}
    (hok : AllocOk ⟨start m kernelEnd.toNat baseHint.toNat, []⟩ n) :
    alloc (start m kernelEnd.toNat baseHint.toNat) n =
      some (start m kernelEnd.toNat baseHint.toNat, 0) := by
  have hle := startBase_lt kernelEnd baseHint
  by_cases h0 : startBase kernelEnd.toNat baseHint.toNat = 0
  · exact start_zero h0 n
  · have hI := inv_start m h0 (by unfold headerSize; omega)
    rcases hok with ⟨bs, hbs, hno⟩ | ⟨-, hlt⟩
    · rw [start_blocks m h0, Option.some.injEq] at hbs
      exact alloc_eq_null hI.holds (hbs ▸ hno)
    · exact absurd hlt (Nat.lt_asymm ((not_room hR).resolve_left h0))

/-- A heap whose region wraps is never used by a run that keeps to the condition. -/
theorem guarded_eq_start (hR : ¬ Room (startBase kernelEnd.toNat baseHint.toNat))
    (hs : ((clientLts m kernelEnd baseHint).guard AllocGuard).Reachable s) :
    s = ⟨start m kernelEnd.toNat baseHint.toNat, []⟩ := by
  refine hs.induct (I := (· = ⟨start m kernelEnd.toNat baseHint.toNat, []⟩))
    (fun _ h => by exact h) ?_
  rintro _ l s' rfl ⟨hok, hst⟩
  cases hst with
  | alloc ha =>
    rw [start_alloc_eq_null hR hok, Option.some.injEq, Prod.mk.injEq] at ha
    obtain ⟨rfl, rfl⟩ := ha
    rfl
  | @free p h' hp hf =>
    rcases hp with rfl | ⟨n, hn⟩
    · rw [free, if_pos (by simp), Option.some.injEq] at hf
      subst hf
      rfl
    · cases hn
  | store hp =>
    obtain ⟨n, hn⟩ := hp
    cases hn

/-! ### Exactly when -/

/-- `Alloc` that finds a block returns a pointer behind its header. -/
theorem alloc_of_firstFit {h : Heap} {n b : ℕ} (hr : h.ready = true)
    (hb : firstFit h.mem (round n) walkFuel h.first = some b) (h0 : b ≠ 0) :
    ∃ h', alloc h n = some (h', u32 (b + headerSize)) ∧ h'.heapEnd = h.heapEnd := by
  rw [alloc, if_neg (by simp [hr])]
  simp only [hb, Option.map_some, h0, ↓reduceIte]
  refine ⟨_, rfl, ?_⟩
  split <;> rfl

/-- The first `Alloc` takes the front of the heap, whether or not the region wraps. -/
theorem start_alloc (h0 : startBase kernelEnd.toNat baseHint.toNat ≠ 0) {n : ℕ}
    (hn : round n ≤ heapSize - headerSize) :
    ∃ h', alloc (start m kernelEnd.toNat baseHint.toNat) n =
        some (h', startBase kernelEnd.toNat baseHint.toNat + headerSize) ∧
      h'.heapEnd = (start m kernelEnd.toNat baseHint.toNat).heapEnd := by
  have hle := startBase_lt kernelEnd baseHint
  obtain ⟨h', h1, h2⟩ := alloc_of_firstFit rfl (firstFit_start m h0 hn) h0
  rw [u32_of_lt (by unfold headerSize; omega)] at h1
  exact ⟨h', h1, h2⟩

theorem not_fits_of_good (hR : Region base) (hI : s.Inv base A) {n : ℕ} (hn : 0xFFFFFFF8 < n)
    (hgood : AllocGood s n) : ∀ b ∈ A.blocks, ¬ Fits (round n) b := by
  have href := alloc_refines hR hI.holds n
  split at href
  · rename_i hnone
    exact Arena.alloc_eq_none.1 hnone
  · obtain ⟨h', h1, h2⟩ := href
    have hin := (hgood h' _ h1 (by unfold headerSize; omega)).inside.2
    rw [h2.heapEnd_eq] at hin
    have := u32_lt (base + heapSize)
    unfold headerSize at hin
    omega

theorem start_good_iff (hR : ¬ Room (startBase kernelEnd.toNat baseHint.toNat)) (n : ℕ) :
    AllocGood ⟨start m kernelEnd.toNat baseHint.toNat, []⟩ n ↔
      AllocOk ⟨start m kernelEnd.toNat baseHint.toNat, []⟩ n := by
  have hle := startBase_lt kernelEnd baseHint
  constructor
  · intro hgood
    by_cases h0 : startBase kernelEnd.toNat baseHint.toNat = 0
    · exact .inl ⟨[], congrArg (walk _ walkFuel) h0, by simp⟩
    · have hwrap := (not_room hR).resolve_left h0
      refine .inl ⟨_, start_blocks m h0, fun b hb hfit => ?_⟩
      rw [startArena_blocks, List.mem_singleton] at hb
      subst hb
      obtain ⟨h', h1, h2⟩ := start_alloc (m := m) h0 hfit.2
      have hin := (hgood h' _ h1 (by unfold headerSize; omega)).inside.2
      rw [h2] at hin
      change _ ≤ u32 (_ + heapSize) at hin
      omega
  · intro hok h' p ha hp
    rw [start_alloc_eq_null hR hok, Option.some.injEq, Prod.mk.injEq] at ha
    exact absurd ha.2.symm hp

/-- **`Alloc(n)` grants `n` bytes of the caller's own** exactly when it finds no block, or neither
`Round(n)` nor the heap region wraps, in every run that has kept to that condition so far. -/
theorem alloc_good_iff (hs : ((clientLts m kernelEnd baseHint).guard AllocGuard).Reachable s)
    (n : UInt32) : AllocGood s n.toNat ↔ AllocOk s n.toNat := by
  by_cases hR : Room (startBase kernelEnd.toNat baseHint.toNat)
  · obtain ⟨A, hI, hn⟩ := guarded_inv hR.toRegion hs
    constructor
    · intro hgood
      have hwalk := hI.holds.blocks_eq
      rcases Nat.lt_or_ge 0xFFFFFFF8 n.toNat with hlt | hge
      · exact .inl ⟨_, hwalk, not_fits_of_good hR.toRegion hI hlt hgood⟩
      · refine .inr ⟨hge, ?_⟩
        have hs : heapSize = 4194304 := rfl
        rw [hI.holds.base_eq, hI.holds.heapEnd_eq, u32_of_lt hR.lt]
        omega
    · intro hok h' p ha hp
      obtain ⟨A', hI'⟩ := hI.alloc hR.toRegion ha
      rw [if_neg hp] at hI'
      have hothers : Client.others ⟨h', (p, n.toNat) :: s.live⟩ p = s.live := by
        have hnd := (List.nodup_cons.1 hI'.nodup).1
        simp only [Client.others, List.filter_cons]
        simp only [ne_eq, not_true_eq_false, decide_false, Bool.false_eq_true, ↓reduceIte]
        refine List.filter_eq_self.2 fun ⟨q, k⟩ hqk => ?_
        simpa using fun hqp : q = p => hnd (List.mem_map.2 ⟨(q, k), hqk, hqp⟩)
      rw [← hothers]
      refine hI'.granted hR (fun q k hqk => ?_) List.mem_cons_self
      rcases List.mem_cons.1 hqk with hqk | hqk
      · cases hqk
        exact alloc_fits hI hok ha hp
      · exact hn q k hqk
  · rw [guarded_eq_start hR hs]
    exact start_good_iff hR _

/-- The heap of a kernel that ends at 2 MiB, within the condition. -/
abbrev carefulClients : Lts Client Op := (clientLts (fun _ => 0) 0x200000 0).guard AllocGuard

/-- A block of eight bytes in front of one of a hundred is freed; then the next request is
granted. -/
theorem alloc_good_reused : ∃ s, carefulClients.Reachable s ∧ s.live = [(0x200028, 100)] ∧
    AllocGood s 24 := by
  have hrun : ((alloc (start (fun _ => 0) 0x200000 0) 8).bind fun a =>
      (alloc a.1 100).bind fun b => (free b.1 a.2).map fun h =>
        ((a.2, b.2), decide (a.1.base < a.1.heapEnd ∧ h.base < h.heapEnd))) =
      some ((0x200010, 0x200028), true) := by
    decide +kernel
  simp only [Option.bind_eq_some_iff, Option.map_eq_some_iff, Prod.mk.injEq] at hrun
  obtain ⟨⟨h₁, p⟩, ha, ⟨h₂, q⟩, hb, h₃, hf, ⟨rfl, rfl⟩, hends⟩ := hrun
  obtain ⟨hends₁, hends₃⟩ := of_decide_eq_true hends
  have h0 : carefulClients.Reachable ⟨start (fun _ => 0) 0x200000 0, []⟩ := .of_init rfl
  have h1 : carefulClients.Reachable ⟨h₁, [(0x200010, 8)]⟩ :=
    h0.guarded (.alloc 8) (.inr (by decide)) (.alloc (p := 0x200010) ha)
  have h2 : carefulClients.Reachable ⟨h₂, [(0x200028, 100), (0x200010, 8)]⟩ :=
    h1.guarded (.alloc 100) (.inr ⟨by decide, hends₁⟩) (.alloc (p := 0x200028) hb)
  have h3 : carefulClients.Reachable ⟨h₃, [(0x200028, 100)]⟩ :=
    h2.guarded (.free 0x200010) trivial (.free (.inr ⟨8, .tail _ (.head _)⟩) hf)
  exact ⟨_, h3, rfl, (alloc_good_iff h3 24).2 (.inr ⟨by decide, hends₃⟩)⟩

/-- The largest request of all is rounded to zero and gets a block of that size. -/
theorem not_alloc_good_max :
    ¬ ∀ s, (clientLts (fun _ => 0) 0x200000 0).Reachable s →
      ∀ n : UInt32, AllocGood s n.toNat := by
  intro hgood
  have hR : Region (startBase 0x200000 0) := by
    refine ⟨?_, ?_, ?_⟩ <;> decide
  have hI := inv_start (fun _ => 0) hR.pos.ne' (by decide)
  have hno := not_fits_of_good hR hI (n := 0xFFFFFFFF) (by decide)
    (hgood _ (.of_init rfl) 0xFFFFFFFF)
  rw [startArena_blocks] at hno
  exact hno _ List.mem_cons_self ⟨rfl, by decide⟩

end Heap

end Shiro
