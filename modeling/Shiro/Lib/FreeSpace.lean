import Mathlib.Data.Set.Defs
import Shiro.Lib.FreeList

/-!
# Free space

The bytes of a region that no used block covers fall into maximal runs.  First fit looks at free
blocks, one at a time; in an arena no two of them are neighbours, so each of them is a whole run.

* `MaxRun` : a maximal run of bytes outside of a set.
* `Arena.maxRun_iff` : **the maximal runs of uncovered bytes are the free blocks.**
* `Arena.alloc_eq_none_iff`, `Arena.alloc_spec` : **first fit in terms of the free space**: it fails
  if no run is long enough, and otherwise takes the front of the lowest one that is.
-/

namespace Shiro

namespace FreeList

/-- `[a, e)` is a maximal run of `[lo, hi)` outside of `S`. -/
structure MaxRun (S : Set ℕ) (lo hi a e : ℕ) : Prop where
  lo_le : lo ≤ a
  lt : a < e
  le_hi : e ≤ hi
  outside : ∀ x, a ≤ x → x < e → x ∉ S
  left : a = lo ∨ a - 1 ∈ S
  right : e = hi ∨ e ∈ S

variable {L : Layout}

/-- A byte of a tiled region lies in one of the blocks. -/
theorem Tiles.exists_mem {a e x : ℕ} {bs : List Block} (h : Tiles L a bs e) (hlo : a ≤ x)
    (hhi : x < e) : ∃ b ∈ bs, b.addr ≤ x ∧ x < L.stop b := by
  induction bs generalizing a with
  | nil =>
    obtain rfl := tiles_nil.1 h
    omega
  | cons b bs ih =>
    obtain ⟨rfl, h⟩ := h
    by_cases hx : x < L.stop b
    · exact ⟨b, List.mem_cons_self, hlo, hx⟩
    · obtain ⟨c, hc, hcx⟩ := ih h (Nat.le_of_not_lt hx)
      exact ⟨c, List.mem_cons_of_mem _ hc, hcx⟩

/-- In a tiling a byte lies in one block only. -/
theorem Tiles.eq_of_mem {a e x : ℕ} {bs : List Block} (h : Tiles L a bs e) {b c : Block}
    (hb : b ∈ bs) (hc : c ∈ bs) (hxb : b.addr ≤ x ∧ x < L.stop b)
    (hxc : c.addr ≤ x ∧ x < L.stop c) : b = c := by
  rcases h.eq_or_apart hb hc with h | h | h
  · exact h
  · omega
  · omega

namespace Arena

/-- The bytes of the used blocks. -/
def covered (A : Arena L) : Set ℕ := {x | ∃ b ∈ A.used, b.addr ≤ x ∧ x < L.stop b}

variable {A A' : Arena L} {a e n x : ℕ} {b : Block} {hn : L.unit ∣ n}

/-- The bytes of a free block are not covered. -/
theorem notMem_covered (hb : b ∈ A.blocks) (hfree : b.used = false)
    (hx : b.addr ≤ x ∧ x < L.stop b) : x ∉ A.covered := by
  rintro ⟨c, hc, hxc⟩
  obtain ⟨hc, hu⟩ := mem_used.1 hc
  rw [← A.tiles.eq_of_mem hb hc hx hxc, hfree] at hu
  cases hu

/-- In front of a free block lies a used one, or nothing. -/
theorem left_of_free (hb : b ∈ A.blocks) (hfree : b.used = false) :
    b.addr = L.lo ∨ b.addr - 1 ∈ A.covered := by
  obtain ⟨pre, post, hbs⟩ := List.append_of_mem hb
  have ht := A.tiles
  have hc := A.coalesced
  rw [hbs] at ht hc
  rcases List.eq_nil_or_concat pre with rfl | ⟨pre', p, rfl⟩
  · exact .inl ht.1
  · rw [List.concat_eq_append] at hbs ht hc
    rw [List.append_assoc] at ht
    obtain ⟨_, -, rfl, hpost⟩ := tiles_append.1 ht
    have hstop : L.stop p = b.addr := hpost.1.symm
    have hlt := addr_lt_stop (L := L) p
    have hp : p.used = true :=
      ((coalesced_append_cons.1 hc).2.2.1 p (by simp)).resolve_right (by simp [hfree])
    exact .inr ⟨p, mem_used.2 ⟨by simp [hbs], hp⟩, by omega, by omega⟩

/-- Behind a free block lies a used one, or nothing. -/
theorem right_of_free (hb : b ∈ A.blocks) (hfree : b.used = false) :
    L.stop b = L.hi ∨ L.stop b ∈ A.covered := by
  obtain ⟨pre, post, hbs⟩ := List.append_of_mem hb
  have ht := A.tiles
  have hc := A.coalesced
  rw [hbs] at ht hc
  obtain ⟨_, -, rfl, hpost⟩ := tiles_append.1 ht
  cases post with
  | nil => exact .inl hpost
  | cons c post =>
    have hstop : c.addr = L.stop b := hpost.1
    have hlt := addr_lt_stop (L := L) c
    have hu : c.used = true :=
      ((coalesced_append_cons.1 hc).2.2.2 c rfl).resolve_left (by simp [hfree])
    exact .inr ⟨c, mem_used.2 ⟨by simp [hbs], hu⟩, by omega, by omega⟩

/-- **The maximal runs of uncovered bytes are the free blocks.** -/
theorem maxRun_iff : MaxRun A.covered L.lo L.hi a e ↔
    ∃ b ∈ A.blocks, b.used = false ∧ b.addr = a ∧ L.stop b = e := by
  constructor
  · intro h
    obtain ⟨b, hb, hlo, hhi⟩ := A.tiles.exists_mem h.lo_le (h.lt.trans_le h.le_hi)
    have hbounds := A.tiles.bounds hb
    have hfree : b.used = false := by
      by_contra hu
      exact h.outside a le_rfl h.lt ⟨b, mem_used.2 ⟨hb, by simpa using hu⟩, hlo, hhi⟩
    refine ⟨b, hb, hfree, ?_, ?_⟩
    · -- a byte in front of the run lies in a used block, not in `b`
      by_contra hne
      rcases h.left with hleft | hleft
      · omega
      · exact notMem_covered hb hfree (by omega) hleft
    · rcases Nat.lt_trichotomy (L.stop b) e with hlt | heq | hlt
      · rcases right_of_free hb hfree with hright | hright
        · have := h.le_hi
          omega
        · exact absurd hright (h.outside _ hhi.le hlt)
      · exact heq
      · rcases h.right with hright | hright
        · omega
        · exact absurd hright (notMem_covered hb hfree ⟨hlo.trans h.lt.le, hlt⟩)
  · rintro ⟨b, hb, hfree, rfl, rfl⟩
    obtain ⟨hlo, hhi⟩ := A.tiles.bounds hb
    exact ⟨hlo, addr_lt_stop b, hhi, fun _ h1 h2 => notMem_covered hb hfree ⟨h1, h2⟩,
      left_of_free hb hfree, right_of_free hb hfree⟩

/-- The length of a run is that of its block. -/
theorem fits_iff_stop (hfree : b.used = false) : Fits n b ↔ L.hdr + n ≤ L.stop b - b.addr := by
  rw [Fits, and_iff_right hfree, Layout.stop]
  omega

/-- **First fit fails** exactly when every run is too short. -/
theorem alloc_eq_none_iff : A.alloc n hn = none ↔
    ∀ a e, MaxRun A.covered L.lo L.hi a e → e - a < L.hdr + n := by
  rw [alloc_eq_none]
  constructor
  · intro h a e hrun
    obtain ⟨b, hb, hfree, rfl, rfl⟩ := maxRun_iff.1 hrun
    have := mt (fits_iff_stop (L := L) hfree).2 (h b hb)
    omega
  · intro h b hb hfit
    have hshort := h _ _ (maxRun_iff.2 ⟨b, hb, hfit.1, rfl, rfl⟩)
    have := (fits_iff_stop (L := L) hfit.1).1 hfit
    omega

variable (A n) in
/-- `a` is the front of the lowest run that holds a block of `n` bytes. -/
structure LowestRun (a : ℕ) : Prop where
  exists_run : ∃ e, MaxRun A.covered L.lo L.hi a e ∧ L.hdr + n ≤ e - a
  lowest : ∀ a' e, MaxRun A.covered L.lo L.hi a' e → L.hdr + n ≤ e - a' → a ≤ a'

/-- **First fit takes the front of the lowest run** that is long enough, and at most the slack more
than was asked for. -/
theorem alloc_spec (h : A.alloc n hn = some (a, A')) :
    A.LowestRun n a ∧ ∃ b, b.addr = a ∧ n ≤ b.size ∧ b.size ≤ n + L.slack ∧
      ∀ c, c ∈ A'.used ↔ c = b ∨ c ∈ A.used := by
  obtain ⟨pre, b, post, hbs, hpre, hfit, rfl, -⟩ := FreeList.alloc_eq_some (alloc_eq_some.1 h)
  have hb : b ∈ A.blocks := by simp [hbs]
  refine ⟨⟨⟨_, maxRun_iff.2 ⟨b, hb, hfit.1, rfl, rfl⟩, (fits_iff_stop hfit.1).1 hfit⟩, ?_⟩, ?_⟩
  · intro a' e hrun hlong
    obtain ⟨c, hc, hfree, rfl, rfl⟩ := maxRun_iff.1 hrun
    have hsorted := A.tiles.pairwise_addr
    rw [hbs, List.pairwise_append, List.pairwise_cons] at hsorted
    rw [hbs] at hc
    rcases List.mem_append.1 hc with hc | hc
    · exact absurd ((fits_iff_stop hfree).2 hlong) (hpre c hc)
    · rcases List.mem_cons.1 hc with rfl | hc
      · exact le_rfl
      · exact (hsorted.2.1.1 c hc).le
  · obtain ⟨b', hb', hfit', haddr, -, hused⟩ := mem_used_alloc h
    obtain rfl := A.tiles.eq_of_addr hb hb' haddr
    refine ⟨granted L n b, rfl, le_granted hfit.2, ?_, hused⟩
    unfold granted
    dsimp only
    split <;> omega

end Arena

end FreeList

end Shiro
