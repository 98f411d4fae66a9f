import Mathlib.Data.List.Basic
import Mathlib.Logic.Function.Basic
import Shiro.Lib.Memory

/-!
# Drawing on a text screen

A screen is a function from positions to cells.  A program that draws stores runs of cells, one
after the other; where no two runs share a position, each of them can be read back at the end,
whatever was drawn in between.

On a machine with a screen in memory the cells are half words.  What a program draws is then a part
of what it does to the memory, which it may also read.

* `put`, `draw`, `window` : a run, a series of runs, and the cells of a range.
* `window_draw` : **each run of an ordered series reads back.**
* `cells` : the cells of a screen in memory.
* `Draws` : what a computation on the memory draws, with a rule for each construct.
-/

namespace Shiro

namespace Drawing

variable {α : Type*}

/-- The cells `xs` from the position `i` on. -/
def put (f : ℕ → α) : ℕ → List α → ℕ → α
  | _, [] => f
  | i, x :: xs => put (Function.update f i x) (i + 1) xs

/-- The runs `ds`, each with its position. -/
def draw (f : ℕ → α) (ds : List (ℕ × List α)) : ℕ → α := ds.foldl (fun f d => put f d.1 d.2) f

/-- Runs that follow one another from the position `i` on. -/
def consecutive : ℕ → List (List α) → List (ℕ × List α)
  | _, [] => []
  | i, xs :: xss => (i, xs) :: consecutive (i + xs.length) xss

/-- The `n` cells from the position `i` on. -/
def window (f : ℕ → α) (i n : ℕ) : List α := (List.range n).map fun k => f (i + k)

/-- Where a run begins, and where it ends. -/
def span (d : ℕ × List α) : ℕ × ℕ := (d.1, d.1 + d.2.length)

/-- Each run ends in front of those that are drawn behind it. -/
def Ordered (ds : List (ℕ × List α)) : Prop := (ds.map span).Pairwise fun d e => d.2 ≤ e.1

instance (ds : List (ℕ × List α)) : Decidable (Ordered ds) :=
  inferInstanceAs (Decidable (List.Pairwise _ _))

/-- The runs `ds` are ordered, from `lo` up to `hi`. -/
structure Stacked (lo hi : ℕ) (ds : List (ℕ × List α)) : Prop where
  ordered : Ordered ds
  within : ∀ x ∈ ds.map span, lo ≤ x.1 ∧ x.2 ≤ hi

variable {f : ℕ → α} {xs ys : List α} {x : α} {d : ℕ × List α} {ds es : List (ℕ × List α)}
  {i k n : ℕ} {P : ℕ → α → Prop}

/-! ### One run -/

theorem put_of_outside (h : k < i ∨ i + xs.length ≤ k) : put f i xs k = f k := by
  induction xs generalizing f i with
  | nil => rfl
  | cons x xs ih =>
    rw [List.length_cons] at h
    rw [put, ih (by omega), Function.update_of_ne (by omega)]

theorem put_of_lt (hk : k < xs.length) : put f i xs (i + k) = xs[k] := by
  induction xs generalizing f i k with
  | nil => exact absurd hk (Nat.not_lt_zero k)
  | cons x xs ih =>
    rw [put]
    cases k with
    | zero =>
      rw [put_of_outside (by omega)]
      exact Function.update_self _ _ _
    | succ k =>
      have hnext : i + (k + 1) = i + 1 + k := by omega
      rw [hnext]
      exact ih (Nat.lt_of_succ_lt_succ hk)

theorem put_append (f : ℕ → α) (i : ℕ) (xs ys : List α) :
    put f i (xs ++ ys) = put (put f i xs) (i + xs.length) ys := by
  induction xs generalizing f i with
  | nil => rfl
  | cons x xs ih =>
    rw [List.cons_append, put, ih, put, List.length_cons, Nat.add_assoc, Nat.add_comm 1]

theorem forall_put (hf : ∀ k, P k (f k)) (hxs : ∀ x ∈ xs, ∀ k, P k x) (i k : ℕ) :
    P k (put f i xs k) := by
  induction xs generalizing f i with
  | nil => exact hf k
  | cons x xs ih =>
    refine ih (fun k => ?_) (fun y hy => hxs y (List.mem_cons_of_mem _ hy)) _
    rw [Function.update_apply]
    split
    · exact hxs x List.mem_cons_self k
    · exact hf k

/-! ### Windows -/

@[simp] theorem length_window (f : ℕ → α) (i n : ℕ) : (window f i n).length = n := by
  rw [window, List.length_map, List.length_range]

theorem window_congr {g : ℕ → α} (h : ∀ k < n, f (i + k) = g (i + k)) :
    window f i n = window g i n :=
  List.map_congr_left fun k hk => h k (List.mem_range.1 hk)

theorem window_append (f : ℕ → α) (i n k : ℕ) :
    window f i (n + k) = window f i n ++ window f (i + n) k := by
  unfold window
  rw [List.range_add, List.map_append, List.map_map]
  refine congrArg (_ ++ ·) (List.map_congr_left fun l _ => ?_)
  rw [Function.comp_apply, Nat.add_assoc]

theorem window_put (f : ℕ → α) (i : ℕ) (xs : List α) : window (put f i xs) i xs.length = xs := by
  refine List.ext_getElem (length_window _ _ _) fun k hk hk' => ?_
  simp only [window, List.getElem_map, List.getElem_range]
  exact put_of_lt hk'

/-! ### Runs -/

theorem draw_append (f : ℕ → α) (ds es : List (ℕ × List α)) :
    draw f (ds ++ es) = draw (draw f ds) es := List.foldl_append

/-- A run that is drawn in parts. -/
theorem draw_consecutive (f : ℕ → α) (i : ℕ) (xss : List (List α)) :
    draw f (consecutive i xss) = put f i xss.flatten := by
  induction xss generalizing f i with
  | nil => rfl
  | cons xs xss ih =>
    rw [List.flatten_cons, put_append]
    exact ih _ _

theorem Stacked.append {lo mid hi : ℕ} (hds : Stacked lo mid ds) (hes : Stacked mid hi es)
    (hlo : lo ≤ mid) (hhi : mid ≤ hi) : Stacked lo hi (ds ++ es) := by
  constructor
  · rw [Ordered, List.map_append]
    exact List.pairwise_append.2 ⟨hds.ordered, hes.ordered, fun x hx y hy =>
      (hds.within x hx).2.trans (hes.within y hy).1⟩
  · intro x hx
    rw [List.map_append, List.mem_append] at hx
    rcases hx with hx | hx
    · exact ⟨(hds.within x hx).1, (hds.within x hx).2.trans hhi⟩
    · exact ⟨hlo.trans (hes.within x hx).1, (hes.within x hx).2⟩

/-- Runs of the same lengths lie in the same places. -/
theorem Stacked.congr {lo hi : ℕ} (h : Stacked lo hi ds) (hspan : es.map span = ds.map span) :
    Stacked lo hi es :=
  ⟨by rw [Ordered, hspan]; exact h.ordered, by rw [hspan]; exact h.within⟩

theorem draw_of_outside (h : ∀ d ∈ ds, k < d.1 ∨ d.1 + d.2.length ≤ k) : draw f ds k = f k := by
  induction ds generalizing f with
  | nil => rfl
  | cons d ds ih =>
    rw [draw, List.foldl_cons, ← draw, ih fun e he => h e (List.mem_cons_of_mem _ he)]
    exact put_of_outside (h d List.mem_cons_self)

theorem forall_draw (hf : ∀ k, P k (f k)) (hds : ∀ d ∈ ds, ∀ x ∈ d.2, ∀ k, P k x) (k : ℕ) :
    P k (draw f ds k) := by
  induction ds generalizing f with
  | nil => exact hf k
  | cons d ds ih =>
    exact ih (forall_put hf (hds d List.mem_cons_self) d.1)
      fun e he => hds e (List.mem_cons_of_mem _ he)

/-- **Each run of an ordered series reads back.** -/
theorem window_draw (h : Ordered ds) (hd : d ∈ ds) :
    window (draw f ds) d.1 d.2.length = d.2 := by
  induction ds generalizing f with
  | nil => cases hd
  | cons e ds ih =>
    obtain ⟨hbefore, hrest⟩ := List.pairwise_cons.1 h
    rcases List.mem_cons.1 hd with heq | hd
    · -- the runs behind it leave it alone
      have hlater : window (draw (put f e.1 e.2) ds) e.1 e.2.length =
          window (put f e.1 e.2) e.1 e.2.length :=
        window_congr fun k hk => draw_of_outside fun e' he' => by
          have : e.1 + e.2.length ≤ e'.1 := hbefore (span e') (List.mem_map_of_mem he')
          omega
      rw [heq]
      exact hlater.trans (window_put f e.1 e.2)
    · exact ih hrest hd

/-! ### Screens in memory -/

/-- The cells of a screen of `size` cells at the address `base`. -/
def cells (base size : ℕ) (m : Mem) (i : ℕ) : UInt16 :=
  if i < size then .ofNat (m.read16 (base + 2 * i)) else 0

/-- `screen[i] = v` -/
def store (base i : ℕ) (v : UInt16) : StateM Mem Unit :=
  modify fun m => m.write16 (base + 2 * i) v.toNat

/-- The cells `xs`, one store after the other. -/
def stores (base : ℕ) : ℕ → List UInt16 → StateM Mem Unit
  | _, [] => pure ()
  | i, x :: xs => do
    store base i x
    stores base (i + 1) xs

/-- Where nothing but the screen differs from the memory `m₀`, the computation returns `a`, changes
nothing but the screen and draws `g`. -/
def Draws {β : Type} (base size : ℕ) (m₀ : Mem) (p : StateM Mem β) (a : β)
    (g : (ℕ → UInt16) → ℕ → UInt16) : Prop :=
  ∀ m, OnlyIn m₀ m base (base + 2 * size) →
    (p m).1 = a ∧ OnlyIn m₀ (p m).2 base (base + 2 * size) ∧
      cells base size (p m).2 = g (cells base size m)

variable {β γ : Type} {base size : ℕ} {m m₀ : Mem} {p : StateM Mem β} {q : β → StateM Mem γ} {a : β}
  {b : γ} {g g' : (ℕ → UInt16) → ℕ → UInt16} {v : UInt16} {vs : List UInt16}

/-- **A store changes one cell.** -/
theorem cells_write16 (hfit : base + 2 * size ≤ 2 ^ 32) (hi : i < size) (m : Mem) (v : UInt16) :
    cells base size (m.write16 (base + 2 * i) v.toNat) =
      Function.update (cells base size m) i v := by
  funext k
  rw [Function.update_apply]
  by_cases hk : k = i
  · subst hk
    rw [cells, if_pos hi, if_pos rfl, Mem.read16_write16 _ _ v.toNat_lt, UInt16.ofNat_toNat]
  · rw [if_neg hk, cells, cells]
    by_cases hlt : k < size
    · rw [if_pos hlt, if_pos hlt]
      exact congrArg UInt16.ofNat (Mem.read16_congr
        (Mem.read8_write16_of_ne (by omega) (by omega) (by omega))
        (Mem.read8_write16_of_ne (by omega) (by omega) (by omega)))
    · rw [if_neg hlt, if_neg hlt]

theorem draws_nil (a : β) : Draws base size m₀ (pure a) a fun f => draw f [] :=
  fun _ hm => ⟨rfl, hm, rfl⟩

theorem draws_pure (a : β) : Draws base size m₀ (pure a) a id := fun _ hm => ⟨rfl, hm, rfl⟩

theorem Draws.of_eq (h : Draws base size m₀ p a g) (heq : ∀ f, g f = g' f) :
    Draws base size m₀ p a g' := fun m hm => by
  obtain ⟨ha, hm', hg⟩ := h m hm
  exact ⟨ha, hm', hg.trans (heq _)⟩

theorem Draws.bind (hp : Draws base size m₀ p a g) (hq : Draws base size m₀ (q a) b g') :
    Draws base size m₀ (p >>= q) b (g' ∘ g) := fun m hm => by
  obtain ⟨ha, hm', hg⟩ := hp m hm
  obtain ⟨hb, hm'', hg'⟩ := hq _ hm'
  have hstep : (p >>= q) m = q a (p m).2 := by
    rw [← ha]
    rfl
  rw [hstep]
  exact ⟨hb, hm'', hg'.trans (congrArg g' hg)⟩

/-- What is drawn run by run. -/
theorem Draws.append {ds es : List (ℕ × List UInt16)}
    (hp : Draws base size m₀ p a fun f => draw f ds)
    (hq : Draws base size m₀ (q a) b fun f => draw f es) :
    Draws base size m₀ (p >>= q) b fun f => draw f (ds ++ es) := by
  have h := hp.bind hq
  simp only [draw_append]
  exact h

theorem draws_store (hfit : base + 2 * size ≤ 2 ^ 32) (hi : i < size) (v : UInt16) :
    Draws base size m₀ (store base i v) () fun f => Function.update f i v :=
  fun m hm => ⟨rfl, hm.write16 hfit (by omega) (by omega) _, cells_write16 hfit hi m v⟩

theorem draws_stores (hfit : base + 2 * size ≤ 2 ^ 32) (hi : i + vs.length ≤ size) :
    Draws base size m₀ (stores base i vs) () fun f => put f i vs := by
  induction vs generalizing i with
  | nil => exact draws_pure ()
  | cons v vs ih =>
    rw [List.length_cons] at hi
    exact (draws_store hfit (show i < size by omega) v).bind (q := fun _ => stores base (i + 1) vs)
      (ih (show i + 1 + vs.length ≤ size by omega))

/-- A loop that draws some runs in each round. -/
theorem draws_forM {ι : Type} {p : ι → StateM Mem Unit} {r : ι → List (ℕ × List UInt16)}
    {xs : List ι} (h : ∀ x ∈ xs, Draws base size m₀ (p x) () fun f => draw f (r x)) :
    Draws base size m₀ (xs.forM p) () fun f => draw f (xs.flatMap r) := by
  induction xs with
  | nil => exact draws_pure ()
  | cons x xs ih =>
    exact (h x List.mem_cons_self).append (q := fun _ => xs.forM p)
      (ih fun y hy => h y (List.mem_cons_of_mem _ hy))

/-- A loop over neighbouring cells. -/
theorem draws_forM_store {h : ℕ → UInt16} (hfit : base + 2 * size ≤ 2 ^ 32) (hi : i + n ≤ size) :
    Draws base size m₀ ((List.range n).forM fun k => store base (i + k) (h k)) ()
      fun f => put f i ((List.range n).map h) := by
  have hdraw (f : ℕ → UInt16) : draw f ((List.range n).flatMap fun k => [(i + k, [h k])]) =
      put f i ((List.range n).map h) := by
    clear hi
    induction n with
    | zero => rfl
    | succ n ih =>
      rw [List.range_succ, List.flatMap_append, draw_append, ih, List.map_append, put_append,
        List.length_map, List.length_range]
      rfl
  simp only [← hdraw]
  exact draws_forM fun k hk => draws_store hfit (by have := List.mem_range.1 hk; omega) (h k)

/-- A word beside the screen is read as it was. -/
theorem draws_read32 {addr : ℕ}
    (h : ∀ k < 4, u32 (addr + k) < base ∨ base + 2 * size ≤ u32 (addr + k)) :
    Draws base size m₀ (fun m => (m.read32 addr, m)) (m₀.read32 addr) fun f => draw f [] :=
  fun _ hm => ⟨Mem.read32_congr fun k hk => hm _ (h k hk), hm, rfl⟩

end Drawing

end Shiro
