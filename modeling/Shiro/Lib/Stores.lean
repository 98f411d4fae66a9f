import Mathlib.Algebra.Ring.Nat
import Mathlib.Data.List.Basic
import Shiro.Lib.CString

/-!
# Computations that fill a buffer

A computation that stores bytes in a buffer and does not read it is given by its result and its
stores, in order.  Indices count from the pointer it is passed; a pointer into the middle of a
buffer moves them (`offset`).

* `Stores.put`, `Stores.puts` : one byte, and one byte after the other.
* `Stores.fill` : the buffer afterwards.
* `Stores.Within` : only the first bytes of the buffer are stored to.
* `Stores.Ends`, `Stores.Fits` : the rules for what is built from left to right, and its NUL.
* `Stores.Extends`, `Stores.Closes` : a string in the buffer is continued, or continued and ended,
  with a rule for each construct; `Closes.cstr` : **the string can be read then.**
* `Stores.Writes` : a string and its NUL are stored at the start of the buffer, and nothing else;
  `Writes.fill` : **the buffer holds the string then.**
-/

namespace Shiro

/-- A computation that stores bytes at indices and returns an `α`. -/
@[ext]
structure Stores (α : Type) where
  value : α
  log : List (ℕ × UInt8)

namespace Stores

variable {α β : Type}

instance : Monad Stores where
  pure x := ⟨x, []⟩
  bind c f := ⟨(f c.value).value, c.log ++ (f c.value).log⟩

/-- `buf[i] = x` -/
def put (i : ℕ) (x : UInt8) : Stores Unit := ⟨(), [(i, x)]⟩

/-- The stores of the bytes `s` from the index `j` on. -/
def cells : ℕ → List UInt8 → List (ℕ × UInt8)
  | _, [] => []
  | j, x :: s => (j, x) :: cells (j + 1) s

/-- `buf[j++] = x` for each byte of `s`, and the index behind them. -/
def puts (j : ℕ) (s : List UInt8) : Stores ℕ := ⟨j + s.length, cells j s⟩

/-- `buf[j++] = x` for each byte of `s`, as long as `j < limit`. -/
def putsBelow (limit : ℤ) : List UInt8 → ℕ → Stores ℕ
  | [], j => pure j
  | x :: s, j =>
    if (j : ℤ) < limit then do
      put j x
      putsBelow limit s (j + 1)
    else pure j

/-- The computation is passed the pointer `&buf[j]`. -/
def offset (j : ℕ) (c : Stores α) : Stores α := ⟨c.value, c.log.map fun x => (j + x.1, x.2)⟩

/-- The buffer afterwards. -/
def fill (c : Stores α) (buf : List UInt8) : List UInt8 :=
  c.log.foldl (fun buf x => buf.set x.1 x.2) buf

/-- Only the first `n` bytes are stored to. -/
def Within (n : ℤ) (c : Stores α) : Prop := ∀ x ∈ c.log, (x.1 : ℤ) < n

/-- Only the first `n` bytes are stored to, and the index returned is at most `k`. -/
structure Ends (n : ℤ) (k : ℕ) (c : Stores ℕ) : Prop where
  within : c.Within n
  value_le : c.value ≤ k

/-- The last store is a NUL at the index returned. -/
def EndsInNul (c : Stores ℕ) : Prop := ∃ pre, c.log = pre ++ [(c.value, 0)]

/-- The computation ends with a NUL, inside the buffer like all its stores. -/
structure Fits (n : ℤ) (c : Stores ℕ) : Prop where
  within : c.Within n
  nul : c.EndsInNul

/-- The string `s` and its NUL are stored at the start of the buffer, and its length returned. -/
structure Writes (c : Stores ℕ) (s : List UInt8) : Prop where
  value : c.value = s.length
  log : c.log = cells 0 (s ++ [0])

variable {c : Stores α} {f : α → Stores β} {n : ℤ} {i j k : ℕ} {s t buf : List UInt8} {x : UInt8}

@[simp] theorem value_pure (a : α) : (pure a : Stores α).value = a := rfl

@[simp] theorem value_bind : (c >>= f).value = (f c.value).value := rfl

@[simp] theorem log_pure (a : α) : (pure a : Stores α).log = [] := rfl

@[simp] theorem log_bind : (c >>= f).log = c.log ++ (f c.value).log := rfl

@[simp] theorem value_put : (put i x).value = () := rfl

@[simp] theorem log_put : (put i x).log = [(i, x)] := rfl

@[simp] theorem value_puts : (puts j s).value = j + s.length := rfl

@[simp] theorem value_offset : (c.offset j).value = c.value := rfl

instance : LawfulMonad Stores :=
  LawfulMonad.mk' Stores
    (fun _ => Stores.ext rfl (List.append_nil _))
    (fun _ _ => rfl)
    (fun _ _ _ => Stores.ext rfl (List.append_assoc _ _ _))

theorem offset_zero (c : Stores α) : c.offset 0 = c := by
  refine Stores.ext rfl ((List.map_congr_left fun x _ => ?_).trans c.log.map_id)
  rw [Nat.zero_add, id]

theorem cells_append (j : ℕ) (s t : List UInt8) :
    cells j (s ++ t) = cells j s ++ cells (j + s.length) t := by
  induction s generalizing j with
  | nil => rfl
  | cons x s ih =>
    rw [List.cons_append, cells, ih, cells, List.cons_append, List.length_cons, Nat.add_assoc,
      Nat.add_comm 1]

theorem puts_nil (j : ℕ) : puts j [] = pure j := rfl

theorem puts_append (j : ℕ) (s t : List UInt8) :
    puts j (s ++ t) = puts j s >>= fun j => puts j t := by
  refine Stores.ext ?_ (cells_append j s t)
  rw [value_bind, value_puts, value_puts, value_puts, List.length_append, Nat.add_assoc]

/-- A bounded loop stores as many bytes as there is room for. -/
theorem putsBelow_eq (limit : ℤ) (s : List UInt8) (j : ℕ) :
    putsBelow limit s j = puts j (s.take (limit - j).toNat) := by
  induction s generalizing j with
  | nil => rw [putsBelow, List.take_nil, puts_nil]
  | cons x s ih =>
    rw [putsBelow]
    split
    · have hroom : (limit - j).toNat = (limit - (j + 1 : ℕ)).toNat + 1 := by omega
      rw [ih, hroom, List.take_succ_cons]
      refine Stores.ext ?_ rfl
      rw [value_bind, value_puts, value_puts, List.length_cons, Nat.add_assoc, Nat.add_comm 1]
    · have hroom : (limit - j).toNat = 0 := by omega
      rw [hroom, List.take_zero, puts_nil]

/-- A string that is begun with the bytes `s` and goes on with the bytes `t`. -/
theorem writes_append (h : c.log = cells 0 s) : Writes (do
    let _ ← c
    let j ← puts s.length t
    put j 0
    return j) (s ++ t) := by
  refine ⟨List.length_append.symm, ?_⟩
  rw [List.append_assoc, cells_append, cells_append, Nat.zero_add]
  simp only [log_bind, log_pure, log_put, value_puts, h, List.append_nil]
  rfl

/-! ### Rules for the indices -/

theorem within_pure (a : α) : (pure a : Stores α).Within n := fun _ h => absurd h List.not_mem_nil

theorem within_bind : (c >>= f).Within n ↔ c.Within n ∧ (f c.value).Within n :=
  List.forall_mem_append

theorem within_put : (put i x).Within n ↔ (i : ℤ) < n := List.forall_mem_singleton

theorem mem_cells {p : ℕ × UInt8} (h : p ∈ cells j s) : j ≤ p.1 ∧ p.1 < j + s.length := by
  induction s generalizing j with
  | nil => cases h
  | cons x s ih =>
    rw [List.length_cons]
    rcases List.mem_cons.1 h with rfl | h
    · exact ⟨le_rfl, by omega⟩
    · have := ih h
      omega

theorem within_puts (h : ((j + s.length : ℕ) : ℤ) ≤ n) : (puts j s).Within n := by
  intro p hp
  have := mem_cells hp
  omega

/-- Through a pointer `j` bytes further on there are `j` bytes less. -/
theorem within_offset : (c.offset j).Within n ↔ c.Within (n - j) := by
  unfold Within offset
  simp only [List.forall_mem_map]
  refine forall₂_congr fun x _ => ?_
  push_cast
  omega

theorem Writes.within {c : Stores ℕ} (h : c.Writes s) (hn : (s.length : ℤ) < n) : c.Within n := by
  intro p hp
  rw [h.log] at hp
  have := mem_cells hp
  rw [List.length_append, List.length_singleton] at this
  omega

/-! ### Rules for what is built from left to right -/

variable {c : Stores ℕ} {f : ℕ → Stores ℕ} {l : ℕ}

theorem Ends.bind (hc : c.Ends n k) (hf : ∀ j ≤ k, (f j).Ends n l) : (c >>= f).Ends n l :=
  ⟨within_bind.2 ⟨hc.within, (hf _ hc.value_le).within⟩, (hf _ hc.value_le).value_le⟩

/-- What goes on behind `c` ends with the NUL. -/
theorem Fits.after {c : Stores α} {f : α → Stores ℕ} (hc : c.Within n) (hf : (f c.value).Fits n) :
    (c >>= f).Fits n := by
  obtain ⟨hwithin, pre, hpre⟩ := hf
  refine ⟨within_bind.2 ⟨hc, hwithin⟩, c.log ++ pre, ?_⟩
  rw [log_bind, hpre, List.append_assoc, value_bind]

theorem Ends.fits (hc : c.Ends n k) (hf : ∀ j ≤ k, (f j).Fits n) : (c >>= f).Fits n :=
  .after hc.within (hf _ hc.value_le)

theorem ends_pure (h : j ≤ k) : (pure j : Stores ℕ).Ends n k := ⟨within_pure j, h⟩

theorem ends_puts (l : ℕ) (h : j ≤ k) (hl : k + s.length ≤ l) (hn : (l : ℤ) ≤ n) :
    (puts j s).Ends n l := by
  refine ⟨within_puts ?_, ?_⟩
  · omega
  · rw [value_puts]
    omega

/-- The NUL at the end. -/
theorem fits_nul (h : (j : ℤ) < n) : Fits n (do
    put j 0
    return j) :=
  ⟨within_bind.2 ⟨within_put.2 h, within_pure j⟩, [], rfl⟩

/-- A loop each of whose rounds takes a known number of bytes. -/
theorem ends_foldlM {ι : Type} {f : ℕ → ι → Stores ℕ} {g : ι → ℕ} {xs : List ι}
    (hf : ∀ x ∈ xs, ∀ j k, j ≤ k → ((k + g x : ℕ) : ℤ) ≤ n → (f j x).Ends n (k + g x))
    (h : j ≤ k) (hk : ((k + (xs.map g).sum : ℕ) : ℤ) ≤ n) :
    (xs.foldlM f j).Ends n (k + (xs.map g).sum) := by
  induction xs generalizing j k with
  | nil => exact ends_pure (by simpa using h)
  | cons x xs ih =>
    rw [List.map_cons, List.sum_cons] at hk ⊢
    rw [List.foldlM_cons, ← Nat.add_assoc]
    refine (hf x List.mem_cons_self j k h (by omega)).bind fun i hi => ?_
    exact ih (fun y hy => hf y (List.mem_cons_of_mem _ hy)) hi (by omega)

/-! ### The buffer -/

/-- Bytes stored one after the other replace what was there. -/
theorem foldl_cells (s : List UInt8) (hk : j + s.length ≤ buf.length) :
    (cells j s).foldl (fun buf x => buf.set x.1 x.2) buf =
      buf.take j ++ s ++ buf.drop (j + s.length) := by
  induction s generalizing j buf with
  | nil => simp [cells]
  | cons x s ih =>
    rw [List.length_cons] at hk
    rw [cells, List.foldl_cons, ih (by rw [List.length_set]; omega), List.length_cons]
    have hset : (buf.set j x).take (j + 1) = buf.take j ++ [x] := by
      rw [List.take_set, List.take_add_one, List.set_append_right _ _ (List.length_take_le _ _)]
      have hj : j < buf.length := by omega
      simp [List.getElem?_eq_getElem hj, Nat.min_eq_left hj.le]
    rw [hset, List.drop_set_of_lt (by omega), List.append_assoc, List.append_assoc,
      List.append_assoc, List.singleton_append, List.cons_append]
    congr 4
    omega

/-- **The buffer holds the string that was written**, and what was there behind it. -/
theorem Writes.fill {c : Stores ℕ} (h : c.Writes s) (hbuf : s.length < buf.length) :
    c.fill buf = s ++ 0 :: buf.drop (s.length + 1) := by
  rw [Stores.fill, h.log, foldl_cells _ (by simp; omega)]
  simp

/-! ### Strings that are built from left to right -/

/-- In a buffer of `cap` bytes that begins with `t`, the computation goes on to `t'`. -/
structure Extends (cap : ℕ) (c : Stores ℕ) (t t' : List UInt8) : Prop where
  value : c.value = t'.length
  within : c.Within cap
  holds : ∀ buf : List UInt8, buf.length = cap → t <+: buf → t' <+: c.fill buf

/-- It also leaves a NUL behind `t'`. -/
structure Closes (cap : ℕ) (c : Stores ℕ) (t t' : List UInt8) : Prop extends
    Extends cap c t t' where
  nul : ∀ buf : List UInt8, buf.length = cap → t <+: buf → t' ++ [0] <+: c.fill buf

variable {t' t'' : List UInt8} {cap : ℕ}

@[simp] theorem length_fill (c : Stores α) (buf : List UInt8) :
    (c.fill buf).length = buf.length := by
  unfold fill
  induction c.log generalizing buf with
  | nil => rfl
  | cons x log ih => rw [List.foldl_cons, ih, List.length_set]

theorem fill_bind (c : Stores α) (f : α → Stores β) (buf : List UInt8) :
    (c >>= f).fill buf = (f c.value).fill (c.fill buf) := List.foldl_append

theorem Extends.refl (t : List UInt8) : (pure t.length : Stores ℕ).Extends cap t t :=
  ⟨rfl, within_pure _, fun _ _ h => h⟩

theorem Extends.bind (hc : c.Extends cap t t') (hf : (f t'.length).Extends cap t' t'') :
    (c >>= f).Extends cap t t'' := by
  rw [← hc.value] at hf
  refine ⟨hf.value, within_bind.2 ⟨hc.within, hf.within⟩, fun buf hbuf ht => ?_⟩
  rw [fill_bind]
  exact hf.holds _ ((length_fill _ _).trans hbuf) (hc.holds buf hbuf ht)

theorem Extends.closes (hc : c.Extends cap t t') (hf : (f t'.length).Closes cap t' t'') :
    (c >>= f).Closes cap t t'' := by
  refine ⟨hc.bind hf.toExtends, fun buf hbuf ht => ?_⟩
  rw [fill_bind, hc.value]
  exact hf.nul _ ((length_fill _ _).trans hbuf) (hc.holds buf hbuf ht)

/-- What the bytes stored behind `t` leave in the buffer. -/
theorem fill_of_log (hlog : c.log = cells t.length s) (hbuf : t.length + s.length ≤ buf.length)
    (ht : t <+: buf) : t ++ s <+: c.fill buf := by
  rw [fill, hlog, foldl_cells _ hbuf, ← List.prefix_iff_eq_take.1 ht]
  exact List.prefix_append _ _

theorem within_of_log (hlog : c.log = cells t.length s) (hcap : t.length + s.length ≤ cap) :
    c.Within cap := by
  intro p hp
  rw [hlog] at hp
  have := mem_cells hp
  omega

theorem extends_of_log (hlog : c.log = cells t.length s) (hvalue : c.value = t.length + s.length)
    (hcap : t.length + s.length ≤ cap) : c.Extends cap t (t ++ s) :=
  ⟨hvalue.trans List.length_append.symm, within_of_log hlog hcap,
    fun _ hbuf ht => fill_of_log hlog (hbuf ▸ hcap) ht⟩

theorem closes_of_log (hlog : c.log = cells t.length (s ++ [0]))
    (hvalue : c.value = t.length + s.length) (hcap : t.length + s.length < cap) :
    c.Closes cap t (t ++ s) := by
  have hlen : (s ++ [0]).length = s.length + 1 := List.length_append
  have hnul : ∀ buf : List UInt8, buf.length = cap → t <+: buf → t ++ s ++ [0] <+: c.fill buf := by
    intro buf hbuf ht
    rw [List.append_assoc]
    exact fill_of_log hlog (by omega) ht
  refine ⟨⟨?_, within_of_log hlog (by omega), fun buf hbuf ht => ?_⟩, hnul⟩
  · exact hvalue.trans List.length_append.symm
  · exact (List.prefix_append _ _).trans (hnul buf hbuf ht)

theorem extends_puts (s : List UInt8) (h : t.length + s.length ≤ cap) :
    (puts t.length s).Extends cap t (t ++ s) := extends_of_log rfl rfl h

theorem extends_putsBelow (limit : ℕ) (s : List UInt8) (ht : t.length ≤ limit) (h : limit ≤ cap) :
    (putsBelow limit s t.length).Extends cap t (t ++ s.take (limit - t.length)) := by
  have hroom : ((limit : ℤ) - t.length).toNat = limit - t.length := by omega
  rw [putsBelow_eq, hroom]
  exact extends_puts _ (by rw [List.length_take]; omega)

theorem closes_nul (h : t.length < cap) : (do
    put t.length 0
    return t.length : Stores ℕ).Closes cap t t := by
  have hnul := closes_of_log (c := do put t.length 0; return t.length) (t := t) (s := []) rfl rfl h
  rwa [List.append_nil] at hnul

/-- Through a pointer behind `t`. -/
theorem log_offset_cells {c : Stores α} (h : c.log = cells 0 s) (j : ℕ) :
    (c.offset j).log = cells j s := by
  have hmap : ∀ i, (cells i s).map (fun x => (j + x.1, x.2)) = cells (j + i) s := by
    clear h
    induction s with
    | nil => exact fun _ => rfl
    | cons x s ih => exact fun i => congrArg ((j + i, x) :: ·) (ih (i + 1))
  rw [offset, h]
  exact hmap 0

/-- A string that is written behind `t`, where `j += …` counts its bytes. -/
theorem Writes.closes (h : c.Writes s) (hcap : t.length + s.length < cap) : (do
    return t.length + (← c.offset t.length) : Stores ℕ).Closes cap t (t ++ s) := by
  refine closes_of_log ?_ ?_ hcap
  · rw [log_bind, log_pure, List.append_nil]
    exact log_offset_cells h.log _
  · rw [value_bind, value_offset, h.value]
    rfl

/-- **The string can be read**, whatever was in the buffer before. -/
theorem Closes.cstr (h : c.Closes cap [] t) (hbuf : buf.length = cap) :
    cstr (c.fill buf) = cstr t := by
  obtain ⟨rest, hrest⟩ := h.nul buf hbuf List.nil_prefix
  rw [← hrest, List.append_assoc]
  exact cstr_append_nul t rest

end Stores

end Shiro
