import Mathlib.Data.List.Range
import Mathlib.Logic.Function.Basic
import Mathlib.Tactic.Common

/-!
# Scrolling displays

A display is an array of cells, `w` to a row.  It shows the end of a log that only grows: a new line
moves every row up by one, cell by cell, and comes to stand in the last row.

* `fill`, `move`, `moveRows` : the loops over the cells, and what they leave in each cell.
* `rows` : the cells as a list of rows.
* `rows_scroll` : **scrolling drops the first row and puts a blank one behind the last.**
* `window` : the last lines of a log; `window_concat` says that it scrolls in the same way.
-/

namespace Shiro

namespace Scrollback

variable {α : Type*}

/-! ### Loops over the cells -/

/-- `for (i = 0; i < n; i++) b[lo + i] = c;` -/
def fill (b : ℕ → α) (lo n : ℕ) (c : α) : ℕ → α :=
  (List.range n).foldl (fun b i => Function.update b (lo + i) c) b

/-- `for (i = 0; i < n; i++) b[dst + i] = b[src + i];` -/
def move (b : ℕ → α) (dst src n : ℕ) : ℕ → α :=
  (List.range n).foldl (fun b i => Function.update b (dst + i) (b (src + i))) b

/-- `n` rows, from `first` on, take over the row behind them. -/
def moveRows (b : ℕ → α) (w first n : ℕ) : ℕ → α :=
  (List.range n).foldl (fun b i => move b ((first + i) * w) ((first + i + 1) * w) w) b

variable {b b' : ℕ → α} {w first n lo dst src p r : ℕ} {c : α}

theorem fill_apply (b : ℕ → α) (lo n : ℕ) (c : α) (p : ℕ) :
    fill b lo n c p = if lo ≤ p ∧ p < lo + n then c else b p := by
  induction n with
  | zero => rw [if_neg (by omega)]; rfl
  | succ n ih =>
    have hstep : fill b lo (n + 1) c = Function.update (fill b lo n c) (lo + n) c := by
      simp only [fill, List.range_succ, List.foldl_append, List.foldl_cons, List.foldl_nil]
    rw [hstep, Function.update_apply, ih]
    grind

/-- A move to a place below reads no cell that it has written. -/
theorem move_apply (b : ℕ → α) (h : dst + n ≤ src) (p : ℕ) :
    move b dst src n p = if dst ≤ p ∧ p < dst + n then b (src + (p - dst)) else b p := by
  induction n generalizing p with
  | zero => rw [if_neg (by omega)]; rfl
  | succ n ih =>
    have hstep : move b dst src (n + 1) =
        Function.update (move b dst src n) (dst + n) (move b dst src n (src + n)) := by
      simp only [move, List.range_succ, List.foldl_append, List.foldl_cons, List.foldl_nil]
    have hread : move b dst src n (src + n) = b (src + n) := by
      rw [ih (by omega), if_neg (by omega)]
    rw [hstep, Function.update_apply, hread, ih (by omega)]
    by_cases hp : p = dst + n
    · subst hp
      rw [if_pos rfl, if_pos (by omega), Nat.add_sub_cancel_left]
    · rw [if_neg hp]
      by_cases hin : dst ≤ p ∧ p < dst + n
      · rw [if_pos hin, if_pos (by omega)]
      · rw [if_neg hin, if_neg (by omega)]

/-- Upwards, each row is read before it is written. -/
theorem moveRows_apply (b : ℕ → α) (w first n p : ℕ) :
    moveRows b w first n p =
      if first * w ≤ p ∧ p < (first + n) * w then b (p + w) else b p := by
  induction n generalizing p with
  | zero => rw [if_neg (by rw [Nat.add_zero]; omega)]; rfl
  | succ n ih =>
    have hstep : moveRows b w first (n + 1) =
        move (moveRows b w first n) ((first + n) * w) ((first + n + 1) * w) w := by
      simp only [moveRows, List.range_succ, List.foldl_append, List.foldl_cons, List.foldl_nil]
    have hnext : (first + n + 1) * w = (first + n) * w + w := Nat.succ_mul _ _
    have hle : first * w ≤ (first + n) * w := Nat.mul_le_mul_right _ (Nat.le_add_right _ _)
    rw [hstep, move_apply _ (by omega), ih, ih, ← Nat.add_assoc first n 1, hnext]
    grind

/-! ### Rows -/

/-- Row `r`. -/
def row (b : ℕ → α) (w r : ℕ) : List α := (List.range w).map fun col => b (r * w + col)

/-- The `n` rows from `first` on. -/
def rows (b : ℕ → α) (w first n : ℕ) : List (List α) :=
  (List.range n).map fun k => row b w (first + k)

@[simp] theorem length_row (b : ℕ → α) (w r : ℕ) : (row b w r).length = w := by simp [row]

@[simp] theorem length_rows (b : ℕ → α) (w first n : ℕ) : (rows b w first n).length = n := by
  simp [rows]

theorem row_congr (h : ∀ p, r * w ≤ p → p < (r + 1) * w → b' p = b p) : row b' w r = row b w r := by
  have hnext : (r + 1) * w = r * w + w := Nat.succ_mul _ _
  refine List.map_congr_left fun col hcol => h _ (Nat.le_add_right _ _) ?_
  have := List.mem_range.1 hcol
  omega

theorem rows_congr (h : ∀ p, first * w ≤ p → p < (first + n) * w → b' p = b p) :
    rows b' w first n = rows b w first n := by
  refine List.map_congr_left fun k hk => row_congr fun p hlo hhi => h p ?_ ?_
  · exact (Nat.mul_le_mul_right _ (Nat.le_add_right _ _)).trans hlo
  · have := List.mem_range.1 hk
    exact hhi.trans_le (Nat.mul_le_mul_right _ (by omega))

theorem rows_succ (b : ℕ → α) (w first n : ℕ) :
    rows b w first (n + 1) = rows b w first n ++ [row b w (first + n)] := by
  simp only [rows, List.range_succ, List.map_append, List.map_cons, List.map_nil]

theorem rows_succ_eq_cons (b : ℕ → α) (w first n : ℕ) :
    rows b w first (n + 1) = row b w first :: rows b w (first + 1) n := by
  simp only [rows, List.range_succ_eq_map, List.map_cons, List.map_map, Nat.add_zero]
  refine congrArg (List.cons _) (List.map_congr_left fun k _ => ?_)
  rw [Function.comp_apply, Nat.succ_eq_add_one, Nat.add_right_comm, Nat.add_assoc first k 1]

theorem row_eq_replicate (h : ∀ p, r * w ≤ p → p < (r + 1) * w → b p = c) :
    row b w r = List.replicate w c := by
  have hnext : (r + 1) * w = r * w + w := Nat.succ_mul _ _
  refine List.eq_replicate_iff.2 ⟨length_row b w r, fun x hx => ?_⟩
  obtain ⟨col, hcol, rfl⟩ := List.mem_map.1 hx
  have := List.mem_range.1 hcol
  exact h _ (Nat.le_add_right _ _) (by omega)

theorem rows_eq_replicate (h : ∀ p, first * w ≤ p → p < (first + n) * w → b p = c) :
    rows b w first n = List.replicate n (List.replicate w c) := by
  refine List.eq_replicate_iff.2 ⟨length_rows b w first n, fun x hx => ?_⟩
  obtain ⟨k, hk, rfl⟩ := List.mem_map.1 hx
  have hk := List.mem_range.1 hk
  refine row_eq_replicate fun p hlo hhi => h p ?_ ?_
  · exact (Nat.mul_le_mul_right _ (Nat.le_add_right _ _)).trans hlo
  · exact hhi.trans_le (Nat.mul_le_mul_right _ (by omega))

/-- A store into a row. -/
theorem row_update (b : ℕ → α) (w r col : ℕ) (c : α) :
    row (Function.update b (r * w + col) c) w r = (row b w r).set col c := by
  refine List.ext_getElem (by simp) fun i h1 _ => ?_
  simp only [row, List.getElem_map, List.getElem_range, List.getElem_set, Function.update_apply,
    Nat.add_left_cancel_iff, eq_comm]

/-- **Scrolling** drops the first row and puts a blank one behind the last. -/
theorem rows_scroll (b : ℕ → α) (w first n : ℕ) (c : α) :
    rows (fill (moveRows b w first n) ((first + n) * w) w c) w first (n + 1) =
      (rows b w first (n + 1)).tail ++ [List.replicate w c] := by
  have hnext : (first + n + 1) * w = (first + n) * w + w := Nat.succ_mul _ _
  rw [rows_succ, rows_succ_eq_cons b, List.tail_cons]
  refine congrArg₂ _ ?_ (congrArg (fun x => [x]) ?_)
  · refine List.map_congr_left fun k hk => List.map_congr_left fun col hcol => ?_
    have hk := List.mem_range.1 hk
    have hcol := List.mem_range.1 hcol
    have hlo : first * w ≤ (first + k) * w := Nat.mul_le_mul_right _ (Nat.le_add_right _ _)
    have hhi : (first + k + 1) * w ≤ (first + n) * w := Nat.mul_le_mul_right _ (by omega)
    have hrow : (first + k + 1) * w = (first + k) * w + w := Nat.succ_mul _ _
    rw [fill_apply, if_neg (by omega), moveRows_apply, if_pos (by omega), Nat.add_right_comm first]
    rw [hrow, Nat.add_right_comm]
  · refine row_eq_replicate fun p hlo hhi => ?_
    rw [fill_apply, if_pos (by omega)]

/-! ### The end of a log -/

/-- The last `n` lines of a log, oldest first, and `d` above them where there are fewer. -/
def window (n : ℕ) (d : α) (log : List α) : List α := (List.replicate n d ++ log).drop log.length

variable {d x : α} {log : List α}

theorem window_nil (n : ℕ) (d : α) : window n d [] = List.replicate n d := by simp [window]

/-- A new line scrolls the window. -/
theorem window_concat (n : ℕ) (d : α) (log : List α) (x : α) :
    window (n + 1) d (log ++ [x]) = (window (n + 1) d log).tail ++ [x] := by
  have hle : log.length + 1 ≤ (List.replicate (n + 1) d ++ log).length := by
    rw [List.length_append, List.length_replicate]
    omega
  rw [window, window, List.tail_drop, ← List.append_assoc, List.length_append, List.length_singleton,
    List.drop_append_of_le_length hle]

/-- The newest line apart. -/
theorem window_succ_concat (n : ℕ) (d : α) (log : List α) (x : α) :
    window (n + 1) d (log ++ [x]) = window n d log ++ [x] := by
  rw [window_concat, window, List.tail_drop, List.replicate_succ, List.cons_append,
    List.drop_succ_cons, window]

end Scrollback

end Shiro
