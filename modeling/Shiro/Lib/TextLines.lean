import Mathlib.Data.Nat.Init
import Mathlib.Order.Nat

/-!
# The lines of a text

A text is split into lines at a separator, and a line that is too long is cut into pieces.  A
separator at the end of the text begins no line; an empty line is one empty piece.

* `lines`, `pieces` : the lines of a text, and the pieces of a line.
* `lines_append_cons` : the first line, and the lines of the rest.
* `flatten_pieces`, `length_le_of_mem_pieces` : **the pieces make up the line**, and none is too long.
* `forall_head_pieces_iff` : where the pieces begin.
-/

namespace Shiro

variable {α β : Type*}

/-- The lines of a text. -/
def lines [DecidableEq α] (sep : α) (xs : List α) : List (List α) :=
  if (xs.splitOn sep).getLast? = some [] then (xs.splitOn sep).dropLast else xs.splitOn sep

/-- A line in pieces of `n` elements, the last of which may be shorter. -/
def pieces (n : ℕ) (l : List α) : List (List α) :=
  if _h : n = 0 ∨ l.length ≤ n then [l] else l.take n :: pieces n (l.drop n)
termination_by l.length
decreasing_by
  rw [List.length_drop]
  omega

variable {n k : ℕ} {l w rest xs : List α} {sep : α}

/-! ### Lines -/

section Lines

variable [DecidableEq α]

@[simp] theorem lines_nil (sep : α) : lines sep [] = [] := by
  simp [lines, List.splitOn_nil]

/-- A text without a separator is one line. -/
theorem lines_of_notMem (h : sep ∉ w) (hne : w ≠ []) : lines sep w = [w] := by
  rw [lines, List.splitOn_eq_singleton h, if_neg]
  simpa using hne

/-- **The first line** ends at the first separator. -/
theorem lines_append_cons (h : sep ∉ w) (rest : List α) :
    lines sep (w ++ sep :: rest) = w :: lines sep rest := by
  have hsplit : (w ++ sep :: rest).splitOn sep = w :: rest.splitOn sep :=
    List.splitOn_append_cons_self_of_not_mem h rest
  have hne := List.splitOn_ne_nil sep rest
  have hlast : (w :: rest.splitOn sep).getLast? = (rest.splitOn sep).getLast? :=
    List.getLast?_cons_of_ne_nil hne
  rw [lines, hsplit, hlast, lines]
  split
  · exact List.dropLast_cons_of_ne_nil hne
  · rfl

/-- A text begins with a line and a separator, or is a line that is not ended. -/
theorem exists_first_line (sep : α) (xs : List α) :
    sep ∉ xs ∨ ∃ w rest, xs = w ++ sep :: rest ∧ sep ∉ w := by
  by_cases h : sep ∈ xs
  · obtain ⟨w, rest, rfl, hw⟩ := List.eq_append_cons_of_mem h
    exact .inr ⟨w, rest, rfl, hw⟩
  · exact .inl h

/-- An argument about all lines: of the last one, that no separator ends, and of the others. -/
theorem lines_induction {motive : List α → Prop} (sep : α) (hlast : ∀ w, sep ∉ w → motive w)
    (hline : ∀ w rest, sep ∉ w → motive rest → motive (w ++ sep :: rest)) (xs : List α) :
    motive xs := by
  induction hn : xs.length using Nat.strong_induction_on generalizing xs with
  | _ n ih =>
    rcases exists_first_line sep xs with h | ⟨w, rest, rfl, hw⟩
    · exact hlast xs h
    · refine hline w rest hw (ih rest.length ?_ rest rfl)
      rw [List.length_append, List.length_cons] at hn
      omega

/-- The lines hold the text without its separators. -/
theorem flatten_lines (sep : α) (xs : List α) :
    (lines sep xs).flatten = xs.filter (· ≠ sep) := by
  have hkeep : ∀ w : List α, sep ∉ w → w.filter (· ≠ sep) = w := by
    intro w hw
    refine List.filter_eq_self.2 fun x hx => ?_
    have hne : x ≠ sep := fun h => hw (h ▸ hx)
    simpa using hne
  induction xs using lines_induction sep with
  | hlast w hw =>
    rw [hkeep w hw]
    by_cases hne : w = []
    · rw [hne, lines_nil, List.flatten_nil]
    · rw [lines_of_notMem hw hne, List.flatten_singleton]
  | hline w rest hw ih =>
    rw [lines_append_cons hw, List.flatten_cons, ih, List.filter_append, hkeep w hw,
      List.filter_cons_of_neg (by simp)]

end Lines

/-! ### Pieces -/

/-- A short line is one piece. -/
theorem pieces_of_le (h : l.length ≤ n) : pieces n l = [l] := by
  rw [pieces, dif_pos (.inr h)]

/-- **The first piece** of a long line is full. -/
theorem pieces_append (hw : w.length = n) (hn : 0 < n) (hrest : rest ≠ []) :
    pieces n (w ++ rest) = w :: pieces n rest := by
  have hpos := List.length_pos_iff.2 hrest
  have hlong : ¬ (n = 0 ∨ (w ++ rest).length ≤ n) := by
    rw [List.length_append]
    omega
  rw [pieces, dif_neg hlong, List.take_left' hw, List.drop_left' hw]

/-- An argument about all pieces: of a short line, and of a full piece and the rest. -/
theorem pieces_induction {motive : List α → Prop} (hn : 0 < n)
    (hshort : ∀ l, l.length ≤ n → motive l)
    (hlong : ∀ w rest, w.length = n → rest ≠ [] → motive rest → motive (w ++ rest)) (l : List α) :
    motive l := by
  induction hk : l.length using Nat.strong_induction_on generalizing l with
  | _ k ih =>
    by_cases hle : l.length ≤ n
    · exact hshort l hle
    · have hdrop : (l.drop n).length = l.length - n := List.length_drop
      have hrest : l.drop n ≠ [] := List.length_pos_iff.1 (by omega)
      have htake : (l.take n).length = n := List.length_take_of_le (by omega)
      have hl := hlong (l.take n) (l.drop n) htake hrest (ih _ (by omega) _ rfl)
      rwa [List.take_append_drop] at hl

/-- **The pieces make up the line.** -/
theorem flatten_pieces (hn : 0 < n) (l : List α) : (pieces n l).flatten = l := by
  induction l using pieces_induction hn with
  | hshort l h => rw [pieces_of_le h, List.flatten_singleton]
  | hlong w rest hw hrest ih => rw [pieces_append hw hn hrest, List.flatten_cons, ih]

/-- **No piece is too long.** -/
theorem length_le_of_mem_pieces (hn : 0 < n) (l : List α) : ∀ p ∈ pieces n l, p.length ≤ n := by
  induction l using pieces_induction hn with
  | hshort l h =>
    intro p hp
    rw [pieces_of_le h, List.mem_singleton] at hp
    rw [hp]
    exact h
  | hlong w rest hw hrest ih =>
    intro p hp
    rw [pieces_append hw hn hrest, List.mem_cons] at hp
    rcases hp with rfl | hp
    · exact hw.le
    · exact ih p hp

/-- Only an empty line has an empty piece. -/
theorem count_nil_pieces [DecidableEq α] (hn : 0 < n) (l : List α) :
    (pieces n l).count [] = if l = [] then 1 else 0 := by
  induction l using pieces_induction hn with
  | hshort l h =>
    rw [pieces_of_le h, List.count_singleton]
    simp
  | hlong w rest hw hrest ih =>
    have hne : w ≠ [] := List.length_pos_iff.1 (by omega)
    have hne' : w ++ rest ≠ [] := List.append_ne_nil_of_left_ne_nil hne rest
    rw [pieces_append hw hn hrest, List.count_cons, ih, if_neg hrest, if_neg hne']
    simp [hne]

/-- The last piece is empty only if the line is. -/
theorem exists_last_piece (hn : 0 < n) (l : List α) :
    ∃ ps p, pieces n l = ps ++ [p] ∧ (p = [] ↔ l = []) := by
  induction l using pieces_induction hn with
  | hshort l h => exact ⟨[], l, pieces_of_le h, Iff.rfl⟩
  | hlong w rest hw hrest ih =>
    obtain ⟨ps, p, heq, hp⟩ := ih
    refine ⟨w :: ps, p, by rw [pieces_append hw hn hrest, heq, List.cons_append], ?_⟩
    refine iff_of_false (fun h => hrest (hp.1 h)) fun h => hrest ?_
    exact (List.append_eq_nil_iff.1 h).2

/-- **Where the pieces begin**: at the multiples of `n`. -/
theorem forall_head_pieces_iff (hn : 0 < n) (P : α → Prop) (l : List α) :
    (∀ p ∈ pieces n l, ∀ c ∈ p.head?, P c) ↔ ∀ k, ∀ c ∈ l[n * k]?, P c := by
  induction l using pieces_induction hn with
  | hshort l h =>
    rw [pieces_of_le h]
    simp only [List.mem_singleton, forall_eq]
    constructor
    · intro hhead k c hc
      cases k with
      | zero =>
        rw [Nat.mul_zero, ← List.head?_eq_getElem?] at hc
        exact hhead c hc
      | succ k =>
        have hlen : l.length ≤ n * (k + 1) := h.trans (Nat.le_mul_of_pos_right n k.succ_pos)
        rw [List.getElem?_eq_none hlen] at hc
        cases hc
    · intro hall c hc
      rw [List.head?_eq_getElem?] at hc
      exact hall 0 c hc
  | hlong w rest hw hrest ih =>
    rw [pieces_append hw hn hrest]
    simp only [List.mem_cons, forall_eq_or_imp, ih]
    have hhead : (w ++ rest)[n * 0]? = w.head? := by
      have hpos : 0 < w.length := by omega
      rw [Nat.mul_zero, List.getElem?_append_left hpos, List.head?_eq_getElem?]
    have htail : ∀ k, (w ++ rest)[n * (k + 1)]? = rest[n * k]? := by
      intro k
      have hsub : n * (k + 1) - w.length = n * k := by rw [hw, Nat.mul_succ, Nat.add_sub_cancel]
      rw [List.getElem?_append_right (by rw [hw]; exact Nat.le_mul_of_pos_right n k.succ_pos), hsub]
    constructor
    · rintro ⟨hfirst, hothers⟩ k
      cases k with
      | zero => rwa [hhead]
      | succ k =>
        rw [htail]
        exact hothers k
    · intro hall
      refine ⟨?_, fun k => ?_⟩
      · have h0 := hall 0
        rwa [hhead] at h0
      · have hk := hall (k + 1)
        rwa [htail] at hk

/-! ### Lists of lists -/

/-- Two lists of pieces, one shorter line by line, are the same only if they are line by line. -/
theorem eq_of_flatMap_eq {f g : α → List β} {ls : List α}
    (hle : ∀ l ∈ ls, (f l).length ≤ (g l).length) (h : ls.flatMap f = ls.flatMap g) :
    ∀ l ∈ ls, f l = g l := by
  induction ls with
  | nil =>
    intro l hl
    cases hl
  | cons x ls ih =>
    rw [List.flatMap_cons, List.flatMap_cons] at h
    have hrest : ∀ l ∈ ls, (f l).length ≤ (g l).length := fun l hl => hle l (.tail _ hl)
    have hsum : ∀ ls : List α, (∀ l ∈ ls, (f l).length ≤ (g l).length) →
        (ls.flatMap f).length ≤ (ls.flatMap g).length := by
      intro ls
      induction ls with
      | nil =>
        intro _
        exact le_rfl
      | cons y ls ih =>
        intro hle
        rw [List.flatMap_cons, List.flatMap_cons, List.length_append, List.length_append]
        exact Nat.add_le_add (hle y (.head _)) (ih fun l hl => hle l (.tail _ hl))
    have hlen := congrArg List.length h
    rw [List.length_append, List.length_append] at hlen
    have hx : (f x).length = (g x).length := by
      have h1 := hle x (.head _)
      have h2 := hsum ls hrest
      omega
    obtain ⟨hfg, htail⟩ := List.append_inj h hx
    intro l hl
    rcases List.mem_cons.1 hl with rfl | hl
    · exact hfg
    · exact ih hrest htail l hl

end Shiro
