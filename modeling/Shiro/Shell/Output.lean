import Shiro.Shell.Peek

/-!
# The lines of the commands

The commands build their lines in buffers of fixed size, with `AppendStr`, `IntToStr`, `HexToStr`
and loops that pad with blanks, and pass them to `Print` or to the functions that draw a box.

* `Piece`, `Out` : what a line is built of, and what is printed.
* `Out.Prints` : the strings that `Print` may be passed, when the buffers held anything before.
* `Out.text`, `Out.whole` : the string it is passed, and the one that is meant.
* `Out.Ok.sound` : **nothing that was in the buffers is printed**, and no store leaves them.
* `ok_of_uncut` : **what there is room for is not cut.**
-/

namespace Shiro

open Stores

/-! ### The code -/

/-- A statement that continues the string in `buf`, whose length is `j`. -/
inductive Piece where
  /-- `j = AppendStr(buf, j, cap, s);` -/
  | str (s : List UInt8)
  /-- `j += IntToStr(v, buf + j, cap - j);` -/
  | dec (v : UInt32)
  /-- `j += HexToStr(v, buf + j, cap - j);` -/
  | hex (v : UInt32)
  /-- `while (j < col && j < cap - 1) buf[j++] = ' ';` -/
  | pad (col : ℕ)
  /-- `buf[j++] = …;` for each of these bytes. -/
  | raw (s : List UInt8)
  /-- `j = AppendStr(buf, j, cap, s); j -= 1;` -/
  | strBack (s : List UInt8)
  /-- `buf[j] = '\0';` -/
  | nul
  deriving DecidableEq

namespace Piece

/-- `j = AppendStr(buf, j, cap, "…");` -/
def lit (s : String) : Piece := .str (text s)

/-- The statement, in a buffer of `cap` bytes. -/
def store (cap j : ℕ) : Piece → Stores ℕ
  | str s => Commands.appendStr j cap s
  | dec v => do return j + (← (Commands.intToStr v.toNat (cap - j)).offset j)
  | hex v => do return j + (← (Commands.hexToStr v.toNat (cap - j)).offset j)
  | pad col => putsBelow (min col (cap - 1) : ℕ) (List.replicate (col - j) 32) j
  | raw s => puts j s
  | strBack s => do return (← Commands.appendStr j cap s) - 1
  | nul => do
    put j 0
    return j

/-- The statement ends the string with a NUL. -/
def Ends : Piece → Prop
  | str _ | dec _ | hex _ | nul => True
  | pad _ | raw _ | strBack _ => False

instance (p : Piece) : Decidable p.Ends := by
  cases p <;> unfold Ends <;> infer_instance

end Piece

namespace Commands

/-- The statements of a line, from `j = 0` on. -/
def build (cap : ℕ) (ps : List Piece) : Stores ℕ := ps.foldlM (fun j p => p.store cap j) 0

/-- `BOX_WIDTH` -/
def boxWidth : ℕ := 78

/-- `sizeof(buf)`, in the functions that draw a box. -/
def boxCap : ℕ := 82

/-- `BoxTop(title)`, up to `Print`. -/
def boxTop (title : List UInt8) : Stores ℕ := do
  let j ← puts 0 [0xDA, 0xC4, 32]
  let j ← putsBelow (boxWidth - 2 : ℕ) (cstr title) j
  let j ← puts j [32]
  let j ← putsBelow (boxWidth - 1 : ℕ) (List.replicate (boxWidth - 1 - j) 0xC4) j
  let j ← puts j [0xBF]
  put j 0
  return j

/-- `BoxLine(content)`, up to `Print`. -/
def boxLine (content : List UInt8) : Stores ℕ := do
  let j ← puts 0 [0xB3, 32, 32]
  let j ← putsBelow (boxWidth - 1 : ℕ) (cstr content) j
  let j ← putsBelow (boxWidth - 1 : ℕ) (List.replicate (boxWidth - 1 - j) 32) j
  let j ← puts j [0xB3]
  put j 0
  return j

/-- `BoxBottom()`, up to `Print`. -/
def boxBottom : Stores ℕ := do
  let j ← puts 0 [0xC0]
  let j ← putsBelow (boxWidth - 1 : ℕ) (List.replicate (boxWidth - 1 - j) 0xC4) j
  let j ← puts j [0xD9]
  put j 0
  return j

end Commands

open Commands

/-- What a command prints. -/
inductive Out where
  /-- `Print(s);` -/
  | str (s : List UInt8)
  /-- `Print(buf);` behind these statements. -/
  | line (cap : ℕ) (ps : List Piece)
  /-- `BoxTop(title);` -/
  | top (title : List UInt8)
  /-- `BoxLine(s);` -/
  | boxed (s : List UInt8)
  /-- `BoxLine(buf);` behind these statements. -/
  | box (cap : ℕ) (ps : List Piece)
  /-- `BoxBottom();` -/
  | bottom
  deriving DecidableEq

/-- The string in a buffer of `cap` bytes behind these stores may be `s`: they do not say what was
in the buffer before. -/
def MayHold (cap : ℕ) (c : Stores ℕ) (s : List UInt8) : Prop :=
  ∃ buf : List UInt8, buf.length = cap ∧ s = cstr (c.fill buf)

/-- `Print` may be passed the string `s`. -/
def Out.Prints : Out → List UInt8 → Prop
  | .str t, s => s = cstr t
  | .line cap ps, s => MayHold cap (build cap ps) s
  | .top title, s => MayHold boxCap (boxTop title) s
  | .boxed t, s => MayHold boxCap (boxLine t) s
  | .box cap ps, s => ∃ t, MayHold cap (build cap ps) t ∧ MayHold boxCap (boxLine t) s
  | .bottom, s => MayHold boxCap boxBottom s

/-- The stores stay in their buffers, whatever `BoxLine` is passed. -/
def Out.Fits : Out → Prop
  | .str _ => True
  | .line cap ps => (build cap ps).Within cap
  | .top title => (boxTop title).Within boxCap
  | .boxed t => (boxLine t).Within boxCap
  | .box cap ps => (build cap ps).Within cap ∧ ∀ t, (boxLine t).Within boxCap
  | .bottom => boxBottom.Within boxCap

/-! ### What is printed -/

/-- The string behind `t`, in a buffer of `cap` bytes. -/
def Piece.text (cap : ℕ) (t : List UInt8) : Piece → List UInt8
  | str s => appendStr t cap s
  | dec v => t ++ intToStr v.toNat (cap - t.length)
  | hex v => t ++ hexToStr v.toNat (cap - t.length)
  | pad col => t ++ List.replicate (min col (cap - 1) - t.length) 32
  | raw s => t ++ s
  | strBack s => (appendStr t cap s).dropLast
  | nul => t

/-- The string of a line. -/
def lineText (cap : ℕ) (ps : List Piece) : List UInt8 := ps.foldl (fun t p => p.text cap t) []

/-- A line of a box: the content, as far as there is room, and blanks up to the border. -/
def boxText (content : List UInt8) : List UInt8 :=
  [0xB3, 32, 32] ++ (cstr content).take 74 ++
    List.replicate (74 - (cstr content).length) 32 ++ [0xB3]

/-- The upper border of a box. -/
def topText (title : List UInt8) : List UInt8 :=
  [0xDA, 0xC4, 32] ++ (cstr title).take 73 ++ [32] ++
    List.replicate (73 - (cstr title).length) 0xC4 ++ [0xBF]

/-- The lower border of a box. -/
def bottomText : List UInt8 := 0xC0 :: List.replicate 76 0xC4 ++ [0xD9]

/-- The string that `Print` is passed. -/
def Out.text : Out → List UInt8
  | .str s => cstr s
  | .line cap ps => cstr (lineText cap ps)
  | .top title => topText title
  | .boxed s => boxText s
  | .box cap ps => boxText (lineText cap ps)
  | .bottom => bottomText

/-- Bytes that are stored directly have room behind `t`, and a byte that is taken back is there. -/
def Piece.Room (cap : ℕ) (t : List UInt8) : Piece → Prop
  | raw s => t.length + s.length < cap
  | strBack s => t.length + 1 < cap ∧ cstr s ≠ []
  | _ => True

/-- So it is with all pieces of a line. -/
def Roomy (cap : ℕ) : List UInt8 → List Piece → Prop
  | _, [] => True
  | t, p :: ps => p.Room cap t ∧ Roomy cap (p.text cap t) ps

/-- The statements make a line: they have room, and a NUL is at the end. -/
structure IsLine (cap : ℕ) (ps : List Piece) : Prop where
  pos : 0 < cap
  le : cap ≤ 80
  ends : ∃ p ∈ ps.getLast?, p.Ends
  roomy : Roomy cap [] ps

/-- No store leaves the buffers, nothing that was in them is printed, and the string is not too
long. -/
structure Out.Sound (o : Out) : Prop where
  fits : o.Fits
  prints : ∀ s, o.Prints s ↔ s = o.text
  short : o.text.length ≤ 79

/-- What is printed is built of lines, and no literal is too long. -/
def Out.Ok : Out → Prop
  | .str s => s.length ≤ 79
  | .line cap ps | .box cap ps => IsLine cap ps
  | _ => True

/-! ### What is meant -/

namespace Piece

/-- The string behind `t`, if the buffer had no end. -/
def whole (t : List UInt8) : Piece → List UInt8
  | str s => t ++ cstr s
  | dec v => t ++ numeral 10 v.toNat
  | hex v => t ++ (Shiro.text "0x" ++ numeral 16 v.toNat)
  | pad col => t ++ List.replicate (col - t.length) 32
  | raw s => t ++ s
  | strBack s => t ++ (cstr s).dropLast
  | nul => t

/-- How long a decimal numeral can be. -/
def digits (v : UInt32) : ℕ := if v < 10 then 1 else 10

/-- How long the string can become, behind `n` bytes. -/
def width (n : ℕ) : Piece → ℕ
  | str s | strBack s | raw s => n + s.length
  | dec v => n + digits v
  | hex _ => n + 10
  | pad col => max n col
  | nul => n

/-- The same, whatever the numbers are. -/
def bound (n : ℕ) : Piece → ℕ
  | dec _ => n + 10
  | p => p.width n

/-- No byte is a NUL, and a byte that is taken back is there. -/
def Clean : Piece → Prop
  | raw s => 0 ∉ s
  | strBack s => cstr s ≠ []
  | _ => True

end Piece

/-- The string of a line, if the buffer had no end. -/
def lineWhole (ps : List Piece) : List UInt8 := ps.foldl Piece.whole []

/-- How long a line can become. -/
def lineWidth (ps : List Piece) : ℕ := ps.foldl Piece.width 0

/-- The same, whatever the numbers are. -/
def lineBound (ps : List Piece) : ℕ := ps.foldl Piece.bound 0

/-- The buffer has room for the whole line. -/
structure Uncut (cap : ℕ) (ps : List Piece) : Prop where
  le : cap ≤ 80
  ends : ∃ p ∈ ps.getLast?, p.Ends
  clean : ∀ p ∈ ps, p.Clean
  width : lineWidth ps < cap

/-- A line of a box around `content`. -/
def boxOf (content : List UInt8) : List UInt8 :=
  [0xB3, 32, 32] ++ content ++ List.replicate (74 - content.length) 32 ++ [0xB3]

/-- An upper border of a box around `title`. -/
def topOf (title : List UInt8) : List UInt8 :=
  [0xDA, 0xC4, 32] ++ title ++ [32] ++ List.replicate (73 - title.length) 0xC4 ++ [0xBF]

/-- What is meant to be printed. -/
def Out.whole : Out → List UInt8
  | .str s => cstr s
  | .line _ ps => lineWhole ps
  | .top title => topOf (cstr title)
  | .boxed s => boxOf (cstr s)
  | .box _ ps => boxOf (lineWhole ps)
  | .bottom => bottomText

/-- There is room for all of it. -/
def Out.Uncut : Out → Prop
  | .str s => s.length ≤ 79
  | .line cap ps => Shiro.Uncut cap ps
  | .top title => title.length ≤ 73
  | .boxed s => s.length ≤ 74
  | .box cap ps => Shiro.Uncut cap ps ∧ lineWidth ps ≤ 74
  | .bottom => True

/-- There is room for all of it, whatever the numbers are. -/
def Out.Sized : Out → Prop
  | .str s => s.length ≤ 79
  | .line cap ps => cap ≤ 80 ∧ (∃ p ∈ ps.getLast?, p.Ends) ∧ (∀ p ∈ ps, p.Clean) ∧
      lineBound ps < cap
  | .top title => title.length ≤ 73
  | .boxed s => s.length ≤ 74
  | .box cap ps => cap ≤ 80 ∧ (∃ p ∈ ps.getLast?, p.Ends) ∧ (∀ p ∈ ps, p.Clean) ∧
      lineBound ps < cap ∧ lineBound ps ≤ 74
  | .bottom => True

variable {cap n : ℕ} {s t : List UInt8} {p : Piece} {ps : List Piece} {o : Out}

/-! ### Pieces -/

/-- A string that is appended. -/
theorem closes_appendStr (s : List UInt8) (h : t.length < cap) :
    (Commands.appendStr t.length cap s).Closes cap t (appendStr t cap s) := by
  have hcap : (cap : ℤ) - 1 = (cap - 1 : ℕ) := by omega
  unfold Commands.appendStr appendStr
  rw [hcap]
  have hextends := extends_putsBelow (cap - 1) (cstr s) (show t.length ≤ cap - 1 by omega)
    (show cap - 1 ≤ cap by omega)
  refine hextends.closes (closes_nul ?_)
  rw [List.length_append, List.length_take]
  omega

/-- **A piece continues the string in the buffer**, and stays inside. -/
theorem Piece.extends (p : Piece) (h : t.length < cap) (hroom : p.Room cap t) :
    (p.store cap t.length).Extends cap t (p.text cap t) ∧
      (p.Ends → (p.store cap t.length).Closes cap t (p.text cap t)) ∧
      (p.text cap t).length < cap := by
  have hpos : (0 : ℤ) < cap - t.length := by omega
  have hroom' : ((cap : ℤ) - t.length).toNat = cap - t.length := by omega
  cases p with
  | str s =>
    have hcloses := closes_appendStr s h
    refine ⟨hcloses.toExtends, fun _ => hcloses, ?_⟩
    rw [text, appendStr, List.length_append, List.length_take]
    omega
  | dec v =>
    have hwrites := writes_intToStr v.toNat hpos
    rw [hroom'] at hwrites
    have hlen := length_intToStr_lt v.toNat (show 0 < cap - t.length by omega)
    have hcloses := hwrites.closes (t := t)
      (show t.length + (intToStr v.toNat (cap - t.length)).length < cap by omega)
    refine ⟨hcloses.toExtends, fun _ => hcloses, ?_⟩
    rw [text, List.length_append]
    omega
  | hex v =>
    have hwrites := writes_hexToStr v.toNat hpos
    rw [hroom'] at hwrites
    have hlen := length_hexToStr_lt v.toNat (show 0 < cap - t.length by omega)
    have hcloses := hwrites.closes (t := t)
      (show t.length + (hexToStr v.toNat (cap - t.length)).length < cap by omega)
    refine ⟨hcloses.toExtends, fun _ => hcloses, ?_⟩
    rw [text, List.length_append]
    omega
  | pad col =>
    refine ⟨?_, fun hends => hends.elim, ?_⟩
    · rcases Nat.lt_or_ge t.length col with hcol | hcol
      · have hpad := extends_putsBelow (min col (cap - 1)) (List.replicate (col - t.length) 32)
          (show t.length ≤ min col (cap - 1) by omega) (show min col (cap - 1) ≤ cap by omega)
        have hmin : min (min col (cap - 1) - t.length) (col - t.length) =
            min col (cap - 1) - t.length := by omega
        rwa [List.take_replicate, hmin] at hpad
      · -- there is nothing to pad
        have hcode : min col (cap - 1) - t.length = 0 := by omega
        rw [text, store, Nat.sub_eq_zero_of_le hcol, hcode, List.replicate_zero, List.append_nil]
        exact .refl t
    · rw [text, List.length_append, List.length_replicate]
      omega
  | raw s =>
    have hlen : t.length + s.length < cap := hroom
    refine ⟨extends_puts s hlen.le, fun hends => hends.elim, ?_⟩
    rwa [text, List.length_append]
  | strBack s =>
    have hcloses := closes_appendStr s h
    have hlen := hcloses.value
    refine ⟨⟨?_, within_bind.2 ⟨hcloses.within, within_pure _⟩, fun buf hbuf ht => ?_⟩,
      fun hends => hends.elim, ?_⟩
    · rw [store, value_bind, hlen, text, List.length_dropLast]
      rfl
    · rw [store, fill_bind]
      exact (List.dropLast_prefix _).trans (hcloses.holds buf hbuf ht)
    · rw [text, List.length_dropLast, appendStr, List.length_append, List.length_take]
      omega
  | nul => exact ⟨(closes_nul h).toExtends, fun _ => closes_nul h, h⟩

/-! ### Lines -/

/-- **A line is built from left to right.** -/
theorem extends_pieces (h : t.length < cap) (hroomy : Roomy cap t ps) :
    (ps.foldlM (fun j (p : Piece) => p.store cap j) t.length).Extends cap t
        (ps.foldl (fun t p => p.text cap t) t) ∧
      ((∃ p ∈ ps.getLast?, p.Ends) →
        (ps.foldlM (fun j (p : Piece) => p.store cap j) t.length).Closes cap t
          (ps.foldl (fun t p => p.text cap t) t)) ∧
      (ps.foldl (fun t p => p.text cap t) t).length < cap := by
  induction ps generalizing t with
  | nil => exact ⟨.refl t, fun ⟨p, hp, _⟩ => absurd hp (by simp), h⟩
  | cons p ps ih =>
    obtain ⟨hfirst, hclosed, hlen⟩ := p.extends h hroomy.1
    obtain ⟨hrest, hends, hlen'⟩ := ih hlen hroomy.2
    rw [List.foldlM_cons, List.foldl_cons]
    refine ⟨hfirst.bind hrest, fun ⟨q, hq, hqends⟩ => ?_, hlen'⟩
    cases ps with
    | nil =>
      -- the last piece ends the string itself
      obtain rfl : p = q := by simpa using hq
      have hlast := hclosed hqends
      refine ⟨hfirst.bind hrest, fun buf hbuf ht => ?_⟩
      rw [fill_bind]
      exact hlast.nul buf hbuf ht
    | cons p' ps =>
      exact hfirst.closes (hends ⟨q, by simpa using hq, hqends⟩)

theorem closes_build (h : IsLine cap ps) : (build cap ps).Closes cap [] (lineText cap ps) :=
  (extends_pieces h.pos h.roomy).2.1 h.ends

theorem length_lineText_lt (h : IsLine cap ps) : (lineText cap ps).length < cap :=
  (extends_pieces h.pos h.roomy).2.2

/-! ### Boxes -/

theorem length_boxText (s : List UInt8) : (boxText s).length = 78 := by
  simp only [boxText, List.length_append, List.length_cons, List.length_nil, List.length_take,
    List.length_replicate]
  omega

theorem length_topText (s : List UInt8) : (topText s).length = 78 := by
  simp only [topText, List.length_append, List.length_cons, List.length_nil, List.length_take,
    List.length_replicate]
  omega

theorem zero_notMem_boxText (s : List UInt8) : 0 ∉ boxText s := by
  have htake : 0 ∉ (cstr s).take 74 := fun h => zero_notMem_cstr s (List.mem_of_mem_take h)
  simp [boxText, htake]

theorem zero_notMem_topText (s : List UInt8) : 0 ∉ topText s := by
  have htake : 0 ∉ (cstr s).take 73 := fun h => zero_notMem_cstr s (List.mem_of_mem_take h)
  simp [topText, htake]

/-- The loop that fills up to the border leaves `j` on it. -/
theorem extends_replicate (b : UInt8) (h : t.length ≤ 77) :
    (putsBelow (boxWidth - 1 : ℕ) (List.replicate (boxWidth - 1 - t.length) b) t.length).Extends
      boxCap t (t ++ List.replicate (77 - t.length) b) := by
  have hfill := extends_putsBelow 77 (List.replicate (boxWidth - 1 - t.length) b) h
    (show 77 ≤ boxCap by decide)
  rwa [List.take_replicate, show boxWidth - 1 - t.length = 77 - t.length from rfl, min_self]
    at hfill

/-- What all boxes end with. -/
theorem closes_border (b e : UInt8) (h : t.length ≤ 77) : (do
    let j ← putsBelow (boxWidth - 1 : ℕ) (List.replicate (boxWidth - 1 - t.length) b) t.length
    let j ← puts j [e]
    put j 0
    return j : Stores ℕ).Closes boxCap t (t ++ List.replicate (77 - t.length) b ++ [e]) := by
  have hlen : (t ++ List.replicate (77 - t.length) b).length = 77 := by
    rw [List.length_append, List.length_replicate]
    omega
  refine (extends_replicate b h).closes ((extends_puts _ ?_).closes (closes_nul ?_))
  · rw [hlen]
    exact (by decide : 78 ≤ boxCap)
  · rw [List.length_append, hlen]
    exact (by decide : 78 < boxCap)

theorem closes_boxLine (s : List UInt8) : (boxLine s).Closes boxCap [] (boxText s) := by
  have hlen : ([0xB3, 32, 32] ++ (cstr s).take 74).length = 3 + min 74 (cstr s).length := by
    rw [List.length_append, List.length_take]
    rfl
  have hrest : 77 - (3 + min 74 (cstr s).length) = 74 - (cstr s).length := by omega
  have hborder := closes_border (t := [0xB3, 32, 32] ++ (cstr s).take 74) 32 0xB3 (by omega)
  rw [hlen, hrest, ← hlen] at hborder
  exact (extends_puts (t := []) [0xB3, 32, 32] (by decide)).closes
    ((extends_putsBelow (t := [0xB3, 32, 32]) 77 (cstr s) (by decide) (by decide)).closes hborder)

theorem closes_boxTop (s : List UInt8) : (boxTop s).Closes boxCap [] (topText s) := by
  have hlen : ([0xDA, 0xC4, 32] ++ (cstr s).take 73).length = 3 + min 73 (cstr s).length := by
    rw [List.length_append, List.length_take]
    rfl
  have hlen' : ([0xDA, 0xC4, 32] ++ (cstr s).take 73 ++ [32]).length =
      4 + min 73 (cstr s).length := by
    rw [List.length_append, hlen]
    exact Nat.add_right_comm 3 _ 1
  have hrest : 77 - (4 + min 73 (cstr s).length) = 73 - (cstr s).length := by omega
  have hborder :=
    closes_border (t := [0xDA, 0xC4, 32] ++ (cstr s).take 73 ++ [32]) 0xC4 0xBF (by omega)
  rw [hlen', hrest, ← hlen'] at hborder
  refine (extends_puts (t := []) [0xDA, 0xC4, 32] (by decide)).closes
    ((extends_putsBelow (t := [0xDA, 0xC4, 32]) 76 (cstr s) (by decide) (by decide)).closes
      ((extends_puts [32] ?_).closes hborder))
  change ([0xDA, 0xC4, 32] ++ (cstr s).take 73).length + 1 ≤ 82
  omega

theorem closes_boxBottom : boxBottom.Closes boxCap [] bottomText :=
  (extends_puts (t := []) [0xC0] (by decide)).closes
    (closes_border (t := [0xC0]) 0xC4 0xD9 (by decide))

/-! ### What is printed -/

theorem mayHold_iff {c : Stores ℕ} (h : c.Closes cap [] t) : MayHold cap c s ↔ s = cstr t := by
  constructor
  · rintro ⟨buf, hbuf, rfl⟩
    exact h.cstr hbuf
  · rintro rfl
    have hbuf : (List.replicate cap (0 : UInt8)).length = cap := List.length_replicate
    exact ⟨_, hbuf, (h.cstr hbuf).symm⟩

theorem boxText_cstr (s : List UInt8) : boxText (cstr s) = boxText s := by
  have hcstr : cstr (cstr s) = cstr s := cstr_eq_self (zero_notMem_cstr s)
  rw [boxText, hcstr, boxText]

/-- **Nothing that was in the buffers is printed**: the string is the one that the statements of the
line say. -/
theorem prints_iff (h : o.Ok) : o.Prints s ↔ s = o.text := by
  have hboxLine (t : List UInt8) : MayHold boxCap (boxLine t) s ↔ s = boxText t := by
    rw [mayHold_iff (closes_boxLine t), cstr_eq_self (zero_notMem_boxText t)]
  cases o with
  | str t => exact Iff.rfl
  | line cap ps => exact mayHold_iff (closes_build h)
  | top title =>
    have htop := mayHold_iff (s := s) (closes_boxTop title)
    rwa [cstr_eq_self (zero_notMem_topText title)] at htop
  | boxed t => exact hboxLine t
  | box cap ps =>
    have hline (t : List UInt8) : MayHold cap (build cap ps) t ↔ t = cstr (lineText cap ps) :=
      mayHold_iff (closes_build h)
    simp only [Out.Prints, Out.text, hline, hboxLine, exists_eq_left, boxText_cstr]
  | bottom => exact mayHold_iff closes_boxBottom

/-- No store leaves the buffers. -/
theorem fits_of_ok (h : o.Ok) : o.Fits := by
  cases o with
  | str t => trivial
  | line cap ps => exact (closes_build h).within
  | top title => exact (closes_boxTop title).within
  | boxed t => exact (closes_boxLine t).within
  | box cap ps => exact ⟨(closes_build h).within, fun t => (closes_boxLine t).within⟩
  | bottom => exact closes_boxBottom.within

theorem length_cstr_le (s : List UInt8) : (cstr s).length ≤ s.length :=
  (List.takeWhile_prefix _).length_le

/-- No string is longer than 79 bytes. -/
theorem length_text_le (h : o.Ok) : o.text.length ≤ 79 := by
  cases o with
  | str t => exact (length_cstr_le t).trans h
  | line cap ps =>
    have hlen := length_lineText_lt h
    have hcap := h.le
    have hcstr := length_cstr_le (lineText cap ps)
    rw [Out.text]
    omega
  | top title => exact (length_topText title).trans_le (by decide)
  | boxed t => exact (length_boxText t).trans_le (by decide)
  | box cap ps => exact (length_boxText _).trans_le (by decide)
  | bottom => exact (by decide : bottomText.length ≤ 79)

theorem Out.Ok.sound (h : o.Ok) : o.Sound :=
  ⟨fits_of_ok h, fun _ => prints_iff h, length_text_le h⟩

/-! ### What is meant -/

attribute [simp] Piece.Ends Piece.Clean Piece.width Piece.bound Piece.lit

@[simp] theorem length_text (s : String) : (text s).length = s.length := by
  rw [text, List.length_map, String.length_toList]

theorem Piece.digits_le (v : UInt32) : digits v ≤ 10 := by
  unfold digits
  split <;> decide

theorem Piece.length_numeral_le (v : UInt32) : (numeral 10 v.toNat).length ≤ digits v := by
  unfold digits
  split
  · rename_i h
    exact (length_numeral_le_iff (by decide) (by decide)).2 h
  · exact (length_numeral_le_iff (by decide) (by decide)).2 (v.toNat_lt.trans (by decide))

theorem Piece.width_le_bound {m : ℕ} (h : n ≤ m) (p : Piece) : p.width n ≤ p.bound m := by
  cases p with
  | dec v => exact Nat.add_le_add h (digits_le v)
  | pad col => exact max_le_max h le_rfl
  | nul => exact h
  | _ => exact Nat.add_le_add h le_rfl

theorem lineWidth_le_lineBound (ps : List Piece) : lineWidth ps ≤ lineBound ps := by
  have hfold (n m : ℕ) (h : n ≤ m) : ps.foldl Piece.width n ≤ ps.foldl Piece.bound m := by
    induction ps generalizing n m with
    | nil => exact h
    | cons p ps ih => exact ih _ _ (p.width_le_bound h)
  exact hfold 0 0 le_rfl

/-- **It is enough that there is room whatever the numbers are.** -/
theorem uncut_of_sized (h : o.Sized) : o.Uncut := by
  cases o with
  | line cap ps =>
    obtain ⟨hcap, hends, hclean, hbound⟩ := h
    exact ⟨hcap, hends, hclean, (lineWidth_le_lineBound ps).trans_lt hbound⟩
  | box cap ps =>
    obtain ⟨hcap, hends, hclean, hlt, hle⟩ := h
    have hwidth := lineWidth_le_lineBound ps
    exact ⟨⟨hcap, hends, hclean, hwidth.trans_lt hlt⟩, hwidth.trans hle⟩
  | str s => exact h
  | top title => exact h
  | boxed s => exact h
  | bottom => trivial

theorem Piece.le_width (n : ℕ) (p : Piece) : n ≤ p.width n := by
  cases p <;> simp only [width] <;> omega

theorem le_foldl_width (n : ℕ) (ps : List Piece) : n ≤ ps.foldl Piece.width n := by
  induction ps generalizing n with
  | nil => exact le_rfl
  | cons p ps ih => exact (p.le_width n).trans (ih _)

theorem zero_notMem_appendStr (h0 : 0 ∉ t) (cap : ℕ) (s : List UInt8) :
    0 ∉ appendStr t cap s := by
  rw [appendStr, List.mem_append, not_or]
  exact ⟨h0, fun hs => zero_notMem_cstr s (List.mem_of_mem_take hs)⟩

theorem zero_notMem_intToStr (v : UInt32) (cap : ℕ) : 0 ∉ intToStr v.toNat cap := by
  rw [intToStr_eq v.toNat_lt]
  exact fun h => zero_notMem_numeral (by decide) (by decide) _ (List.mem_of_mem_take h)

theorem zero_notMem_hexToStr (v : UInt32) (cap : ℕ) : 0 ∉ hexToStr v.toNat cap := by
  by_cases hcap : 4 ≤ cap
  · rw [hexToStr_eq v.toNat_lt hcap, List.mem_append, not_or]
    exact ⟨by decide,
      fun h => zero_notMem_numeral (by decide) (by decide) _ (List.mem_of_mem_take h)⟩
  · rw [hexToStr, if_pos (Nat.lt_of_not_le hcap)]
    exact List.not_mem_nil

/-- No byte of the string is a NUL. -/
theorem Piece.zero_notMem (h0 : 0 ∉ t) (cap : ℕ) (hclean : p.Clean) : 0 ∉ p.text cap t := by
  cases p with
  | str s => exact zero_notMem_appendStr h0 cap s
  | strBack s =>
    exact fun hm => zero_notMem_appendStr h0 cap s (List.dropLast_subset _ hm)
  | nul => exact h0
  | dec v =>
    rw [text, List.mem_append, not_or]
    exact ⟨h0, zero_notMem_intToStr v _⟩
  | hex v =>
    rw [text, List.mem_append, not_or]
    exact ⟨h0, zero_notMem_hexToStr v _⟩
  | pad col =>
    rw [text, List.mem_append, not_or, List.mem_replicate]
    exact ⟨h0, by simp⟩
  | raw s =>
    rw [text, List.mem_append, not_or]
    exact ⟨h0, hclean⟩

theorem zero_notMem_lineText (cap : ℕ) (hclean : ∀ p ∈ ps, p.Clean) : 0 ∉ lineText cap ps := by
  have hfold (t : List UInt8) (h0 : 0 ∉ t) : 0 ∉ ps.foldl (fun t p => p.text cap t) t := by
    induction ps generalizing t with
    | nil => exact h0
    | cons p ps ih =>
      obtain ⟨hp, hps⟩ := List.forall_mem_cons.1 hclean
      exact ih hps _ (Piece.zero_notMem h0 cap hp)
  exact hfold [] List.not_mem_nil

/-- **A piece for which there is room** is not cut. -/
theorem Piece.whole_eq (hn : t.length ≤ n) (hwidth : p.width n < cap) (hclean : p.Clean) :
    p.Room cap t ∧ p.text cap t = p.whole t ∧ (p.whole t).length ≤ p.width n := by
  cases p with
  | str s =>
    change n + s.length < cap at hwidth
    have hcstr := length_cstr_le s
    refine ⟨trivial, ?_, ?_⟩
    · rw [text, appendStr, List.take_of_length_le (by omega), whole]
    · rw [whole, List.length_append, width]
      omega
  | dec v =>
    change n + digits v < cap at hwidth
    have hlen := length_numeral_le v
    refine ⟨trivial, ?_, ?_⟩
    · rw [text, intToStr_eq v.toNat_lt, List.take_of_length_le (by omega), whole]
    · rw [whole, List.length_append, width]
      omega
  | hex v =>
    change n + 10 < cap at hwidth
    have hlen : (numeral 16 v.toNat).length ≤ 8 :=
      (length_numeral_le_iff (by decide) (by decide)).2 (v.toNat_lt.trans_eq (by decide))
    have hprefixed : (Shiro.text "0x").length = 2 := by decide
    refine ⟨trivial, ?_, ?_⟩
    · rw [text, hexToStr_eq v.toNat_lt (by omega), List.take_of_length_le (by omega), whole]
    · rw [whole, List.length_append, List.length_append, width]
      omega
  | pad col =>
    change max n col < cap at hwidth
    refine ⟨trivial, ?_, ?_⟩
    · rw [text, whole, show min col (cap - 1) = col by omega]
    · rw [whole, List.length_append, List.length_replicate, width]
      omega
  | raw s =>
    change n + s.length < cap at hwidth
    refine ⟨show t.length + s.length < cap by omega, rfl, ?_⟩
    rw [whole, List.length_append, width]
    omega
  | strBack s =>
    change n + s.length < cap at hwidth
    have hcstr := length_cstr_le s
    have hne : cstr s ≠ [] := hclean
    have hpos := List.length_pos_iff.2 hne
    refine ⟨⟨by omega, hne⟩, ?_, ?_⟩
    · rw [text, appendStr, List.take_of_length_le (by omega), whole,
        List.dropLast_append_of_ne_nil hne]
    · rw [whole, List.length_append, List.length_dropLast, width]
      omega
  | nul => exact ⟨trivial, rfl, hn⟩

theorem pieces_whole (hn : t.length ≤ n) (hwidth : ps.foldl Piece.width n < cap)
    (hclean : ∀ p ∈ ps, p.Clean) :
    Roomy cap t ps ∧ ps.foldl (fun t p => p.text cap t) t = ps.foldl Piece.whole t ∧
      (ps.foldl Piece.whole t).length ≤ ps.foldl Piece.width n := by
  induction ps generalizing t n with
  | nil => exact ⟨trivial, rfl, hn⟩
  | cons p ps ih =>
    obtain ⟨hp, hps⟩ := List.forall_mem_cons.1 hclean
    obtain ⟨hroom, htext, hlen⟩ := Piece.whole_eq hn ((le_foldl_width _ ps).trans_lt hwidth) hp
    obtain ⟨hroomy, hfold, hle⟩ := ih hlen hwidth hps
    rw [List.foldl_cons, List.foldl_cons, Roomy, htext]
    exact ⟨⟨hroom, hroomy⟩, hfold, hle⟩

/-- **A line for which there is room** is not cut. -/
theorem Uncut.line (h : Uncut cap ps) : IsLine cap ps ∧ lineText cap ps = lineWhole ps ∧
    (lineWhole ps).length ≤ lineWidth ps ∧ 0 ∉ lineWhole ps := by
  obtain ⟨hroomy, htext, hlen⟩ := pieces_whole (t := []) (n := 0) le_rfl h.width h.clean
  have hzero : 0 ∉ lineText cap ps := zero_notMem_lineText cap h.clean
  refine ⟨⟨(Nat.zero_le _).trans_lt h.width, h.le, h.ends, hroomy⟩, htext, hlen, ?_⟩
  rwa [lineText, htext] at hzero

/-- A line that is not too long fits into a box. -/
theorem boxText_eq (h0 : 0 ∉ s) (h : s.length ≤ 74) : boxText s = boxOf s := by
  rw [boxText, cstr_eq_self h0, List.take_of_length_le h, boxOf]

/-- **What there is room for is printed as it is meant.** -/
theorem ok_of_uncut (h : o.Uncut) : o.Ok ∧ o.text = o.whole := by
  cases o with
  | str s => exact ⟨h, rfl⟩
  | line cap ps =>
    obtain ⟨hline, htext, -, hzero⟩ := Uncut.line h
    refine ⟨hline, ?_⟩
    rw [Out.text, htext, cstr_eq_self hzero, Out.whole]
  | top title =>
    refine ⟨trivial, ?_⟩
    rw [Out.text, topText, List.take_of_length_le ((length_cstr_le title).trans h), Out.whole,
      topOf]
  | boxed s =>
    refine ⟨trivial, ?_⟩
    rw [Out.text, ← boxText_cstr, boxText_eq (zero_notMem_cstr s) ((length_cstr_le s).trans h),
      Out.whole]
  | box cap ps =>
    obtain ⟨hline, htext, hlen, hzero⟩ := h.1.line
    refine ⟨hline, ?_⟩
    rw [Out.text, htext, boxText_eq hzero (hlen.trans h.2), Out.whole]
  | bottom => exact ⟨trivial, rfl⟩

end Shiro
