import Mathlib.Data.List.Chain
import Mathlib.Data.List.TakeWhile
import Mathlib.Data.List.Sort

/-!
# First-fit free lists with boundary coalescing

A region of memory is cut into *blocks*: a header of `hdr` bytes followed by a payload, each
block either used or free, lying end to end.  An allocation takes the first free block whose
payload is large enough and splits it when the rest is worth a block of its own; a release
marks the block free and merges it with a free neighbour on either side.

`Arena` bundles a list of blocks with the three facts every operation keeps: the blocks tile
the region, no two neighbours are both free, and the payload sizes are multiples of a fixed
unit.  The file proves

* `Arena.alloc`, `Arena.free` : the two operations stay inside `Arena`;
* `mem_used_alloc`, `mem_used_free` : what they do to the set of used blocks;
* `Arena.ext_used` : **an arena is determined by its used blocks**, so the order in which
  blocks were allocated and released leaves no trace.
-/

namespace Shiro

namespace FreeList

/-- A block: the address of its header, its payload size, and whether it is in use. -/
structure Block where
  addr : ℕ
  size : ℕ
  used : Bool
  deriving DecidableEq, Repr

/-- The parameters of a free list. -/
structure Layout where
  /-- Bytes of a header. -/
  hdr : ℕ
  /-- Payload sizes are multiples of this. -/
  unit : ℕ
  /-- A block is split when more than this would be left over. -/
  slack : ℕ
  /-- First byte of the region. -/
  lo : ℕ
  /-- First byte behind the region. -/
  hi : ℕ
  hdr_pos : 0 < hdr
  hdr_le_slack : hdr ≤ slack
  unit_dvd_hdr : unit ∣ hdr

variable (L : Layout)

/-- The first byte of a block's payload. -/
def Layout.payload (b : Block) : ℕ := b.addr + L.hdr

/-- The first byte behind a block. -/
def Layout.stop (b : Block) : ℕ := b.addr + L.hdr + b.size

/-- The blocks lie end to end from `a` to `e`. -/
def Tiles : ℕ → List Block → ℕ → Prop
  | a, [], e => a = e
  | a, b :: bs, e => b.addr = a ∧ Tiles (L.stop b) bs e

/-- No two neighbours are both free. -/
def Coalesced (bs : List Block) : Prop := bs.IsChain fun b c => b.used = true ∨ c.used = true

/-- The blocks in use. -/
def usedBlocks (bs : List Block) : List Block := bs.filter (·.used)

/-- The blocks not in use. -/
def freeBlocks (bs : List Block) : List Block := bs.filter (!·.used)

/-- Total payload of a list of blocks. -/
def bytes : List Block → ℕ
  | [] => 0
  | b :: bs => b.size + bytes bs

/-! ### The operations on lists -/

/-- Take `n` bytes of a free block: split it if enough is left over, else hand it out whole. -/
def carve (n : ℕ) (b : Block) : List Block :=
  if L.slack < b.size - n then
    [⟨b.addr, n, true⟩, ⟨b.addr + L.hdr + n, b.size - n - L.hdr, false⟩]
  else [{ b with used := true }]

/-- The block first fit hands out is free and large enough. -/
def Fits (n : ℕ) (b : Block) : Prop := b.used = false ∧ n ≤ b.size

instance (n : ℕ) (b : Block) : Decidable (Fits n b) := inferInstanceAs (Decidable (_ ∧ _))

/-- First fit: the address of the block taken and the new list. -/
def alloc (n : ℕ) : List Block → Option (ℕ × List Block)
  | [] => none
  | b :: bs =>
    if Fits n b then some (b.addr, carve L n b ++ bs)
    else (alloc n bs).map fun r => (r.1, b :: r.2)

/-- `b` takes over the block behind it if that one is free. -/
def absorb (b : Block) : List Block → List Block
  | [] => [b]
  | c :: cs => if c.used then b :: c :: cs else { b with size := b.size + L.hdr + c.size } :: cs

/-- Put `rest` behind `pre`, merging at the seam when the last block of `pre` is free. -/
def join (pre rest : List Block) : List Block :=
  match pre.getLast? with
  | none => rest
  | some p => if p.used then pre ++ rest else pre.dropLast ++ absorb L p rest

/-- Release the block at address `a`. -/
def free (a : ℕ) (bs : List Block) : List Block :=
  match bs.dropWhile (·.addr ≠ a) with
  | [] => bs
  | b :: post => join L (bs.takeWhile (·.addr ≠ a)) (absorb L { b with used := false } post)

variable {L}

@[simp] theorem bytes_nil : bytes [] = 0 := rfl

@[simp] theorem bytes_cons (b : Block) (bs : List Block) : bytes (b :: bs) = b.size + bytes bs :=
  rfl

@[simp] theorem bytes_append (xs ys : List Block) : bytes (xs ++ ys) = bytes xs + bytes ys := by
  induction xs with
  | nil => simp
  | cons x xs ih => simp only [List.cons_append, bytes_cons, ih, Nat.add_assoc]

/-! ### Tilings -/

@[simp] theorem tiles_nil {a e : ℕ} : Tiles L a [] e ↔ a = e := Iff.rfl

@[simp] theorem tiles_cons {a e : ℕ} {b : Block} {bs : List Block} :
    Tiles L a (b :: bs) e ↔ b.addr = a ∧ Tiles L (L.stop b) bs e := Iff.rfl

theorem tiles_append {a e : ℕ} {xs ys : List Block} :
    Tiles L a (xs ++ ys) e ↔ ∃ c, Tiles L a xs c ∧ Tiles L c ys e := by
  induction xs generalizing a with
  | nil => simp
  | cons x xs ih => simp only [List.cons_append, tiles_cons, ih, and_assoc, exists_and_left]

/-- Replace the middle of a tiling. -/
theorem Tiles.splice {a e : ℕ} {pre post : List Block} (mid mid' : List Block)
    (h : Tiles L a (pre ++ (mid ++ post)) e) (hmid : ∀ p q, Tiles L p mid q → Tiles L p mid' q) :
    Tiles L a (pre ++ (mid' ++ post)) e := by
  obtain ⟨p, h1, h⟩ := tiles_append.1 h
  obtain ⟨q, h2, h3⟩ := tiles_append.1 h
  exact tiles_append.2 ⟨p, h1, tiles_append.2 ⟨q, hmid p q h2, h3⟩⟩

/-- The length of the region: payloads plus one header for each block. -/
theorem Tiles.length_eq {a e : ℕ} {bs : List Block} (h : Tiles L a bs e) :
    a + bytes bs + L.hdr * bs.length = e := by
  induction bs generalizing a with
  | nil => simpa [bytes] using h
  | cons b bs ih =>
    obtain ⟨rfl, h⟩ := h
    have := ih h
    simp only [Layout.stop, bytes_cons, List.length_cons, Nat.mul_succ] at this ⊢
    omega

theorem Tiles.le {a e : ℕ} {bs : List Block} (h : Tiles L a bs e) : a ≤ e := by
  have := h.length_eq; omega

/-- A block of a tiling lies inside the region. -/
theorem Tiles.bounds {a e : ℕ} {bs : List Block} (h : Tiles L a bs e) {b : Block} (hb : b ∈ bs) :
    a ≤ b.addr ∧ L.stop b ≤ e := by
  obtain ⟨xs, ys, rfl⟩ := List.append_of_mem hb
  obtain ⟨c, hx, rfl, hy⟩ := tiles_append.1 h
  exact ⟨hx.le, hy.le⟩

/-- The blocks of a tiling are sorted and do not overlap. -/
theorem Tiles.pairwise {a e : ℕ} {bs : List Block} (h : Tiles L a bs e) :
    bs.Pairwise fun b c => L.stop b ≤ c.addr := by
  induction bs generalizing a with
  | nil => exact .nil
  | cons b bs ih => exact .cons (fun c hc => (h.2.bounds hc).1) (ih h.2)

theorem addr_lt_stop (b : Block) : b.addr < L.stop b := by
  have := L.hdr_pos
  unfold Layout.stop; omega

theorem Tiles.pairwise_addr {a e : ℕ} {bs : List Block} (h : Tiles L a bs e) :
    bs.Pairwise fun b c => b.addr < c.addr :=
  h.pairwise.imp fun {b _} hbc => (addr_lt_stop b).trans_le hbc

/-- In a tiling that starts aligned, with aligned payloads, every header is aligned. -/
theorem Tiles.dvd_addr {a e : ℕ} {bs : List Block} (h : Tiles L a bs e) (ha : L.unit ∣ a)
    (hs : ∀ b ∈ bs, L.unit ∣ b.size) : ∀ b ∈ bs, L.unit ∣ b.addr := by
  induction bs generalizing a with
  | nil => simp
  | cons b bs ih =>
    obtain ⟨rfl, h⟩ := h
    have hb := hs b List.mem_cons_self
    have hstop : L.unit ∣ L.stop b := Nat.dvd_add (Nat.dvd_add ha L.unit_dvd_hdr) hb
    intro c hc
    rcases List.mem_cons.1 hc with rfl | hc
    · exact ha
    · exact ih h hstop (fun x hx => hs x (List.mem_cons_of_mem _ hx)) c hc

/-- Two blocks of a tiling coincide or lie apart. -/
theorem Tiles.eq_or_apart {a e : ℕ} {bs : List Block} (h : Tiles L a bs e) {b c : Block}
    (hb : b ∈ bs) (hc : c ∈ bs) : b = c ∨ L.stop b ≤ c.addr ∨ L.stop c ≤ b.addr := by
  by_cases hbc : b = c
  · exact .inl hbc
  · have : Std.Symm fun b c : Block => L.stop b ≤ c.addr ∨ L.stop c ≤ b.addr :=
      ⟨fun _ _ => Or.symm⟩
    have hp : bs.Pairwise fun b c : Block => L.stop b ≤ c.addr ∨ L.stop c ≤ b.addr :=
      h.pairwise.imp Or.inl
    exact .inr (hp.forall hb hc hbc)

theorem Tiles.eq_of_addr {a e : ℕ} {bs : List Block} (h : Tiles L a bs e) {b c : Block}
    (hb : b ∈ bs) (hc : c ∈ bs) (hbc : b.addr = c.addr) : b = c := by
  rcases h.eq_or_apart hb hc with h | h | h
  · exact h
  · exact absurd (addr_lt_stop (L := L) b) (by omega)
  · exact absurd (addr_lt_stop (L := L) c) (by omega)

/-! ### Coalesced lists -/

theorem coalesced_append_cons {pre post : List Block} {b : Block} :
    Coalesced (pre ++ b :: post) ↔ Coalesced pre ∧ Coalesced post ∧
      (∀ p ∈ pre.getLast?, p.used = true ∨ b.used = true) ∧
      ∀ c ∈ post.head?, b.used = true ∨ c.used = true := by
  simp only [Coalesced, List.isChain_append, List.isChain_cons, List.head?_cons,
    Option.mem_def, Option.some.injEq, forall_eq']
  tauto

theorem coalesced_cons {post : List Block} {b : Block} :
    Coalesced (b :: post) ↔ Coalesced post ∧ ∀ c ∈ post.head?, b.used = true ∨ c.used = true := by
  simp only [Coalesced, List.isChain_cons, and_comm]

/-! ### Taking blocks -/

/-- What an allocation does: it splits the list at the first block that fits. -/
theorem alloc_eq_some {n a : ℕ} {bs bs' : List Block} (h : alloc L n bs = some (a, bs')) :
    ∃ pre b post, bs = pre ++ b :: post ∧ (∀ c ∈ pre, ¬ Fits n c) ∧ Fits n b ∧ a = b.addr ∧
      bs' = pre ++ (carve L n b ++ post) := by
  induction bs generalizing a bs' with
  | nil => cases h
  | cons b bs ih =>
    rw [alloc] at h
    split at h
    · rename_i hb
      simp only [Option.some.injEq, Prod.mk.injEq] at h
      exact ⟨[], b, bs, rfl, by simp, hb, h.1.symm, h.2.symm⟩
    · rename_i hb
      simp only [Option.map_eq_some_iff, Prod.mk.injEq] at h
      obtain ⟨⟨a', cs⟩, hr, rfl, rfl⟩ := h
      obtain ⟨pre, c, post, rfl, hpre, hc, rfl, rfl⟩ := ih hr
      exact ⟨b :: pre, c, post, rfl, by simpa using ⟨hb, hpre⟩, hc, rfl, rfl⟩

theorem alloc_eq_none {n : ℕ} {bs : List Block} : alloc L n bs = none ↔ ∀ b ∈ bs, ¬ Fits n b := by
  induction bs with
  | nil => simp [alloc]
  | cons b bs ih =>
    rw [alloc]
    split
    · rename_i hb; simp [hb]
    · rename_i hb; simp [ih, hb]

theorem tiles_carve {n : ℕ} {b : Block} (hn : n ≤ b.size) :
    Tiles L b.addr (carve L n b) (L.stop b) := by
  have := L.hdr_le_slack
  unfold carve
  split
  · simp only [tiles_cons, tiles_nil, Layout.stop, true_and]; omega
  · simp [Layout.stop]

theorem usedBlocks_append (xs ys : List Block) :
    usedBlocks (xs ++ ys) = usedBlocks xs ++ usedBlocks ys := List.filter_append _ _

theorem freeBlocks_append (xs ys : List Block) :
    freeBlocks (xs ++ ys) = freeBlocks xs ++ freeBlocks ys := List.filter_append _ _

@[simp] theorem usedBlocks_nil : usedBlocks [] = [] := rfl

@[simp] theorem freeBlocks_nil : freeBlocks [] = [] := rfl

@[simp] theorem usedBlocks_cons (b : Block) (bs : List Block) :
    usedBlocks (b :: bs) = if b.used then b :: usedBlocks bs else usedBlocks bs := by
  cases hb : b.used <;> simp [usedBlocks, hb]

@[simp] theorem freeBlocks_cons (b : Block) (bs : List Block) :
    freeBlocks (b :: bs) = if b.used then freeBlocks bs else b :: freeBlocks bs := by
  cases hb : b.used <;> simp [freeBlocks, hb]

theorem bytes_usedBlocks_add (bs : List Block) :
    bytes (usedBlocks bs) + bytes (freeBlocks bs) = bytes bs := by
  induction bs with
  | nil => rfl
  | cons b bs ih => cases hb : b.used <;> simp_all [usedBlocks, freeBlocks] <;> omega

/-- The block handed out by `carve`. -/
def granted (L : Layout) (n : ℕ) (b : Block) : Block :=
  ⟨b.addr, if L.slack < b.size - n then n else b.size, true⟩

theorem usedBlocks_carve (n : ℕ) (b : Block) : usedBlocks (carve L n b) = [granted L n b] := by
  unfold carve granted
  split <;> simp [usedBlocks]

theorem le_granted {n : ℕ} {b : Block} (hn : n ≤ b.size) : n ≤ (granted L n b).size := by
  unfold granted
  dsimp only
  split <;> omega

theorem coalesced_carve {n : ℕ} {pre post : List Block} {b : Block} (hb : b.used = false)
    (h : Coalesced (pre ++ b :: post)) : Coalesced (pre ++ (carve L n b ++ post)) := by
  obtain ⟨hpre, hpost, -, hbc⟩ := coalesced_append_cons.1 h
  have hc : ∀ c ∈ post.head?, c.used = true := fun c hc => by simpa [hb] using hbc c hc
  unfold carve
  split
  · simp only [List.cons_append, List.nil_append]
    refine coalesced_append_cons.2 ⟨hpre, coalesced_cons.2 ⟨hpost, ?_⟩, ?_, ?_⟩
    · exact fun c h => .inr (hc c h)
    · exact fun _ _ => .inr rfl
    · exact fun _ _ => .inl rfl
  · simp only [List.cons_append, List.nil_append]
    exact coalesced_append_cons.2 ⟨hpre, hpost, fun _ _ => .inr rfl, fun _ _ => .inl rfl⟩

/-! ### Releasing blocks -/

theorem free_append {pre post : List Block} {b : Block} (hpre : ∀ c ∈ pre, c.addr ≠ b.addr) :
    free L b.addr (pre ++ b :: post) = join L pre (absorb L { b with used := false } post) := by
  have hp : ∀ c ∈ pre, decide (c.addr ≠ b.addr) = true := fun c hc => decide_eq_true (hpre c hc)
  unfold free
  rw [List.dropWhile_append_of_pos hp, List.takeWhile_append_of_pos hp]
  simp

/-- Releasing an address at which no block starts changes nothing. -/
theorem free_of_notMem {a : ℕ} {bs : List Block} (h : ∀ b ∈ bs, b.addr ≠ a) : free L a bs = bs := by
  have : bs.dropWhile (·.addr ≠ a) = [] := by
    rw [List.dropWhile_eq_nil_iff]
    simpa using h
  unfold free
  rw [this]

@[simp] theorem absorb_nil (b : Block) : absorb L b [] = [b] := rfl

theorem absorb_cons (b c : Block) (cs : List Block) : absorb L b (c :: cs) =
    if c.used then b :: c :: cs else { b with size := b.size + L.hdr + c.size } :: cs := rfl

/-- Merging forward keeps the address and the state of the block. -/
theorem absorb_eq_cons (b : Block) (post : List Block) :
    ∃ n cs, absorb L b post = { b with size := n } :: cs := by
  cases post with
  | nil => exact ⟨b.size, [], rfl⟩
  | cons c cs =>
    rw [absorb_cons]
    split
    · exact ⟨b.size, c :: cs, rfl⟩
    · exact ⟨_, cs, rfl⟩

theorem tiles_absorb {a e : ℕ} {b : Block} {post : List Block} (h : Tiles L a (b :: post) e) :
    Tiles L a (absorb L b post) e := by
  cases post with
  | nil => exact h
  | cons c cs =>
    obtain ⟨rfl, hc, h⟩ := h
    rw [absorb_cons]
    split
    · exact ⟨rfl, hc, h⟩
    · refine ⟨rfl, ?_⟩
      have : L.stop { b with size := b.size + L.hdr + c.size } = L.stop c := by
        simp only [Layout.stop] at hc ⊢; omega
      rwa [this]

theorem coalesced_absorb {b : Block} {post : List Block} (h : Coalesced post) :
    Coalesced (absorb L b post) := by
  cases post with
  | nil => exact .singleton _
  | cons c cs =>
    obtain ⟨hcs, hc⟩ := coalesced_cons.1 h
    rw [absorb_cons]
    split
    · rename_i hu
      refine coalesced_cons.2 ⟨h, fun d hd => .inr ?_⟩
      rw [← Option.some.inj hd, hu]
    · rename_i hu
      refine coalesced_cons.2 ⟨hcs, fun d hd => .inr ?_⟩
      simpa [hu] using hc d hd

theorem usedBlocks_absorb {b : Block} (hb : b.used = false) (post : List Block) :
    usedBlocks (absorb L b post) = usedBlocks post := by
  cases post with
  | nil => simp [usedBlocks, hb]
  | cons c cs =>
    rw [absorb_cons]
    split
    · simp [usedBlocks, hb]
    · rename_i hu; simp [usedBlocks, hb, hu]

theorem dvd_absorb {b : Block} {post : List Block} (h : ∀ c ∈ b :: post, L.unit ∣ c.size) :
    ∀ c ∈ absorb L b post, L.unit ∣ c.size := by
  cases post with
  | nil => exact h
  | cons c cs =>
    simp only [List.mem_cons, forall_eq_or_imp] at h
    rw [absorb_cons]
    split
    · simpa using h
    · simpa using ⟨Nat.dvd_add (Nat.dvd_add h.1 L.unit_dvd_hdr) h.2.1, h.2.2⟩

/-- The three shapes of `join`. -/
theorem join_cases (pre rest : List Block) :
    (pre = [] ∧ join L pre rest = rest) ∨
    (∃ pre' p, pre = pre' ++ [p] ∧ p.used = true ∧ join L pre rest = pre ++ rest) ∨
    ∃ pre' p, pre = pre' ++ [p] ∧ p.used = false ∧ join L pre rest = pre' ++ absorb L p rest := by
  rcases List.eq_nil_or_concat pre with rfl | ⟨pre', p, rfl⟩
  · exact .inl ⟨rfl, rfl⟩
  · simp only [List.concat_eq_append] at *
    by_cases hp : p.used = true
    · exact .inr (.inl ⟨pre', p, rfl, hp, by simp [join, hp]⟩)
    · exact .inr (.inr ⟨pre', p, rfl, by simpa using hp, by simp [join, hp]⟩)

theorem tiles_join {a e : ℕ} {pre rest : List Block} (h : Tiles L a (pre ++ rest) e) :
    Tiles L a (join L pre rest) e := by
  rcases join_cases (L := L) pre rest with ⟨rfl, he⟩ | ⟨pre', p, rfl, -, he⟩ | ⟨pre', p, rfl, -, he⟩
  · rw [he]; exact h
  · rw [he]; exact h
  · rw [he]
    rw [List.append_assoc] at h
    obtain ⟨c, h1, h2⟩ := tiles_append.1 h
    exact tiles_append.2 ⟨c, h1, tiles_absorb h2⟩

theorem coalesced_join {pre rest : List Block} (hpre : Coalesced pre) (hrest : Coalesced rest) :
    Coalesced (join L pre rest) := by
  rcases join_cases (L := L) pre rest with ⟨rfl, he⟩ | ⟨pre', p, rfl, hp, he⟩ | ⟨pre', p, rfl, hp, he⟩
  · rw [he]; exact hrest
  · rw [he]
    exact hpre.append hrest fun x hx y _ => by simp_all
  · rw [he]
    obtain ⟨n, cs, hcs⟩ := absorb_eq_cons (L := L) p rest
    refine List.IsChain.append (List.isChain_append.1 hpre).1 (coalesced_absorb hrest) ?_
    intro x hx y hy
    have := (List.isChain_append.1 hpre).2.2 x hx p (by simp)
    simpa [hp] using Or.inl (b := y.used = true) (by simpa [hp] using this)

theorem usedBlocks_join (pre rest : List Block) :
    usedBlocks (join L pre rest) = usedBlocks pre ++ usedBlocks rest := by
  rcases join_cases (L := L) pre rest with ⟨rfl, he⟩ | ⟨pre', p, rfl, hp, he⟩ | ⟨pre', p, rfl, hp, he⟩
  · rw [he]; rfl
  · rw [he, usedBlocks_append]
  · rw [he, usedBlocks_append, usedBlocks_absorb hp, usedBlocks_append]
    simp [usedBlocks, hp]

theorem dvd_join {pre rest : List Block} (h : ∀ c ∈ pre ++ rest, L.unit ∣ c.size) :
    ∀ c ∈ join L pre rest, L.unit ∣ c.size := by
  rcases join_cases (L := L) pre rest with ⟨rfl, he⟩ | ⟨pre', p, rfl, -, he⟩ | ⟨pre', p, rfl, -, he⟩
  · rw [he]; exact h
  · rw [he]; exact h
  · rw [he]
    intro c hc
    rcases List.mem_append.1 hc with hc | hc
    · exact h c (by simp [hc])
    · exact dvd_absorb (fun x hx => h x (by simpa using .inr (List.mem_cons.1 hx))) c hc

/-! ### Arenas -/

variable (L) in
/-- A list of blocks that fills its region, keeps no two free neighbours, and has aligned
payload sizes. -/
@[ext] structure Arena where
  blocks : List Block
  tiles : Tiles L L.lo blocks L.hi
  coalesced : Coalesced blocks
  aligned : ∀ b ∈ blocks, L.unit ∣ b.size

namespace Arena

/-- The arena of one free block. -/
def init (L : Layout) (h : L.lo + L.hdr ≤ L.hi) (hd : L.unit ∣ L.hi - L.lo - L.hdr) : Arena L where
  blocks := [⟨L.lo, L.hi - L.lo - L.hdr, false⟩]
  tiles := ⟨rfl, by simp only [tiles_nil, Layout.stop]; omega⟩
  coalesced := .singleton _
  aligned := by simpa using hd

/-- An allocation keeps an arena an arena. -/
theorem wf_alloc (A : Arena L) {n a : ℕ} {bs : List Block} (hn : L.unit ∣ n)
    (h : FreeList.alloc L n A.blocks = some (a, bs)) :
    Tiles L L.lo bs L.hi ∧ Coalesced bs ∧ ∀ b ∈ bs, L.unit ∣ b.size := by
  obtain ⟨pre, b, post, hbs, -, ⟨hfree, hle⟩, -, rfl⟩ := alloc_eq_some h
  have ht := A.tiles
  have hc := A.coalesced
  have ha := A.aligned
  rw [hbs] at ht hc ha
  refine ⟨?_, coalesced_carve hfree hc, ?_⟩
  · refine Tiles.splice [b] (carve L n b) ht ?_
    rintro p q ⟨rfl, rfl⟩
    exact tiles_carve hle
  · have hb := ha b (by simp)
    intro x hx
    rcases List.mem_append.1 hx with hx | hx
    · exact ha x (by simp [hx])
    rcases List.mem_append.1 hx with hx | hx
    · unfold carve at hx
      split at hx
      · simp only [List.mem_cons, List.not_mem_nil, or_false] at hx
        rcases hx with rfl | rfl
        · exact hn
        · exact Nat.dvd_sub (Nat.dvd_sub hb hn) L.unit_dvd_hdr
      · simp only [List.mem_singleton] at hx
        rw [hx]; exact hb
    · exact ha x (by simp [hx])

/-- First-fit allocation of `n` bytes. -/
def alloc (A : Arena L) (n : ℕ) (hn : L.unit ∣ n) : Option (ℕ × Arena L) :=
  match h : FreeList.alloc L n A.blocks with
  | none => none
  | some (a, bs) =>
    some (a, ⟨bs, (A.wf_alloc hn h).1, (A.wf_alloc hn h).2.1, (A.wf_alloc hn h).2.2⟩)

/-- An address splits an arena at its block, if it has one. -/
theorem split_at (A : Arena L) (a : ℕ) : (∀ b ∈ A.blocks, b.addr ≠ a) ∨
    ∃ pre b post, A.blocks = pre ++ b :: post ∧ b.addr = a ∧ ∀ c ∈ pre, c.addr ≠ b.addr := by
  by_cases h : ∃ b ∈ A.blocks, b.addr = a
  · obtain ⟨b, hb, rfl⟩ := h
    obtain ⟨pre, post, he⟩ := List.append_of_mem hb
    refine .inr ⟨pre, b, post, he, rfl, fun c hc => ?_⟩
    have hp := A.tiles.pairwise_addr
    rw [he, List.pairwise_append] at hp
    exact (hp.2.2 c hc b List.mem_cons_self).ne
  · push Not at h
    exact .inl h

/-- A release keeps an arena an arena. -/
theorem wf_free (A : Arena L) (a : ℕ) :
    Tiles L L.lo (FreeList.free L a A.blocks) L.hi ∧ Coalesced (FreeList.free L a A.blocks) ∧
      ∀ b ∈ FreeList.free L a A.blocks, L.unit ∣ b.size := by
  rcases A.split_at a with h | ⟨pre, b, post, hbs, rfl, hpre⟩
  · rw [free_of_notMem h]
    exact ⟨A.tiles, A.coalesced, A.aligned⟩
  · have ht := A.tiles
    have hc := A.coalesced
    have ha := A.aligned
    rw [hbs] at ht hc ha ⊢
    rw [free_append hpre]
    refine ⟨tiles_join ?_, coalesced_join ?_ (coalesced_absorb ?_), dvd_join ?_⟩
    · obtain ⟨c, h1, h2⟩ := tiles_append.1 ht
      exact tiles_append.2 ⟨c, h1, tiles_absorb h2⟩
    · exact (coalesced_append_cons.1 hc).1
    · exact (coalesced_append_cons.1 hc).2.1
    · intro x hx
      rcases List.mem_append.1 hx with hx | hx
      · exact ha x (by simp [hx])
      · refine dvd_absorb (fun y hy => ?_) x hx
        rcases List.mem_cons.1 hy with rfl | hy
        · exact ha b (by simp)
        · exact ha y (by simp [hy])

/-- Release the block at address `a`. -/
def free (A : Arena L) (a : ℕ) : Arena L :=
  ⟨FreeList.free L a A.blocks, (A.wf_free a).1, (A.wf_free a).2.1, (A.wf_free a).2.2⟩

/-- The blocks in use. -/
def used (A : Arena L) : List Block := usedBlocks A.blocks

theorem mem_used {A : Arena L} {b : Block} : b ∈ A.used ↔ b ∈ A.blocks ∧ b.used = true := by
  simp [used, usedBlocks]

theorem alloc_eq_none {A : Arena L} {n : ℕ} {hn : L.unit ∣ n} :
    A.alloc n hn = none ↔ ∀ b ∈ A.blocks, ¬ Fits n b := by
  rw [← FreeList.alloc_eq_none (L := L), alloc]
  split <;> simp_all

theorem alloc_eq_some {A A' : Arena L} {n a : ℕ} {hn : L.unit ∣ n} :
    A.alloc n hn = some (a, A') ↔ FreeList.alloc L n A.blocks = some (a, A'.blocks) := by
  rw [alloc]
  split
  · simp_all
  · rename_i a' bs h
    simp only [h, Option.some.injEq, Prod.mk.injEq, Arena.ext_iff]

/-- **An allocation adds one used block**, the first that fits, and keeps the others. -/
theorem mem_used_alloc {A A' : Arena L} {n a : ℕ} {hn : L.unit ∣ n}
    (h : A.alloc n hn = some (a, A')) :
    ∃ b ∈ A.blocks, Fits n b ∧ a = b.addr ∧ granted L n b ∈ A'.used ∧
      ∀ c, c ∈ A'.used ↔ c = granted L n b ∨ c ∈ A.used := by
  obtain ⟨pre, b, post, hbs, -, hfit, rfl, hbs'⟩ :=
    FreeList.alloc_eq_some (alloc_eq_some.1 h)
  have key : ∀ c, c ∈ A'.used ↔ c = granted L n b ∨ c ∈ A.used := by
    intro c
    have hb : usedBlocks (b :: post) = usedBlocks post := by simp [usedBlocks, hfit.1]
    simp only [used, hbs, hbs', usedBlocks_append, usedBlocks_carve, hb, List.mem_append,
      List.mem_singleton]
    tauto
  exact ⟨b, by simp [hbs], hfit, rfl, (key _).2 (.inl rfl), key⟩

/-- **A release removes one used block** and keeps the others. -/
theorem mem_used_free {A : Arena L} {b : Block} (hb : b ∈ A.used) (c : Block) :
    c ∈ (A.free b.addr).used ↔ c ∈ A.used ∧ c ≠ b := by
  rw [mem_used] at hb
  obtain ⟨pre, post, hbs⟩ := List.append_of_mem hb.1
  have hp := A.tiles.pairwise_addr
  rw [hbs, List.pairwise_append, List.pairwise_cons] at hp
  obtain ⟨-, ⟨hpost, -⟩, hpre⟩ := hp
  have hne : ∀ x ∈ pre, x.addr ≠ b.addr := fun x hx => (hpre x hx b List.mem_cons_self).ne
  have hu : (A.free b.addr).used = usedBlocks pre ++ usedBlocks post := by
    simp only [used, free]
    rw [hbs, free_append hne, usedBlocks_join, usedBlocks_absorb rfl]
  have hu' : A.used = usedBlocks pre ++ b :: usedBlocks post := by
    rw [used, hbs, usedBlocks_append]
    simp [usedBlocks, hb.2]
  rw [hu, hu']
  simp only [List.mem_append, List.mem_cons]
  constructor
  · rintro (h | h)
    · refine ⟨.inl h, ?_⟩
      rintro rfl
      exact hne c (List.mem_of_mem_filter h) rfl
    · refine ⟨.inr (.inr h), ?_⟩
      rintro rfl
      exact (hpost c (List.mem_of_mem_filter h)).ne rfl
  · tauto

variable (L) in
/-- What lies between two used blocks: nothing, or one free block. -/
def gap (a e : ℕ) : List Block := if a = e then [] else [⟨a, e - a - L.hdr, false⟩]

variable (L) in
/-- The blocks between `a` and `e` with the used ones given. -/
def fill : ℕ → List Block → ℕ → List Block
  | a, [], e => gap L a e
  | a, u :: us, e => gap L a u.addr ++ u :: fill (L.stop u) us e

theorem gap_stop {b : Block} (hb : b.used = false) : gap L b.addr (L.stop b) = [b] := by
  have hne : b.addr ≠ L.stop b := (addr_lt_stop b).ne
  obtain ⟨addr, size, used⟩ := b
  simp only [gap, hne, ↓reduceIte, List.cons.injEq, and_true, Block.mk.injEq, true_and]
  exact ⟨by simp only [Layout.stop]; omega, hb.symm⟩

/-- A coalesced tiling is what its used blocks leave: the gaps between them are its free
blocks. -/
theorem eq_fill {a e : ℕ} {bs : List Block} (ht : Tiles L a bs e) (hc : Coalesced bs) :
    bs = fill L a (usedBlocks bs) e := by
  induction bs generalizing a with
  | nil => simp_all [usedBlocks, fill, gap]
  | cons b bs ih =>
    obtain ⟨rfl, ht⟩ := ht
    obtain ⟨hcs, hhead⟩ := coalesced_cons.1 hc
    have ih := ih ht hcs
    by_cases hb : b.used = true
    · have hu : usedBlocks (b :: bs) = b :: usedBlocks bs := by simp [usedBlocks, hb]
      simpa [hu, fill, gap] using ih
    · have hb : b.used = false := by simpa using hb
      have hu : usedBlocks (b :: bs) = usedBlocks bs := by simp [usedBlocks, hb]
      rw [hu]
      -- the block behind a free one is used, so the gap ends where `b` does
      cases bs with
      | nil =>
        simp only [tiles_nil] at ht
        simp only [usedBlocks, List.filter_nil, fill, ← ht, gap_stop hb]
      | cons c cs =>
        have hcu : c.used = true := by simpa [hb] using hhead c rfl
        have hu' : usedBlocks (c :: cs) = c :: usedBlocks cs := by simp [usedBlocks, hcu]
        rw [hu'] at ih ⊢
        simp only [fill, ht.1, gap, ↓reduceIte, List.nil_append] at ih
        rw [fill, ht.1, gap_stop hb, List.singleton_append, ← ih]

/-- **An arena is determined by its used blocks.** -/
theorem ext_used {A B : Arena L} (h : ∀ b, b ∈ A.used ↔ b ∈ B.used) : A = B := by
  have hA : A.used.Pairwise fun b c => b.addr < c.addr := A.tiles.pairwise_addr.filter _
  have hB : B.used.Pairwise fun b c => b.addr < c.addr := B.tiles.pairwise_addr.filter _
  have hanti : Std.Antisymm fun b c : Block => b.addr < c.addr :=
    ⟨fun _ _ h1 h2 => absurd h1 (Nat.lt_asymm h2)⟩
  have hirr : Std.Irrefl fun b c : Block => b.addr < c.addr := ⟨fun _ => Nat.lt_irrefl _⟩
  have hu : A.used = B.used := hA.eq_of_mem_iff hB h
  apply Arena.ext
  rw [eq_fill A.tiles A.coalesced, eq_fill B.tiles B.coalesced]
  exact congrArg (fill L L.lo · L.hi) hu

/-- **A release undoes the allocation right before it.** -/
theorem free_alloc {A A' : Arena L} {n a : ℕ} {hn : L.unit ∣ n} (h : A.alloc n hn = some (a, A')) :
    A'.free a = A := by
  obtain ⟨b, hb, hfit, rfl, -, hused⟩ := mem_used_alloc h
  refine ext_used fun c => ?_
  rw [show b.addr = (granted L n b).addr from rfl, mem_used_free ((hused _).2 (.inl rfl)), hused]
  constructor
  · rintro ⟨rfl | hc, hne⟩
    · exact absurd rfl hne
    · exact hc
  · intro hc
    refine ⟨.inr hc, ?_⟩
    rintro rfl
    obtain ⟨hc, hu⟩ := mem_used.1 hc
    have hbu := hfit.1
    rw [← A.tiles.eq_of_addr hc hb rfl, hu] at hbu
    cases hbu

theorem eq_of_addr (A : Arena L) {b c : Block} (hb : b ∈ A.used) (hc : c ∈ A.used)
    (hbc : b.addr = c.addr) : b = c :=
  A.tiles.eq_of_addr (mem_used.1 hb).1 (mem_used.1 hc).1 hbc

end Arena

end FreeList

end Shiro
