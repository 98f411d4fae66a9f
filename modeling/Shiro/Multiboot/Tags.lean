import Mathlib.Data.List.Range
import Shiro.Lib.Memory

/-!
# The multiboot2 info block

The boot loader leaves a chain of tags in memory: each has a type, a size and a body, is padded to
a multiple of eight bytes, and a tag of type zero ends the chain.  The kernel walks this chain four
times, with the same loop around a different body.

* `walkTags` : the loop.  `none` stands for a loop that never ends and for a body that faults.
* `Chain`, `InfoBlock` : the tags of a well-formed info block, where they lie and what they cover.
* `InfoBlock.walk_eq` : **the loop visits the tags of a well-formed block in order** and stops.
* `available`, `modules` : what the memory map and the module tags of the block say.
-/

namespace Shiro

namespace Multiboot

/-! ### The loop -/

/-- `MB2_TAG_END`. -/
def tagEnd : ℕ := 0

/-- `MB2_TAG_MODULE`. -/
def tagModule : ℕ := 3

/-- `MB2_TAG_BASIC_MEMINFO`. -/
def tagMeminfo : ℕ := 4

/-- `MB2_TAG_MMAP`. -/
def tagMmap : ℕ := 6

/-- `MB2_TAG_FRAMEBUFFER`. -/
def tagFramebuffer : ℕ := 8

/-- `MB2_MEMORY_AVAILABLE`. -/
def memoryAvailable : ℕ := 1

/-- The steps after which the cursor has either met the end or returned to an address. -/
def walkFuel : ℕ := 2 ^ 32

/-- `cursor += (tag->size + 7) & ~7u`. -/
def nextTag (m : Mem) (cursor : ℕ) : ℕ :=
  u32 (cursor + andNot 32 (u32 (m.read32 (cursor + 4) + 7)) 7)

variable {σ : Type*}

/-- The loop over the tags from `cursor` on.  The body may leave the loop (`done`) or fault. -/
def walkTags (m : Mem) (body : ℕ → σ → Option (ForInStep σ)) : ℕ → ℕ → σ → Option σ
  | 0, _, _ => none
  | fuel + 1, cursor, s =>
    if m.read32 cursor = tagEnd then some s
    else
      match body cursor s with
      | none => none
      | some (.done s) => some s
      | some (.yield s) => walkTags m body fuel (nextTag m cursor) s

/-- What the body keeps, the loop keeps. -/
theorem walkTags_invariant {m : Mem} {body : ℕ → σ → Option (ForInStep σ)} {I : σ → Prop}
    (hbody : ∀ cursor s r, I s → body cursor s = some r → I r.value) {fuel cursor : ℕ} {s s' : σ}
    (hs : I s) (h : walkTags m body fuel cursor s = some s') : I s' := by
  induction fuel generalizing cursor s with
  | zero => cases h
  | succ fuel ih =>
    rw [walkTags] at h
    split at h
    · cases h
      exact hs
    · cases hb : body cursor s with
      | none =>
        rw [hb] at h
        cases h
      | some r =>
        have hr := hbody cursor s r hs hb
        rw [hb] at h
        cases r with
        | done t =>
          cases h
          exact hr
        | yield t => exact ih hr h

/-! ### Well-formed blocks -/

/-- A tag: where it lies, and the two words it begins with. -/
structure Tag where
  addr : ℕ
  type : ℕ
  size : ℕ
  deriving DecidableEq, Repr

/-- The bytes that the fields of a tag take. -/
def fieldBytes (type : ℕ) : ℕ :=
  if type = tagModule then 16
  else if type = tagMeminfo then 16
  else if type = tagMmap then 16
  else if type = tagFramebuffer then 31
  else 8

/-- The size of a tag, padded. -/
def Tag.padded (t : Tag) : ℕ := (t.size + 7) / 8 * 8

/-- `entry_size` of a memory map. -/
def Tag.entrySize (m : Mem) (t : Tag) : ℕ := m.read32 (t.addr + 8)

/-- A tag covers its fields, and a memory map holds whole entries. -/
structure Tag.Covers (m : Mem) (t : Tag) : Prop where
  fields : fieldBytes t.type ≤ t.size
  entry : t.type = tagMmap → 24 ≤ t.entrySize m
  whole : t.type = tagMmap → t.entrySize m ∣ t.size - 16

/-- The tags `ts` lie end to end from `a`, and the end tag behind them stops at `e`. -/
def Chain (m : Mem) : ℕ → List Tag → ℕ → Prop
  | a, [], e => m.read32 a = tagEnd ∧ m.read32 (a + 4) = 8 ∧ a + 8 = e
  | a, t :: ts, e => t.addr = a ∧ t.type = m.read32 a ∧ t.size = m.read32 (a + 4) ∧
      t.type ≠ tagEnd ∧ t.Covers m ∧ Chain m (a + t.padded) ts e

/-- A well-formed info block at `mbi` with the tags `ts`. -/
structure InfoBlock (m : Mem) (mbi : ℕ) (ts : List Tag) : Prop where
  nonnull : mbi ≠ 0
  chain : Chain m (mbi + 8) ts (mbi + m.read32 mbi)
  fits : mbi + m.read32 mbi ≤ 2 ^ 32

variable {m m' : Mem} {a e mbi : ℕ} {t : Tag} {ts : List Tag}

theorem eight_le_fieldBytes (type : ℕ) : 8 ≤ fieldBytes type := by
  unfold fieldBytes
  split_ifs <;> decide

theorem Tag.Covers.eight_le (h : t.Covers m) : 8 ≤ t.size :=
  (eight_le_fieldBytes _).trans h.fields

theorem Tag.size_le_padded (t : Tag) : t.size ≤ t.padded := by
  unfold padded
  omega

/-- The end tag lies inside the block. -/
theorem Chain.end_le (h : Chain m a ts e) : a + 8 ≤ e := by
  induction ts generalizing a with
  | nil => exact h.2.2.le
  | cons t ts ih =>
    have := ih h.2.2.2.2.2
    omega

theorem Chain.read_end (h : Chain m a ts e) : m.read32 (e - 8) = tagEnd := by
  induction ts generalizing a with
  | nil =>
    obtain ⟨htype, -, rfl⟩ := h
    simpa using htype
  | cons t ts ih => exact ih h.2.2.2.2.2

/-- Every tag lies inside the block. -/
theorem Chain.mem (h : Chain m a ts e) (ht : t ∈ ts) :
    a ≤ t.addr ∧ t.addr + t.size + 8 ≤ e ∧ t.type = m.read32 t.addr ∧
      t.size = m.read32 (t.addr + 4) ∧ t.type ≠ tagEnd ∧ t.Covers m := by
  induction ts generalizing a with
  | nil => cases ht
  | cons u ts ih =>
    obtain ⟨rfl, htype, hsize, hne, hcov, h⟩ := h
    rcases List.mem_cons.1 ht with rfl | ht
    · have := h.end_le
      have := t.size_le_padded
      exact ⟨le_rfl, by omega, htype, hsize, hne, hcov⟩
    · obtain ⟨h1, h2⟩ := ih h ht
      exact ⟨by omega, h2⟩

/-- A chain that fits the address space has fewer tags than the loop has steps. -/
theorem Chain.length_lt (h : Chain m a ts e) : a + 8 * ts.length + 8 ≤ e := by
  induction ts generalizing a with
  | nil => exact h.2.2.le
  | cons t ts ih =>
    obtain ⟨-, -, -, -, hcov, h⟩ := h
    have := ih h
    have := hcov.eight_le
    have := t.size_le_padded
    rw [List.length_cons]
    omega

theorem nextTag_eq (hsize : t.size = m.read32 (a + 4)) (hfit : a + t.padded < 2 ^ 32) :
    nextTag m a = a + t.padded := by
  have hin : u32 (t.size + 7) = t.size + 7 := by
    unfold Tag.padded at hfit
    exact u32_of_lt (by omega)
  have hand : andNot 32 (t.size + 7) 7 = t.padded :=
    andNot_two_pow (k := 3) (hin ▸ u32_lt _) (by decide)
  rw [nextTag, ← hsize, hin, hand, u32_of_lt hfit]

/-! ### The walk -/

/-- The loop body along a list of tags. -/
def forTags (body : ℕ → σ → Option (ForInStep σ)) : List Tag → σ → Option σ
  | [], s => some s
  | t :: ts, s =>
    match body t.addr s with
    | none => none
    | some (.done s) => some s
    | some (.yield s) => forTags body ts s

theorem Chain.walk_eq (body : ℕ → σ → Option (ForInStep σ)) (h : Chain m a ts e)
    (hfit : e ≤ 2 ^ 32) {fuel : ℕ} (hfuel : ts.length < fuel) (s : σ) :
    walkTags m body fuel a s = forTags body ts s := by
  induction ts generalizing a fuel s with
  | nil =>
    obtain ⟨k, rfl⟩ := Nat.exists_eq_add_of_lt hfuel
    simp [walkTags, forTags, h.1]
  | cons t ts ih =>
    obtain ⟨rfl, htype, hsize, hne, -, h⟩ := h
    cases fuel with
    | zero => omega
    | succ k =>
      have hend := h.end_le
      rw [walkTags, if_neg (htype ▸ hne), forTags, nextTag_eq hsize (by omega)]
      split
      · rfl
      · rfl
      · exact ih h (by simpa using hfuel) _

/-- **The loop visits the tags of a well-formed block in order** and stops behind the last. -/
theorem InfoBlock.walk_eq (h : InfoBlock m mbi ts) (body : ℕ → σ → Option (ForInStep σ)) (s : σ) :
    walkTags m body walkFuel (mbi + 8) s = forTags body ts s := by
  have := h.chain.length_lt
  have := h.fits
  exact h.chain.walk_eq body h.fits (by unfold walkFuel; omega) s

/-- The loop runs as before where the first words of the tags are as before, and the type of the
end tag is one still. -/
theorem Chain.walk_congr {body body' : ℕ → σ → Option (ForInStep σ)} (h : Chain m a ts e)
    (hfit : e ≤ 2 ^ 32) (hend : m'.read32 (e - 8) = tagEnd)
    (hwords : ∀ t ∈ ts, m'.read32 t.addr = m.read32 t.addr ∧
      m'.read32 (t.addr + 4) = m.read32 (t.addr + 4))
    (hbody : ∀ t ∈ ts, body' t.addr = body t.addr) (fuel : ℕ) (s : σ) :
    walkTags m' body' fuel a s = walkTags m body fuel a s := by
  induction ts generalizing a fuel s with
  | nil =>
    obtain ⟨htype, -, rfl⟩ := h
    cases fuel with
    | zero => rfl
    | succ fuel => rw [walkTags, walkTags, if_pos (by simpa using hend), if_pos htype]
  | cons t ts ih =>
    obtain ⟨rfl, htype, hsize, hne, -, h⟩ := h
    obtain ⟨htype', hsize'⟩ := hwords t List.mem_cons_self
    have hlast := h.end_le
    have hnext : nextTag m' t.addr = nextTag m t.addr := by rw [nextTag, hsize', nextTag]
    cases fuel with
    | zero => rfl
    | succ fuel =>
      rw [walkTags, walkTags, htype', if_neg (htype ▸ hne), if_neg (htype ▸ hne),
        hbody t List.mem_cons_self, hnext, nextTag_eq hsize (by omega)]
      split
      · rfl
      · rfl
      · exact ih h (fun u hu => hwords u (List.mem_cons_of_mem _ hu))
          (fun u hu => hbody u (List.mem_cons_of_mem _ hu)) _ _

/-- A body that never leaves the loop folds over the tags. -/
theorem forTags_yield (f : σ → ℕ → σ) (ts : List Tag) (s : σ) :
    forTags (fun a s => some (.yield (f s a))) ts s = some (ts.foldl (fun s t => f s t.addr) s) := by
  induction ts generalizing s with
  | nil => rfl
  | cons t ts ih => exact ih _

/-! ### What the block says -/

/-- An entry of the memory map. -/
structure Entry where
  base : ℕ
  length : ℕ
  type : ℕ
  deriving DecidableEq, Repr

/-- The entry at address `a`. -/
def entryAt (m : Mem) (a : ℕ) : Entry := ⟨m.read64 a, m.read64 (a + 8), m.read32 (a + 16)⟩

/-- Where the entries of a memory map lie. -/
def Tag.entryAddrs (m : Mem) (t : Tag) : List ℕ :=
  (List.range ((t.size - 16) / t.entrySize m)).map fun i => t.addr + 16 + i * t.entrySize m

/-- The entries of a memory map. -/
def Tag.entries (m : Mem) (t : Tag) : List Entry := (t.entryAddrs m).map (entryAt m)

/-- The available memory the block lists, in order. -/
def available (m : Mem) (ts : List Tag) : List Entry :=
  (ts.filter (·.type = tagMmap)).flatMap fun t => (t.entries m).filter (·.type = memoryAvailable)

/-- The boot modules the block lists: first address, and first address behind. -/
def modules (m : Mem) (ts : List Tag) : List (ℕ × ℕ) :=
  (ts.filter (·.type = tagModule)).map fun t => (m.read32 (t.addr + 8), m.read32 (t.addr + 12))

theorem modules_cons (m : Mem) (t : Tag) (ts : List Tag) : modules m (t :: ts) =
    if t.type = tagModule then
      (m.read32 (t.addr + 8), m.read32 (t.addr + 12)) :: modules m ts
    else modules m ts := by
  by_cases hm : t.type = tagModule <;> simp [modules, hm]

/-- The end of the last boot module, `0` if there is none. -/
def lastModuleEnd (m : Mem) (ts : List Tag) : ℕ := ((modules m ts).map Prod.snd).foldl max 0

theorem le_foldl_max (xs : List ℕ) (a : ℕ) : a ≤ xs.foldl max a ∧ ∀ x ∈ xs, x ≤ xs.foldl max a := by
  induction xs generalizing a with
  | nil => simp
  | cons x xs ih =>
    obtain ⟨h1, h2⟩ := ih (max a x)
    rw [List.foldl_cons]
    refine ⟨(le_max_left a x).trans h1, fun y hy => ?_⟩
    rcases List.mem_cons.1 hy with rfl | hy
    · exact (le_max_right a y).trans h1
    · exact h2 y hy

theorem le_lastModuleEnd {r : ℕ × ℕ} (hr : r ∈ modules m ts) : r.2 ≤ lastModuleEnd m ts :=
  (le_foldl_max _ 0).2 _ (List.mem_map_of_mem hr)

theorem foldl_max_lt {xs : List ℕ} {a n : ℕ} (ha : a < n) (hxs : ∀ x ∈ xs, x < n) :
    xs.foldl max a < n := by
  induction xs generalizing a with
  | nil => exact ha
  | cons x xs ih =>
    exact ih (max_lt ha (hxs x List.mem_cons_self)) fun y hy => hxs y (List.mem_cons_of_mem _ hy)

theorem lastModuleEnd_lt (m : Mem) (ts : List Tag) : lastModuleEnd m ts < 2 ^ 32 := by
  refine foldl_max_lt (by decide) fun x hx => ?_
  obtain ⟨r, hr, rfl⟩ := List.mem_map.1 hx
  obtain ⟨t, -, rfl⟩ := List.mem_map.1 hr
  exact Mem.read32_lt _ _

/-! ### Memories that agree on the block -/

variable {lo hi : ℕ}

theorem entrySize_eq (h : EqOn m m' lo hi) (hlo : lo ≤ t.addr) (hhi : t.addr + 12 ≤ hi)
    (hfit : hi ≤ 2 ^ 32) : t.entrySize m' = t.entrySize m :=
  h.read32 (by omega) (by omega) hfit

theorem Tag.Covers.frame (hc : t.Covers m) (h : EqOn m m' lo hi) (hlo : lo ≤ t.addr)
    (hhi : t.addr + t.size ≤ hi) (hfit : hi ≤ 2 ^ 32) : t.Covers m' := by
  have hes : t.type = tagMmap → t.entrySize m' = t.entrySize m := by
    intro hm
    have hf := hc.fields
    rw [hm] at hf
    exact entrySize_eq h hlo ((Nat.add_le_add_left (le_trans (by decide) hf) _).trans hhi) hfit
  refine ⟨hc.fields, fun hm => ?_, fun hm => ?_⟩
  · rw [hes hm]
    exact hc.entry hm
  · rw [hes hm]
    exact hc.whole hm

theorem Chain.frame (hc : Chain m a ts e) (h : EqOn m m' a e) (hfit : e ≤ 2 ^ 32) :
    Chain m' a ts e := by
  induction ts generalizing a with
  | nil =>
    obtain ⟨h1, h2, h3⟩ := hc
    exact ⟨(h.read32 le_rfl (by omega) hfit).trans h1,
      (h.read32 (by omega) (by omega) hfit).trans h2, h3⟩
  | cons t ts ih =>
    obtain ⟨-, hend, -⟩ := hc.mem List.mem_cons_self
    obtain ⟨rfl, htype, hsize, hne, hcov, hc⟩ := hc
    have := hcov.eight_le
    exact ⟨rfl, htype.trans (h.read32 le_rfl (by omega) hfit).symm,
      hsize.trans (h.read32 (by omega) (by omega) hfit).symm, hne,
      hcov.frame h le_rfl (by omega) hfit, ih hc (h.mono (by omega) le_rfl)⟩

/-- **A block survives stores outside it.** -/
theorem InfoBlock.frame (hb : InfoBlock m mbi ts) (h : EqOn m m' mbi (mbi + m.read32 mbi)) :
    InfoBlock m' mbi ts := by
  have hend := hb.chain.end_le
  have htotal : m'.read32 mbi = m.read32 mbi := h.read32 le_rfl (by omega) hb.fits
  refine ⟨hb.nonnull, ?_, ?_⟩
  · rw [htotal]
    exact hb.chain.frame (h.mono (by omega) le_rfl) hb.fits
  · rw [htotal]
    exact hb.fits

/-- The entries of a memory map lie inside its tag. -/
theorem Tag.Covers.entry_bounds (hc : t.Covers m) (ht : t.type = tagMmap) {x : ℕ}
    (hx : x ∈ t.entryAddrs m) : t.addr + 16 ≤ x ∧ x + 24 ≤ t.addr + t.size := by
  obtain ⟨i, hi, rfl⟩ := List.mem_map.1 hx
  rw [List.mem_range] at hi
  have hes := hc.entry ht
  have hmul : (i + 1) * t.entrySize m ≤ t.size - 16 :=
    (Nat.mul_le_mul_right _ hi).trans (Nat.div_mul_le_self _ _)
  have hf := hc.fields
  rw [ht] at hf
  have h16 : fieldBytes tagMmap = 16 := rfl
  rw [Nat.succ_mul] at hmul
  omega

/-! ### Small blocks -/

/-- A block at `0x9000` whose memory map has one available entry, given by the low and the high
words of its base and its length. -/
def mapBlock (baseLo baseHi lengthLo lengthHi : ℕ) : Mem :=
  let m : Mem := fun _ => 0
  let m := m.write32 0x9000 56
  let m := (m.write32 0x9008 tagMmap).write32 0x900C 40
  let m := m.write32 0x9010 24
  let m := (m.write32 0x9018 baseLo).write32 0x901C baseHi
  let m := (m.write32 0x9020 lengthLo).write32 0x9024 lengthHi
  let m := m.write32 0x9028 memoryAvailable
  m.write32 0x9034 8

/-- Memory from 2 MiB to 128 MiB. -/
def smallMap : Mem := mapBlock 0x200000 0 0x7E00000 0

theorem smallMap_wf : InfoBlock smallMap 0x9000 [⟨0x9008, tagMmap, 40⟩] where
  nonnull := by decide
  chain := by
    refine ⟨rfl, by decide +kernel, by decide +kernel, by decide, ⟨?_, ?_, ?_⟩, ?_, ?_, ?_⟩
    all_goals decide +kernel
  fits := by decide +kernel

/-- A block at `0x9000` as a boot loader leaves it: the command line `quiet`, whose tag is padded,
a module at `[0x201000, 0x204000)`, and a memory map with low and high memory. -/
def bootBlock : Mem :=
  let m : Mem := fun _ => 0
  let m := m.write32 0x9000 0x78
  let m := (m.write32 0x9008 1).write32 0x900C 14
  let m := (m.write32 0x9010 0x65697571).write32 0x9014 0x74
  let m := (m.write32 0x9018 tagModule).write32 0x901C 17
  let m := (m.write32 0x9020 0x201000).write32 0x9024 0x204000
  let m := (m.write32 0x9030 tagMmap).write32 0x9034 64
  let m := m.write32 0x9038 24
  let m := (m.write32 0x9048 0x9F000).write32 0x9050 memoryAvailable
  let m := (m.write32 0x9058 0x100000).write32 0x9060 0x7F00000
  let m := m.write32 0x9068 memoryAvailable
  m.write32 0x9074 8

/-- The tags of `bootBlock`. -/
def bootTags : List Tag := [⟨0x9008, 1, 14⟩, ⟨0x9018, tagModule, 17⟩, ⟨0x9030, tagMmap, 64⟩]

theorem bootBlock_wf : InfoBlock bootBlock 0x9000 bootTags where
  nonnull := by decide
  chain := by
    refine ⟨rfl, by decide +kernel, by decide +kernel, by decide, ⟨?_, ?_, ?_⟩, ?_⟩
    · decide
    · exact fun hm => absurd hm (by decide)
    · exact fun hm => absurd hm (by decide)
    refine ⟨rfl, by decide +kernel, by decide +kernel, by decide, ⟨?_, ?_, ?_⟩, ?_⟩
    · decide
    · exact fun hm => absurd hm (by decide)
    · exact fun hm => absurd hm (by decide)
    refine ⟨rfl, by decide +kernel, by decide +kernel, by decide, ⟨?_, ?_, ?_⟩, ?_, ?_, ?_⟩
    all_goals decide +kernel
  fits := by decide +kernel

end Multiboot

end Shiro
