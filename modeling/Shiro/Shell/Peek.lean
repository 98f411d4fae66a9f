import Shiro.Lib.Reads
import Shiro.Shell.Numbers

/-!
# Reading the memory by hand

`peek` and `dumpmem` take a hexadecimal address and print what stands there.  `ParseHex` shifts the
digits into 32 bits and never looks at what falls out on the left, so a number that is too long for
an address is taken for another one.

* `cmdPeek`, `cmdDumpmem` : `Commands::cmd_peek` and `Commands::cmd_dumpmem`.
* `Typed` : an address was typed.
* `ReadsTyped` : the commands read at the address that was typed, or nothing.
* `reads_typed_iff` : **exactly when** they do.
-/

namespace Shiro

open Reads Stores

/-! ### The commands -/

/-- What `Print` is passed: a literal, or the buffer with these stores. -/
inductive Printed where
  | str (s : List UInt8)
  | buf (c : Stores ℕ)

/-- The line of `peek`. -/
def peekLine (addr value : ℕ) : Stores ℕ := do
  let j ← Commands.appendStr 0 80 (text "[")
  let j := j + (← (Commands.hexToStr addr (80 - j)).offset j)
  let j ← Commands.appendStr j 80 (text "] = ")
  let j := j + (← (Commands.hexToStr value (80 - j)).offset j)
  return j

/-- `cmd_peek(args)`, whose variable `addr` is not initialised. -/
def cmdPeek (addr : ℕ) (args : List UInt8) : Reads ℕ UInt8 (List Printed) := do
  let (ok, addr) := parseHex args addr
  if !ok then
    return [.str (text "usage: peek <hex-address>"), .str (text "example: peek 0xB8000")]
  else do
    let addr := andNot 32 addr 3
    let value ← read32 addr
    return [.buf (peekLine addr value)]

/-- The loop over the hex bytes of a row. -/
def hexColumn (bytes : List UInt8) (j : ℕ) : Stores ℕ :=
  bytes.zipIdx.foldlM (fun j (b, col) => do
    let hex := text "0123456789abcdef"
    let j ← puts j [hex.getD (b.toNat >>> 4) 0, hex.getD (b.toNat &&& 0xF) 0, 32]
    if col = 7 then puts j [32] else return j) j

/-- The loop over the characters of a row. -/
def asciiColumn (bytes : List UInt8) (j : ℕ) : Stores ℕ :=
  bytes.foldlM (fun j b => puts j [if b ≥ 0x20 ∧ b < 0x7F then b else 46]) j

/-- A row of `dumpmem`, from the bytes that its two loops read. -/
def dumpRow (addr : ℕ) (hexBytes asciiBytes : List UInt8) : Stores ℕ := do
  let j ← Commands.hexToStr addr 80
  let j ← Commands.appendStr j 80 (text ":  ")
  let j ← hexColumn hexBytes j
  let j ← puts j [32]
  let j ← asciiColumn asciiBytes j
  put j 0
  return j

/-- The body of the loop of `dumpmem`: the string that the row `row` prints. -/
def dumpRowReads (addr row : ℕ) : Reads ℕ UInt8 Printed := do
  let hexBytes ← readBytes (addr + row * 16) 16
  let asciiBytes ← readBytes (addr + row * 16) 16
  return .buf (dumpRow (u32 (addr + row * 16)) hexBytes asciiBytes)

/-- `cmd_dumpmem(args)`, whose variable `addr` is not initialised. -/
def cmdDumpmem (addr : ℕ) (args : List UInt8) : Reads ℕ UInt8 (List Printed) := do
  let (ok, addr) := parseHex args addr
  if !ok then return [.str (text "usage: dumpmem <hex-address>")]
  else do
    let addr := andNot 32 addr 0xF
    (List.range 4).foldlM (fun printed row => do return printed ++ [← dumpRowReads addr row]) []

/-! ### What they should read -/

/-- The number at the start of a string. -/
def typedNumber (s : List UInt8) : ℕ := numeralValue 16 (hexRun s)

/-- An address was typed. -/
def Typed (s : List UInt8) : Prop := hexRun s ≠ [] ∧ typedNumber s < 2 ^ 32

instance (s : List UInt8) : Decidable (Typed s) := inferInstanceAs (Decidable (_ ∧ _))

/-- The `n` bytes from the address `a` on are read if `p` holds, and nothing else is. -/
def ReadsExactly (c : Reads ℕ UInt8 (List Printed)) (p : Prop) (a n : ℕ) : Prop :=
  ∀ m x, x ∈ c.trace m ↔ p ∧ ∃ k < n, x = u32 (a + k)

/-- `ParseHex` returns the address that was typed, and the commands read there, or nothing. -/
structure ReadsTyped (s : List UInt8) : Prop where
  parse : ∀ out, parseHex s out = if Typed s then (true, typedNumber s) else (false, out)
  peek : ∀ addr, ReadsExactly (cmdPeek addr s) (Typed s) (typedNumber s / 4 * 4) 4
  dumpmem : ∀ addr, ReadsExactly (cmdDumpmem addr s) (Typed s) (typedNumber s / 16 * 16) 64

variable {m : Mem} {P : ℕ → Prop} {s : List UInt8} {a addr n : ℕ}

/-- A computation that reads a range of bytes. -/
theorem readsExactly_of_within {c : Reads ℕ UInt8 (List Printed)} {p : Prop}
    (h : ∀ m P, c.Within m P ↔ (p → Bytes P a n)) : ReadsExactly c p a n := by
  intro m x
  constructor
  · intro hx
    refine (h m fun x => p ∧ ∃ k < n, x = u32 (a + k)).2 (fun hp k hk => ⟨hp, k, hk, rfl⟩) x hx
  · rintro ⟨hp, k, hk, rfl⟩
    exact (h m (· ∈ c.trace m)).1 (fun x hx => hx) hp k hk

/-- The rows of a dump. -/
theorem bytes_rows (P : ℕ → Prop) (a : ℕ) :
    (∀ row ∈ List.range 4, Bytes P (a + row * 16) 16) ↔ Bytes P a 64 := by
  constructor
  · intro h k hk
    have := h (k / 16) (List.mem_range.2 (by omega)) (k % 16) (by omega)
    rwa [Nat.add_assoc, show k / 16 * 16 + k % 16 = k by omega] at this
  · intro h row hrow
    have := List.mem_range.1 hrow
    exact h.sub (by omega)

/-- **When the number fits, the commands read where they should.** -/
theorem reads_typed (h : typedNumber s < 2 ^ 32) : ReadsTyped s := by
  have hparse : ∀ out, parseHex s out =
      if Typed s then (true, typedNumber s) else (false, out) := by
    intro out
    rw [parseHex_eq, ← typedNumber, u32_of_lt h]
    by_cases hrun : hexRun s = []
    · rw [if_pos hrun, if_neg fun ht => ht.1 hrun]
    · rw [if_neg hrun, if_pos ⟨hrun, h⟩]
  refine ⟨hparse, fun addr => readsExactly_of_within fun m P => ?_,
    fun addr => readsExactly_of_within fun m P => ?_⟩
  · have hround : andNot 32 (typedNumber s) 3 = typedNumber s / 4 * 4 :=
      andNot_two_pow (k := 2) h (by decide)
    rw [cmdPeek, hparse]
    by_cases ht : Typed s
    · simp [ht, hround]
    · simp [ht]
  · have hround : andNot 32 (typedNumber s) 0xF = typedNumber s / 16 * 16 :=
      andNot_two_pow (k := 4) h (by decide)
    rw [cmdDumpmem, hparse]
    by_cases ht : Typed s
    · rw [if_pos ht, forall_prop_of_true ht, ← bytes_rows P (typedNumber s / 16 * 16)]
      dsimp only
      rw [if_neg (by decide), hround]
      refine within_foldlM_iff (fun printed row _ => ?_) []
      simp [dumpRowReads]
    · simp [ht]

/-- A number that is too long is taken for another one. -/
theorem not_parse (h : 2 ^ 32 ≤ typedNumber s) :
    parseHex s 0 ≠ if Typed s then (true, typedNumber s) else (false, 0) := by
  have hrun : hexRun s ≠ [] := by
    intro hnil
    rw [typedNumber, hnil] at h
    exact absurd h (by decide)
  rw [parseHex_eq, if_neg hrun, if_neg fun ht => absurd ht.2 (by omega)]
  intro heq
  cases congrArg Prod.fst heq

/-- **`ParseHex` returns the number that was typed, and `peek` and `dumpmem` read there or
nothing**, if and only if it is below `2 ^ 32`. -/
theorem reads_typed_iff (s : List UInt8) : ReadsTyped s ↔ typedNumber s < 2 ^ 32 := by
  constructor
  · intro h
    by_contra hlarge
    exact not_parse (Nat.le_of_not_lt hlarge) (h.parse 0)
  · exact reads_typed

/-- `peek 100000000` reads address zero. -/
theorem not_reads_typed_nine : ¬ ∀ s, ReadsTyped s := by
  intro hall
  exact not_parse (by decide +kernel) ((hall (text "100000000")).parse 0)

end Shiro
