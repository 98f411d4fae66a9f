import Mathlib.Data.List.DropRight
import Mathlib.Data.List.TakeWhile
import Shiro.Keyboard.Basic

/-!
# The command dispatcher

`Commands::Dispatch` takes the first word of a line for the name of a builtin and passes it the
rest of the line.  It means to tolerate newlines at the end of the line, but only the name stops at
a newline: the arguments keep them.  What the builtins do is not modelled here.

A string is given by the array it stands in; behind the end of the array there is its NUL.

* `strcmp`, `appendStr` : `Commands::Strcmp` and `Commands::AppendStr`.
* `Builtin`, `dispatch` : the table of builtins, and `Commands::Dispatch`.
* `meant` : what a line means.
* `dispatch_iff` : **blanks and newlines around a line are ignored** exactly when there are no
  newlines or no such builtin.
-/

namespace Shiro

/-- The bytes of a string of ASCII characters. -/
def text (s : String) : List UInt8 := s.toList.map Char.toUInt8

/-- A space or a tab. -/
def IsBlank (c : UInt8) : Prop := c = 32 ∨ c = 9

instance (c : UInt8) : Decidable (IsBlank c) := inferInstanceAs (Decidable (_ ∨ _))

/-! ### Strings -/

/-- `Strcmp(a, b)` -/
def strcmp : List UInt8 → List UInt8 → ℤ
  | [], b => -((b.headD 0).toNat : ℤ)
  | x :: a, b =>
    if x ≠ 0 ∧ x = b.headD 0 then strcmp a b.tail else (x.toNat : ℤ) - (b.headD 0).toNat

/-- `AppendStr(dst, idx, cap, s)`, where `dst` holds the `idx` bytes written so far: what it holds
afterwards. -/
def appendStr (dst : List UInt8) (cap : ℕ) (s : List UInt8) : List UInt8 :=
  dst ++ (cstr s).take (cap - 1 - dst.length)

/-! ### The dispatcher -/

/-- The functions of the table. -/
inductive Builtin where
  | help | ver | mem | pmm | paging | tasks | ls | cat | peek | dumpmem | uptime | ticks | date
  | clear | echo | cpuid | halt | reboot | panic
  deriving DecidableEq, Repr

/-- The name in the table. -/
def Builtin.name : Builtin → List UInt8
  | help => text "help"
  | ver => text "ver"
  | mem => text "mem"
  | pmm => text "pmm"
  | paging => text "paging"
  | tasks => text "tasks"
  | ls => text "ls"
  | cat => text "cat"
  | peek => text "peek"
  | dumpmem => text "dumpmem"
  | uptime => text "uptime"
  | ticks => text "ticks"
  | date => text "date"
  | clear => text "clear"
  | echo => text "echo"
  | cpuid => text "cpuid"
  | halt => text "halt"
  | reboot => text "reboot"
  | panic => text "panic"

/-- `Table()` -/
def builtins : List Builtin :=
  [.help, .ver, .mem, .pmm, .paging, .tasks, .ls, .cat, .peek, .dumpmem, .uptime, .ticks, .date,
    .clear, .echo, .cpuid, .halt, .reboot, .panic]

/-- What `Dispatch` does. -/
inductive Outcome where
  | nothing
  /-- It calls a builtin with this string. -/
  | run (builtin : Builtin) (args : List UInt8)
  /-- It prints this string. -/
  | print (text : List UInt8)
  deriving DecidableEq, Repr

/-- The loop that copies the name goes on behind this byte. -/
def InName (c : UInt8) : Prop := c ≠ 0 ∧ c ≠ 32 ∧ c ≠ 9 ∧ c ≠ newline

instance (c : UInt8) : Decidable (InName c) := inferInstanceAs (Decidable (_ ∧ _))

/-- `Dispatch(line)` -/
def dispatch (line : List UInt8) : Outcome :=
  let line := line.dropWhile fun c => IsBlank c
  if line.headD 0 = 0 ∨ line.headD 0 = newline then .nothing
  else
    let name := (line.takeWhile fun c => InName c).take 31
    let args := (line.drop name.length).dropWhile fun c => IsBlank c
    match builtins.find? fun b => strcmp name b.name = 0 with
    | some b => .run b (cstr args)
    | none => .print (appendStr (appendStr [] 80 (text "shiro: command not found: ")) 80 name)

/-! ### What a line means -/

/-- The first word of a line. -/
def firstWord (l : List UInt8) : List UInt8 :=
  (l.dropWhile fun c => IsBlank c).takeWhile fun c => ¬ IsBlank c

/-- The rest of the line, from its next word on. -/
def operands (l : List UInt8) : List UInt8 :=
  ((l.dropWhile fun c => IsBlank c).dropWhile fun c => ¬ IsBlank c).dropWhile fun c => IsBlank c

/-- The builtin of this name. -/
def builtinNamed (word : List UInt8) : Option Builtin := builtins.find? fun b => b.name = word

/-- What a line that is not blank means: the message names at most 31 bytes of the word. -/
def meant (l : List UInt8) : Outcome :=
  match builtinNamed (firstWord l) with
  | some b => .run b (operands l)
  | none => .print (text "shiro: command not found: " ++ (firstWord l).take 31)

variable {a b l w xs rest : List UInt8} {bi : Builtin} {t : ℕ}

/-! ### Strings -/

/-- **Two strings compare as equal** exactly when they are. -/
theorem strcmp_eq_zero_iff (a b : List UInt8) : strcmp a b = 0 ↔ cstr a = cstr b := by
  have hnat : ∀ x y : UInt8, (x.toNat : ℤ) - y.toNat = 0 ↔ x = y := by
    intro x y
    rw [Int.sub_eq_zero, Int.natCast_inj, UInt8.toNat_inj]
  have hhead : ∀ b : List UInt8, cstr b = [] ↔ b.headD 0 = 0 := by
    intro b
    cases b with
    | nil => simp
    | cons y b =>
      by_cases hy : y = 0
      · simp [hy]
      · simp [cstr_cons hy, hy]
  induction a generalizing b with
  | nil =>
    have hzero := hnat 0 (b.headD 0)
    rw [strcmp, cstr_nil, eq_comm (a := []), hhead]
    simpa [eq_comm] using hzero
  | cons x a ih =>
    rw [strcmp]
    by_cases hx : x = 0
    · rw [if_neg (fun h => h.1 hx), hnat, hx, cstr_zero_cons, eq_comm (a := []), hhead, eq_comm]
    · rw [cstr_cons hx]
      cases b with
      | nil =>
        have hnat0 : x.toNat ≠ 0 := fun h => hx (UInt8.toNat_inj.1 h)
        simp [hx, hnat0]
      | cons y b =>
        rw [List.headD_cons, List.tail_cons]
        by_cases hxy : x = y
        · subst hxy
          rw [if_pos ⟨hx, rfl⟩, cstr_cons hx, List.cons.injEq, and_iff_right rfl]
          exact ih b
        · rw [if_neg (fun h => hxy h.2), hnat]
          refine iff_of_false hxy ?_
          by_cases hy : y = 0
          · simp [hy]
          · simp [cstr_cons hy, hxy]

/-! ### Words -/

theorem length_name_le (b : Builtin) : b.name.length ≤ 7 ∧ 0 ∉ b.name := by
  cases b <;> decide

/-- Names are compared as they stand. -/
theorem strcmp_name_iff (h0 : 0 ∉ w) (b : Builtin) : strcmp w b.name = 0 ↔ b.name = w := by
  rw [strcmp_eq_zero_iff, cstr_eq_self h0, cstr_eq_self (length_name_le b).2, eq_comm]

/-- **The name buffer holds the name of every builtin**, so a word that is cut names none. -/
theorem find_take (h0 : 0 ∉ w) :
    (builtins.find? fun b => strcmp (w.take 31) b.name = 0) = builtinNamed w := by
  have hsame : ∀ b : Builtin, strcmp (w.take 31) b.name = 0 ↔ b.name = w := by
    intro b
    rw [strcmp_name_iff (fun h => h0 (List.mem_of_mem_take h))]
    have hlen := (length_name_le b).1
    constructor
    · intro heq
      have htake := congrArg List.length heq
      rw [List.length_take] at htake
      rw [heq, List.take_of_length_le (by omega)]
    · rintro rfl
      rw [List.take_of_length_le (by omega)]
  rw [builtinNamed]
  congr 1
  funext b
  rw [decide_eq_decide.2 (hsame b)]

/-- Behind blanks the line begins. -/
theorem dropWhile_blanks (hw : ∀ c ∈ w, IsBlank c) (rest : List UInt8) :
    (w ++ rest).dropWhile (fun c => IsBlank c) = rest.dropWhile fun c => IsBlank c := by
  rw [List.dropWhile_append_of_pos]
  intro c hc
  simpa using hw c hc

/-- Newlines are no blanks. -/
theorem dropWhile_newlines (rest : List UInt8) (t : ℕ) :
    (rest ++ List.replicate t newline).dropWhile (fun c => IsBlank c) =
      (rest.dropWhile fun c => IsBlank c) ++ List.replicate t newline := by
  have hnewlines : (List.replicate t newline).dropWhile (fun c => IsBlank c) =
      List.replicate t newline := by
    cases t with
    | zero => rfl
    | succ t => exact List.dropWhile_cons_of_neg (by decide)
  rw [List.dropWhile_append]
  split
  · rename_i hempty
    rw [hnewlines, List.isEmpty_iff.1 hempty, List.nil_append]
  · rfl

/-- A name ends at a blank, at a newline and at the end of the line. -/
theorem takeWhile_inName (hword : ∀ c ∈ w, InName c) (hrest : ∀ c ∈ rest.head?, IsBlank c) (t : ℕ) :
    (w ++ (rest ++ List.replicate t newline)).takeWhile (fun c => InName c) = w := by
  rw [List.takeWhile_append_of_pos (by simpa using hword)]
  have hstop : (rest ++ List.replicate t newline).takeWhile (fun c => InName c) = [] := by
    cases rest with
    | nil =>
      cases t with
      | zero => rfl
      | succ t => exact List.takeWhile_cons_of_neg (by decide)
    | cons c rest =>
      refine List.takeWhile_cons_of_neg ?_
      have hblank : IsBlank c := hrest c rfl
      rcases hblank with rfl | rfl <;> decide
  rw [hstop, List.append_nil]

/-! ### The dispatcher -/

/-- What `Dispatch` does with a word, its operands and newlines. -/
theorem dispatch_word (hw : ∀ c ∈ w, InName c) (hne : w ≠ []) (hrest : ∀ c ∈ rest.head?, IsBlank c)
    (h0 : 0 ∉ rest) (t : ℕ) :
    dispatch (w ++ (rest ++ List.replicate t newline)) =
      match builtinNamed w with
      | some b => .run b ((rest.dropWhile fun c => IsBlank c) ++ List.replicate t newline)
      | none => .print (text "shiro: command not found: " ++ w.take 31) := by
  have hw0 : 0 ∉ w := fun h => (hw 0 h).1 rfl
  obtain ⟨c, w', rfl⟩ := List.exists_cons_of_ne_nil hne
  have hc : InName c := hw c (.head _)
  have hdrop : (c :: w' ++ (rest ++ List.replicate t newline)).dropWhile (fun c => IsBlank c) =
      c :: w' ++ (rest ++ List.replicate t newline) := by
    refine List.dropWhile_cons_of_neg ?_
    have hnot : ¬ IsBlank c := fun h => h.elim hc.2.1 hc.2.2.1
    simpa using hnot
  rw [dispatch]
  dsimp only
  rw [hdrop, takeWhile_inName hw hrest]
  have hhead : ¬ ((c :: w' ++ (rest ++ List.replicate t newline)).headD 0 = 0 ∨
      (c :: w' ++ (rest ++ List.replicate t newline)).headD 0 = newline) := by
    rintro (h | h)
    · exact hc.1 h
    · exact hc.2.2.2 h
  rw [if_neg hhead, find_take hw0]
  cases hfind : builtinNamed (c :: w') with
  | some b =>
    have hname : b.name = c :: w' := by simpa using List.find?_some hfind
    have hlen : (c :: w').length ≤ 7 := hname ▸ (length_name_le b).1
    have hzero : 0 ∉ (rest.dropWhile fun c => IsBlank c) ++ List.replicate t newline := by
      intro hmem
      rcases List.mem_append.1 hmem with hmem | hmem
      · exact h0 (List.dropWhile_subset _ hmem)
      · exact absurd (List.eq_of_mem_replicate hmem) (by decide)
    dsimp only
    rw [List.take_of_length_le (by omega), List.drop_left, dropWhile_newlines, cstr_eq_self hzero]
  | none =>
    have hcstr : cstr ((c :: w').take 31) = (c :: w').take 31 :=
      cstr_eq_self fun h => hw0 (List.mem_of_mem_take h)
    have hlen : ((c :: w').take 31).length ≤ 31 := List.length_take_le _ _
    have hmessage : appendStr [] 80 (text "shiro: command not found: ") =
        text "shiro: command not found: " := by decide
    have hmessageLen : (text "shiro: command not found: ").length = 26 := by decide
    dsimp only
    rw [hmessage, appendStr, hcstr, hmessageLen, List.take_of_length_le (l := (c :: w').take 31)]
    omega

/-- Blanks in front of a line do not matter. -/
theorem dispatch_dropWhile (l : List UInt8) :
    dispatch (l.dropWhile fun c => IsBlank c) = dispatch l := by
  simp only [dispatch, List.dropWhile_idempotent]

/-- A line that is not blank is blanks, a word, and what stands behind the word. -/
theorem exists_word (hl : ∃ c ∈ l, ¬ IsBlank c) (hnl : newline ∉ l) (h0 : 0 ∉ l) :
    ∃ rest, (l.dropWhile fun c => IsBlank c) = firstWord l ++ rest ∧ firstWord l ≠ [] ∧
      (∀ c ∈ firstWord l, InName c) ∧ (∀ c ∈ rest.head?, IsBlank c) ∧ 0 ∉ rest ∧
      operands l = rest.dropWhile fun c => IsBlank c := by
  have hsub : ∀ c ∈ l.dropWhile fun c => IsBlank c, c ∈ l := fun c hc => List.dropWhile_subset _ hc
  refine ⟨(l.dropWhile fun c => IsBlank c).dropWhile fun c => ¬ IsBlank c,
    (List.takeWhile_append_dropWhile).symm, ?_, ?_, ?_, ?_, rfl⟩
  · have hne : (l.dropWhile fun c => IsBlank c) ≠ [] := by
      intro hnil
      obtain ⟨c, hc, hblank⟩ := hl
      exact hblank (by simpa using List.dropWhile_eq_nil_iff.1 hnil c hc)
    have hhead := List.head_dropWhile_not (fun c => decide (IsBlank c)) hne
    obtain ⟨c, l', heq⟩ := List.exists_cons_of_ne_nil hne
    rw [firstWord]
    simp only [heq, List.head_cons] at hhead ⊢
    rw [List.takeWhile_cons_of_pos (by simpa using hhead)]
    exact List.cons_ne_nil _ _
  · intro c hc
    have hmem := hsub c (List.takeWhile_subset _ hc)
    have hblank : ¬ IsBlank c := by simpa using List.mem_takeWhile_imp hc
    refine ⟨fun h => h0 (h ▸ hmem), fun h => hblank (.inl h), fun h => hblank (.inr h), ?_⟩
    exact fun h => hnl (h ▸ hmem)
  · intro c hc
    have hstop := List.head?_dropWhile_not (fun c => decide (¬ IsBlank c))
      (l.dropWhile fun c => IsBlank c)
    rw [Option.mem_def] at hc
    rw [hc] at hstop
    simpa using hstop
  · exact fun h => h0 (hsub 0 (List.dropWhile_subset _ h))

/-- **`Dispatch` ignores blanks in front of a line, and newlines behind it** exactly when there are
none of these or the line names no builtin. -/
theorem dispatch_iff (hw : ∀ c ∈ w, IsBlank c) (hl : ∃ c ∈ l, ¬ IsBlank c) (hnl : newline ∉ l)
    (h0 : 0 ∉ l) (t : ℕ) :
    dispatch (w ++ l ++ List.replicate t newline) = meant l ↔
      t = 0 ∨ builtinNamed (firstWord l) = none := by
  obtain ⟨rest, hsplit, hne, hword, hrest, hrest0, hoperands⟩ := exists_word hl hnl h0
  have hdispatch := dispatch_word hword hne hrest hrest0 t
  rw [← List.append_assoc, ← hsplit, ← dropWhile_newlines, dispatch_dropWhile] at hdispatch
  rw [List.append_assoc, ← dispatch_dropWhile, dropWhile_blanks hw, dispatch_dropWhile, hdispatch,
    meant, hoperands]
  cases builtinNamed (firstWord l) with
  | none => exact iff_of_true rfl (.inr rfl)
  | some b =>
    dsimp only
    rw [Outcome.run.injEq, and_iff_right rfl]
    constructor
    · intro heq
      have hlen := congrArg List.length heq
      rw [List.length_append, List.length_replicate] at hlen
      exact .inl (Nat.add_eq_left.1 hlen)
    · rintro (rfl | hnone)
      · exact List.append_nil _
      · cases hnone

/-- A tab, a line and no newline, and a word that is no builtin. -/
theorem dispatch_echo : dispatch (text "\techo a b") = meant (text "echo a b") :=
  (dispatch_iff (w := [9]) (l := text "echo a b") (by decide +kernel)
    (by decide +kernel) (by decide +kernel) (by decide +kernel) 0).2 (.inl rfl)

/-- A newline behind `cat motd.txt` becomes part of the name of the file. -/
theorem not_dispatch_cat : ¬ ∀ w l : List UInt8, ∀ t, (∀ c ∈ w, IsBlank c) →
    (∃ c ∈ l, ¬ IsBlank c) → newline ∉ l → 0 ∉ l →
      dispatch (w ++ l ++ List.replicate t newline) = meant l := by
  intro hall
  have hcat := hall [] (text "cat motd.txt") 1 (by decide +kernel) (by decide +kernel)
    (by decide +kernel) (by decide +kernel)
  exact absurd hcat (by decide +kernel)

end Shiro
