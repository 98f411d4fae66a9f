import Shiro.Lib.CString

/-!
# The keyboard driver

`Keyboard::Handler` turns scancodes of set 1 into characters and keeps the line being typed in a
buffer of fifty bytes, which the shell reads.  The messages written to the serial log are left out.
What is stored behind the fifty bytes goes to `was_updated`.

* `Keyboard` : the static variables of the driver, and the static buffer of `concat`.
* `Keyboard.handler` : the interrupt handler.
* `Keyboard.char` : the character that a scancode makes, if any.
* `handler_of_some` : **the handler types that character.**
* `handler_of_none` : **it leaves the line alone** if there is none.
-/

namespace Shiro

/-- `'\b'` -/
def backspace : UInt8 := 8

/-- `'\n'` -/
def newline : UInt8 := 10

/-- `sizeof(buffer)` of `concat`. -/
def concatSize : ℕ := 256

/-- `concat(first, second)`: the string left in its static buffer. -/
def concat (first second : List UInt8) : List UInt8 :=
  (cstr first ++ cstr second).take (concatSize - 1)

/-- The static variables of `System::Drivers::Keyboard`, and of `concat`. -/
structure Keyboard where
  buffer : List UInt8
  wasUpdated : Bool
  functionKey : ℕ
  shiftPressed : Bool
  ctrlPressed : Bool
  altPressed : Bool
  capsLock : Bool
  extendedPrefix : Bool
  /-- The string in the static buffer of `concat`. -/
  scratch : List UInt8

namespace Keyboard

/-! ### The layout -/

/-- The bytes of characters. -/
def bytes (cs : List Char) : List UInt8 := cs.map Char.toUInt8

/-- What `Unshifted` returns for the codes from `0x00` to `0x39`; `0` where it returns no character. -/
def unshiftedTable : List UInt8 :=
  [0, 27] ++ bytes ['1', '2', '3', '4', '5', '6', '7', '8', '9', '0', '-', '='] ++
    [backspace, 9] ++ bytes ['q', 'w', 'e', 'r', 't', 'y', 'u', 'i', 'o', 'p', '[', ']'] ++
    [newline, 0] ++ bytes ['a', 's', 'd', 'f', 'g', 'h', 'j', 'k', 'l', ';'] ++
    [39, 96, 0, 92] ++ bytes ['z', 'x', 'c', 'v', 'b', 'n', 'm', ',', '.', '/'] ++
    [0] ++ bytes ['*'] ++ [0] ++ bytes [' ']

/-- What `Shifted` returns for the same codes. -/
def shiftedTable : List UInt8 :=
  [0, 27] ++ bytes ['!', '@', '#', '$', '%', '^', '&', '*', '(', ')', '_', '+'] ++
    [backspace, 9] ++ bytes ['Q', 'W', 'E', 'R', 'T', 'Y', 'U', 'I', 'O', 'P', '{', '}'] ++
    [newline, 0] ++ bytes ['A', 'S', 'D', 'F', 'G', 'H', 'J', 'K', 'L', ':'] ++
    [34, 126, 0, 124] ++ bytes ['Z', 'X', 'C', 'V', 'B', 'N', 'M', '<', '>', '?'] ++
    [0] ++ bytes ['*'] ++ [0] ++ bytes [' ']

/-- `Unshifted(code)` -/
def unshifted (code : ℕ) : UInt8 := unshiftedTable.getD code 0

/-- `Shifted(code)` -/
def shifted (code : ℕ) : UInt8 := shiftedTable.getD code 0

example : unshifted 0x1E = 97 ∧ shifted 0x1E = 65 ∧ unshifted 0x39 = 32 ∧ shifted 0x3A = 0 := by
  decide

/-- Caps Lock inverts the case of letters. -/
def applyCaps (caps : Bool) (c : UInt8) : UInt8 :=
  if caps ∧ 97 ≤ c ∧ c ≤ 122 then c - 32
  else if caps ∧ 65 ≤ c ∧ c ≤ 90 then c + 32
  else c

/-! ### The buffer -/

/-- The bytes from `buffer` on: the array of fifty, and `was_updated`, which lies behind it.  Then
comes a byte of padding, which is zero. -/
def memory (k : Keyboard) : List UInt8 := k.buffer ++ [if k.wasUpdated then 1 else 0]

/-- These bytes are stored from `buffer` on. -/
def setMemory (k : Keyboard) (m : List UInt8) : Keyboard :=
  { k with buffer := m.take 50, wasUpdated := decide (m.getD 50 0 ≠ 0) }

/-- `GetBufferSize()` -/
def bufferSize (k : Keyboard) : ℕ := strlen k.memory

/-- `UpdateNotification(flag)` -/
def updateNotification (k : Keyboard) (flag : Bool) : Keyboard := { k with wasUpdated := flag }

/-- `BufferRemoveOne()` -/
def bufferRemoveOne (k : Keyboard) : Keyboard :=
  (if k.bufferSize > 0 then k.setMemory (k.memory.set (k.bufferSize - 1) 0)
    else k).updateNotification true

/-- `BufferAdd(command)`.  The handler never passes the literal that the cap makes an exception
for: the two pointers that are compared are always different.  Nor does the cap leave room for the
NUL of a line of fifty, which is stored to `was_updated`. -/
def bufferAdd (k : Keyboard) (command : List UInt8) : Keyboard :=
  if k.bufferSize ≥ 50 then k
  else if k.bufferSize > 0 then
    let string := concat k.memory command
    ({ k with scratch := string }.setMemory (strcpy k.memory string)).updateNotification true
  else (k.setMemory (strcpy k.memory command)).updateNotification true

/-! ### The handler -/

/-- The end of the handler: Backspace, Enter, and the other characters. -/
def type (k : Keyboard) (c : UInt8) : Keyboard :=
  if c = backspace then if k.bufferSize > 0 then k.bufferRemoveOne else k
  else if c = newline then if k.bufferSize = 0 then k else k.bufferAdd [newline]
  else k.bufferAdd [c]

/-- The printable character of a key. -/
def lookup (k : Keyboard) (code : ℕ) : UInt8 :=
  applyCaps k.capsLock (if k.shiftPressed then shifted code else unshifted code)

/-- `Handler()`, where the ports `0x64` and `0x60` read `status` and `sc`. -/
def handler (k : Keyboard) (status sc : UInt8) : Keyboard :=
  if status &&& 1 = 0 then k
  else if sc = 0xE0 then { k with extendedPrefix := true }
  else
    let released := decide (sc &&& 0x80 ≠ 0)
    let code := (sc &&& 0x7F).toNat
    if k.extendedPrefix then { k with extendedPrefix := false }
    else if code = 0x2A ∨ code = 0x36 then { k with shiftPressed := !released }
    else if code = 0x1D then { k with ctrlPressed := !released }
    else if code = 0x38 then { k with altPressed := !released }
    else if code = 0x3A then if !released then { k with capsLock := !k.capsLock } else k
    else if released then k
    else if code ≥ 0x3B ∧ code ≤ 0x3F then { k with functionKey := code - 0x3A }
    else
      let c := k.lookup code
      if c = 0 then k else k.type c

/-- The scancode makes no character: there is none, or it begins or ends a prefixed one, belongs to
a modifier or a function key, is a release, or is not in the layout. -/
def Passive (k : Keyboard) (status sc : UInt8) : Prop :=
  let code := (sc &&& 0x7F).toNat
  status &&& 1 = 0 ∨ sc = 0xE0 ∨ k.extendedPrefix ∨ (code = 0x2A ∨ code = 0x36) ∨ code = 0x1D ∨
    code = 0x38 ∨ code = 0x3A ∨ sc &&& 0x80 ≠ 0 ∨ (code ≥ 0x3B ∧ code ≤ 0x3F) ∨ k.lookup code = 0

instance (k : Keyboard) (status sc : UInt8) : Decidable (k.Passive status sc) :=
  inferInstanceAs (Decidable (_ ∨ _))

/-- The character that reaches the end of the handler. -/
def char (k : Keyboard) (status sc : UInt8) : Option UInt8 :=
  if k.Passive status sc then none else some (k.lookup (sc &&& 0x7F).toNat)

/-- What the shell reads and shares with the driver. -/
def line (k : Keyboard) : List UInt8 × Bool × List UInt8 := (k.buffer, k.wasUpdated, k.scratch)

/-- **A scancode that makes no character leaves the line alone.** -/
theorem handler_of_none {k : Keyboard} {status sc : UInt8} (h : k.char status sc = none) :
    (k.handler status sc).line = k.line := by
  have hp : k.Passive status sc := by
    by_contra hp
    rw [char, if_neg hp] at h
    cases h
  rw [handler]
  by_cases h1 : status &&& 1 = 0
  · rw [if_pos h1]
  rw [if_neg h1]
  by_cases h2 : sc = 0xE0
  · rw [if_pos h2]
    rfl
  rw [if_neg h2]
  dsimp only
  by_cases h3 : k.extendedPrefix = true
  · rw [if_pos h3]
    rfl
  rw [if_neg h3]
  by_cases h4 : (sc &&& 0x7F).toNat = 0x2A ∨ (sc &&& 0x7F).toNat = 0x36
  · rw [if_pos h4]
    rfl
  rw [if_neg h4]
  by_cases h5 : (sc &&& 0x7F).toNat = 0x1D
  · rw [if_pos h5]
    rfl
  rw [if_neg h5]
  by_cases h6 : (sc &&& 0x7F).toNat = 0x38
  · rw [if_pos h6]
    rfl
  rw [if_neg h6]
  by_cases h7 : (sc &&& 0x7F).toNat = 0x3A
  · rw [if_pos h7]
    split <;> rfl
  rw [if_neg h7]
  by_cases h8 : decide (sc &&& 0x80 ≠ 0) = true
  · rw [if_pos h8]
  rw [if_neg h8]
  by_cases h9 : (sc &&& 0x7F).toNat ≥ 0x3B ∧ (sc &&& 0x7F).toNat ≤ 0x3F
  · rw [if_pos h9]
    rfl
  rw [if_neg h9]
  by_cases h10 : k.lookup (sc &&& 0x7F).toNat = 0
  · rw [if_pos h10]
  rw [if_neg h10]
  -- the last branch types a character
  rcases hp with h | h | h | h | h | h | h | h | h | h
  · exact absurd h h1
  · exact absurd h h2
  · exact absurd h h3
  · exact absurd h h4
  · exact absurd h h5
  · exact absurd h h6
  · exact absurd h h7
  · exact absurd (decide_eq_true h) h8
  · exact absurd h h9
  · exact absurd h h10

/-- **The handler types the character** that a scancode makes. -/
theorem handler_of_some {k : Keyboard} {status sc c : UInt8} (h : k.char status sc = some c) :
    k.handler status sc = k.type c := by
  obtain ⟨hp, hc⟩ := Option.ite_none_left_eq_some.1 h
  cases hc
  obtain ⟨h1, h2, h3, h4, h5, h6, h7, h8, h9, h10⟩ :
      ¬ status &&& 1 = 0 ∧ ¬ sc = 0xE0 ∧ ¬ k.extendedPrefix = true ∧
        ¬ ((sc &&& 0x7F).toNat = 0x2A ∨ (sc &&& 0x7F).toNat = 0x36) ∧
        ¬ (sc &&& 0x7F).toNat = 0x1D ∧ ¬ (sc &&& 0x7F).toNat = 0x38 ∧
        ¬ (sc &&& 0x7F).toNat = 0x3A ∧ ¬ sc &&& 0x80 ≠ 0 ∧
        ¬ ((sc &&& 0x7F).toNat ≥ 0x3B ∧ (sc &&& 0x7F).toNat ≤ 0x3F) ∧
        ¬ k.lookup (sc &&& 0x7F).toNat = 0 := by
    simpa only [Passive, not_or] using hp
  have h8' : ¬ decide (sc &&& 0x80 ≠ 0) = true := by simpa using h8
  simp only [handler, if_neg h1, if_neg h2, if_neg h3, if_neg h4, if_neg h5, if_neg h6, if_neg h7,
    if_neg h8', if_neg h9, if_neg h10]

/-! ### What typing does to the line -/

variable {k : Keyboard} {c : UInt8} {n : ℕ}

/-- The array has its size, and a NUL in it. -/
structure Terminated (k : Keyboard) : Prop where
  length : k.buffer.length = 50
  nul : strlen k.buffer < 50

theorem Terminated.lt (h : k.Terminated) : strlen k.buffer < k.buffer.length :=
  h.nul.trans_eq h.length.symm

theorem Terminated.cstr_memory (h : k.Terminated) : cstr k.memory = cstr k.buffer :=
  cstr_append_of_lt h.lt _

theorem Terminated.bufferSize_eq (h : k.Terminated) : k.bufferSize = strlen k.buffer := by
  rw [bufferSize, strlen, h.cstr_memory, strlen]

theorem Terminated.congr (h : k.Terminated) {k' : Keyboard} (hbuf : k'.buffer = k.buffer) :
    k'.Terminated :=
  ⟨hbuf ▸ h.length, hbuf ▸ h.nul⟩

theorem Terminated.bufferSize_congr (h : k.Terminated) {k' : Keyboard}
    (hbuf : k'.buffer = k.buffer) : k'.bufferSize = k.bufferSize := by
  rw [(h.congr hbuf).bufferSize_eq, h.bufferSize_eq, hbuf]

theorem Terminated.clear (h : k.Terminated) : { k with buffer := k.buffer.set 0 0 }.Terminated := by
  refine ⟨?_, ?_⟩
  · show (k.buffer.set 0 0).length = 50
    rw [List.length_set, h.length]
  · show strlen (k.buffer.set 0 0) < 50
    rw [strlen, cstr_set_zero]
    decide

/-- **A string stored to the array**, if it ends there. -/
theorem cstr_setMemory {m : List UInt8} (hnul : strlen m < m.length) (h : strlen m < 50)
    (b : Bool) : cstr ((k.setMemory m).updateNotification b).memory = cstr m :=
  cstr_take_append hnul h _

theorem terminated_setMemory {m : List UInt8} (hlen : m.length = 51) (h : strlen m < 50)
    (b : Bool) : ((k.setMemory m).updateNotification b).Terminated := by
  have hsame : cstr (m.take 50) = cstr m := by
    have := cstr_take_append (hlen ▸ h.trans (by decide)) h []
    rwa [List.append_nil] at this
  refine ⟨?_, ?_⟩
  · show (m.take 50).length = 50
    rw [List.length_take, hlen]
    rfl
  · show strlen (m.take 50) < 50
    rwa [strlen, hsame]

theorem Terminated.length_memory (h : k.Terminated) : k.memory.length = 51 := by
  rw [memory, List.length_append, h.length, List.length_singleton]

theorem Terminated.zeroTail_setMemory (h : k.Terminated) {m : List UInt8} (hlen : m.length = 51)
    (hm : strlen m < 50) (hz : ∀ j, ZeroTail k.memory j → ZeroTail m j)
    (htail : ZeroTail k.buffer n) (b : Bool) :
    ZeroTail ((k.setMemory m).updateNotification b).buffer n := by
  have hmemory := htail.append h.lt [if k.wasUpdated then 1 else 0]
  rw [h.length] at hmemory
  exact (hz _ hmemory).take (hlen ▸ hm.trans (by decide)) hm

theorem zero_notMem_snoc (hc : c ≠ 0) : 0 ∉ cstr k.memory ++ [c] := by
  intro h
  rcases List.mem_append.1 h with h | h
  · exact zero_notMem_cstr _ h
  · exact hc (List.mem_singleton.1 h).symm

/-- The length of a line with one more character. -/
theorem strlen_snoc (hc : c ≠ 0) : strlen (cstr k.memory ++ [c]) = k.bufferSize + 1 := by
  rw [strlen, cstr_eq_self (zero_notMem_snoc hc), List.length_append, List.length_singleton,
    bufferSize, strlen]

/-- What `BufferAdd` of a character stores, where the cap lets it through. -/
theorem bufferAdd_eq (hc : c ≠ 0) (hsize : k.bufferSize < 50) : ∃ scratch, k.bufferAdd [c] =
    ({ k with scratch := scratch }.setMemory
      (strcpy k.memory (cstr k.memory ++ [c]))).updateNotification true := by
  have hcstr : cstr [c] = [c] := cstr_eq_self (by simpa using hc.symm)
  unfold bufferAdd
  rw [if_neg (by omega)]
  split
  · have hstring : concat k.memory [c] = cstr k.memory ++ [c] := by
      rw [concat, hcstr, List.take_of_length_le]
      rw [List.length_append, List.length_singleton, ← strlen, ← bufferSize, concatSize]
      omega
    rw [hstring]
    exact ⟨_, rfl⟩
  · rename_i h0
    have hnil : cstr k.memory = [] := List.eq_nil_of_length_eq_zero (by
      rw [← strlen, ← bufferSize]
      omega)
    rw [hnil, List.nil_append]
    exact ⟨k.scratch, rfl⟩

/-- **`BufferAdd` of a character** to a line that leaves room for it and its NUL. -/
theorem cstr_bufferAdd (hc : c ≠ 0) (hsize : k.bufferSize < 49) :
    cstr (k.bufferAdd [c]).memory = cstr k.memory ++ [c] ∧ (k.bufferAdd [c]).wasUpdated = true := by
  obtain ⟨scratch, heq⟩ := bufferAdd_eq hc (hsize.trans (by decide))
  have hstrlen : strlen (strcpy k.memory (cstr k.memory ++ [c])) = k.bufferSize + 1 := by
    rw [strlen, cstr_strcpy, ← strlen, strlen_snoc hc]
  rw [heq]
  refine ⟨?_, rfl⟩
  rw [cstr_setMemory _ (by omega), cstr_strcpy, cstr_eq_self (zero_notMem_snoc hc)]
  rw [hstrlen, length_strcpy, strlen_snoc hc]
  omega

/-- **`BufferAdd` of a fiftieth character** puts its NUL on `was_updated`, which is then set: the
line does not end in the array. -/
theorem cstr_bufferAdd_full (hc : c ≠ 0) (hsize : k.bufferSize = 49) :
    cstr (k.bufferAdd [c]).memory = cstr k.memory ++ [c] ++ [1] := by
  have hlt : k.bufferSize < 50 := by omega
  obtain ⟨scratch, heq⟩ := bufferAdd_eq hc hlt
  have hlen : (cstr k.memory ++ [c]).length = 50 := by
    rw [List.length_append, List.length_singleton, ← strlen, ← bufferSize, hsize]
  have hstored : (strcpy k.memory (cstr k.memory ++ [c])).take 50 = cstr k.memory ++ [c] := by
    rw [strcpy, cstr_eq_self (zero_notMem_snoc hc), ← hlen, List.take_left]
  rw [heq]
  show cstr ((strcpy k.memory (cstr k.memory ++ [c])).take 50 ++ [1]) = _
  rw [hstored, cstr_append_of_notMem (zero_notMem_snoc hc)]
  rfl

/-- The array after `BufferAdd` of a character. -/
theorem Terminated.bufferAdd (h : k.Terminated) (hc : c ≠ 0) (hsize : k.bufferSize < 49) :
    (k.bufferAdd [c]).Terminated ∧ cstr (k.bufferAdd [c]).buffer = cstr k.buffer ++ [c] ∧
      (k.bufferAdd [c]).wasUpdated = true ∧
        ∀ n, ZeroTail k.buffer n → ZeroTail (k.bufferAdd [c]).buffer n := by
  obtain ⟨hcstr, hupdated⟩ := cstr_bufferAdd hc hsize
  obtain ⟨scratch, heq⟩ := bufferAdd_eq hc (hsize.trans (by decide))
  have hstrlen : strlen (strcpy k.memory (cstr k.memory ++ [c])) = k.bufferSize + 1 := by
    rw [strlen, cstr_strcpy, ← strlen, strlen_snoc hc]
  have hlen : (strcpy k.memory (cstr k.memory ++ [c])).length = 51 := by
    rw [length_strcpy, strlen_snoc hc, h.length_memory]
    omega
  have hterm : (k.bufferAdd [c]).Terminated := heq ▸ terminated_setMemory hlen (by omega) true
  refine ⟨hterm, ?_, hupdated, fun n hz => ?_⟩
  · rw [← hterm.cstr_memory, hcstr, h.cstr_memory]
  · rw [heq]
    refine Terminated.zeroTail_setMemory (k := { k with scratch := scratch }) ⟨h.length, h.nul⟩
      hlen (by omega) (fun j hj => hj.strcpy ?_) hz true
    rw [strlen_snoc hc]
    exact Nat.le_succ _

theorem type_char (hb : c ≠ backspace) (hn : c ≠ newline) : k.type c = k.bufferAdd [c] := by
  rw [type, if_neg hb, if_neg hn]

theorem type_newline (h : 0 < k.bufferSize) : k.type newline = k.bufferAdd [newline] := by
  rw [type, if_neg (by decide), if_pos rfl, if_neg (by omega)]

theorem type_newline_empty (h : k.bufferSize = 0) : k.type newline = k := by
  rw [type, if_neg (by decide), if_pos rfl, if_pos h]

/-- **Backspace** takes the last character off, if there is one and it lies in the array. -/
theorem cstr_backspace (hsize : k.bufferSize ≤ 50) :
    cstr (k.type backspace).memory = (cstr k.memory).dropLast := by
  rw [type, if_pos rfl]
  split
  · rename_i h
    have hcut : cstr (k.memory.set (k.bufferSize - 1) 0) = (cstr k.memory).dropLast := cstr_cut h
    have hstrlen : strlen (k.memory.set (k.bufferSize - 1) 0) = k.bufferSize - 1 := by
      rw [strlen, hcut, List.length_dropLast, bufferSize, strlen]
    have hle : k.bufferSize ≤ k.memory.length := (List.takeWhile_sublist _).length_le
    rw [bufferRemoveOne, if_pos h, cstr_setMemory _ (by omega), hcut]
    rw [hstrlen, List.length_set]
    omega
  · rename_i h
    have hnil : cstr k.memory = [] := List.eq_nil_of_length_eq_zero (by
      rw [← strlen, ← bufferSize]
      omega)
    rw [hnil]
    rfl

/-- The array after a Backspace. -/
theorem Terminated.type_backspace (h : k.Terminated) : (k.type backspace).Terminated ∧
    cstr (k.type backspace).buffer = (cstr k.buffer).dropLast ∧
      ∀ n, ZeroTail k.buffer n → ZeroTail (k.type backspace).buffer n := by
  have hsize := h.bufferSize_eq
  have hnul := h.nul
  have hcstr := cstr_backspace (k := k) (by omega)
  have hterm : (k.type backspace).Terminated ∧
      ∀ n, ZeroTail k.buffer n → ZeroTail (k.type backspace).buffer n := by
    rw [type, if_pos rfl]
    split
    · rename_i hpos
      have hlen : (k.memory.set (k.bufferSize - 1) 0).length = 51 := by
        rw [List.length_set, h.length_memory]
      have hstrlen : strlen (k.memory.set (k.bufferSize - 1) 0) < 50 := by
        rw [strlen, show cstr (k.memory.set (k.bufferSize - 1) 0) = _ from cstr_cut hpos,
          List.length_dropLast, ← strlen, ← bufferSize]
        omega
      rw [bufferRemoveOne, if_pos hpos]
      exact ⟨terminated_setMemory hlen hstrlen true, fun n hz =>
        h.zeroTail_setMemory hlen hstrlen (fun j hj => hj.cut hpos) hz true⟩
    · exact ⟨h, fun _ => id⟩
  refine ⟨hterm.1, ?_, hterm.2⟩
  rw [← hterm.1.cstr_memory, hcstr, h.cstr_memory]

end Keyboard

end Shiro
