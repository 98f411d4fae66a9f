import Shiro.Keyboard.Basic
import Shiro.Lib.Lts

/-!
# The shell's update

The main loop calls `Shell::Update`, which reads the keyboard buffer, and the keyboard interrupt
changes that buffer between any two of its statements.  Statements that touch neither the buffer
nor its flag nor the static buffer of `concat` are left out: the function keys, and the painting of
the footer and of the screen.  The search may read the flag behind the array, which is no newline;
the copy stops at the end of the array.

* `UpdatePc` : the statements of `Update`, with its variables.
* `Console`, `Console.step` : the driver and the shell, and their steps.
* `Console.typed`, `Console.draft` : what the keys pressed so far mean, line by line.
-/

namespace Shiro

/-- The statements of `Shell::Update`. -/
inductive UpdatePc where
  /-- Outside of `Update`. -/
  | idle
  /-- `wupd = was_updated;` -/
  | readFlag (size : ℕ)
  /-- `UpdateNotification(false);` -/
  | clearFlag (size : ℕ)
  /-- A round of the search for a newline. -/
  | scan (size i : ℕ) (execute : Bool)
  /-- `if (execute == true && keyboardBufferSize > 1)` -/
  | branch (size : ℕ) (execute : Bool)
  /-- The newline at the end is left out. -/
  | strip (size : ℕ)
  /-- A round of the copy into `command`. -/
  | copy (stop i : ℕ) (command : List UInt8)
  /-- `concat("Shiro> ", command)` -/
  | concat (command : List UInt8)
  /-- `WriteCEcho` of its static buffer. -/
  | echo (command : List UInt8)
  /-- `buffer[0] = '\0';` -/
  | reset (command : List UInt8)
  /-- `UpdateNotification(true);` -/
  | notify (command : List UInt8)
  /-- `Execute(command);` -/
  | execute (command : List UInt8)
  deriving DecidableEq, Repr

/-- The keyboard driver and the shell, and what has been typed. -/
structure Console where
  kbd : Keyboard
  pc : UpdatePc
  /-- The lines echoed. -/
  echoed : List (List UInt8)
  /-- The commands passed to `Execute`. -/
  executed : List (List UInt8)
  /-- The line being typed. -/
  draft : List UInt8
  /-- The lines typed: ended by Enter. -/
  typed : List (List UInt8)
  /-- No key has made a character since the last `Update` began. -/
  quiet : Bool

/-- What happens. -/
inductive ConsoleEvent where
  /-- The keyboard interrupt, where the ports read `status` and `sc`. -/
  | key (status sc : UInt8)
  /-- The main loop calls `Update`, which reads the size of the buffer. -/
  | update
  /-- The next statement of `Update`. -/
  | next
  deriving DecidableEq

namespace Console

/-- `"Shiro> "` -/
def prompt : List UInt8 := Keyboard.bytes ['S', 'h', 'i', 'r', 'o', '>', ' ']

/-- The driver and the shell as they are started. -/
def boot : Console where
  kbd := {
    buffer := List.replicate 50 0
    wasUpdated := false
    functionKey := 0
    shiftPressed := false
    ctrlPressed := false
    altPressed := false
    capsLock := false
    extendedPrefix := false
    scratch := [] }
  pc := .idle
  echoed := []
  executed := []
  draft := []
  typed := []
  quiet := false

/-- What a character means to the one who types it. -/
def edit (s : Console) (c : UInt8) : Console :=
  if c = backspace then { s with draft := s.draft.dropLast }
  else if c = newline then
    if s.draft = [] then s else { s with draft := [], typed := s.typed ++ [s.draft] }
  else { s with draft := s.draft ++ [c] }

/-- A key that may be pressed: Backspace, Enter, or a printable character while the line has less
than forty. -/
def Typable (s : Console) (c : UInt8) : Prop :=
  c = backspace ∨ c = newline ∨ 32 ≤ c ∧ c ≤ 126 ∧ s.draft.length < 40

instance (s : Console) (c : UInt8) : Decidable (s.Typable c) := inferInstanceAs (Decidable (_ ∨ _))

/-- The keyboard interrupt. -/
def key (s : Console) (status sc : UInt8) : Option Console :=
  let t := { s with kbd := s.kbd.handler status sc }
  match s.kbd.char status sc with
  | none => some t
  | some c => if s.Typable c then some { t.edit c with quiet := false } else none

/-- A statement of `Update`. -/
def next (s : Console) : Option Console :=
  match s.pc with
  | .idle => none
  | .readFlag size =>
    some { s with pc := if s.kbd.wasUpdated then .clearFlag size else .idle }
  | .clearFlag size =>
    some { s with kbd := { s.kbd with wasUpdated := false }, pc := .scan size 0 false }
  | .scan size i execute =>
    if i < size then
      some { s with pc := .scan size (i + 1) (execute || s.kbd.buffer.getD i 0 == newline) }
    else some { s with pc := .branch size execute }
  | .branch size execute =>
    some { s with pc := if execute && decide (size > 1) then .strip size else .idle }
  | .strip size =>
    let stop := if size > 0 ∧ s.kbd.buffer.getD (size - 1) 0 = newline then size - 1 else size
    some { s with pc := .copy (if stop > 50 then 50 else stop) 0 [] }
  | .copy stop i command =>
    if i < stop then
      some { s with pc := .copy stop (i + 1) (command ++ [s.kbd.buffer.getD i 0]) }
    else some { s with pc := .concat command }
  | .concat command =>
    some { s with
      kbd := { s.kbd with scratch := Shiro.concat prompt command }, pc := .echo command }
  | .echo command =>
    some { s with echoed := s.echoed ++ [s.kbd.scratch], pc := .reset command }
  | .reset command =>
    some { s with kbd := { s.kbd with buffer := s.kbd.buffer.set 0 0 }, pc := .notify command }
  | .notify command =>
    some { s with kbd := { s.kbd with wasUpdated := true }, pc := .execute command }
  | .execute command =>
    some { s with executed := s.executed ++ [cstr command], pc := .idle }

/-- One step. -/
def step (s : Console) : ConsoleEvent → Option Console
  | .key status sc => s.key status sc
  | .update =>
    if s.pc = .idle then some { s with pc := .readFlag s.kbd.bufferSize, quiet := true } else none
  | .next => s.next

/-- The runs of the console. -/
def lts : Lts Console ConsoleEvent := Lts.det (· = boot) step

end Console

end Shiro
