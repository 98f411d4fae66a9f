import Shiro.Keyboard.Basic
import Shiro.Lib.Lts

/-!
# The cap on the line

The keyboard buffer has fifty bytes, one of them for the NUL.  `BufferAdd` turns a character away
once the line has fifty, so a line of forty-nine takes one more, and the NUL goes behind the array,
where `UpdateNotification` overwrites it.

* `LineEvent`, `Keyboard.lts` : scancodes and `BufferReset`, in any order.
* `Fits` : the line and its NUL lie in the array.
* `fits_iff` : **a run keeps to the array** exactly when no character meets a line of forty-nine.
-/

namespace Shiro

/-- What happens to the line. -/
inductive LineEvent where
  /-- `Handler()`, where the ports read `status` and `sc`. -/
  | key (status sc : UInt8)
  /-- `BufferReset()`. -/
  | reset
  deriving DecidableEq

namespace Keyboard

/-- The static variables as they are loaded. -/
def boot : Keyboard where
  buffer := List.replicate 50 0
  wasUpdated := false
  functionKey := 0
  shiftPressed := false
  ctrlPressed := false
  altPressed := false
  capsLock := false
  extendedPrefix := false
  scratch := []

/-- `BufferReset()` -/
def bufferReset (k : Keyboard) : Keyboard :=
  (k.setMemory (k.memory.set 0 0)).updateNotification true

/-- One event. -/
def react (k : Keyboard) : LineEvent → Keyboard
  | .key status sc => k.handler status sc
  | .reset => k.bufferReset

/-- The runs of the driver. -/
def lts : Lts Keyboard LineEvent := Lts.det (· = boot) fun k e => some (k.react e)

/-- The line and its NUL lie in the array. -/
def Fits (k : Keyboard) : Prop := k.bufferSize ≤ 49

instance (k : Keyboard) : Decidable k.Fits := inferInstanceAs (Decidable (_ ≤ _))

/-- Enter or a printable character is typed behind `n` characters. -/
def TypesBehind (n : ℕ) (k : Keyboard) : LineEvent → Prop
  | .key status sc => k.bufferSize = n ∧ ∃ c, k.char status sc = some c ∧ c ≠ backspace
  | .reset => False

/-- Enter or a printable character is typed behind forty-nine characters. -/
def Overfills (k : Keyboard) : LineEvent → Prop := TypesBehind 49 k

variable {k k' : Keyboard} {e : LineEvent} {status sc c : UInt8}

theorem char_ne_zero (h : k.char status sc = some c) : c ≠ 0 := by
  obtain ⟨hp, hc⟩ := Option.ite_none_left_eq_some.1 h
  cases hc
  simp only [Passive, not_or] at hp
  exact hp.2.2.2.2.2.2.2.2.2

/-- The length of the line after `BufferAdd` of a character. -/
theorem bufferSize_bufferAdd (hc : c ≠ 0) (h : k.bufferSize < 49) :
    (k.bufferAdd [c]).bufferSize = k.bufferSize + 1 := by
  rw [bufferSize, strlen, (cstr_bufferAdd hc h).1, List.length_append, List.length_singleton,
    bufferSize, strlen]

/-- The fiftieth character counts twice: the byte of `was_updated` is behind it. -/
theorem bufferSize_bufferAdd_full (hc : c ≠ 0) (h : k.bufferSize = 49) :
    (k.bufferAdd [c]).bufferSize = 51 := by
  rw [bufferSize, strlen, cstr_bufferAdd_full hc h, List.length_append, List.length_append,
    List.length_singleton, List.length_singleton, ← strlen, ← bufferSize, h]

theorem bufferSize_backspace (h : k.bufferSize ≤ 50) :
    (k.type backspace).bufferSize = k.bufferSize - 1 := by
  rw [bufferSize, strlen, cstr_backspace h, List.length_dropLast, bufferSize, strlen]

/-- **A character other than Backspace** makes the line longer, but for an Enter on an empty one. -/
theorem bufferSize_type (hc : c ≠ 0) (hb : c ≠ backspace) (h : k.bufferSize < 49) :
    (k.type c).bufferSize = if c = newline ∧ k.bufferSize = 0 then 0 else k.bufferSize + 1 := by
  by_cases hn : c = newline
  · subst hn
    by_cases h0 : k.bufferSize = 0
    · rw [type_newline_empty h0, if_pos ⟨rfl, h0⟩, h0]
    · rw [type_newline (Nat.pos_of_ne_zero h0), if_neg (fun hand => h0 hand.2),
        bufferSize_bufferAdd hc h]
  · rw [type_char hb hn, if_neg (fun hand => hn hand.1), bufferSize_bufferAdd hc h]

/-- A scancode that makes no character leaves the length alone. -/
theorem bufferSize_of_none (h : k.char status sc = none) :
    (k.handler status sc).bufferSize = k.bufferSize := by
  have hline := handler_of_none h
  simp only [line, Prod.mk.injEq] at hline
  rw [bufferSize, bufferSize, memory, memory, hline.1, hline.2.1]

theorem bufferSize_bufferReset (k : Keyboard) : k.bufferReset.bufferSize = 0 := by
  have hpos : 0 < k.memory.length := by
    rw [memory, List.length_append]
    exact Nat.lt_add_left _ Nat.zero_lt_one
  have hnil : strlen (k.memory.set 0 0) = 0 := by
    rw [strlen, cstr_set_zero]
    rfl
  rw [bufferSize, bufferReset, strlen, cstr_setMemory _ (by omega), ← strlen, hnil]
  rwa [hnil, List.length_set]

/-- **An event that meets the condition** keeps the line in the array. -/
theorem Fits.react (h : k.Fits) (hok : ¬ k.Overfills e) : (k.react e).Fits := by
  have hsize : k.bufferSize ≤ 49 := h
  show (k.react e).bufferSize ≤ 49
  cases e with
  | reset =>
    rw [Keyboard.react, bufferSize_bufferReset]
    exact Nat.zero_le _
  | key status sc =>
    rw [Keyboard.react]
    cases hchar : k.char status sc with
    | none => rwa [bufferSize_of_none hchar]
    | some c =>
      rw [handler_of_some hchar]
      by_cases hb : c = backspace
      · rw [hb, bufferSize_backspace (by omega)]
        omega
      · have hne : k.bufferSize ≠ 49 := fun h49 => hok ⟨h49, c, hchar, hb⟩
        rw [bufferSize_type (char_ne_zero hchar) hb (by omega)]
        split <;> omega

theorem Overfills.bufferSize_eq (h : k.Overfills e) : (k.react e).bufferSize = 51 := by
  cases e with
  | reset => exact h.elim
  | key status sc =>
    obtain ⟨h49, c, hchar, hb⟩ := h
    have hadd := bufferSize_bufferAdd_full (char_ne_zero hchar) h49
    rw [Keyboard.react, handler_of_some hchar]
    by_cases hn : c = newline
    · rw [hn] at hadd ⊢
      rwa [type_newline (by omega)]
    · rwa [type_char hb hn]

/-- **A character behind forty-nine others** puts the NUL behind the array. -/
theorem Overfills.not_fits (h : k.Overfills e) : ¬ (k.react e).Fits := by
  show ¬ _ ≤ 49
  rw [h.bufferSize_eq]
  decide

/-- **A run keeps to the array** exactly when no Enter and no printable character is typed behind
forty-nine characters. -/
theorem fits_iff (es : List LineEvent) :
    (∀ pre k, pre <+: es → lts.Run boot pre k → k.Fits) ↔
      ∀ pre e k k', pre ++ [e] <+: es → lts.Run boot pre k → lts.step k e k' →
        ¬ k.Overfills e := by
  refine Lts.Run.forall_iff es (I := Fits) (by decide) (fun _ h => h) ?_ ?_
  · rintro k e _ h hok ⟨⟩
    exact h.react hok
  · rintro k e _ - hok ⟨⟩
    exact (not_not.1 hok).not_fits

/-- The key `a` fifty times. -/
theorem not_fits_fifty : ¬ ∀ k, lts.Reachable k → k.Fits := by
  intro h
  obtain ⟨k, hk, hbad⟩ : ∃ k, lts.Reachable k ∧ (!decide k.Fits) = true :=
    Lts.exists_reachable_det (f := fun k e => some (k.react e)) rfl (rfl : boot = boot)
      (List.replicate 50 (.key 1 0x1E)) _ (by decide +kernel)
  simp [h k hk] at hbad

end Keyboard

end Shiro
