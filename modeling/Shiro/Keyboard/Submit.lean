import Shiro.Keyboard.Modifiers

/-!
# Submitting the line

The shell takes a line when Enter has put a newline behind it.  `BufferAdd` means to let Enter
through however long the line is, but it compares two pointers that are never the same, so Enter is
turned away like any other character once the line has fifty.  Behind forty-nine it is let through,
but then the line does not end behind it: the NUL is lost to `was_updated`.

* `Submits`, `Submittable` : what Enter should do, and the states in which it should do it.
* `submits_iff` : **Enter works** exactly while the line is shorter than forty-nine characters.
* `submittable_iff` : **it works all along a run** exactly when no character meets a line of
  forty-eight.
-/

namespace Shiro

namespace Keyboard

/-- Enter puts a newline behind the line and sets the update flag. -/
def Submits (k : Keyboard) : Prop :=
  cstr (k.handler 1 0x1C).memory = cstr k.memory ++ [newline] ∧
    (k.handler 1 0x1C).wasUpdated = true

/-- A line that is not empty can be submitted.  While a prefix is pending, the code of Enter belongs
to another key. -/
def Submittable (k : Keyboard) : Prop :=
  0 < k.bufferSize → k.extendedPrefix = false → k.Submits

instance (k : Keyboard) : Decidable k.Submits := inferInstanceAs (Decidable (_ ∧ _))

instance (k : Keyboard) : Decidable k.Submittable := inferInstanceAs (Decidable (_ → _ → _))

variable {k k' : Keyboard} {e : LineEvent} {status sc c : UInt8}

/-- Enter makes a newline, whatever the modifiers. -/
theorem char_enter (hpending : k.extendedPrefix = false) : k.char 1 0x1C = some newline := by
  have hlookup : k.lookup ((0x1C : UInt8) &&& 0x7F).toNat = newline := by
    rw [lookup]
    cases k.shiftPressed <;> cases k.capsLock <;> decide
  have hactive : ¬ k.Passive 1 0x1C := by
    rw [Passive, hpending, hlookup]
    decide
  rw [char, if_neg hactive, hlookup]

/-- A scancode that makes a character leaves no prefix pending. -/
theorem noPrefix_of_char (h : k.char status sc = some c) :
    (k.handler status sc).extendedPrefix = false := by
  obtain ⟨hp, -⟩ := Option.ite_none_left_eq_some.1 h
  simp only [Passive, not_or] at hp
  have hflags := flags_type k c
  simp only [flags, Prod.mk.injEq] at hflags
  rw [handler_of_some h, hflags.2.2.2]
  exact Bool.eq_false_iff.2 hp.2.2.1

/-- **Enter works** exactly while the line is shorter than forty-nine characters. -/
theorem submits_iff (hpos : 0 < k.bufferSize) (hpending : k.extendedPrefix = false) :
    k.Submits ↔ k.bufferSize < 49 := by
  have henter : k.handler 1 0x1C = k.bufferAdd [newline] :=
    (handler_of_some (char_enter hpending)).trans (type_newline hpos)
  rw [Submits, henter]
  constructor
  · rintro ⟨hcstr, -⟩
    by_contra hlong
    rcases Nat.eq_or_lt_of_le (Nat.le_of_not_lt hlong) with hfull | hover
    · -- the NUL of the line has become the flag
      rw [cstr_bufferAdd_full (by decide : newline ≠ 0) hfull.symm] at hcstr
      exact absurd hcstr (by simp)
    · have hsame : k.bufferAdd [newline] = k := if_pos hover
      rw [hsame] at hcstr
      exact absurd hcstr (by simp)
  · exact cstr_bufferAdd (by decide : newline ≠ 0)

/-- Enter finds room for the newline and for the NUL. -/
def HasRoom (k : Keyboard) : Prop := k.bufferSize ≤ 48

instance (k : Keyboard) : Decidable k.HasRoom := inferInstanceAs (Decidable (_ ≤ _))

theorem HasRoom.submittable (h : k.HasRoom) : k.Submittable := fun hpos hpending =>
  (submits_iff hpos hpending).2 (Nat.lt_succ_of_le h)

/-- **An event that meets the condition** leaves room for Enter. -/
theorem HasRoom.react (h : k.HasRoom) (hok : ¬ k.TypesBehind 48 e) : (k.react e).HasRoom := by
  have hsize : k.bufferSize ≤ 48 := h
  show (k.react e).bufferSize ≤ 48
  cases e with
  | reset =>
    rw [Keyboard.react, bufferSize_bufferReset]
    exact Nat.zero_le _
  | key status sc =>
    rw [Keyboard.react]
    cases hchar : k.char status sc with
    | none => rwa [bufferSize_of_none hchar]
    | some c =>
      rw [handler_of_some hchar]
      by_cases hb : c = backspace
      · rw [hb, bufferSize_backspace (by omega)]
        omega
      · have hne : k.bufferSize ≠ 48 := fun h48 => hok ⟨h48, c, hchar, hb⟩
        rw [bufferSize_type (char_ne_zero hchar) hb (by omega)]
        split <;> omega

/-- **A line of forty-nine characters** cannot be submitted. -/
theorem TypesBehind.not_submittable (h : k.TypesBehind 48 e) : ¬ (k.react e).Submittable := by
  cases e with
  | reset => exact h.elim
  | key status sc =>
    obtain ⟨h48, c, hchar, hb⟩ := h
    have hsize : (k.react (.key status sc)).bufferSize = 49 := by
      rw [Keyboard.react, handler_of_some hchar,
        bufferSize_type (char_ne_zero hchar) hb (by omega), if_neg (by omega), h48]
    intro hsubmit
    have hpos : 0 < (k.react (.key status sc)).bufferSize := by rw [hsize]; decide
    have hpending : (k.react (.key status sc)).extendedPrefix = false := noPrefix_of_char hchar
    have hlt := (submits_iff hpos hpending).1 (hsubmit hpos hpending)
    rw [hsize] at hlt
    exact lt_irrefl _ hlt

/-- **A line can be submitted at any time of a run** exactly when no Enter and no printable
character is typed behind forty-eight characters. -/
theorem submittable_iff (es : List LineEvent) :
    (∀ pre k, pre <+: es → lts.Run boot pre k → k.Submittable) ↔
      ∀ pre e k k', pre ++ [e] <+: es → lts.Run boot pre k → lts.step k e k' →
        ¬ k.TypesBehind 48 e := by
  refine Lts.Run.forall_iff es (I := HasRoom) (by decide) (fun k h => h.submittable) ?_ ?_
  · rintro k e _ h hok ⟨⟩
    exact h.react hok
  · rintro k e _ - hok ⟨⟩
    exact (not_not.1 hok).not_submittable

/-- The key `a` fifty times, and then Enter. -/
theorem not_submittable_fifty : ¬ ∀ k, lts.Reachable k → k.Submittable := by
  intro h
  obtain ⟨k, hk, hbad⟩ : ∃ k, lts.Reachable k ∧ (!decide k.Submittable) = true :=
    Lts.exists_reachable_det (f := fun k e => some (k.react e)) rfl (rfl : boot = boot)
      (List.replicate 50 (.key 1 0x1E)) _ (by decide +kernel)
  simp [h k hk] at hbad

end Keyboard

end Shiro
