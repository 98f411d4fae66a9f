import Mathlib.Data.Finset.Basic
import Shiro.Keyboard.Cap

/-!
# The modifier keys

A keyboard reports each key that goes down, and each key that comes up, by a scancode of set 1; the
codes of some keys are prefixed by `0xE0`.  The driver has one flag for both Shift keys and clears
it when either of them comes up.

* `Key`, `Key.scancodes` : the keys, and what the keyboard sends.
* `Typist`, `Typist.lts` : the driver and the keys held down, and the presses and releases.
* `deliver_scancodes` : **what a press or a release does to the flags.**
* `TellsHeld` : the flags tell the keys held, and prefixed keys do nothing.
* `tellsHeld_iff` : **a run has this property** exactly when no Shift comes up while the other is held.
-/

namespace Shiro

/-- A key: whether its codes are prefixed, and its code.  No key has the code whose release would be
the prefix. -/
structure Key where
  extended : Bool
  code : Fin 128
  valid : code ≠ 0x60
  deriving DecidableEq

attribute [ext] Key

namespace Key

def leftShift : Key := ⟨false, 0x2A, by decide⟩

def rightShift : Key := ⟨false, 0x36, by decide⟩

def leftCtrl : Key := ⟨false, 0x1D, by decide⟩

def leftAlt : Key := ⟨false, 0x38, by decide⟩

/-- One of the two Shift keys. -/
def IsShift (k : Key) : Prop := k = leftShift ∨ k = rightShift

instance (k : Key) : Decidable k.IsShift := inferInstanceAs (Decidable (_ ∨ _))

/-- The make code or the break code, without the prefix. -/
def scancode (k : Key) (released : Bool) : UInt8 :=
  UInt8.ofNat k.code ||| if released then 0x80 else 0

/-- The bytes that the keyboard sends when the key goes down or comes up. -/
def scancodes (k : Key) (released : Bool) : List UInt8 :=
  if k.extended then [0xE0, k.scancode released] else [k.scancode released]

variable {k : Key}

theorem isShift_iff (h : k.extended = false) :
    k.IsShift ↔ (k.code : ℕ) = 0x2A ∨ (k.code : ℕ) = 0x36 := by
  simp only [IsShift, leftShift, rightShift, Key.ext_iff, Fin.ext_iff, h, true_and]
  rfl

theorem eq_leftCtrl_iff (h : k.extended = false) : k = leftCtrl ↔ (k.code : ℕ) = 0x1D := by
  simp only [leftCtrl, Key.ext_iff, Fin.ext_iff, h, true_and]
  rfl

theorem eq_leftAlt_iff (h : k.extended = false) : k = leftAlt ↔ (k.code : ℕ) = 0x38 := by
  simp only [leftAlt, Key.ext_iff, Fin.ext_iff, h, true_and]
  rfl

/-- No modifier has a prefix. -/
theorem not_modifier_of_extended (h : k.extended = true) :
    ¬ k.IsShift ∧ k ≠ leftCtrl ∧ k ≠ leftAlt := by
  refine ⟨?_, ?_, ?_⟩
  · rintro (rfl | rfl) <;> cases h
  · rintro rfl
    cases h
  · rintro rfl
    cases h

end Key

/-- What happens to a key. -/
inductive Stroke where
  /-- The key goes down, or it is held and repeats. -/
  | press (key : Key)
  /-- The key comes up. -/
  | release (key : Key)
  deriving DecidableEq

/-- The key of a stroke. -/
def Stroke.key : Stroke → Key
  | .press k => k
  | .release k => k

/-- The key comes up. -/
def Stroke.released : Stroke → Bool
  | .press _ => false
  | .release _ => true

/-- The handler runs for each byte, with the status bit set. -/
def Keyboard.deliver (k : Keyboard) (codes : List UInt8) : Keyboard :=
  codes.foldl (fun k sc => k.handler 1 sc) k

/-- The driver, and the keys that are held down. -/
structure Typist where
  keyboard : Keyboard
  held : Finset Key

namespace Typist

def boot : Typist := ⟨Keyboard.boot, ∅⟩

/-- One stroke.  Only a key that is held comes up. -/
def react (s : Typist) : Stroke → Option Typist
  | .press k => some ⟨s.keyboard.deliver (k.scancodes false), insert k s.held⟩
  | .release k =>
    if k ∈ s.held then some ⟨s.keyboard.deliver (k.scancodes true), s.held.erase k⟩ else none

/-- The runs from boot on. -/
def lts : Lts Typist Stroke := Lts.det (· = boot) react

/-- The flags tell which keys are held. -/
structure Tracks (s : Typist) : Prop where
  shift : s.keyboard.shiftPressed = true ↔ Key.leftShift ∈ s.held ∨ Key.rightShift ∈ s.held
  ctrl : s.keyboard.ctrlPressed = true ↔ Key.leftCtrl ∈ s.held
  alt : s.keyboard.altPressed = true ↔ Key.leftAlt ∈ s.held

/-- All along the run `es` the flags tell which keys are held, and a prefixed key changes nothing
in the driver. -/
structure TellsHeld (es : List Stroke) : Prop where
  tracks : ∀ pre s, pre <+: es → lts.Run boot pre s → s.Tracks
  extended : ∀ pre e s s', pre ++ [e] <+: es → lts.Run boot pre s → lts.step s e s' →
    e.key.extended = true → s'.keyboard = s.keyboard

/-- A Shift key comes up while the other is held. -/
def Straddles (s : Typist) (e : Stroke) : Prop :=
  ∃ k k', e = .release k ∧ k.IsShift ∧ k'.IsShift ∧ k' ≠ k ∧ k' ∈ s.held

end Typist

/-! ### What the handler does to the flags -/

namespace Keyboard

variable {k : Keyboard} {key : Key} {released : Bool} {sc c : UInt8}

/-- The flags of the modifiers, and the prefix. -/
def flags (k : Keyboard) : Bool × Bool × Bool × Bool :=
  (k.shiftPressed, k.ctrlPressed, k.altPressed, k.extendedPrefix)

theorem flags_bufferAdd (k : Keyboard) (command : List UInt8) :
    (k.bufferAdd command).flags = k.flags := by
  unfold bufferAdd
  split
  · rfl
  · split <;> rfl

theorem flags_bufferRemoveOne (k : Keyboard) : k.bufferRemoveOne.flags = k.flags := by
  unfold bufferRemoveOne
  split <;> rfl

theorem flags_type (k : Keyboard) (c : UInt8) : (k.type c).flags = k.flags := by
  unfold type
  split
  · split
    · exact flags_bufferRemoveOne k
    · rfl
  · split
    · split
      · rfl
      · exact flags_bufferAdd k _
    · exact flags_bufferAdd k _

/-- **A code without prefix** sets the flag of its modifier, if it has one. -/
theorem flags_handler (hpending : k.extendedPrefix = false) (hsc : sc ≠ 0xE0) :
    (k.handler 1 sc).flags =
      if (sc &&& 0x7F).toNat = 0x2A ∨ (sc &&& 0x7F).toNat = 0x36 then
        (!decide (sc &&& 0x80 ≠ 0), k.ctrlPressed, k.altPressed, k.extendedPrefix)
      else if (sc &&& 0x7F).toNat = 0x1D then
        (k.shiftPressed, !decide (sc &&& 0x80 ≠ 0), k.altPressed, k.extendedPrefix)
      else if (sc &&& 0x7F).toNat = 0x38 then
        (k.shiftPressed, k.ctrlPressed, !decide (sc &&& 0x80 ≠ 0), k.extendedPrefix)
      else k.flags := by
  rw [handler, if_neg (by decide), if_neg hsc]
  dsimp only
  rw [if_neg (by rw [hpending]; exact Bool.false_ne_true)]
  by_cases hshift : (sc &&& 0x7F).toNat = 0x2A ∨ (sc &&& 0x7F).toNat = 0x36
  · rw [if_pos hshift, if_pos hshift]
    rfl
  rw [if_neg hshift, if_neg hshift]
  by_cases hctrl : (sc &&& 0x7F).toNat = 0x1D
  · rw [if_pos hctrl, if_pos hctrl]
    rfl
  rw [if_neg hctrl, if_neg hctrl]
  by_cases halt : (sc &&& 0x7F).toNat = 0x38
  · rw [if_pos halt, if_pos halt]
    rfl
  rw [if_neg halt, if_neg halt]
  -- Caps Lock, releases, function keys and characters
  split
  · split <;> rfl
  · split
    · rfl
    · split
      · rfl
      · split
        · rfl
        · exact flags_type k _

/-- A prefixed code does nothing. -/
theorem deliver_extended (hpending : k.extendedPrefix = false) (hsc : sc ≠ 0xE0) :
    k.deliver [0xE0, sc] = k := by
  have hfirst : k.handler 1 0xE0 = { k with extendedPrefix := true } := rfl
  rw [deliver, List.foldl_cons, hfirst, List.foldl_cons, List.foldl_nil, handler,
    if_neg (by decide), if_neg hsc]
  dsimp only
  rw [if_pos rfl, ← hpending]

/-- A scancode tells its key, and whether it comes up. -/
theorem scancode_spec :
    ∀ (c : Fin 128) (released : Bool), c ≠ 0x60 →
      let sc := UInt8.ofNat c ||| if released then 0x80 else 0
      sc ≠ 0xE0 ∧ (sc &&& 0x7F).toNat = c ∧ decide (sc &&& 0x80 ≠ 0) = released := by
  decide +kernel

/-- **What a press or a release does to the flags.** -/
theorem deliver_scancodes (hpending : k.extendedPrefix = false) (key : Key) (released : Bool) :
    (k.deliver (key.scancodes released)).flags =
        (if key.IsShift then !released else k.shiftPressed,
          if key = .leftCtrl then !released else k.ctrlPressed,
          if key = .leftAlt then !released else k.altPressed, false) ∧
      (key.extended = true → k.deliver (key.scancodes released) = k) := by
  obtain ⟨hsc, hcode, hreleased⟩ := scancode_spec key.code released key.valid
  have hsc' : key.scancode released ≠ 0xE0 := hsc
  cases hext : key.extended with
  | true =>
    obtain ⟨hshift, hctrl, halt⟩ := Key.not_modifier_of_extended hext
    have hsame : k.deliver (key.scancodes released) = k := by
      rw [Key.scancodes, hext]
      exact deliver_extended hpending hsc'
    refine ⟨?_, fun _ => hsame⟩
    rw [hsame, if_neg hshift, if_neg hctrl, if_neg halt, flags, hpending]
  | false =>
    refine ⟨?_, Bool.noConfusion⟩
    have hbyte : k.deliver (key.scancodes released) = k.handler 1 (key.scancode released) := by
      rw [Key.scancodes, hext]
      rfl
    have hcode' : (key.scancode released &&& 0x7F).toNat = key.code := hcode
    have hreleased' : decide (key.scancode released &&& 0x80 ≠ 0) = released := hreleased
    rw [hbyte, flags_handler hpending hsc', hcode', hreleased', flags, hpending]
    simp only [Key.isShift_iff hext, Key.eq_leftCtrl_iff hext, Key.eq_leftAlt_iff hext]
    by_cases hshift : (key.code : ℕ) = 0x2A ∨ (key.code : ℕ) = 0x36
    · have hctrl : (key.code : ℕ) ≠ 0x1D := by rcases hshift with h | h <;> rw [h] <;> decide
      have halt : (key.code : ℕ) ≠ 0x38 := by rcases hshift with h | h <;> rw [h] <;> decide
      rw [if_pos hshift, if_pos hshift, if_neg hctrl, if_neg halt]
    · by_cases hctrl : (key.code : ℕ) = 0x1D
      · have halt : (key.code : ℕ) ≠ 0x38 := by rw [hctrl]; decide
        rw [if_neg hshift, if_pos hctrl, if_neg hshift, if_pos hctrl, if_neg halt]
      · rw [if_neg hshift, if_neg hctrl, if_neg hshift, if_neg hctrl]
        split <;> rfl

end Keyboard

/-! ### Strokes -/

namespace Typist

variable {s s' : Typist} {e : Stroke}

/-- Between two strokes no prefix is pending. -/
structure Sound (s : Typist) : Prop extends Tracks s where
  noPrefix : s.keyboard.extendedPrefix = false

theorem react_eq (hst : s.react e = some s') :
    s'.keyboard = s.keyboard.deliver (e.key.scancodes e.released) ∧
      ∀ j, j ∈ s'.held ↔ if j = e.key then e.released = false else j ∈ s.held := by
  cases e with
  | press k =>
    cases hst
    refine ⟨rfl, fun j => ?_⟩
    rw [Finset.mem_insert]
    split
    · rename_i hj
      exact iff_of_true (.inl hj) rfl
    · rename_i hj
      exact or_iff_right hj
  | release k =>
    obtain ⟨-, hst⟩ := Option.ite_none_right_eq_some.1 hst
    cases hst
    refine ⟨rfl, fun j => ?_⟩
    rw [Finset.mem_erase]
    split
    · rename_i hj
      exact iff_of_false (fun h => h.1 hj) Bool.noConfusion
    · rename_i hj
      exact and_iff_right hj

/-- What a stroke does to the flags. -/
theorem Sound.flags (h : s.Sound) (hst : s.react e = some s') :
    s'.keyboard.shiftPressed = (if e.key.IsShift then !e.released else s.keyboard.shiftPressed) ∧
      s'.keyboard.ctrlPressed =
        (if e.key = .leftCtrl then !e.released else s.keyboard.ctrlPressed) ∧
      s'.keyboard.altPressed = (if e.key = .leftAlt then !e.released else s.keyboard.altPressed) ∧
      s'.keyboard.extendedPrefix = false := by
  obtain ⟨hflags, -⟩ := Keyboard.deliver_scancodes h.noPrefix e.key e.released
  rw [(react_eq hst).1]
  simpa only [Keyboard.flags, Prod.mk.injEq] using hflags

/-- A flag of one key tells whether it is held. -/
theorem flag_step {m : Key} {flag flag' : Bool} (h : flag = true ↔ m ∈ s.held)
    (hst : s.react e = some s') (hflag : flag' = if e.key = m then !e.released else flag) :
    flag' = true ↔ m ∈ s'.held := by
  rw [(react_eq hst).2 m, hflag]
  by_cases hm : e.key = m
  · rw [if_pos hm, if_pos hm.symm]
    cases e.released <;> simp
  · rw [if_neg hm, if_neg (Ne.symm hm)]
    exact h

/-- **A stroke keeps the flags right**, unless a Shift comes up while the other is held. -/
theorem Sound.step (h : s.Sound) (hok : ¬ s.Straddles e) (hst : s.react e = some s') :
    s'.Sound := by
  obtain ⟨hshift, hctrl, halt, hpending⟩ := h.flags hst
  have hheld := (react_eq hst).2
  refine ⟨⟨?_, flag_step h.ctrl hst hctrl, flag_step h.alt hst halt⟩, hpending⟩
  rw [hshift, hheld, hheld]
  by_cases hk : e.key.IsShift
  · rw [if_pos hk]
    cases hr : e.released with
    | false =>
      -- a Shift goes down
      refine iff_of_true rfl ?_
      rcases hk with hk | hk
      · exact .inl (by rw [if_pos hk.symm])
      · exact .inr (by rw [if_pos hk.symm])
    | true =>
      -- a Shift comes up, and the other is not held
      refine iff_of_false Bool.noConfusion ?_
      have hother : ∀ k', k'.IsShift → k' ≠ e.key → k' ∉ s.held := by
        intro k' hk' hne hmem
        refine hok ⟨e.key, k', ?_, hk, hk', hne, hmem⟩
        cases e with
        | press => cases hr
        | release => rfl
      rintro (hl | hl)
      · split at hl
        · cases hl
        · rename_i hne
          exact hother _ (.inl rfl) hne hl
      · split at hl
        · cases hl
        · rename_i hne
          exact hother _ (.inr rfl) hne hl
  · have hleft : Key.leftShift ≠ e.key := fun heq => hk (.inl heq.symm)
    have hright : Key.rightShift ≠ e.key := fun heq => hk (.inr heq.symm)
    rw [if_neg hk, if_neg hleft, if_neg hright]
    exact h.shift

/-- **When a Shift comes up while the other is held**, the flag is lost. -/
theorem Straddles.not_tracks (hbad : s.Straddles e) (h : s.Sound) (hst : s.react e = some s') :
    ¬ s'.Tracks := by
  obtain ⟨k, k', rfl, hk, hk', hne, hmem⟩ := hbad
  obtain ⟨hshift, -⟩ := h.flags hst
  have hoff : s'.keyboard.shiftPressed = false := hshift.trans (if_pos hk)
  have hheld : k' ∈ s'.held := by
    rw [(react_eq hst).2 k', Stroke.key, if_neg hne]
    exact hmem
  intro htracks
  have hon : s'.keyboard.shiftPressed = true := by
    refine htracks.shift.2 ?_
    rcases hk' with rfl | rfl
    · exact .inl hheld
    · exact .inr hheld
  rw [hoff] at hon
  cases hon

theorem sound_boot : boot.Sound := by
  refine ⟨⟨?_, ?_, ?_⟩, rfl⟩ <;> decide

/-- Between two strokes no prefix is pending, however the run goes on. -/
theorem noPrefix_of_run {es : List Stroke} (h : lts.Run boot es s) :
    s.keyboard.extendedPrefix = false := by
  refine h.invariant (I := fun s => s.keyboard.extendedPrefix = false) rfl ?_
  intro t e t' ht hst
  obtain ⟨hflags, -⟩ := Keyboard.deliver_scancodes ht e.key e.released
  rw [(react_eq hst).1]
  simp only [Keyboard.flags, Prod.mk.injEq] at hflags
  exact hflags.2.2.2

/-- **The flags tell which keys are held**, and prefixed keys do nothing, in exactly the runs in
which no Shift comes up while the other is held. -/
theorem tellsHeld_iff (es : List Stroke) :
    TellsHeld es ↔ ∀ pre e s s', pre ++ [e] <+: es → lts.Run boot pre s → lts.step s e s' →
      ¬ s.Straddles e := by
  have htracks : (∀ pre s, pre <+: es → lts.Run boot pre s → s.Tracks) ↔ _ :=
    Lts.Run.forall_iff (I := Sound) es sound_boot (fun s h => h.toTracks)
      (fun s e s' h (hok : ¬ s.Straddles e) hst => h.step hok hst)
      fun s e s' h hok hst => (not_not.1 hok).not_tracks h hst
  rw [← htracks]
  refine ⟨fun h => h.tracks, fun h => ⟨h, ?_⟩⟩
  intro pre e s s' _ hrun hst hext
  rw [(react_eq hst).1]
  exact (Keyboard.deliver_scancodes (noPrefix_of_run hrun) e.key e.released).2 hext

/-- Both Shift keys go down, and the left one comes up. -/
theorem not_tellsHeld_shifts : ¬ ∀ es, TellsHeld es := by
  intro hall
  obtain ⟨s, hs, hoff⟩ : ∃ s,
      [.press .leftShift, .press .rightShift, .release .leftShift].foldlM react boot = some s ∧
        (decide (Key.rightShift ∈ s.held) && !s.keyboard.shiftPressed) = true :=
    (Option.any_eq_true _ _).1 (by decide +kernel)
  have hshift := ((hall _).tracks _ s (List.prefix_refl _) (Lts.run_det_iff.2 hs)).shift
  simp only [Bool.and_eq_true, decide_eq_true_eq, Bool.not_eq_true'] at hoff
  have hon : s.keyboard.shiftPressed = true := hshift.2 (.inr hoff.1)
  rw [hoff.2] at hon
  cases hon

end Typist

end Shiro
