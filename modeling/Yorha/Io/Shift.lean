import Mathlib.Data.List.Induction
import Yorha.Io.Keyboard

/-!
# The shift keys

The handler of the keyboard has one flag for both shift keys: a press of either sets it, and a
release of either clears it.  So it says whether the last event of a shift key was a press
(`shiftPressed_of_runCalls`), and not whether one of them is held: while the other one is still
down, the release of one makes the letters small (`shiftTracked_iff`).
-/

namespace Yorha.Io

open Yorha.Lib Yorha.Str

/-! ## Keys -/

/-- The scancodes among the events. -/
def scancodes (events : List KeyboardEvent) : List UInt8 :=
  events.filterMap fun
    | .key scancode => some scancode
    | _ => none

/-- The scancode is that of a shift key, pressed or released. -/
def IsShift (scancode : UInt8) : Prop :=
  scancode &&& 0x7F = 0x2A ∨ scancode &&& 0x7F = 0x36

instance : DecidablePred IsShift := fun _ ↦ inferInstanceAs (Decidable (_ ∨ _))

/-- The last event of the key was a press: its make code. -/
def Held (codes : List UInt8) (key : UInt8) : Prop :=
  (codes.filter fun code ↦ code &&& 0x7F = key).getLast? = some key

instance (codes : List UInt8) (key : UInt8) : Decidable (Held codes key) :=
  inferInstanceAs (Decidable (_ = _))

/-- The last event of a shift key. -/
def lastShift (codes : List UInt8) : Option UInt8 := (codes.filter (IsShift ·)).getLast?

/-- The last event of a shift key was a press. -/
def LastPressed (codes : List UInt8) : Prop :=
  lastShift codes = some 0x2A ∨ lastShift codes = some 0x36

instance (codes : List UInt8) : Decidable (LastPressed codes) :=
  inferInstanceAs (Decidable (_ ∨ _))

/-- One of the shift keys is held. -/
def ShiftHeld (codes : List UInt8) : Prop := Held codes 0x2A ∨ Held codes 0x36

instance (codes : List UInt8) : Decidable (ShiftHeld codes) :=
  inferInstanceAs (Decidable (_ ∨ _))

/-- The scancode of a press of a key that has a character. -/
def HasCharacter (scancode : UInt8) : Prop :=
  scancode &&& 0x80 = 0 ∧ scancodeToAscii.getD scancode.toNat 0 ≠ 0

instance : DecidablePred HasCharacter := fun _ ↦ inferInstanceAs (Decidable (_ ∧ _))

/-- The table that the handler takes a character from. -/
def Keyboard.table (keyboard : Keyboard) : List UInt8 :=
  if keyboard.shiftPressed then scancodeToAsciiShifted else scancodeToAscii

section

variable {codes : List UInt8} {code key : UInt8} {keyboard : Keyboard}

/-- A property of a byte, by trying all of them. -/
theorem forall_uint8 {p : UInt8 → Prop} (h : ∀ n < 256, p (UInt8.ofNat n)) (c : UInt8) : p c := by
  have hc := h c.toNat c.toNat_lt
  rwa [UInt8.ofNat_toNat] at hc

theorem table_eq_iff : keyboard.table = scancodeToAsciiShifted ↔ keyboard.shiftPressed = true := by
  have hne : scancodeToAscii ≠ scancodeToAsciiShifted := by decide
  rw [Keyboard.table]
  cases keyboard.shiftPressed with
  | true => exact ⟨fun _ ↦ rfl, fun _ ↦ rfl⟩
  | false => exact ⟨fun h ↦ absurd h hne, fun h ↦ nomatch h⟩

/-- A character comes from the table. -/
theorem typed_eq_table {c : UInt8} (h : keyboard.typed code = some c) :
    c = keyboard.table.getD code.toNat 0 := by
  rw [Keyboard.typed] at h
  split at h
  · cases h
  · change (if keyboard.table.getD code.toNat 0 ≠ 0 then some (keyboard.table.getD code.toNat 0)
      else none) = some c at h
    split at h
    · exact (Option.some.inj h).symm
    · cases h

/-- Both tables have characters for the same keys. -/
theorem typed_isSome_iff : (keyboard.typed code).isSome = true ↔ HasCharacter code := by
  obtain ⟨shiftPressed, buffer⟩ := keyboard
  change (Keyboard.typed ⟨shiftPressed, .zero⟩ code).isSome = true ↔ _
  cases shiftPressed with
  | true =>
      exact forall_uint8 (p := fun code ↦
        (Keyboard.typed ⟨true, .zero⟩ code).isSome = true ↔ HasCharacter code)
        (by decide +kernel) code
  | false =>
      exact forall_uint8 (p := fun code ↦
        (Keyboard.typed ⟨false, .zero⟩ code).isSome = true ↔ HasCharacter code)
        (by decide +kernel) code

theorem isShift_release : (code &&& 0x80 ≠ 0 ∧ IsShift code) ↔ code = 0xAA ∨ code = 0xB6 :=
  forall_uint8 (p := fun code ↦ (code &&& 0x80 ≠ 0 ∧ IsShift code) ↔ code = 0xAA ∨ code = 0xB6)
    (by decide +kernel) code

theorem isShift_press : (code &&& 0x80 = 0 ∧ IsShift code) ↔ code = 0x2A ∨ code = 0x36 :=
  forall_uint8 (p := fun code ↦ (code &&& 0x80 = 0 ∧ IsShift code) ↔ code = 0x2A ∨ code = 0x36)
    (by decide +kernel) code

/-- A scancode of a shift key sets the flag, and no other scancode changes it. -/
theorem keyboardHandler_shiftPressed (code : UInt8) (keyboard : Keyboard) :
    (keyboardHandler code keyboard).shiftPressed =
      if IsShift code then decide (code &&& 0x80 = 0) else keyboard.shiftPressed := by
  rw [keyboardHandler]
  by_cases hrelease : code &&& 0x80 ≠ 0
  · rw [if_pos hrelease, decide_eq_false hrelease]
    by_cases hshift : IsShift code
    · rw [if_pos hshift, if_pos (isShift_release.mp ⟨hrelease, hshift⟩)]
    · rw [if_neg hshift, if_neg fun h ↦ hshift (isShift_release.mpr h).2]
  · rw [if_neg hrelease, decide_eq_true (not_not.mp hrelease)]
    by_cases hshift : IsShift code
    · rw [if_pos hshift, if_pos (isShift_press.mp ⟨not_not.mp hrelease, hshift⟩)]
    · rw [if_neg hshift, if_neg fun h ↦ hshift (isShift_press.mpr h).2]
      generalize (if keyboard.shiftPressed = true then scancodeToAsciiShifted
        else scancodeToAscii) = table
      by_cases hchar : table.getD code.toNat 0 ≠ 0
      · simp only [if_pos hchar]
      · simp only [if_neg hchar]

theorem lastShift_append (codes : List UInt8) (code : UInt8) :
    lastShift (codes ++ [code]) = if IsShift code then some code else lastShift codes := by
  rw [lastShift, List.filter_append]
  by_cases hshift : IsShift code
  · have hone : [code].filter (IsShift ·) = [code] := by simp [hshift]
    rw [if_pos hshift, hone, List.getLast?_concat]
  · have hnone : [code].filter (IsShift ·) = [] := by simp [hshift]
    rw [if_neg hshift, hnone, List.append_nil, lastShift]

/-- A shift key is held if the last event of a shift key was its press. -/
theorem held_of_lastShift (hkey : key = 0x2A ∨ key = 0x36) (h : lastShift codes = some key) :
    Held codes key := by
  have hmake : key &&& 0x7F = key := by
    rcases hkey with rfl | rfl
    · rfl
    · rfl
  induction codes using List.reverseRecOn with
  | nil => cases h
  | append_singleton codes code ih =>
      rw [lastShift_append] at h
      rw [Held, List.filter_append]
      by_cases hshift : IsShift code
      · rw [if_pos hshift] at h
        cases h
        have hone : [key].filter (fun code ↦ code &&& 0x7F = key) = [key] := by simp [hmake]
        rw [hone, List.getLast?_concat]
      · rw [if_neg hshift] at h
        have hother : code &&& 0x7F ≠ key := by
          rintro rfl
          exact hshift hkey
        have hnone : [code].filter (fun code ↦ code &&& 0x7F = key) = [] := by simp [hother]
        rw [hnone, List.append_nil]
        exact ih h

theorem LastPressed.shiftHeld (h : LastPressed codes) : ShiftHeld codes :=
  h.imp (held_of_lastShift (.inl rfl)) (held_of_lastShift (.inr rfl))

end

/-! ## Runs -/

/-- The flag says whether the last event of a shift key was a press. -/
def Tracks (codes : List UInt8) (s : KeyboardRun) : Prop :=
  s.keyboard.shiftPressed = true ↔ LastPressed codes

/-- **Step.**  Only the scancodes of the shift keys change the flag. -/
theorem Tracks.exec {codes : List UInt8} {s s' : KeyboardRun} {e : KeyboardEvent}
    (h : Tracks codes s) (hx : s.exec e = .ok ((), s')) :
    Tracks (codes ++ scancodes [e]) s' := by
  cases e with
  | key code =>
      cases hx
      change Tracks (codes ++ [code]) _
      rw [Tracks, LastPressed, lastShift_append, keyboardHandler_shiftPressed]
      by_cases hshift : IsShift code
      · rw [if_pos hshift, if_pos hshift, decide_eq_true_iff, Option.some.injEq, Option.some.injEq,
          ← isShift_press]
        exact (and_iff_left hshift).symm
      · rw [if_neg hshift, if_neg hshift]
        exact h
  | enter buf count =>
      cases hx
      rwa [show scancodes [.enter buf count] = [] from rfl, List.append_nil]
  | round =>
      rw [show scancodes [.round] = [] from rfl, List.append_nil]
      rw [KeyboardRun.exec] at hx
      split at hx
      · cases hx
        exact h
      · split at hx
        · cases hx
          exact h
        · cases hx
          exact h

theorem Tracks.runCalls {codes : List UInt8} {events : List KeyboardEvent} {s s' : KeyboardRun}
    (h : Tracks codes s)
    (hrun : runCalls KeyboardRun.exec KeyboardRun.Possible events s = some s') :
    Tracks (codes ++ scancodes events) s' := by
  induction events generalizing codes s with
  | nil =>
      cases hrun
      rwa [show scancodes [] = [] from rfl, List.append_nil]
  | cons e events ih =>
      rw [Lib.runCalls] at hrun
      split at hrun
      · split at hrun
        · rename_i hx
          have hrest := ih (h.exec hx) hrun
          rw [List.append_assoc] at hrest
          have hall : scancodes [e] ++ scancodes events = scancodes (e :: events) :=
            (List.filterMap_append (l := [e])).symm
          rwa [hall] at hrest
        · cases hrun
      · cases hrun

/-- **The flag in every run** says whether the last event of a shift key was a press. -/
theorem shiftPressed_of_runCalls {events : List KeyboardEvent} {s : KeyboardRun}
    (hrun : runCalls KeyboardRun.exec KeyboardRun.Possible events .start = some s) :
    s.keyboard.shiftPressed = true ↔ LastPressed (scancodes events) := by
  have hstart : Tracks [] .start := by
    constructor
    · intro h
      cases h
    · rintro (h | h)
      · cases h
      · cases h
  exact hstart.runCalls hrun

/-- Each character that is put in the queue comes from the shifted table exactly if a shift key
is held at that moment. -/
def ShiftTracked (events : List KeyboardEvent) : Prop :=
  ∀ before code c s, before ++ [.key code] <+: events →
    runCalls KeyboardRun.exec KeyboardRun.Possible before .start = some s →
    s.keyboard.typed code = some c → s.keyboard.HasRoom →
    c = s.keyboard.table.getD code.toNat 0 ∧
      (s.keyboard.table = scancodeToAsciiShifted ↔ ShiftHeld (scancodes before))

/-- No key with a character is pressed, with room in the queue, while a shift key is held and the
last event of a shift key was a release. -/
def NoOverlap (events : List KeyboardEvent) : Prop :=
  ∀ before code s, before ++ [.key code] <+: events →
    runCalls KeyboardRun.exec KeyboardRun.Possible before .start = some s →
    HasCharacter code → s.keyboard.HasRoom →
    ShiftHeld (scancodes before) → LastPressed (scancodes before)

/-- **The shift keys are tracked** exactly in runs where no character is typed between the release
of one of them and that of the other. -/
theorem shiftTracked_iff (events : List KeyboardEvent) :
    ShiftTracked events ↔ NoOverlap events := by
  constructor
  · intro h before code s hprefix hrun hchar hroom hheld
    obtain ⟨c, htyped⟩ := Option.isSome_iff_exists.mp (typed_isSome_iff.mpr hchar)
    have htable := (h before code c s hprefix hrun htyped hroom).2.mpr hheld
    exact (shiftPressed_of_runCalls hrun).mp (table_eq_iff.mp htable)
  · intro h before code c s hprefix hrun htyped hroom
    have hchar := typed_isSome_iff.mp (Option.isSome_iff_exists.mpr ⟨c, htyped⟩)
    have hlast := h before code s hprefix hrun hchar hroom
    refine ⟨typed_eq_table htyped, ?_⟩
    rw [table_eq_iff, shiftPressed_of_runCalls hrun]
    exact ⟨LastPressed.shiftHeld, hlast⟩

/-- Both shift keys are pressed, the left one is released, and then `a` is typed: the right one is
held, and the letter is small. -/
theorem not_shiftTracked : ¬ ∀ events, ShiftTracked events := by
  intro h
  obtain ⟨s, hrun, hroom⟩ := (Option.any_eq_true _ _).mp
    (show (runCalls KeyboardRun.exec KeyboardRun.Possible
      [.key 0x2A, .key 0x36, .key 0xAA] .start).any (fun s ↦ decide s.keyboard.HasRoom) = true by
        decide +kernel)
  have hchar : HasCharacter 0x1E := by decide
  obtain ⟨c, htyped⟩ := Option.isSome_iff_exists.mp (typed_isSome_iff.mpr hchar)
  have htable := (h [.key 0x2A, .key 0x36, .key 0xAA, .key 0x1E]
    [.key 0x2A, .key 0x36, .key 0xAA] 0x1E c s (List.prefix_refl _) hrun htyped
    (of_decide_eq_true hroom)).2
  have hheld : ShiftHeld [0x2A, 0x36, 0xAA] := by decide
  have hlast : ¬ LastPressed [0x2A, 0x36, 0xAA] := by decide
  exact hlast ((shiftPressed_of_runCalls hrun).mp (table_eq_iff.mp (htable.mpr hheld)))

end Yorha.Io
