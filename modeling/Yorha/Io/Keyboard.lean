import Yorha.Io.Devices

/-!
# The keyboard's queue

The interrupt handler of the keyboard fills a ring buffer, and `tty_handler` empties it,
byte by byte.  An interrupt may come between any two rounds of the loop of `tty_handler`,
so a run here is a sequence of interrupts, entries into a read, and single rounds of the
loop (`KeyboardEvent`).

Beside the state the run records which characters the handler put into the buffer and which
bytes the reads returned.  Together with what a read has in hand and what is still queued,
these are the same (`KeyboardInv`), so nothing is lost, doubled or reordered on the way.
-/

namespace Yorha.Io

open Yorha.Lib Yorha.Str
open Yorha.Fs hiding read write

/-! ## What the handler does -/

/-- The character that a run of the handler has for the buffer. -/
def Keyboard.typed (keyboard : Keyboard) (scancode : UInt8) : Option UInt8 :=
  if scancode &&& 0x80 ≠ 0 ∨ scancode = 0x2A ∨ scancode = 0x36 then none
  else
    let table := if keyboard.shiftPressed then scancodeToAsciiShifted else scancodeToAscii
    let outputChar := table.getD scancode.toNat 0
    if outputChar ≠ 0 then some outputChar else none

/-- The queue of the keyboard. -/
def Keyboard.queue (keyboard : Keyboard) : List UInt8 := keyboard.buffer.queue ringBufferCapacity

/-- The buffer has a slot to spare. -/
def Keyboard.HasRoom (keyboard : Keyboard) : Prop :=
  (keyboard.buffer.inIndex + 1) % ringBufferCapacity ≠ keyboard.buffer.outIndex

instance (keyboard : Keyboard) : Decidable keyboard.HasRoom :=
  inferInstanceAs (Decidable (_ ≠ _))

/-- A run of the handler pushes its character, if it has one. -/
theorem keyboardHandler_buffer (scancode : UInt8) (keyboard : Keyboard) :
    (keyboardHandler scancode keyboard).buffer = match keyboard.typed scancode with
      | some c => keyboard.buffer.push ringBufferCapacity c
      | none => keyboard.buffer := by
  rw [keyboardHandler, Keyboard.typed]
  by_cases hrelease : scancode &&& 0x80 ≠ 0
  · rw [if_pos hrelease, if_pos (Or.inl hrelease)]
    split
    · rfl
    · rfl
  · by_cases hshift : scancode = 0x2A ∨ scancode = 0x36
    · rw [if_neg hrelease, if_pos hshift, if_pos (Or.inr hshift)]
    · rw [if_neg hrelease, if_neg hshift, if_neg (not_or.mpr ⟨hrelease, hshift⟩)]
      generalize (if keyboard.shiftPressed = true then scancodeToAsciiShifted
        else scancodeToAscii) = table
      by_cases hchar : table.getD scancode.toNat 0 ≠ 0
      · simp only [if_pos hchar]
      · simp only [if_neg hchar]

/-! ## Reads, round by round -/

/-- A read that is under way: its loop counter, and what it has read so far. -/
structure TtyRead where
  count : Nat
  byte : Nat
  read : Nat
  smallBuf : Bytes

/-- What the read has in hand. -/
def TtyRead.inHand (call : TtyRead) : List UInt8 := call.smallBuf.take call.read

/-- The read after a round that read a byte. -/
def TtyRead.took (call : TtyRead) (c : UInt8) : TtyRead where
  count := call.count
  byte := call.byte + 1
  read := call.read + 1
  smallBuf := Function.update call.smallBuf call.read c

theorem TtyRead.inHand_took (call : TtyRead) (c : UInt8) :
    (call.took c).inHand = call.inHand ++ [c] := by
  have hkept : Bytes.take (Function.update call.smallBuf call.read c) call.read =
      call.smallBuf.take call.read :=
    Bytes.take_congr fun j hj ↦ Function.update_of_ne (Nat.ne_of_lt hj) _ _
  change Bytes.take _ (call.read + 1) = _
  rw [TtyRead.took, Bytes.take_add, hkept]
  change _ ++ [Function.update call.smallBuf call.read c (call.read + 0)] = _
  rw [Nat.add_zero, Function.update_self]
  rfl

/-- One round of the loop of `tty_handler`, if it does not leave the loop. -/
def TtyRead.round (call : TtyRead) (buffer : RingBuffer) : Option (TtyRead × RingBuffer) :=
  if call.byte < call.count then
    match buffer.pop ringBufferCapacity with
    | none => none
    | some (c, buffer) => some (call.took c, buffer)
  else none

/-- A round takes the head of the queue in hand. -/
theorem TtyRead.of_round {call call' : TtyRead} {buffer buffer' : RingBuffer}
    (hv : buffer.Valid ringBufferCapacity)
    (h : call.round buffer = some (call', buffer')) :
    buffer'.Valid ringBufferCapacity ∧ call'.inHand ++ buffer'.queue ringBufferCapacity =
      call.inHand ++ buffer.queue ringBufferCapacity := by
  rw [TtyRead.round] at h
  split at h
  · split at h
    · cases h
    · rename_i c popped hpop
      cases h
      obtain ⟨hv', hqueue⟩ := hv.of_pop hpop
      refine ⟨hv', ?_⟩
      rw [hqueue, TtyRead.inHand_took, List.append_assoc]
      rfl
  · cases h

/-! ## Interleavings -/

/-- The keyboard, the read that is under way, and what happened so far: the characters that
the handler queued, and the bytes that reads returned. -/
structure KeyboardRun where
  keyboard : Keyboard
  call : Option TtyRead
  accepted : List UInt8
  returned : List UInt8

/-- What happens to the keyboard's queue. -/
inductive KeyboardEvent where
  /-- The interrupt of a key that is pressed or released. -/
  | key (scancode : UInt8)
  /-- `tty_handler` is called for a read. -/
  | enter (buf : Bytes) (count : Nat)
  /-- The next round of its loop; the call returns if this leaves the loop. -/
  | round

/-- A call begins when there is none, and goes on when there is one. -/
def KeyboardRun.Possible (s : KeyboardRun) : KeyboardEvent → Prop
  | .key _ => True
  | .enter _ _ => s.call = none
  | .round => s.call.isSome = true

instance (s : KeyboardRun) : ∀ e, Decidable (s.Possible e)
  | .key _ => inferInstanceAs (Decidable True)
  | .enter _ _ => decidable_of_iff (s.call.isNone = true) Option.isNone_iff_eq_none
  | .round => inferInstanceAs (Decidable (_ = true))

/-- One event. -/
def KeyboardRun.exec (s : KeyboardRun) : KeyboardEvent → Except Stop (Unit × KeyboardRun)
  | .key scancode =>
      let accepted := match s.keyboard.typed scancode with
        | some c => if s.keyboard.HasRoom then s.accepted ++ [c] else s.accepted
        | none => s.accepted
      .ok ((), { s with
        keyboard := keyboardHandler scancode s.keyboard, accepted := accepted })
  | .enter buf count => .ok ((), { s with call := some ⟨count, 0, 0, buf⟩ })
  | .round =>
      match s.call with
      | none => .ok ((), s)
      | some call =>
          match call.round s.keyboard.buffer with
          | some (call, buffer) => .ok ((), { s with
              call := some call, keyboard := { s.keyboard with buffer := buffer } })
          | none => .ok ((), { s with call := none, returned := s.returned ++ call.inHand })

/-- The buffer is empty, and nothing has happened. -/
def KeyboardRun.start : KeyboardRun := ⟨⟨false, RingBuffer.zero⟩, none, [], []⟩

/-- What the read that is under way has in hand. -/
def KeyboardRun.inHand (s : KeyboardRun) : List UInt8 :=
  match s.call with
  | some call => call.inHand
  | none => []

/-- What was returned, what is in hand and what is queued is what was accepted, in this
order. -/
structure KeyboardInv (s : KeyboardRun) : Prop where
  valid : s.keyboard.buffer.Valid ringBufferCapacity
  order : s.returned ++ (s.inHand ++ s.keyboard.queue) = s.accepted

/-- **Step.**  An interrupt, or a round of the loop. -/
theorem KeyboardInv.step {s s' : KeyboardRun} {e : KeyboardEvent} (h : KeyboardInv s)
    (he : s.Possible e) (hx : s.exec e = .ok ((), s')) : KeyboardInv s' := by
  cases e with
  | key scancode =>
      cases hx
      cases htyped : s.keyboard.typed scancode with
      | none =>
          have hbuffer : (keyboardHandler scancode s.keyboard).buffer = s.keyboard.buffer := by
            rw [keyboardHandler_buffer, htyped]
          refine ⟨?_, ?_⟩
          · rw [hbuffer]
            exact h.valid
          · rw [Keyboard.queue, hbuffer]
            exact h.order
      | some c =>
          have hbuffer : (keyboardHandler scancode s.keyboard).buffer =
              s.keyboard.buffer.push ringBufferCapacity c := by
            rw [keyboardHandler_buffer, htyped]
          refine ⟨?_, ?_⟩
          · rw [hbuffer]
            exact h.valid.push c
          · by_cases hroom : s.keyboard.HasRoom
            · simp only [Keyboard.queue, hbuffer, if_pos hroom,
                h.valid.queue_push (mt h.valid.full_iff.mpr hroom) c]
              rw [← h.order, List.append_assoc, List.append_assoc]
              rfl
            · simp only [Keyboard.queue, hbuffer, if_neg hroom,
                h.valid.push_of_full (h.valid.full_iff.mp (not_not.mp hroom))]
              exact h.order
  | enter buf count =>
      cases hx
      refine ⟨h.valid, ?_⟩
      have horder := h.order
      rw [KeyboardRun.inHand, show s.call = none from he] at horder
      exact horder
  | round =>
      obtain ⟨call, hcall⟩ := Option.isSome_iff_exists.mp he
      have horder := h.order
      simp only [KeyboardRun.exec, hcall] at hx
      rw [KeyboardRun.inHand, hcall] at horder
      cases hround : call.round s.keyboard.buffer with
      | none =>
          rw [hround] at hx
          cases hx
          refine ⟨h.valid, ?_⟩
          rw [List.append_assoc]
          exact horder
      | some r =>
          obtain ⟨call', buffer'⟩ := r
          rw [hround] at hx
          cases hx
          obtain ⟨hv, hqueue⟩ := TtyRead.of_round h.valid hround
          refine ⟨hv, ?_⟩
          rw [← horder]
          exact congrArg (s.returned ++ ·) hqueue

theorem keyboardInv_start : KeyboardInv .start := ⟨⟨by decide, by decide⟩, rfl⟩

/-- The queue of the keyboard is first in, first out, and drops a character only if it is
full. -/
structure KeyboardFifo (s : KeyboardRun) : Prop where
  order : s.returned ++ (s.inHand ++ s.keyboard.queue) = s.accepted
  in_lt : s.keyboard.buffer.inIndex < ringBufferCapacity
  out_lt : s.keyboard.buffer.outIndex < ringBufferCapacity
  drop : ∀ scancode c, s.keyboard.typed scancode = some c →
    (keyboardHandler scancode s.keyboard).queue = s.keyboard.queue ++ [c] ∨
      s.keyboard.queue.length = 63 ∧
        (keyboardHandler scancode s.keyboard).queue = s.keyboard.queue

theorem KeyboardInv.fifo {s : KeyboardRun} (h : KeyboardInv s) : KeyboardFifo s := by
  refine ⟨h.order, h.valid.in_lt, h.valid.out_lt, fun scancode c htyped ↦ ?_⟩
  have hbuffer : (keyboardHandler scancode s.keyboard).buffer =
      s.keyboard.buffer.push ringBufferCapacity c := by
    rw [keyboardHandler_buffer, htyped]
  by_cases hfull : s.keyboard.buffer.count ringBufferCapacity + 1 = ringBufferCapacity
  · right
    rw [Keyboard.queue, Keyboard.queue, hbuffer, h.valid.push_of_full hfull, Ring.length_queue]
    exact ⟨Nat.succ.inj hfull, rfl⟩
  · left
    rw [Keyboard.queue, Keyboard.queue, hbuffer]
    exact h.valid.queue_push hfull c

/-- **The keyboard's queue is a lossless FIFO.**  Whatever the order of interrupts and rounds
of the loop of `tty_handler`, what the reads returned and have in hand, followed by what is
queued, is what the handler accepted; the indices are in the buffer, and a character is
dropped only if 63 are queued. -/
theorem keyboardFifo_of_reaches {s : KeyboardRun}
    (h : Reaches KeyboardRun.exec KeyboardRun.Possible .start s) : KeyboardFifo s :=
  (Reaches.invariant (I := KeyboardInv) h keyboardInv_start
    fun hI he hx ↦ hI.step he hx).fifo

/-- Typing `A` with the shift key, then `b`, between the rounds of a read. -/
def typeEvents : List KeyboardEvent :=
  [.key 0x2A, .key 0x1E, .enter (fun _ ↦ 0) 2, .round, .key 0xAA, .key 0x30, .round, .round,
    .key 0x0B]

theorem keyboardFifo_typeEvents : ∃ s, runCalls KeyboardRun.exec KeyboardRun.Possible typeEvents
    .start = some s ∧ s.returned = ofText "Ab" ∧ KeyboardFifo s := by
  obtain ⟨s, hs, hcheck⟩ := (Option.any_eq_true _ _).mp
    (show (runCalls KeyboardRun.exec KeyboardRun.Possible typeEvents .start).any
      (fun s ↦ decide (s.returned = ofText "Ab")) = true by decide +kernel)
  exact ⟨s, hs, of_decide_eq_true hcheck, keyboardFifo_of_reaches (reaches_of_runCalls hs)⟩

/-! ## Calls -/

/-- The run after a call that left its loop with the bytes read, the buffer they are in, and
the queue. -/
def KeyboardRun.finished (s : KeyboardRun) (r : Nat × Bytes × RingBuffer) : KeyboardRun where
  keyboard := { s.keyboard with buffer := r.2.2 }
  call := none
  accepted := s.accepted
  returned := s.returned ++ r.2.1.take r.1

/-- Without interrupts, rounds lead to the end of the loop. -/
theorem reaches_of_ttyReadLoop {n : Nat} {call : TtyRead} {s : KeyboardRun}
    (hcall : s.call = some call) (hn : call.byte + n = call.count) :
    Reaches KeyboardRun.exec KeyboardRun.Possible s
      (s.finished (ttyReadLoop n call.read call.smallBuf s.keyboard.buffer)) := by
  have hpossible : ∀ {s : KeyboardRun} {call}, s.call = some call → s.Possible .round :=
    fun hcall ↦ Option.isSome_iff_exists.mpr ⟨_, hcall⟩
  -- a round that leaves the loop
  have hlast : ∀ {s : KeyboardRun} {call : TtyRead}, s.call = some call →
      call.round s.keyboard.buffer = none → Reaches KeyboardRun.exec KeyboardRun.Possible s
        (s.finished (call.read, call.smallBuf, s.keyboard.buffer)) := by
    intro s call hcall hround
    refine (Reaches.refl s).tail (c := .round) (v := ()) (hpossible hcall) ?_
    simp only [KeyboardRun.exec, hcall, hround]
    rfl
  induction n generalizing s call with
  | zero => exact hlast hcall (if_neg (by omega))
  | succ n ih =>
      have hlt : call.byte < call.count := by omega
      rw [ttyReadLoop]
      cases hpop : s.keyboard.buffer.pop ringBufferCapacity with
      | none =>
          apply hlast hcall
          rw [TtyRead.round, if_pos hlt, hpop]
      | some r =>
          obtain ⟨c, buffer⟩ := r
          have hround : call.round s.keyboard.buffer = some (call.took c, buffer) := by
            rw [TtyRead.round, if_pos hlt, hpop]
          have hfirst : s.exec .round = .ok ((), { s with
              call := some (call.took c)
              keyboard := { s.keyboard with buffer := buffer } }) := by
            simp only [KeyboardRun.exec, hcall, hround]
          have hrest : (call.took c).byte + n = (call.took c).count := by
            change call.byte + 1 + n = call.count
            omega
          refine ((Reaches.refl s).tail (hpossible hcall) hfirst).trans ?_
          exact @ih (call.took c) _ rfl hrest

/-- **A call of `tty_handler` is its rounds.**  Without interrupts, they lead to what it
returns. -/
theorem reaches_of_ttyHandler {fd : Int} {buf buf' : Bytes} {count n : Nat} {dev dev' : Devices}
    (h : ttyHandler true fd buf count dev = .ok (n, buf', dev')) {s : KeyboardRun}
    (hs : s.keyboard = dev.keyboard) (hcall : s.call = none) :
    Reaches KeyboardRun.exec KeyboardRun.Possible s
      { s with keyboard := dev'.keyboard, returned := s.returned ++ buf'.take n } := by
  cases h
  have henter : s.exec (.enter buf count) =
      .ok ((), { s with call := some ⟨count, 0, 0, buf⟩ }) := rfl
  refine ((Reaches.refl s).tail hcall henter).trans ?_
  have hloop := @reaches_of_ttyReadLoop count ⟨count, 0, 0, buf⟩
    { s with call := some ⟨count, 0, 0, buf⟩ } rfl (Nat.zero_add _)
  rw [KeyboardRun.finished, hs] at hloop
  rw [hs, hcall]
  exact hloop

end Yorha.Io
