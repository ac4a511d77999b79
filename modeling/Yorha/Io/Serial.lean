import Yorha.Io.Devices

/-!
# Bytes at the serial port

Two parts of the code take bytes from the UART: `serial_handler`, for a program that reads,
and `serial_interrupt_handler`, which puts them into a buffer that nothing reads.  A run here
is a sequence of bytes that arrive, interrupts, and reads; the UART raises an interrupt
whenever it has a byte.

What the reads returned and the UART still has is what arrived, exactly as long as no
interrupt was handled (`delivered_iff`).  Each interrupt that is handled loses one byte.
-/

namespace Yorha.Io

open Yorha.Lib Yorha.Str
open Yorha.Fs hiding read write

/-! ## Interleavings -/

/-- The devices, and what happened so far: the bytes that arrived, those that reads returned,
and how many interrupts were handled. -/
structure SerialRun where
  dev : Devices
  arrived : List UInt8
  returned : List UInt8
  handled : Nat

/-- What happens at the serial port. -/
inductive SerialEvent where
  /-- The UART receives a byte. -/
  | arrive (byte : UInt8)
  /-- The UART raises an interrupt, which is handled. -/
  | interrupt
  /-- A program reads. -/
  | read (fd : Int) (buf : Bytes) (count : Nat)

/-- An interrupt is raised when a byte is there. -/
def SerialRun.Possible (s : SerialRun) : SerialEvent → Prop
  | .interrupt => s.dev.uart.serialReceived = true
  | _ => True

instance SerialRun.decidablePossible (s : SerialRun) : ∀ e, Decidable (s.Possible e)
  | .arrive _ => inferInstanceAs (Decidable True)
  | .interrupt => inferInstanceAs (Decidable (_ = true))
  | .read _ _ _ => inferInstanceAs (Decidable True)

/-- One event. -/
def SerialRun.exec (s : SerialRun) : SerialEvent → Except Stop (Unit × SerialRun)
  | .arrive byte =>
      let uart := { s.dev.uart with received := s.dev.uart.received ++ [byte] }
      .ok ((), { s with dev := { s.dev with uart := uart }, arrived := s.arrived ++ [byte] })
  | .interrupt => do
      let dev ← serialInterruptHandler s.dev
      .ok ((), { s with dev := dev, handled := s.handled + 1 })
  | .read fd buf count => do
      let (n, buf, dev) ← serialHandler true fd buf count s.dev
      .ok ((), { s with dev := dev, returned := s.returned ++ buf.take n })

/-- Nothing has happened yet to devices whose UART may have bytes already. -/
def SerialRun.start (dev : Devices) : SerialRun := ⟨dev, dev.uart.received, [], 0⟩

/-- What was returned, and then what the UART has, is what arrived. -/
def Delivered (s : SerialRun) : Prop := s.returned ++ s.dev.uart.received = s.arrived

/-! ## Who takes a byte -/

/-- What a read at the serial port does: it takes the oldest byte, if there is one. -/
theorem serialHandler_read {fd : Int} {buf buf' : Bytes} {count n : Nat} {dev dev' : Devices}
    (h : serialHandler true fd buf count dev = .ok (n, buf', dev')) :
    buf'.take n ++ dev'.uart.received = dev.uart.received := by
  rw [serialHandler, if_pos rfl] at h
  split at h
  · rename_i hreceived
    cases h
    cases hbytes : dev.uart.received with
    | nil =>
        rw [Uart.serialReceived, hbytes] at hreceived
        cases hreceived
    | cons byte bytes =>
        change [Function.update buf 0 byte (0 + 0)] ++ bytes = byte :: bytes
        rw [Nat.add_zero, Function.update_self]
        rfl
  · cases h
    rfl

/-- What the interrupt handler does: it takes the oldest byte. -/
theorem serialInterruptHandler_ok {dev dev' : Devices}
    (h : serialInterruptHandler dev = .ok dev') :
    dev'.uart.received.length + 1 = dev.uart.received.length := by
  simp only [serialInterruptHandler, bind_eq_ok, Prod.exists] at h
  obtain ⟨byte, uart, hread, h⟩ := h
  have hlen : uart.received.length + 1 = dev.uart.received.length := by
    rw [Uart.readSerial] at hread
    split at hread
    · rename_i hreceived
      cases hread
      cases hbytes : dev.uart.received with
      | nil =>
          rw [Uart.serialReceived, hbytes] at hreceived
          cases hreceived
      | cons byte bytes =>
          rfl
    · cases hread
  split at h
  · cases h
    exact hlen
  · cases h
    exact hlen

/-- It returns if there is a byte. -/
theorem serialInterruptHandler_returns {dev : Devices} (h : dev.uart.received ≠ []) :
    ∃ dev', serialInterruptHandler dev = .ok dev' := by
  obtain ⟨byte, bytes, hbytes⟩ := List.exists_cons_of_ne_nil h
  have hread : dev.uart.serialReceived = true := by
    rw [Uart.serialReceived, hbytes]
    rfl
  rw [serialInterruptHandler, Uart.readSerial, if_pos hread, ok_bind]
  by_cases hchar : dev.uart.inb.1 = 0
  · exact ⟨_, if_neg (not_not_intro hchar)⟩
  · exact ⟨_, if_pos hchar⟩

/-! ## Runs -/

/-- Every interrupt that was handled lost a byte, and only these. -/
structure SerialInv (s : SerialRun) : Prop where
  lost : s.returned.length + s.dev.uart.received.length + s.handled = s.arrived.length
  order : s.handled = 0 → Delivered s

/-- **Step.**  A byte, an interrupt or a read. -/
theorem SerialInv.step {s s' : SerialRun} {e : SerialEvent} (h : SerialInv s)
    (hx : s.exec e = .ok ((), s')) : SerialInv s' := by
  cases e with
  | arrive byte =>
      cases hx
      refine ⟨?_, fun hnone ↦ ?_⟩
      · have hlost := h.lost
        simp only [List.length_append, List.length_singleton]
        omega
      · have horder : s.returned ++ s.dev.uart.received = s.arrived := h.order hnone
        change s.returned ++ (s.dev.uart.received ++ [byte]) = s.arrived ++ [byte]
        rw [← List.append_assoc, horder]
  | interrupt =>
      simp only [SerialRun.exec, bind_eq_ok] at hx
      obtain ⟨dev', hint, hx⟩ := hx
      cases hx
      refine ⟨?_, fun hnone ↦ (nomatch hnone)⟩
      have hlost := h.lost
      have hlen := serialInterruptHandler_ok hint
      simp only
      omega
  | read fd buf count =>
      simp only [SerialRun.exec, bind_eq_ok, Prod.exists] at hx
      obtain ⟨n, buf', dev', hread, hx⟩ := hx
      cases hx
      have hbytes := serialHandler_read hread
      refine ⟨?_, fun hnone ↦ ?_⟩
      · have hlost := h.lost
        rw [← hbytes, List.length_append] at hlost
        simp only [List.length_append]
        omega
      · have horder : s.returned ++ s.dev.uart.received = s.arrived := h.order hnone
        rw [Delivered, List.append_assoc, hbytes]
        exact horder

theorem serialInv_start (dev : Devices) : SerialInv (.start dev) :=
  ⟨by rw [SerialRun.start]; exact Nat.zero_add _, fun _ ↦ rfl⟩

theorem serialInv_of_reaches {dev : Devices} {s : SerialRun}
    (h : Reaches SerialRun.exec SerialRun.Possible (.start dev) s) : SerialInv s :=
  Reaches.invariant (I := SerialInv) h (serialInv_start dev) fun hI _ hx ↦ hI.step hx

theorem SerialInv.nothing_lost_iff {s : SerialRun} (h : SerialInv s) :
    Delivered s ↔ s.handled = 0 := by
  constructor
  · intro hd
    have hlost := h.lost
    rw [← hd, List.length_append] at hlost
    omega
  · exact h.order

/-- **Serial delivery.**  Whatever the order of bytes, interrupts and reads: the bytes that
reads returned, followed by those the UART has, are the bytes that arrived if and only if no
interrupt was handled. -/
theorem delivered_iff {dev : Devices} {s : SerialRun}
    (h : Reaches SerialRun.exec SerialRun.Possible (.start dev) s) :
    Delivered s ↔ s.handled = 0 :=
  (serialInv_of_reaches h).nothing_lost_iff

/-- Two bytes that are read as they come. -/
theorem delivered_reads : ∃ s, runCalls SerialRun.exec SerialRun.Possible
    [.arrive 65, .read 1 (fun _ ↦ 0) 1, .arrive 0, .read 1 (fun _ ↦ 0) 1] (.start .zero) = some s ∧
      Delivered s := by
  obtain ⟨s, hs, hcheck⟩ := (Option.any_eq_true _ _).mp
    (show (runCalls SerialRun.exec SerialRun.Possible
      [.arrive 65, .read 1 (fun _ ↦ 0) 1, .arrive 0, .read 1 (fun _ ↦ 0) 1]
      (.start .zero)).any (fun s ↦ s.handled == 0) = true by decide +kernel)
  exact ⟨s, hs, (delivered_iff (reaches_of_runCalls hs)).mpr (beq_iff_eq.mp hcheck)⟩

/-- **A byte whose interrupt is handled is never returned.** -/
theorem interrupt_loses_byte : ∃ s, runCalls SerialRun.exec SerialRun.Possible
    [.arrive 65, .interrupt, .read 1 (fun _ ↦ 0) 1] (.start .zero) = some s ∧
      s.returned = [] ∧ s.dev.uart.received = [] ∧ ¬ Delivered s := by
  obtain ⟨s, hs, hcheck⟩ := (Option.any_eq_true _ _).mp
    (show (runCalls SerialRun.exec SerialRun.Possible
      [.arrive 65, .interrupt, .read 1 (fun _ ↦ 0) 1] (.start .zero)).any
        (fun s ↦ decide (s.handled = 1 ∧ s.returned = [] ∧ s.dev.uart.received = [])) = true by
      decide +kernel)
  obtain ⟨hhandled, hreturned, hreceived⟩ := of_decide_eq_true hcheck
  refine ⟨s, hs, hreturned, hreceived, fun hd ↦ ?_⟩
  rw [(serialInv_of_reaches (reaches_of_runCalls hs)).nothing_lost_iff, hhandled] at hd
  cases hd

end Yorha.Io
