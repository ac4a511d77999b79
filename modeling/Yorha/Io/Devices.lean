import Yorha.Lib.Ring
import Yorha.Fs.Calls

/-!
# Keyboard, terminal and serial port

The devices behind the two special files, with the handlers of `file_handlers.c` and the
interrupt handlers of `io.c`, as the code computes them.

The serial port is a UART with the bytes it has received and the program has not read, and
the ones the program has sent.  What `init_serial` does to it is that its buffers are empty
and it raises interrupts; the registers it goes through on the way are left out, as is the
picture that `render_terminal` draws.
-/

namespace Yorha.Io

open Yorha.Lib Yorha.Str
open Yorha.Fs hiding read write

/-! ## The devices -/

/-- `RING_BUFFER_CAPACITY`. -/
def ringBufferCapacity : Nat := 64

/-- `TERMINAL_BUFFER_SIZE`. -/
def terminalBufferSize : Nat := 1024

/-- The buffer that an interrupt handler fills. -/
abbrev RingBuffer := Lib.Ring UInt8

/-- `{0}`. -/
def RingBuffer.zero : RingBuffer := ⟨fun _ ↦ 0, 0, 0⟩

/-- `keyboard_input_buffer`, and the `shift_pressed` of `keyboard_handler`. -/
structure Keyboard where
  shiftPressed : Bool
  buffer : RingBuffer

/-- `term`, without what `render_terminal` keeps in it. -/
structure Terminal where
  ttyBuffer : Bytes
  index : Nat

/-- The chip at `COM1`. -/
structure Uart where
  received : List UInt8
  sent : List UInt8
  transmitEmpty : Bool
  interrupts : Bool

/-- The devices. -/
structure Devices where
  keyboard : Keyboard
  serialPortBuffer : RingBuffer
  term : Terminal
  uart : Uart

/-- Devices that have just been switched on. -/
def Devices.zero : Devices where
  keyboard := ⟨false, RingBuffer.zero⟩
  serialPortBuffer := RingBuffer.zero
  term := ⟨fun _ ↦ 0, 0⟩
  uart := ⟨[], [], true, true⟩

/-! ## The keyboard -/

/-- `scancode_to_ascii`, without the zeros at its end. -/
def scancodeToAscii : List UInt8 :=
  [0, 0] ++ ofText "1234567890-=\x08\tqwertyuiop[]\n" ++ [0] ++
    ofText "asdfghjkl;\x27\x60" ++ [0] ++ ofText "\\zxcvbnm,./" ++ [0] ++ ofText "*" ++ [0] ++
    ofText " "

/-- `scancode_to_ascii_shifted`, without the zeros at its end. -/
def scancodeToAsciiShifted : List UInt8 :=
  [0, 0] ++ ofText "!@#$%^&*()_+\x08\tQWERTYUIOP\x7b\x7d\n" ++ [0] ++
    ofText "ASDFGHJKL:\"~" ++ [0] ++ ofText "|ZXCVBNM<>?" ++ [0] ++ ofText "*" ++ [0] ++
    ofText " "

/-- The handler of the keyboard's interrupt. -/
def keyboardHandler (scancode : UInt8) (keyboard : Keyboard) : Keyboard :=
  if scancode &&& 0x80 ≠ 0 then
    if scancode = 0xAA ∨ scancode = 0xB6 then { keyboard with shiftPressed := false }
    else keyboard
  else if scancode = 0x2A ∨ scancode = 0x36 then { keyboard with shiftPressed := true }
  else
    let table := if keyboard.shiftPressed then scancodeToAsciiShifted else scancodeToAscii
    let outputChar := table.getD scancode.toNat 0
    if outputChar ≠ 0 then
      { keyboard with buffer := keyboard.buffer.push ringBufferCapacity outputChar }
    else keyboard

/-! ## The terminal -/

/-- The loop of `tty_handler` that reads at most `n` more bytes. -/
def ttyReadLoop : Nat → Nat → Bytes → RingBuffer → Nat × Bytes × RingBuffer
  | 0, read, smallBuf, buffer => (read, smallBuf, buffer)
  | n + 1, read, smallBuf, buffer =>
      match buffer.pop ringBufferCapacity with
      | none => (read, smallBuf, buffer)
      | some (c, buffer) => ttyReadLoop n (read + 1) (Function.update smallBuf read c) buffer

/-- The loop of `tty_handler` that writes `n` more bytes. -/
def ttyWriteLoop (buf : Bytes) : Nat → Nat → Terminal → Terminal
  | 0, _, term => term
  | n + 1, written, term => ttyWriteLoop buf n (written + 1)
      { ttyBuffer := Function.update term.ttyBuffer term.index (buf written)
        index := (term.index + 1) % terminalBufferSize }

/-- `tty_handler`. -/
def ttyHandler (read : Bool) (_ : Int) (buf : Bytes) (count : Nat) (dev : Devices) :
    Except Stop (Nat × Bytes × Devices) :=
  if read then
    let (bytesRead, buf, buffer) := ttyReadLoop count 0 buf dev.keyboard.buffer
    .ok (bytesRead, buf, { dev with keyboard := { dev.keyboard with buffer := buffer } })
  else .ok (count, buf, { dev with term := ttyWriteLoop buf count 0 dev.term })

/-- `empty_initiazer`. -/
def emptyInitializer (_ : Int) (dev : Devices) : Except Stop Devices := .ok dev

/-! ## The serial port -/

/-- `serial_received`. -/
def Uart.serialReceived (uart : Uart) : Bool := !uart.received.isEmpty

/-- `inb(COM1)`. -/
def Uart.inb (uart : Uart) : UInt8 × Uart :=
  (uart.received.headD 0, { uart with received := uart.received.tail })

/-- `outb(COM1, byte)`. -/
def Uart.outb (uart : Uart) (byte : UInt8) : Uart :=
  { uart with sent := uart.sent ++ [byte] }

/-- `init_serial`. -/
def Uart.initSerial (uart : Uart) : Uart := { uart with received := [], interrupts := true }

/-- `read_serial`, which waits until a byte is there. -/
def Uart.readSerial (uart : Uart) : Except Stop (UInt8 × Uart) :=
  if uart.serialReceived then .ok uart.inb else .error .hang

/-- `serial_handler`.  It moves one byte at most, whatever `count` is. -/
def serialHandler (read : Bool) (_ : Int) (buf : Bytes) (_ : Nat) (dev : Devices) :
    Except Stop (Nat × Bytes × Devices) :=
  if read then
    if dev.uart.serialReceived then
      let (byte, uart) := dev.uart.inb
      .ok (1, Function.update buf 0 byte, { dev with uart := uart })
    else .ok (0, buf, dev)
  else if dev.uart.transmitEmpty then .ok (1, buf, { dev with uart := dev.uart.outb (buf 0) })
  else .ok (0, buf, dev)

/-- `serial_initializer`. -/
def serialInitializer (_ : Int) (dev : Devices) : Except Stop Devices :=
  .ok { dev with uart := dev.uart.initSerial }

/-- The handler of the serial port's interrupt. -/
def serialInterruptHandler (dev : Devices) : Except Stop Devices := do
  let (outputChar, uart) ← dev.uart.readSerial
  if outputChar ≠ 0 then
    .ok { dev with
      uart := uart
      serialPortBuffer := dev.serialPortBuffer.push ringBufferCapacity outputChar }
  else .ok { dev with uart := uart }

/-! ## The special files -/

/-- `system_files`. -/
def systemFiles : List (SpecialFile Devices) :=
  [{ filename := .literal "tty", handler := ttyHandler,
     initializationFunc := emptyInitializer },
   { filename := .literal "ttyS", handler := serialHandler,
     initializationFunc := serialInitializer }]

end Yorha.Io
