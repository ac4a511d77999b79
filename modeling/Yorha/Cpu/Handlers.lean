import Yorha.Cpu.Interrupts
import Yorha.Io.Serial
import Yorha.Io.Shift

/-!
# The routines of the kernel

The three routines that `main` installs, the devices that interrupt for them, and the shell's
reads between the interrupts.  The controller of the keyboard keeps the scancodes that nobody has
read yet.  It raises its line when it puts one at its data port, which it does when a key finds
the port free and when a read frees it for the next one.

So each scancode has its own interrupt, and reaches the handler once and in the order of the
keys; the clock never runs ahead of the timer; each interrupt of the serial port costs a byte
(`kernelInv_of_reaches`).  But a scancode that is at the port before `irq_remap` clears the lines
that wait stays there, and with it every later one (`keyboard_dead`).
-/

namespace Yorha.Cpu

open Yorha.Lib Yorha.Io

/-! ## The devices -/

/-- The routines. -/
inductive Routine where
  | timerHandler
  | keyboardHandler
  | serialInterruptHandler
deriving DecidableEq

/-- The controller of the keyboard: the scancodes at its data port and behind, and what the port
has when they are read. -/
structure KeyboardController where
  scancodes : List UInt8
  last : UInt8

/-- The devices, `timer_counter`, and the read of the keyboard that is under way.  The history
has the characters that were queued and read, as in `KeyboardRun`, the bytes that the serial port
received and that were read from it, as in `SerialRun`, the scancodes of all keys and the number
of ticks. -/
structure KernelIo where
  dev : Devices
  timerCounter : Nat
  controller : KeyboardController
  call : Option TtyRead
  accepted : List UInt8
  returned : List UInt8
  arrived : List UInt8
  serialReturned : List UInt8
  handled : Nat
  typed : List UInt8
  ticks : Nat

namespace KernelIo

/-- The keyboard, for the events of `KeyboardRun`. -/
def keyboardRun (io : KernelIo) : KeyboardRun :=
  ⟨io.dev.keyboard, io.call, io.accepted, io.returned⟩

def withKeyboard (io : KernelIo) (run : KeyboardRun) : KernelIo :=
  { io with
    dev := { io.dev with keyboard := run.keyboard }
    call := run.call
    accepted := run.accepted
    returned := run.returned }

/-- The serial port, for the events of `SerialRun`. -/
def serialRun (io : KernelIo) : SerialRun := ⟨io.dev, io.arrived, io.serialReturned, io.handled⟩

def withSerial (io : KernelIo) (run : SerialRun) : KernelIo :=
  { io with
    dev := run.dev
    arrived := run.arrived
    serialReturned := run.returned
    handled := run.handled }

/-- `inb(KEYBOARD_DATA_PORT)`. -/
def scancode (io : KernelIo) : UInt8 := io.controller.scancodes.headD io.controller.last

/-- The controller when its port was read. -/
def popScancode (io : KernelIo) : KernelIo :=
  { io with controller := ⟨io.controller.scancodes.tail, io.scancode⟩ }

end KernelIo

/-- What the devices do. -/
inductive IoEvent where
  | tick
  | key (scancode : UInt8)
  | receive (byte : UInt8)

/-- What the kernel does with the devices: the rounds of `tty_handler`, and `serial_handler`. -/
inductive KernelStep where
  | tty (e : KeyboardEvent)
  | serial (fd : Int) (buf : Bytes) (count : Nat)

local instance neZero_lines : @NeZero Nat Zero.ofOfNat0 16 := ⟨Nat.succ_ne_zero 15⟩

/-- `COM1_IRQ`. -/
def com1Irq : Line := 4

/-- A routine. -/
def Routine.run : Routine → KernelIo → Except Stop (KernelIo × List Line)
  | .timerHandler, io => .ok ({ io with timerCounter := (io.timerCounter + 1) % 2 ^ 64 }, [])
  | .keyboardHandler, io => do
      let (_, run) ← io.keyboardRun.exec (.key io.scancode)
      let io := (io.withKeyboard run).popScancode
      .ok (io, if io.controller.scancodes = [] then [] else [1])
  | .serialInterruptHandler, io => do
      let (_, run) ← io.serialRun.exec .interrupt
      .ok (io.withSerial run, [])

/-- A device acts. -/
def IoEvent.run : IoEvent → KernelIo → KernelIo × List Line
  | .tick, io => ({ io with ticks := io.ticks + 1 }, [0])
  | .key scancode, io =>
      ({ io with
          controller.scancodes := io.controller.scancodes ++ [scancode]
          typed := io.typed ++ [scancode] },
        if io.controller.scancodes = [] then [1] else [])
  | .receive byte, io =>
      ({ io with
          dev.uart.received := io.dev.uart.received ++ [byte]
          arrived := io.arrived ++ [byte] },
        [com1Irq])

/-- The kernel makes a step, if it is the next one of a read. -/
def KernelStep.run : KernelStep → KernelIo → Except Stop (KernelIo × List Line)
  | .tty (.key _), io => .ok (io, [])
  | .tty e, io =>
      if io.keyboardRun.Possible e then do
        let (_, run) ← io.keyboardRun.exec e
        .ok (io.withKeyboard run, [])
      else .ok (io, [])
  | .serial fd buf count, io => do
      let (_, run) ← io.serialRun.exec (.read fd buf count)
      .ok (io.withSerial run, [])

/-- The kernel. -/
def kernelMachinery : Machinery Routine KernelIo IoEvent KernelStep where
  routine := Routine.run
  hardware := IoEvent.run
  kernel := KernelStep.run

/-- `timer_install`, `keyboard_install` and `serial_interrupt_install`. -/
def installed : Line → Option Routine :=
  Function.update (Function.update (Function.update (fun _ ↦ none) 0 (some .timerHandler)) 1
    (some .keyboardHandler)) com1Irq (some .serialInterruptHandler)

/-- The devices when `irq_remap` has run.  Nobody has read what is at the keyboard. -/
def KernelIo.start (uart : Uart) (controller : KeyboardController) : KernelIo where
  dev := { Devices.zero with uart := uart }
  timerCounter := 0
  controller := controller
  call := none
  accepted := []
  returned := []
  arrived := uart.received
  serialReturned := []
  handled := 0
  typed := controller.scancodes
  ticks := 0

/-- The table of routines stays as `main` leaves it. -/
def InterruptEvent.KeepsTable {ρ ε κ : Type} : InterruptEvent ρ ε κ → Prop
  | .install _ _ => False
  | .uninstall _ => False
  | _ => True

instance {ρ ε κ : Type} : ∀ e : InterruptEvent ρ ε κ, Decidable e.KeepsTable
  | .install _ _ => inferInstanceAs (Decidable False)
  | .uninstall _ => inferInstanceAs (Decidable False)
  | .hardware _ => inferInstanceAs (Decidable True)
  | .kernel _ => inferInstanceAs (Decidable True)
  | .interrupt => inferInstanceAs (Decidable True)
  | .step => inferInstanceAs (Decidable True)

/-- What may happen while the kernel runs. -/
def KernelRuns (s : Interrupts Routine KernelIo)
    (e : InterruptEvent Routine IoEvent KernelStep) : Prop := s.Possible e ∧ e.KeepsTable

instance (s : Interrupts Routine KernelIo) (e : InterruptEvent Routine IoEvent KernelStep) :
    Decidable (KernelRuns s e) := inferInstanceAs (Decidable (_ ∧ _))

/-! ## The invariant -/

/-- The devices agree with the routines that were called and the calls that the lines wait for.
What was at the port of the keyboard at the beginning is `left`. -/
structure IoInv (left : List UInt8) (io : KernelIo) (called : List Nat) (owed : Line → Nat) :
    Prop where
  /-- The handler got the first scancodes, in the order of the keys. -/
  keyboard : ∃ events,
    runCalls KeyboardRun.exec KeyboardRun.Possible events .start = some io.keyboardRun ∧
      scancodes events ++ io.controller.scancodes = io.typed ∧
      (scancodes events).length = called.count 33
  accepted : io.accepted.length ≤ called.count 33
  /-- A scancode at the port waits for one call, unless it was there before. -/
  line : owed 1 = if left = [] ∧ io.controller.scancodes ≠ [] then 1 else 0
  dead : left ≠ [] → io.controller.scancodes ≠ [] ∧ called.count 33 = 0
  timer : io.timerCounter = called.count 32 % 2 ^ 64
  ticks : called.count 32 + owed 0 ≤ io.ticks
  serial : SerialInv io.serialRun
  handled : io.handled = called.count 36

section

variable {left : List UInt8} {io io' : KernelIo} {called : List Nat} {owed owed' : Line → Nat}
  {lines : List Line}

theorem scancodes_concat (events : List KeyboardEvent) (e : KeyboardEvent) :
    scancodes (events ++ [e]) = scancodes events ++ scancodes [e] := List.filterMap_append

theorem count_concat (called : List Nat) (n k : Nat) :
    (called ++ [k]).count n = called.count n + if k = n then 1 else 0 := by
  rw [List.count_append, List.count_singleton]
  simp only [beq_iff_eq]

/-- The serial port's bytes do not depend on the other devices. -/
theorem SerialInv.withKeyboard (h : SerialInv io.serialRun) (run : KeyboardRun) :
    SerialInv (io.withKeyboard run).serialRun := ⟨h.lost, h.order⟩

/-- A line was raised or served that is not the keyboard's. -/
theorem IoInv.mono (h : IoInv left io called owed) (h0 : owed' 0 ≤ owed 0)
    (h1 : owed' 1 = owed 1) : IoInv left io called owed' where
  keyboard := h.keyboard
  accepted := h.accepted
  line := h1.trans h.line
  dead := h.dead
  timer := h.timer
  ticks := (Nat.add_le_add_left h0 _).trans h.ticks
  serial := h.serial
  handled := h.handled

/-- A tick of the timer. -/
theorem IoInv.tick (h : IoInv left io called owed) (h0 : owed' 0 ≤ owed 0 + 1)
    (h1 : owed' 1 = owed 1) : IoInv left (IoEvent.tick.run io).1 called owed' where
  keyboard := h.keyboard
  accepted := h.accepted
  line := h1.trans h.line
  dead := h.dead
  timer := h.timer
  ticks := by
    have hticks := h.ticks
    change _ ≤ io.ticks + 1
    omega
  serial := ⟨h.serial.lost, h.serial.order⟩
  handled := h.handled

/-- A key is pressed or released. -/
theorem IoInv.key (h : IoInv left io called owed) (scancode : UInt8) (h0 : owed' 0 = owed 0)
    (h1 : owed' 1 = if io.controller.scancodes = [] then 1 else owed 1) :
    IoInv left ((IoEvent.key scancode).run io).1 called owed' where
  keyboard := by
    obtain ⟨events, hrun, hcodes, hlen⟩ := h.keyboard
    refine ⟨events, hrun, ?_, hlen⟩
    change scancodes events ++ (io.controller.scancodes ++ [scancode]) = io.typed ++ [scancode]
    rw [← List.append_assoc, hcodes]
  accepted := h.accepted
  line := by
    have hsome : io.controller.scancodes ++ [scancode] ≠ [] := by simp
    change _ = if left = [] ∧ io.controller.scancodes ++ [scancode] ≠ [] then 1 else 0
    rw [h1, h.line]
    by_cases hleft : left = []
    · by_cases hempty : io.controller.scancodes = []
      · rw [if_pos hempty, if_pos ⟨hleft, hsome⟩]
      · rw [if_neg hempty, if_pos ⟨hleft, hempty⟩, if_pos ⟨hleft, hsome⟩]
    · rw [if_neg (h.dead hleft).1, if_neg fun h ↦ hleft h.1, if_neg fun h ↦ hleft h.1]
  dead hleft := ⟨by change io.controller.scancodes ++ [scancode] ≠ []; simp, (h.dead hleft).2⟩
  timer := h.timer
  ticks := h0 ▸ h.ticks
  serial := ⟨h.serial.lost, h.serial.order⟩
  handled := h.handled

/-- A byte comes to the serial port. -/
theorem IoInv.receive (h : IoInv left io called owed) (byte : UInt8) (h0 : owed' 0 = owed 0)
    (h1 : owed' 1 = owed 1) : IoInv left ((IoEvent.receive byte).run io).1 called owed' where
  keyboard := h.keyboard
  accepted := h.accepted
  line := h1.trans h.line
  dead := h.dead
  timer := h.timer
  ticks := h0 ▸ h.ticks
  serial := h.serial.step (e := .arrive byte) rfl
  handled := h.handled

/-- The events of the keyboard's queue return. -/
theorem keyboardRun_exec (run : KeyboardRun) (e : KeyboardEvent) :
    ∃ run', run.exec e = .ok ((), run') ∧
      run'.accepted.length ≤ run.accepted.length + (scancodes [e]).length := by
  cases e with
  | key scancode =>
      obtain ⟨run', hrun'⟩ : ∃ run', run.exec (.key scancode) = .ok ((), run') := ⟨_, rfl⟩
      refine ⟨run', hrun', ?_⟩
      rw [KeyboardRun.exec] at hrun'
      cases hrun'
      change _ ≤ run.accepted.length + 1
      split
      · split
        · rw [List.length_append, List.length_singleton]
        · exact Nat.le_succ _
      · exact Nat.le_succ _
  | enter buf count => exact ⟨_, rfl, Nat.le_refl _⟩
  | round =>
      rw [KeyboardRun.exec]
      split
      · exact ⟨_, rfl, Nat.le_refl _⟩
      · split
        · exact ⟨_, rfl, Nat.le_refl _⟩
        · exact ⟨_, rfl, Nat.le_refl _⟩

/-- The reads of the serial port, and its interrupts, leave the keyboard alone. -/
theorem serialRun_exec {run run' : SerialRun} {e : SerialEvent}
    (h : run.exec e = .ok ((), run')) : run'.dev.keyboard = run.dev.keyboard ∧
      run'.handled = run.handled + if e matches .interrupt then 1 else 0 := by
  cases e with
  | arrive byte =>
      obtain ⟨-, rfl⟩ := Prod.mk.inj (Except.ok.inj h)
      exact ⟨rfl, rfl⟩
  | interrupt =>
      obtain ⟨dev, hdev, h⟩ := bind_eq_ok.mp h
      obtain ⟨-, rfl⟩ := Prod.mk.inj (Except.ok.inj h)
      refine ⟨?_, rfl⟩
      simp only [serialInterruptHandler, bind_eq_ok, Prod.exists] at hdev
      obtain ⟨byte, uart, -, hdev⟩ := hdev
      split at hdev
      · obtain rfl := Except.ok.inj hdev
        rfl
      · obtain rfl := Except.ok.inj hdev
        rfl
  | read fd buf count =>
      obtain ⟨⟨n, buf', dev⟩, hread, h⟩ := bind_eq_ok.mp h
      obtain ⟨-, rfl⟩ := Prod.mk.inj (Except.ok.inj h)
      refine ⟨?_, rfl⟩
      rw [serialHandler, if_pos rfl] at hread
      split at hread
      · cases hread
        rfl
      · cases hread
        rfl

/-- The kernel makes a step. -/
theorem IoInv.kernel {c : KernelStep} (h : IoInv left io called owed) (h0 : owed' 0 = owed 0)
    (h1 : owed' 1 = owed 1) (hok : c.run io = .ok (io', lines)) :
    lines = [] ∧ IoInv left io' called owed' := by
  have hsame : IoInv left io called owed' := h.mono (Nat.le_of_eq h0) h1
  -- an event of the queue that is no interrupt
  have htty : ∀ {e : KeyboardEvent}, scancodes [e] = [] → io.keyboardRun.Possible e →
      (do
        let (_, run) ← io.keyboardRun.exec e
        .ok (io.withKeyboard run, []) : Except Stop (KernelIo × List Line)) = .ok (io', lines) →
      lines = [] ∧ IoInv left io' called owed' := by
    intro e hno hpossible hok
    obtain ⟨events, hrun, hcodes, hlen⟩ := hsame.keyboard
    obtain ⟨run, hexec, haccepted⟩ := keyboardRun_exec io.keyboardRun e
    rw [hexec] at hok
    obtain ⟨rfl, rfl⟩ := Prod.mk.inj (Except.ok.inj hok)
    have hscancodes : scancodes (events ++ [e]) = scancodes events := by
      rw [scancodes_concat, hno, List.append_nil]
    refine ⟨rfl, ⟨events ++ [e], runCalls_concat hrun hpossible hexec, ?_, ?_⟩, ?_, hsame.line,
      hsame.dead, hsame.timer, hsame.ticks, SerialInv.withKeyboard hsame.serial run,
      hsame.handled⟩
    · rw [hscancodes]
      exact hcodes
    · rw [hscancodes]
      exact hlen
    · rw [hno] at haccepted
      exact haccepted.trans hsame.accepted
  cases c with
  | tty e =>
      cases e with
      | key scancode =>
          obtain ⟨rfl, rfl⟩ := Prod.mk.inj (Except.ok.inj hok)
          exact ⟨rfl, hsame⟩
      | enter buf count =>
          rw [KernelStep.run.eq_def] at hok
          dsimp only at hok
          split at hok
          · rename_i hpossible
            exact htty rfl hpossible hok
          · obtain ⟨rfl, rfl⟩ := Prod.mk.inj (Except.ok.inj hok)
            exact ⟨rfl, hsame⟩
      | round =>
          rw [KernelStep.run.eq_def] at hok
          dsimp only at hok
          split at hok
          · rename_i hpossible
            exact htty rfl hpossible hok
          · obtain ⟨rfl, rfl⟩ := Prod.mk.inj (Except.ok.inj hok)
            exact ⟨rfl, hsame⟩
  | serial fd buf count =>
      obtain ⟨⟨⟨⟩, run⟩, hexec, hok⟩ := bind_eq_ok.mp hok
      obtain ⟨rfl, rfl⟩ := Prod.mk.inj (Except.ok.inj hok)
      obtain ⟨hkeyboard, hhandled⟩ := serialRun_exec hexec
      refine ⟨rfl, ?_, hsame.accepted, hsame.line, hsame.dead, hsame.timer, hsame.ticks,
        hsame.serial.step hexec, ?_⟩
      · obtain ⟨events, hrun, hrest⟩ := hsame.keyboard
        refine ⟨events, hrun.trans ?_, hrest⟩
        rw [KernelIo.keyboardRun, KernelIo.keyboardRun]
        exact congrArg (fun k ↦ some (KeyboardRun.mk k _ _ _)) hkeyboard.symm
      · exact hhandled.trans hsame.handled

/-! ## Calls of the routines -/

/-- `timer_handler`. -/
theorem IoInv.timerHandler (h : IoInv left io called owed) (h0 : owed' 0 + 1 = owed 0)
    (h1 : owed' 1 = owed 1) (hok : Routine.timerHandler.run io = .ok (io', lines)) :
    IoInv left io' (called ++ [32]) owed' := by
  obtain ⟨rfl, rfl⟩ := Prod.mk.inj (Except.ok.inj hok)
  have h33 : (called ++ [32]).count 33 = called.count 33 := count_concat called 33 32
  have h32 : (called ++ [32]).count 32 = called.count 32 + 1 := count_concat called 32 32
  have h36 : (called ++ [32]).count 36 = called.count 36 := count_concat called 36 32
  refine ⟨?_, ?_, h1.trans h.line, ?_, ?_, ?_, ⟨h.serial.lost, h.serial.order⟩, ?_⟩
  · rw [h33]
    exact h.keyboard
  · rw [h33]
    exact h.accepted
  · rw [h33]
    exact h.dead
  · rw [h32]
    change (io.timerCounter + 1) % 2 ^ 64 = _
    rw [h.timer, Nat.mod_add_mod]
  · have hticks := h.ticks
    rw [h32]
    change _ ≤ io.ticks
    omega
  · rw [h36]
    exact h.handled

/-- `keyboard_handler`.  It is called for a scancode that is at the port. -/
theorem IoInv.keyboardHandler (h : IoInv left io called owed) (h0 : owed' 0 = owed 0)
    (hcall : owed 1 ≠ 0) (hok : Routine.keyboardHandler.run io = .ok (io', lines))
    (h1 : owed' 1 = if 1 ∈ lines then 1 else 0) :
    IoInv left io' (called ++ [33]) owed' := by
  have h33 : (called ++ [33]).count 33 = called.count 33 + 1 := count_concat called 33 33
  have h32 : (called ++ [33]).count 32 = called.count 32 := count_concat called 32 33
  have h36 : (called ++ [33]).count 36 = called.count 36 := count_concat called 36 33
  obtain ⟨hleft, hport⟩ : left = [] ∧ io.controller.scancodes ≠ [] := by
    by_contra hnot
    rw [h.line, if_neg hnot] at hcall
    exact hcall rfl
  obtain ⟨scancode, rest, hcodes⟩ := List.exists_cons_of_ne_nil hport
  have hscancode : io.scancode = scancode := by
    rw [KernelIo.scancode, hcodes]
    rfl
  obtain ⟨run, hexec, haccepted⟩ := keyboardRun_exec io.keyboardRun (.key scancode)
  simp only [Routine.run, hscancode, hexec, ok_bind] at hok
  obtain ⟨rfl, rfl⟩ := Prod.mk.inj (Except.ok.inj hok)
  have hrest : (io.withKeyboard run).popScancode.controller.scancodes = rest := by
    change io.controller.scancodes.tail = rest
    rw [hcodes]
    rfl
  refine ⟨?_, ?_, ?_, fun hne ↦ absurd hleft hne, ?_, ?_,
    SerialInv.withKeyboard h.serial run, ?_⟩
  · obtain ⟨events, hrun, horder, hlen⟩ := h.keyboard
    have hpossible : io.keyboardRun.Possible (.key scancode) := trivial
    refine ⟨events ++ [.key scancode], runCalls_concat hrun hpossible hexec, ?_, ?_⟩
    · rw [scancodes_concat, hrest, List.append_assoc]
      change scancodes events ++ (scancode :: rest) = io.typed
      rw [← hcodes]
      exact horder
    · rw [scancodes_concat, List.length_append, hlen, h33]
      rfl
  · rw [h33]
    exact haccepted.trans (Nat.add_le_add_right h.accepted 1)
  · rw [h1, hrest]
    by_cases hempty : rest = []
    · rw [if_pos hempty, if_neg List.not_mem_nil, if_neg fun h ↦ h.2 hempty]
    · rw [if_neg hempty, if_pos List.mem_cons_self, if_pos ⟨hleft, hempty⟩]
  · rw [h32]
    exact h.timer
  · rw [h32, h0]
    exact h.ticks
  · rw [h36]
    exact h.handled

/-- `serial_interrupt_handler`. -/
theorem IoInv.serialInterruptHandler (h : IoInv left io called owed) (h0 : owed' 0 = owed 0)
    (h1 : owed' 1 = owed 1)
    (hok : Routine.serialInterruptHandler.run io = .ok (io', lines)) :
    IoInv left io' (called ++ [36]) owed' := by
  have h33 : (called ++ [36]).count 33 = called.count 33 := count_concat called 33 36
  have h32 : (called ++ [36]).count 32 = called.count 32 := count_concat called 32 36
  have h36 : (called ++ [36]).count 36 = called.count 36 + 1 := count_concat called 36 36
  obtain ⟨⟨⟨⟩, run⟩, hexec, hok⟩ := bind_eq_ok.mp hok
  obtain ⟨rfl, rfl⟩ := Prod.mk.inj (Except.ok.inj hok)
  obtain ⟨hkeyboard, hhandled⟩ := serialRun_exec hexec
  refine ⟨?_, ?_, h1.trans h.line, ?_, ?_, ?_, h.serial.step hexec, ?_⟩
  · obtain ⟨events, hrun, hrest⟩ := h.keyboard
    rw [h33]
    refine ⟨events, hrun.trans ?_, hrest⟩
    rw [KernelIo.keyboardRun, KernelIo.keyboardRun]
    exact congrArg (fun k ↦ some (KeyboardRun.mk k _ _ _)) hkeyboard.symm
  · rw [h33]
    exact h.accepted
  · rw [h33]
    exact h.dead
  · rw [h32]
    exact h.timer
  · rw [h32, h0]
    exact h.ticks
  · rw [h36]
    exact hhandled.trans (congrArg (· + 1) h.handled)

/-- A call for a line without a routine. -/
theorem IoInv.skip (h : IoInv left io called owed) {n : Nat} (hn : n ≠ 32 ∧ n ≠ 33 ∧ n ≠ 36)
    (h0 : owed' 0 = owed 0) (h1 : owed' 1 = owed 1) : IoInv left io (called ++ [n]) owed' := by
  have hcount : ∀ k, n ≠ k → (called ++ [n]).count k = called.count k := by
    intro k hne
    rw [count_concat, if_neg hne]
    rfl
  have hsame := h.mono (Nat.le_of_eq h0) h1
  refine ⟨?_, ?_, hsame.line, ?_, ?_, ?_, hsame.serial, ?_⟩
  · rw [hcount 33 hn.2.1]
    exact hsame.keyboard
  · rw [hcount 33 hn.2.1]
    exact hsame.accepted
  · rw [hcount 33 hn.2.1]
    exact hsame.dead
  · rw [hcount 32 hn.1]
    exact hsame.timer
  · rw [hcount 32 hn.1]
    exact hsame.ticks
  · rw [hcount 36 hn.2.2]
    exact hsame.handled

end

/-! ## Runs -/

/-- The controllers, the table and the devices agree. -/
structure KernelInv (left : List UInt8) (s : Interrupts Routine KernelIo) : Prop where
  inv : InterruptInv s
  irqRoutines : s.irqRoutines = installed
  io : IoInv left s.devices s.called s.owed

section

variable {left : List UInt8} {s s' : Interrupts Routine KernelIo} {io : KernelIo}
  {lines : List Line} {calls : List Nat} {line : Line}

/-- A line that is not raised, and whose routine is not called. -/
theorem Acted.owed_eq (h : Acted s s' io lines calls) (hline : line ≠ low 2) (hno : line ∉ lines)
    (hcalls : calls.count (32 + line.val) = 0) : s'.owed line = s.owed line := by
  have howed := h.owed line hline
  rw [hcalls, decide_eq_false hno, Bool.or_false] at howed
  exact howed

/-- A line that is raised waits for one call more, or for no more than before. -/
theorem Acted.owed_le (h : Acted s s' io lines []) (hline : line ≠ low 2) :
    s'.owed line ≤ s.owed line + 1 := by
  have howed : s'.owed line = _ := h.owed line hline
  have hle := Bool.toNat_le (s.pics.pending line || decide (line ∈ lines))
  rw [howed, Interrupts.owed]
  omega

/-- A line that is raised and waited for nothing. -/
theorem Acted.owed_raised (h : Acted s s' io lines []) (hline : line ≠ low 2) (hmem : line ∈ lines)
    (hzero : s.owed line = 0) : s'.owed line = 1 := by
  have howed : s'.owed line = _ := h.owed line hline
  rw [Interrupts.owed] at hzero
  rw [decide_eq_true hmem, Bool.or_true, (Nat.add_eq_zero_iff.mp hzero).2] at howed
  exact howed

/-- The line whose routine is called. -/
theorem Acted.owed_called (h : Acted s s' io lines [32 + line.val]) (hline : line ≠ low 2)
    (htoCall : s.toCall = [32 + line.val]) :
    s'.owed line = (s.pics.pending line || decide (line ∈ lines)).toNat ∧
      s.owed line = (s.pics.pending line).toNat + 1 := by
  have howed := h.owed line hline
  have hone : [32 + line.val].count (32 + line.val) = 1 := List.count_singleton_self
  rw [htoCall, hone] at howed
  refine ⟨Nat.add_right_cancel howed, ?_⟩
  rw [Interrupts.owed, htoCall, hone]

theorem installed_cases : ∀ line : Line, line = 0 ∧ installed line = some .timerHandler ∨
    line = 1 ∧ installed line = some .keyboardHandler ∨
    line = 4 ∧ installed line = some .serialInterruptHandler ∨
    (line ≠ 0 ∧ line ≠ 1 ∧ line ≠ 4) ∧ installed line = none := by decide

/-- A device acts. -/
theorem KernelInv.hardware (h : KernelInv left s) (e : IoEvent)
    (hact : Acted s s' (e.run s.devices).1 (e.run s.devices).2 []) :
    IoInv left s'.devices s'.called s'.owed := by
  rw [hact.devices, hact.called, List.append_nil]
  cases e with
  | tick =>
      have hother : (1 : Line) ∉ [(0 : Line)] := by decide
      exact h.io.tick (hact.owed_le (by decide)) (hact.owed_eq (by decide) hother rfl)
  | key scancode =>
      have hnever : (0 : Line) ∉ if s.devices.controller.scancodes = [] then [1] else [] := by
        split
        · decide
        · exact List.not_mem_nil
      refine h.io.key scancode (hact.owed_eq (by decide) hnever rfl) ?_
      by_cases hempty : s.devices.controller.scancodes = []
      · rw [if_pos hempty]
        have hzero : s.owed 1 = 0 := h.io.line.trans (if_neg fun h ↦ h.2 hempty)
        refine hact.owed_raised (by decide) ?_ hzero
        rw [IoEvent.run, if_pos hempty]
        exact List.mem_cons_self
      · rw [if_neg hempty]
        refine hact.owed_eq (by decide) ?_ rfl
        rw [IoEvent.run, if_neg hempty]
        exact List.not_mem_nil
  | receive byte =>
      have hother : (0 : Line) ∉ [com1Irq] ∧ (1 : Line) ∉ [com1Irq] := by decide
      exact h.io.receive byte (hact.owed_eq (by decide) hother.1 rfl)
        (hact.owed_eq (by decide) hother.2 rfl)

/-- A routine is called. -/
theorem KernelInv.routine (h : KernelInv left s) (htoCall : s.toCall = [32 + line.val])
    (hruns : RoutineRuns kernelMachinery s line io lines)
    (hact : Acted s s' io lines [32 + line.val]) :
    IoInv left s'.devices s'.called s'.owed := by
  rw [hact.devices, hact.called]
  rw [RoutineRuns, h.irqRoutines] at hruns
  -- the lines whose routine is another one
  have hother : ∀ {line' : Line}, line' ≠ low 2 → line' ∉ lines → line ≠ line' →
      s'.owed line' = s.owed line' := by
    intro line' h2 hno hne
    refine hact.owed_eq h2 hno ?_
    rw [List.count_singleton, if_neg]
    simp only [beq_iff_eq]
    intro heq
    exact hne (Fin.ext (by omega))
  rcases installed_cases line with ⟨rfl, hline⟩ | ⟨rfl, hline⟩ | ⟨rfl, hline⟩ | ⟨hno, hline⟩
  · rw [hline] at hruns
    obtain ⟨-, rfl⟩ := Prod.mk.inj (Except.ok.inj (hruns.symm.trans rfl))
    obtain ⟨h0, h0'⟩ := hact.owed_called (by decide) htoCall
    refine h.io.timerHandler ?_ (hother (by decide) List.not_mem_nil (by decide)) hruns
    rw [h0, h0', decide_eq_false List.not_mem_nil, Bool.or_false]
  · rw [hline] at hruns
    obtain ⟨h1, h1'⟩ := hact.owed_called (by decide) htoCall
    have hcall : s.owed 1 ≠ 0 := by
      rw [h1']
      exact Nat.succ_ne_zero _
    have hpending : s.pics.pending 1 = false := by
      have hline := h.io.line
      rw [h1'] at hline
      split at hline
      · exact Bool.toNat_eq_zero.mp (Nat.succ.inj hline)
      · exact absurd hline (Nat.succ_ne_zero _)
    have hlines : lines = [] ∨ lines = [1] := by
      obtain ⟨⟨⟨⟩, run⟩, -, hok⟩ := bind_eq_ok.mp hruns
      obtain ⟨-, rfl⟩ := Prod.mk.inj (Except.ok.inj hok)
      split
      · exact .inl rfl
      · exact .inr rfl
    refine h.io.keyboardHandler (hother (by decide) ?_ (by decide)) hcall hruns ?_
    · rcases hlines with rfl | rfl
      · exact List.not_mem_nil
      · decide
    · rw [h1, hpending, Bool.false_or]
      by_cases hmem : (1 : Line) ∈ lines
      · rw [decide_eq_true hmem, if_pos hmem]
        rfl
      · rw [decide_eq_false hmem, if_neg hmem]
        rfl
  · rw [hline] at hruns
    have hlines : lines = [] := by
      obtain ⟨⟨⟨⟩, run⟩, -, hok⟩ := bind_eq_ok.mp hruns
      exact (Prod.mk.inj (Except.ok.inj hok)).2.symm
    subst hlines
    exact h.io.serialInterruptHandler (hother (by decide) List.not_mem_nil (by decide))
      (hother (by decide) List.not_mem_nil (by decide)) hruns
  · rw [hline] at hruns
    obtain ⟨rfl, rfl⟩ := hruns
    obtain ⟨h0, h1, h4⟩ := hno
    refine h.io.skip ⟨?_, ?_, ?_⟩ (hother (by decide) List.not_mem_nil h0)
      (hother (by decide) List.not_mem_nil h1)
    · exact fun heq ↦ h0 (Fin.ext (Nat.add_left_cancel heq))
    · exact fun heq ↦ h1 (Fin.ext (Nat.add_left_cancel heq))
    · exact fun heq ↦ h4 (Fin.ext (Nat.add_left_cancel heq))

theorem Passes.kernelInv (hpasses : Passes s s') (hinv : InterruptInv s') (h : KernelInv left s) :
    KernelInv left s' := by
  refine ⟨hinv, hpasses.irqRoutines.trans h.irqRoutines, ?_⟩
  rw [hpasses.devices, hpasses.called]
  exact h.io.mono (Nat.le_of_eq (hpasses.owed 0 (by decide))) (hpasses.owed 1 (by decide))

/-- **Step.** -/
theorem KernelInv.step {e : InterruptEvent Routine IoEvent KernelStep} (h : KernelInv left s)
    (he : KernelRuns s e) (hx : s.exec kernelMachinery e = .ok ((), s')) : KernelInv left s' := by
  have hinv := h.inv.step he.1 hx
  cases e with
  | hardware e =>
      obtain ⟨-, rfl⟩ := Prod.mk.inj (Except.ok.inj hx)
      have hact := acted_raiseAll h.inv.setUp (e.run s.devices).1 (e.run s.devices).2
      exact ⟨hinv, hact.irqRoutines.trans h.irqRoutines, h.hardware e hact⟩
  | kernel c =>
      obtain ⟨⟨io, lines⟩, hok, hx⟩ := bind_eq_ok.mp hx
      obtain ⟨-, rfl⟩ := Prod.mk.inj (Except.ok.inj hx)
      have hact := acted_raiseAll h.inv.setUp io lines
      refine ⟨hinv, hact.irqRoutines.trans h.irqRoutines, ?_⟩
      have hlines : lines = [] := (h.io.kernel rfl rfl hok).1
      subst hlines
      rw [hact.devices, hact.called, List.append_nil]
      exact (h.io.kernel (hact.owed_eq (by decide) List.not_mem_nil rfl)
        (hact.owed_eq (by decide) List.not_mem_nil rfl) hok).2
  | interrupt =>
      obtain ⟨s₁, hok, hx⟩ := bind_eq_ok.mp hx
      obtain ⟨-, rfl⟩ := Prod.mk.inj (Except.ok.inj hx)
      exact (h.inv.takeInterrupt_passes he.1 hok).kernelInv hinv h
  | step =>
      obtain ⟨s₁, hok, hx⟩ := bind_eq_ok.mp hx
      obtain ⟨-, rfl⟩ := Prod.mk.inj (Except.ok.inj hx)
      rcases h.inv.stepHandler_cases hok with ⟨line, io, lines, htoCall, hruns, hact⟩ | hpasses
      · exact ⟨hinv, hact.irqRoutines.trans h.irqRoutines, h.routine htoCall hruns hact⟩
      · exact hpasses.kernelInv hinv h
  | install irq handler => exact absurd he.2 id
  | uninstall irq => exact absurd he.2 id

theorem kernelInv_start (p : Pics) (uart : Uart) (controller : KeyboardController) :
    KernelInv controller.scancodes (.start p installed (.start uart controller)) := by
  have hpending := (setUp_irqRemap p).2.1
  have howed : ∀ line, (Interrupts.start p installed (KernelIo.start uart controller)).owed line
      = 0 := by
    intro line
    rw [Interrupts.owed]
    change ((irqRemap 0x20 0x28 p).pending line).toNat + 0 = 0
    rw [hpending line]
    rfl
  refine ⟨interruptInv_start p installed _, rfl, ⟨[], rfl, rfl, rfl⟩, Nat.le_refl _, ?_, ?_, rfl,
    Nat.le_of_eq ?_, ⟨?_, fun _ ↦ rfl⟩, rfl⟩
  · rw [howed]
    exact (if_neg fun h ↦ h.2 h.1).symm
  · exact fun hne ↦ ⟨hne, rfl⟩
  · change 0 + _ = 0
    rw [howed]
  · change 0 + uart.received.length + 0 = uart.received.length
    rw [Nat.zero_add, Nat.add_zero]

theorem kernelInv_of_reaches {p : Pics} {uart : Uart} {controller : KeyboardController}
    (hreach : Reaches (Interrupts.exec kernelMachinery) KernelRuns
      (.start p installed (.start uart controller)) s) : KernelInv controller.scancodes s :=
  hreach.invariant (kernelInv_start p uart controller) fun h he hx ↦ h.step he hx

/-! ## The kernel comes to rest -/

/-- The routines find what their lines announce: the keyboard's last scancode, and a byte at the
serial port. -/
theorem rests_kernelMachinery (hnodup : lines.Nodup)
    (hkeyboard : 1 ∈ lines → io.controller.scancodes.tail = [])
    (hserial : com1Irq ∈ lines → io.dev.uart.received ≠ []) :
    kernelMachinery.Rests installed lines io := by
  induction lines generalizing io with
  | nil => trivial
  | cons line lines ih =>
      obtain ⟨hhead, htail⟩ := List.nodup_cons.mp hnodup
      have hkeyboard' (hmem : 1 ∈ lines) := hkeyboard (.tail line hmem)
      have hserial' (hmem : com1Irq ∈ lines) := hserial (.tail line hmem)
      rw [Machinery.Rests]
      rcases installed_cases line with ⟨rfl, hline⟩ | ⟨rfl, hline⟩ | ⟨rfl, hline⟩ | ⟨-, hline⟩
      · rw [hline]
        exact ⟨_, rfl, ih htail hkeyboard' hserial'⟩
      · rw [hline]
        obtain ⟨run, hexec, -⟩ := keyboardRun_exec io.keyboardRun (.key io.scancode)
        have hempty : (io.withKeyboard run).popScancode.controller.scancodes = [] :=
          hkeyboard (.head _)
        refine ⟨(io.withKeyboard run).popScancode, ?_, ih htail (absurd · hhead) hserial'⟩
        change Routine.keyboardHandler.run io = _
        rw [Routine.run, hexec]
        exact congrArg (fun lines ↦ Except.ok (_, lines)) (if_pos hempty)
      · rw [hline]
        obtain ⟨dev, hdev⟩ := serialInterruptHandler_returns (hserial (.head _))
        refine ⟨io.withSerial { io.serialRun with dev := dev, handled := io.handled + 1 }, ?_,
          ih htail hkeyboard' (absurd · hhead)⟩
        change Routine.serialInterruptHandler.run io = _
        rw [Routine.run, SerialRun.exec, show io.serialRun.dev = io.dev from rfl, hdev]
        rfl
      · rw [hline]
        exact ih htail hkeyboard' hserial'

/-- **The kernel comes to rest.**  In every state that a run reaches in which no handler runs,
when the keyboard has one scancode at most and the serial port a byte if its line waits: all
lines that wait are served in order, and then no interrupt is asked for. -/
theorem KernelInv.serveAll (h : KernelInv left s) (hnone : s.handling = none)
    (hkeyboard : s.devices.controller.scancodes.tail = [])
    (hserial : com1Irq ∈ s.waiting → s.devices.dev.uart.received ≠ []) :
    ∃ s', Interrupts.serveAll kernelMachinery s.waiting.length s = .ok s' ∧
      ServedLines s s' s.waiting ∧ s'.pics.intr = false := by
  have hrests : kernelMachinery.Rests s.irqRoutines s.waiting s.devices := by
    rw [h.irqRoutines]
    exact rests_kernelMachinery (nodup_servedOrder.filter _) (fun _ ↦ hkeyboard) hserial
  obtain ⟨s', hall, hserved⟩ := h.inv.serveAll hnone hrests rfl (Nat.le_refl _)
  exact ⟨s', hall, hserved, hserved.intr⟩

end

/-- **Every key is handled once and in order**, if nothing is at the port of the keyboard when
`irq_remap` runs (`keyboard_dead` has the other case).  Whatever the timer, the keyboard and the
serial port do between the steps of the handlers and of the reads: the scancodes that
`keyboard_handler` got are the first ones of all keys, in their order, and the others are at the
controller, which waits for exactly one call if there are any.  So when no handler runs and none
is asked for, the shift flag is that of the keys typed so far, and the queue has lost only what
did not fit. -/
theorem keyboard_of_reaches {p : Pics} {uart : Uart} {last : UInt8}
    {s : Interrupts Routine KernelIo}
    (hreach : Reaches (Interrupts.exec kernelMachinery) KernelRuns
      (.start p installed (.start uart ⟨[], last⟩)) s) :
    (∃ events, runCalls KeyboardRun.exec KeyboardRun.Possible events .start =
        some s.devices.keyboardRun ∧
      scancodes events ++ s.devices.controller.scancodes = s.devices.typed) ∧
    s.owed 1 = (if s.devices.controller.scancodes = [] then 0 else 1) ∧
    KeyboardFifo s.devices.keyboardRun ∧
    (s.handling = none → s.pics.intr = false →
      s.devices.controller.scancodes = [] ∧
        (s.devices.dev.keyboard.shiftPressed = true ↔ LastPressed s.devices.typed)) := by
  have hinv := kernelInv_of_reaches hreach
  obtain ⟨events, hrun, htyped, -⟩ := hinv.io.keyboard
  have hline : s.owed 1 = if s.devices.controller.scancodes = [] then 0 else 1 := by
    rw [hinv.io.line]
    by_cases hempty : s.devices.controller.scancodes = []
    · rw [if_pos hempty, if_neg fun h ↦ h.2 hempty]
    · rw [if_neg hempty, if_pos ⟨rfl, hempty⟩]
  refine ⟨⟨events, hrun, htyped⟩, hline, keyboardFifo_of_reaches (reaches_of_runCalls hrun),
    fun hnone hintr ↦ ?_⟩
  -- no line waits, and no handler has a call to make
  have howed : s.owed 1 = 0 := by
    obtain ⟨hm, hs⟩ := hinv.inv.quiet hnone
    rw [intr_eq hinv.inv.setUp hm hs, Option.isSome_eq_false_iff, Option.isNone_iff_eq_none]
      at hintr
    have hpending : s.pics.pending 1 = false :=
      Bool.eq_false_iff.mpr (List.find?_eq_none.mp hintr 1 (by decide))
    rw [Interrupts.owed, hpending, Interrupts.toCall, hnone]
    rfl
  have hempty : s.devices.controller.scancodes = [] := by
    by_contra hne
    rw [hline, if_neg hne] at howed
    exact Nat.one_ne_zero howed
  rw [hempty, List.append_nil] at htyped
  refine ⟨hempty, ?_⟩
  rw [← htyped]
  exact shiftPressed_of_runCalls hrun

/-- The shift key and `a`, with the timer and a read between them. -/
def typeA : List (InterruptEvent Routine IoEvent KernelStep) :=
  [.hardware (.key 0x2A), .hardware .tick, .interrupt, .hardware (.key 0x1E), .step, .step, .step,
    .interrupt, .step, .step, .step, .kernel (.tty (.enter (fun _ ↦ 0) 1)), .interrupt, .step,
    .step, .hardware .tick, .step, .kernel (.tty .round)]

/-- And the second tick is served, so that no interrupt is asked for. -/
theorem keyboard_of_reaches_typeA : ∃ s, runCalls (Interrupts.exec kernelMachinery) KernelRuns
    (typeA ++ [.interrupt, .step, .step, .step])
      (.start ⟨.zero, .zero⟩ installed (.start ⟨[], [], true, true⟩ ⟨[], 0⟩)) = some s ∧
    s.devices.accepted = Str.ofText "A" ∧
    (∃ events, runCalls KeyboardRun.exec KeyboardRun.Possible events .start =
        some s.devices.keyboardRun ∧
      scancodes events ++ s.devices.controller.scancodes = s.devices.typed) ∧
    s.owed 1 = (if s.devices.controller.scancodes = [] then 0 else 1) ∧
    KeyboardFifo s.devices.keyboardRun ∧ s.devices.controller.scancodes = [] ∧
    (s.devices.dev.keyboard.shiftPressed = true ↔ LastPressed s.devices.typed) := by
  obtain ⟨s, hs, hcheck⟩ := (Option.any_eq_true _ _).mp
    (show (runCalls (Interrupts.exec kernelMachinery) KernelRuns
      (typeA ++ [.interrupt, .step, .step, .step])
      (.start ⟨.zero, .zero⟩ installed (.start ⟨[], [], true, true⟩ ⟨[], 0⟩))).any
      (fun s ↦ decide (s.devices.accepted = Str.ofText "A" ∧ s.handling.isNone = true ∧
        s.pics.intr = false)) = true by decide +kernel)
  obtain ⟨haccepted, hnone, hintr⟩ := of_decide_eq_true hcheck
  obtain ⟨hevents, hline, hfifo, hquiet⟩ := keyboard_of_reaches (reaches_of_runCalls hs)
  exact ⟨s, hs, haccepted, hevents, hline, hfifo,
    hquiet (Option.isNone_iff_eq_none.mp hnone) hintr⟩

/-- **The clock never runs ahead**, and the serial port loses a byte with each interrupt, in every
such run. -/
theorem clock_of_reaches {p : Pics} {uart : Uart} {controller : KeyboardController}
    {s : Interrupts Routine KernelIo}
    (hreach : Reaches (Interrupts.exec kernelMachinery) KernelRuns
      (.start p installed (.start uart controller)) s) :
    s.devices.timerCounter = s.called.count 32 % 2 ^ 64 ∧
      s.called.count 32 + s.owed 0 ≤ s.devices.ticks ∧
      s.devices.serialReturned.length + s.devices.dev.uart.received.length +
        s.called.count 36 = s.devices.arrived.length := by
  have hinv := kernelInv_of_reaches hreach
  refine ⟨hinv.io.timer, hinv.io.ticks, ?_⟩
  rw [← hinv.io.handled]
  exact hinv.io.serial.lost

/-- In the same run, the second tick still waits. -/
theorem clock_of_reaches_typeA : ∃ s, runCalls (Interrupts.exec kernelMachinery) KernelRuns
    typeA (.start ⟨.zero, .zero⟩ installed (.start ⟨[], [], true, true⟩ ⟨[], 0⟩)) = some s ∧
    s.devices.ticks = 2 ∧ s.owed 0 = 1 ∧
    (s.devices.timerCounter = s.called.count 32 % 2 ^ 64 ∧
      s.called.count 32 + s.owed 0 ≤ s.devices.ticks ∧
      s.devices.serialReturned.length + s.devices.dev.uart.received.length +
        s.called.count 36 = s.devices.arrived.length) := by
  obtain ⟨s, hs, hcheck⟩ := (Option.any_eq_true _ _).mp
    (show (runCalls (Interrupts.exec kernelMachinery) KernelRuns typeA
      (.start ⟨.zero, .zero⟩ installed (.start ⟨[], [], true, true⟩ ⟨[], 0⟩))).any
      (fun s ↦ decide (s.devices.ticks = 2 ∧ s.owed 0 = 1)) = true by decide +kernel)
  obtain ⟨hticks, howed⟩ := of_decide_eq_true hcheck
  exact ⟨s, hs, hticks, howed, clock_of_reaches (reaches_of_runCalls hs)⟩

/-- **A key before `irq_remap` silences the keyboard.**  If a scancode is at the port by then, no
later run calls `keyboard_handler`: all scancodes stay at the controller, no character is queued
and no read of the keyboard returns one. -/
theorem keyboard_dead {p : Pics} {uart : Uart} {controller : KeyboardController}
    {s : Interrupts Routine KernelIo} (hport : controller.scancodes ≠ [])
    (hreach : Reaches (Interrupts.exec kernelMachinery) KernelRuns
      (.start p installed (.start uart controller)) s) :
    33 ∉ s.called ∧ s.devices.controller.scancodes = s.devices.typed ∧
      s.devices.accepted = [] ∧ s.devices.returned = [] := by
  have hinv := kernelInv_of_reaches hreach
  obtain ⟨events, hrun, htyped, hlen⟩ := hinv.io.keyboard
  obtain ⟨-, hcount⟩ := hinv.io.dead hport
  have haccepted : s.devices.accepted = [] :=
    List.length_eq_zero_iff.mp (Nat.le_zero.mp (hcount ▸ hinv.io.accepted))
  refine ⟨List.count_eq_zero.mp hcount, ?_, haccepted, ?_⟩
  · rw [List.length_eq_zero_iff.mp (hlen.trans hcount)] at htyped
    exact htyped
  · have horder : s.devices.returned ++ _ = s.devices.accepted :=
      (keyboardFifo_of_reaches (reaches_of_runCalls hrun)).order
    rw [haccepted] at horder
    exact (List.append_eq_nil_iff.mp horder).1

/-- The same keys, with the release of another one at the port. -/
theorem keyboard_dead_typeA : ∃ s, runCalls (Interrupts.exec kernelMachinery) KernelRuns
    (typeA.take 7) (.start ⟨.zero, .zero⟩ installed
      (.start ⟨[], [], true, true⟩ ⟨[0x9C], 0⟩)) = some s ∧
    33 ∉ s.called ∧ s.devices.controller.scancodes = s.devices.typed ∧
      s.devices.accepted = [] ∧ s.devices.returned = [] := by
  obtain ⟨s, hs⟩ := Option.isSome_iff_exists.mp
    (show (runCalls (Interrupts.exec kernelMachinery) KernelRuns (typeA.take 7)
      (.start ⟨.zero, .zero⟩ installed
        (.start ⟨[], [], true, true⟩ ⟨[0x9C], 0⟩))).isSome = true by decide +kernel)
  exact ⟨s, hs, keyboard_dead (List.cons_ne_nil _ _) (reaches_of_runCalls hs)⟩

end Yorha.Cpu
