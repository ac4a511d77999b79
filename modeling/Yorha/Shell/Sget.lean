import Yorha.Shell.Commands
import Yorha.Io.Boot

/-!
# A file over the serial port

`exec_sget` waits for the length of a file in four bytes and for the file, and is to return
0 when it has them all.  It is modelled as a machine whose steps are the tests of its loops:
the clock goes on and bytes arrive before each of them.

It never returns 0 (`not_receives`): it compares the bytes it has read, a counter of eight
bits, with the address of the array that the length was put in, and not with the length.
When everything is there it goes on waiting, and returns -1 when its time is up.
-/

namespace Yorha.Shell

open Yorha.Lib Yorha.Str Yorha.Heap Yorha.Io
open Yorha.Fs hiding read write

variable {δ : Type}

/-! ## The machine -/

/-- Where `exec_sget` is. -/
inductive SgetPoint where
  /-- At the start of its endless loop. -/
  | top
  /-- In the loop that reads the size. -/
  | header
  /-- In the loop that reads the file. -/
  | message
  /-- In the loop that writes a character until it succeeds. -/
  | store (c : UInt8)

/-- The variables of `exec_sget`, and the clock. -/
structure Sget (δ : Type) where
  k : Kernel δ
  point : SgetPoint
  timerCounter : Nat
  baseTime : Nat
  inMessage : Bool
  bytesRead : UInt8
  fileSize : Bytes

/-- `time_out_duration`. -/
def timeOutDuration : Nat := 500

/-- One step: the next state, or what is returned. -/
def Sget.step (line : Line δ) (fd : Int) (s : Sget δ) :
    Except Stop (Sget δ ⊕ (Int × Kernel δ)) :=
  match s.point with
  | .top =>
      if s.timerCounter > s.baseTime + timeOutDuration then do
        let (_, k) ← close s.k fd
        .ok (.inr (-1, k))
      else .ok (.inl { s with point := if s.inMessage then .message else .header })
  | .header => do
      let (c, k) ← readChar s.k serial
      match c with
      | some c =>
          if s.bytesRead < 4 then
            .ok (.inl { s with
              k := k
              fileSize := Function.update s.fileSize s.bytesRead.toNat c
              bytesRead := s.bytesRead + 1 })
          else .error .fault
      | none =>
          if s.bytesRead = 4 then do
            let k ← print k stdout "beginning download file of size " 33
            let (_, k) ← Fs.write k stdout line.buf 15
            .ok (.inl { s with k := k, point := .message, inMessage := true, bytesRead := 0 })
          else .ok (.inl { s with k := k, point := .top })
  | .message => do
      let (c, k) ← readChar s.k serial
      match c with
      | some c =>
          .ok (.inl { s with
            k := k
            point := .store c
            baseTime := s.timerCounter
            bytesRead := s.bytesRead + 1 })
      | none => .ok (.inl { s with k := k, point := .top })
  | .store c => do
      let (written, k) ← writeChar s.k fd c
      if written = 0 then .ok (.inl { s with k := k })
      -- the counter is compared with the array
      else if s.bytesRead.toNat = line.fileSize.val then do
        let k ← print k stdout "download completed...\n" 23
        .ok (.inr (0, k))
      else .ok (.inl { s with k := k, point := .message })

/-- What passes before step `n`. -/
def Line.passes (line : Line δ) (n : Nat) (s : Sget δ) : Sget δ :=
  { s with
    k := { s.k with dev := line.devices n s.k.dev }
    timerCounter := s.timerCounter + line.ticks n }

/-- The steps from number `n` on. -/
def Sget.run (line : Line δ) (fd : Int) : Nat → Nat → Sget δ → Except Stop (Int × Kernel δ)
  | 0, _, _ => .error .hang
  | fuel + 1, n, s => do
      match ← (line.passes n s).step line fd with
      | .inl s => Sget.run line fd fuel (n + 1) s
      | .inr r => .ok r

/-- `sget`. -/
def execSget (k : Kernel δ) (cmd : StringList) (line : Line δ) (fuel : Nat) :
    Except Stop (Int × Kernel δ) := do
  let path ← argument k cmd 1
  let (fd, k) ← openFile k path
  if fd = -1 then .ok (-1, k)
  else do
    let k ← print k stdout "waiting for serial port to initiate communication...\n" 54
    Sget.run line fd fuel 0
      { k := k, point := .top, timerCounter := line.timerCounter, baseTime := line.timerCounter,
        inMessage := false, bytesRead := 0, fileSize := fun _ ↦ 0 }

/-! ## What it returns -/

/-- A counter of eight bits is not an address of the stack. -/
theorem toNat_ne_stackAddress (bytesRead : UInt8) (address : StackAddress) :
    bytesRead.toNat ≠ address.val := by
  have hlt := bytesRead.toNat_lt
  have hge := address.property.1
  omega

/-- **Step.**  A step that returns has found the time to be up. -/
theorem Sget.step_returns {line : Line δ} {fd v : Int} {s : Sget δ} {k' : Kernel δ}
    (h : s.step line fd = .ok (.inr (v, k'))) :
    v = -1 ∧ s.baseTime + timeOutDuration < s.timerCounter := by
  rw [Sget.step] at h
  split at h
  · -- at the top
    split at h
    · rename_i hup
      simp only [bind_eq_ok, Prod.exists] at h
      obtain ⟨r, k₁, -, h⟩ := h
      cases h
      exact ⟨rfl, hup⟩
    · cases h
  · -- reading the size
    simp only [bind_eq_ok, Prod.exists] at h
    obtain ⟨c, k₁, -, h⟩ := h
    split at h
    · split at h <;> cases h
    · split at h
      · simp only [bind_eq_ok, Prod.exists] at h
        obtain ⟨k₂, -, n, k₃, -, h⟩ := h
        cases h
      · cases h
  · -- reading the file
    simp only [bind_eq_ok, Prod.exists] at h
    obtain ⟨c, k₁, -, h⟩ := h
    split at h <;> cases h
  · -- writing a character
    simp only [bind_eq_ok, Prod.exists] at h
    obtain ⟨n, k₁, -, h⟩ := h
    split at h
    · cases h
    · rw [if_neg (toNat_ne_stackAddress _ _)] at h
      cases h

/-- **Run.**  Whatever the clock and the devices do, a run that returns returns -1. -/
theorem Sget.run_returns {line : Line δ} {fd v : Int} {fuel n : Nat} {s : Sget δ}
    {k' : Kernel δ} (h : s.run line fd fuel n = .ok (v, k')) : v = -1 := by
  induction fuel generalizing n s with
  | zero => cases h
  | succ fuel ih =>
      simp only [Sget.run, bind_eq_ok] at h
      obtain ⟨r, hstep, h⟩ := h
      match r with
      | .inl s' => exact ih h
      | .inr (v', k₁) =>
          cases h
          exact (Sget.step_returns hstep).1

theorem execSget_returns {k k' : Kernel δ} {cmd : StringList} {line : Line δ} {fuel : Nat}
    {v : Int} (h : execSget k cmd line fuel = .ok (v, k')) : v = -1 := by
  simp only [execSget, bind_eq_ok, Prod.exists] at h
  obtain ⟨path, -, fd, k₁, -, h⟩ := h
  split at h
  · cases h
    rfl
  · simp only [bind_eq_ok] at h
    obtain ⟨k₂, -, h⟩ := h
    exact Sget.run_returns h

/-! ## The protocol -/

/-- What `send.py` sends: the length of the payload, least significant byte first, and the
payload. -/
def sent (payload : List UInt8) : List UInt8 := Bytes.ofWord payload.length ++ payload

/-- A payload was received in file `i`: the file has its bytes, and no byte that was sent is
left over. -/
structure Received (k : Kernel Devices) (i : Nat) (payload : List UInt8) : Prop where
  size : (k.fs.inode i).size = payload.length
  bytes : (k.fs.block i).take payload.length = payload
  consumed : k.dev.uart.received = []

/-- `exec_sget` receives a payload: it returns 0, with the payload in the file. -/
def Receives (k : Kernel Devices) (cmd : StringList) (line : Line Devices) (i : Nat)
    (payload : List UInt8) : Prop :=
  ∃ fuel k', execSget k cmd line fuel = .ok (0, k') ∧ Received k' i payload

/-- **`exec_sget` receives nothing.**  There is no kernel, file, payload and way for the bytes
to arrive with which it returns 0. -/
theorem not_receives (k : Kernel Devices) (cmd : StringList) (line : Line Devices) (i : Nat)
    (payload : List UInt8) : ¬ Receives k cmd line i payload := by
  rintro ⟨fuel, k', h, -⟩
  cases execSget_returns h

/-! ## A file of one byte -/

/-- The bursts in which the bytes of a file of one byte come: its size, and, when that was
read, the byte. -/
def bursts (n : Nat) : List UInt8 :=
  if n = 1 then Bytes.ofWord 1 else if n = 6 then [65] else []

/-- A line on which these bursts arrive at once, and nothing else for five seconds. -/
def burstLine : Line Devices where
  timerCounter := 0
  ticks n := if n = 9 then timeOutDuration + 1 else 0
  devices n dev :=
    { dev with uart := { dev.uart with received := dev.uart.received ++ bursts n } }
  fileSize := ⟨0xC0310000, by decide⟩
  buf := fun _ ↦ 0

/-- A kernel with an empty file `/a`, and the words of a command line on its heap. -/
def sgetCommand : Except Stop (Kernel Devices × StringList) := do
  let (_, k) ←
    createFiletype systemKernel (.literal "/a") fileTypeNormal false fun _ ↦ 0
  let (cmd, heap) ← stringSplit k.heap (ofText "sget /a") 32 true
  .ok ({ k with heap := heap }, cmd)

/-- **A file arrives, and `exec_sget` reports a failure.**  The file is empty, the bytes are
those of `send.py` and none comes late; when all are written, `exec_sget` waits for more, and
returns -1. -/
theorem sget_misses_end : ∃ k cmd, sgetCommand = .ok (k, cmd) ∧
    searchDir k.fs 0 (ofText "a") = .ok 4 ∧
    (k.fs.inode 4).fileType = fileTypeNormal ∧ (k.fs.inode 4).size = 0 ∧
    (List.range 9).flatMap bursts = sent [65] ∧
    (∃ k', execSget k cmd burstLine 10 = .ok (-1, k') ∧ Received k' 4 [65]) ∧
    ¬ Receives k cmd burstLine 4 [65] := by
  have hcheck : (sgetCommand.toOption.any fun (k, cmd) ↦
      decide ((searchDir k.fs 0 (ofText "a")).toOption = some 4 ∧
        (k.fs.inode 4).fileType = fileTypeNormal ∧ (k.fs.inode 4).size = 0) &&
      (execSget k cmd burstLine 10).toOption.any fun (v, k') ↦
        decide (v = -1 ∧ (k'.fs.inode 4).size = 1 ∧ (k'.fs.block 4).take 1 = [65] ∧
          k'.dev.uart.received = [])) = true := by
    decide +kernel
  obtain ⟨⟨k, cmd⟩, hsetup, hcheck⟩ := (Option.any_eq_true _ _).mp hcheck
  rw [Bool.and_eq_true] at hcheck
  obtain ⟨hfile, hrun⟩ := hcheck
  obtain ⟨⟨v, k'⟩, hk', hreceived⟩ := (Option.any_eq_true _ _).mp hrun
  obtain ⟨hsearch, htype, hempty⟩ := of_decide_eq_true hfile
  obtain ⟨rfl, hsize, hbytes, hconsumed⟩ := of_decide_eq_true hreceived
  refine ⟨k, cmd, toOption_eq_some.mp hsetup, toOption_eq_some.mp hsearch, htype, hempty, rfl,
    ⟨k', toOption_eq_some.mp hk', hsize, hbytes, hconsumed⟩, ?_⟩
  rintro ⟨fuel, k'', h, -⟩
  cases execSget_returns h

end Yorha.Shell
