import Yorha.Fs.SetUp
import Yorha.Io.Devices

/-!
# Two boots

The system with its two system files: a boot that formats a disk, programs that make,
open, write and remove files, a shutdown, and the next boot.  It completes as long as the
programs keep to `KeepsDevices`, and does not once `/dev/tty` has been removed.

When it opens its system files, it does not initialize the serial port
(`not_setsUp_systemFiles`): the initializer that it calls is that of the terminal.
-/

namespace Yorha.Io

open Yorha.Lib Yorha.Str Yorha.Heap
open Yorha.Fs hiding read write

/-- The table of the code is one in which no file is open. -/
theorem systemTable_systemFiles : SystemTable systemFiles where
  name := by
    refine List.forall_mem_cons.mpr ⟨?_, List.forall_mem_singleton.mpr ?_⟩
    · exact ⟨by decide, by decide, by decide, by decide⟩
    · exact ⟨by decide, by decide, by decide, by decide⟩
  closed := List.forall_mem_cons.mpr ⟨rfl, List.forall_mem_singleton.mpr rfl⟩
  initializes := List.forall_mem_cons.mpr
    ⟨fun _ _ ↦ ⟨_, rfl⟩, List.forall_mem_singleton.mpr fun _ _ ↦ ⟨_, rfl⟩⟩
  length_le := by decide

/-- **The next boot completes.**  In every state that calls keeping to `KeepsDevices` lead to
from a formatted disk, a shutdown and the next mount complete. -/
theorem remounts_of_reaches {k₀ k : Kernel Devices} (h₀ : FormattedWith systemFiles k₀)
    (h : Reaches FsCall.exec KeepsDevices k₀ k) : Remounts systemFiles k :=
  (remountInv_of_reaches systemTable_systemFiles h₀ h).remounts systemTable_systemFiles

/-! ## A machine -/

/-- Memory that is zero, as far as anybody looks. -/
def zeroSurroundings : Surroundings := ⟨fun _ ↦ 0, fun _ ↦ 0, some fun _ ↦ 0, fun _ ↦ 0⟩

/-- The kernel that starts with a disk. -/
def bootKernel (disk : Disk) : Kernel Devices where
  fs := FileSystem.zero disk
  heap := ⟨AllocArray.initial 0x400000, fun _ ↦ 0⟩
  systemFiles := systemFiles
  dev := Devices.zero

/-- The kernel after it formatted a disk of zeros of a megabyte. -/
def systemKernel : Kernel Devices :=
  ((formatDisk (bootKernel fun _ _ ↦ 0) 0x100000 zeroSurroundings).toOption).getD
    (bootKernel fun _ _ ↦ 0)

/-- Formatting a disk of zeros of a megabyte returns for any system whose files it can make. -/
theorem formattedWith_of_isSome {δ : Type} {k₀ : Kernel δ} (hboot : Boot k₀)
    (hsome : (formatDisk k₀ 0x100000 zeroSurroundings).toOption.isSome = true) :
    FormattedWith k₀.systemFiles
      (((formatDisk k₀ 0x100000 zeroSurroundings).toOption).getD k₀) := by
  refine ⟨k₀, 0x100000, zeroSurroundings, hboot, rfl, by decide, ?_⟩
  cases h : formatDisk k₀ 0x100000 zeroSurroundings with
  | error e =>
      rw [h] at hsome
      cases hsome
  | ok k => rfl

theorem formattedWith_systemKernel : FormattedWith systemFiles systemKernel := by
  have hboot : Boot (bootKernel fun _ _ ↦ 0) := ⟨⟨_, rfl⟩, ⟨_, rfl⟩⟩
  exact formattedWith_of_isSome hboot (by decide +kernel)

/-- The two initializers are not the same: one of them makes the serial port raise interrupts. -/
theorem emptyInitializer_ne : emptyInitializer ≠ serialInitializer := by
  intro heq
  have hdev := congrFun (congrFun heq 0) { Devices.zero with uart := ⟨[], [], true, false⟩ }
  have hraises : false = true := congrArg (fun dev ↦ dev.uart.interrupts) (Except.ok.inj hdev)
  cases hraises

/-- **The boot after the one that formatted the disk** opens its two system files, and does not
set them up. -/
theorem not_setsUp_systemFiles : ¬ ∀ k : Kernel Devices, CanSetUp k → SetsUp k := by
  intro h
  have hslash : ∀ file ∈ systemFiles, slash ∉ file.filename.chars :=
    List.forall_mem_cons.mpr ⟨by decide, List.forall_mem_singleton.mpr (by decide)⟩
  have hinv := formattedWith_systemKernel.remountInv systemTable_systemFiles
  have hcan := hinv.canSetUp systemTable_systemFiles hslash (bootKernel fun _ _ ↦ 0) ⟨_, rfl⟩ rfl
    zeroSurroundings
  have hsame := hcan.sameInit (h _ hcan)
  exact emptyInitializer_ne (hsame _ List.mem_cons_self _
    (List.mem_cons_of_mem _ (List.mem_singleton.mpr rfl)))

/-- A program that makes a file in a directory of its own and writes to it, makes another one
in `/dev`, and removes the first. -/
def officeCalls : List FsCall :=
  [.mkdir (.literal "/d") fun _ ↦ 0, .create (.literal "/d/a") fun _ ↦ 0,
    .write 2 (fun _ ↦ 7) 100, .close 2, .create (.literal "/dev/b") fun _ ↦ 0,
    .unlink (.literal "/d/a") fun _ ↦ 0]

theorem remounts_officeCalls : ∃ k, runCalls FsCall.exec KeepsDevices officeCalls
    systemKernel = some k ∧ Remounts systemFiles k := by
  obtain ⟨k, hk⟩ := Option.isSome_iff_exists.mp
    (show (runCalls FsCall.exec KeepsDevices officeCalls systemKernel).isSome = true by
      decide +kernel)
  exact ⟨k, hk, remounts_of_reaches formattedWith_systemKernel (reaches_of_runCalls hk)⟩

/-- Shutting down and mounting again after these calls. -/
theorem mount_undoes_shutdown_officeCalls : ∃ k k₁,
    runCalls FsCall.exec KeepsDevices officeCalls systemKernel = some k ∧
    (k.fs.inode 4).fileType = fileTypeDir ∧ (k.fs.inode 6).parentInodeNum = 1 ∧
    shutdown k zeroSurroundings = .ok k₁ ∧
    (∀ b, k.fs.globalSuper.dataStart ≤ b → k₁.fs.disk b = k.fs.disk b) ∧ Restores k k₁ := by
  obtain ⟨k, hk, hcheck⟩ := (Option.any_eq_true _ _).mp
    (show (runCalls FsCall.exec KeepsDevices officeCalls systemKernel).any (fun k ↦
      decide ((k.fs.inode 4).fileType = fileTypeDir ∧ (k.fs.inode 6).parentInodeNum = 1)) = true by
      decide +kernel)
  obtain ⟨hdir, hparent⟩ := of_decide_eq_true hcheck
  have hmountable := (remountInv_of_reaches systemTable_systemFiles formattedWith_systemKernel
    (reaches_of_runCalls hk)).mountable
  obtain ⟨k₁, hshutdown, hdata, hrestores⟩ := mount_undoes_shutdown
    ⟨hmountable.super.range, hmountable.inodes⟩ hmountable.super.layout
    hmountable.super.recognized hmountable.fds zeroSurroundings
  exact ⟨k, k₁, hk, hdir, hparent, hshutdown, hdata, hrestores⟩

/-- Why the boot after a shutdown halts, if it does. -/
def nextBootStops (k : Kernel Devices) : Option Stop :=
  stop do
    let k₁ ← shutdown k zeroSurroundings
    initalizeFileSystem (bootKernel k₁.fs.disk) false 0x100000 zeroSurroundings

theorem not_remounts_of_stops {k : Kernel Devices} {e : Stop} (h : nextBootStops k = some e) :
    ¬ Remounts systemFiles k := by
  intro hre
  obtain ⟨k₁, hk₁, hboot⟩ := hre zeroSurroundings
  obtain ⟨k₃, hk₃⟩ :=
    hboot (bootKernel k₁.fs.disk) 0x100000 zeroSurroundings rfl ⟨_, rfl⟩ rfl
  rw [nextBootStops, hk₁, ok_bind, hk₃] at h
  cases h

/-- **After `/dev/tty` was removed, the next boot halts.** -/
theorem unlink_tty_breaks_boot : FormattedWith systemFiles systemKernel ∧
    ∃ k, runCalls FsCall.exec (fun _ _ ↦ True)
      [.unlink ⟨ofText "/dev/tty", by decide⟩ fun _ ↦ 0] systemKernel = some k ∧
      ¬ Remounts systemFiles k := by
  obtain ⟨k, hk, hstops⟩ := (Option.any_eq_true _ _).mp
    (show (runCalls FsCall.exec (fun _ _ ↦ True)
      [.unlink ⟨ofText "/dev/tty", by decide⟩ fun _ ↦ 0] systemKernel).any
        (fun k ↦ nextBootStops k == some (.panic "error_msg")) = true by decide +kernel)
  exact ⟨formattedWith_systemKernel, k, hk, not_remounts_of_stops (beq_iff_eq.mp hstops)⟩

end Yorha.Io
