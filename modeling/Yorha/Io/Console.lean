import Yorha.Fs.Write
import Yorha.Io.Boot

/-!
# A record of the terminal

The circular buffer of the terminal forgets.  A `Console` has the devices, and with them all
that was written to the terminal, which nothing reads: the calls do to the devices and for the
caller what they do without the record (`record_handler_eq_ok`).

Descriptor 0 is the terminal as long as nobody removes its file (`TerminalOpen`).  What is
written there is then recorded (`TerminalOpen.write`), and what is read anywhere is not, but
tells whether there was something to read (`TerminalOpen.read`).
-/

namespace Yorha.Io

open Yorha.Lib Yorha.Str Yorha.Heap
open Yorha.Fs hiding read write

/-! ## Recording -/

/-- The devices, and what was written to the terminal. -/
structure Console where
  devices : Devices
  output : List UInt8

/-- A special file on a console.  What is written to a `visible` one is recorded. -/
def record (visible : Bool) (file : SpecialFile Devices) : SpecialFile Console where
  filename := file.filename
  handler := fun read fd buf count c ↦ do
    let (n, buf', dev) ← file.handler read fd buf count c.devices
    .ok (n, buf', ⟨dev, if visible && !read then c.output ++ buf.take n else c.output⟩)
  initializationFunc := fun fd c ↦ do
    let dev ← file.initializationFunc fd c.devices
    .ok { c with devices := dev }
  fd := file.fd

/-- `system_files`, with a record of the terminal. -/
def consoleFiles : List (SpecialFile Console) :=
  systemFiles.map fun file ↦ record (file.filename.chars == ofText "tty") file

/-- Recording changes nothing for the devices and the caller. -/
theorem record_handler_eq_ok {visible read : Bool} {file : SpecialFile Devices} {fd : Int}
    {buf buf' : Bytes} {count n : Nat} {c c' : Console} :
    (record visible file).handler read fd buf count c = .ok (n, buf', c') ↔
      file.handler read fd buf count c.devices = .ok (n, buf', c'.devices) ∧
      c'.output = if visible && !read then c.output ++ buf.take n else c.output := by
  constructor
  · intro h
    simp only [record, bind_eq_ok, Prod.exists] at h
    obtain ⟨n, buf', dev, hhandler, h⟩ := h
    cases h
    exact ⟨hhandler, rfl⟩
  · rintro ⟨hhandler, houtput⟩
    simp only [record, hhandler, ok_bind, ← houtput]

/-- A byte is read from the keyboard unless its buffer is empty. -/
theorem ttyHandler_read_eq_zero {fd : Int} {buf buf' : Bytes} {n : Nat} {dev dev' : Devices}
    (h : ttyHandler true fd buf 1 dev = .ok (n, buf', dev')) :
    n = 0 ↔ dev.keyboard.buffer.pop ringBufferCapacity = none := by
  simp only [ttyHandler, if_true, ttyReadLoop] at h
  split at h
  · rename_i hnone
    cases h
    exact iff_of_true rfl hnone
  · rename_i c buffer hsome
    cases h
    rw [hsome]
    exact iff_of_false Nat.one_ne_zero (Option.some_ne_none _)

/-- A byte is read from the serial port unless none has arrived. -/
theorem serialHandler_read_eq_zero {fd : Int} {buf buf' : Bytes} {count n : Nat}
    {dev dev' : Devices} (h : serialHandler true fd buf count dev = .ok (n, buf', dev')) :
    n = 0 ↔ dev.uart.received = [] := by
  rw [serialHandler, if_pos rfl, Uart.serialReceived] at h
  cases hreceived : dev.uart.received with
  | nil =>
      rw [hreceived] at h
      cases h
      exact iff_of_true rfl rfl
  | cons byte bytes =>
      rw [hreceived] at h
      cases h
      exact iff_of_false Nat.one_ne_zero (List.cons_ne_nil _ _)

/-- The device of a name has nothing to read. -/
def Devices.Idle (dev : Devices) (name : Bytes) : Prop :=
  (name.IsString (ofText "tty") → dev.keyboard.buffer.pop ringBufferCapacity = none) ∧
    (name.IsString (ofText "ttyS") → dev.uart.received = [])

/-- Nothing comes from a file when a byte is read at its start: it is empty, or the device
behind it has nothing. -/
def Drained (k : Kernel Console) (i : Nat) : Prop :=
  if k.fs.IsSpecial i then k.dev.devices.Idle (k.fs.inode i).name else (k.fs.inode i).size = 0

/-! ## The terminal -/

/-- Descriptor 0 is the terminal. -/
structure TerminalOpen (k : Kernel Console) : Prop where
  files : k.systemFiles.map closedFile = consoleFiles
  opened : k.fs.globalFdTable.marked 0 = true
  special : k.fs.IsSpecial (k.fs.globalFdTable.entry 0).inodeNum
  name : (k.fs.inode (k.fs.globalFdTable.entry 0).inodeNum).name.IsString (ofText "tty")

section

variable {k k' : Kernel Console} {fd : Int} {buf buf' : Bytes} {count n : Nat}

/-- Where the descriptor of the terminal and its file are as before, it is the terminal. -/
theorem TerminalOpen.congr (h : TerminalOpen k) (hfiles : k'.systemFiles = k.systemFiles)
    (hopen : k'.fs.globalFdTable.marked 0 = k.fs.globalFdTable.marked 0)
    (hentry : (k'.fs.globalFdTable.entry 0).inodeNum = (k.fs.globalFdTable.entry 0).inodeNum)
    (hinode : ∀ i, k.fs.IsSpecial i → k'.fs.inode i = k.fs.inode i) : TerminalOpen k' where
  files := hfiles ▸ h.files
  opened := hopen.trans h.opened
  special := by
    rw [FileSystem.IsSpecial, hentry, hinode _ h.special]
    exact h.special
  name := by
    rw [hentry, hinode _ h.special]
    exact h.name

/-- A write to any descriptor leaves the special files alone. -/
theorem TerminalOpen.store (h : TerminalOpen k) (hw : Fs.write k fd buf count = .ok (n, k')) :
    TerminalOpen k' := by
  have hcall : FsCall.exec k (.write fd buf count) = .ok ((n : Int), k') := by
    simp only [FsCall.exec, hw, ok_bind]
  have hfiles := exec_systemFiles hcall
  obtain ⟨m, -, -, ⟨-, hfs⟩ | ⟨-, -, hwrote⟩⟩ := write_ok hw
  · exact h.congr hfiles (by rw [hfs]) (by rw [hfs]) fun i _ ↦ by rw [hfs]
  · refine h.congr hfiles ?_ ?_ fun i hi ↦ ?_
    · rw [hwrote.table]
      rfl
    · rw [hwrote.entry_eq]
      split
      · rename_i hm
        rw [hm]
      · rfl
    · rw [hwrote.inode i, if_neg]
      rintro rfl
      exact hwrote.not_special hi

/-- What is opened is another descriptor. -/
theorem TerminalOpen.openFile {path : CString} (h : TerminalOpen k)
    (ho : openFile k path = .ok (fd, k')) : TerminalOpen k' ∧ k'.dev = k.dev ∧ fd ≠ 0 := by
  have hfiles := openFile_systemFiles ho
  have hdev : k'.dev = k.dev := by
    cases openFile_steps ho with
    | missing => rfl
    | opened => rfl
  obtain ⟨t, ht, d, -, r, -, ⟨rfl, -, rfl⟩ | ⟨-, m, rfl, hopened⟩⟩ := openFile_ok ho
  · refine ⟨h.congr hfiles ?_ ?_ fun i _ ↦ ?_, hdev, by decide⟩
    · rw [ht]
    · rw [ht]
    · rw [ht]
  · have hm : 0 ≠ m := by
      rintro rfl
      have hfree := hopened.free
      rw [h.opened] at hfree
      cases hfree
    refine ⟨h.congr hfiles ?_ ?_ fun i _ ↦ ?_, hdev, Int.natCast_ne_zero.mpr hm.symm⟩
    · rw [ht, hopened.marked, if_neg hm]
    · rw [ht, hopened.entry, if_neg hm]
    · rw [ht]
      rfl

/-- Another descriptor is closed. -/
theorem TerminalOpen.close {m : Nat} {v : Int} (h : TerminalOpen k) (hm : m < descriptorCount)
    (hne : m ≠ 0) (hc : close k m = .ok (v, k')) :
    TerminalOpen k' ∧ ∃ t, k'.fs = { k.fs with globalFdTable := t } := by
  obtain ⟨-, t, ht, rfl⟩ := close_ok hc
  rw [toUint32_descriptor hm] at ht
  obtain ⟨t', ht', hclosed⟩ := deallocBitrange_table k.fs.globalFdTable hm
  rw [ht'] at ht
  cases ht
  refine ⟨h.congr rfl ?_ ?_ fun _ _ ↦ rfl, t, rfl⟩
  · exact (hclosed.marked 0).trans (if_neg hne.symm)
  · exact congrArg (·.inodeNum) (hclosed.entry 0)

/-- What is found in the table of a console for a name. -/
inductive Device (name : Bytes) : Option (SpecialFile Console) → Prop
  | tty {file : SpecialFile Console} : name.IsString (ofText "tty") →
      file.handler = (record true systemFiles[0]).handler → Device name (some file)
  | ttyS {file : SpecialFile Console} : name.IsString (ofText "ttyS") →
      file.handler = (record false systemFiles[1]).handler → Device name (some file)
  | missing : ¬ name.IsString (ofText "tty") → ¬ name.IsString (ofText "ttyS") → Device name none

/-- The special file of a name. -/
theorem TerminalOpen.device (h : TerminalOpen k) (name : Bytes) :
    Device name (findSpecial k.systemFiles name) := by
  obtain ⟨tty, files, hfiles, htty, hrest⟩ := List.map_eq_cons_iff.mp h.files
  obtain ⟨ttyS, files', rfl, httyS, hnil⟩ := List.map_eq_cons_iff.mp hrest
  obtain rfl := List.map_eq_nil_iff.mp hnil
  have hname : tty.filename.chars = ofText "tty" := congrArg (·.filename.chars) htty
  have hname' : ttyS.filename.chars = ofText "ttyS" := congrArg (·.filename.chars) httyS
  have hstring : strcmp name (ofText "tty") = 0 ↔ name.IsString (ofText "tty") :=
    strcmp_eq_zero (by decide) name
  have hstring' : strcmp name (ofText "ttyS") = 0 ↔ name.IsString (ofText "ttyS") :=
    strcmp_eq_zero (by decide) name
  rw [hfiles, findSpecial, List.find?_cons, List.find?_singleton, hname, hname']
  split
  · rename_i hfound
    exact .tty (hstring.mp (of_decide_eq_true hfound)) (congrArg (·.handler) htty)
  · rename_i hother
    split
    · rename_i hfound
      exact .ttyS (hstring'.mp (of_decide_eq_true hfound)) (congrArg (·.handler) httyS)
    · rename_i hother'
      refine .missing (fun hs ↦ ?_) (fun hs ↦ ?_)
      · exact of_decide_eq_false hother (hstring.mpr hs)
      · exact hother' (decide_eq_true (hstring'.mpr hs))

/-- A name is that of one device only. -/
theorem not_isString_ttyS {name : Bytes} (h : name.IsString (ofText "tty")) :
    ¬ name.IsString (ofText "ttyS") := by
  intro h'
  exact absurd (h.unique h' (by decide) (by decide)) (by decide)

/-- What reading a byte from a device does. -/
theorem Device.read {name : Bytes} {file : SpecialFile Console} {c c' : Console}
    (h : Device name (some file)) (hr : file.handler true fd buf 1 c = .ok (n, buf', c')) :
    c'.output = c.output ∧ (n = 0 ↔ c.devices.Idle name) := by
  cases h with
  | tty hname hfile =>
      rw [hfile, record_handler_eq_ok] at hr
      have hbyte : ttyHandler true fd buf 1 c.devices = .ok (n, buf', c'.devices) := hr.1
      refine ⟨hr.2, ?_⟩
      rw [ttyHandler_read_eq_zero hbyte]
      constructor
      · exact fun hnone ↦ ⟨fun _ ↦ hnone, fun hs ↦ absurd hs (not_isString_ttyS hname)⟩
      · exact fun hidle ↦ hidle.1 hname
  | ttyS hname hfile =>
      rw [hfile, record_handler_eq_ok] at hr
      have hbyte : serialHandler true fd buf 1 c.devices = .ok (n, buf', c'.devices) := hr.1
      refine ⟨hr.2, ?_⟩
      rw [serialHandler_read_eq_zero hbyte]
      constructor
      · exact fun hnil ↦ ⟨fun hs ↦ absurd hname (not_isString_ttyS hs), fun _ ↦ hnil⟩
      · exact fun hidle ↦ hidle.2 hname

/-- **Writing to the terminal** records the bytes, and leaves the files alone. -/
theorem TerminalOpen.write (h : TerminalOpen k) (hw : Fs.write k 0 buf count = .ok (n, k')) :
    k'.dev.output = k.dev.output ++ buf.take count ∧ k'.fs = k.fs := by
  simp only [Fs.write, bind_eq_ok] at hw
  obtain ⟨index, hindex, inode, hread, hw⟩ := hw
  obtain ⟨hfd, -⟩ := entryIndex_eq_ok.mp hindex
  obtain rfl : index = 0 := Int.ofNat_eq_zero.mp hfd.symm
  obtain ⟨-, rfl⟩ := FileSystem.readInode_eq_ok.mp hread
  rw [if_pos (show (k.fs.inode _).fileType = fileTypeSpecial from h.special)] at hw
  have hdevice := h.device (k.fs.inode (k.fs.globalFdTable.entry 0).inodeNum).name
  split at hw
  · rename_i file hfound
    rw [hfound] at hdevice
    simp only [bind_eq_ok, Prod.exists] at hw
    obtain ⟨written, buf', dev, hhandler, hw⟩ := hw
    cases hw
    refine ⟨?_, rfl⟩
    cases hdevice with
    | tty _ hfile =>
        rw [hfile, record_handler_eq_ok] at hhandler
        obtain ⟨hhandler, houtput⟩ := hhandler
        obtain ⟨rfl, -⟩ := Prod.mk.inj (Except.ok.inj hhandler)
        exact houtput
    | ttyS hname => exact absurd hname (not_isString_ttyS h.name)
  · rename_i hfound
    rw [hfound] at hdevice
    cases hdevice with
    | missing hname => exact absurd h.name hname

/-- A byte is read at the start of a file unless it is empty. -/
theorem readLoop_eq_zero {dataBlockBuf : Bytes} {size readPos : Nat}
    (h : readLoop dataBlockBuf size 1 0 0 buf = .ok (readPos, n, buf')) : n = 0 ↔ size = 0 := by
  rw [readLoop] at h
  split at h
  · rename_i hpos
    rw [if_pos (show 0 < blockBytes by decide)] at h
    cases h
    exact iff_of_false Nat.one_ne_zero hpos.ne'
  · rename_i hsize
    cases h
    exact iff_of_true rfl (Nat.eq_zero_of_not_pos hsize)

/-- **Reading** records nothing.  At the start of a file there is something to read unless it
is drained. -/
theorem TerminalOpen.read (h : TerminalOpen k) (hr : Fs.read k fd buf 1 = .ok ((n, buf'), k')) :
    k'.dev.output = k.dev.output ∧ TerminalOpen k' ∧ ∃ m : Nat, fd = m ∧
      ((k.fs.globalFdTable.entry m).readPos = 0 →
        (n = 0 ↔ Drained k (k.fs.globalFdTable.entry m).inodeNum)) := by
  have hopen : TerminalOpen k' := by
    have hcall : FsCall.exec k (.read fd buf 1) = .ok ((n : Int), k') := by
      simp only [FsCall.exec, hr, ok_bind]
    obtain ⟨t, ht, hmoved, -⟩ := read_ok hr
    refine h.congr (exec_systemFiles hcall) ?_ ?_ fun i _ ↦ ?_
    · rw [ht]
      exact hmoved.marked 0
    · rw [ht]
      exact hmoved.inodeNum 0
    · rw [ht]
      rfl
  simp only [Fs.read, bind_eq_ok] at hr
  obtain ⟨m, hindex, inode, hread, hr⟩ := hr
  obtain ⟨rfl, -⟩ := entryIndex_eq_ok.mp hindex
  obtain ⟨-, rfl⟩ := FileSystem.readInode_eq_ok.mp hread
  generalize hi : (k.fs.globalFdTable.entry m).inodeNum = i at hr
  split at hr
  · -- a device
    rename_i hspecial
    have hdevice := h.device (k.fs.inode i).name
    have hdrained : Drained k i ↔ k.dev.devices.Idle (k.fs.inode i).name := by
      rw [Drained, if_pos (show k.fs.IsSpecial i from hspecial)]
    split at hr
    · rename_i file hfound
      rw [hfound] at hdevice
      simp only [bind_eq_ok, Prod.exists] at hr
      obtain ⟨bytesRead, buf', dev, hhandler, hr⟩ := hr
      cases hr
      obtain ⟨houtput, hzero⟩ := hdevice.read hhandler
      exact ⟨houtput, hopen, m, rfl, fun _ ↦ hi ▸ hzero.trans hdrained.symm⟩
    · rename_i hfound
      rw [hfound] at hdevice
      cases hr
      refine ⟨rfl, hopen, m, rfl, fun _ ↦ iff_of_true rfl ?_⟩
      rw [hi, hdrained]
      cases hdevice with
      | missing hname hname' => exact ⟨fun hs ↦ absurd hs hname, fun hs ↦ absurd hs hname'⟩
  · -- a file
    rename_i hspecial
    simp only [bind_eq_ok, Prod.exists] at hr
    obtain ⟨readPos, bytesRead, buf', hloop, hr⟩ := hr
    cases hr
    refine ⟨rfl, hopen, m, rfl, fun hpos ↦ ?_⟩
    rw [hi, Drained, if_neg (show ¬ k.fs.IsSpecial i from hspecial)]
    exact readLoop_eq_zero (hpos ▸ hloop)

end

/-! ## A machine with a console -/

/-- The kernel that starts with a disk, and a console. -/
def bootConsole (disk : Disk) : Kernel Console where
  fs := FileSystem.zero disk
  heap := ⟨AllocArray.initial 0x400000, fun _ ↦ 0⟩
  systemFiles := consoleFiles
  dev := ⟨Devices.zero, []⟩

/-- The kernel after it formatted a disk of zeros of a megabyte. -/
def consoleKernel : Kernel Console :=
  ((formatDisk (bootConsole fun _ _ ↦ 0) 0x100000 zeroSurroundings).toOption).getD
    (bootConsole fun _ _ ↦ 0)

theorem formattedWith_consoleKernel : FormattedWith consoleFiles consoleKernel := by
  have hboot : Boot (bootConsole fun _ _ ↦ 0) := ⟨⟨_, rfl⟩, ⟨_, rfl⟩⟩
  exact formattedWith_of_isSome hboot (by decide +kernel)

/-- Calls leave the table of the console as it was. -/
theorem systemFiles_of_reaches {k : Kernel Console}
    (h : Reaches FsCall.exec (fun _ _ ↦ True) consoleKernel k) :
    k.systemFiles.map closedFile = consoleFiles := by
  have hkept : k.systemFiles = consoleKernel.systemFiles :=
    h.invariant (I := fun k ↦ k.systemFiles = consoleKernel.systemFiles) rfl
      fun hI _ hx ↦ (exec_systemFiles hx).trans hI
  rw [hkept, formattedWith_consoleKernel.systemFiles]
  rfl

end Yorha.Io
