import Yorha.Fs.Calls
import Yorha.Heap.Split

/-!
# The commands of the shell

The `exec_*` functions of `kernel.c` that a command line is dispatched to, as the code
computes them, with `str_list_dir` of `fs.c`.  `exec_sget` has a file of its own.

A command gets its words as a list on the heap and reads them there.  The list has room for
two strings more often than not, and a string that nobody has put there is at address 0,
which is not mapped; so a missing word is a fault.  A string is read up to the end of the
page that is mapped for the heap.

`Outside` is what the commands meet that is not code of the kernel.  A program that
`exec_run` calls may do anything with the devices; if it returns, the kernel's own tables
are as before.
-/

namespace Yorha.Shell

open Yorha.Lib Yorha.Str Yorha.Heap
open Yorha.Fs hiding read write

variable {δ : Type}

/-! ## Outside the kernel -/

/-- `STDIN`. -/
def stdin : Int := 0

/-- `STDOUT`. -/
def stdout : Int := 0

/-- `STDERR`. -/
def stderr : Int := 0

/-- `SERIAL`. -/
def serial : Int := 1

/-- The address of an object on the stack of the kernel, which `linker.ld` places above
3 GiB and 2 MiB. -/
def StackAddress : Type := { address : Nat // 0xC0200000 ≤ address ∧ address < 2 ^ 32 }

/-- What passes while `exec_sget` waits, counted by the steps it takes, and where its
variables are. -/
structure Line (δ : Type) where
  /-- `timer_counter` when it starts. -/
  timerCounter : Nat
  /-- The ticks of the timer before a step. -/
  ticks : Nat → Nat
  /-- What happens to the devices before a step. -/
  devices : Nat → δ → δ
  /-- `file_size`, as a pointer. -/
  fileSize : StackAddress
  /-- The 15 bytes at `buf` after the size was printed to its 12. -/
  buf : Bytes

/-- What commands meet that is not code of the kernel. -/
structure Outside (δ : Type) where
  /-- The 8 bytes behind the buffer of `unlink_file_in_dir`. -/
  past : Bytes
  /-- What the stack holds where `exec_run` has its header. -/
  stack : Bytes
  /-- `error_msg`. -/
  errorMsg : CString
  /-- The program at an address. -/
  program : Nat → δ → Except Stop δ
  /-- What `exec_sget` meets. -/
  line : Line δ
  /-- How often a loop that waits for devices goes round before it counts as endless. -/
  fuel : Nat

/-! ## Strings -/

/-- The mapped bytes of the heap from an address on. -/
def heapLeft (h : KernelHeap) (ptr : Nat) : Nat :=
  if h.allocator.bottom ≤ ptr then h.allocator.bottom + kernelHeapSize - ptr else 0

/-- The C string in an array of which `limit` bytes are left. -/
def readCString (str : Bytes) (limit : Nat) : Except Stop CString :=
  match h : readString str limit with
  | .ok s => .ok ⟨s, (readString_eq_ok.mp h).2.1⟩
  | .error e => .error e

/-- The C string at an address of the heap. -/
def heapString (h : KernelHeap) (ptr : Nat) : Except Stop CString :=
  readCString (h.mem.drop ptr) (heapLeft h ptr)

/-- `cmd.contents[i].contents`, read as a C string. -/
def argument (k : Kernel δ) (cmd : StringList) (i : Nat) : Except Stop CString :=
  heapString k.heap (cmd.string k.heap i).contents

/-- `MATCH`. -/
def matchString (h : KernelHeap) (s : HeapString) (cstr : String) : Except Stop Bool := do
  let order ← strcmpWithin (heapLeft h s.contents) (h.mem.drop s.contents) (ofText cstr)
  .ok (order == 0)

/-- `write(fd, text, count)`, for a literal. -/
def print (k : Kernel δ) (fd : Int) (text : String) (count : Nat) : Except Stop (Kernel δ) := do
  let (_, k) ← Fs.write k fd (Bytes.ofList (ofText text)) count
  .ok k

/-- `write(fd, &c, 1)`. -/
def writeChar (k : Kernel δ) (fd : Int) (c : UInt8) : Except Stop (Nat × Kernel δ) :=
  Fs.write k fd (fun _ ↦ c) 1

/-- `read(fd, &c, 1)`. -/
def readChar (k : Kernel δ) (fd : Int) : Except Stop (Option UInt8 × Kernel δ) := do
  let ((bytesRead, buf), k) ← Fs.read k fd (fun _ ↦ 0) 1
  .ok (if bytesRead > 0 then some (buf 0) else none, k)

/-! ## Listing a directory -/

/-- The loop of `str_list_dir`, over `n` more entries from number `file` on. -/
def listEntries (buf : Bytes) (path : List UInt8) : Nat → Nat → Except Stop (List UInt8)
  | 0, _ => .ok []
  | n + 1, file =>
      if file < dirFileCountMax then do
        let name ← readString (entryName buf file) (blockBytes - entryBytes * file)
        let rest ← listEntries buf path n (file + 1)
        .ok ((if file = 0 then [] else ofText "\n") ++ path ++ name ++ rest)
      else .error .fault

/-- A string on the heap that lists a directory.  It has room for 32 bytes an entry. -/
def strListDir (k : Kernel δ) (path : CString) : Except Stop (Option Nat × Kernel δ) := do
  let dirInodeNum ← seekDirectory k.fs path.chars
  if dirInodeNum = -1 then .ok (none, k)
  else do
    let dirInode ← k.fs.readInode (toUint32 dirInodeNum)
    let filesContained := dirInode.size / entryBytes
    let (base, allocator) ← kmalloc k.heap.allocator (filesContained * 32 + 1)
    let text ← listEntries (ataReadBlock k.fs.disk dirInode.dataBlockStart) path.chars
      filesContained 0
    if text.length < filesContained * 32 + 1 then
      .ok (some base, { k with heap := ⟨allocator, strcpy k.heap.mem base text⟩ })
    else .error .fault

/-- `ls`. -/
def execLs (k : Kernel δ) (stdout : Int) (cmd : StringList) : Except Stop (Int × Kernel δ) := do
  let path ← argument k cmd 1
  let (ptr, k) ← strListDir k path
  match ptr with
  | none => .ok (-1, k)
  | some ptr => do
      let text ← heapString k.heap ptr
      let (_, k) ← Fs.write k stdout (k.heap.mem.drop ptr) text.chars.length
      let allocator ← kfree k.heap.allocator ptr
      .ok (0, { k with heap := ⟨allocator, k.heap.mem⟩ })

/-! ## Files -/

/-- `nib_to_hex[i]`. -/
def nibToHex (i : Int) : Except Stop UInt8 :=
  if 0 ≤ i ∧ i < 16 then .ok ((ofText "0123456789ABCDEF").getD i.toNat 0) else .error .fault

/-- `cmd.len == 3 && MATCH(cmd.contents[1], "-b")`. -/
def dumps (h : KernelHeap) (cmd : StringList) : Except Stop Bool :=
  if cmd.len = 3 then matchString h (cmd.string h 1) "-b" else .ok false

/-- The body of the loop of `exec_cat`.  A `char` is signed, and so is what it is shifted
to. -/
def catByte (k : Kernel δ) (stdout : Int) (cmd : StringList) (c : UInt8) :
    Except Stop (Kernel δ) := do
  let dump ← dumps k.heap cmd
  if dump then do
    let k ← print k stdout "\\x" 2
    let top ← nibToHex (charValue c / 16)
    let (_, k) ← writeChar k stdout top
    let bottom ← nibToHex (c.toNat % 16)
    let (_, k) ← writeChar k stdout bottom
    .ok k
  else do
    let (_, k) ← writeChar k stdout c
    .ok k

/-- The loop of `exec_cat`. -/
def catLoop (fd stdout : Int) (cmd : StringList) : Nat → Kernel δ → Except Stop (Kernel δ)
  | 0, _ => .error .hang
  | fuel + 1, k => do
      let (c, k) ← readChar k fd
      match c with
      | some c => do
          let k ← catByte k stdout cmd c
          catLoop fd stdout cmd fuel k
      | none => .ok k

/-- `cat`, of the last word. -/
def execCat (k : Kernel δ) (stdout : Int) (cmd : StringList) (fuel : Nat) :
    Except Stop (Int × Kernel δ) := do
  let path ← argument k cmd (cmd.len - 1)
  let (fd, k) ← openFile k path
  if fd = -1 then .ok (-1, k)
  else do
    let k ← catLoop fd stdout cmd fuel k
    let (_, k) ← close k fd
    .ok (0, k)

/-- `echo`, of one word. -/
def execEcho (k : Kernel δ) (stdout : Int) (cmd : StringList) : Except Stop (Int × Kernel δ) := do
  let text ← argument k cmd 1
  let count := text.chars.length
  let (written, k) ← Fs.write k stdout (k.heap.mem.drop (cmd.string k.heap 1).contents) count
  .ok (if written ≠ count then -1 else 0, k)

/-- `touch`. -/
def execTouch (k : Kernel δ) (cmd : StringList) (past : Bytes) : Except Stop (Int × Kernel δ) := do
  let path ← argument k cmd 1
  createFiletype k path fileTypeNormal false past

/-- `rm`. -/
def execRm (k : Kernel δ) (cmd : StringList) (past : Bytes) : Except Stop (Int × Kernel δ) := do
  let path ← argument k cmd 1
  unlink k path past

/-- `mkdir`. -/
def execMkdir (k : Kernel δ) (cmd : StringList) (past : Bytes) :
    Except Stop (Int × Kernel δ) := do
  let path ← argument k cmd 1
  createFiletype k path fileTypeDir false past

/-! ## Programs -/

/-- The stack of the kernel. -/
def stackSize : Nat := 16384

/-- `run`.  A program is read to an array on the stack, and then called at its entry. -/
def execRun (k : Kernel δ) (cmd : StringList) (outside : Outside δ) :
    Except Stop (Int × Kernel δ) := do
  let path ← argument k cmd 1
  let (fd, k) ← openFile k path
  if fd = -1 then .error (.panic "Need to revert paging")
  else do
    let ((_, header), k) ← Fs.read k fd outside.stack 12
    let entry := (header.drop 4).word
    let size := (header.drop 8).word
    if 4 * (size / 4 + 1) ≤ stackSize then do
      let (_, k) ← seek k fd (toInt32 entry) 0
      let (_, k) ← Fs.read k fd (fun _ ↦ 0) size
      let dev ← outside.program entry k.dev
      .ok (-1, { k with dev := dev })
    else .error .fault

end Yorha.Shell
