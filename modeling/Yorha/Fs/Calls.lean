import Yorha.Fs.Descriptor
import Yorha.Fs.Dir

/-!
# The calls of the file system

The functions of `fs.c` that programs call, and the formatting of a disk with the
system files of `file_handlers.c`, as the code computes them.

A `Kernel` is what they work on: the file system, the heap the paths are copied to,
the table of special files, and the state `δ` of the devices behind these.  A special
file is served by its handler, which is any function of the device state.

`Surroundings` is memory that the code reads although it belongs to nothing it
handles: what follows `global_super` and `global_inode_table`, the block at address 0,
and the bytes behind a directory buffer.  Nothing is assumed about what it holds.  The block
at address 0 may be unmapped, as `boot.s` leaves it, and then formatting faults.

In one place the model is kinder than the code: `unlink` copies a path to an array
that is one byte too short for the terminator, and this byte is assumed to be unused.
-/

namespace Yorha.Fs

open Yorha.Lib Yorha.Str Yorha.Util Yorha.Heap

/-! ## The kernel -/

/-- A file served by a handler. -/
structure SpecialFile (δ : Type) where
  filename : CString
  handler : Bool → Int → Bytes → Nat → δ → Except Stop (Nat × Bytes × δ)
  initializationFunc : Int → δ → Except Stop δ
  fd : Int := -1

/-- What the calls work on. -/
structure Kernel (δ : Type) where
  fs : FileSystem
  heap : KernelHeap
  systemFiles : List (SpecialFile δ)
  dev : δ

/-- Memory that is read although it belongs to nothing that is handled. -/
structure Surroundings where
  /-- The 4044 bytes behind `global_super`. -/
  afterSuper : Bytes
  /-- The 32 bytes behind `global_inode_table`. -/
  afterTable : Bytes
  /-- The block at address 0, if it is mapped. -/
  null : Option Bytes
  /-- The 8 bytes behind the buffer of `unlink_file_in_dir`. -/
  past : Bytes

/-- Reads the block at address 0. -/
def Surroundings.readNull (env : Surroundings) : Except Stop Bytes :=
  match env.null with
  | some null => .ok null
  | none => .error .fault

variable {δ : Type}

/-- Gives a parsed path back. -/
def freePath (h : KernelHeap) (parsedPath : ParsedPath) : Except Stop KernelHeap := do
  let allocator ← kfree h.allocator parsedPath.dirPath
  let allocator ← kfree allocator parsedPath.filename
  .ok ⟨allocator, h.mem⟩

/-! ## Making files -/

/-- The descriptor of a new file, if it gets one. -/
def openCreated (t : FileDescriptorTable) (allocateFd : Bool) (fileInodeNum : Nat)
    (filename : List UInt8) : Except Stop (Int × FileDescriptorTable) :=
  if allocateFd then allocateFileDescriptor t fileInodeNum filename else .ok (0, t)

/-- The end of `create_filetype`, which undoes it if no descriptor could be allocated. -/
def cleanup (fs : FileSystem) (fdIndex : Int) (inodePair : DirInodePair) (past : Bytes) :
    Except Stop FileSystem :=
  if fdIndex = -1 then do
    let fs ← unlinkFileInDir fs inodePair.dirInodeNum inodePair.fileInodeNum past
    let inode ← fs.readInode inodePair.fileInodeNum
    let globalDbmap ← deallocBitrange fs.globalDbmap ⟨inode.dataBlockStart, 1⟩
    -- the range starts at the flag, not at the number of the inode
    let globalIbmap ← deallocBitrange fs.globalIbmap ⟨inodePair.valid.toNat, 1⟩
    .ok { fs with globalDbmap := globalDbmap, globalIbmap := globalIbmap }
  else .ok fs

/-- Makes a file of a type, and opens it if `allocate_fd`. -/
def createFiletype (k : Kernel δ) (path : CString) (fileType : UInt8) (allocateFd : Bool)
    (past : Bytes) : Except Stop (Int × Kernel δ) := do
  if path.chars.head? = some slash then do
    let (parsedPath, heap) ← Path k.heap path
    let (inodePair, fs) ←
      allocateInode k.fs parsedPath fileType (fileType != fileTypeSpecial)
    if inodePair.valid then do
      let fs ← linkFileInDir fs inodePair.dirInodeNum inodePair.fileInodeNum
      let (fdIndex, table) ← openCreated fs.globalFdTable allocateFd inodePair.fileInodeNum
        parsedPath.nameChars.chars
      let heap ← freePath heap parsedPath
      let fs ← cleanup { fs with globalFdTable := table } fdIndex inodePair past
      .ok (fdIndex, { k with fs := fs, heap := heap })
    else do
      let heap ← freePath heap parsedPath
      .ok (-1, { k with fs := fs, heap := heap })
  else .ok (-1, k)

/-- Makes a normal file and opens it. -/
def create (k : Kernel δ) (path : CString) (past : Bytes) : Except Stop (Int × Kernel δ) :=
  createFiletype k path fileTypeNormal true past

/-- Makes a directory. -/
def mkdir (k : Kernel δ) (path : CString) (past : Bytes) : Except Stop (Int × Kernel δ) :=
  createFiletype k path fileTypeDir false past

/-! ## Descriptors -/

/-- The function `open`. -/
def openFile (k : Kernel δ) (path : CString) : Except Stop (Int × Kernel δ) := do
  let (parsedPath, heap) ← Path k.heap path
  let dirInodeNum ← seekDirectory k.fs parsedPath.dirChars.chars
  let fileInodeNum ← searchDir k.fs (toUint32 dirInodeNum) parsedPath.nameChars.chars
  if fileInodeNum = -1 then do
    let heap ← freePath heap parsedPath
    .ok (-1, { k with heap := heap })
  else do
    let (fdIndex, table) ← allocateFileDescriptor k.fs.globalFdTable (toUint32 fileInodeNum)
      parsedPath.nameChars.chars
    let heap ← freePath heap parsedPath
    .ok (fdIndex, { k with fs := { k.fs with globalFdTable := table }, heap := heap })

/-- Closes a descriptor.  It returns -1 whatever it did. -/
def close (k : Kernel δ) (fd : Int) : Except Stop (Int × Kernel δ) := do
  let table ← deallocBitrange k.fs.globalFdTable ⟨toUint32 fd, 1⟩
  .ok (-1, { k with fs := { k.fs with globalFdTable := table } })

/-- The index of `entries[fd]`, with its bounds. -/
def entryIndex (fd : Int) : Except Stop Nat :=
  if 0 ≤ fd ∧ fd < descriptorCount then .ok fd.toNat else .error .fault

/-- The special file of a name. -/
def findSpecial (systemFiles : List (SpecialFile δ)) (name : Bytes) : Option (SpecialFile δ) :=
  systemFiles.find? fun file ↦ strcmp name file.filename.chars = 0

/-- The loop of `read`: at most `n` more bytes, from `readPos` on up to `size`. -/
def readLoop (dataBlockBuf : Bytes) (size : Nat) :
    Nat → Nat → Nat → Bytes → Except Stop (Nat × Nat × Bytes)
  | 0, readPos, bytesRead, buf => .ok (readPos, bytesRead, buf)
  | n + 1, readPos, bytesRead, buf =>
      if readPos < size then
        if readPos < blockBytes then
          readLoop dataBlockBuf size n (readPos + 1) (bytesRead + 1)
            (Function.update buf bytesRead (dataBlockBuf readPos))
        else .error .fault
      else .ok (readPos, bytesRead, buf)

/-- Reads at most `count` bytes at the read cursor into `buf`. -/
def read (k : Kernel δ) (fd : Int) (buf : Bytes) (count : Nat) :
    Except Stop ((Nat × Bytes) × Kernel δ) := do
  let index ← entryIndex fd
  let fdEntry := k.fs.globalFdTable.entry index
  let fdInode ← k.fs.readInode fdEntry.inodeNum
  if fdInode.fileType = fileTypeSpecial then
    match findSpecial k.systemFiles fdInode.name with
    | some file => do
        let (bytesRead, buf, dev) ← file.handler true fd buf count k.dev
        .ok ((bytesRead, buf), { k with dev := dev })
    | none => .ok ((0, buf), k)
  else do
    let dataBlockBuf := ataReadBlock k.fs.disk fdInode.dataBlockStart
    let (readPos, bytesRead, buf) ←
      readLoop dataBlockBuf fdInode.size count fdEntry.readPos 0 buf
    let table := k.fs.globalFdTable.setEntry index { fdEntry with readPos := readPos }
    .ok ((bytesRead, buf), { k with fs := { k.fs with globalFdTable := table } })

/-- What the loop of `write` changes. -/
structure WriteState where
  writePos : Nat
  bytesWritten : Nat
  size : Nat
  dataBlockBuf : Bytes

/-- The loop of `write`: at most `n` more bytes, up to the end of the block. -/
def writeLoop (buf : Bytes) : Nat → WriteState → WriteState
  | 0, s => s
  | n + 1, s =>
      if s.writePos < blockBytes then
        writeLoop buf n
          { writePos := s.writePos + 1
            bytesWritten := s.bytesWritten + 1
            size := (s.size + 1) % 2 ^ 32
            dataBlockBuf := Function.update s.dataBlockBuf s.writePos (buf s.bytesWritten) }
      else s

/-- Writes at most `count` bytes from `buf` at the write cursor. -/
def write (k : Kernel δ) (fd : Int) (buf : Bytes) (count : Nat) :
    Except Stop (Nat × Kernel δ) := do
  let index ← entryIndex fd
  let fdEntry := k.fs.globalFdTable.entry index
  let fdInode ← k.fs.readInode fdEntry.inodeNum
  if fdInode.fileType = fileTypeSpecial then
    match findSpecial k.systemFiles fdInode.name with
    | some file => do
        let (bytesWritten, _, dev) ← file.handler false fd buf count k.dev
        .ok (bytesWritten, { k with dev := dev })
    | none => .ok (0, k)
  else
    let s := writeLoop buf count
      { writePos := fdEntry.writePos
        bytesWritten := 0
        size := fdInode.size
        dataBlockBuf := ataReadBlock k.fs.disk fdInode.dataBlockStart }
    let table := k.fs.globalFdTable.setEntry index { fdEntry with writePos := s.writePos }
    let fs := k.fs.setInode fdEntry.inodeNum { fdInode with size := s.size }
    .ok (s.bytesWritten, { k with fs := { fs with
      globalFdTable := table
      disk := ataWriteBlock fs.disk fdInode.dataBlockStart s.dataBlockBuf } })

/-- The `switch` of `seek`, on the entry of the descriptor. -/
def moveCursors (fs : FileSystem) (fdEntry : FileDescriptorEntry) (offset : Int) :
    Nat → Except Stop FileDescriptorEntry
  | 0 => .ok { fdEntry with readPos := toUint64 offset, writePos := toUint64 offset }
  | 1 => .ok { fdEntry with
      readPos := toUint64 (fdEntry.readPos + offset)
      writePos := toUint64 (fdEntry.writePos + offset) }
  | 2 => do
      let inode ← fs.readInode fdEntry.inodeNum
      .ok { fdEntry with
        readPos := toUint32 (inode.size - offset)
        writePos := toUint32 (inode.size - offset) }
  | _ => .ok fdEntry

/-- Moves both cursors.  The mark looked at is that of `fd` modulo 32. -/
def seek (k : Kernel δ) (fd : Int) (offset : Int) (param : Nat) :
    Except Stop (Int × Kernel δ) := do
  if k.fs.globalFdTable.marked (fd % 32).toNat then do
    let index ← entryIndex fd
    let fdEntry ← moveCursors k.fs (k.fs.globalFdTable.entry index) offset param
    let table := k.fs.globalFdTable.setEntry index fdEntry
    .ok (toInt32 (fdEntry.readPos % 2 ^ 32), { k with fs := { k.fs with globalFdTable := table } })
  else .ok (-1, k)

/-! ## Removing files -/

/-- Removes a file or a directory. -/
def unlink (k : Kernel δ) (path : CString) (past : Bytes) : Except Stop (Int × Kernel δ) := do
  let (dirPath, filename) := parsePath path
  if path.chars ≠ [] ∧ filename.chars.length < nameBytes then do
    let dirInodeNum ← seekDirectory k.fs dirPath.chars
    let fileInodeNum ← searchDir k.fs (toUint32 dirInodeNum) filename.chars
    if fileInodeNum = -1 then .ok (-1, k)
    else do
      let fs ← unlinkFileInDir k.fs (toUint32 dirInodeNum) (toUint32 fileInodeNum) past
      let fileInode ← fs.readInode (toUint32 fileInodeNum)
      let globalDbmap ← deallocBitrange fs.globalDbmap ⟨fileInode.dataBlockStart, 1⟩
      let globalIbmap ← deallocBitrange fs.globalIbmap ⟨toUint32 fileInodeNum, 1⟩
      .ok (0, { k with fs := { fs with
        globalDbmap := globalDbmap, globalIbmap := globalIbmap } })
  else .error .fault

/-! ## Formatting -/

/-- `"/dev"`. -/
def devPath : CString := ⟨ofText "/dev", by decide⟩

/-- `"/dev/"`, in front of the name of every system file. -/
def devPrefix : CString := ⟨ofText "/dev/", by decide⟩

/-- The loop of `create_system_files`. -/
def createEach (past : Bytes) : List (SpecialFile δ) → Kernel δ → Except Stop (Kernel δ)
  | [], k => .ok k
  | file :: files, k => do
      let (r, k) ←
        createFiletype k (devPrefix.append file.filename) fileTypeSpecial false past
      if r ≠ -1 then createEach past files k
      else .error (.panic "Failure in system files assignment")

/-- Makes the directory of the system files, and the files. -/
def createSystemFiles (k : Kernel δ) (past : Bytes) : Except Stop (Kernel δ) := do
  let (r, k) ← mkdir k devPath past
  if r = 1 then .error (.panic "error_msg") else createEach past k.systemFiles k

/-- `system_files->initialization_func(fd)`: the initializer of the first file. -/
def initializeFirst (systemFiles : List (SpecialFile δ)) (fd : Int) (dev : δ) :
    Except Stop δ :=
  match systemFiles.head? with
  | some first => first.initializationFunc fd dev
  | none => .ok dev

/-- The loop of `open_system_files`, from file `i` on.  It calls the initializer of the
first file, whichever file it has opened. -/
def openEach : List (SpecialFile δ) → Nat → Kernel δ → Except Stop (Kernel δ)
  | [], _, k => .ok k
  | file :: files, i, k => do
      let (fd, k) ← openFile k (devPrefix.append file.filename)
      if fd = -1 then .error (.panic "error_msg")
      else do
        let systemFiles := k.systemFiles.modify i fun file ↦ { file with fd := fd }
        let dev ← initializeFirst systemFiles fd k.dev
        openEach files (i + 1) { k with systemFiles := systemFiles, dev := dev }

/-- Opens the system files. -/
def openSystemFiles (k : Kernel δ) : Except Stop (Kernel δ) := openEach k.systemFiles 0 k

/-- The bytes of the super block in memory, and what follows it. -/
def encodeSuper (super : FileSystemSuper) (env : Surroundings) : Bytes :=
  let fields := Bytes.ofWord super.diskSize ++ Bytes.ofWord (super.diskSize / 2 ^ 32) ++
    Bytes.ofWord super.sectorCount ++ Bytes.ofWord super.blockCount ++
    Bytes.ofWord super.iBmapStart ++ Bytes.ofWord super.dBmapStart ++
    Bytes.ofWord super.inodeTableStart ++ Bytes.ofWord super.usedInodes ++
    Bytes.ofWord super.dataStart
  fun i ↦
    if i < 16 then super.formatIndicator i
    else if i < 52 then fields.getD (i - 16) 0
    else env.afterSuper (i - 52)

/-- The bytes of a bitmap in memory. -/
def encodeBitmap (bitmap : Vector Word bitmapWords) : Bytes := fun i ↦
  (Bytes.ofWord (WordArray.get bitmap (i / 4)).toNat).getD (i % 4) 0

/-- The bytes of an inode in memory; three bytes of padding follow the type. -/
def encodeInode (inode : FileSystemInode) : Bytes :=
  let fields := Bytes.ofWord inode.fileType.toNat ++ Bytes.ofWord inode.dataBlockStart ++
    Bytes.ofWord inode.size ++ Bytes.ofWord inode.parentInodeNum
  fun i ↦ if i < nameBytes then inode.name i else fields.getD (i - nameBytes) 0

/-- The bytes of the inode table in memory, and what follows it. -/
def encodeTable (fs : FileSystem) (env : Surroundings) : Bytes := fun i ↦
  if i / inodeBytes < inodeCount then encodeInode (fs.inode (i / inodeBytes)) (i % inodeBytes)
  else env.afterTable (i - inodeBytes * inodeCount)

/-- The super block that formatting writes; only the bytes behind the indicator stay. -/
def formattedSuper (fs : FileSystem) (diskSize : Nat) : FileSystemSuper :=
  let dataStart := superSize + inodeBitmapSize + dataBitmapSize + inodeTableSize
  { formatIndicator := strcpy (ataReadBlock fs.disk 0) 0 (ofText "Yorha")
    diskSize := diskSize
    sectorCount := diskSize / 512 % 2 ^ 32
    blockCount := 64
    iBmapStart := superSize
    dBmapStart := superSize + inodeBitmapSize
    inodeTableStart := superSize + inodeBitmapSize + dataBitmapSize
    dataStart := dataStart
    usedInodes := 1 }

/-- The metadata of an empty disk of `diskSize` bytes, in memory and on the disk. -/
def formatMetadata (fs : FileSystem) (diskSize : Nat) (env : Surroundings) :
    Except Stop FileSystem := do
  let super := formattedSuper fs diskSize
  let disk := ataWriteBlock fs.disk 0 (encodeSuper super env)
  let globalIbmap ← updateWord fs.globalIbmap 0 fun word ↦ word ||| 1#32 <<< 31
  let (_, globalDbmap) ←
    allocBitrange fs.globalDbmap bitmapCapacity (dataRegionStart + 1) false
  let disk := ataWriteBlock disk super.iBmapStart (encodeBitmap globalIbmap)
  let disk := ataWriteBlock disk super.dBmapStart (encodeBitmap globalDbmap)
  let fs := { fs with
    globalSuper := super, globalIbmap := globalIbmap, globalDbmap := globalDbmap }
  let fs := fs.setInode 0 { dataBlockStart := super.dataStart }
  let disk := ataWriteBlocks disk super.inodeTableStart (encodeTable fs env)
    (super.dataStart - super.inodeTableStart)
  -- the root's block is written from address 0
  let null ← env.readNull
  .ok { fs with disk := ataWriteBlock disk super.dataStart null }

/-- The part of `initalize_file_system` that formats the disk. -/
def formatDisk (k : Kernel δ) (diskSize : Nat) (env : Surroundings) :
    Except Stop (Kernel δ) := do
  let fs ← formatMetadata k.fs diskSize env
  let k ← createSystemFiles { k with fs := fs } env.past
  openSystemFiles k

/-- The globals of `fs.c` when the system starts. -/
def FileSystem.zero (disk : Disk) : FileSystem where
  globalSuper := {}
  globalIbmap := Vector.replicate bitmapWords 0
  globalDbmap := Vector.replicate bitmapWords 0
  globalInodeTable := Vector.replicate inodeCount {}
  globalFdTable := ⟨0, Vector.replicate descriptorCount {}⟩
  disk := disk

/-! ## Calls as data -/

/-- A call of the file system. -/
inductive FsCall where
  | createFiletype (path : CString) (fileType : UInt8) (allocateFd : Bool) (past : Bytes)
  | openFile (path : CString)
  | close (fd : Int)
  | read (fd : Int) (buf : Bytes) (count : Nat)
  | write (fd : Int) (buf : Bytes) (count : Nat)
  | seek (fd : Int) (offset : Int) (param : Nat)
  | unlink (path : CString) (past : Bytes)

/-- The call `create(path)`. -/
def FsCall.create (path : CString) (past : Bytes) : FsCall :=
  .createFiletype path fileTypeNormal true past

/-- The call `mkdir(path)`. -/
def FsCall.mkdir (path : CString) (past : Bytes) : FsCall :=
  .createFiletype path fileTypeDir false past

/-- Make a call. -/
def FsCall.exec (k : Kernel δ) : FsCall → Except Stop (Int × Kernel δ)
  | .createFiletype path fileType allocateFd past =>
      Fs.createFiletype k path fileType allocateFd past
  | .openFile path => Fs.openFile k path
  | .close fd => Fs.close k fd
  | .read fd buf count => do
      let ((bytesRead, _), k) ← Fs.read k fd buf count
      .ok (bytesRead, k)
  | .write fd buf count => do
      let (bytesWritten, k) ← Fs.write k fd buf count
      .ok (bytesWritten, k)
  | .seek fd offset param => Fs.seek k fd offset param
  | .unlink path past => Fs.unlink k path past

end Yorha.Fs
