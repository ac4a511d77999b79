import Yorha.Fs.Basic

/-!
# Directories and paths

The functions of `fs.c` that read and change directories, as the code computes them.
A directory is one block of entries, 36 bytes each: a name of 32 bytes and an inode
number.  How many there are follows from the directory's size.

An entry past the 113th does not lie inside the block buffer, so indexing it is a
fault, with one exception.  `unlink_file_in_dir` moves every entry after the removed
one back by one place; in a full directory the last move reads `contents[113]`, of
which 28 bytes lie in the buffer and 8 behind it.  What lies there is the argument
`past`; the entry moved this way is not one of the directory's any more.
-/

namespace Yorha.Fs

open Yorha.Lib Yorha.Str Yorha.Util Yorha.Heap

/-! ## Looking up a name -/

/-- `contents[file].name`, seen as a pointer into the block. -/
def entryName (buf : Bytes) (file : Nat) : Bytes := buf.drop (entryBytes * file)

/-- `contents[file].inode_num`. -/
def entryInodeNum (buf : Bytes) (file : Nat) : Nat :=
  (buf.drop (entryBytes * file + nameBytes)).word

/-- The loop that looks for `name`, over `n` more entries from number `file` on. -/
def scanEntries (buf : Bytes) (name : List UInt8) : Nat → Nat → Except Stop (Option Nat)
  | 0, _ => .ok none
  | n + 1, file =>
      if file < dirFileCountMax then do
        let order ← strcmpWithin (blockBytes - entryBytes * file) (entryName buf file) name
        if order = 0 then .ok (some (entryInodeNum buf file))
        else scanEntries buf name n (file + 1)
      else .error .fault

/-- The inode number of the file `filename` in a directory, or -1. -/
def searchDir (fs : FileSystem) (dirInodeNum : Nat) (filename : List UInt8) :
    Except Stop Int := do
  let dirInode ← fs.readInode dirInodeNum
  if dirInode.fileType = fileTypeDir then do
    let buf := ataReadBlock fs.disk dirInode.dataBlockStart
    match ← scanEntries buf filename (dirInode.size / entryBytes) 0 with
    | some inodeNum => .ok (toInt32 inodeNum)
    | none => .ok (-1)
  else .error (.panic "must be a directory")

/-! ## Following a path -/

/-- The character `/`. -/
def slash : UInt8 := 47

/-- The loop of `seek_directory`.  `next_dir` is an array of 32 characters, and gets
each character of a directory's name and then the terminator. -/
def seekLoop (fs : FileSystem) : List UInt8 → List UInt8 → Nat → Except Stop Int
  | [], _, currentInodeNum => do
      let inode ← fs.readInode currentInodeNum
      .ok (if inode.fileType = fileTypeDir then toInt32 currentInodeNum else -1)
  | c :: dirPath, nextDir, currentInodeNum =>
      if c = slash ∨ dirPath = [] then do
        -- the last name of a path may lack its slash
        let nextDir := if c = slash then nextDir else nextDir ++ [c]
        if nextDir.length < nameBytes then do
          let dirInode ← fs.readInode currentInodeNum
          let buf := ataReadBlock fs.disk dirInode.dataBlockStart
          match ← scanEntries buf nextDir (dirInode.size / entryBytes) 0 with
          | some fileInodeNumber =>
              if toInt32 fileInodeNumber = -1 then .ok (-1)
              else seekLoop fs dirPath [] fileInodeNumber
          | none => .ok (-1)
        else .error .fault
      else if nextDir.length < nameBytes then
        seekLoop fs dirPath (nextDir ++ [c]) currentInodeNum
      else .error .fault

/-- The inode number of the directory that `dir_path` leads to, or -1. -/
def seekDirectory (fs : FileSystem) (dirPath : List UInt8) : Except Stop Int :=
  match dirPath with
  | [] => .ok (-1)
  | c :: dirPath => if c = slash then seekLoop fs dirPath [] 0 else .ok (-1)

/-- The index of the last slash of a path, 0 if there is none: the loop of
`parse_path` from character `i` on. -/
def lastSlash : List UInt8 → Nat → Nat → Nat
  | [], _, last => last
  | c :: path, i, last => lastSlash path (i + 1) (if c = slash then i else last)

/-- Splits a path after its last slash.  Without a slash the first character counts
as one. -/
def parsePath (path : CString) : CString × CString :=
  let last := lastSlash path.chars 0 0
  (path.take (last + 1), path.drop (last + 1))

/-- A path split into copies on the heap: the two pointers, and the strings there. -/
structure ParsedPath where
  dirPath : Nat
  filename : Nat
  dirChars : CString
  nameChars : CString

/-- Copies a path to the heap, split after its last slash.  Of an empty path it would
read the byte behind the one it allocated. -/
def Path (h : KernelHeap) (path : CString) : Except Stop (ParsedPath × KernelHeap) := do
  let pathLength := path.chars.length + 1
  let (dirPath, allocator) ← kmalloc h.allocator pathLength
  let (filename, allocator) ← kmalloc allocator pathLength
  if path.chars = [] then .error .fault
  else
    let (dirChars, nameChars) := parsePath path
    let mem := strcpy h.mem dirPath path.chars
    let mem := strcpy mem filename nameChars.chars
    let mem := Function.update mem (dirPath + dirChars.chars.length) 0
    .ok (⟨dirPath, filename, dirChars, nameChars⟩, ⟨allocator, mem⟩)

/-! ## Making a file -/

/-- What `allocate_inode` found; of an invalid pair only `valid` is looked at. -/
structure DirInodePair where
  valid : Bool
  fileInodeNum : Nat := 0
  dirInodeNum : Nat := 0

/-- Marks one bit of a bitmap of inodes or blocks. -/
def allocBit (bitmap : Vector Word bitmapWords) (msg : String) :
    Except Stop (Nat × Vector Word bitmapWords) := do
  let (range, bitmap) ← allocBitrange bitmap bitmapCapacity 1 false
  if range.length = 0 then .error (.panic msg) else .ok (range.start, bitmap)

/-- The data block of a new file, if it gets one; 0 is a place-holder. -/
def allocDataBlock (globalDbmap : Vector Word bitmapWords) (allocData : Bool) :
    Except Stop (Nat × Vector Word bitmapWords) :=
  if allocData then allocBit globalDbmap "can't allocate data blocks" else .ok (0, globalDbmap)

/-- Allocates an inode, and a block if `alloc_data`, for a file that does not exist. -/
def allocateInode (fs : FileSystem) (parsedPath : ParsedPath) (fileType : UInt8)
    (allocData : Bool) : Except Stop (DirInodePair × FileSystem) := do
  let dirInodeNum ← seekDirectory fs parsedPath.dirChars.chars
  if dirInodeNum = -1 then .ok ({ valid := false }, fs)
  else do
    let dirInodeNum := toUint32 dirInodeNum
    let existing ← searchDir fs dirInodeNum parsedPath.nameChars.chars
    if existing ≠ -1 then .ok ({ valid := false }, fs)
    else if parsedPath.nameChars.chars.length < nameBytes then do
      let name := strcpy (fun _ ↦ 0) 0 parsedPath.nameChars.chars
      let (fileInodeNum, globalIbmap) ←
        allocBit fs.globalIbmap "allocate_inode: can't allocate inode"
      let (dataBlockStart, globalDbmap) ← allocDataBlock fs.globalDbmap allocData
      if fileInodeNum < inodeCount then
        let fs := { fs with
          globalIbmap := globalIbmap
          globalDbmap := globalDbmap
          globalSuper := { fs.globalSuper with
            usedInodes := (fs.globalSuper.usedInodes + 1) % 2 ^ 32 } }
        let fs := fs.setInode fileInodeNum
          { name := name, fileType := fileType, dataBlockStart := dataBlockStart,
            parentInodeNum := dirInodeNum }
        .ok (⟨true, fileInodeNum, dirInodeNum⟩, fs)
      else .error .fault
    else .error .fault

/-- Appends an entry for a file to a directory. -/
def linkFileInDir (fs : FileSystem) (dirInodeNum fileInodeNum : Nat) :
    Except Stop FileSystem := do
  let dirInode ← fs.readInode dirInodeNum
  let fileInode ← fs.readInode fileInodeNum
  let newEntry := dirInode.size / entryBytes
  if newEntry < dirFileCountMax then do
    let name ← readString fileInode.name nameBytes
    let buf := ataReadBlock fs.disk dirInode.dataBlockStart
    let buf := buf.splice (entryBytes * newEntry + nameBytes) (Bytes.ofWord fileInodeNum)
    let buf := strcpy buf (entryBytes * newEntry) name
    let fs := fs.setInode dirInodeNum
      { dirInode with size := (dirInode.size + entryBytes) % 2 ^ 32 }
    .ok { fs with disk := ataWriteBlock fs.disk dirInode.dataBlockStart buf }
  else .error .fault

/-! ## Removing a file -/

/-- The loop that looks for the entry of an inode, over `n` more entries. -/
def findEntry (buf : Bytes) (fileInodeNum : Nat) : Nat → Nat → Except Stop (Option Nat)
  | 0, _ => .ok none
  | n + 1, entry =>
      if entry < dirFileCountMax then
        if entryInodeNum buf entry = fileInodeNum then .ok (some entry)
        else findEntry buf fileInodeNum n (entry + 1)
      else .error .fault

/-- `contents[entry] = contents[entry + 1]`. -/
def moveEntry (past buf : Bytes) (entry : Nat) : Bytes := fun i ↦
  if entryBytes * entry ≤ i ∧ i < entryBytes * entry + entryBytes then
    if i + entryBytes < blockBytes then buf (i + entryBytes)
    else past (i + entryBytes - blockBytes)
  else buf i

/-- The loop that moves `n` entries from number `entry` on back by one place. -/
def moveEntries (past : Bytes) : Nat → Nat → Bytes → Except Stop Bytes
  | 0, _, buf => .ok buf
  | n + 1, entry, buf =>
      if entry < dirFileCountMax then moveEntries past n (entry + 1) (moveEntry past buf entry)
      else .error .fault

/-- Removes the entry of a file from a directory. -/
def unlinkFileInDir (fs : FileSystem) (dirInodeNum fileInodeNum : Nat) (past : Bytes) :
    Except Stop FileSystem := do
  let dirInode ← fs.readInode dirInodeNum
  let buf := ataReadBlock fs.disk dirInode.dataBlockStart
  let files := dirInode.size / entryBytes
  match ← findEntry buf fileInodeNum files 0 with
  | some entry => do
      let buf ← moveEntries past (files - entry) entry buf
      let fs := fs.setInode dirInodeNum { dirInode with size := dirInode.size - entryBytes }
      .ok { fs with disk := ataWriteBlock fs.disk dirInode.dataBlockStart buf }
  | none => .ok { fs with disk := ataWriteBlock fs.disk dirInode.dataBlockStart buf }

end Yorha.Fs
