import Yorha.Lib.Forest
import Yorha.Heap.Run

/-!
# The tables of the file system

The data of `fs.c`: the super block, the bitmaps, the inode table, the descriptor
table and the disk, and what reads and writes them one element at a time.

Names are arrays of 32 bytes, as in the code; numbers are natural numbers, and
arithmetic that can leave the range of its C type says so where it is done.  The disk
is a function from block numbers to blocks: what `ata.c` transfers is assumed to
arrive.  An index past the end of a table is a `Stop.fault`.
-/

namespace Yorha.Fs

open Yorha.Lib Yorha.Str Yorha.Util Yorha.Heap

/-! ## Constants -/

/-- `BLOCK_BYTES`. -/
def blockBytes : Nat := 4096

/-- `SUPER_SIZE`, in blocks like the next three. -/
def superSize : Nat := 1

/-- `INODE_BITMAP_SIZE`. -/
def inodeBitmapSize : Nat := 1

/-- `DATA_BITMAP_SIZE`. -/
def dataBitmapSize : Nat := 1

/-- `INODE_TABLE_SIZE`. -/
def inodeTableSize : Nat := 5

/-- `DATA_REGION_START`: the first block that is not metadata. -/
def dataRegionStart : Nat := superSize + inodeBitmapSize + dataBitmapSize + inodeTableSize

/-- `sizeof(FileSystemInode)`. -/
def inodeBytes : Nat := 48

/-- The inodes of `global_inode_table`. -/
def inodeCount : Nat := blockBytes * inodeTableSize / inodeBytes

/-- `sizeof(FileSystemDirEntry)`: a name of 32 bytes and an inode number. -/
def entryBytes : Nat := 36

/-- `DIR_FILE_COUNT_MAX`. -/
def dirFileCountMax : Nat := blockBytes / entryBytes

/-- The size of every array that holds a name. -/
def nameBytes : Nat := 32

/-- The words of `global_ibmap` and of `global_dbmap`. -/
def bitmapWords : Nat := blockBytes / 4

/-- The capacity that the bitmaps are searched with, in bits. -/
def bitmapCapacity : Nat := blockBytes * 8

/-- `FILE_TYPE_DIR`. -/
def fileTypeDir : UInt8 := 0

/-- `FILE_TYPE_NORMAL`. -/
def fileTypeNormal : UInt8 := 1

/-- `FILE_TYPE_SPECIAL`. -/
def fileTypeSpecial : UInt8 := 2

/-- The descriptors of the one table there is. -/
def descriptorCount : Nat := 32

/-! ## Conversions -/

/-- A `uint32_t` converted to `int32_t`. -/
def toInt32 (n : Nat) : Int := if n < 2 ^ 31 then n else n - 2 ^ 32

/-- An integer converted to `uint32_t`. -/
def toUint32 (n : Int) : Nat := (n % 2 ^ 32).toNat

/-- An integer converted to `uint64_t`. -/
def toUint64 (n : Int) : Nat := (n % 2 ^ 64).toNat

theorem toInt32_of_lt {n : Nat} (h : n < 2 ^ 31) : toInt32 n = n := if_pos h

@[simp] theorem toUint32_natCast (n : Nat) : toUint32 (n : Int) = n % 2 ^ 32 := by
  rw [toUint32]
  omega

theorem toUint32_of_lt {n : Nat} (h : n < 2 ^ 32) : toUint32 (n : Int) = n := by
  rw [toUint32_natCast, Nat.mod_eq_of_lt h]

/-- The numbers of inodes survive the conversions. -/
theorem toUint32_inode {n : Nat} (h : n < inodeCount) : toUint32 (n : Int) = n :=
  toUint32_of_lt (lt_trans h (by decide))

/-- So do descriptors. -/
theorem toUint32_descriptor {n : Nat} (h : n < descriptorCount) : toUint32 (n : Int) = n :=
  toUint32_of_lt (lt_trans h (by decide))

/-! ## The disk -/

/-- The blocks of the disk. -/
abbrev Disk := Nat → Bytes

/-- The block that `ata.c` addresses: a sector number has 28 bits, and a block is
eight sectors. -/
def blockAddress (blockNum : Nat) : Nat := blockNum % 2 ^ 25

/-- `ata_read_blocks(block_num, buffer, 1)`. -/
def ataReadBlock (disk : Disk) (blockNum : Nat) : Bytes := disk (blockAddress blockNum)

/-- `ata_write_blocks(block_num, buffer, 1)`. -/
def ataWriteBlock (disk : Disk) (blockNum : Nat) (buffer : Bytes) : Disk :=
  Function.update disk (blockAddress blockNum) buffer

/-- `ata_write_blocks(block_num, buffer, count)`. -/
def ataWriteBlocks (disk : Disk) (blockNum : Nat) (buffer : Bytes) : Nat → Disk
  | 0 => disk
  | count + 1 =>
      ataWriteBlock (ataWriteBlocks disk blockNum buffer count) (blockNum + count)
        (buffer.drop (blockBytes * count))

@[simp] theorem read_write_block (disk : Disk) (b : Nat) (buf : Bytes) :
    ataReadBlock (ataWriteBlock disk b buf) b = buf := by
  rw [ataReadBlock, ataWriteBlock, Function.update_self]

theorem read_write_block_of_ne (disk : Disk) {b c : Nat} (buf : Bytes)
    (h : blockAddress c ≠ blockAddress b) :
    ataReadBlock (ataWriteBlock disk b buf) c = ataReadBlock disk c := by
  rw [ataReadBlock, ataWriteBlock, Function.update_of_ne h, ataReadBlock]

/-- Writing back what is there. -/
@[simp] theorem write_read_block (disk : Disk) (b : Nat) :
    ataWriteBlock disk b (ataReadBlock disk b) = disk :=
  Function.update_eq_self _ _

theorem blockAddress_of_lt {b : Nat} (h : b < 2 ^ 25) : blockAddress b = b :=
  Nat.mod_eq_of_lt h

/-! ## The tables -/

/-- The super block. -/
structure FileSystemSuper where
  formatIndicator : Bytes := fun _ ↦ 0
  diskSize : Nat := 0
  sectorCount : Nat := 0
  blockCount : Nat := 0
  iBmapStart : Nat := 0
  dBmapStart : Nat := 0
  inodeTableStart : Nat := 0
  usedInodes : Nat := 0
  dataStart : Nat := 0

/-- An inode. -/
structure FileSystemInode where
  name : Bytes := fun _ ↦ 0
  fileType : UInt8 := 0
  dataBlockStart : Nat := 0
  size : Nat := 0
  parentInodeNum : Nat := 0

/-- An entry of the descriptor table. -/
structure FileDescriptorEntry where
  name : Bytes := fun _ ↦ 0
  inodeNum : Nat := 0
  readPos : Nat := 0
  writePos : Nat := 0
  index : Nat := 0

/-- The descriptor table: one word of bitmap, then the entries. -/
structure FileDescriptorTable where
  bitmap : Word
  entries : Vector FileDescriptorEntry descriptorCount

/-- `entries[fd]`. -/
def FileDescriptorTable.entry (t : FileDescriptorTable) (fd : Nat) : FileDescriptorEntry :=
  t.entries[fd]?.getD {}

/-- Overwrite `entries[fd]`. -/
def FileDescriptorTable.setEntry (t : FileDescriptorTable) (fd : Nat)
    (e : FileDescriptorEntry) : FileDescriptorTable :=
  { t with entries := t.entries.setIfInBounds fd e }

theorem FileDescriptorTable.entry_setEntry (t : FileDescriptorTable) {fd : Nat}
    (h : fd < descriptorCount) (e : FileDescriptorEntry) (fd' : Nat) :
    (t.setEntry fd e).entry fd' = if fd' = fd then e else t.entry fd' := by
  simp only [FileDescriptorTable.entry, FileDescriptorTable.setEntry,
    Vector.getElem?_setIfInBounds]
  by_cases hfd : fd = fd'
  · subst hfd
    simp [h]
  · simp [hfd, Ne.symm hfd]

/-- The descriptor is in use. -/
def FileDescriptorTable.marked (t : FileDescriptorTable) (fd : Nat) : Bool :=
  t.bitmap.getMsbD fd

/-- The globals of `fs.c`, and the disk. -/
structure FileSystem where
  globalSuper : FileSystemSuper
  globalIbmap : Vector Word bitmapWords
  globalDbmap : Vector Word bitmapWords
  globalInodeTable : Vector FileSystemInode inodeCount
  globalFdTable : FileDescriptorTable
  disk : Disk

namespace FileSystem

/-- `global_inode_table[i]`. -/
def inode (fs : FileSystem) (i : Nat) : FileSystemInode := fs.globalInodeTable[i]?.getD {}

/-- `global_inode_table[i]`, with its bound. -/
def readInode (fs : FileSystem) (i : Nat) : Except Stop FileSystemInode :=
  if i < inodeCount then .ok (fs.inode i) else .error .fault

/-- Overwrite `global_inode_table[i]`. -/
def setInode (fs : FileSystem) (i : Nat) (inode : FileSystemInode) : FileSystem :=
  { fs with globalInodeTable := fs.globalInodeTable.setIfInBounds i inode }

/-- The block of a directory, read for its entries. -/
def block (fs : FileSystem) (i : Nat) : Bytes :=
  ataReadBlock fs.disk (fs.inode i).dataBlockStart

/-- The inode is marked in `global_ibmap`. -/
def Live (fs : FileSystem) (i : Nat) : Prop := WordArray.bit fs.globalIbmap i = true

/-- The inode is a directory's. -/
def IsDir (fs : FileSystem) (i : Nat) : Prop := (fs.inode i).fileType = fileTypeDir

/-- The inode is a special file's. -/
def IsSpecial (fs : FileSystem) (i : Nat) : Prop := (fs.inode i).fileType = fileTypeSpecial

instance (fs : FileSystem) (i : Nat) : Decidable (fs.Live i) :=
  inferInstanceAs (Decidable (_ = true))

instance (fs : FileSystem) (i : Nat) : Decidable (fs.IsDir i) :=
  inferInstanceAs (Decidable (_ = _))

instance (fs : FileSystem) (i : Nat) : Decidable (fs.IsSpecial i) :=
  inferInstanceAs (Decidable (_ = _))

theorem readInode_eq_ok {fs : FileSystem} {i : Nat} {inode : FileSystemInode} :
    fs.readInode i = .ok inode ↔ i < inodeCount ∧ fs.inode i = inode := by
  rw [readInode]
  split
  · simp_all
  · simp_all

theorem inode_setInode (fs : FileSystem) {i : Nat} (h : i < inodeCount)
    (inode : FileSystemInode) (j : Nat) :
    (fs.setInode i inode).inode j = if j = i then inode else fs.inode j := by
  simp only [FileSystem.inode, setInode, Vector.getElem?_setIfInBounds]
  by_cases hij : i = j
  · subst hij
    simp [h]
  · simp [hij, Ne.symm hij]

@[simp] theorem globalSuper_setInode (fs : FileSystem) (i : Nat) (inode : FileSystemInode) :
    (fs.setInode i inode).globalSuper = fs.globalSuper := rfl

@[simp] theorem globalIbmap_setInode (fs : FileSystem) (i : Nat) (inode : FileSystemInode) :
    (fs.setInode i inode).globalIbmap = fs.globalIbmap := rfl

@[simp] theorem globalDbmap_setInode (fs : FileSystem) (i : Nat) (inode : FileSystemInode) :
    (fs.setInode i inode).globalDbmap = fs.globalDbmap := rfl

@[simp] theorem globalFdTable_setInode (fs : FileSystem) (i : Nat) (inode : FileSystemInode) :
    (fs.setInode i inode).globalFdTable = fs.globalFdTable := rfl

@[simp] theorem disk_setInode (fs : FileSystem) (i : Nat) (inode : FileSystemInode) :
    (fs.setInode i inode).disk = fs.disk := rfl

end FileSystem

end Yorha.Fs
