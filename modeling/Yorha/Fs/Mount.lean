import Yorha.Fs.Format

/-!
# Shutting down and mounting

`shutdown` writes the super block, the bitmaps and the inode table to the disk, and
`initalize_file_system` reads them back, if the first sector says that the disk has been
formatted.  All of them are C objects in memory, and what is transferred are their bytes.

A transfer moves whole blocks, and the five blocks of the inode table are 32 bytes more than
the table has.  What a mount stores behind the table is left out of the state here;
`Transfer.Inside` says which transfers do that.

**Mounting undoes shutting down** (`mount_undoes_shutdown`): every table is what it was.
-/

namespace Yorha.Fs

open Yorha.Lib Yorha.Str Yorha.Util Yorha.Heap

variable {δ : Type} {fs : FileSystem}

/-! ## Transfers of several blocks -/

/-- `ata_read_blocks(block_num, buffer, count)`, as the bytes that arrive in the buffer. -/
def ataReadBlocks (disk : Disk) (blockNum : Nat) : Bytes := fun i ↦
  ataReadBlock disk (blockNum + i / blockBytes) (i % blockBytes)

/-- Writing to some blocks leaves the others alone. -/
theorem writeBlocks_of_notMem (disk : Disk) (buf : Bytes) {b c n : Nat} (hb : b + n ≤ 2 ^ 25)
    (h : c < b ∨ b + n ≤ c) : ataWriteBlocks disk b buf n c = disk c := by
  induction n with
  | zero => rfl
  | succ n ih =>
      have hne : c ≠ blockAddress (b + n) := by
        rw [blockAddress_of_lt (by omega)]
        omega
      rw [ataWriteBlocks, ataWriteBlock, Function.update_of_ne hne]
      exact ih (by omega) (by omega)

theorem read_write_blocks_of_mem (disk : Disk) (buf : Bytes) {b j n : Nat}
    (hb : b + n ≤ 2 ^ 25) (h : j < n) :
    ataReadBlock (ataWriteBlocks disk b buf n) (b + j) = buf.drop (blockBytes * j) := by
  induction n with
  | zero => exact absurd h (Nat.not_lt_zero j)
  | succ n ih =>
      rw [ataWriteBlocks]
      rcases Nat.lt_succ_iff_lt_or_eq.mp h with hlt | rfl
      · have hne : blockAddress (b + j) ≠ blockAddress (b + n) := by
          rw [blockAddress_of_lt (by omega), blockAddress_of_lt (by omega)]
          omega
        rw [read_write_block_of_ne _ _ hne]
        exact ih (by omega) hlt
      · rw [read_write_block]

/-- What was written to some blocks is read back from them. -/
theorem readBlocks_writeBlocks (disk : Disk) (buf : Bytes) {b n i : Nat}
    (hb : b + n ≤ 2 ^ 25) (hi : i < blockBytes * n) :
    ataReadBlocks (ataWriteBlocks disk b buf n) b i = buf i := by
  have hblock : i / blockBytes < n := Nat.div_lt_of_lt_mul hi
  rw [ataReadBlocks, read_write_blocks_of_mem disk buf hb hblock, Bytes.drop_apply,
    Nat.div_add_mod]

/-- Writing elsewhere does not change what is read. -/
theorem readBlocks_writeBlocks_of_disjoint (disk : Disk) (buf : Bytes) {b n c m i : Nat}
    (hb : b + n ≤ 2 ^ 25) (hc : c + m ≤ 2 ^ 25) (h : c + m ≤ b ∨ b + n ≤ c)
    (hi : i < blockBytes * m) :
    ataReadBlocks (ataWriteBlocks disk b buf n) c i = ataReadBlocks disk c i := by
  have hblock : i / blockBytes < m := Nat.div_lt_of_lt_mul hi
  rw [ataReadBlocks, ataReadBlocks]
  generalize i / blockBytes = j at hblock
  rw [ataReadBlock, ataReadBlock, blockAddress_of_lt (by omega),
    writeBlocks_of_notMem disk buf hb (by omega)]

/-! ## Tables from bytes -/

/-- The super block that lies in a buffer. -/
def decodeSuper (buffer : Bytes) : FileSystemSuper :=
  let field := fun j ↦ ((buffer.drop 16).drop (4 * j)).word
  { formatIndicator := buffer
    diskSize := field 0 + 2 ^ 32 * field 1
    sectorCount := field 2
    blockCount := field 3
    iBmapStart := field 4
    dBmapStart := field 5
    inodeTableStart := field 6
    usedInodes := field 7
    dataStart := field 8 }

/-- The bitmap that lies in a buffer. -/
def decodeBitmap (buffer : Bytes) : Vector Word bitmapWords :=
  Vector.ofFn fun i ↦ BitVec.ofNat 32 (buffer.drop (4 * i.val)).word

/-- The inode that lies in a buffer. -/
def decodeInode (buffer : Bytes) : FileSystemInode :=
  let field := fun j ↦ ((buffer.drop nameBytes).drop (4 * j)).word
  { name := buffer
    fileType := buffer nameBytes
    dataBlockStart := field 1
    size := field 2
    parentInodeNum := field 3 }

/-- The inode table that lies in a buffer. -/
def decodeTable (buffer : Bytes) : Vector FileSystemInode inodeCount :=
  Vector.ofFn fun i ↦ decodeInode (buffer.drop (inodeBytes * i.val))

/-! ## The functions -/

/-- The tables that a mount reads. -/
inductive GlobalTable where
  | ibmap
  | dbmap
  | inodeTable
deriving DecidableEq, Repr

/-- `sizeof` the table. -/
def GlobalTable.bytes : GlobalTable → Nat
  | .ibmap => 4 * bitmapWords
  | .dbmap => 4 * bitmapWords
  | .inodeTable => inodeBytes * inodeCount

/-- The transfer of `count` blocks to a table. -/
structure Transfer where
  blockNum : Nat
  table : GlobalTable
  count : Nat
deriving DecidableEq, Repr

/-- The transfer stores nothing behind its table. -/
def Transfer.Inside (t : Transfer) : Prop := blockBytes * t.count ≤ t.table.bytes

instance (t : Transfer) : Decidable t.Inside := inferInstanceAs (Decidable (_ ≤ _))

/-- What a transfer leaves in the table. -/
def Transfer.exec (fs : FileSystem) (t : Transfer) : FileSystem :=
  let buffer := ataReadBlocks fs.disk t.blockNum
  match t.table with
  | .ibmap => { fs with globalIbmap := decodeBitmap buffer }
  | .dbmap => { fs with globalDbmap := decodeBitmap buffer }
  | .inodeTable => { fs with globalInodeTable := decodeTable buffer }

/-- The transfers of a mount. -/
def mountTransfers (super : FileSystemSuper) : List Transfer :=
  [⟨super.iBmapStart, .ibmap, inodeBitmapSize⟩, ⟨super.dBmapStart, .dbmap, dataBitmapSize⟩,
    ⟨super.inodeTableStart, .inodeTable, inodeTableSize⟩]

/-- The tables as a mount reads them. -/
def mountTables (fs : FileSystem) : FileSystem :=
  let super := decodeSuper (ataReadBlock fs.disk 0)
  (mountTransfers super).foldl Transfer.exec { fs with globalSuper := super }

@[simp] theorem globalSuper_mountTables (fs : FileSystem) :
    (mountTables fs).globalSuper = decodeSuper (ataReadBlock fs.disk 0) := rfl

/-- `format_indicator` is `"Yorha"`. -/
def FileSystemSuper.Recognized (super : FileSystemSuper) : Prop :=
  strcmp super.formatIndicator (ofText "Yorha") = 0

instance (super : FileSystemSuper) : Decidable super.Recognized :=
  inferInstanceAs (Decidable (_ = _))

/-- Mounts the disk, or formats it.  `diskSize` is what the disk says its size is. -/
def initalizeFileSystem (k : Kernel δ) (forceFormat : Bool) (diskSize : Nat)
    (env : Surroundings) : Except Stop (Bool × Kernel δ) := do
  -- the first sector is the start of the first block
  let super := decodeSuper (ataReadBlock k.fs.disk 0)
  if forceFormat = false ∧ super.Recognized then do
    let k ← openSystemFiles { k with fs := mountTables k.fs }
    .ok (true, k)
  else do
    let k ← formatDisk k diskSize env
    .ok (true, k)

/-- The loop of `shutdown`. -/
def closeEach : List (SpecialFile δ) → Kernel δ → Except Stop (Kernel δ)
  | [], k => .ok k
  | file :: files, k => do
      let (_, k) ← close k file.fd
      closeEach files k

/-- The metadata that `shutdown` writes. -/
def syncMetadata (fs : FileSystem) (env : Surroundings) : FileSystem :=
  let super := fs.globalSuper
  let disk := ataWriteBlocks fs.disk 0 (encodeSuper super env) superSize
  let disk := ataWriteBlocks disk super.iBmapStart (encodeBitmap fs.globalIbmap) inodeBitmapSize
  let disk := ataWriteBlocks disk super.dBmapStart (encodeBitmap fs.globalDbmap) dataBitmapSize
  { fs with
    disk := ataWriteBlocks disk super.inodeTableStart (encodeTable fs env) inodeTableSize }

/-- Closes the system files and writes the metadata. -/
def shutdown (k : Kernel δ) (env : Surroundings) : Except Stop (Kernel δ) := do
  let k ← closeEach k.systemFiles k
  .ok { k with fs := syncMetadata k.fs env }

/-! ## Objects and their bytes -/

/-- The fields are values of their C types. -/
structure FileSystemSuper.InRange (super : FileSystemSuper) : Prop where
  diskSize : super.diskSize < 2 ^ 64
  sectorCount : super.sectorCount < 2 ^ 32
  blockCount : super.blockCount < 2 ^ 32
  iBmapStart : super.iBmapStart < 2 ^ 32
  dBmapStart : super.dBmapStart < 2 ^ 32
  inodeTableStart : super.inodeTableStart < 2 ^ 32
  usedInodes : super.usedInodes < 2 ^ 32
  dataStart : super.dataStart < 2 ^ 32

/-- The fields are values of their C types. -/
structure FileSystemInode.InRange (inode : FileSystemInode) : Prop where
  dataBlockStart : inode.dataBlockStart < 2 ^ 32
  size : inode.size < 2 ^ 32
  parentInodeNum : inode.parentInodeNum < 2 ^ 32

/-- The same super block: the bytes of the indicator and all other fields. -/
structure FileSystemSuper.Same (super super' : FileSystemSuper) : Prop where
  formatIndicator : ∀ i < 16, super'.formatIndicator i = super.formatIndicator i
  fields : super' = { super with formatIndicator := super'.formatIndicator }

/-- The same inode: the bytes of the name and all other fields. -/
structure FileSystemInode.Same (inode inode' : FileSystemInode) : Prop where
  name : ∀ i < nameBytes, inode'.name i = inode.name i
  fields : inode' = { inode with name := inode'.name }

/-- The numbers of a super block, as they are stored one after the other. -/
def FileSystemSuper.words (super : FileSystemSuper) : List Nat :=
  [super.diskSize, super.diskSize / 2 ^ 32, super.sectorCount, super.blockCount,
    super.iBmapStart, super.dBmapStart, super.inodeTableStart, super.usedInodes, super.dataStart]

theorem encodeSuper_indicator (super : FileSystemSuper) (env : Surroundings) {i : Nat}
    (h : i < 16) : encodeSuper super env i = super.formatIndicator i := if_pos h

theorem encodeSuper_words (super : FileSystemSuper) (env : Surroundings) {i : Nat}
    (h : i < 36) :
    encodeSuper super env (16 + i) = Bytes.ofList (super.words.flatMap Bytes.ofWord) i := by
  have hnot : ¬ 16 + i < 16 := by omega
  have hin : 16 + i < 52 := by omega
  refine (if_neg hnot).trans ((if_pos hin).trans ?_)
  rw [Nat.add_sub_cancel_left]
  rfl

/-- **A stored super block** leads back to it. -/
theorem decodeSuper_encodeSuper {super : FileSystemSuper} (h : super.InRange)
    {env : Surroundings} {buffer : Bytes} (hb : ∀ i < 52, buffer i = encodeSuper super env i) :
    super.Same (decodeSuper buffer) := by
  have hfield : ∀ j < 9,
      ((buffer.drop 16).drop (4 * j)).word = super.words.getD j 0 % 2 ^ 32 := by
    intro j hj
    rw [← Bytes.word_ofList_flatMap]
    refine Bytes.word_congr fun i hi ↦ ?_
    simp only [Bytes.drop_apply]
    rw [hb _ (by omega), encodeSuper_words super env (by omega)]
  refine ⟨fun i hi ↦ ?_, ?_⟩
  · change buffer i = _
    rw [hb i (by omega), encodeSuper_indicator super env hi]
  · have hsize : super.diskSize % 2 ^ 32 + 2 ^ 32 * (super.diskSize / 2 ^ 32 % 2 ^ 32) =
        super.diskSize := by
      have := h.diskSize
      omega
    simp only [decodeSuper, hfield, Nat.reduceLT, FileSystemSuper.words,
      List.getD_cons_zero, List.getD_cons_succ, hsize, Nat.mod_eq_of_lt h.sectorCount,
      Nat.mod_eq_of_lt h.blockCount, Nat.mod_eq_of_lt h.iBmapStart,
      Nat.mod_eq_of_lt h.dBmapStart, Nat.mod_eq_of_lt h.inodeTableStart,
      Nat.mod_eq_of_lt h.usedInodes, Nat.mod_eq_of_lt h.dataStart]

/-- **A stored bitmap** leads back to it. -/
theorem decodeBitmap_encodeBitmap {bitmap : Vector Word bitmapWords} {buffer : Bytes}
    (hb : ∀ i < blockBytes, buffer i = encodeBitmap bitmap i) : decodeBitmap buffer = bitmap := by
  ext i hi
  have hword : (buffer.drop (4 * i)).word = (bitmap[i] : Word).toNat := by
    have hget : WordArray.get bitmap i = bitmap[i] := by
      rw [get_vector, Vector.getElem?_eq_getElem hi, Option.getD_some]
    have hstored : (buffer.drop (4 * i)).word =
        (Bytes.ofList (Bytes.ofWord (bitmap[i] : Word).toNat ++ [])).word := by
      have hi' : i < 1024 := hi
      refine Bytes.word_congr fun j hj ↦ ?_
      have hin : 4 * i + j < blockBytes := by
        change _ < 4096
        omega
      rw [Bytes.drop_apply, hb _ hin, encodeBitmap, show (4 * i + j) / 4 = i by omega,
        show (4 * i + j) % 4 = j by omega, hget, List.append_nil]
      rfl
    rw [hstored, Bytes.word_ofList, Nat.mod_eq_of_lt (bitmap[i] : Word).isLt]
  rw [decodeBitmap, Vector.getElem_ofFn, hword, BitVec.ofNat_toNat, BitVec.setWidth_eq]

/-- The numbers of an inode, as they are stored one after the other behind its name. -/
def FileSystemInode.words (inode : FileSystemInode) : List Nat :=
  [inode.fileType.toNat, inode.dataBlockStart, inode.size, inode.parentInodeNum]

theorem encodeInode_name (inode : FileSystemInode) {i : Nat} (h : i < nameBytes) :
    encodeInode inode i = inode.name i := if_pos h

theorem encodeInode_words (inode : FileSystemInode) (i : Nat) :
    encodeInode inode (nameBytes + i) = Bytes.ofList (inode.words.flatMap Bytes.ofWord) i := by
  refine (if_neg (Nat.not_lt.mpr (Nat.le_add_right _ i))).trans ?_
  rw [Nat.add_sub_cancel_left]
  rfl

/-- **A stored inode** leads back to it. -/
theorem decodeInode_encodeInode {inode : FileSystemInode} (h : inode.InRange) {buffer : Bytes}
    (hb : ∀ i < inodeBytes, buffer i = encodeInode inode i) : inode.Same (decodeInode buffer) := by
  have hfield : ∀ j < 4,
      ((buffer.drop nameBytes).drop (4 * j)).word = inode.words.getD j 0 % 2 ^ 32 := by
    intro j hj
    rw [← Bytes.word_ofList_flatMap]
    refine Bytes.word_congr fun i hi ↦ ?_
    have hin : nameBytes + (4 * j + i) < inodeBytes := by
      change 32 + _ < 48
      omega
    simp only [Bytes.drop_apply]
    rw [hb _ hin, encodeInode_words]
  have htype : buffer nameBytes = inode.fileType := by
    rw [hb nameBytes (by decide), ← Nat.add_zero nameBytes, encodeInode_words]
    change UInt8.ofNat inode.fileType.toNat = _
    exact UInt8.ofNat_toNat
  refine ⟨fun i hi ↦ ?_, ?_⟩
  · change buffer i = _
    rw [hb i (lt_trans hi (by decide)), encodeInode_name inode hi]
  · simp only [decodeInode, hfield, htype, Nat.reduceLT, FileSystemInode.words,
      List.getD_cons_zero, List.getD_cons_succ, Nat.mod_eq_of_lt h.dataBlockStart,
      Nat.mod_eq_of_lt h.size, Nat.mod_eq_of_lt h.parentInodeNum]

/-- The inodes of a table read from a buffer. -/
theorem inode_decodeTable (fs : FileSystem) (buffer : Bytes) {i : Nat} (h : i < inodeCount) :
    FileSystem.inode { fs with globalInodeTable := decodeTable buffer } i =
      decodeInode (buffer.drop (inodeBytes * i)) := by
  rw [FileSystem.inode, decodeTable, Vector.getElem?_eq_getElem h, Option.getD_some,
    Vector.getElem_ofFn]

/-- Where an inode lies among the bytes of the table. -/
theorem encodeTable_inode (fs : FileSystem) (env : Surroundings) {i j : Nat}
    (hi : i < inodeCount) (hj : j < inodeBytes) :
    encodeTable fs env (inodeBytes * i + j) = encodeInode (fs.inode i) j := by
  have hdiv : (inodeBytes * i + j) / inodeBytes = i := by
    rw [Nat.mul_add_div (by decide), Nat.div_eq_of_lt hj, Nat.add_zero]
  have hmod : (inodeBytes * i + j) % inodeBytes = j := by
    rw [Nat.mul_add_mod, Nat.mod_eq_of_lt hj]
  rw [encodeTable, hdiv, hmod, if_pos hi]

/-! ## Mounting undoes shutting down -/

/-- The tables hold values of their C types. -/
structure FileSystem.InRange (fs : FileSystem) : Prop where
  super : fs.globalSuper.InRange
  inode : ∀ i < inodeCount, (fs.inode i).InRange

/-- The layout is the one set at formatting. -/
structure FileSystemSuper.FormattedLayout (super : FileSystemSuper) : Prop where
  iBmapStart : super.iBmapStart = superSize
  dBmapStart : super.dBmapStart = superSize + inodeBitmapSize
  inodeTableStart : super.inodeTableStart = superSize + inodeBitmapSize + dataBitmapSize
  dataStart : super.dataStart = dataRegionStart

/-- The super block, the bitmaps and the inodes are the same. -/
structure SameTables (fs fs' : FileSystem) : Prop where
  super : fs.globalSuper.Same fs'.globalSuper
  ibmap : fs'.globalIbmap = fs.globalIbmap
  dbmap : fs'.globalDbmap = fs.globalDbmap
  inode : ∀ i < inodeCount, (fs.inode i).Same (fs'.inode i)

/-- What the loop of `shutdown` changes is the descriptor table. -/
theorem closeEach_ok {files : List (SpecialFile δ)} {k k' : Kernel δ}
    (h : closeEach files k = .ok k') :
    ∃ t, k' = { k with fs := { k.fs with globalFdTable := t } } := by
  induction files generalizing k with
  | nil =>
      cases h
      exact ⟨_, rfl⟩
  | cons file files ih =>
      simp only [closeEach, bind_eq_ok, Prod.exists] at h
      obtain ⟨v, k₁, hclose, h⟩ := h
      simp only [close, bind_eq_ok] at hclose
      obtain ⟨t₁, -, hclose⟩ := hclose
      cases hclose
      obtain ⟨t, rfl⟩ := ih h
      exact ⟨t, rfl⟩

/-- A descriptor that `open` returned, or that no call set yet. -/
def ValidFd (fd : Int) : Prop := fd = -1 ∨ 0 ≤ fd ∧ fd < descriptorCount

theorem close_of_validFd (k : Kernel δ) {fd : Int} (h : ValidFd fd) :
    ∃ v k', close k fd = .ok (v, k') := by
  rcases h with rfl | ⟨h₀, h₁⟩
  · refine ⟨-1, k, ?_⟩
    rw [close, deallocBitrange_minusOne]
    rfl
  · obtain ⟨n, rfl⟩ := Int.eq_ofNat_of_zero_le h₀
    have hn : n < descriptorCount := Int.ofNat_lt.mp h₁
    obtain ⟨t, ht, -⟩ := deallocBitrange_table k.fs.globalFdTable hn
    have hmod : toUint32 (n : Int) = n := toUint32_descriptor hn
    refine ⟨-1, { k with fs := { k.fs with globalFdTable := t } }, ?_⟩
    rw [close, hmod, ht]
    rfl

/-- Closing the system files returns. -/
theorem closeEach_of_validFd {files : List (SpecialFile δ)}
    (h : ∀ file ∈ files, ValidFd file.fd) (k : Kernel δ) : ∃ k', closeEach files k = .ok k' := by
  induction files generalizing k with
  | nil => exact ⟨k, rfl⟩
  | cons file files ih =>
      obtain ⟨v, k₁, hclose⟩ := close_of_validFd k (h file List.mem_cons_self)
      obtain ⟨k', hk'⟩ := ih (fun f hf ↦ h f (List.mem_cons_of_mem _ hf)) k₁
      refine ⟨k', ?_⟩
      rw [closeEach, hclose]
      exact hk'

theorem shutdown_of_validFd {k : Kernel δ} (h : ∀ file ∈ k.systemFiles, ValidFd file.fd)
    (env : Surroundings) : ∃ k', shutdown k env = .ok k' := by
  obtain ⟨k', hk'⟩ := closeEach_of_validFd h k
  refine ⟨{ k' with fs := syncMetadata k'.fs env }, ?_⟩
  rw [shutdown, hk']
  rfl

/-- What a returning `shutdown` did. -/
theorem shutdown_ok {k k' : Kernel δ} {env : Surroundings} (h : shutdown k env = .ok k') :
    ∃ t, k' = { k with fs := syncMetadata { k.fs with globalFdTable := t } env } := by
  simp only [shutdown, bind_eq_ok] at h
  obtain ⟨k₁, hclose, h⟩ := h
  obtain ⟨t, rfl⟩ := closeEach_ok hclose
  cases h
  exact ⟨t, rfl⟩

/-- Opening the system files changes no table but that of the descriptors. -/
theorem openEach_fs {files : List (SpecialFile δ)} {i : Nat} {k k' : Kernel δ}
    (h : openEach files i k = .ok k') : ∃ t, k'.fs = { k.fs with globalFdTable := t } := by
  induction files generalizing k i with
  | nil =>
      cases h
      exact ⟨_, rfl⟩
  | cons file files ih =>
      obtain ⟨fd, k₁, dev, hopen, -, h⟩ := openEach_cons_ok h
      obtain ⟨t₁, ht₁, -⟩ := openFile_ok hopen
      obtain ⟨t, ht⟩ := ih h
      refine ⟨t, ?_⟩
      rw [ht, ht₁]

section

variable (hlayout : fs.globalSuper.FormattedLayout) (env : Surroundings)

include hlayout

/-- The disk that `syncMetadata` leaves, with the places of the tables spelled out. -/
theorem disk_syncMetadata : (syncMetadata fs env).disk =
    ataWriteBlocks (ataWriteBlocks (ataWriteBlocks (ataWriteBlocks fs.disk
      0 (encodeSuper fs.globalSuper env) 1) 1 (encodeBitmap fs.globalIbmap) 1)
      2 (encodeBitmap fs.globalDbmap) 1) 3 (encodeTable fs env) 5 := by
  simp only [syncMetadata, hlayout.iBmapStart, hlayout.dBmapStart, hlayout.inodeTableStart]
  rfl

/-- **Shutting down leaves the data alone.** -/
theorem syncMetadata_data {b : Nat} (hb : dataRegionStart ≤ b) :
    (syncMetadata fs env).disk b = fs.disk b := by
  have hb : 8 ≤ b := hb
  rw [disk_syncMetadata hlayout, writeBlocks_of_notMem _ _ (by omega) (by omega),
    writeBlocks_of_notMem _ _ (by omega) (by omega),
    writeBlocks_of_notMem _ _ (by omega) (by omega),
    writeBlocks_of_notMem _ _ (by omega) (by omega)]

theorem syncMetadata_super {i : Nat} (hi : i < blockBytes) :
    ataReadBlock (syncMetadata fs env).disk 0 i = encodeSuper fs.globalSuper env i := by
  have hread : ∀ disk : Disk, ataReadBlock disk 0 i = ataReadBlocks disk 0 i := by
    intro disk
    rw [ataReadBlocks, Nat.div_eq_of_lt hi, Nat.mod_eq_of_lt hi]
  have hi1 : i < blockBytes * 1 := by rwa [Nat.mul_one]
  rw [hread, disk_syncMetadata hlayout,
    readBlocks_writeBlocks_of_disjoint _ _ (by omega) (by omega) (by omega) hi1,
    readBlocks_writeBlocks_of_disjoint _ _ (by omega) (by omega) (by omega) hi1,
    readBlocks_writeBlocks_of_disjoint _ _ (by omega) (by omega) (by omega) hi1,
    readBlocks_writeBlocks _ _ (by omega) hi1]

theorem syncMetadata_ibmap {i : Nat} (hi : i < blockBytes) :
    ataReadBlocks (syncMetadata fs env).disk 1 i = encodeBitmap fs.globalIbmap i := by
  have hi1 : i < blockBytes * 1 := by rwa [Nat.mul_one]
  rw [disk_syncMetadata hlayout,
    readBlocks_writeBlocks_of_disjoint _ _ (by omega) (by omega) (by omega) hi1,
    readBlocks_writeBlocks_of_disjoint _ _ (by omega) (by omega) (by omega) hi1,
    readBlocks_writeBlocks _ _ (by omega) hi1]

theorem syncMetadata_dbmap {i : Nat} (hi : i < blockBytes) :
    ataReadBlocks (syncMetadata fs env).disk 2 i = encodeBitmap fs.globalDbmap i := by
  have hi1 : i < blockBytes * 1 := by rwa [Nat.mul_one]
  rw [disk_syncMetadata hlayout,
    readBlocks_writeBlocks_of_disjoint _ _ (by omega) (by omega) (by omega) hi1,
    readBlocks_writeBlocks _ _ (by omega) hi1]

theorem syncMetadata_table {i : Nat} (hi : i < blockBytes * 5) :
    ataReadBlocks (syncMetadata fs env).disk 3 i = encodeTable fs env i := by
  rw [disk_syncMetadata hlayout, readBlocks_writeBlocks _ _ (by omega) hi]

/-- **The tables come back.** -/
theorem mountTables_syncMetadata (h : fs.InRange) {disk : Disk}
    (hdisk : disk = (syncMetadata fs env).disk) :
    SameTables fs (mountTables (FileSystem.zero disk)) := by
  subst hdisk
  have hsuper : fs.globalSuper.Same
      (decodeSuper (ataReadBlock (syncMetadata fs env).disk 0)) :=
    decodeSuper_encodeSuper h.super fun i hi ↦
      syncMetadata_super hlayout env (lt_trans hi (by decide))
  have hfields := hsuper.fields
  have hi : (decodeSuper (ataReadBlock (syncMetadata fs env).disk 0)).iBmapStart = 1 := by
    rw [hfields]
    exact hlayout.iBmapStart
  have hd : (decodeSuper (ataReadBlock (syncMetadata fs env).disk 0)).dBmapStart = 2 := by
    rw [hfields]
    exact hlayout.dBmapStart
  have ht : (decodeSuper (ataReadBlock (syncMetadata fs env).disk 0)).inodeTableStart = 3 := by
    rw [hfields]
    exact hlayout.inodeTableStart
  refine ⟨hsuper, ?_, ?_, fun i hlt ↦ ?_⟩
  · refine Eq.trans ?_ (decodeBitmap_encodeBitmap fun i hi ↦ syncMetadata_ibmap hlayout env hi)
    change decodeBitmap (ataReadBlocks _ _) = _
    rw [← hi]
    rfl
  · refine Eq.trans ?_ (decodeBitmap_encodeBitmap fun i hi ↦ syncMetadata_dbmap hlayout env hi)
    change decodeBitmap (ataReadBlocks _ _) = _
    rw [← hd]
    rfl
  · have hinode : (mountTables (FileSystem.zero (syncMetadata fs env).disk)).inode i =
        decodeInode ((ataReadBlocks (syncMetadata fs env).disk 3).drop (inodeBytes * i)) := by
      rw [← ht]
      exact inode_decodeTable _ _ hlt
    rw [hinode]
    refine decodeInode_encodeInode (h.inode i hlt) fun j hj ↦ ?_
    have hlt' : i < 426 := hlt
    have hj' : j < 48 := hj
    have hin : inodeBytes * i + j < blockBytes * 5 := by
      change 48 * i + j < 4096 * 5
      omega
    rw [Bytes.drop_apply, syncMetadata_table hlayout env hin, encodeTable_inode fs env hlt hj]

end

/-- An indicator is compared up to its sixth byte. -/
theorem FileSystemSuper.Same.recognized {super super' : FileSystemSuper}
    (h : super.Same super') (hrec : super.Recognized) : super'.Recognized := by
  have hyorha : (0 : UInt8) ∉ ofText "Yorha" := by decide
  rw [FileSystemSuper.Recognized, strcmp_eq_zero hyorha] at hrec ⊢
  refine hrec.congr fun i hi ↦ h.formatIndicator i (lt_of_le_of_lt hi ?_)
  decide

/-- **What a shutdown leaves on the disk**: the data as it was, and tables that a mount reads
back. -/
theorem sameTables_of_shutdown {k k₁ : Kernel δ} {env : Surroundings} (hrange : k.fs.InRange)
    (hlayout : k.fs.globalSuper.FormattedLayout) (h : shutdown k env = .ok k₁) :
    (∀ b, dataRegionStart ≤ b → k₁.fs.disk b = k.fs.disk b) ∧
      SameTables k.fs (mountTables (FileSystem.zero k₁.fs.disk)) := by
  obtain ⟨t, rfl⟩ := shutdown_ok h
  -- the tables that are written are those after the system files were closed
  obtain ⟨fs, hfs⟩ : ∃ fs : FileSystem, { k.fs with globalFdTable := t } = fs := ⟨_, rfl⟩
  have hlayout' : fs.globalSuper.FormattedLayout := hfs ▸ hlayout
  have hrange' : fs.InRange := hfs ▸ ⟨hrange.super, hrange.inode⟩
  rw [hfs]
  constructor
  · intro b hb
    rw [syncMetadata_data hlayout' env hb, ← hfs]
  · have hsame := mountTables_syncMetadata hlayout' env hrange' rfl
    generalize mountTables _ = fs₂ at hsame ⊢
    rw [← hfs] at hsame
    exact ⟨hsame.super, hsame.ibmap, hsame.dbmap, hsame.inode⟩

/-- A disk that is recognized is not formatted. -/
theorem initalizeFileSystem_of_recognized {k : Kernel δ}
    (h : (mountTables k.fs).globalSuper.Recognized) (diskSize : Nat) (env : Surroundings) :
    initalizeFileSystem k false diskSize env =
      (openSystemFiles { k with fs := mountTables k.fs } >>= fun k ↦ .ok (true, k)) := by
  rw [globalSuper_mountTables] at h
  rw [initalizeFileSystem, if_pos ⟨rfl, h⟩]

/-- The system that starts from the disk of `k₁` does not format it: it goes on to open the
system files with the super block, the bitmaps and the inodes of `k`, and these are what it
has in the end. -/
def Restores (k k₁ : Kernel δ) : Prop :=
  ∀ (k₂ : Kernel δ) (diskSize : Nat) (env : Surroundings), k₂.fs = FileSystem.zero k₁.fs.disk →
    ∃ fs, SameTables k.fs fs ∧
      initalizeFileSystem k₂ false diskSize env =
        (openSystemFiles { k₂ with fs := fs } >>= fun k ↦ .ok (true, k)) ∧
      ∀ r k₃, initalizeFileSystem k₂ false diskSize env = .ok (r, k₃) → SameTables k.fs k₃.fs

/-- The disk that a shutdown leaves is one from which the tables are restored. -/
theorem restores_of_shutdown {k k₁ : Kernel δ} {env : Surroundings} (hrange : k.fs.InRange)
    (hlayout : k.fs.globalSuper.FormattedLayout) (hrec : k.fs.globalSuper.Recognized)
    (h : shutdown k env = .ok k₁) : Restores k k₁ := by
  intro k₂ diskSize env' hk₂
  obtain ⟨-, hsame⟩ := sameTables_of_shutdown hrange hlayout h
  rw [← hk₂] at hsame
  have hmount := initalizeFileSystem_of_recognized (hsame.super.recognized hrec) diskSize env'
  generalize mountTables k₂.fs = fs₂ at hsame hmount
  refine ⟨fs₂, hsame, hmount, fun r k₃ h ↦ ?_⟩
  rw [hmount, bind_eq_ok] at h
  obtain ⟨k₄, hopen, h⟩ := h
  cases h
  obtain ⟨t', ht'⟩ := openEach_fs hopen
  rw [ht']
  exact ⟨hsame.super, hsame.ibmap, hsame.dbmap, hsame.inode⟩

/-- **Mounting undoes shutting down.**  Shutting down returns, leaves every block of data as
it was, and leaves a disk from which the tables are restored. -/
theorem mount_undoes_shutdown {k : Kernel δ} (hrange : k.fs.InRange)
    (hlayout : k.fs.globalSuper.FormattedLayout) (hrec : k.fs.globalSuper.Recognized)
    (hfds : ∀ file ∈ k.systemFiles, ValidFd file.fd) (env : Surroundings) :
    ∃ k₁, shutdown k env = .ok k₁ ∧
      (∀ b, k.fs.globalSuper.dataStart ≤ b → k₁.fs.disk b = k.fs.disk b) ∧ Restores k k₁ := by
  obtain ⟨k₁, hk₁⟩ := shutdown_of_validFd hfds env
  obtain ⟨hdata, -⟩ := sameTables_of_shutdown hrange hlayout hk₁
  refine ⟨k₁, hk₁, ?_, restores_of_shutdown hrange hlayout hrec hk₁⟩
  rw [hlayout.dataStart]
  exact hdata

end Yorha.Fs
