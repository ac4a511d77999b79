import Yorha.Fs.SetUp
import Yorha.Fs.Unresolved

/-!
# Losing power

The calls store a block of a file or of a directory at once, and keep the super block, the
bitmaps and the inodes in memory.  Formatting and `shutdown` write these, and nothing else does.
A machine that loses its power comes up with the tables of its last shutdown over blocks that
are newer.

If no file was removed since then, this is the tree of that shutdown (`rolledBack_of_reaches`):
files made since are gone, and what was written into older files is there as far as their sizes
of then go.  Before the first shutdown the tables on the disk are those of an empty root, because
`/dev` is made after they are written.  No mount of such a disk completes
(`mount_unsaved`), and as the disk is recognized it is not formatted again either.
-/

namespace Yorha.Fs

open Yorha.Lib Yorha.Str Yorha.Util Yorha.Heap

variable {δ : Type} {fs fs' : FileSystem} {k k' : Kernel δ} {c : FsCall} {v : Int}
  {disk disk' : Disk} {d i b : Nat}

/-! ## The metadata on the disk -/

/-- The disks have the same super block, bitmaps and table of inodes. -/
def SameMetadata (disk disk' : Disk) : Prop := ∀ b < dataRegionStart, disk' b = disk b

theorem SameMetadata.refl (disk : Disk) : SameMetadata disk disk := fun _ _ ↦ rfl

theorem SameMetadata.trans {disk'' : Disk} (h : SameMetadata disk disk')
    (h' : SameMetadata disk' disk'') : SameMetadata disk disk'' :=
  fun b hb ↦ (h' b hb).trans (h b hb)

/-- Storing a block of the data leaves the metadata. -/
theorem sameMetadata_writeBlock (disk : Disk) (buf : Bytes) (hb : dataRegionStart ≤ b)
    (hlt : b < 2 ^ 25) : SameMetadata disk (ataWriteBlock disk b buf) := by
  intro c hc
  rw [ataWriteBlock, blockAddress_of_lt hlt, Function.update_of_ne]
  exact Nat.ne_of_lt (lt_of_lt_of_le hc hb)

/-- What some writes leave in a block, on disks that agree there if the writes do not store
it. -/
theorem writeBlocks_congr (buf : Bytes) {b c n : Nat} (hb : b + n ≤ 2 ^ 25)
    (h : b ≤ c ∧ c < b + n ∨ disk' c = disk c) :
    ataWriteBlocks disk' b buf n c = ataWriteBlocks disk b buf n c := by
  induction n with
  | zero =>
      rcases h with hin | heq
      · exact absurd hin.2 (Nat.not_lt.mpr hin.1)
      · exact heq
  | succ n ih =>
      rw [ataWriteBlocks, ataWriteBlocks, ataWriteBlock, ataWriteBlock]
      by_cases hc : c = blockAddress (b + n)
      · rw [hc, Function.update_self, Function.update_self]
      · rw [Function.update_of_ne hc, Function.update_of_ne hc]
        refine ih (by omega) (h.imp_left fun hin ↦ ⟨hin.1, ?_⟩)
        rw [blockAddress_of_lt (by omega)] at hc
        omega

/-- The file system with another disk. -/
def FileSystem.onDisk (fs : FileSystem) (disk : Disk) : FileSystem := { fs with disk := disk }

@[simp] theorem FileSystem.disk_onDisk (fs : FileSystem) (disk : Disk) :
    (fs.onDisk disk).disk = disk := rfl

@[simp] theorem FileSystem.globalSuper_onDisk (fs : FileSystem) (disk : Disk) :
    (fs.onDisk disk).globalSuper = fs.globalSuper := rfl

/-- The disk with the tables of `fs` on it. -/
def storedOn (fs : FileSystem) (env : Surroundings) (disk : Disk) : Disk :=
  ataWriteBlocks (ataWriteBlocks (ataWriteBlocks (ataWriteBlocks disk
    0 (encodeSuper fs.globalSuper env) 1) 1 (encodeBitmap fs.globalIbmap) 1)
    2 (encodeBitmap fs.globalDbmap) 1) 3 (encodeTable fs env) 5

theorem disk_syncMetadata_onDisk (hlayout : fs.globalSuper.FormattedLayout) (env : Surroundings)
    (disk : Disk) : (syncMetadata (fs.onDisk disk) env).disk = storedOn fs env disk := by
  have hlayout' : (fs.onDisk disk).globalSuper.FormattedLayout := hlayout
  rw [disk_syncMetadata hlayout']
  rfl

/-- What is stored in the blocks of the metadata does not depend on what was there. -/
theorem storedOn_metadata (fs : FileSystem) (env : Surroundings) (disk disk' : Disk) :
    SameMetadata (storedOn fs env disk) (storedOn fs env disk') := by
  intro b hb
  have hb : b < 8 := hb
  rw [storedOn, storedOn]
  by_cases h₃ : 3 ≤ b
  · exact writeBlocks_congr _ (by omega) (.inl ⟨h₃, by omega⟩)
  refine writeBlocks_congr _ (by omega) (.inr ?_)
  by_cases h₂ : 2 ≤ b
  · exact writeBlocks_congr _ (by omega) (.inl ⟨h₂, by omega⟩)
  refine writeBlocks_congr _ (by omega) (.inr ?_)
  by_cases h₁ : 1 ≤ b
  · exact writeBlocks_congr _ (by omega) (.inl ⟨h₁, by omega⟩)
  exact writeBlocks_congr _ (by omega) (.inr (writeBlocks_congr _ (by omega)
    (.inl ⟨Nat.zero_le _, by omega⟩)))

/-- The other blocks stay. -/
theorem storedOn_data (fs : FileSystem) (env : Surroundings) (disk : Disk)
    (hb : dataRegionStart ≤ b) : storedOn fs env disk b = disk b := by
  have hb : 8 ≤ b := hb
  rw [storedOn, writeBlocks_of_notMem _ _ (by omega) (by omega),
    writeBlocks_of_notMem _ _ (by omega) (by omega),
    writeBlocks_of_notMem _ _ (by omega) (by omega),
    writeBlocks_of_notMem _ _ (by omega) (by omega)]

/-- The disk has the tables of `fs`: writing them would change nothing. -/
def Stored (fs : FileSystem) (disk : Disk) : Prop := ∃ env, storedOn fs env disk = disk

/-- Writing the tables puts them on the disk. -/
theorem stored_storedOn (fs : FileSystem) (env : Surroundings) (disk : Disk) :
    Stored fs (storedOn fs env disk) := by
  refine ⟨env, funext fun b ↦ ?_⟩
  rcases Nat.lt_or_ge b dataRegionStart with hb | hb
  · exact storedOn_metadata fs env disk _ b hb
  · exact storedOn_data fs env _ hb

/-- Tables stay on the disk as long as nothing is stored over them. -/
theorem Stored.of_metadata (h : Stored fs disk) (hdisk : SameMetadata disk disk') :
    Stored fs disk' := by
  obtain ⟨env, henv⟩ := h
  refine ⟨env, funext fun b ↦ ?_⟩
  rcases Nat.lt_or_ge b dataRegionStart with hb | hb
  · rw [hdisk b hb, storedOn_metadata fs env disk disk' b hb, henv]
  · exact storedOn_data fs env disk' hb

/-- A mount reads the tables that the disk has. -/
theorem Stored.sameTables (h : Stored fs disk) (hrange : fs.InRange)
    (hlayout : fs.globalSuper.FormattedLayout) :
    SameTables fs (mountTables (FileSystem.zero disk)) := by
  obtain ⟨env, henv⟩ := h
  have hlayout' : (fs.onDisk disk).globalSuper.FormattedLayout := hlayout
  have hsame := mountTables_syncMetadata hlayout' env ⟨hrange.super, hrange.inode⟩
    ((disk_syncMetadata_onDisk hlayout env disk).trans henv).symm
  exact ⟨hsame.super, hsame.ibmap, hsame.dbmap, hsame.inode⟩

/-- A shutdown puts the tables on the disk. -/
theorem stored_shutdown {env : Surroundings} (hlayout : k.fs.globalSuper.FormattedLayout)
    (h : shutdown k env = .ok k') : Stored k.fs k'.fs.disk := by
  obtain ⟨t, rfl⟩ := shutdown_ok h
  have hlayout' : ({ k.fs with globalFdTable := t } : FileSystem).globalSuper.FormattedLayout :=
    hlayout
  have hstored := stored_storedOn k.fs env k.fs.disk
  rwa [show storedOn k.fs env k.fs.disk = _ from (disk_syncMetadata hlayout' env).symm] at hstored

theorem writeBlocks_one (disk : Disk) (b : Nat) (buf : Bytes) :
    ataWriteBlocks disk b buf 1 = ataWriteBlock disk b buf := by
  rw [ataWriteBlocks, ataWriteBlocks, Nat.mul_zero, Bytes.drop_zero, Nat.add_zero]

/-- Formatting stores the tables, and then the block of the root. -/
theorem formatMetadata_disk {diskSize : Nat} {env : Surroundings}
    (h : formatMetadata fs diskSize env = .ok fs') :
    ∃ null, fs'.disk = ataWriteBlock (storedOn fs' env fs.disk) dataRegionStart null := by
  simp only [formatMetadata, bind_eq_ok, Prod.exists] at h
  obtain ⟨ibmap, -, range, dbmap, -, null, -, h⟩ := h
  cases h
  refine ⟨null, ?_⟩
  simp only [storedOn, writeBlocks_one]
  rfl

/-- Formatting puts the tables of an empty root on the disk. -/
theorem stored_formatMetadata {diskSize : Nat} {env : Surroundings}
    (h : formatMetadata fs diskSize env = .ok fs') : Stored fs' fs'.disk := by
  obtain ⟨null, hdisk⟩ := formatMetadata_disk h
  refine (stored_storedOn fs' env fs.disk).of_metadata ?_
  rw [hdisk]
  exact sameMetadata_writeBlock _ _ le_rfl (by decide)

/-! ## What the calls store -/

/-- The call writes to no file that was removed. -/
def WritesLive (fs : FileSystem) : FsCall → Prop
  | .write fd _ _ => fs.Live (fs.globalFdTable.entry fd.toNat).inodeNum
  | _ => True

instance (fs : FileSystem) : ∀ c, Decidable (WritesLive fs c)
  | .write _ _ _ => inferInstanceAs (Decidable (_ = true))
  | .createFiletype _ _ _ _ => inferInstanceAs (Decidable True)
  | .openFile _ => inferInstanceAs (Decidable True)
  | .close _ => inferInstanceAs (Decidable True)
  | .read _ _ _ => inferInstanceAs (Decidable True)
  | .seek _ _ _ => inferInstanceAs (Decidable True)
  | .unlink _ _ => inferInstanceAs (Decidable True)

/-- **A call leaves the metadata on the disk alone.** -/
theorem Effect.sameMetadata (he : Effect fs fs' c) (hs : Sound fs) (hm : MetadataOwned fs)
    (hc : KeepsTree fs c) (hw : WritesLive fs c) : SameMetadata fs.disk fs'.disk := by
  have hstore : ∀ {j} (buf : Bytes), fs.Live j → ¬ fs.IsSpecial j →
      SameMetadata fs.disk (ataWriteBlock fs.disk (fs.inode j).dataBlockStart buf) :=
    fun buf hj hsp ↦ sameMetadata_writeBlock _ buf (hm.block_ge hj hsp)
      (lt_trans (hs.block_lt hj) (by decide))
  cases he with
  | moved ht _ =>
      rw [ht]
      exact .refl _
  | created h _ =>
      have hd := (hs.leads hc h.seek).2.live
      rw [h.disk_eq hd]
      exact hstore _ hd h.parent_dir.not_isSpecial
  | opened ht _ _ _ _ =>
      rw [ht]
      exact .refl _
  | closed ht _ =>
      rw [ht]
      exact .refl _
  | wrote h =>
      rw [h.disk]
      refine hstore _ ?_ h.not_special
      rw [← h.inodeNum]
      exact hw
  | removed h =>
      have hd := (hs.leads hc.1 h.seek).2.live
      obtain ⟨entry, buf, -, -, -, -, hdisk⟩ := h.entry_eq hs hd
      rw [hdisk]
      exact hstore _ hd h.parent_dir.not_isSpecial

/-! ## What only grows -/

/-- What was there is there, and to its directories entries were at most appended. -/
structure Grown (fs fs' : FileSystem) : Prop where
  live : ∀ {i}, fs.Live i → fs'.Live i
  fileType : ∀ {i}, fs.Live i → (fs'.inode i).fileType = (fs.inode i).fileType
  dataBlockStart : ∀ {i}, fs.Live i → (fs'.inode i).dataBlockStart = (fs.inode i).dataBlockStart
  files : ∀ {d}, fs.Live d → fs.IsDir d → fs.files d ≤ fs'.files d
  entries : ∀ {d}, fs.Live d → fs.IsDir d → ∀ file < fs.files d, ∀ j < entryBytes,
    fs'.block d (entryBytes * file + j) = fs.block d (entryBytes * file + j)

theorem Grown.refl (fs : FileSystem) : Grown fs fs :=
  ⟨id, fun _ ↦ rfl, fun _ ↦ rfl, fun _ _ ↦ le_rfl, fun _ _ _ _ _ _ ↦ rfl⟩

theorem Grown.isDir (h : Grown fs fs') (hd : fs.Live d) (hdir : fs.IsDir d) : fs'.IsDir d :=
  (h.fileType hd).trans hdir

theorem Grown.trans {fs'' : FileSystem} (h : Grown fs fs') (h' : Grown fs' fs'') :
    Grown fs fs'' where
  live := fun hi ↦ h'.live (h.live hi)
  fileType := fun hi ↦ (h'.fileType (h.live hi)).trans (h.fileType hi)
  dataBlockStart := fun hi ↦ (h'.dataBlockStart (h.live hi)).trans (h.dataBlockStart hi)
  files := fun hd hdir ↦ (h.files hd hdir).trans (h'.files (h.live hd) (h.isDir hd hdir))
  entries := by
    intro d hd hdir file hfile j hj
    have hle := h.files hd hdir
    rw [h'.entries (h.live hd) (h.isDir hd hdir) file (lt_of_lt_of_le hfile hle) j hj,
      h.entries hd hdir file hfile j hj]

theorem SameTree.grown (h : SameTree fs fs') : Grown fs fs' where
  live := fun hi ↦ (h.live_iff _).mpr hi
  fileType := fun _ ↦ h.fileType _
  dataBlockStart := fun _ ↦ h.dataBlockStart _
  files := fun hd hdir ↦ (h.files_eq hd hdir).ge
  entries := fun hd hdir _ _ _ _ ↦ congrFun (h.block hd hdir) _

theorem Created.grown {path : CString} {fileType : UInt8}
    (h : Created fs fs' path fileType d i b) (hs : Sound fs) (hd : fs.Live d) : Grown fs fs' where
  live := fun hi ↦ (h.live_iff _).mpr (.inr hi)
  fileType := by
    intro j hj
    obtain ⟨n, hn, -⟩ := h.inode_live hd hj
    rw [hn]
  dataBlockStart := fun hj ↦ h.dataBlockStart_eq hd hj
  files := by
    intro j hj _
    by_cases hjd : j = d
    · rw [hjd, h.files_parent hs hd]
      exact Nat.le_succ _
    · exact (h.files_eq hd hj hjd).ge
  entries := by
    intro j hj hdir file hfile o ho
    by_cases hjd : j = d
    · -- the new entry is behind those of the directory
      subst hjd
      rw [h.block_parent hd]
      exact linkEntry_of_ne _ _ h.name_lt (Nat.ne_of_lt hfile) ho
    · rw [h.block_eq hs hd hj hdir.not_isSpecial hjd]

/-- **A call that removes nothing lets the tree grow.** -/
theorem TreeEffect.grown (h : TreeEffect fs fs' c) (hs : Sound fs) (hc : c.removes fs = none) :
    Grown fs fs' := by
  cases h with
  | same h => exact h.grown
  | created h hd => exact h.grown hs hd
  | removed _ _ htarget _ => cases htarget.symm.trans hc

/-! ## Old tables over newer blocks -/

/-- A disk on which the directories have the entries that they have in `fs`. -/
def KeepsEntries (fs : FileSystem) (disk : Disk) : Prop :=
  ∀ d, fs.Live d → fs.IsDir d → ∀ file < fs.files d, ∀ j < entryBytes,
    (fs.onDisk disk).block d (entryBytes * file + j) = fs.block d (entryBytes * file + j)

theorem Grown.keepsEntries (h : Grown fs fs') : KeepsEntries fs fs'.disk := by
  intro d hd hdir file hfile j hj
  rw [← h.entries hd hdir file hfile j hj, FileSystem.block, FileSystem.block,
    h.dataBlockStart hd]
  rfl

section

variable (h : KeepsEntries fs disk)

include h

/-- On such a disk the directories have the same children. -/
theorem KeepsEntries.forest : fs.forest.Same (fs.onDisk disk).forest := by
  refine ⟨fun _ ↦ Iff.rfl, fun {i} hi ↦ ?_⟩
  change (fs.onDisk disk).children i = fs.children i
  by_cases hdir : fs.IsDir i
  · have hdir' : (fs.onDisk disk).IsDir i := hdir
    rw [FileSystem.children_of_isDir hdir, FileSystem.children_of_isDir hdir']
    refine List.map_congr_left fun file hfile ↦ entryAt_congr ?_
    refine h i hi hdir file ?_
    have hlt := (List.mem_range'_1.mp hfile).2
    rwa [Nat.zero_add] at hlt
  · have hdir' : ¬ (fs.onDisk disk).IsDir i := hdir
    rw [FileSystem.children_of_not_isDir hdir, FileSystem.children_of_not_isDir hdir']

/-- Nothing but entries came. -/
theorem KeepsEntries.grown : Grown fs (fs.onDisk disk) :=
  ⟨id, fun _ ↦ rfl, fun _ ↦ rfl, fun _ _ ↦ le_rfl, fun hd hdir ↦ h _ hd hdir⟩

/-- **The old tables are as sound there as they were.** -/
theorem KeepsEntries.sound (hs : Sound fs) : Sound (fs.onDisk disk) where
  lt := hs.lt
  root_dir := hs.root_dir
  special_block := hs.special_block
  block_marked := hs.block_marked
  last_free := hs.last_free
  block_inj := hs.block_inj
  size := hs.size
  files_le := hs.files_le
  names := fun hd hdir file hfile ↦
    terminated_congr (h _ hd hdir file hfile) (hs.names hd hdir file hfile)
  forest := h.forest.wellFormed hs.forest

end

/-! ## A mount after the power was lost -/

/-- What a boot starts from, beside the disk. -/
structure PowerOn (δ : Type) where
  /-- Where the memory of the allocator starts. -/
  bottom : Nat
  mem : Bytes
  dev : δ
  diskSize : Nat
  env : Surroundings

/-- The kernel after `initialize_allocator`, with these system files and globals of `fs.c`. -/
def PowerOn.kernel (on : PowerOn δ) (files : List (SpecialFile δ)) (fs : FileSystem) :
    Kernel δ where
  fs := fs
  heap := ⟨AllocArray.initial on.bottom, on.mem⟩
  systemFiles := files
  dev := on.dev

/-- `initalize_file_system(false)` in a boot with this disk. -/
def PowerOn.mount (on : PowerOn δ) (files : List (SpecialFile δ)) (disk : Disk) :
    Except Stop (Bool × Kernel δ) :=
  initalizeFileSystem (on.kernel files (FileSystem.zero disk)) false on.diskSize on.env

/-- The file system `fs` has the tables and the tree of `saved`, and of each file of it the
block that `lost` has. -/
structure RolledBack (saved lost fs : FileSystem) : Prop where
  tables : SameTables saved fs
  tree : saved.forest.Same fs.forest
  block : ∀ {i}, saved.Live i → fs.block i = lost.block i

theorem SameTables.mountableSuper (h : SameTables fs fs') (hs : MountableSuper fs.globalSuper) :
    MountableSuper fs'.globalSuper := by
  have hfields := h.super.fields
  refine ⟨?_, ?_, h.super.recognized hs.recognized⟩
  · rw [hfields]
    exact { hs.range with }
  · rw [hfields]
    exact { hs.layout with }

theorem SameTables.inodesInRange (h : SameTables fs fs') (hr : InodesInRange fs) :
    InodesInRange fs' := by
  intro i hi
  rw [(h.inode i hi).fields]
  exact { hr i hi with }

/-- **Opening the system files completes** in a boot whose tables are sound and have them, and
the next shutdown can be undone again. -/
theorem openSystemFiles_boot {files : List (SpecialFile δ)} (on : PowerOn δ)
    (htable : SystemTable files) (hs : Sound fs) (hm : MetadataOwned fs)
    (hsuper : MountableSuper fs.globalSuper) (hinodes : InodesInRange fs)
    (hfree : ∀ fd, fs.globalFdTable.marked fd = false)
    (hat : ∀ file ∈ files, SpecialAt fs (systemPath file.filename)) :
    ∃ k, openSystemFiles (on.kernel files fs) = .ok k ∧ RemountInv files k ∧
      ∃ t, k.fs = { fs with globalFdTable := t } := by
  have hcan : CanOpen (on.kernel files fs) 0 :=
    ⟨hs, ⟨on.bottom, fun _ ↦ none, alike_refl _, HeapInv.initial on.bottom⟩, fun fd _ ↦ hfree fd,
      htable.initializes⟩
  have hused : 0 + files.length ≤ descriptorCount := by
    rw [Nat.zero_add]
    exact htable.length_le
  obtain ⟨k, hk⟩ := hcan.openEach (i := 0) hused htable.name hat
  obtain ⟨t, ht⟩ := openEach_fs hk
  have hclosed : ∀ file ∈ (on.kernel files fs).systemFiles, ValidFd file.fd :=
    fun file hfile ↦ .inl (htable.closed file hfile)
  have htree : SameTree fs k.fs := by
    rw [ht]
    exact .of_table fs t
  refine ⟨k, hk, ⟨htree.sound hs, htree.metadataOwned hm,
    ⟨?_, ?_, openEach_validFd hclosed hk⟩,
    fun file hfile ↦ htree.specialAt hs (hat file hfile)⟩, t, ht⟩
  · rw [ht]
    exact hsuper
  · rw [ht]
    exact hinodes

/-- The disk of `lost` has the tables of `saved`, and only new files and new entries came since
these were written. -/
structure OldTables (files : List (SpecialFile δ)) (saved : Kernel δ) (lost : FileSystem) :
    Prop where
  inv : RemountInv files saved
  stored : Stored saved.fs lost.disk
  grown : Grown saved.fs lost

/-- The tables that a mount of the disk reads. -/
def tablesOn (disk : Disk) : FileSystem := mountTables (FileSystem.zero disk)

@[simp] theorem disk_tablesOn (disk : Disk) : (tablesOn disk).disk = disk := rfl

/-- A disk that is recognized is not formatted. -/
theorem mount_of_recognized (h : (tablesOn disk).globalSuper.Recognized) (on : PowerOn δ)
    (files : List (SpecialFile δ)) : on.mount files disk =
      (openSystemFiles (on.kernel files (tablesOn disk)) >>= fun k ↦ .ok (true, k)) :=
  initalizeFileSystem_of_recognized (k := on.kernel files (FileSystem.zero disk)) h on.diskSize
    on.env

namespace OldTables

variable {files : List (SpecialFile δ)} {saved : Kernel δ} {lost : FileSystem}
  (h : OldTables files saved lost)

include h

theorem sameTables : SameTables saved.fs (tablesOn lost.disk) :=
  h.stored.sameTables ⟨h.inv.mountable.super.range, h.inv.mountable.inodes⟩
    h.inv.mountable.super.layout

theorem sound : Sound (saved.fs.onDisk lost.disk) := h.grown.keepsEntries.sound h.inv.sound

theorem metadataOwned : MetadataOwned (saved.fs.onDisk lost.disk) :=
  ⟨h.inv.metadata.dataStart, h.inv.metadata.marked, h.inv.metadata.root_block,
    h.inv.metadata.block_ge⟩

theorem sameTree : SameTree (saved.fs.onDisk lost.disk) (tablesOn lost.disk) :=
  sameTree_of_sameTables h.sound h.metadataOwned
    ⟨h.sameTables.super, h.sameTables.ibmap, h.sameTables.dbmap, h.sameTables.inode⟩
    fun _ _ ↦ rfl

/-- **What a mount reads** is the tree of then, with the blocks of now. -/
theorem rolledBack : RolledBack saved.fs lost (tablesOn lost.disk) where
  tables := h.sameTables
  tree := by
    have hforest := h.grown.keepsEntries.forest
    refine ⟨fun i ↦ (h.sameTree.live_iff i).trans (hforest.live i), fun {i} hi ↦ ?_⟩
    exact (h.sameTree.children_eq hi).trans (hforest.children hi)
  block := by
    intro i hi
    rw [FileSystem.block, FileSystem.block, disk_tablesOn, h.sameTree.dataBlockStart,
      h.grown.dataBlockStart hi]
    rfl

/-- The system files are where they were. -/
theorem specialAt {path : CString} (hat : SpecialAt saved.fs path) :
    SpecialAt (tablesOn lost.disk) path := by
  refine h.sameTree.specialAt h.sound ?_
  obtain ⟨e, ht, he, hsp⟩ := hat
  refine ⟨e, ?_, he, hsp⟩
  rw [FileSystem.target_eq_resolve] at ht ⊢
  rw [h.grown.keepsEntries.forest.resolve h.inv.sound.forest h.inv.sound.root_live]
  exact ht

/-- **The mount completes**, and the next shutdown can be undone again. -/
theorem mount (htable : SystemTable files) (on : PowerOn δ) :
    ∃ k, on.mount files lost.disk = .ok (true, k) ∧ RemountInv files k ∧
      ∃ t, k.fs = { tablesOn lost.disk with globalFdTable := t } := by
  have hfree : ∀ fd, (tablesOn lost.disk).globalFdTable.marked fd = false :=
    (unused_zero lost.disk).unmarked
  obtain ⟨k, hk, hinv, ht⟩ := openSystemFiles_boot on htable (h.sameTree.sound h.sound)
    (h.sameTree.metadataOwned h.metadataOwned)
    (h.sameTables.mountableSuper h.inv.mountable.super)
    (h.sameTables.inodesInRange h.inv.mountable.inodes) hfree
    fun file hfile ↦ h.specialAt (h.inv.at_dev file hfile)
  refine ⟨k, ?_, hinv, ht⟩
  have hrec := h.sameTables.super.recognized h.inv.mountable.super.recognized
  rw [mount_of_recognized hrec, hk, ok_bind]

/-- The disk still has the tables of `saved` when the mount is done. -/
theorem of_mount {k : Kernel δ} {t : FileDescriptorTable}
    (hk : k.fs = { tablesOn lost.disk with globalFdTable := t }) :
    OldTables files saved k.fs ∧ RolledBack saved.fs lost k.fs := by
  have hback := h.rolledBack
  have hgrown := h.grown.keepsEntries.grown.trans h.sameTree.grown
  have hdisk := disk_tablesOn lost.disk
  generalize tablesOn lost.disk = fs at hk hback hgrown hdisk
  rw [hk]
  refine ⟨⟨h.inv, ?_, hgrown.trans (SameTree.of_table fs t).grown⟩, ⟨?_, ?_, hback.block⟩⟩
  · rw [hdisk]
    exact h.stored
  · exact ⟨hback.tables.super, hback.tables.ibmap, hback.tables.dbmap, hback.tables.inode⟩
  · exact ⟨hback.tree.live, hback.tree.children⟩

end OldTables

/-- A shutdown stores the tables and nothing else. -/
theorem RemountInv.oldTables {files : List (SpecialFile δ)} {env : Surroundings}
    (h : RemountInv files k) (hx : shutdown k env = .ok k') : OldTables files k k'.fs := by
  have hlayout := h.mountable.super.layout
  obtain ⟨hdata, -⟩ := sameTables_of_shutdown ⟨h.mountable.super.range, h.mountable.inodes⟩
    hlayout hx
  refine ⟨h, stored_shutdown hlayout hx, ?_⟩
  obtain ⟨t, rfl⟩ := shutdown_ok hx
  refine ⟨id, fun _ ↦ rfl, fun _ ↦ rfl, fun _ _ ↦ le_rfl, fun {d} hd hdir file _ j _ ↦ ?_⟩
  change ataReadBlock _ (k.fs.inode d).dataBlockStart _ = _
  rw [FileSystem.block, ataReadBlock, ataReadBlock,
    blockAddress_of_lt (lt_trans (h.sound.block_lt hd) (by decide)),
    hdata _ (h.metadata.block_ge hd hdir.not_isSpecial)]

/-! ## Histories -/

/-- A machine, the kernel as it was when the tables were last written, and whether a power loss
could now cost more than what came since. -/
structure PowerHistory (δ : Type) where
  kernel : Kernel δ
  saved : Kernel δ
  atRisk : Bool

/-- What may happen. -/
inductive PowerEvent (δ : Type) where
  | call (c : FsCall)
  /-- The machine is shut down, and started again. -/
  | reboot (env : Surroundings) (on : PowerOn δ)
  /-- The machine loses its power, and is started again. -/
  | powerLoss (on : PowerOn δ)

def PowerHistory.exec (files : List (SpecialFile δ)) (s : PowerHistory δ) :
    PowerEvent δ → Except Stop (Bool × PowerHistory δ)
  | .call c => do
      let (_, k) ← c.exec s.kernel
      .ok (true, ⟨k, s.saved, s.atRisk || (c.removes s.kernel.fs).isSome⟩)
  | .reboot env on => do
      let k ← shutdown s.kernel env
      let (r, k) ← on.mount files k.fs.disk
      .ok (r, ⟨k, s.kernel, false⟩)
  | .powerLoss on => do
      let (r, k) ← on.mount files s.kernel.fs.disk
      .ok (r, ⟨k, s.saved, s.atRisk⟩)

/-- A call that keeps the system files and writes to no file that was removed. -/
def KeepsDisk (k : Kernel δ) (c : FsCall) : Prop := KeepsDevices k c ∧ WritesLive k.fs c

instance (k : Kernel δ) (c : FsCall) : Decidable (KeepsDisk k c) :=
  inferInstanceAs (Decidable (_ ∧ _))

/-- The calls keep the disk, and the power is not lost after a removal. -/
def KeepsPower (s : PowerHistory δ) : PowerEvent δ → Prop
  | .call c => KeepsDisk s.kernel c
  | .reboot _ _ => True
  | .powerLoss _ => s.atRisk = false

instance (s : PowerHistory δ) : ∀ ev, Decidable (KeepsPower s ev)
  | .call _ => inferInstanceAs (Decidable (KeepsDisk _ _))
  | .reboot _ _ => inferInstanceAs (Decidable True)
  | .powerLoss _ => inferInstanceAs (Decidable (_ = false))

/-- What holds along a history. -/
structure PowerInv (files : List (SpecialFile δ)) (s : PowerHistory δ) : Prop where
  kernel : RemountInv files s.kernel
  disk : s.atRisk = false → OldTables files s.saved s.kernel.fs

/-- **Step.**  A call lets the tree grow over the tables on the disk; a boot reads them back. -/
theorem PowerInv.step {files : List (SpecialFile δ)} (htable : SystemTable files)
    {s s' : PowerHistory δ} {ev : PowerEvent δ} {r : Bool} (h : PowerInv files s)
    (hc : KeepsPower s ev) (hx : s.exec files ev = .ok (r, s')) : PowerInv files s' := by
  cases ev with
  | call c =>
      simp only [PowerHistory.exec, bind_eq_ok, Prod.exists] at hx
      obtain ⟨v, k, hcall, hx⟩ := hx
      cases hx
      obtain ⟨hkeep, hwrites⟩ := hc
      refine ⟨h.kernel.step htable hkeep hcall, fun hrisk ↦ ?_⟩
      obtain ⟨hrisk, hnone⟩ := Bool.or_eq_false_iff.mp hrisk
      have hold := h.disk hrisk
      have he := exec_ok hcall
      have htree := he.treeEffect h.kernel.sound hkeep.1.1
      refine ⟨hold.inv, hold.stored.of_metadata ?_,
        hold.grown.trans (htree.grown h.kernel.sound ?_)⟩
      · exact he.sameMetadata h.kernel.sound h.kernel.metadata hkeep.1.1 hwrites
      · exact Option.isNone_iff_eq_none.mp (Option.isSome_eq_false_iff.mp hnone)
  | reboot env on =>
      simp only [PowerHistory.exec, bind_eq_ok, Prod.exists] at hx
      obtain ⟨k₁, hdown, r₁, k, hmount, hx⟩ := hx
      cases hx
      have hold := h.kernel.oldTables hdown
      obtain ⟨k₂, hk₂, hinv, t, ht⟩ := hold.mount htable on
      cases hmount.symm.trans hk₂
      exact ⟨hinv, fun _ ↦ (hold.of_mount ht).1⟩
  | powerLoss on =>
      simp only [PowerHistory.exec, bind_eq_ok, Prod.exists] at hx
      obtain ⟨r₁, k, hmount, hx⟩ := hx
      cases hx
      have hold := h.disk hc
      obtain ⟨k₂, hk₂, hinv, t, ht⟩ := hold.mount htable on
      cases hmount.symm.trans hk₂
      exact ⟨hinv, fun _ ↦ (hold.of_mount ht).1⟩

/-- A disk that was just formatted is at risk until the first shutdown. -/
theorem FormattedWith.powerInv {files : List (SpecialFile δ)} (htable : SystemTable files)
    (h : FormattedWith files k) : PowerInv files ⟨k, k, true⟩ :=
  ⟨h.remountInv htable, fun hrisk ↦ nomatch hrisk⟩

theorem powerInv_of_reaches {files : List (SpecialFile δ)} (htable : SystemTable files)
    (h₀ : FormattedWith files k) {s : PowerHistory δ}
    (h : Reaches (PowerHistory.exec files) KeepsPower ⟨k, k, true⟩ s) : PowerInv files s :=
  Reaches.invariant (I := PowerInv files) h (h₀.powerInv htable)
    fun hI hc hx ↦ hI.step htable hc hx

/-- **What a power loss costs.**  In every history of calls, shutdowns and power losses: if the
machine was shut down since the disk was formatted, and no file was removed since the last
shutdown, then the mount after a power loss completes, with the tree of that shutdown and the
blocks of now. -/
theorem rolledBack_of_reaches {files : List (SpecialFile δ)} (htable : SystemTable files)
    (h₀ : FormattedWith files k) {s : PowerHistory δ}
    (h : Reaches (PowerHistory.exec files) KeepsPower ⟨k, k, true⟩ s) (hrisk : s.atRisk = false)
    (on : PowerOn δ) : ∃ k', s.exec files (.powerLoss on) = .ok (true, ⟨k', s.saved, false⟩) ∧
      RolledBack s.saved.fs s.kernel.fs k'.fs := by
  have hold := (powerInv_of_reaches htable h₀ h).disk hrisk
  obtain ⟨k', hk', -, t, ht⟩ := hold.mount htable on
  refine ⟨k', ?_, (hold.of_mount ht).2⟩
  rw [PowerHistory.exec, hk', ok_bind, hrisk]

/-- The boots of the machine with two terminals. -/
def terminalOn : PowerOn Unit where
  bottom := 0x400000
  mem := fun _ ↦ 0
  dev := ()
  diskSize := 0x100000
  env := ⟨fun _ ↦ 0, fun _ ↦ 0, none, fun _ ↦ 0⟩

/-- A file is made before a shutdown, a second one after it, and a third one after the power was
lost. -/
def lostCalls : List (PowerEvent Unit) :=
  [.call (.create ⟨ofText "/one", by decide⟩ (fun _ ↦ 0)), .reboot terminalOn.env terminalOn,
    .call (.create ⟨ofText "/two", by decide⟩ (fun _ ↦ 0)), .powerLoss terminalOn,
    .call (.create ⟨ofText "/three", by decide⟩ (fun _ ↦ 0))]

/-- When the power is lost again, the machine is back where it was shut down. -/
theorem rolledBack_lostCalls : ∃ s,
    runCalls (PowerHistory.exec terminalBoot.systemFiles) KeepsPower lostCalls
      ⟨terminalKernel, terminalKernel, true⟩ = some s ∧
    ∃ k', s.exec terminalBoot.systemFiles (.powerLoss terminalOn) =
        .ok (true, ⟨k', s.saved, false⟩) ∧ RolledBack s.saved.fs s.kernel.fs k'.fs := by
  obtain ⟨s, hs, hrisk⟩ := (Option.any_eq_true _ _).mp
    (show (runCalls (PowerHistory.exec terminalBoot.systemFiles) KeepsPower lostCalls
      ⟨terminalKernel, terminalKernel, true⟩).any (fun s ↦ !s.atRisk) = true by decide +kernel)
  exact ⟨s, hs, rolledBack_of_reaches systemTable_terminals formattedWith_terminalKernel
    (reaches_of_runCalls hs) (Bool.not_eq_true' _ |>.mp hrisk) terminalOn⟩

/-! ## Before the first shutdown -/

/-- The disk has the tables of an empty root. -/
def Unsaved (fs : FileSystem) : Prop :=
  ∃ blank, Blank blank ∧ MountableSuper blank.globalSuper ∧ Stored blank fs.disk

/-- What is kept until the first shutdown. -/
structure UnsavedInv (fs : FileSystem) : Prop where
  sound : Sound fs
  metadata : MetadataOwned fs
  unsaved : Unsaved fs

/-- **Step.**  A call leaves the tables of the empty root on the disk. -/
theorem UnsavedInv.step (h : UnsavedInv k.fs) (hc : KeepsBlocks k c) (hw : WritesLive k.fs c)
    (hx : FsCall.exec k c = .ok (v, k')) : UnsavedInv k'.fs := by
  have he := exec_ok hx
  have htree := he.treeEffect h.sound hc.1
  obtain ⟨blank, hblank, hsuper, hstored⟩ := h.unsaved
  exact ⟨htree.sound h.sound, htree.metadataOwned h.sound h.metadata hc, blank, hblank, hsuper,
    hstored.of_metadata (he.sameMetadata h.sound h.metadata hc.1 hw)⟩

/-- Formatting writes the tables before it makes `/dev`. -/
theorem FormattedWith.unsavedInv {files : List (SpecialFile δ)} (h : FormattedWith files k) :
    UnsavedInv k.fs := by
  obtain ⟨k₀, diskSize, env, ⟨⟨disk, hdisk⟩, -⟩, -, hsize, h⟩ := h
  obtain ⟨fs, k₁, hmeta, hblank, hsys, hopened⟩ := formatDisk_ok hdisk h
  have hsuper : MountableSuper fs.globalSuper := by
    rw [formatMetadata_super hmeta]
    exact mountableSuper_formattedSuper _ hsize
  have hstart : Quiet fs ∧ UnsavedInv fs :=
    ⟨hblank.quiet, hblank.sound, hblank.metadataOwned, fs, hblank, hsuper,
      stored_formatMetadata hmeta⟩
  have hstep : ∀ {k k' : Kernel δ} {c v}, Quiet k.fs ∧ UnsavedInv k.fs → FormatCall c →
      FsCall.exec k c = .ok (v, k') → Quiet k'.fs ∧ UnsavedInv k'.fs := by
    rintro k k' c v ⟨hq, hI⟩ hc hx
    have hkeep : KeepsBlocks k c :=
      ⟨hq.keepsTree (hc.keepsQuiet _), by simp [hc.removes_eq_none]⟩
    have hw : WritesLive k.fs c := by
      cases hc with
      | createFiletype => trivial
      | openFile => trivial
    exact ⟨(exec_ok hx).quiet hq (hc.keepsQuiet _), hI.step hkeep hw hx⟩
  have hmade : Quiet k₁.fs ∧ UnsavedInv k₁.fs :=
    createSystemFiles_invariant (I := fun k ↦ Quiet k.fs ∧ UnsavedInv k.fs) hstep hstart hsys
  exact (openEach_invariant (I := fun k ↦ Quiet k.fs ∧ UnsavedInv k.fs) hstep
    (fun _ _ hI ↦ hI) hmade hopened).2

theorem unsavedInv_of_reaches {files : List (SpecialFile δ)} {k₀ : Kernel δ}
    (h₀ : FormattedWith files k₀)
    (h : Reaches FsCall.exec (fun k c ↦ KeepsBlocks k c ∧ WritesLive k.fs c) k₀ k) :
    UnsavedInv k.fs :=
  Reaches.invariant (I := fun k ↦ UnsavedInv k.fs) h h₀.unsavedInv
    fun hI hc hx ↦ hI.step hc.1 hc.2 hx

/-- In an empty root there is no `/dev`. -/
theorem seekDirectory_of_empty (hs : Sound fs) (hempty : fs.children 0 = []) {filename : CString}
    (hname : SystemName filename) :
    seekDirectory fs (parsePath (systemPath filename)).1.chars = .ok (-1) := by
  rw [seekDirectory_eq_walk fs hname.absolute]
  change fs.walk (dirNames (systemPath filename)) 0 = _
  rw [hname.dirNames, hs.walk_cons hs.root_live (.inl hs.root_dir) (by decide), hempty,
    if_pos (by decide)]
  rfl

/-- **A disk that was never shut down cannot be mounted.**  Whatever calls are made after the
disk was formatted: if the power is lost before the first shutdown, no later boot gets its file
system.  It finds a formatted disk, so it does not format it, and there is no `/dev` on it. -/
theorem mount_unsaved {files : List (SpecialFile δ)} (htable : SystemTable files)
    (hne : files ≠ []) {k₀ : Kernel δ} (h₀ : FormattedWith files k₀)
    (h : Reaches FsCall.exec (fun k c ↦ KeepsBlocks k c ∧ WritesLive k.fs c) k₀ k)
    (on : PowerOn δ) : on.mount files k.fs.disk = .error .fault := by
  obtain ⟨blank, hblank, hsuper, hstored⟩ := (unsavedInv_of_reaches h₀ h).unsaved
  have hsame := hstored.sameTables ⟨hsuper.range, hblank.inodesInRange⟩ hsuper.layout
  have hblank' : Blank (blank.onDisk k.fs.disk) :=
    ⟨hblank.dataStart, hblank.live_iff, hblank.dbmap, hblank.root, hblank.others,
      hblank.unmarked⟩
  have htree : SameTree (blank.onDisk k.fs.disk) (tablesOn k.fs.disk) :=
    sameTree_of_sameTables hblank'.sound hblank'.metadataOwned
      ⟨hsame.super, hsame.ibmap, hsame.dbmap, hsame.inode⟩ fun _ _ ↦ rfl
  have hempty : (tablesOn k.fs.disk).children 0 = [] :=
    (htree.children_eq hblank'.sound.root_live).trans hblank'.children_root
  obtain ⟨file, files, rfl⟩ := List.exists_cons_of_ne_nil hne
  have hname := htable.name file List.mem_cons_self
  have hseek := seekDirectory_of_empty (htree.sound hblank'.sound) hempty hname
  obtain ⟨r, hr⟩ := Path_initial on.bottom on.mem hname.nonempty hname.short
  have hopen : openFile (on.kernel (file :: files) (tablesOn k.fs.disk))
      (systemPath file.filename) = .error .fault := openFile_unresolved hseek hr
  rw [mount_of_recognized (hsame.super.recognized hsuper.recognized), openSystemFiles,
    show (on.kernel (file :: files) (tablesOn k.fs.disk)).systemFiles = file :: files from rfl,
    openEach, show devPrefix.append file.filename = systemPath file.filename from rfl, hopen]
  rfl

/-- A file is made on a new disk, and the power is lost. -/
theorem mount_unsaved_created : ∃ k,
    runCalls FsCall.exec (fun k c ↦ KeepsBlocks k c ∧ WritesLive k.fs c)
      [.create ⟨ofText "/a", by decide⟩ (fun _ ↦ 0)] terminalKernel = some k ∧
    terminalOn.mount terminalBoot.systemFiles k.fs.disk = .error .fault := by
  obtain ⟨k, hk⟩ := Option.isSome_iff_exists.mp
    (show (runCalls FsCall.exec (fun k c ↦ KeepsBlocks k c ∧ WritesLive k.fs c)
      [.create ⟨ofText "/a", by decide⟩ (fun _ ↦ 0)] terminalKernel).isSome = true by
        decide +kernel)
  exact ⟨k, hk, mount_unsaved systemTable_terminals (by decide) formattedWith_terminalKernel
    (reaches_of_runCalls hk) terminalOn⟩

end Yorha.Fs
