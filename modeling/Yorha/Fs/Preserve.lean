import Yorha.Fs.Steps

/-!
# What keeps a file system sound

One statement for each way a call changes the file system: making a file links it into
the forest, removing one cuts it off, and writing to a file leaves the forest alone.
Each of them keeps the file system sound, under a condition on the state before:

* making a file, if its path is followed through directories (`SafePath`);
* removing a file, if moreover the file is not special, or no file has the block 0
  that special files carry as a place-holder (`SafeTarget`);
* writing, if nothing is accepted, or the file is special, or neither it nor its block
  is a live directory's (`SafeWrite`).
-/

namespace Yorha.Fs

open Yorha.Lib Yorha.Str Yorha.Util

variable {fs fs' : FileSystem} {path : CString} {fileType : UInt8} {past : Bytes}
  {d e i b fd count : Nat}

/-! ## Nothing changes -/

/-- The same inodes are live, and the directories among them are the same. -/
structure SameTree (fs fs' : FileSystem) : Prop where
  dataStart : fs'.globalSuper.dataStart = fs.globalSuper.dataStart
  ibmap : fs'.globalIbmap = fs.globalIbmap
  dbmap : fs'.globalDbmap = fs.globalDbmap
  fileType : ∀ i, (fs'.inode i).fileType = (fs.inode i).fileType
  dataBlockStart : ∀ i, (fs'.inode i).dataBlockStart = (fs.inode i).dataBlockStart
  size : ∀ {d}, fs.Live d → fs.IsDir d → (fs'.inode d).size = (fs.inode d).size
  block : ∀ {d}, fs.Live d → fs.IsDir d → fs'.block d = fs.block d

/-- A change of the descriptor table. -/
theorem SameTree.of_table (fs : FileSystem) (t : FileDescriptorTable) :
    SameTree fs { fs with globalFdTable := t } :=
  ⟨rfl, rfl, rfl, fun _ ↦ rfl, fun _ ↦ rfl, fun _ _ ↦ rfl, fun _ _ ↦ rfl⟩

namespace SameTree

variable (h : SameTree fs fs')

include h

theorem live_iff (i : Nat) : fs'.Live i ↔ fs.Live i := by
  rw [FileSystem.Live, h.ibmap, FileSystem.Live]

theorem isDir_iff (i : Nat) : fs'.IsDir i ↔ fs.IsDir i := by
  rw [FileSystem.IsDir, h.fileType, FileSystem.IsDir]

theorem isSpecial_iff (i : Nat) : fs'.IsSpecial i ↔ fs.IsSpecial i := by
  rw [FileSystem.IsSpecial, h.fileType, FileSystem.IsSpecial]

theorem files_eq (hd : fs.Live d) (hdir : fs.IsDir d) : fs'.files d = fs.files d := by
  rw [FileSystem.files, h.size hd hdir, FileSystem.files]

theorem children_eq (hd : fs.Live d) : fs'.children d = fs.children d := by
  by_cases hdir : fs.IsDir d
  · rw [FileSystem.children_of_isDir hdir,
      FileSystem.children_of_isDir ((h.isDir_iff d).mpr hdir), FileSystem.entries,
      h.files_eq hd hdir, h.block hd hdir, FileSystem.entries]
  · rw [FileSystem.children_of_not_isDir hdir,
      FileSystem.children_of_not_isDir (fun hdir' ↦ hdir ((h.isDir_iff d).mp hdir'))]

theorem forest : fs.forest.Same fs'.forest := ⟨h.live_iff, fun hv ↦ h.children_eq hv⟩

/-- **The same tree is as sound.** -/
theorem sound (hs : Sound fs) : Sound fs' where
  lt := fun hi ↦ hs.lt ((h.live_iff _).mp hi)
  root_dir := (h.isDir_iff 0).mpr hs.root_dir
  special_block := by
    intro i hi hsp
    rw [h.dataBlockStart]
    exact hs.special_block ((h.live_iff i).mp hi) ((h.isSpecial_iff i).mp hsp)
  block_marked := by
    intro i hi hsp
    rw [h.dataBlockStart, h.dbmap]
    exact hs.block_marked ((h.live_iff i).mp hi) (mt (h.isSpecial_iff i).mpr hsp)
  last_free := by
    rw [h.dbmap]
    exact hs.last_free
  block_inj := by
    intro i j hi hj hsi hsj heq
    rw [h.dataBlockStart, h.dataBlockStart] at heq
    exact hs.block_inj ((h.live_iff i).mp hi) ((h.live_iff j).mp hj)
      (mt (h.isSpecial_iff i).mpr hsi) (mt (h.isSpecial_iff j).mpr hsj) heq
  size := by
    intro d hd hdir
    have hd := (h.live_iff d).mp hd
    have hdir := (h.isDir_iff d).mp hdir
    rw [h.size hd hdir, h.files_eq hd hdir]
    exact hs.size hd hdir
  files_le := by
    intro d hd hdir
    have hd := (h.live_iff d).mp hd
    have hdir := (h.isDir_iff d).mp hdir
    rw [h.files_eq hd hdir]
    exact hs.files_le hd hdir
  names := by
    intro d hd hdir
    have hd := (h.live_iff d).mp hd
    have hdir := (h.isDir_iff d).mp hdir
    rw [h.files_eq hd hdir, h.block hd hdir]
    exact hs.names hd hdir
  forest := h.forest.wellFormed hs.forest

theorem metadataOwned (hm : MetadataOwned fs) : MetadataOwned fs' where
  dataStart := h.dataStart.trans hm.dataStart
  marked := by
    rw [h.dbmap]
    exact hm.marked
  root_block := by
    rw [h.dataBlockStart]
    exact hm.root_block
  block_ge := by
    intro i hi hsp
    rw [h.dataBlockStart]
    exact hm.block_ge ((h.live_iff i).mp hi) (mt (h.isSpecial_iff i).mpr hsp)

end SameTree

/-! ## Making a file -/

section

variable (h : Created fs fs' path fileType d i b)

include h

theorem Created.live_iff (j : Nat) : fs'.Live j ↔ j = i ∨ fs.Live j := by
  rw [FileSystem.Live, h.ibmap.bits j]
  split
  · simp_all
  · simp_all [FileSystem.Live]

theorem Created.not_live : ¬ fs.Live i := by
  rw [FileSystem.Live, h.ibmap.free]
  exact Bool.false_ne_true

theorem Created.ne_of_live {j : Nat} (hj : fs.Live j) : j ≠ i := by
  rintro rfl
  exact h.not_live hj

/-- The inode of the directory, when it is live. -/
theorem Created.inode_parent (hd : fs.Live d) : fs'.inode d =
    { fs.inode d with size := ((fs.inode d).size + entryBytes) % 2 ^ 32 } := by
  rw [h.inode d]
  simp only [parentInode, if_neg (h.ne_of_live hd), if_true]

theorem Created.inode_self (hd : fs.Live d) :
    fs'.inode i = madeInode (fileName path) fileType b d := by
  rw [h.inode i]
  simp only [if_neg (h.ne_of_live hd).symm, if_true]

theorem Created.inode_of_ne {j : Nat} (hj : j ≠ i) (hjd : j ≠ d) :
    fs'.inode j = fs.inode j := by
  rw [h.inode j]
  simp only [if_neg hj, if_neg hjd]

/-- The other inodes keep everything but the size of the directory. -/
theorem Created.inode_live (hd : fs.Live d) {j : Nat} (hj : fs.Live j) :
    ∃ n, fs'.inode j = { fs.inode j with size := n } ∧ (j ≠ d → n = (fs.inode j).size) := by
  by_cases hjd : j = d
  · subst hjd
    exact ⟨_, h.inode_parent hd, fun hne ↦ absurd rfl hne⟩
  · exact ⟨_, h.inode_of_ne (h.ne_of_live hj) hjd, fun _ ↦ rfl⟩

theorem Created.isDir_iff (hd : fs.Live d) {j : Nat} (hj : fs.Live j) :
    fs'.IsDir j ↔ fs.IsDir j := by
  obtain ⟨n, hn, -⟩ := h.inode_live hd hj
  rw [FileSystem.IsDir, hn, FileSystem.IsDir]

theorem Created.isSpecial_iff (hd : fs.Live d) {j : Nat} (hj : fs.Live j) :
    fs'.IsSpecial j ↔ fs.IsSpecial j := by
  obtain ⟨n, hn, -⟩ := h.inode_live hd hj
  rw [FileSystem.IsSpecial, hn, FileSystem.IsSpecial]

theorem Created.dataBlockStart_eq (hd : fs.Live d) {j : Nat} (hj : fs.Live j) :
    (fs'.inode j).dataBlockStart = (fs.inode j).dataBlockStart := by
  obtain ⟨n, hn, -⟩ := h.inode_live hd hj
  rw [hn]

/-- The disk changes in the directory's block only. -/
theorem Created.disk_eq (hd : fs.Live d) : fs'.disk =
    ataWriteBlock fs.disk (fs.inode d).dataBlockStart
      (linkEntry (fs.block d) (fs.files d) (fileName path) i) := by
  rw [h.disk]
  simp only [parentInode, if_neg (h.ne_of_live hd)]
  rfl

theorem Created.block_parent (hd : fs.Live d) :
    fs'.block d = linkEntry (fs.block d) (fs.files d) (fileName path) i := by
  rw [FileSystem.block, h.dataBlockStart_eq hd hd, h.disk_eq hd, read_write_block]

/-- The blocks of the other directories and files stay. -/
theorem Created.block_eq (hs : Sound fs) (hd : fs.Live d) {j : Nat} (hj : fs.Live j)
    (hsp : ¬ fs.IsSpecial j) (hjd : j ≠ d) : fs'.block j = fs.block j := by
  rw [FileSystem.block, h.dataBlockStart_eq hd hj, h.disk_eq hd, read_write_block_of_ne,
    FileSystem.block]
  exact hs.blockAddress_ne hj hd hsp h.parent_dir.not_isSpecial hjd

theorem Created.files_lt (hd : fs.Live d) : fs.files d < dirFileCountMax := by
  have hroom := h.room
  rw [parentInode, if_neg (h.ne_of_live hd)] at hroom
  exact hroom

theorem Created.size_parent (hs : Sound fs) (hd : fs.Live d) :
    (fs'.inode d).size = entryBytes * (fs.files d + 1) := by
  have hlt : fs.files d < 113 := h.files_lt hd
  rw [h.inode_parent hd, hs.size hd h.parent_dir]
  change (36 * fs.files d + 36) % 2 ^ 32 = 36 * (fs.files d + 1)
  omega

theorem Created.files_parent (hs : Sound fs) (hd : fs.Live d) :
    fs'.files d = fs.files d + 1 := by
  rw [FileSystem.files, h.size_parent hs hd]
  exact Nat.mul_div_cancel_left _ (by decide)

theorem Created.files_eq (hd : fs.Live d) {j : Nat} (hj : fs.Live j) (hjd : j ≠ d) :
    fs'.files j = fs.files j := by
  obtain ⟨n, hn, hsize⟩ := h.inode_live hd hj
  rw [FileSystem.files, hn, hsize hjd, FileSystem.files]

theorem Created.files_self (hd : fs.Live d) : fs'.files i = 0 := by
  rw [FileSystem.files, h.inode_self hd]
  exact Nat.zero_div _

/-- The children of the other inodes stay. -/
theorem Created.children_eq (hs : Sound fs) (hd : fs.Live d) {j : Nat} (hj : fs.Live j)
    (hjd : j ≠ d) : fs'.children j = fs.children j := by
  by_cases hdir : fs.IsDir j
  · rw [FileSystem.children_of_isDir hdir,
      FileSystem.children_of_isDir ((h.isDir_iff hd hj).mpr hdir), FileSystem.entries,
      h.files_eq hd hj hjd, h.block_eq hs hd hj hdir.not_isSpecial hjd, FileSystem.entries]
  · rw [FileSystem.children_of_not_isDir hdir,
      FileSystem.children_of_not_isDir (mt (h.isDir_iff hd hj).mp hdir)]

/-- The directory gets one more child. -/
theorem Created.children_parent (hs : Sound fs) (hd : fs.Live d) :
    fs'.children d = fs.children d ++ [(fileName path, i)] := by
  rw [FileSystem.children_of_isDir h.parent_dir,
    FileSystem.children_of_isDir ((h.isDir_iff hd hd).mpr h.parent_dir), FileSystem.entries,
    h.files_parent hs hd, h.block_parent hd, FileSystem.entries]
  exact entriesOf_linkEntry _ _ h.name_lt (zero_notMem_fileName path)
    (lt_trans h.lt (by decide))

/-- A new inode has no children. -/
theorem Created.children_self (hd : fs.Live d) : fs'.children i = [] := by
  by_cases hdir : fs'.IsDir i
  · rw [FileSystem.children_of_isDir hdir,
      FileSystem.entries_of_files_eq_zero (h.files_self hd)]
  · exact FileSystem.children_of_not_isDir hdir

/-- The name was not taken. -/
theorem Created.lookup_eq_none (hs : Sound fs) (hd : fs.Live d) :
    (fs.children d).lookup (fileName path) = none := by
  have hsearch := h.search
  rw [hs.searchDir_eq hd h.parent_dir (zero_notMem_fileName path)] at hsearch
  exact found_eq_neg_one.mp (Except.ok.inj hsearch)

/-- **Making a file links it into the forest.** -/
theorem Created.linked (hs : Sound fs) (hd : fs.Live d) :
    fs.forest.Linked fs'.forest d (fileName path) i where
  parent_live := hd
  fresh := h.not_live
  label := by
    intro hmem
    obtain ⟨⟨n, c⟩, hc, rfl⟩ := List.mem_map.mp hmem
    have hlook := (hs.forest.lookup_eq_some hd).mpr hc
    rw [FileSystem.forest_children, h.lookup_eq_none hs hd] at hlook
    cases hlook
  live := h.live_iff
  children := fun hv hne ↦ h.children_eq hs hd hv hne
  parent := h.children_parent hs hd
  childless := h.children_self hd

/-- The block of a new file was free. -/
theorem Created.block_free (hsp : fileType ≠ fileTypeSpecial) :
    WordArray.bit fs.globalDbmap b = false := by
  have hdb := h.dbmap
  rw [if_neg hsp] at hdb
  exact hdb.free

/-- Blocks that are marked stay marked. -/
theorem Created.bit_dbmap {m : Nat} (hm : WordArray.bit fs.globalDbmap m = true) :
    WordArray.bit fs'.globalDbmap m = true := by
  have hdb := h.dbmap
  split at hdb
  · rw [hdb.2]
    exact hm
  · rw [hdb.bits m]
    split
    · rfl
    · exact hm

theorem Created.isSpecial_self (hd : fs.Live d) :
    fs'.IsSpecial i ↔ fileType = fileTypeSpecial := by
  rw [FileSystem.IsSpecial, h.inode_self hd, madeInode]

theorem Created.dataBlockStart_self (hd : fs.Live d) :
    (fs'.inode i).dataBlockStart = b := by
  rw [h.inode_self hd, madeInode]

/-- Blocks of files that are not special stay apart. -/
theorem Created.block_inj (hs : Sound fs) (hd : fs.Live d) {j l : Nat} (hj : fs'.Live j)
    (hl : fs'.Live l) (hsj : ¬ fs'.IsSpecial j) (hsl : ¬ fs'.IsSpecial l)
    (heq : (fs'.inode j).dataBlockStart = (fs'.inode l).dataBlockStart) : j = l := by
  -- the block of the new file was free, and those of the others are marked
  have hnew : ∀ {j}, fs.Live j → ¬ fs.IsSpecial j → ¬ fs'.IsSpecial i →
      (fs.inode j).dataBlockStart ≠ b := by
    rintro j hj hsj hsi rfl
    have hfree := h.block_free (mt (h.isSpecial_self hd).mpr hsi)
    rw [hs.block_marked hj hsj] at hfree
    cases hfree
  rcases (h.live_iff j).mp hj with rfl | hj
  · rcases (h.live_iff l).mp hl with rfl | hl
    · rfl
    · rw [h.dataBlockStart_self hd, h.dataBlockStart_eq hd hl] at heq
      exact absurd heq.symm (hnew hl (mt (h.isSpecial_iff hd hl).mpr hsl) hsj)
  · have hsj := mt (h.isSpecial_iff hd hj).mpr hsj
    rcases (h.live_iff l).mp hl with rfl | hl
    · rw [h.dataBlockStart_self hd, h.dataBlockStart_eq hd hj] at heq
      exact absurd heq (hnew hj hsj hsl)
    · rw [h.dataBlockStart_eq hd hj, h.dataBlockStart_eq hd hl] at heq
      exact hs.block_inj hj hl hsj (mt (h.isSpecial_iff hd hl).mpr hsl) heq

/-- **Making a file keeps the file system sound.** -/
theorem Created.sound (hs : Sound fs) (hd : fs.Live d) : Sound fs' where
  lt := by
    intro j hj
    rcases (h.live_iff j).mp hj with rfl | hj
    · exact h.lt
    · exact hs.lt hj
  root_dir := (h.isDir_iff hd hs.root_live).mpr hs.root_dir
  special_block := by
    intro j hj hsp
    rcases (h.live_iff j).mp hj with rfl | hj
    · have hdb := h.dbmap
      rw [if_pos ((h.isSpecial_self hd).mp hsp)] at hdb
      rw [h.dataBlockStart_self hd, hdb.1]
    · rw [h.dataBlockStart_eq hd hj]
      exact hs.special_block hj ((h.isSpecial_iff hd hj).mp hsp)
  block_marked := by
    intro j hj hsp
    rcases (h.live_iff j).mp hj with rfl | hj
    · have hdb := h.dbmap
      rw [if_neg (mt (h.isSpecial_self hd).mpr hsp)] at hdb
      rw [h.dataBlockStart_self hd, hdb.bits b, if_pos rfl]
    · rw [h.dataBlockStart_eq hd hj]
      exact h.bit_dbmap (hs.block_marked hj (mt (h.isSpecial_iff hd hj).mpr hsp))
  last_free := by
    have hdb := h.dbmap
    split at hdb
    · rw [hdb.2]
      exact hs.last_free
    · have hb := hdb.lt
      rw [hdb.bits, if_neg (by omega)]
      exact hs.last_free
  block_inj := fun hj hl ↦ h.block_inj hs hd hj hl
  size := by
    intro j hj hdir
    rcases (h.live_iff j).mp hj with rfl | hj
    · rw [h.files_self hd, h.inode_self hd]
      rfl
    · by_cases hjd : j = d
      · subst hjd
        rw [h.size_parent hs hj, h.files_parent hs hj]
      · have hdir := (h.isDir_iff hd hj).mp hdir
        obtain ⟨n, hn, hsize⟩ := h.inode_live hd hj
        rw [h.files_eq hd hj hjd, ← hs.size hj hdir, hn, hsize hjd]
  files_le := by
    intro j hj hdir
    rcases (h.live_iff j).mp hj with rfl | hj
    · rw [h.files_self hd]
      exact Nat.zero_le _
    · by_cases hjd : j = d
      · subst hjd
        rw [h.files_parent hs hj]
        exact h.files_lt hj
      · rw [h.files_eq hd hj hjd]
        exact hs.files_le hj ((h.isDir_iff hd hj).mp hdir)
  names := by
    intro j hj hdir
    rcases (h.live_iff j).mp hj with rfl | hj
    · rw [h.files_self hd]
      exact fun file hfile ↦ absurd hfile (Nat.not_lt_zero file)
    · have hdir := (h.isDir_iff hd hj).mp hdir
      by_cases hjd : j = d
      · subst hjd
        rw [h.files_parent hs hj, h.block_parent hj]
        exact namesTerminated_linkEntry i h.name_lt (hs.names hj hdir)
      · rw [h.files_eq hd hj hjd, h.block_eq hs hd hj hdir.not_isSpecial hjd]
        exact hs.names hj hdir
  forest := (h.linked hs hd).wellFormed hs.forest

theorem Created.metadataOwned (hm : MetadataOwned fs) (hs : Sound fs) (hd : fs.Live d) :
    MetadataOwned fs' where
  dataStart := h.dataStart.trans hm.dataStart
  marked := fun m hle ↦ h.bit_dbmap (hm.marked m hle)
  root_block := by
    rw [h.dataBlockStart_eq hd hs.root_live]
    exact hm.root_block
  block_ge := by
    intro j hj hsp
    rcases (h.live_iff j).mp hj with rfl | hj
    · rw [h.dataBlockStart_self hd]
      by_contra hlt
      have hfree := h.block_free (mt (h.isSpecial_self hd).mpr hsp)
      rw [hm.marked b (Nat.le_of_not_le hlt)] at hfree
      cases hfree
    · rw [h.dataBlockStart_eq hd hj]
      exact hm.block_ge hj (mt (h.isSpecial_iff hd hj).mpr hsp)

end

/-! ## Removing a file -/

/-- No live file has the block of the inode `e`, if `e` is special: then this is the
place-holder 0. -/
def SafeTarget (fs : FileSystem) (e : Nat) : Prop :=
  fs.IsSpecial e → ∀ i < inodeCount, fs.Live i → ¬ fs.IsSpecial i →
    (fs.inode i).dataBlockStart ≠ (fs.inode e).dataBlockStart

instance (fs : FileSystem) (e : Nat) : Decidable (SafeTarget fs e) :=
  inferInstanceAs (Decidable (_ → _))

theorem safeTarget_of_not_isSpecial (h : ¬ fs.IsSpecial e) : SafeTarget fs e :=
  fun hsp ↦ absurd hsp h

/-- The inode that a path names, by the entries of directories. -/
def FileSystem.target (fs : FileSystem) (path : CString) : Option Nat :=
  (fs.forest.resolve (dirNames path) 0).bind fun d ↦ (fs.children d).lookup (fileName path)

/-- A path names what all its names together lead to. -/
theorem FileSystem.target_eq_resolve (fs : FileSystem) (path : CString) :
    fs.target path = fs.forest.resolve (dirNames path ++ [fileName path]) 0 :=
  (Forest.resolve_concat fs.forest _ _ _).symm

/-- What `seek_directory` and `search_dir` find is what the path names. -/
theorem Sound.target_of_search (hs : Sound fs) (hsafe : fs.SafePath path)
    (hseek : seekDirectory fs (parsePath path).1.chars = .ok (d : Int)) {r : Int}
    (hsearch : searchDir fs d (fileName path) = .ok r) (hr : r ≠ -1) :
    fs.target path = some (toUint32 r) ∧ fs.Live (toUint32 r) := by
  obtain ⟨-, hlead⟩ := hs.leads hsafe hseek
  have hlook := hs.lookup_of_search hlead.live hlead.dir (zero_notMem_fileName path) hsearch hr
  rw [FileSystem.target, hlead.resolve]
  exact ⟨hlook, hs.live_of_lookup hlead.live hlook⟩

section

variable (h : Removed fs fs' path past d e)

include h

theorem Removed.live_iff (j : Nat) : fs'.Live j ↔ j ≠ e ∧ fs.Live j := by
  rw [FileSystem.Live, h.ibmap j]
  split
  · simp_all
  · simp_all [FileSystem.Live]

theorem Removed.isDir_iff (j : Nat) : fs'.IsDir j ↔ fs.IsDir j := by
  obtain ⟨n, -, hn⟩ := h.entry.inode j
  rw [FileSystem.IsDir, hn, FileSystem.IsDir]

theorem Removed.isSpecial_iff (j : Nat) : fs'.IsSpecial j ↔ fs.IsSpecial j := by
  obtain ⟨n, -, hn⟩ := h.entry.inode j
  rw [FileSystem.IsSpecial, hn, FileSystem.IsSpecial]

theorem Removed.dataBlockStart_eq (j : Nat) :
    (fs'.inode j).dataBlockStart = (fs.inode j).dataBlockStart := by
  obtain ⟨n, -, hn⟩ := h.entry.inode j
  rw [hn]

/-- The name is a child's, and this child is the inode that goes. -/
theorem Removed.lookup_eq_some (hs : Sound fs) (hd : fs.Live d) :
    (fs.children d).lookup (fileName path) = some e := by
  obtain ⟨r, hsearch, hr, rfl⟩ := h.search
  exact hs.lookup_of_search hd h.parent_dir (zero_notMem_fileName path) hsearch hr

/-- What goes is what the path names. -/
theorem Removed.target_eq (hs : Sound fs) (hsafe : fs.SafePath path) :
    fs.target path = some e := by
  obtain ⟨r, hsearch, hr, rfl⟩ := h.search
  exact (hs.target_of_search hsafe h.seek hsearch hr).1

theorem Removed.target_live (hs : Sound fs) (hd : fs.Live d) : fs.Live e :=
  hs.live_of_lookup hd (h.lookup_eq_some hs hd)

/-- The entry that goes, the move of the entries behind it, and what the directory is
then.  The search by inode number finds the entry of the name, because no other entry
has this number. -/
theorem Removed.entry_eq (hs : Sound fs) (hd : fs.Live d) : ∃ entry buf,
    (fs.children d)[entry]? = some (fileName path, e) ∧ entry < fs.files d ∧
      moveEntries past (fs.files d - entry) entry (fs.block d) = .ok buf ∧
      (∀ j, fs'.inode j =
        if j = d then { fs.inode d with size := (fs.inode d).size - entryBytes }
        else fs.inode j) ∧
      fs'.disk = ataWriteBlock fs.disk (fs.inode d).dataBlockStart buf := by
  have hlook := h.lookup_eq_some hs hd
  obtain ⟨k, hk⟩ := Forest.getElem?_of_lookup hlook
  rw [FileSystem.children_of_isDir h.parent_dir] at hk
  cases h.entry with
  | absent hnone _ _ =>
      rw [List.findIdx?_eq_none_iff] at hnone
      have := hnone _ (List.mem_of_getElem? hk)
      simp at this
  | @removed entry buf hsome hmove hinode hdisk =>
      obtain ⟨hlt, hentry, -⟩ := List.findIdx?_eq_some_iff_getElem.mp hsome
      have hnum : ((fs.entries d)[entry]).2 = e := by simpa using hentry
      obtain ⟨n, hget⟩ : ∃ n, (fs.entries d)[entry]? = some (n, e) := by
        refine ⟨((fs.entries d)[entry]).1, ?_⟩
        rw [List.getElem?_eq_getElem hlt, ← hnum]
      rw [← FileSystem.children_of_isDir h.parent_dir] at hk hget
      obtain ⟨-, rfl⟩ := hs.forest.once hd hd hk hget
      refine ⟨k, buf, hk, ?_, hmove, hinode, hdisk⟩
      rw [FileSystem.entries, length_entriesOf] at hlt
      exact hlt

theorem Removed.ne_root (hs : Sound fs) (hd : fs.Live d) : e ≠ 0 := by
  obtain ⟨entry, buf, hget, -⟩ := h.entry_eq hs hd
  exact hs.forest.child_ne_root hd hget

theorem Removed.inode_of_ne (hs : Sound fs) (hd : fs.Live d) {j : Nat} (hjd : j ≠ d) :
    fs'.inode j = fs.inode j := by
  obtain ⟨entry, buf, -, -, -, hinode, -⟩ := h.entry_eq hs hd
  rw [hinode j, if_neg hjd]

theorem Removed.block_eq (hs : Sound fs) (hd : fs.Live d) {j : Nat} (hj : fs.Live j)
    (hsp : ¬ fs.IsSpecial j) (hjd : j ≠ d) : fs'.block j = fs.block j := by
  obtain ⟨entry, buf, -, -, -, -, hdisk⟩ := h.entry_eq hs hd
  rw [FileSystem.block, h.dataBlockStart_eq, hdisk, read_write_block_of_ne, FileSystem.block]
  exact hs.blockAddress_ne hj hd hsp h.parent_dir.not_isSpecial hjd

theorem Removed.files_eq (hs : Sound fs) (hd : fs.Live d) {j : Nat} (hjd : j ≠ d) :
    fs'.files j = fs.files j := by
  rw [FileSystem.files, h.inode_of_ne hs hd hjd, FileSystem.files]

theorem Removed.children_eq (hs : Sound fs) (hd : fs.Live d) {j : Nat} (hj : fs.Live j)
    (hjd : j ≠ d) : fs'.children j = fs.children j := by
  by_cases hdir : fs.IsDir j
  · rw [FileSystem.children_of_isDir hdir,
      FileSystem.children_of_isDir ((h.isDir_iff j).mpr hdir), FileSystem.entries,
      h.files_eq hs hd hjd, h.block_eq hs hd hj hdir.not_isSpecial hjd, FileSystem.entries]
  · rw [FileSystem.children_of_not_isDir hdir,
      FileSystem.children_of_not_isDir (mt (h.isDir_iff j).mp hdir)]

/-- The directory after an entry is gone: one file less, the names still terminated, the
other entries the same. -/
theorem Removed.parent_eq (hs : Sound fs) (hd : fs.Live d) : ∃ entry,
    (fs.children d)[entry]? = some (fileName path, e) ∧
      (fs'.inode d).size = entryBytes * fs'.files d ∧ fs'.files d ≤ dirFileCountMax ∧
      NamesTerminated (fs'.block d) (fs'.files d) ∧
      fs'.children d = (fs.children d).eraseIdx entry := by
  obtain ⟨entry, buf, hget, hlt, hmove, hinode, hdisk⟩ := h.entry_eq hs hd
  have hmax := hs.files_le hd h.parent_dir
  have hsize : (fs'.inode d).size = entryBytes * (fs.files d - 1) := by
    rw [hinode d, if_pos rfl]
    change (fs.inode d).size - entryBytes = entryBytes * (fs.files d - 1)
    rw [hs.size hd h.parent_dir, Nat.mul_sub_one]
  have hfiles : fs'.files d = fs.files d - 1 := by
    rw [FileSystem.files, hsize]
    exact Nat.mul_div_cancel_left _ (by decide)
  have hblock : fs'.block d = buf := by
    rw [FileSystem.block, h.dataBlockStart_eq, hdisk, read_write_block]
  refine ⟨entry, hget, by rw [hsize, hfiles], by omega, ?_, ?_⟩
  · rw [hblock, hfiles]
    exact namesTerminated_moveEntries hmax hmove (hs.names hd h.parent_dir)
  · rw [FileSystem.children_of_isDir h.parent_dir,
      FileSystem.children_of_isDir ((h.isDir_iff d).mpr h.parent_dir), FileSystem.entries,
      hblock, hfiles]
    exact entriesOf_moveEntries hmax hlt hmove

/-- **Removing a file cuts it off the forest.** -/
theorem Removed.unlinked (hs : Sound fs) (hd : fs.Live d) :
    ∃ entry, fs.forest.Unlinked fs'.forest d entry (fileName path) e := by
  obtain ⟨entry, hget, -, -, -, hchildren⟩ := h.parent_eq hs hd
  exact ⟨entry, hd, hget, h.live_iff,
    fun hv hne ↦ h.children_eq hs hd ((h.live_iff _).mp hv).2 hne, fun _ ↦ hchildren⟩

/-- The bit of the file's block is cleared, and no other. -/
theorem Removed.bit_dbmap (hs : Sound fs) (hd : fs.Live d) (m : Nat) :
    WordArray.bit fs'.globalDbmap m =
      if m = (fs.inode e).dataBlockStart then false else WordArray.bit fs.globalDbmap m :=
  deallocBitrange_single (hs.block_lt (h.target_live hs hd)) h.dbmap m

/-- No other file has the block that becomes free. -/
theorem Removed.block_ne (hs : Sound fs) (hd : fs.Live d) (hsafe : SafeTarget fs e) {j : Nat}
    (hj : fs.Live j) (hje : j ≠ e) (hsp : ¬ fs.IsSpecial j) :
    (fs.inode j).dataBlockStart ≠ (fs.inode e).dataBlockStart := by
  by_cases hspe : fs.IsSpecial e
  · exact hsafe hspe j (hs.lt hj) hj hsp
  · exact fun heq ↦ hje (hs.block_inj hj (h.target_live hs hd) hsp hspe heq)

/-- **Removing a file keeps the file system sound.** -/
theorem Removed.sound (hs : Sound fs) (hd : fs.Live d) (hsafe : SafeTarget fs e) :
    Sound fs' where
  lt := fun hj ↦ hs.lt ((h.live_iff _).mp hj).2
  root_dir := (h.isDir_iff 0).mpr hs.root_dir
  special_block := by
    intro j hj hsp
    rw [h.dataBlockStart_eq]
    exact hs.special_block ((h.live_iff j).mp hj).2 ((h.isSpecial_iff j).mp hsp)
  block_marked := by
    intro j hj hsp
    obtain ⟨hje, hj⟩ := (h.live_iff j).mp hj
    have hsp := mt (h.isSpecial_iff j).mpr hsp
    rw [h.dataBlockStart_eq, h.bit_dbmap hs hd, if_neg (h.block_ne hs hd hsafe hj hje hsp)]
    exact hs.block_marked hj hsp
  last_free := by
    rw [h.bit_dbmap hs hd]
    split
    · rfl
    · exact hs.last_free
  block_inj := by
    intro j l hj hl hsj hsl heq
    rw [h.dataBlockStart_eq, h.dataBlockStart_eq] at heq
    exact hs.block_inj ((h.live_iff j).mp hj).2 ((h.live_iff l).mp hl).2
      (mt (h.isSpecial_iff j).mpr hsj) (mt (h.isSpecial_iff l).mpr hsl) heq
  size := by
    intro j hj hdir
    by_cases hjd : j = d
    · subst hjd
      obtain ⟨entry, -, hsize, -⟩ := h.parent_eq hs hd
      exact hsize
    · rw [h.files_eq hs hd hjd, h.inode_of_ne hs hd hjd]
      exact hs.size ((h.live_iff j).mp hj).2 ((h.isDir_iff j).mp hdir)
  files_le := by
    intro j hj hdir
    by_cases hjd : j = d
    · subst hjd
      obtain ⟨entry, -, -, hle, -⟩ := h.parent_eq hs hd
      exact hle
    · rw [h.files_eq hs hd hjd]
      exact hs.files_le ((h.live_iff j).mp hj).2 ((h.isDir_iff j).mp hdir)
  names := by
    intro j hj hdir
    by_cases hjd : j = d
    · subst hjd
      obtain ⟨entry, -, -, -, hnames, -⟩ := h.parent_eq hs hd
      exact hnames
    · have hj := ((h.live_iff j).mp hj).2
      have hdir := (h.isDir_iff j).mp hdir
      rw [h.files_eq hs hd hjd, h.block_eq hs hd hj hdir.not_isSpecial hjd]
      exact hs.names hj hdir
  forest := by
    obtain ⟨entry, hun⟩ := h.unlinked hs hd
    exact hun.wellFormed hs.forest

/-- Removing a file that is not special frees none of the metadata. -/
theorem Removed.metadataOwned (hm : MetadataOwned fs) (hs : Sound fs) (hd : fs.Live d)
    (hsp : ¬ fs.IsSpecial e) : MetadataOwned fs' where
  dataStart := h.dataStart.trans hm.dataStart
  marked := by
    intro m hle
    have he := h.target_live hs hd
    have hne : m ≠ (fs.inode e).dataBlockStart := by
      rintro rfl
      -- only the root has the root's block
      have heq := le_antisymm hle (hm.block_ge he hsp)
      rw [← hm.root_block] at heq
      exact h.ne_root hs hd
        (hs.block_inj he hs.root_live hsp hs.root_dir.not_isSpecial heq)
    rw [h.bit_dbmap hs hd, if_neg hne]
    exact hm.marked m hle
  root_block := by
    rw [h.dataBlockStart_eq]
    exact hm.root_block
  block_ge := by
    intro j hj hspj
    rw [h.dataBlockStart_eq]
    exact hm.block_ge ((h.live_iff j).mp hj).2 (mt (h.isSpecial_iff j).mpr hspj)

end

/-! ## Writing -/

/-- A `write` through the descriptor `fd` goes to a handler, or it accepts nothing, or
neither its inode nor the block of this is a live directory's. -/
def SafeWrite (fs : FileSystem) (fd count : Nat) : Prop :=
  let i := (fs.globalFdTable.entry fd).inodeNum
  fs.IsSpecial i ∨ (count = 0 ∨ blockBytes ≤ (fs.globalFdTable.entry fd).writePos) ∨
    ∀ d < inodeCount, fs.Live d → fs.IsDir d →
      d ≠ i ∧ blockAddress (fs.inode d).dataBlockStart ≠
        blockAddress (fs.inode i).dataBlockStart

instance (fs : FileSystem) (fd count : Nat) : Decidable (SafeWrite fs fd count) :=
  inferInstanceAs (Decidable (_ ∨ _))

/-- A write to a live file that is not a directory is safe. -/
theorem safeWrite_of_live (hs : Sound fs) {i : Nat}
    (hi : (fs.globalFdTable.entry fd).inodeNum = i) (hlive : fs.Live i)
    (hdir : ¬ fs.IsDir i) : SafeWrite fs fd count := by
  rw [SafeWrite, hi]
  by_cases hsp : fs.IsSpecial i
  · exact .inl hsp
  · refine .inr (.inr fun d _ hd hdird ↦ ?_)
    have hne : d ≠ i := by
      rintro rfl
      exact hdir hdird
    exact ⟨hne, hs.blockAddress_ne hd hlive hdird.not_isSpecial hsp hne⟩

/-- A loop that accepts nothing changes nothing. -/
theorem writeLoop_of_full {buf : Bytes} {n : Nat} {s : WriteState}
    (h : n = 0 ∨ blockBytes ≤ s.writePos) : writeLoop buf n s = s := by
  cases n with
  | zero => rfl
  | succ n => exact if_neg (Nat.not_lt.mpr (h.resolve_left (Nat.succ_ne_zero n)))

section

variable {buf : Bytes} (h : Wrote fs fs' fd i buf count)

include h

/-- Writing changes the size of one inode. -/
theorem Wrote.inode_eq (j : Nat) : ∃ n, fs'.inode j = { fs.inode j with size := n } ∧
    (j ≠ i → n = (fs.inode j).size) := by
  rw [h.inode j]
  split
  · rename_i hj
    subst hj
    exact ⟨_, rfl, fun hne ↦ absurd rfl hne⟩
  · exact ⟨_, rfl, fun _ ↦ rfl⟩

/-- Writing to a file leaves every directory alone. -/
theorem Wrote.sameTree (hs : Sound fs) (hsafe : SafeWrite fs fd count) : SameTree fs fs' := by
  have htype : ∀ j, (fs'.inode j).fileType = (fs.inode j).fileType := by
    intro j
    obtain ⟨n, hn, -⟩ := h.inode_eq j
    rw [hn]
  have hblockStart : ∀ j, (fs'.inode j).dataBlockStart = (fs.inode j).dataBlockStart := by
    intro j
    obtain ⟨n, hn, -⟩ := h.inode_eq j
    rw [hn]
  rcases hsafe with hspecial | hfull | happart
  · rw [h.inodeNum] at hspecial
    exact absurd hspecial h.not_special
  · -- nothing is accepted, and the block is written back
    have hres : fs.writeResult fd buf count =
        { writePos := (fs.globalFdTable.entry fd).writePos, bytesWritten := 0,
          size := (fs.inode i).size, dataBlockBuf := fs.block i } := by
      rw [← h.inodeNum]
      exact writeLoop_of_full hfull
    have hinode : ∀ j, fs'.inode j = fs.inode j := by
      intro j
      rw [h.inode j, hres]
      split
      · rename_i hj
        rw [hj]
      · rfl
    have hdisk : fs'.disk = fs.disk := by
      rw [h.disk, hres]
      exact write_read_block _ _
    refine ⟨h.dataStart, h.ibmap, h.dbmap, htype, hblockStart, fun _ _ ↦ by rw [hinode],
      fun _ _ ↦ ?_⟩
    rw [FileSystem.block, hdisk, hblockStart, FileSystem.block]
  · rw [h.inodeNum] at happart
    refine ⟨h.dataStart, h.ibmap, h.dbmap, htype, hblockStart, fun {j} hj hdir ↦ ?_,
      fun {j} hj hdir ↦ ?_⟩
    · obtain ⟨hne, -⟩ := happart j (hs.lt hj) hj hdir
      obtain ⟨n, hn, hsize⟩ := h.inode_eq j
      rw [hn, hsize hne]
    · obtain ⟨-, hne⟩ := happart j (hs.lt hj) hj hdir
      rw [FileSystem.block, h.disk, hblockStart, read_write_block_of_ne _ _ hne,
        FileSystem.block]

end

/-! ## Calls as data -/

/-- The inode that a call removes. -/
def FsCall.removes (fs : FileSystem) : FsCall → Option Nat
  | .unlink path _ => fs.target path
  | _ => none

/-- A call that reads the entries of directories only, writes over none of them, and
frees the block of no live file. -/
def KeepsTree (fs : FileSystem) : FsCall → Prop
  | .createFiletype path _ _ _ => fs.SafePath path
  | .write fd _ count => SafeWrite fs fd.toNat count
  | .unlink path _ => fs.SafePath path ∧ ∀ e ∈ fs.target path, SafeTarget fs e
  | _ => True

instance (fs : FileSystem) : ∀ c, Decidable (KeepsTree fs c)
  | .createFiletype path _ _ _ => inferInstanceAs (Decidable (fs.SafePath path))
  | .openFile _ => inferInstanceAs (Decidable True)
  | .close _ => inferInstanceAs (Decidable True)
  | .read _ _ _ => inferInstanceAs (Decidable True)
  | .write fd _ count => inferInstanceAs (Decidable (SafeWrite fs fd.toNat count))
  | .seek _ _ _ => inferInstanceAs (Decidable True)
  | .unlink _ _ => inferInstanceAs (Decidable (_ ∧ ∀ e ∈ _, SafeTarget fs e))

/-- What a call that keeps the tree does to the forest and the tables, with the
directory a file is made in or removed from being live. -/
inductive TreeEffect (fs fs' : FileSystem) : FsCall → Prop
  | same {c : FsCall} : SameTree fs fs' → TreeEffect fs fs' c
  | created {path : CString} {fileType : UInt8} {allocateFd : Bool} {past : Bytes}
      {d i b : Nat} : Created fs fs' path fileType d i b → fs.Live d →
      TreeEffect fs fs' (.createFiletype path fileType allocateFd past)
  | removed {path : CString} {past : Bytes} {d e : Nat} :
      Removed fs fs' path past d e → fs.Live d → fs.target path = some e →
      SafeTarget fs e → TreeEffect fs fs' (.unlink path past)

theorem Effect.treeEffect {c : FsCall} (he : Effect fs fs' c) (hs : Sound fs)
    (hc : KeepsTree fs c) : TreeEffect fs fs' c := by
  cases he with
  | moved ht _ =>
      rw [ht]
      exact .same (.of_table fs _)
  | created h _ => exact .created h (hs.leads hc h.seek).2.live
  | opened ht _ _ _ _ =>
      rw [ht]
      exact .same (.of_table fs _)
  | closed ht _ =>
      rw [ht]
      exact .same (.of_table fs _)
  | wrote h => exact .same (h.sameTree hs hc)
  | removed h =>
      have htarget := h.target_eq hs hc.1
      exact .removed h (hs.leads hc.1 h.seek).2.live htarget (hc.2 _ htarget)

/-- **A call that keeps the tree keeps the file system sound.** -/
theorem TreeEffect.sound {c : FsCall} (h : TreeEffect fs fs' c) (hs : Sound fs) :
    Sound fs' := by
  cases h with
  | same h => exact h.sound hs
  | created h hd => exact h.sound hs hd
  | removed h hd _ hsafe => exact h.sound hs hd hsafe

end Yorha.Fs
