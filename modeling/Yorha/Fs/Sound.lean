import Yorha.Fs.Calls
import Yorha.Fs.Entries

/-!
# Sound file systems

Seen from outside, the directories are a forest: its nodes are inode numbers, the live
ones are those marked in `global_ibmap`, and the children of a directory are its
entries.  `Sound` says that this forest is well formed and that the tables agree with
it: every live inode has its slot in the table, every live directory and normal file
has a marked block of its own, and every live directory fits into its block.
`MetadataOwned` says which blocks these are: none of the metadata.

In a sound file system `search_dir` looks up a child, and `seek_directory` follows the
names of a path, as long as it reads directories only.  It does not look at the type of
an inode on the way: when a path goes through a normal file, the code takes the file's
bytes for entries.  `SafePath` says that this does not happen.
-/

namespace Yorha.Fs

open Yorha.Lib Yorha.Str Yorha.Util

/-! ## The forest of a file system -/

namespace FileSystem

variable (fs : FileSystem)

/-- The number of entries of a directory. -/
def files (i : Nat) : Nat := (fs.inode i).size / entryBytes

/-- What the block of an inode says, read as that of a directory. -/
def entries (i : Nat) : List (Name × Nat) := entriesOf (fs.block i) (fs.files i)

/-- The entries of a directory; nothing for other inodes. -/
def children (i : Nat) : List (Name × Nat) := if fs.IsDir i then fs.entries i else []

/-- The live inodes with the children of the directories. -/
def forest : Forest Nat Name := ⟨fs.Live, fs.children⟩

@[simp] theorem forest_live (i : Nat) : fs.forest.live i ↔ fs.Live i := Iff.rfl

@[simp] theorem forest_children (i : Nat) : fs.forest.children i = fs.children i := rfl

theorem children_of_isDir {fs : FileSystem} {i : Nat} (h : fs.IsDir i) :
    fs.children i = fs.entries i := if_pos h

theorem children_of_not_isDir {fs : FileSystem} {i : Nat} (h : ¬ fs.IsDir i) :
    fs.children i = [] := if_neg h

/-- Only directories have children. -/
theorem isDir_of_child {fs : FileSystem} {i k : Nat} {p : Name × Nat}
    (h : (fs.children i)[k]? = some p) : fs.IsDir i := by
  by_contra hno
  rw [children_of_not_isDir hno] at h
  cases h

theorem isDir_of_lookup {fs : FileSystem} {i e : Nat} {name : Name}
    (h : (fs.children i).lookup name = some e) : fs.IsDir i :=
  have ⟨_, hk⟩ := Forest.getElem?_of_lookup h
  isDir_of_child hk

theorem entries_of_files_eq_zero {fs : FileSystem} {i : Nat} (h : fs.files i = 0) :
    fs.entries i = [] := by
  rw [entries, h]
  rfl

end FileSystem

/-- The tables of the file system agree, and the directories form a forest. -/
structure Sound (fs : FileSystem) : Prop where
  lt : ∀ {i}, fs.Live i → i < inodeCount
  root_dir : fs.IsDir 0
  special_block : ∀ {i}, fs.Live i → fs.IsSpecial i → (fs.inode i).dataBlockStart = 0
  block_marked : ∀ {i}, fs.Live i → ¬ fs.IsSpecial i →
    WordArray.bit fs.globalDbmap (fs.inode i).dataBlockStart = true
  last_free : WordArray.bit fs.globalDbmap (32 * bitmapWords - 1) = false
  block_inj : ∀ {i j}, fs.Live i → fs.Live j → ¬ fs.IsSpecial i → ¬ fs.IsSpecial j →
    (fs.inode i).dataBlockStart = (fs.inode j).dataBlockStart → i = j
  size : ∀ {d}, fs.Live d → fs.IsDir d → (fs.inode d).size = entryBytes * fs.files d
  files_le : ∀ {d}, fs.Live d → fs.IsDir d → fs.files d ≤ dirFileCountMax
  names : ∀ {d}, fs.Live d → fs.IsDir d → NamesTerminated (fs.block d) (fs.files d)
  forest : fs.forest.WellFormed 0

/-- The metadata and the root's block are marked, and no file's block lies before it. -/
structure MetadataOwned (fs : FileSystem) : Prop where
  dataStart : fs.globalSuper.dataStart = dataRegionStart
  marked : ∀ b ≤ dataRegionStart, WordArray.bit fs.globalDbmap b = true
  root_block : (fs.inode 0).dataBlockStart = dataRegionStart
  block_ge : ∀ {i}, fs.Live i → ¬ fs.IsSpecial i →
    dataRegionStart ≤ (fs.inode i).dataBlockStart

/-- A directory is not a special file. -/
theorem FileSystem.IsDir.not_isSpecial {fs : FileSystem} {i : Nat} (h : fs.IsDir i) :
    ¬ fs.IsSpecial i := by
  intro hs
  rw [FileSystem.IsSpecial, h] at hs
  exact absurd hs (by decide)

/-- A marked block is one of the bitmap's. -/
theorem lt_of_bit {bitmap : Vector Word bitmapWords} {b : Nat}
    (h : WordArray.bit bitmap b = true) : b < 32 * bitmapWords := by
  by_contra hge
  rw [bit_vector_of_ge bitmap (Nat.le_of_not_lt hge)] at h
  cases h

section

variable {fs : FileSystem} {d e i j : Nat} {name : Name}

theorem Sound.root_live (h : Sound fs) : fs.Live 0 := h.forest.root_live

theorem Sound.block_lt (h : Sound fs) (hi : fs.Live i) :
    (fs.inode i).dataBlockStart < 32 * bitmapWords := by
  by_cases hs : fs.IsSpecial i
  · rw [h.special_block hi hs]
    decide
  · exact lt_of_bit (h.block_marked hi hs)

/-- The blocks of two live files are apart on the disk too. -/
theorem Sound.blockAddress_ne (h : Sound fs) (hi : fs.Live i) (hj : fs.Live j)
    (hsi : ¬ fs.IsSpecial i) (hsj : ¬ fs.IsSpecial j) (hne : i ≠ j) :
    blockAddress (fs.inode i).dataBlockStart ≠ blockAddress (fs.inode j).dataBlockStart := by
  intro heq
  rw [blockAddress_of_lt (lt_trans (h.block_lt hi) (by decide)),
    blockAddress_of_lt (lt_trans (h.block_lt hj) (by decide))] at heq
  exact hne (h.block_inj hi hj hsi hsj heq)

/-- What a live directory's entry leads to is live. -/
theorem Sound.live_of_lookup (h : Sound fs) (hd : fs.Live d)
    (he : (fs.children d).lookup name = some e) : fs.Live e := by
  obtain ⟨k, hk⟩ := Forest.getElem?_of_lookup he
  exact h.forest.child_live hd hk

/-! ## `search_dir` -/

/-- The number that `search_dir` returns for what a lookup found. -/
def found : Option Nat → Int
  | some e => e
  | none => -1

theorem found_eq_neg_one {o : Option Nat} : found o = -1 ↔ o = none := by
  cases o with
  | none => exact ⟨fun _ ↦ rfl, fun _ ↦ rfl⟩
  | some e => simp [found]

/-- **In a live directory, `search_dir` looks the name up.** -/
theorem Sound.searchDir_eq (h : Sound fs) (hd : fs.Live d) (hdir : fs.IsDir d)
    (hname : 0 ∉ name) : searchDir fs d name = .ok (found ((fs.children d).lookup name)) := by
  have hread : fs.readInode d = .ok (fs.inode d) :=
    FileSystem.readInode_eq_ok.mpr ⟨h.lt hd, rfl⟩
  have hscan := scanEntries_eq hname (h.files_le hd hdir) (h.names hd hdir)
  have hlive : ∀ e, (fs.children d).lookup name = some e → fs.Live e :=
    fun e ↦ h.live_of_lookup hd
  rw [FileSystem.children_of_isDir hdir] at hlive ⊢
  change scanEntries _ name _ 0 = .ok ((fs.entries d).lookup name) at hscan
  simp only [searchDir, hread, ok_bind]
  rw [if_pos (show (fs.inode d).fileType = fileTypeDir from hdir)]
  change (scanEntries (fs.block d) name (fs.files d) 0 >>= _) = _
  rw [hscan, ok_bind]
  cases hl : (fs.entries d).lookup name with
  | none => rfl
  | some e =>
      have he : e < 2 ^ 31 := lt_trans (h.lt (hlive e hl)) (by decide)
      exact congrArg Except.ok (toInt32_of_lt he)

/-- `search_dir` finds a child. -/
theorem Sound.searchDir_of_lookup {e : Nat} (h : Sound fs) (hd : fs.Live d) (hname : 0 ∉ name)
    (he : (fs.children d).lookup name = some e) : searchDir fs d name = .ok (e : Int) := by
  rw [h.searchDir_eq hd (FileSystem.isDir_of_lookup he) hname, he]
  rfl

/-- What `search_dir` found is a child. -/
theorem Sound.lookup_of_search (h : Sound fs) (hd : fs.Live d) (hdir : fs.IsDir d)
    (hname : 0 ∉ name) {r : Int} (hsearch : searchDir fs d name = .ok r) (hr : r ≠ -1) :
    (fs.children d).lookup name = some (toUint32 r) := by
  rw [h.searchDir_eq hd hdir hname] at hsearch
  cases hl : (fs.children d).lookup name with
  | none =>
      rw [hl] at hsearch
      exact absurd (Except.ok.inj hsearch).symm hr
  | some c =>
      rw [hl] at hsearch
      rw [← Except.ok.inj hsearch, found, toUint32_inode (h.lt (h.live_of_lookup hd hl))]

end

end Yorha.Fs
