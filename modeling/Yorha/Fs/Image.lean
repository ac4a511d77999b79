import Yorha.Fs.Mount

/-!
# Disks from elsewhere

A mount takes every number it works with from the disk: where the tables are, how large a
directory is, which inode an entry means.  Of these the code checks none.

`LookupsInside` says that looking things up and reading stays inside the tables and buffers.
It does for tables whose directories fit into a block and whose entries mean inodes that
there are (`ValidTables.lookupsInside`).  But no mount is safe, whatever is on the disk: the
blocks of the inode table are more than the table has room for (`not_mountSafe`).
-/

namespace Yorha.Fs

open Yorha.Lib Yorha.Str Yorha.Heap

variable {δ : Type} {fs : FileSystem}

/-! ## Inside the tables -/

/-- Looking up directories and files and reading stays inside the tables and buffers, as long
as no name of a path is too long for its array. -/
structure LookupsInside (k : Kernel δ) : Prop where
  seek : ∀ dirPath : CString, (∀ name ∈ components dirPath.chars.tail [], name.length < nameBytes) →
    seekDirectory k.fs dirPath.chars ≠ .error .fault
  search : ∀ (d : Nat) (name : CString), d < inodeCount →
    searchDir k.fs d name.chars ≠ .error .fault
  read : ∀ (fd : Nat) (buf : Bytes) (count : Nat), fd < descriptorCount →
    ¬ k.fs.IsSpecial (k.fs.globalFdTable.entry fd).inodeNum →
    Fs.read k fd buf count ≠ .error .fault

/-- Mounting the disk writes inside the tables, and everything that is looked up or read later
stays inside them. -/
structure MountSafe (k : Kernel δ) (diskSize : Nat) (env : Surroundings) : Prop where
  transfers : (decodeSuper (ataReadBlock k.fs.disk 0)).Recognized →
    ∀ t ∈ mountTransfers (decodeSuper (ataReadBlock k.fs.disk 0)), t.Inside
  mount : initalizeFileSystem k false diskSize env ≠ .error .fault
  later : ∀ r k₁ k₂, initalizeFileSystem k false diskSize env = .ok (r, k₁) →
    Reaches FsCall.exec (fun _ _ ↦ True) k₁ k₂ → LookupsInside k₂

/-! ## Tables that are safe to look things up in -/

/-- What every inode says about itself fits: its entries lie in its block with their names
terminated, they mean inodes that there are, and it ends inside its block; and every
descriptor is on an inode that there is. -/
structure ValidTables (fs : FileSystem) : Prop where
  files_le : ∀ i < inodeCount, fs.files i ≤ dirFileCountMax
  names : ∀ i < inodeCount, NamesTerminated (fs.block i) (fs.files i)
  entries : ∀ i < inodeCount, ∀ p ∈ fs.entries i, p.2 < inodeCount
  size_le : ∀ i < inodeCount, (fs.inode i).size ≤ blockBytes
  fds : ∀ fd < descriptorCount, (fs.globalFdTable.entry fd).inodeNum < inodeCount

/-- A loop that copies from inside the block does not leave it. -/
theorem readLoop_ne_fault (dataBlockBuf : Bytes) {size : Nat} (h : size ≤ blockBytes)
    (n readPos bytesRead : Nat) (buf : Bytes) :
    readLoop dataBlockBuf size n readPos bytesRead buf ≠ .error .fault := by
  induction n generalizing readPos bytesRead buf with
  | zero => exact ok_ne_error
  | succ n ih =>
      rw [readLoop]
      split
      · rename_i hlt
        rw [if_pos (lt_of_lt_of_le hlt h)]
        exact ih _ _ _
      · exact ok_ne_error

namespace ValidTables

variable (h : ValidTables fs)

include h

theorem scan_eq {i : Nat} (hi : i < inodeCount) {name : Name} (hname : 0 ∉ name) :
    scanEntries (fs.block i) name (fs.files i) 0 = .ok ((fs.entries i).lookup name) :=
  scanEntries_eq hname (h.files_le i hi) (h.names i hi)

/-- Entries lead to inodes that there are. -/
theorem lookup_lt {i e : Nat} (hi : i < inodeCount) {name : Name}
    (he : (fs.entries i).lookup name = some e) : e < inodeCount := by
  obtain ⟨k, hk⟩ := Forest.getElem?_of_lookup he
  exact h.entries i hi _ (List.mem_of_getElem? hk)

/-- A walk along short names does not leave the table. -/
theorem walk_ne_fault {names : List Name} (hzero : ∀ name ∈ names, 0 ∉ name)
    (hshort : ∀ name ∈ names, name.length < nameBytes) {i : Nat} (hi : i < inodeCount) :
    fs.walk names i ≠ .error .fault := by
  have hread : ∀ {i}, i < inodeCount → fs.readInode i = .ok (fs.inode i) :=
    fun hi ↦ FileSystem.readInode_eq_ok.mpr ⟨hi, rfl⟩
  induction names generalizing i with
  | nil =>
      rw [FileSystem.walk, hread hi]
      exact ok_ne_error
  | cons name names ih =>
      rw [List.forall_mem_cons] at hzero hshort
      rw [FileSystem.walk, if_pos hshort.1, hread hi, ok_bind]
      change (scanEntries (fs.block i) name (fs.files i) 0 >>= _) ≠ _
      rw [h.scan_eq hi hzero.1, ok_bind]
      cases hl : (fs.entries i).lookup name with
      | none => exact ok_ne_error
      | some e =>
          change (if toInt32 e = -1 then _ else _) ≠ _
          split
          · exact ok_ne_error
          · exact ih hzero.2 hshort.2 (h.lookup_lt hi hl)

/-- **Valid tables are safe to look things up in.** -/
theorem lookupsInside {k : Kernel δ} (hk : k.fs = fs) : LookupsInside k where
  seek := by
    intro dirPath hshort
    rw [hk]
    cases hchars : dirPath.chars with
    | nil => exact ok_ne_error
    | cons c rest =>
        rw [seekDirectory]
        split
        · have hzero : 0 ∉ rest := fun hmem ↦
            dirPath.nonzero (hchars ▸ List.mem_cons_of_mem c hmem)
          rw [hchars, List.tail_cons] at hshort
          rw [seekLoop_eq_walk]
          exact h.walk_ne_fault (zero_notMem_components hzero List.not_mem_nil) hshort (by decide)
        · exact ok_ne_error
  search := by
    intro d name hd
    have hread : fs.readInode d = .ok (fs.inode d) := FileSystem.readInode_eq_ok.mpr ⟨hd, rfl⟩
    rw [hk, searchDir, hread, ok_bind]
    split
    · change (scanEntries (fs.block d) name.chars (fs.files d) 0 >>= _) ≠ _
      rw [h.scan_eq hd name.nonzero, ok_bind]
      split
      · exact ok_ne_error
      · exact ok_ne_error
    · simp
  read := by
    intro fd buf count hfd hsp
    rw [hk] at hsp
    have hindex : entryIndex (fd : Int) = .ok fd := entryIndex_eq_ok.mpr ⟨rfl, hfd⟩
    have hread : fs.readInode (fs.globalFdTable.entry fd).inodeNum =
        .ok (fs.inode (fs.globalFdTable.entry fd).inodeNum) :=
      FileSystem.readInode_eq_ok.mpr ⟨h.fds fd hfd, rfl⟩
    have hloop := readLoop_ne_fault (fs.block (fs.globalFdTable.entry fd).inodeNum)
      (h.size_le _ (h.fds fd hfd)) count (fs.globalFdTable.entry fd).readPos 0 buf
    have hsp : ¬ (fs.inode (fs.globalFdTable.entry fd).inodeNum).fileType = fileTypeSpecial := hsp
    rw [FileSystem.block] at hloop
    simp only [read, hk, hindex, ok_bind, hread, if_neg hsp]
    generalize readLoop _ _ _ _ _ _ = result at hloop
    cases result with
    | error e =>
        intro hfault
        have he : e = .fault := Except.error.inj hfault
        exact hloop (congrArg Except.error he)
    | ok v => exact ok_ne_error

end ValidTables

/-! ## No disk is safe -/

/-- **No mount is safe.**  Whatever is on a disk with the indicator, the transfer of the inode
table does not stay inside it. -/
theorem not_mountSafe {k : Kernel δ} (h : (decodeSuper (ataReadBlock k.fs.disk 0)).Recognized)
    (diskSize : Nat) (env : Surroundings) : ¬ MountSafe k diskSize env := by
  intro hsafe
  have hlast : ⟨(decodeSuper (ataReadBlock k.fs.disk 0)).inodeTableStart, .inodeTable,
      inodeTableSize⟩ ∈ mountTransfers (decodeSuper (ataReadBlock k.fs.disk 0)) :=
    List.mem_cons_of_mem _ (List.mem_cons_of_mem _ List.mem_cons_self)
  have hinside : blockBytes * inodeTableSize ≤ inodeBytes * inodeCount :=
    hsafe.transfers h _ hlast
  exact absurd hinside (by decide)

/-- The kernel that starts with the disk that shutting down leaves. -/
def restarted (fs : FileSystem) : Kernel Unit :=
  let synced := syncMetadata fs ⟨fun _ ↦ 0, fun _ ↦ 0, none, fun _ ↦ 0⟩
  { terminalBoot with fs := FileSystem.zero synced.disk }

/-- A file system in memory that has nothing but the super block of a formatted disk. -/
def superKernel : Kernel Unit :=
  { terminalBoot with fs := { terminalBoot.fs with
      globalSuper := formattedSuper terminalBoot.fs 0x100000 } }

/-- Not even of a disk that the code wrote itself. -/
theorem not_mountSafe_superKernel :
    ¬ MountSafe (restarted superKernel.fs) 0x100000 ⟨fun _ ↦ 0, fun _ ↦ 0, none, fun _ ↦ 0⟩ :=
  not_mountSafe (by decide +kernel) _ _

/-- A disk with the indicator whose root claims to have 200 entries. -/
def crowdedKernel : Kernel Unit :=
  restarted (superKernel.fs.setInode 0
    { dataBlockStart := dataRegionStart, size := 200 * entryBytes })

/-- **Mounting such a disk reads past the block of the root.** -/
theorem crowdedKernel_faults : (decodeSuper (ataReadBlock crowdedKernel.fs.disk 0)).Recognized ∧
    ¬ MountSafe crowdedKernel 0x100000 ⟨fun _ ↦ 0, fun _ ↦ 0, none, fun _ ↦ 0⟩ := by
  refine ⟨by decide +kernel, fun hsafe ↦ hsafe.mount (stop_eq_some.mp ?_)⟩
  decide +kernel

end Yorha.Fs
