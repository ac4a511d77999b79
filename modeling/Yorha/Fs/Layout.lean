import Yorha.Fs.Integrity
import Yorha.Fs.Mount

/-!
# What calls leave of the super block

After formatting, a call changes one field of the super block, the number of used inodes, and
it leaves the table of system files alone.  Whatever a call stores in an inode is a value of
the field's C type.  So what a shutdown needs to be undone by the next mount holds in every
state (`Mountable`).
-/

namespace Yorha.Fs

open Yorha.Lib Yorha.Str Yorha.Util Yorha.Heap

variable {δ : Type} {fs fs' : FileSystem} {k k' : Kernel δ} {v : Int}

/-! ## The super block -/

/-- The super block is the same, up to one more used inode. -/
def SuperKept (super super' : FileSystemSuper) : Prop :=
  super' = super ∨ super' = { super with usedInodes := (super.usedInodes + 1) % 2 ^ 32 }

/-- What a mount relies on in the super block. -/
structure MountableSuper (super : FileSystemSuper) : Prop where
  range : super.InRange
  layout : super.FormattedLayout
  recognized : super.Recognized

theorem SuperKept.mountableSuper {super super' : FileSystemSuper} (h : SuperKept super super')
    (hm : MountableSuper super) : MountableSuper super' := by
  rcases h with rfl | rfl
  · exact hm
  · refine ⟨{ hm.range with usedInodes := ?_ }, ?_, hm.recognized⟩
    · exact Nat.mod_lt _ (by decide)
    · exact ⟨hm.layout.iBmapStart, hm.layout.dBmapStart, hm.layout.inodeTableStart,
        hm.layout.dataStart⟩

theorem allocateInode_super {parsedPath : ParsedPath} {fileType : UInt8} {allocData : Bool}
    {pair : DirInodePair} (h : allocateInode fs parsedPath fileType allocData = .ok (pair, fs')) :
    SuperKept fs.globalSuper fs'.globalSuper := by
  simp only [allocateInode, bind_eq_ok] at h
  obtain ⟨d, -, h⟩ := h
  split at h
  · cases h
    exact .inl rfl
  · simp only [bind_eq_ok] at h
    obtain ⟨existing, -, h⟩ := h
    split at h
    · cases h
      exact .inl rfl
    · split at h
      · simp only [bind_eq_ok, Prod.exists] at h
        obtain ⟨i, ibmap, -, b, dbmap, -, h⟩ := h
        split at h
        · cases h
          exact .inr rfl
        · cases h
      · cases h

theorem linkFileInDir_super {d i : Nat} (h : linkFileInDir fs d i = .ok fs') :
    fs'.globalSuper = fs.globalSuper := by
  simp only [linkFileInDir, bind_eq_ok] at h
  obtain ⟨dirInode, -, fileInode, -, h⟩ := h
  split at h
  · simp only [bind_eq_ok] at h
    obtain ⟨name, -, h⟩ := h
    cases h
    rfl
  · cases h

theorem cleanup_super {fd : Int} {pair : DirInodePair} {past : Bytes}
    (h : cleanup fs fd pair past = .ok fs') : fs'.globalSuper = fs.globalSuper := by
  rw [cleanup] at h
  split at h
  · simp only [bind_eq_ok] at h
    obtain ⟨fs₁, hunlink, inode, -, dbmap, -, ibmap, -, h⟩ := h
    cases h
    exact (unlinkFileInDir_ok hunlink).2.2.2.1
  · cases h
    rfl

theorem createFiletype_super {path : CString} {fileType : UInt8} {allocateFd : Bool}
    {past : Bytes} (h : createFiletype k path fileType allocateFd past = .ok (v, k')) :
    SuperKept k.fs.globalSuper k'.fs.globalSuper := by
  cases createFiletype_steps h with
  | relative => exact .inl rfl
  | refused _ _ halloc => exact allocateInode_super halloc
  | made _ _ halloc _ hlink _ _ hclean =>
      have hkept := allocateInode_super halloc
      rw [← linkFileInDir_super hlink] at hkept
      exact (cleanup_super hclean).symm ▸ hkept

theorem write_super {fd : Int} {buf : Bytes} {count n : Nat}
    (h : write k fd buf count = .ok (n, k')) : k'.fs.globalSuper = k.fs.globalSuper := by
  simp only [write, bind_eq_ok] at h
  obtain ⟨index, -, inode, -, h⟩ := h
  split at h
  · split at h
    · simp only [bind_eq_ok, Prod.exists] at h
      obtain ⟨m, buf', dev, -, h⟩ := h
      cases h
      rfl
    · cases h
      rfl
  · cases h
    rfl

theorem unlink_super {path : CString} {past : Bytes} (h : unlink k path past = .ok (v, k')) :
    k'.fs.globalSuper = k.fs.globalSuper := by
  cases unlink_steps h with
  | missing => rfl
  | removed _ _ _ hunlink => exact (unlinkFileInDir_ok hunlink).2.2.2.1

/-- **A call changes nothing of the super block but the number of used inodes.** -/
theorem exec_super {c : FsCall} (h : FsCall.exec k c = .ok (v, k')) :
    SuperKept k.fs.globalSuper k'.fs.globalSuper := by
  cases c with
  | createFiletype => exact createFiletype_super h
  | openFile =>
      obtain ⟨t, ht, -⟩ := openFile_ok h
      exact .inl (by rw [ht])
  | close =>
      obtain ⟨-, t, -, rfl⟩ := close_ok h
      exact .inl rfl
  | read =>
      obtain ⟨n, buf', hread⟩ := exec_read h
      obtain ⟨t, ht, -⟩ := read_ok hread
      exact .inl (by rw [ht])
  | write =>
      obtain ⟨n, hwrite⟩ := exec_write h
      exact .inl (write_super hwrite)
  | seek =>
      obtain ⟨t, rfl, -⟩ := seek_ok h
      exact .inl rfl
  | unlink => exact .inl (unlink_super h)

/-! ## The system files -/

theorem openFile_systemFiles {path : CString} (h : openFile k path = .ok (v, k')) :
    k'.systemFiles = k.systemFiles := by
  cases openFile_steps h with
  | missing => rfl
  | opened => rfl

/-- **A call leaves the table of system files alone.** -/
theorem exec_systemFiles {c : FsCall} (h : FsCall.exec k c = .ok (v, k')) :
    k'.systemFiles = k.systemFiles := by
  cases c with
  | createFiletype => exact createFiletype_systemFiles h
  | openFile => exact openFile_systemFiles h
  | close =>
      obtain ⟨-, t, -, rfl⟩ := close_ok h
      rfl
  | read =>
      obtain ⟨n, buf', hread⟩ := exec_read h
      exact (read_frame hread).2
  | write =>
      obtain ⟨n, hwrite⟩ := exec_write h
      exact (write_frame hwrite).2
  | seek =>
      obtain ⟨t, rfl, -⟩ := seek_ok h
      rfl
  | unlink =>
      cases unlink_steps h with
      | missing => rfl
      | removed => rfl

/-! ## Ranges -/

/-- The inodes hold values of their C types. -/
def InodesInRange (fs : FileSystem) : Prop := ∀ i < inodeCount, (fs.inode i).InRange

/-- A size in range stays in range. -/
theorem FileSystemInode.InRange.of_size {inode : FileSystemInode} (h : inode.InRange) {n : Nat}
    (hn : n < 2 ^ 32) : FileSystemInode.InRange { inode with size := n } :=
  ⟨h.dataBlockStart, hn, h.parentInodeNum⟩

theorem size_writeLoop_lt (buf : Bytes) (n : Nat) {s : WriteState} (h : s.size < 2 ^ 32) :
    (writeLoop buf n s).size < 2 ^ 32 := by
  induction n generalizing s with
  | zero => exact h
  | succ n ih =>
      rw [writeLoop]
      split
      · exact ih (Nat.mod_lt _ (by decide))
      · exact h

theorem inRange_madeInode (name : Name) (fileType : UInt8) {b d : Nat} (hb : b < 2 ^ 32)
    (hd : d < inodeCount) : (madeInode name fileType b d).InRange :=
  ⟨hb, Nat.two_pow_pos 32, lt_trans hd (by decide)⟩

/-- **What a call stores is in range.** -/
theorem Effect.inodesInRange {c : FsCall} (he : Effect fs fs' c) (h : InodesInRange fs) :
    InodesInRange fs' := by
  cases he with
  | moved ht _ =>
      rw [ht]
      exact h
  | @created path fileType _ _ d i b _ hc _ =>
      have hb : b < 2 ^ 32 := by
        have hdb := hc.dbmap
        split at hdb
        · rw [hdb.1]
          decide
        · exact lt_trans (Nat.lt_of_succ_lt hdb.lt) (by decide)
      have hmade := inRange_madeInode (fileName path) fileType hb hc.parent_lt
      have hparent : (parentInode fs (fileName path) fileType d i b).InRange := by
        rw [parentInode]
        split
        · exact hmade
        · exact h d hc.parent_lt
      intro j hj
      rw [hc.inode j]
      simp only
      split
      · exact hparent.of_size (Nat.mod_lt _ (by decide))
      · split
        · exact hmade
        · exact h j hj
  | opened ht _ _ _ _ =>
      rw [ht]
      exact h
  | closed ht _ =>
      rw [ht]
      exact h
  | wrote hw =>
      intro j hj
      rw [hw.inode j]
      split
      · exact (h _ hw.lt).of_size (size_writeLoop_lt _ _ (h _ (by rw [hw.inodeNum]; exact hw.lt)).size)
      · exact h j hj
  | removed hr =>
      intro j hj
      obtain ⟨n, hn, hinode⟩ := hr.entry.inode j
      rw [hinode]
      exact (h j hj).of_size (lt_of_le_of_lt hn (h j hj).size)

/-! ## What a shutdown needs -/

/-- What a shutdown needs to be undone by the next mount. -/
structure Mountable (k : Kernel δ) : Prop where
  super : MountableSuper k.fs.globalSuper
  inodes : InodesInRange k.fs
  fds : ∀ file ∈ k.systemFiles, ValidFd file.fd

/-- **Step.**  Every call keeps to it. -/
theorem Mountable.step {c : FsCall} (h : Mountable k) (hx : FsCall.exec k c = .ok (v, k')) :
    Mountable k' where
  super := (exec_super hx).mountableSuper h.super
  inodes := (exec_ok hx).inodesInRange h.inodes
  fds := by
    rw [exec_systemFiles hx]
    exact h.fds

end Yorha.Fs
