import Yorha.Fs.Open
import Yorha.Fs.Returns

/-!
# Creations that fail, and creations that should

A creation that returns -1 leaves the file system as it was (`createFiletype_atomic`).  It
returns -1 before anything is allocated, or not at all: what it would have to undo later is
the allocation of a descriptor, and this is never refused.

A creation takes the first free inode number and the first free block.  The bitmaps have
more bits than there are inodes and formatted blocks, and the code does not look at either
number.  So what it takes is in the formatted volume exactly as long as an inode and a block
of the volume are free (`staysInVolume_iff`).
-/

namespace Yorha.Fs

open Yorha.Lib Yorha.Str Yorha.Util Yorha.Heap

variable {δ : Type} {fs : FileSystem} {path : CString} {fileType : UInt8}

/-! ## Failed creations -/

/-- **Failed creation is atomic.**  If `create_filetype` returns -1, for whatever reason, the
file system is exactly as before the call: bitmaps, counter, inodes, descriptors and disk.
In particular this is not because of the descriptor, since `allocate_file_descriptor` does
not return -1. -/
theorem createFiletype_atomic :
    (∀ {k k' : Kernel δ} {path fileType allocateFd past},
      createFiletype k path fileType allocateFd past = .ok (-1, k') → k'.fs = k.fs) ∧
    ∀ {t t' : FileDescriptorTable} {inodeNum : Nat} {name : Name} {v : Int},
      allocateFileDescriptor t inodeNum name = .ok (v, t') → v ≠ -1 := by
  constructor
  · intro k k' path fileType allocateFd past h
    rcases createFiletype_ok h with ⟨-, heq⟩ | ⟨d, i, b, -, hout⟩
    · exact heq
    · nomatch hout
  · rintro t t' inodeNum name v h rfl
    obtain ⟨fd, hfd, -⟩ := allocateFileDescriptor_ok h
    nomatch hfd

/-- A name that is taken, and a descriptor that is allocated. -/
theorem createFiletype_atomic_taken : ∃ k' v t', createFiletype terminalKernel
      ⟨ofText "/dev/tty", by decide⟩ fileTypeNormal true (fun _ ↦ 0) = .ok (-1, k') ∧
    k'.fs = terminalKernel.fs ∧
    allocateFileDescriptor terminalKernel.fs.globalFdTable 0 (ofText "a") = .ok (v, t') ∧
    v ≠ -1 := by
  obtain ⟨k', hx⟩ := value_eq_some.mp (show value (createFiletype terminalKernel
    ⟨ofText "/dev/tty", by decide⟩ fileTypeNormal true (fun _ ↦ 0)) = some (-1) by
      decide +kernel)
  obtain ⟨v, t', hv⟩ := allocateFileDescriptor_of_free (show 5 < descriptorCount by decide)
    (show terminalKernel.fs.globalFdTable.marked 5 = false by decide +kernel) 0
    (show (ofText "a").length < nameBytes by decide)
  exact ⟨k', v, t', hx, (createFiletype_atomic (δ := Unit)).1 hx, hv,
    (createFiletype_atomic (δ := Unit)).2 hv⟩

/-! ## The formatted volume -/

/-- The call gets as far as the bitmaps: the path leads to a directory, and the name is short
and free. -/
structure Allocates (k : Kernel δ) (path : CString) : Prop where
  root : path.chars.head? = some slash
  heap : ∃ r, Path k.heap path = .ok r
  dir : ∃ d : Nat, seekDirectory k.fs (parsePath path).1.chars = .ok (d : Int) ∧
    searchDir k.fs d (fileName path) = .ok (-1)
  short : (fileName path).length < nameBytes

/-- The call takes the inode `i` and the block `b` from the bitmaps. -/
structure Takes (k : Kernel δ) (path : CString) (i b : Nat) : Prop where
  allocates : Allocates k path
  inode : ∃ bitmap, allocBit k.fs.globalIbmap "allocate_inode: can't allocate inode" =
    .ok (i, bitmap)
  block : ∃ bitmap, allocBit k.fs.globalDbmap "can't allocate data blocks" = .ok (b, bitmap)

/-- An inode of the table is free, and a block that was formatted. -/
def RoomInVolume (fs : FileSystem) : Prop :=
  (∃ i < inodeCount, ¬ fs.Live i) ∧
    ∃ b < fs.globalSuper.blockCount, WordArray.bit fs.globalDbmap b = false

instance (fs : FileSystem) : Decidable (RoomInVolume fs) :=
  inferInstanceAs (Decidable ((∃ i < inodeCount, ¬ fs.Live i) ∧ ∃ b < _, _))

/-- What the call takes is in the formatted volume; and if nothing of it is free, the call
does not succeed. -/
structure StaysInVolume (k : Kernel δ) (path : CString) (fileType : UInt8) (allocateFd : Bool)
    (past : Bytes) : Prop where
  takes : ∀ i b, Takes k path i b → i < inodeCount ∧ b < k.fs.globalSuper.blockCount
  full : ¬ RoomInVolume k.fs → ∀ v k',
    createFiletype k path fileType allocateFd past = .ok (v, k') → v = -1

/-- A bit of a bitmap can be allocated. -/
def BitLeft (bitmap : Vector Word bitmapWords) : Prop :=
  ∃ m, m + 1 < 32 * bitmapWords ∧ WordArray.bit bitmap m = false

/-- A call that made a file got as far as the bitmaps. -/
theorem Created.allocates {k k' : Kernel δ} {allocateFd : Bool} {past : Bytes} {v : Int}
    {d i b : Nat} (h : Created k.fs k'.fs path fileType d i b)
    (hx : createFiletype k path fileType allocateFd past = .ok (v, k')) : Allocates k path := by
  cases createFiletype_steps hx with
  | relative =>
      have hmarked := h.ibmap.bits i
      rw [if_pos rfl, h.ibmap.free] at hmarked
      cases hmarked
  | refused hroot hpath =>
      exact ⟨hroot, ⟨_, hpath⟩, ⟨d, h.seek, h.search⟩, h.name_lt⟩
  | made hroot hpath =>
      exact ⟨hroot, ⟨_, hpath⟩, ⟨d, h.seek, h.search⟩, h.name_lt⟩

/-- **Allocation stays in the volume if there is room in it.**  For every kernel, what `create`
or `mkdir` takes is in the formatted volume, and the call does not succeed if nothing of this
is free, if and only if an inode and a block of the volume are free whenever the call gets as
far as the bitmaps and finds free bits there. -/
theorem staysInVolume_iff {k : Kernel δ} {path : CString} {fileType : UInt8} {allocateFd : Bool}
    {past : Bytes} (htype : fileType ≠ fileTypeSpecial) :
    StaysInVolume k path fileType allocateFd past ↔
      (Allocates k path → BitLeft k.fs.globalIbmap → BitLeft k.fs.globalDbmap →
        RoomInVolume k.fs) := by
  constructor
  · rintro h hallocates ⟨m, hm, hfree⟩ ⟨n, hn, hfree'⟩
    obtain ⟨i, ibmap, hi, -⟩ := allocBit_of_free hm hfree "allocate_inode: can't allocate inode"
    obtain ⟨b, dbmap, hb, -⟩ := allocBit_of_free hn hfree' "can't allocate data blocks"
    obtain ⟨hilt, hblt⟩ := h.takes i b ⟨hallocates, ⟨ibmap, hi⟩, ⟨dbmap, hb⟩⟩
    refine ⟨⟨i, hilt, ?_⟩, b, hblt, (allocBit_ok hb).free⟩
    rw [FileSystem.Live, (allocBit_ok hi).free]
    exact Bool.false_ne_true
  · intro hroom
    refine ⟨?_, fun hfull v k' hx ↦ ?_⟩
    · rintro i b ⟨hallocates, ⟨ibmap, hi⟩, ⟨dbmap, hb⟩⟩
      have hi := allocBit_ok hi
      have hb := allocBit_ok hb
      obtain ⟨⟨j, hj, hdead⟩, c, hc, hfree⟩ :=
        hroom hallocates ⟨i, hi.lt, hi.free⟩ ⟨b, hb.lt, hb.free⟩
      constructor
      · refine lt_of_le_of_lt (Nat.le_of_not_lt fun hlt ↦ ?_) hj
        exact hdead (hi.first j hlt)
      · refine lt_of_le_of_lt (Nat.le_of_not_lt fun hlt ↦ ?_) hc
        rw [hb.first c hlt] at hfree
        cases hfree
    · rcases createFiletype_ok hx with ⟨hv, -⟩ | ⟨d, i, b, hc, -⟩
      · exact hv
      · have hdbmap := hc.dbmap
        rw [if_neg htype] at hdbmap
        exact absurd (hroom (hc.allocates hx) ⟨i, hc.ibmap.lt, hc.ibmap.free⟩
          ⟨b, hdbmap.lt, hdbmap.free⟩) hfull

/-- A directory made on a formatted disk. -/
theorem staysInVolume_first : StaysInVolume terminalKernel ⟨ofText "/a", by decide⟩ fileTypeDir
    false fun _ ↦ 0 := by
  rw [staysInVolume_iff (by decide)]
  intro _ _ _
  decide +kernel

/-- A directory for each of the blocks from 10 to 63: block 9 is that of `/dev`. -/
def volumeCalls : List FsCall := (List.finRange 54).map fun n ↦
  .mkdir ⟨[slash, UInt8.ofNat (48 + n.val)], by revert n; decide⟩ fun _ ↦ 0

/-- The path of one more directory. -/
def nextPath : CString := ⟨ofText "/~", by decide⟩

/-- **The next block is behind the volume.** -/
theorem volumeCalls_leave_volume : Formatted terminalKernel ∧
    ∃ k, runCalls FsCall.exec (fun _ _ ↦ True) volumeCalls terminalKernel = some k ∧
      k.fs.globalSuper.blockCount = 64 ∧ Takes k nextPath 58 64 ∧
      ¬ StaysInVolume k nextPath fileTypeDir false fun _ ↦ 0 := by
  obtain ⟨k, hk, hcheck⟩ := (Option.any_eq_true _ _).mp
    (show (runCalls FsCall.exec (fun _ _ ↦ True) volumeCalls terminalKernel).any (fun k ↦
      decide (k.fs.globalSuper.blockCount = 64 ∧
        (Path k.heap nextPath).toOption.isSome = true ∧
        seekDirectory k.fs (parsePath nextPath).1.chars = .ok ((0 : Nat) : Int) ∧
        searchDir k.fs 0 (fileName nextPath) = .ok (-1) ∧
        value (allocBit k.fs.globalIbmap "allocate_inode: can't allocate inode") = some 58 ∧
        value (allocBit k.fs.globalDbmap "can't allocate data blocks") = some 64)) = true by
      decide +kernel)
  obtain ⟨hcount, hpath, hseek, hsearch, hi, hb⟩ := of_decide_eq_true hcheck
  have htakes : Takes k nextPath 58 64 := by
    refine ⟨⟨rfl, ?_, ⟨0, hseek, hsearch⟩, by decide⟩, value_eq_some.mp hi, value_eq_some.mp hb⟩
    cases hr : Path k.heap nextPath with
    | ok r => exact ⟨r, rfl⟩
    | error e =>
        rw [hr] at hpath
        cases hpath
  refine ⟨formatted_terminalKernel, k, hk, hcount, htakes, fun h ↦ ?_⟩
  have hlt := (h.takes 58 64 htakes).2
  rw [hcount] at hlt
  exact absurd hlt (by decide)

end Yorha.Fs
