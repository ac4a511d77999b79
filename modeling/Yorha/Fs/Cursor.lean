import Yorha.Fs.Format

/-!
# Cursors

What the loops of `read` and `write` do as a whole.  `write` accepts bytes up to the end
of the block, stores them at the write cursor, and adds their number to the size of the
file.  `read` returns the bytes between the read cursor and the size, if the file fits
into its block; otherwise it would read past the buffer it copied the block to.
-/

namespace Yorha.Fs

open Yorha.Lib Yorha.Str Yorha.Util

variable {δ : Type} {fs fs' : FileSystem}

/-! ## Writing -/

/-- How many of `count` bytes fit behind a cursor. -/
def accepted (pos count : Nat) : Nat := min count (blockBytes - pos)

theorem accepted_succ {pos : Nat} (h : pos < blockBytes) (count : Nat) :
    accepted pos (count + 1) = accepted (pos + 1) count + 1 := by
  rw [accepted, accepted]
  omega

theorem accepted_of_full {pos : Nat} (h : ¬ pos < blockBytes) (count : Nat) :
    accepted pos count = 0 := by
  rw [accepted, Nat.sub_eq_zero_of_le (Nat.le_of_not_lt h), Nat.min_zero]

theorem accepted_le (pos count : Nat) : accepted pos count ≤ blockBytes - pos :=
  Nat.min_le_right _ _

section

variable (buf : Bytes) (n : Nat) (s : WriteState)

theorem writeLoop_writePos :
    (writeLoop buf n s).writePos = s.writePos + accepted s.writePos n := by
  induction n generalizing s with
  | zero => rw [writeLoop, accepted, Nat.zero_min, Nat.add_zero]
  | succ n ih =>
      rw [writeLoop]
      split
      · rename_i hlt
        rw [ih, accepted_succ hlt, Nat.add_assoc, Nat.add_comm 1]
      · rename_i hfull
        rw [accepted_of_full hfull, Nat.add_zero]

theorem writeLoop_bytesWritten :
    (writeLoop buf n s).bytesWritten = s.bytesWritten + accepted s.writePos n := by
  induction n generalizing s with
  | zero => rw [writeLoop, accepted, Nat.zero_min, Nat.add_zero]
  | succ n ih =>
      rw [writeLoop]
      split
      · rename_i hlt
        rw [ih, accepted_succ hlt, Nat.add_assoc, Nat.add_comm 1]
      · rename_i hfull
        rw [accepted_of_full hfull, Nat.add_zero]

/-- The size grows by every byte that is accepted, wherever it goes. -/
theorem writeLoop_size : (writeLoop buf n s).size =
    if accepted s.writePos n = 0 then s.size else (s.size + accepted s.writePos n) % 2 ^ 32 := by
  induction n generalizing s with
  | zero => rw [writeLoop, accepted, Nat.zero_min, if_pos rfl]
  | succ n ih =>
      rw [writeLoop]
      split
      · rename_i hlt
        rw [ih, accepted_succ hlt, if_neg (Nat.succ_ne_zero _)]
        split
        · rename_i hzero
          rw [hzero]
        · rw [Nat.mod_add_mod, Nat.add_assoc, Nat.add_comm 1]
      · rename_i hfull
        rw [accepted_of_full hfull, if_pos rfl]

/-- The bytes that are accepted go where the cursor is; the others stay. -/
theorem writeLoop_dataBlockBuf (i : Nat) : (writeLoop buf n s).dataBlockBuf i =
    if s.writePos ≤ i ∧ i < s.writePos + accepted s.writePos n then
      buf (s.bytesWritten + (i - s.writePos))
    else s.dataBlockBuf i := by
  induction n generalizing s with
  | zero =>
      rw [writeLoop, accepted, Nat.zero_min, if_neg]
      omega
  | succ n ih =>
      rw [writeLoop]
      split
      · rename_i hlt
        rw [ih, accepted_succ hlt]
        change (if s.writePos + 1 ≤ i ∧ i < s.writePos + 1 + accepted (s.writePos + 1) n then
            buf (s.bytesWritten + 1 + (i - (s.writePos + 1)))
          else Function.update s.dataBlockBuf s.writePos (buf s.bytesWritten) i) = _
        rcases Nat.lt_trichotomy i s.writePos with hi | hi | hi
        · rw [if_neg (by omega), if_neg (by omega), Function.update_of_ne (by omega)]
        · subst hi
          rw [if_neg (by omega), if_pos (by omega), Function.update_self, Nat.sub_self,
            Nat.add_zero]
        · rw [Function.update_of_ne (by omega)]
          refine if_congr (by omega) (congrArg buf ?_) rfl
          omega
      · rename_i hfull
        rw [accepted_of_full hfull, if_neg]
        omega

end

/-- **Writing to a file that is not special returns** the number of bytes accepted. -/
theorem write_returns {k : Kernel δ} {fd i : Nat} (hfd : fd < descriptorCount)
    (hi : (k.fs.globalFdTable.entry fd).inodeNum = i) (hlt : i < inodeCount)
    (hsp : ¬ k.fs.IsSpecial i) (buf : Bytes) (count : Nat) :
    ∃ k', write k fd buf count =
        .ok (accepted (k.fs.globalFdTable.entry fd).writePos count, k') ∧
      Wrote k.fs k'.fs fd i buf count := by
  have hindex : entryIndex (fd : Int) = .ok fd := entryIndex_eq_ok.mpr ⟨rfl, hfd⟩
  have hread : k.fs.readInode (k.fs.globalFdTable.entry fd).inodeNum = .ok (k.fs.inode i) :=
    FileSystem.readInode_eq_ok.mpr ⟨by rwa [hi], by rw [hi]⟩
  obtain ⟨⟨v, k'⟩, hx⟩ : ∃ r, write k fd buf count = .ok r := by
    simp only [write, hindex, ok_bind, hread]
    rw [if_neg (show ¬ (k.fs.inode i).fileType = fileTypeSpecial from hsp)]
    exact ⟨_, rfl⟩
  obtain ⟨n, hn, -, ⟨hsp', -⟩ | ⟨hv, -, hw⟩⟩ := write_ok hx
  · obtain rfl : fd = n := Int.ofNat.inj hn
    rw [hi] at hsp'
    exact absurd hsp' hsp
  · obtain rfl : fd = n := Int.ofNat.inj hn
    rw [FileSystem.writeResult, writeLoop_bytesWritten, Nat.zero_add] at hv
    rw [hi] at hw
    exact ⟨k', by rw [hx, hv], hw⟩

section

variable {buf : Bytes} {count fd i : Nat}

/-- The bytes of the file after a write. -/
theorem Wrote.block_apply (h : Wrote fs fs' fd i buf count) (j : Nat) : fs'.block i j =
    let pos := (fs.globalFdTable.entry fd).writePos
    if pos ≤ j ∧ j < pos + accepted pos count then buf (j - pos) else fs.block i j := by
  obtain ⟨n, hn, -⟩ := h.inode_eq i
  have hblock : fs'.block i = (fs.writeResult fd buf count).dataBlockBuf := by
    rw [FileSystem.block, h.disk, hn, read_write_block]
  rw [hblock, FileSystem.writeResult, writeLoop_dataBlockBuf]
  simp only [Nat.zero_add, h.inodeNum]

/-- The size of the file after a write. -/
theorem Wrote.size_eq (h : Wrote fs fs' fd i buf count) : (fs'.inode i).size =
    let n := accepted (fs.globalFdTable.entry fd).writePos count
    if n = 0 then (fs.inode i).size else ((fs.inode i).size + n) % 2 ^ 32 := by
  rw [h.inode i, if_pos rfl]
  simp only [FileSystem.writeResult, writeLoop_size, h.inodeNum]

/-- The descriptor after a write. -/
theorem Wrote.entry_eq (h : Wrote fs fs' fd i buf count) (fd' : Nat) :
    fs'.globalFdTable.entry fd' =
      if fd' = fd then
        let e := fs.globalFdTable.entry fd
        { e with writePos := e.writePos + accepted e.writePos count }
      else fs.globalFdTable.entry fd' := by
  rw [h.table, FileDescriptorTable.entry_setEntry _ h.fd_lt, FileSystem.writeResult,
    writeLoop_writePos]

end

/-! ## Reading -/

/-- How many of `count` bytes a file of a size has behind a cursor. -/
def available (size pos count : Nat) : Nat := min count (size - pos)

/-- The loop of `read` on a file that fits into its block. -/
theorem readLoop_eq (dataBlockBuf : Bytes) {size : Nat} (hsize : size ≤ blockBytes)
    (n pos bytesRead : Nat) (buf : Bytes) :
    ∃ buf', readLoop dataBlockBuf size n pos bytesRead buf =
        .ok (pos + available size pos n, bytesRead + available size pos n, buf') ∧
      ∀ j, buf' j = if bytesRead ≤ j ∧ j < bytesRead + available size pos n then
        dataBlockBuf (pos + (j - bytesRead)) else buf j := by
  induction n generalizing pos bytesRead buf with
  | zero =>
      refine ⟨buf, ?_, fun j ↦ ?_⟩
      · rw [readLoop, available, Nat.zero_min, Nat.add_zero, Nat.add_zero]
      · rw [available, Nat.zero_min, if_neg]
        omega
  | succ n ih =>
      rw [readLoop]
      by_cases hpos : pos < size
      · have hsucc : available size pos (n + 1) = available size (pos + 1) n + 1 := by
          rw [available, available]
          omega
        obtain ⟨buf', hloop, hbuf'⟩ := ih (pos + 1) (bytesRead + 1)
          (Function.update buf bytesRead (dataBlockBuf pos))
        rw [if_pos hpos, if_pos (lt_of_lt_of_le hpos hsize), hloop, hsucc]
        refine ⟨buf', ?_, fun j ↦ ?_⟩
        · simp only [Nat.add_assoc, Nat.add_comm 1]
        · rw [hbuf' j]
          rcases Nat.lt_trichotomy j bytesRead with hj | hj | hj
          · rw [if_neg (by omega), if_neg (by omega), Function.update_of_ne (by omega)]
          · subst hj
            rw [if_neg (by omega), if_pos (by omega), Function.update_self, Nat.sub_self,
              Nat.add_zero]
          · rw [Function.update_of_ne (by omega)]
            refine if_congr (by omega) (congrArg dataBlockBuf ?_) rfl
            omega
      · have hzero : available size pos (n + 1) = 0 := by
          rw [available]
          omega
        rw [if_neg hpos, hzero]
        refine ⟨buf, by simp only [Nat.add_zero], fun j ↦ ?_⟩
        rw [if_neg]
        omega

/-- **Reading a file that fits into its block returns** the bytes behind the cursor. -/
theorem read_returns {k : Kernel δ} {fd i : Nat} (hfd : fd < descriptorCount)
    (hi : (k.fs.globalFdTable.entry fd).inodeNum = i) (hlt : i < inodeCount)
    (hsp : ¬ k.fs.IsSpecial i) (hsize : (k.fs.inode i).size ≤ blockBytes) (buf : Bytes)
    (count : Nat) :
    let e := k.fs.globalFdTable.entry fd
    let n := available (k.fs.inode i).size e.readPos count
    let t := k.fs.globalFdTable.setEntry fd { e with readPos := e.readPos + n }
    ∃ buf', read k fd buf count =
        .ok ((n, buf'), { k with fs := { k.fs with globalFdTable := t } }) ∧
      ∀ j, buf' j = if j < n then k.fs.block i (e.readPos + j) else buf j := by
  have hindex : entryIndex (fd : Int) = .ok fd := entryIndex_eq_ok.mpr ⟨rfl, hfd⟩
  have hread : k.fs.readInode (k.fs.globalFdTable.entry fd).inodeNum = .ok (k.fs.inode i) :=
    FileSystem.readInode_eq_ok.mpr ⟨by rwa [hi], by rw [hi]⟩
  obtain ⟨buf', hloop, hbuf'⟩ := readLoop_eq (k.fs.block i) hsize count
    (k.fs.globalFdTable.entry fd).readPos 0 buf
  refine ⟨buf', ?_, fun j ↦ ?_⟩
  · simp only [read, hindex, ok_bind, hread]
    rw [if_neg (show ¬ (k.fs.inode i).fileType = fileTypeSpecial from hsp)]
    change (readLoop (k.fs.block i) _ _ _ _ _ >>= _) = _
    rw [hloop, ok_bind, Nat.zero_add]
  · rw [hbuf' j, Nat.zero_add, Nat.sub_zero]
    exact if_congr (by omega) rfl rfl

/-- The loop of `read` on a file that is larger than its block, if the read cursor is in the
block and enough bytes are asked for. -/
theorem readLoop_fault {dataBlockBuf : Bytes} {size : Nat} (hsize : blockBytes < size)
    {n pos : Nat} (hpos : pos ≤ blockBytes) (hn : blockBytes < pos + n) (bytesRead : Nat)
    (buf : Bytes) : readLoop dataBlockBuf size n pos bytesRead buf = .error .fault := by
  induction n generalizing pos bytesRead buf with
  | zero => exact absurd hn (by omega)
  | succ n ih =>
      rw [readLoop, if_pos (lt_of_le_of_lt hpos hsize)]
      split
      · exact ih (by omega) (by omega) _ _
      · rfl

/-- **Reading behind the block of a file that is larger than it** leaves the buffer. -/
theorem read_faults {k : Kernel δ} {fd i : Nat} (hfd : fd < descriptorCount)
    (hi : (k.fs.globalFdTable.entry fd).inodeNum = i) (hlt : i < inodeCount)
    (hsp : ¬ k.fs.IsSpecial i) (hsize : blockBytes < (k.fs.inode i).size) (buf : Bytes)
    {count : Nat} (hpos : (k.fs.globalFdTable.entry fd).readPos ≤ blockBytes)
    (hcount : blockBytes < (k.fs.globalFdTable.entry fd).readPos + count) :
    read k fd buf count = .error .fault := by
  have hindex : entryIndex (fd : Int) = .ok fd := entryIndex_eq_ok.mpr ⟨rfl, hfd⟩
  have hread : k.fs.readInode (k.fs.globalFdTable.entry fd).inodeNum = .ok (k.fs.inode i) :=
    FileSystem.readInode_eq_ok.mpr ⟨by rwa [hi], by rw [hi]⟩
  simp only [read, hindex, ok_bind, hread]
  rw [if_neg (show ¬ (k.fs.inode i).fileType = fileTypeSpecial from hsp),
    readLoop_fault hsize hpos hcount]
  rfl

end Yorha.Fs
