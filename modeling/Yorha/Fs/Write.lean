import Yorha.Fs.Cursor

/-!
# What `write` promises

`write` is to store the bytes it accepts at the cursor, leave the rest of the block
alone, and make the size of the file the larger of the old one and the new cursor
(`WriteSemantics`).  The code adds the number of bytes to the size, wherever they go.  So it
keeps the promise when it appends, or accepts nothing, and only then
(`writeSemantics_iff`); writing over bytes that are there makes the file larger, until
`read` goes past its buffer.

As long as every write appends, every normal file fits into its block.
-/

namespace Yorha.Fs

open Yorha.Lib Yorha.Str Yorha.Util

variable {δ : Type} {fs fs' : FileSystem}

/-- The inode is a normal file's. -/
def FileSystem.IsNormal (fs : FileSystem) (i : Nat) : Prop :=
  (fs.inode i).fileType = fileTypeNormal

instance (fs : FileSystem) (i : Nat) : Decidable (fs.IsNormal i) :=
  inferInstanceAs (Decidable (_ = _))

/-- A normal file is not special. -/
theorem FileSystem.IsNormal.not_isSpecial {i : Nat} (h : fs.IsNormal i) : ¬ fs.IsSpecial i := by
  intro hs
  rw [FileSystem.IsSpecial, h] at hs
  exact absurd hs (by decide)

/-- Numbers past the end of the table are no normal files. -/
theorem FileSystem.IsNormal.lt {i : Nat} (h : fs.IsNormal i) : i < inodeCount := by
  by_contra hge
  rw [FileSystem.IsNormal, FileSystem.inode, Vector.getElem?_eq_none (Nat.le_of_not_lt hge)] at h
  exact absurd h (by decide)

/-- A write of `count` bytes of `buf` through `fd` did what it promises. -/
structure WriteMeets (fs fs' : FileSystem) (fd : Nat) (buf : Bytes) (count : Nat) : Prop where
  stored : ∀ j < blockBytes, fs'.block (fs.globalFdTable.entry fd).inodeNum j =
    let pos := (fs.globalFdTable.entry fd).writePos
    if pos ≤ j ∧ j < pos + accepted pos count then buf (j - pos)
    else fs.block (fs.globalFdTable.entry fd).inodeNum j
  cursor : (fs'.globalFdTable.entry fd).writePos =
    (fs.globalFdTable.entry fd).writePos + accepted (fs.globalFdTable.entry fd).writePos count
  size : (fs'.inode (fs.globalFdTable.entry fd).inodeNum).size =
    max (fs.inode (fs.globalFdTable.entry fd).inodeNum).size
      (fs'.globalFdTable.entry fd).writePos

/-- A write returns the number of bytes it accepts, having done what it promises. -/
def WriteSemantics (k : Kernel δ) (fd : Nat) (buf : Bytes) (count : Nat) : Prop :=
  ∃ k', write k fd buf count = .ok (accepted (k.fs.globalFdTable.entry fd).writePos count, k') ∧
    WriteMeets k.fs k'.fs fd buf count

/-- The cursor is at the end of the file; or nothing is accepted, and it is not behind the
end. -/
def WritesAtEnd (fs : FileSystem) (fd count : Nat) : Prop :=
  let pos := (fs.globalFdTable.entry fd).writePos
  let size := (fs.inode (fs.globalFdTable.entry fd).inodeNum).size
  pos = size ∨ (count = 0 ∨ pos = blockBytes) ∧ pos ≤ size

instance (fs : FileSystem) (fd count : Nat) : Decidable (WritesAtEnd fs fd count) :=
  inferInstanceAs (Decidable (_ ∨ _))

/-- Adding to the size and taking the larger size agree at the end of the file only. -/
theorem size_eq_max_iff (size count : Nat) {pos : Nat} (hpos : pos ≤ blockBytes) :
    (if accepted pos count = 0 then size else (size + accepted pos count) % 2 ^ 32) =
        max size (pos + accepted pos count) ↔
      pos = size ∨ (count = 0 ∨ pos = blockBytes) ∧ pos ≤ size := by
  have hle := accepted_le pos count
  have hblock : blockBytes = 4096 := rfl
  have hzero : accepted pos count = 0 ↔ count = 0 ∨ pos = blockBytes := by
    rw [accepted]
    omega
  rw [← hzero]
  generalize accepted pos count = n at hle ⊢
  split
  · omega
  · omega

/-- **A write through an open descriptor of a normal file keeps its promise exactly at the
end of the file.** -/
theorem writeSemantics_iff {k : Kernel δ} {fd : Nat} (hfd : fd < descriptorCount)
    (hnormal : k.fs.IsNormal (k.fs.globalFdTable.entry fd).inodeNum)
    (hpos : (k.fs.globalFdTable.entry fd).writePos ≤ blockBytes) (buf : Bytes) (count : Nat) :
    WriteSemantics k fd buf count ↔ WritesAtEnd k.fs fd count := by
  obtain ⟨k', hx, hw⟩ :=
    write_returns hfd rfl hnormal.lt hnormal.not_isSpecial buf count
  have hcursor : (k'.fs.globalFdTable.entry fd).writePos =
      (k.fs.globalFdTable.entry fd).writePos +
        accepted (k.fs.globalFdTable.entry fd).writePos count := by
    rw [hw.entry_eq, if_pos rfl]
  have hsize := size_eq_max_iff (k.fs.inode (k.fs.globalFdTable.entry fd).inodeNum).size
    count hpos
  rw [← hcursor] at hsize
  constructor
  · rintro ⟨k'', hx'', hmeets⟩
    rw [hx] at hx''
    cases hx''
    exact hsize.mp (hw.size_eq.symm.trans hmeets.size)
  · intro hend
    exact ⟨k', hx, fun j _ ↦ hw.block_apply j, hcursor, hw.size_eq.trans (hsize.mpr hend)⟩

/-! ## Runs -/

/-- Every write to a normal file, with a cursor in its block, is at the end. -/
def KeepsSizes (k : Kernel δ) : FsCall → Prop
  | .write fd _ count =>
      k.fs.IsNormal (k.fs.globalFdTable.entry fd.toNat).inodeNum →
      (k.fs.globalFdTable.entry fd.toNat).writePos ≤ blockBytes →
      WritesAtEnd k.fs fd.toNat count
  | _ => True

instance (k : Kernel δ) : ∀ c, Decidable (KeepsSizes k c)
  | .createFiletype _ _ _ _ => inferInstanceAs (Decidable True)
  | .openFile _ => inferInstanceAs (Decidable True)
  | .close _ => inferInstanceAs (Decidable True)
  | .read _ _ _ => inferInstanceAs (Decidable True)
  | .write _ _ _ => inferInstanceAs (Decidable (_ → _ → _))
  | .seek _ _ _ => inferInstanceAs (Decidable True)
  | .unlink _ _ => inferInstanceAs (Decidable True)

/-- Every normal file fits into its block. -/
def SizesFit (fs : FileSystem) : Prop := ∀ i, fs.IsNormal i → (fs.inode i).size ≤ blockBytes

/-- A new file has no size, unless it is its own directory; then it has one entry. -/
theorem Created.sizesFit {path : CString} {fileType : UInt8} {d i b : Nat}
    (h : Created fs fs' path fileType d i b) (hfit : SizesFit fs) : SizesFit fs' := by
  intro j hj
  have hinode := h.inode j
  simp only at hinode
  rw [FileSystem.IsNormal, hinode] at hj
  rw [hinode]
  by_cases hjd : j = d
  · rw [if_pos hjd] at hj ⊢
    by_cases hdi : d = i
    · rw [parentInode, if_pos hdi]
      change (0 + entryBytes) % 2 ^ 32 ≤ blockBytes
      decide
    · rw [parentInode, if_neg hdi] at hj
      have hdir : (fs.inode d).fileType = fileTypeDir := h.parent_dir
      rw [hdir] at hj
      exact absurd hj (by decide)
  · rw [if_neg hjd] at hj ⊢
    by_cases hji : j = i
    · rw [if_pos hji]
      exact Nat.zero_le _
    · rw [if_neg hji] at hj ⊢
      exact hfit j hj

/-- A write at the end stays in the block. -/
theorem Wrote.sizesFit {fd i count : Nat} {buf : Bytes} (h : Wrote fs fs' fd i buf count)
    (hfit : SizesFit fs) (hend : fs.IsNormal i →
      (fs.globalFdTable.entry fd).writePos ≤ blockBytes → WritesAtEnd fs fd count) :
    SizesFit fs' := by
  intro j hj
  obtain ⟨n, hn, hsize⟩ := h.inode_eq j
  rw [FileSystem.IsNormal, hn] at hj
  by_cases hji : j = i
  · subst hji
    rw [h.size_eq]
    have hold := hfit j hj
    have hle := accepted_le (fs.globalFdTable.entry fd).writePos count
    by_cases hpos : (fs.globalFdTable.entry fd).writePos ≤ blockBytes
    · have hat := hend hj hpos
      rw [WritesAtEnd, h.inodeNum] at hat
      change (if accepted _ _ = 0 then _ else _) ≤ _
      rw [(size_eq_max_iff _ count hpos).mpr hat]
      omega
    · change (if accepted _ _ = 0 then _ else _) ≤ _
      rw [if_pos (by omega)]
      exact hold
  · rw [hn, hsize hji]
    exact hfit j hj

/-- **Step.**  Calls whose writes are at the end keep every normal file in its block. -/
theorem Effect.sizesFit {k : Kernel δ} {c : FsCall} (he : Effect k.fs fs' c)
    (hfit : SizesFit k.fs) (hc : KeepsSizes k c) : SizesFit fs' := by
  cases he with
  | moved ht _ =>
      rw [ht]
      exact hfit
  | created h _ => exact h.sizesFit hfit
  | opened ht _ _ _ _ =>
      rw [ht]
      exact hfit
  | closed ht _ =>
      rw [ht]
      exact hfit
  | wrote h =>
      apply h.sizesFit hfit
      rw [← h.inodeNum]
      exact hc
  | removed h =>
      intro j hj
      obtain ⟨n, hle, hn⟩ := h.entry.inode j
      rw [FileSystem.IsNormal, hn] at hj
      rw [hn]
      exact le_trans hle (hfit j hj)

theorem Blank.sizesFit (h : Blank fs) : SizesFit fs := by
  intro i hi
  by_cases hzero : i = 0
  · rw [hzero, h.root]
    exact Nat.zero_le _
  · rw [h.others i hzero]
    exact Nat.zero_le _

theorem Formatted.sizesFit {k : Kernel δ} (h : Formatted k) : SizesFit k.fs := by
  refine h.invariant (I := fun k ↦ SizesFit k.fs) ?_ (fun _ _ hI ↦ hI) (fun hb _ ↦ hb.sizesFit)
  intro k k' c v hI hc hx
  refine (exec_ok hx).sizesFit hI ?_
  cases hc with
  | createFiletype => trivial
  | openFile => trivial

/-- Reading a normal file that fits into its block returns. -/
theorem SizesFit.read {k : Kernel δ} (h : SizesFit k.fs) {fd : Nat} (hfd : fd < descriptorCount)
    (hnormal : k.fs.IsNormal (k.fs.globalFdTable.entry fd).inodeNum) (buf : Bytes)
    (count : Nat) : ∃ r, Fs.read k fd buf count = .ok r := by
  obtain ⟨buf', hx, -⟩ := read_returns hfd rfl hnormal.lt hnormal.not_isSpecial
    (h _ hnormal) buf count
  exact ⟨_, hx⟩

/-- **Write semantics.**  In every state, a write through a descriptor of a normal file does
what it promises if and only if it is at the end of the file.  And as long as all are, every
normal file fits into its block, and reading it does not leave the buffer. -/
theorem write_appends_iff :
    (∀ {k : Kernel δ} {fd : Nat}, fd < descriptorCount →
      k.fs.IsNormal (k.fs.globalFdTable.entry fd).inodeNum →
      (k.fs.globalFdTable.entry fd).writePos ≤ blockBytes → ∀ buf count,
      (WriteSemantics k fd buf count ↔ WritesAtEnd k.fs fd count)) ∧
    ∀ {k₀ k : Kernel δ}, Formatted k₀ → Reaches FsCall.exec KeepsSizes k₀ k →
      SizesFit k.fs ∧ ∀ fd < descriptorCount,
        k.fs.IsNormal (k.fs.globalFdTable.entry fd).inodeNum →
        ∀ buf count, ∃ r, Fs.read k fd buf count = .ok r := by
  refine ⟨writeSemantics_iff, fun h₀ h ↦ ?_⟩
  have hfit := Reaches.invariant (I := fun k ↦ SizesFit k.fs) h h₀.sizesFit
    fun hI hc hx ↦ (exec_ok hx).sizesFit hI hc
  exact ⟨hfit, fun fd hfd hnormal ↦ hfit.read hfd hnormal⟩

/-- A program that fills a file in two writes, and reads it through another descriptor. -/
def fillCalls : List FsCall :=
  [.create (.literal "/a") fun _ ↦ 0, .write 2 (fun _ ↦ 7) 10,
    .write 2 (fun _ ↦ 7) 5000, .openFile (.literal "/a")]

theorem fillCalls_append : ∃ k, runCalls FsCall.exec KeepsSizes fillCalls terminalKernel = some k ∧
    SizesFit k.fs ∧ WriteSemantics k 2 (fun _ ↦ 7) 1 ∧
    ∃ r, Fs.read k (3 : Nat) (fun _ ↦ 0) 5000 = .ok r := by
  obtain ⟨k, hk, hcheck⟩ := (Option.any_eq_true _ _).mp
    (show (runCalls FsCall.exec KeepsSizes fillCalls terminalKernel).any (fun k ↦
      decide (k.fs.IsNormal (k.fs.globalFdTable.entry 3).inodeNum ∧
        k.fs.IsNormal (k.fs.globalFdTable.entry 2).inodeNum ∧
        (k.fs.globalFdTable.entry 2).writePos ≤ blockBytes ∧ WritesAtEnd k.fs 2 1)) = true by
      decide +kernel)
  obtain ⟨hnormal, hnormal', hpos, hend⟩ := of_decide_eq_true hcheck
  obtain ⟨hfit, hread⟩ := (write_appends_iff (δ := Unit)).2 formatted_terminalKernel
    (reaches_of_runCalls hk)
  exact ⟨k, hk, hfit, ((write_appends_iff (δ := Unit)).1 (by decide) hnormal' hpos _ _).mpr hend,
    hread 3 (by decide) hnormal _ _⟩

/-- A program that fills a file, and writes over its first byte. -/
def overwriteCalls : List FsCall :=
  [.create (.literal "/a") fun _ ↦ 0, .write 2 (fun _ ↦ 7) 4096, .seek 2 0 0]

/-- **Writing over the first byte of a full file breaks the promise**: the file gets larger
than its block, and reading it goes past the buffer. -/
theorem overwriteCalls_grow : Formatted terminalKernel ∧
    ∃ k, runCalls FsCall.exec (fun _ _ ↦ True) overwriteCalls terminalKernel = some k ∧
      k.fs.IsNormal (k.fs.globalFdTable.entry 2).inodeNum ∧
      (k.fs.globalFdTable.entry 2).writePos ≤ blockBytes ∧
      ¬ WriteSemantics k 2 (fun _ ↦ 8) 1 ∧
      ∃ k', runCalls FsCall.exec (fun _ _ ↦ True) [.write 2 (fun _ ↦ 8) 1] k = some k' ∧
        ¬ SizesFit k'.fs ∧ Fs.read k' (2 : Nat) (fun _ ↦ 0) 4097 = .error .fault := by
  obtain ⟨k, hk, hcheck⟩ := (Option.any_eq_true _ _).mp
    (show (runCalls FsCall.exec (fun _ _ ↦ True) overwriteCalls terminalKernel).any (fun k ↦
      decide (k.fs.IsNormal (k.fs.globalFdTable.entry 2).inodeNum ∧
        (k.fs.globalFdTable.entry 2).writePos ≤ blockBytes ∧ ¬ WritesAtEnd k.fs 2 1) &&
      (runCalls FsCall.exec (fun _ _ ↦ True) [.write 2 (fun _ ↦ 8) 1] k).any (fun k' ↦
        decide (k'.fs.IsNormal (k'.fs.globalFdTable.entry 2).inodeNum ∧
          blockBytes < (k'.fs.inode (k'.fs.globalFdTable.entry 2).inodeNum).size ∧
          (k'.fs.globalFdTable.entry 2).readPos = 0))) = true by
      decide +kernel)
  rw [Bool.and_eq_true] at hcheck
  obtain ⟨hnormal, hpos, hend⟩ := of_decide_eq_true hcheck.1
  obtain ⟨k', hk', hcheck'⟩ := (Option.any_eq_true _ _).mp hcheck.2
  obtain ⟨hnormal', hsize, hread⟩ := of_decide_eq_true hcheck'
  refine ⟨formatted_terminalKernel, k, hk, hnormal, hpos, ?_, k', hk', fun hfit ↦ ?_, ?_⟩
  · rw [writeSemantics_iff (by decide) hnormal hpos]
    exact hend
  · exact absurd (hfit _ hnormal') (Nat.not_le.mpr hsize)
  · apply read_faults (by decide) rfl hnormal'.lt hnormal'.not_isSpecial hsize
    · rw [hread]
      exact Nat.zero_le _
    · rw [hread]
      decide

end Yorha.Fs
