import Yorha.Fs.Format
import Yorha.Util.Bounds

/-!
# Descriptors that are not checked

`close` and `seek` take any number for a descriptor.

`close` narrows it to 32 bits and clears the bit of this number, in the words of the table that
follow the bitmap too; and it returns -1, whatever it did.  So it never reports that it closed a
descriptor, and it is harmless exactly when the bit it clears is clear already
(`closeReports_iff`).

`seek` looks at the mark of the number modulo 32, and returns the low half of the new cursor as
a signed number.  What it returns is the cursor if this is below 2 ^ 31, and -1 may mean that
the cursors have been moved (`seekReports_iff`).
-/

namespace Yorha.Fs

open Yorha.Lib Yorha.Str Yorha.Util

variable {δ : Type}

/-! ## The words of the table -/

/-- Storing a word of the name leaves the other words. -/
theorem FileDescriptorEntry.word_setWord_name (e : FileDescriptorEntry) {w w' : Nat} (hw : w < 8)
    (v : Word) : (e.setWord w v).word w' = if w = w' then v else e.word w' := by
  by_cases hw' : w' < 8
  · simp only [word, setWord, if_pos hw, if_pos hw']
    split
    · rename_i h
      subst h
      rw [Bytes.word_splice _ _ _ v.isLt, BitVec.ofNat_toNat, BitVec.setWidth_eq]
    · congr 1
      refine Bytes.word_congr fun i hi ↦ Bytes.splice_of_notMem ?_
      rw [Bytes.length_ofWord]
      omega
  · have hne : w ≠ w' := by omega
    simp only [word, setWord, if_pos hw, if_neg hw', if_neg hne]

/-- Storing another word leaves the name. -/
theorem FileDescriptorEntry.name_setWord (e : FileDescriptorEntry) {w : Nat} (hw : ¬ w < 8)
    (v : Word) : (e.setWord w v).name = e.name := by
  unfold setWord
  rw [if_neg hw]
  split <;> rfl

/-- Storing a word of an entry leaves the other words. -/
theorem FileDescriptorEntry.word_setWord (e : FileDescriptorEntry) {w w' : Nat}
    (hw : w < descriptorWords) (hw' : w' < descriptorWords) (v : Word) :
    (e.setWord w v).word w' = if w = w' then v else e.word w' := by
  by_cases hname : w < 8
  · exact word_setWord_name e hname v
  · by_cases hname' : w' < 8
    · have hne : w ≠ w' := by omega
      unfold word
      rw [name_setWord e hname, if_pos hname', if_neg hne, if_pos hname']
    · have hw : w < 14 := hw
      have hw' : w' < 14 := hw'
      have hv := v.isLt
      -- a cursor is stored in halves, and each half leaves the other
      have hcases : ∀ j, ¬ j < 8 → j < 14 → j = 8 ∨ j = 9 ∨ j = 10 ∨ j = 11 ∨ j = 12 ∨ j = 13 := by
        omega
      rcases hcases w hname hw with rfl | rfl | rfl | rfl | rfl | rfl <;>
        rcases hcases w' hname' hw' with rfl | rfl | rfl | rfl | rfl | rfl <;>
        (simp only [word, setWord]; apply BitVec.eq_of_toNat_eq; simp [BitVec.toNat_ofNat]; try omega)

instance : LawfulWordArray FileDescriptorTable where
  get_set := by
    intro t i j v hi
    have hsize : i < 1 + 14 * 32 := hi
    by_cases hi₀ : i = 0
    · subst hi₀
      by_cases hj : j = 0
      · subst hj
        rfl
      · have hset : WordArray.set t 0 v = { t with bitmap := v } := rfl
        have hget : ∀ t' : FileDescriptorTable, WordArray.get t' j =
            (t'.entry ((j - 1) / descriptorWords)).word ((j - 1) % descriptorWords) :=
          fun t' ↦ if_neg hj
        rw [hset, hget, hget, if_neg (Ne.symm hj)]
        rfl
    · have hset : WordArray.set t i v = t.setEntry ((i - 1) / descriptorWords)
          ((t.entry ((i - 1) / descriptorWords)).setWord ((i - 1) % descriptorWords) v) :=
        if_neg hi₀
      by_cases hj : j = 0
      · subst hj
        rw [hset, if_neg hi₀]
        rfl
      · have hget : ∀ t' : FileDescriptorTable, WordArray.get t' j =
            (t'.entry ((j - 1) / descriptorWords)).word ((j - 1) % descriptorWords) :=
          fun t' ↦ if_neg hj
        have hfd : (i - 1) / descriptorWords < descriptorCount := by
          change (i - 1) / 14 < 32
          omega
        have hmod : ∀ n, n % descriptorWords < descriptorWords := fun n ↦ Nat.mod_lt n (by decide)
        rw [hset, hget, hget, FileDescriptorTable.entry_setEntry _ hfd]
        by_cases hentry : (j - 1) / descriptorWords = (i - 1) / descriptorWords
        · rw [if_pos hentry, FileDescriptorEntry.word_setWord _ (hmod _) (hmod _), hentry]
          refine if_congr ⟨fun hword ↦ ?_, fun heq ↦ by rw [heq]⟩ rfl rfl
          change (j - 1) / 14 = (i - 1) / 14 at hentry
          change (i - 1) % 14 = (j - 1) % 14 at hword
          omega
        · have hne : i ≠ j := fun heq ↦ hentry (by rw [heq])
          rw [if_neg hentry, if_neg hne]

/-! ## `close` -/

/-- A kernel with another descriptor table. -/
def Kernel.withTable (k : Kernel δ) (table : FileDescriptorTable) : Kernel δ :=
  { k with fs := { k.fs with globalFdTable := table } }

/-- `close(fd)` returns 0 and clears the bit of `fd`, if that is a descriptor in use;
otherwise it returns -1, and leaves every bit of the table. -/
def CloseReports (k : Kernel δ) (fd : Int) : Prop :=
  if 0 ≤ fd ∧ fd < descriptorCount ∧ k.fs.globalFdTable.marked fd.toNat = true then
    ∃ table, close k fd = .ok (0, k.withTable table) ∧
      WordArray.Filled k.fs.globalFdTable table fd.toNat 1 false
  else
    ∃ table, close k fd = .ok (-1, k.withTable table) ∧
      ∀ b, WordArray.bit table b = WordArray.bit k.fs.globalFdTable b

/-- Where `close` clears nothing: it is told -1, or its bit is one of the table and clear. -/
def ClearsNothing (table : FileDescriptorTable) (fd : Int) : Prop :=
  toUint32 fd = 2 ^ 32 - 1 ∨ BitInside FileDescriptorTable (toUint32 fd) ∧
    WordArray.bit table (toUint32 fd % 2 ^ 21) = false

theorem close_returns_minusOne {k k' : Kernel δ} {fd v : Int} (h : close k fd = .ok (v, k')) :
    v = -1 := by
  simp only [close, bind_eq_ok] at h
  obtain ⟨table, -, h⟩ := h
  cases h
  rfl

theorem toUint32_lt (n : Int) : toUint32 n < 2 ^ 32 := by
  rw [toUint32]
  omega

/-- What `close` leaves is the table with a bit cleared. -/
theorem close_eq_ok {k : Kernel δ} {fd : Int} {table : FileDescriptorTable} :
    close k fd = .ok (-1, k.withTable table) ↔
      deallocBitrange k.fs.globalFdTable ⟨toUint32 fd, 1⟩ = .ok table := by
  constructor
  · intro h
    obtain ⟨table', h', hk⟩ := bind_eq_ok.mp h
    have hkernel : k.withTable table' = k.withTable table :=
      (Prod.ext_iff.mp (Except.ok.inj hk)).2
    have htable : table' = table := congrArg (fun k : Kernel δ ↦ k.fs.globalFdTable) hkernel
    rwa [htable] at h'
  · intro h
    simp only [close, h, ok_bind, Kernel.withTable]

/-- The bits are the same after the update exactly where `ClearsNothing` says so. -/
theorem clearsNothing_iff (table : FileDescriptorTable) (fd : Int) : ClearsNothing table fd ↔
    ∃ table', deallocBitrange table ⟨toUint32 fd, 1⟩ = .ok table' ∧
      ∀ b, WordArray.bit table' b = WordArray.bit table b := by
  rcases applyBitrange_single (toUint32_lt fd) (by decide) table false with
    ⟨hlast, h⟩ | ⟨hin, table', h, hfill⟩ | ⟨hout, hno⟩
  · exact ⟨fun _ ↦ ⟨table, h, fun _ ↦ rfl⟩, fun _ ↦ .inl hlast⟩
  · constructor
    · rintro (hlast | ⟨-, hclear⟩)
      · rw [hlast] at hin
        exact absurd hin (by decide)
      · refine ⟨table', h, fun b ↦ ?_⟩
        rw [hfill.single]
        split
        · rename_i hb
          rw [hb, hclear]
        · rfl
    · rintro ⟨table₁, h₁, hsame⟩
      obtain rfl : table' = table₁ := Except.ok.inj (h.symm.trans h₁)
      refine .inr ⟨hin, ?_⟩
      rw [← hsame]
      exact hfill.eq_of_mem le_rfl (Nat.lt_succ_self _)
  · constructor
    · rintro (hlast | ⟨hin, -⟩)
      · exact absurd (.inl hlast) hout
      · exact absurd (.inr hin) hout
    · rintro ⟨table', h, -⟩
      exact absurd h (hno table')

/-- **When `close` reports what it did**: `fd` is no descriptor in use, and the bit that it is
taken for is clear. -/
theorem closeReports_iff (k : Kernel δ) (fd : Int) : CloseReports k fd ↔
    ¬ (0 ≤ fd ∧ fd < descriptorCount ∧ k.fs.globalFdTable.marked fd.toNat = true) ∧
      ClearsNothing k.fs.globalFdTable fd := by
  rw [CloseReports]
  split
  · rename_i hused
    refine ⟨?_, fun h ↦ absurd hused h.1⟩
    rintro ⟨table, h, -⟩
    exact absurd (close_returns_minusOne h) (by decide)
  · rename_i hfree
    rw [and_iff_right hfree, clearsNothing_iff]
    exact exists_congr fun table ↦ and_congr_left fun _ ↦ close_eq_ok

/-- **Closing an open descriptor reports a failure**, and closing 2097152 closes descriptor 0. -/
theorem not_closeReports : Formatted terminalKernel ∧
    value (close terminalKernel 0) = some (-1) ∧ ¬ CloseReports terminalKernel 0 ∧
    (close terminalKernel 2097152).toOption.any
      (fun r ↦ !r.2.fs.globalFdTable.marked 0) = true ∧
    ¬ CloseReports terminalKernel 2097152 := by
  refine ⟨formatted_terminalKernel, by decide +kernel, ?_, by decide +kernel, ?_⟩
  · rw [CloseReports, if_pos (by decide +kernel)]
    rintro ⟨table, h, -⟩
    exact absurd (close_returns_minusOne h) (by decide)
  · rw [CloseReports, if_neg (by decide)]
    rintro ⟨table, h, hsame⟩
    have hmark : table.marked 0 = false := by
      have hcleared : (close terminalKernel 2097152).toOption.any
        (fun r ↦ !r.2.fs.globalFdTable.marked 0) = true := by decide +kernel
      rw [h] at hcleared
      exact Bool.not_eq_true' _ |>.mp hcleared
    have hbit := hsame 0
    rw [bit_table _ (by decide), bit_table _ (by decide), hmark] at hbit
    exact absurd hbit (by decide +kernel)

/-! ## `seek` -/

/-- The modes of `seek`. -/
inductive Whence where
  | seekSet
  | seekCur
  | seekEnd
deriving DecidableEq

/-- The number of a mode. -/
def Whence.param : Whence → Nat
  | .seekSet => 0
  | .seekCur => 1
  | .seekEnd => 2

/-- Where a cursor is moved to. -/
def Whence.target (fs : FileSystem) (e : FileDescriptorEntry) (offset : Int) (pos : Nat) :
    Whence → Nat
  | .seekSet => toUint64 offset
  | .seekCur => toUint64 (pos + offset)
  | .seekEnd => toUint32 ((fs.inode e.inodeNum).size - offset)

/-- `seek` returns; if it returns -1 the table is unchanged, and otherwise `fd` is a descriptor
in use and what it returns is the new read cursor. -/
def SeekReports (k : Kernel δ) (fd offset : Int) (mode : Whence) : Prop :=
  ∃ r k', seek k fd offset mode.param = .ok (r, k') ∧
    (r = -1 → k'.fs.globalFdTable = k.fs.globalFdTable) ∧
    (r ≠ -1 → 0 ≤ fd ∧ fd < descriptorCount ∧ k.fs.globalFdTable.marked fd.toNat = true ∧
      r = ((k'.fs.globalFdTable.entry fd.toNat).readPos : Int))

/-- The new read cursor fits into what `seek` returns; or it reads as -1 there, and both cursors
stay where they are. -/
def CursorFits (fs : FileSystem) (fd : Nat) (offset : Int) (mode : Whence) : Prop :=
  let e := fs.globalFdTable.entry fd
  (mode = .seekEnd → e.inodeNum < inodeCount) ∧
    (mode.target fs e offset e.readPos < 2 ^ 31 ∨
      mode.target fs e offset e.readPos % 2 ^ 32 = 2 ^ 32 - 1 ∧
      mode.target fs e offset e.readPos = e.readPos ∧
      mode.target fs e offset e.writePos = e.writePos)

/-- The `switch`: both cursors are moved in one way. -/
theorem moveCursors_param (fs : FileSystem) (e : FileDescriptorEntry) (offset : Int)
    (mode : Whence) : moveCursors fs e offset mode.param =
      if mode = .seekEnd → e.inodeNum < inodeCount then
        .ok { e with readPos := mode.target fs e offset e.readPos
                     writePos := mode.target fs e offset e.writePos }
      else .error .fault := by
  cases mode with
  | seekSet => rw [if_pos (fun h ↦ nomatch h)]; rfl
  | seekCur => rw [if_pos (fun h ↦ nomatch h)]; rfl
  | seekEnd =>
      rw [Whence.param, moveCursors, FileSystem.readInode]
      by_cases h : e.inodeNum < inodeCount
      · rw [if_pos h, if_pos fun _ ↦ h]
        rfl
      · rw [if_neg h, if_neg fun hall ↦ h (hall rfl)]
        rfl

/-- What is returned is the cursor if that is below 2 ^ 31. -/
theorem toInt32_eq_iff {n : Nat} : toInt32 (n % 2 ^ 32) = n ↔ n < 2 ^ 31 := by
  rw [toInt32]
  split
  · omega
  · omega

theorem toInt32_eq_minusOne {n : Nat} : toInt32 (n % 2 ^ 32) = -1 ↔ n % 2 ^ 32 = 2 ^ 32 - 1 := by
  rw [toInt32]
  split
  · omega
  · omega

/-- Storing an entry back changes nothing, and nothing else does. -/
theorem setEntry_eq_self {t : FileDescriptorTable} {fd : Nat} (h : fd < descriptorCount)
    (e : FileDescriptorEntry) : t.setEntry fd e = t ↔ e = t.entry fd := by
  constructor
  · intro heq
    have hentry := FileDescriptorTable.entry_setEntry t h e fd
    rw [heq, if_pos rfl] at hentry
    exact hentry.symm
  · rintro rfl
    exact setEntry_entry t h

/-- `seek` on a descriptor in use. -/
theorem seek_marked {k : Kernel δ} {fd : Int} (hfd : 0 ≤ fd ∧ fd < descriptorCount)
    (hmark : k.fs.globalFdTable.marked fd.toNat = true) (offset : Int) (mode : Whence) :
    seek k fd offset mode.param =
      let e := k.fs.globalFdTable.entry fd.toNat
      let readPos := mode.target k.fs e offset e.readPos
      if mode = .seekEnd → e.inodeNum < inodeCount then
        .ok (toInt32 (readPos % 2 ^ 32), k.withTable (k.fs.globalFdTable.setEntry fd.toNat
          { e with readPos := readPos, writePos := mode.target k.fs e offset e.writePos }))
      else .error .fault := by
  have hmod : fd % 32 = fd := Int.emod_eq_of_lt hfd.1 hfd.2
  rw [seek, hmod, if_pos hmark, entryIndex, if_pos hfd, ok_bind, moveCursors_param]
  by_cases hin : mode = .seekEnd → (k.fs.globalFdTable.entry fd.toNat).inodeNum < inodeCount
  · simp only [if_pos hin]
    rfl
  · simp only [if_neg hin]
    rfl

/-- What `seek` reports of a descriptor in use. -/
theorem seekReports_of_marked {k : Kernel δ} {fd : Int} (hfd : 0 ≤ fd ∧ fd < descriptorCount)
    (hused : k.fs.globalFdTable.marked fd.toNat = true) (offset : Int) (mode : Whence) :
    SeekReports k fd offset mode ↔ CursorFits k.fs fd.toNat offset mode := by
  have hlt : fd.toNat < descriptorCount := by omega
  rw [SeekReports, seek_marked hfd hused, CursorFits]
  by_cases hin : mode = .seekEnd → (k.fs.globalFdTable.entry fd.toNat).inodeNum < inodeCount
  · simp only [if_pos hin, and_iff_right hin]
    constructor
    · rintro ⟨r, k', h, hneg, hpos⟩
      obtain ⟨rfl, rfl⟩ := Prod.ext_iff.mp (Except.ok.inj h)
      by_cases hr : toInt32 (mode.target k.fs (k.fs.globalFdTable.entry fd.toNat) offset
          (k.fs.globalFdTable.entry fd.toNat).readPos % 2 ^ 32) = -1
      · have htable := (setEntry_eq_self hlt _).mp (hneg hr)
        exact .inr ⟨toInt32_eq_minusOne.mp hr, congrArg FileDescriptorEntry.readPos htable,
          congrArg FileDescriptorEntry.writePos htable⟩
      · have hcursor := (hpos hr).2.2.2
        simp only [Kernel.withTable, FileDescriptorTable.entry_setEntry _ hlt, if_true]
          at hcursor
        exact .inl (toInt32_eq_iff.mp hcursor)
    · intro hfits
      refine ⟨_, _, rfl, fun hr ↦ ?_, fun hr ↦ ⟨hfd.1, hfd.2, hused, ?_⟩⟩
      · rw [toInt32_eq_minusOne] at hr
        rcases hfits with hsmall | ⟨-, hread, hwrite⟩
        · omega
        · refine (setEntry_eq_self hlt _).mpr ?_
          rw [hread, hwrite]
      · simp only [Kernel.withTable, FileDescriptorTable.entry_setEntry _ hlt, if_true]
        rcases hfits with hsmall | ⟨hlow, -⟩
        · exact toInt32_eq_iff.mpr hsmall
        · exact absurd (toInt32_eq_minusOne.mpr hlow) hr
  · simp only [if_neg hin]
    constructor
    · rintro ⟨r, k', h, -⟩
      cases h
    · exact fun h ↦ absurd h.1 hin

/-- A number that is taken for a descriptor in use, and is none, is an index outside of the
table. -/
theorem not_seekReports_of_outside {k : Kernel δ} {fd : Int}
    (hfd : ¬ (0 ≤ fd ∧ fd < descriptorCount))
    (hmark : k.fs.globalFdTable.marked (fd % 32).toNat = true) (offset : Int) (mode : Whence) :
    ¬ SeekReports k fd offset mode := by
  rintro ⟨r, k', h, -⟩
  rw [seek, if_pos hmark, entryIndex, if_neg hfd] at h
  cases h

/-- **When `seek` reports what it did**: the mark it looks at is clear, or `fd` is a descriptor of
the table and the new cursor fits into the result. -/
theorem seekReports_iff (k : Kernel δ) (fd offset : Int) (mode : Whence) :
    SeekReports k fd offset mode ↔
      k.fs.globalFdTable.marked (fd % 32).toNat = false ∨
      (0 ≤ fd ∧ fd < descriptorCount) ∧ CursorFits k.fs fd.toNat offset mode := by
  by_cases hmark : k.fs.globalFdTable.marked (fd % 32).toNat = true
  · rw [hmark, or_iff_right (by decide)]
    by_cases hfd : 0 ≤ fd ∧ fd < descriptorCount
    · have hmod : fd % 32 = fd := Int.emod_eq_of_lt hfd.1 hfd.2
      rw [hmod] at hmark
      rw [and_iff_right hfd]
      exact seekReports_of_marked hfd hmark offset mode
    · constructor
      · exact fun h ↦ absurd h (not_seekReports_of_outside hfd hmark offset mode)
      · exact fun h ↦ absurd h.1 hfd
  · refine ⟨fun _ ↦ .inl (Bool.eq_false_iff.mpr hmark), fun _ ↦ ⟨-1, k, ?_, fun _ ↦ rfl, ?_⟩⟩
    · rw [seek, if_neg hmark]
    · exact fun h ↦ absurd rfl h

/-- **`seek` fails and moves the cursors**: told to go to -1, it returns -1 and does so. -/
theorem not_seekReports : Formatted terminalKernel ∧
    value (seek terminalKernel 0 (-1) Whence.seekSet.param) = some (-1) ∧
    ¬ SeekReports terminalKernel 0 (-1) .seekSet := by
  have hmoved : (seek terminalKernel 0 (-1) Whence.seekSet.param).toOption.any (fun r ↦
      decide (r.1 = -1 ∧ (r.2.fs.globalFdTable.entry 0).readPos ≠
        (terminalKernel.fs.globalFdTable.entry 0).readPos)) = true := by decide +kernel
  refine ⟨formatted_terminalKernel, by decide +kernel, ?_⟩
  rintro ⟨r, k', h, hneg, -⟩
  rw [h] at hmoved
  obtain ⟨hr, hread⟩ := of_decide_eq_true hmoved
  exact hread (by rw [hneg hr])

end Yorha.Fs
