import Yorha.Fs.Full
import Yorha.Lib.Logged

/-!
# Taking an entry out of a directory

`unlink_file_in_dir` looks for the first entry with an inode number, and moves every entry
behind it back by one place.  If the numbers are distinct, what is left are the entries with
other numbers, in their order.

The last move copies from the entry behind the last one.  In a directory of 113 entries this is
`contents[113]`, which does not exist: it is the only access outside the array
(`removesEntry_iff`).
-/

namespace Yorha.Fs

open Yorha.Lib Yorha.Str Yorha.Util

variable {fs : FileSystem} {d i n entry : Nat} {past buf : Bytes}

/-! ## The elements that are accessed -/

/-- `findEntry`, with the elements of `contents` that it looks at. -/
def findEntryAccesses (buf : Bytes) (fileInodeNum : Nat) :
    Nat → Nat → Logged Nat Stop (Option Nat)
  | 0, _ => pure none
  | n + 1, entry => do
      let inodeNum ← .note entry
        (if entry < dirFileCountMax then .ok (entryInodeNum buf entry) else .error .fault)
      if inodeNum = fileInodeNum then pure (some entry)
      else findEntryAccesses buf fileInodeNum n (entry + 1)

/-- `moveEntries`, with the elements that are read and written. -/
def moveEntriesAccesses (past : Bytes) : Nat → Nat → Bytes → Logged Nat Stop Bytes
  | 0, _, buf => pure buf
  | n + 1, entry, buf => do
      let moved ← .note (entry + 1) (.ok (moveEntry past buf entry))
      let buf ← .note entry (if entry < dirFileCountMax then .ok moved else .error .fault)
      moveEntriesAccesses past n (entry + 1) buf

/-- `unlinkFileInDir`, with the elements of `contents` that it accesses. -/
def unlinkFileInDirAccesses (fs : FileSystem) (dirInodeNum fileInodeNum : Nat) (past : Bytes) :
    Logged Nat Stop FileSystem := do
  let dirInode ← .lift (fs.readInode dirInodeNum)
  let buf := ataReadBlock fs.disk dirInode.dataBlockStart
  let files := dirInode.size / entryBytes
  match ← findEntryAccesses buf fileInodeNum files 0 with
  | some entry => do
      let buf ← moveEntriesAccesses past (files - entry) entry buf
      let fs := fs.setInode dirInodeNum { dirInode with size := dirInode.size - entryBytes }
      pure { fs with disk := ataWriteBlock fs.disk dirInode.dataBlockStart buf }
  | none => pure { fs with disk := ataWriteBlock fs.disk dirInode.dataBlockStart buf }

@[simp] theorem findEntryAccesses_result (n entry : Nat) :
    (findEntryAccesses buf i n entry).result = findEntry buf i n entry := by
  induction n generalizing entry with
  | zero => rfl
  | succ n ih =>
      rw [findEntryAccesses, findEntry, Logged.result_bind, Logged.result_note]
      split
      · rw [ok_bind, Logged.result_ite, ih]
        rfl
      · rfl

@[simp] theorem moveEntriesAccesses_result (n entry : Nat) :
    (moveEntriesAccesses past n entry buf).result = moveEntries past n entry buf := by
  induction n generalizing entry buf with
  | zero => rfl
  | succ n ih =>
      rw [moveEntriesAccesses, moveEntries, Logged.result_bind, Logged.result_note, ok_bind,
        Logged.result_bind, Logged.result_note]
      split
      · rw [ok_bind, ih]
      · rfl

/-- **What is logged is `unlink_file_in_dir`.** -/
theorem unlinkFileInDirAccesses_result (fs : FileSystem) (d i : Nat) (past : Bytes) :
    (unlinkFileInDirAccesses fs d i past).result = unlinkFileInDir fs d i past := by
  rw [unlinkFileInDirAccesses, unlinkFileInDir, Logged.result_bind, Logged.result_lift]
  refine bind_congr fun dirInode ↦ ?_
  rw [Logged.result_bind, findEntryAccesses_result]
  refine bind_congr fun o ↦ ?_
  cases o with
  | none => rfl
  | some entry =>
      simp only [Logged.result_bind, moveEntriesAccesses_result]
      rfl

theorem findEntryAccesses_lt {m : Nat} (hm : entry + n ≤ m) :
    (findEntryAccesses buf i n entry).All (· < m) := by
  induction n generalizing entry with
  | zero => exact Logged.all_pure _
  | succ n ih =>
      have hentry : entry < m := by omega
      refine Logged.all_bind.mpr ⟨Logged.all_note.mpr hentry, fun inodeNum _ ↦ ?_⟩
      split
      · exact Logged.all_pure _
      · exact ih (by omega)

theorem moveEntriesAccesses_lt {m : Nat} (hm : entry + n < m) :
    (moveEntriesAccesses past n entry buf).All (· < m) := by
  induction n generalizing entry buf with
  | zero => exact Logged.all_pure _
  | succ n ih =>
      have hnext : entry + 1 < m := by omega
      have hentry : entry < m := by omega
      refine Logged.all_bind.mpr ⟨Logged.all_note.mpr hnext, fun moved _ ↦ ?_⟩
      exact Logged.all_bind.mpr ⟨Logged.all_note.mpr hentry, fun _ _ ↦ ih (by omega)⟩

/-- The last move reads the element behind the last entry. -/
theorem lt_of_moveEntriesAccesses {m : Nat} (hn : 0 < n) (hmax : entry + n ≤ dirFileCountMax)
    (h : (moveEntriesAccesses past n entry buf).All (· < m)) : entry + n < m := by
  induction n generalizing entry buf with
  | zero => exact absurd hn (Nat.lt_irrefl 0)
  | succ n ih =>
      obtain ⟨hnext, hrest⟩ := Logged.all_bind.mp h
      obtain ⟨-, hrest⟩ := Logged.all_bind.mp (hrest _ rfl)
      rcases Nat.eq_zero_or_pos n with rfl | hpos
      · have hlast := Logged.all_note.mp hnext
        omega
      · have hentry : entry < dirFileCountMax := by omega
        have hlast := ih hpos (by omega) (hrest _ (if_pos hentry))
        omega

/-! ## Erasing -/

/-- The inode numbers of a directory's entries. -/
def FileSystem.numbers (fs : FileSystem) (d : Nat) : List Nat := (fs.entries d).map Prod.snd

/-- What `unlink_file_in_dir` should do: leave the entries with other numbers, make the directory
smaller by an entry if there was one to remove and else change nothing, and access only the 113
elements of `contents`. -/
structure RemovesEntry (fs : FileSystem) (d i : Nat) (past : Bytes) (fs' : FileSystem) : Prop where
  returns : unlinkFileInDir fs d i past = .ok fs'
  entries : fs'.entries d = (fs.entries d).filter fun e ↦ e.2 ≠ i
  size : (fs'.inode d).size =
    if i ∈ fs.numbers d then (fs.inode d).size - entryBytes else (fs.inode d).size
  absent : i ∉ fs.numbers d → fs' = fs
  inode : ∀ j ≠ d, fs'.inode j = fs.inode j
  block : ∀ b, blockAddress b ≠ blockAddress (fs.inode d).dataBlockStart →
    ataReadBlock fs'.disk b = ataReadBlock fs.disk b
  accesses : (unlinkFileInDirAccesses fs d i past).All (· < dirFileCountMax)

/-- Where the numbers are distinct, to erase the first entry of one is to erase all. -/
theorem eraseP_eq_filter {l : List (Name × Nat)} (h : (l.map Prod.snd).Nodup) :
    (l.eraseP fun e ↦ e.2 = i) = l.filter fun e ↦ e.2 ≠ i := by
  induction l with
  | nil => rfl
  | cons p l ih =>
      rw [List.map_cons, List.nodup_cons] at h
      rw [List.eraseP_cons, List.filter_cons]
      by_cases hp : p.2 = i
      · subst hp
        have hrest : l.filter (fun e ↦ e.2 ≠ p.2) = l := by
          refine List.filter_eq_self.mpr fun e he ↦ ?_
          rw [decide_eq_true_eq]
          rintro heq
          exact h.1 (heq ▸ List.mem_map_of_mem he)
        simp only [decide_true, cond_true, ne_eq, not_true_eq_false, decide_false,
          Bool.false_eq_true, if_false]
        exact hrest.symm
      · simp only [hp, decide_false, cond_false, ne_eq, not_false_eq_true, decide_true, if_true]
        rw [ih h.2]

theorem filter_of_absent {l : List (Name × Nat)} (h : i ∉ l.map Prod.snd) :
    l.filter (fun e ↦ e.2 ≠ i) = l := by
  refine List.filter_eq_self.mpr fun e he ↦ ?_
  rw [decide_eq_true_eq]
  rintro rfl
  exact h (List.mem_map_of_mem he)

/-- The search finds a number exactly if it is there. -/
theorem findIdx?_numbers : (fs.entries d).findIdx? (fun e ↦ e.2 = i) = none ↔ i ∉ fs.numbers d := by
  rw [List.findIdx?_eq_none_iff, FileSystem.numbers]
  constructor
  · intro h hmem
    obtain ⟨e, he, rfl⟩ := List.mem_map.mp hmem
    exact absurd (h e he) (by simp)
  · intro h e he
    refine decide_eq_false fun heq ↦ h ?_
    rw [← heq]
    exact List.mem_map_of_mem he

section

variable (hd : d < inodeCount) (hmax : fs.files d ≤ dirFileCountMax)

include hd hmax

/-- The accesses stay inside, unless an entry is removed from a full directory. -/
theorem accesses_iff (past : Bytes) :
    (unlinkFileInDirAccesses fs d i past).All (· < dirFileCountMax) ↔
      fs.files d < dirFileCountMax ∨ i ∉ fs.numbers d := by
  have hread : fs.readInode d = .ok (fs.inode d) := FileSystem.readInode_eq_ok.mpr ⟨hd, rfl⟩
  have hfind : (findEntryAccesses (fs.block d) i (fs.files d) 0).result =
      .ok ((fs.entries d).findIdx? fun e ↦ e.2 = i) := by
    rw [findEntryAccesses_result, findEntry_eq hmax]
  have hsearch : (findEntryAccesses (fs.block d) i (fs.files d) 0).All (· < dirFileCountMax) :=
    findEntryAccesses_lt (by rwa [Nat.zero_add])
  rw [← findIdx?_numbers]
  constructor
  · intro h
    obtain ⟨-, h⟩ := Logged.all_bind.mp h
    obtain ⟨-, h⟩ := Logged.all_bind.mp (h _ hread)
    refine or_iff_not_imp_right.mpr fun hpresent ↦ ?_
    obtain ⟨entry, hfound⟩ := Option.ne_none_iff_exists'.mp hpresent
    have hentry := lt_files_of_findIdx? hfound
    obtain ⟨hmove, -⟩ := Logged.all_bind.mp (h _ (hfind.trans (congrArg Except.ok hfound)))
    have hlast := lt_of_moveEntriesAccesses (Nat.sub_pos_of_lt hentry)
      (show entry + (fs.files d - entry) ≤ dirFileCountMax by omega) hmove
    omega
  · intro h
    refine Logged.all_bind.mpr ⟨Logged.all_lift _, fun dirInode hinode ↦ ?_⟩
    obtain rfl : fs.inode d = dirInode := Except.ok.inj (hread.symm.trans hinode)
    refine Logged.all_bind.mpr ⟨hsearch, fun o ho ↦ ?_⟩
    obtain rfl := Except.ok.inj (hfind.symm.trans ho)
    cases hfound : (fs.entries d).findIdx? fun e ↦ e.2 = i with
    | none => exact Logged.all_pure _
    | some entry =>
        have hentry := lt_files_of_findIdx? hfound
        have hlt : fs.files d < dirFileCountMax :=
          h.resolve_right fun hnone ↦ absurd (hfound.symm.trans hnone) (Option.some_ne_none _)
        refine Logged.all_bind.mpr ⟨moveEntriesAccesses_lt ?_, fun _ _ ↦ Logged.all_pure _⟩
        change entry + (fs.files d - entry) < dirFileCountMax
        omega

/-- Nothing is done where nothing is to be done. -/
theorem removesEntry_of_absent (habsent : i ∉ fs.numbers d) (past : Bytes)
    (haccesses : (unlinkFileInDirAccesses fs d i past).All (· < dirFileCountMax)) :
    RemovesEntry fs d i past fs :=
  ⟨unlinkFileInDir_of_none hd hmax (findIdx?_numbers.mpr habsent) past,
    (filter_of_absent habsent).symm,
    (if_neg habsent).symm, fun _ ↦ rfl, fun _ _ ↦ rfl, fun _ _ ↦ rfl, haccesses⟩

/-- The entry is removed, and nothing else. -/
theorem removesEntry_of_present (hdistinct : (fs.numbers d).Nodup) (hpresent : i ∈ fs.numbers d)
    (past : Bytes)
    (haccesses : (unlinkFileInDirAccesses fs d i past).All (· < dirFileCountMax)) :
    ∃ fs', RemovesEntry fs d i past fs' := by
  obtain ⟨entry, hfound⟩ : ∃ entry, (fs.entries d).findIdx? (fun e ↦ e.2 = i) = some entry :=
    Option.ne_none_iff_exists'.mp fun hnone ↦ findIdx?_numbers.mp hnone hpresent
  obtain ⟨buf, hmove, hreturns⟩ := unlinkFileInDir_of_some hd hmax hfound past
  have hinode := FileSystem.inode_setInode fs hd
    { fs.inode d with size := (fs.inode d).size - entryBytes }
  refine ⟨_, hreturns, ?_, ?_, fun habsent ↦ absurd hpresent habsent, fun j hj ↦ ?_,
    fun b hb ↦ read_write_block_of_ne _ _ hb, haccesses⟩
  · have herase : ((fs.entries d).eraseP fun e ↦ e.2 = i) = (fs.entries d).eraseIdx entry := by
      rw [List.eraseP_eq_eraseIdx, hfound]
    have hfiles : ((fs.inode d).size - entryBytes) / entryBytes = fs.files d - 1 := by
      have hdiv := Nat.sub_mul_div (fs.inode d).size entryBytes 1
      rwa [Nat.mul_one] at hdiv
    rw [← eraseP_eq_filter hdistinct, herase, FileSystem.entries, FileSystem.block,
      FileSystem.files]
    change entriesOf (ataReadBlock (ataWriteBlock _ (fs.inode d).dataBlockStart buf)
      ((fs.setInode d _).inode d).dataBlockStart) (((fs.setInode d _).inode d).size / entryBytes)
        = _
    rw [hinode d, if_pos rfl, read_write_block, hfiles]
    exact entriesOf_moveEntries hmax (lt_files_of_findIdx? hfound) hmove
  · rw [if_pos hpresent]
    exact congrArg FileSystemInode.size ((hinode d).trans (if_pos rfl))
  · exact (hinode j).trans (if_neg hj)

end

/-- **Entry removal.**  In a directory of at most 113 entries with distinct numbers,
`unlink_file_in_dir` removes the entry of an inode and does nothing else, if and only if the
directory is not full or the number is not there. -/
theorem removesEntry_iff (fs : FileSystem) (d i : Nat) (past : Bytes) (hd : d < inodeCount)
    (hmax : fs.files d ≤ dirFileCountMax) (hdistinct : (fs.numbers d).Nodup) :
    (∃ fs', RemovesEntry fs d i past fs') ↔
      fs.files d < dirFileCountMax ∨ i ∉ fs.numbers d := by
  rw [← accesses_iff hd hmax past]
  constructor
  · rintro ⟨fs', h⟩
    exact h.accesses
  · intro haccesses
    by_cases hpresent : i ∈ fs.numbers d
    · exact removesEntry_of_present hd hmax hdistinct hpresent past haccesses
    · exact ⟨fs, removesEntry_of_absent hd hmax hpresent past haccesses⟩

/-- Removing `/a` from a root with `/dev`, `/a` and `/b`. -/
theorem removesEntry_middle : ∃ k fs', runCalls FsCall.exec (fun _ _ ↦ True)
    [.createFiletype (.literal "/a") fileTypeNormal false fun _ ↦ 0,
      .createFiletype (.literal "/b") fileTypeNormal false fun _ ↦ 0] terminalKernel = some k ∧
    k.fs.numbers 0 = [1, 4, 5] ∧ RemovesEntry k.fs 0 4 (fun _ ↦ 0) fs' ∧
    fs'.numbers 0 = [1, 5] := by
  obtain ⟨k, hk, hcheck⟩ := (Option.any_eq_true _ _).mp
    (show (runCalls FsCall.exec (fun _ _ ↦ True)
      [.createFiletype (.literal "/a") fileTypeNormal false fun _ ↦ 0,
        .createFiletype (.literal "/b") fileTypeNormal false fun _ ↦ 0] terminalKernel).any (fun k ↦
      decide (k.fs.files 0 < dirFileCountMax ∧ k.fs.numbers 0 = [1, 4, 5] ∧
        ((k.fs.entries 0).filter fun e ↦ e.2 ≠ 4).map Prod.snd = [1, 5])) = true by
      decide +kernel)
  obtain ⟨hfiles, hnumbers, hrest⟩ := of_decide_eq_true hcheck
  have hdistinct : (k.fs.numbers 0).Nodup := by
    rw [hnumbers]
    decide
  obtain ⟨fs', h⟩ := (removesEntry_iff k.fs 0 4 (fun _ ↦ 0) (by decide) hfiles.le hdistinct).mpr
    (.inl hfiles)
  refine ⟨k, fs', hk, hnumbers, h, ?_⟩
  rw [FileSystem.numbers, h.entries]
  exact hrest

/-- **Removing from a full directory reads behind the array**: `/dev`, which is inode 1, from a
root of 113 entries. -/
theorem fullRoot_removal : Formatted terminalKernel ∧
    ∃ k, Reaches FsCall.exec (fun _ _ ↦ True) terminalKernel k ∧
      k.fs.files 0 = dirFileCountMax ∧ (k.fs.numbers 0).Nodup ∧
      ∀ past, ¬ ∃ fs', RemovesEntry k.fs 0 1 past fs' := by
  obtain ⟨k, hk, hcrowd⟩ := exists_crowded (n := 112) le_rfl
  have hs := hcrowd.inv.quiet.sound
  have hfull : k.fs.files 0 = dirFileCountMax := hcrowd.files
  have hchildren : k.fs.children 0 = k.fs.entries 0 := FileSystem.children_of_isDir hs.root_dir
  have hdistinct := hs.forest.targets hs.root_live
  rw [FileSystem.forest_children, hchildren] at hdistinct
  refine ⟨formatted_terminalKernel, k, hk.mono fun _ _ _ ↦ trivial, hfull, hdistinct, ?_⟩
  rintro past ⟨fs', h⟩
  have hdev : 1 ∈ k.fs.numbers 0 := by
    obtain ⟨l, hl⟩ := Forest.getElem?_of_lookup hcrowd.dev
    rw [hchildren] at hl
    exact List.mem_map.mpr ⟨_, List.mem_of_getElem? hl, rfl⟩
  rcases (accesses_iff (by decide) hfull.le past).mp h.accesses with hlt | habsent
  · exact absurd hfull (Nat.ne_of_lt hlt)
  · exact habsent hdev

end Yorha.Fs
