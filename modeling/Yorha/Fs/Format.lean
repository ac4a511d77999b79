import Yorha.Fs.Preserve

/-!
# Formatted disks

Formatting starts from empty tables (`Blank`), makes the directory `/dev` and the
system files with the calls any program uses, and opens the system files.  So what these
calls preserve holds of a formatted disk if it holds of the empty tables
(`Formatted.invariant`).

A file system is `Quiet` if it is sound and no file but the directories has a size, which
is so as long as nobody writes.  In a quiet file system every path is safe.
-/

namespace Yorha.Fs

open Yorha.Lib Yorha.Str Yorha.Util Yorha.Heap

variable {δ : Type} {fs fs' : FileSystem}

/-! ## Empty tables -/

/-- Only the root is live, it is empty, and no descriptor is in use. -/
structure Blank (fs : FileSystem) : Prop where
  dataStart : fs.globalSuper.dataStart = dataRegionStart
  live_iff : ∀ i, fs.Live i ↔ i = 0
  dbmap : ∀ b, WordArray.bit fs.globalDbmap b = decide (b ≤ dataRegionStart)
  root : fs.inode 0 = { dataBlockStart := dataRegionStart }
  others : ∀ i, i ≠ 0 → fs.inode i = {}
  unmarked : ∀ fd, fs.globalFdTable.marked fd = false

/-- Nothing is marked. -/
structure Unused (fs : FileSystem) : Prop where
  ibmap : ∀ i, WordArray.bit fs.globalIbmap i = false
  dbmap : ∀ b, WordArray.bit fs.globalDbmap b = false
  inode : ∀ i, fs.inode i = {}
  unmarked : ∀ fd, fs.globalFdTable.marked fd = false

theorem unused_zero (disk : Disk) : Unused (FileSystem.zero disk) where
  ibmap := bit_replicate_zero _
  dbmap := bit_replicate_zero _
  inode := by
    intro i
    simp only [FileSystem.inode, FileSystem.zero, Vector.getElem?_replicate]
    split
    · rfl
    · rfl
  unmarked := by
    intro fd
    change (0 : Word).getMsbD fd = false
    simp

/-- Marking the first bit of a bitmap that is clear. -/
theorem bit_of_mark_first {bitmap bitmap' : Vector Word bitmapWords}
    (hclear : ∀ i, WordArray.bit bitmap i = false)
    (h : updateWord bitmap 0 (fun word ↦ word ||| 1#32 <<< 31) = .ok bitmap') (i : Nat) :
    WordArray.bit bitmap' i = decide (i = 0) := by
  have hsize : 0 < WordArray.size (Vector Word bitmapWords) := by decide
  have hmask : ∀ j : Fin 32, (1#32 <<< 31 : Word).getMsbD j = decide (j.val = 0) := by decide
  rw [updateWord_eq hsize] at h
  rw [← Except.ok.inj h]
  refine (bit_set_applyMask bitmap hsize true (1#32 <<< 31) i).trans ?_
  rw [hclear, hmask ⟨i % 32, Nat.mod_lt _ (by decide)⟩]
  by_cases hi : i = 0
  · subst hi
    rfl
  · rw [if_neg (by simp only [decide_eq_true_eq]; omega), decide_eq_false hi]

/-- Marking the first `n` bits of a bitmap that is clear. -/
theorem bit_of_alloc_first {bitmap bitmap' : Vector Word bitmapWords} {n : Nat} {r : BitRange}
    (hclear : ∀ b, WordArray.bit bitmap b = false) (hpos : 0 < n) (hn : n < 2 ^ 15)
    (h : allocBitrange bitmap bitmapCapacity n false = .ok (r, bitmap')) (b : Nat) :
    WordArray.bit bitmap' b = decide (b < n) := by
  have hfits : ∀ capacity, n ≤ capacity → Fits bitmap capacity n false 0 :=
    fun capacity hle ↦ ⟨fun hal ↦ (nomatch hal), by omega, fun k _ _ ↦ hclear k⟩
  have hroom : n ≤ 32 * min (WordArray.size (Vector Word bitmapWords)) (bitmapCapacity / 4) :=
    le_trans (Nat.le_of_lt hn) (by decide)
  rcases allocBitrange_ok hpos (by decide) h with ⟨-, hfit, hbits, -⟩ | ⟨-, -, hle, -⟩
  · have hstart : r.start = 0 := Nat.le_zero.mp (hfit.le (hfits _ hroom))
    rw [hbits b, hstart, Nat.zero_add, hclear]
    by_cases hb : b < n
    · rw [if_pos ⟨Nat.zero_le b, hb⟩, decide_eq_true hb]
    · rw [if_neg (fun hin ↦ hb hin.2), decide_eq_false hb]
  · exact absurd hle (by decide)

/-- **Formatting starts from empty tables.** -/
theorem formatMetadata_blank {fs₀ : FileSystem} (hunused : Unused fs₀) {diskSize : Nat}
    {env : Surroundings} (h : formatMetadata fs₀ diskSize env = .ok fs) : Blank fs := by
  simp only [formatMetadata, bind_eq_ok, Prod.exists] at h
  obtain ⟨ibmap, hi, range, dbmap, hd, null, -, h⟩ := h
  have hroot : 0 < inodeCount := by decide
  have hfs := (Except.ok.inj h).symm
  refine ⟨?_, fun i ↦ ?_, fun b ↦ ?_, ?_, fun i hi ↦ ?_, fun fd ↦ ?_⟩
  · rw [hfs]
    rfl
  · rw [hfs]
    change WordArray.bit ibmap i = true ↔ i = 0
    rw [bit_of_mark_first hunused.ibmap hi, decide_eq_true_eq]
  · rw [hfs]
    change WordArray.bit dbmap b = _
    rw [bit_of_alloc_first hunused.dbmap (Nat.succ_pos _) (by decide) hd]
    exact decide_eq_decide.mpr Nat.lt_succ_iff
  · rw [hfs]
    exact (FileSystem.inode_setInode _ hroot _ 0).trans (if_pos rfl)
  · rw [hfs]
    exact ((FileSystem.inode_setInode _ hroot _ i).trans (if_neg hi)).trans (hunused.inode i)
  · rw [hfs]
    exact hunused.unmarked fd

namespace Blank

variable (h : Blank fs)

include h

theorem root_dir : fs.IsDir 0 := by
  rw [FileSystem.IsDir, h.root]
  rfl

theorem children_root : fs.children 0 = [] := by
  rw [FileSystem.children_of_isDir h.root_dir]
  refine FileSystem.entries_of_files_eq_zero ?_
  rw [FileSystem.files, h.root]
  exact Nat.zero_div _

theorem children_live {d : Nat} (hd : fs.Live d) : fs.children d = [] := by
  obtain rfl := (h.live_iff d).mp hd
  exact h.children_root

theorem sound : Sound fs where
  lt := by
    intro i hi
    obtain rfl := (h.live_iff i).mp hi
    decide
  root_dir := h.root_dir
  special_block := by
    intro i hi hsp
    obtain rfl := (h.live_iff i).mp hi
    exact absurd hsp h.root_dir.not_isSpecial
  block_marked := by
    intro i hi hsp
    obtain rfl := (h.live_iff i).mp hi
    rw [h.root, h.dbmap]
    decide
  last_free := by
    rw [h.dbmap]
    decide
  block_inj := by
    intro i j hi hj _ _ _
    exact ((h.live_iff i).mp hi).trans ((h.live_iff j).mp hj).symm
  size := by
    intro d hd _
    obtain rfl := (h.live_iff d).mp hd
    rw [FileSystem.files, h.root]
    rfl
  files_le := by
    intro d hd _
    obtain rfl := (h.live_iff d).mp hd
    rw [FileSystem.files, h.root]
    exact Nat.zero_le _
  names := by
    intro d hd _ file hfile
    obtain rfl := (h.live_iff d).mp hd
    rw [FileSystem.files, h.root] at hfile
    exact absurd hfile (Nat.not_lt_zero file)
  forest := by
    refine ⟨(h.live_iff 0).mpr rfl, ?_, ?_, ?_, ?_⟩
    · intro d e k n hd hc
      rw [FileSystem.forest_children, h.children_live hd] at hc
      cases hc
    · intro d e k n hd hc
      rw [FileSystem.forest_children, h.children_live hd] at hc
      cases hc
    · intro d hd
      rw [FileSystem.forest_children, h.children_live hd]
      exact List.nodup_nil
    · intro d d' e k k' n n' hd _ hc
      rw [FileSystem.forest_children, h.children_live hd] at hc
      cases hc

theorem metadataOwned : MetadataOwned fs where
  dataStart := h.dataStart
  marked := fun b hb ↦ by rw [h.dbmap, decide_eq_true hb]
  root_block := by rw [h.root]
  block_ge := by
    intro i hi _
    obtain rfl := (h.live_iff i).mp hi
    rw [h.root]

theorem allReach : fs.forest.AllReach 0 := by
  intro v hv
  obtain rfl := (h.live_iff v).mp hv
  exact ⟨[], .nil⟩

end Blank

/-! ## Quiet file systems -/

/-- Sound, and only directories have a size. -/
structure Quiet (fs : FileSystem) : Prop where
  sound : Sound fs
  size_eq : ∀ i, fs.Live i → ¬ fs.IsDir i → (fs.inode i).size = 0

theorem Blank.quiet (h : Blank fs) : Quiet fs where
  sound := h.sound
  size_eq := by
    intro i hi hdir
    obtain rfl := (h.live_iff i).mp hi
    exact absurd h.root_dir hdir

theorem Quiet.walksDirs (h : Quiet fs) {names : List Name} {i : Nat} (hi : fs.Live i) :
    fs.WalksDirs names i := by
  induction names generalizing i with
  | nil => trivial
  | cons name names ih =>
      have hdir : fs.IsDir i ∨ fs.files i = 0 := by
        by_cases hd : fs.IsDir i
        · exact .inl hd
        · right
          rw [FileSystem.files, h.size_eq i hi hd]
          exact Nat.zero_div _
      refine ⟨hdir, ?_⟩
      rw [← children_eq_entries hdir]
      cases hl : (fs.children i).lookup name with
      | none => trivial
      | some next => exact ih (h.sound.live_of_lookup hi hl)

/-- **In a quiet file system every path is safe.** -/
theorem Quiet.safePath (h : Quiet fs) (path : CString) : fs.SafePath path :=
  fun _ ↦ h.walksDirs h.sound.root_live

theorem Quiet.of_table (h : Quiet fs) (t : FileDescriptorTable) :
    Quiet { fs with globalFdTable := t } :=
  ⟨(SameTree.of_table fs t).sound h.sound, h.size_eq⟩

theorem Created.quiet {path : CString} {fileType : UInt8} {d i b : Nat}
    (h : Created fs fs' path fileType d i b) (hq : Quiet fs) : Quiet fs' := by
  have hd := (hq.sound.leads (hq.safePath path) h.seek).2.live
  refine ⟨h.sound hq.sound hd, fun j hj hdir ↦ ?_⟩
  rcases (h.live_iff j).mp hj with rfl | hj
  · rw [h.inode_self hd]
    rfl
  · have hne : j ≠ d := by
      rintro rfl
      exact hdir ((h.isDir_iff hj hj).mpr h.parent_dir)
    rw [h.inode_of_ne (h.ne_of_live hj) hne]
    exact hq.size_eq j hj (mt (h.isDir_iff hd hj).mpr hdir)

theorem Removed.quiet {path : CString} {past : Bytes} {d e : Nat}
    (h : Removed fs fs' path past d e) (hq : Quiet fs) (hsafe : SafeTarget fs e) :
    Quiet fs' := by
  have hd := (hq.sound.leads (hq.safePath path) h.seek).2.live
  refine ⟨h.sound hq.sound hd hsafe, fun j hj hdir ↦ ?_⟩
  have hne : j ≠ d := by
    rintro rfl
    exact hdir ((h.isDir_iff j).mpr h.parent_dir)
  rw [h.inode_of_ne hq.sound hd hne]
  exact hq.size_eq j ((h.live_iff j).mp hj).2 (mt (h.isDir_iff j).mpr hdir)

/-- A call that writes nothing and frees the block of no live file. -/
def KeepsQuiet (fs : FileSystem) : FsCall → Prop
  | .write _ _ _ => False
  | .unlink path _ => ∀ e ∈ fs.target path, SafeTarget fs e
  | _ => True

instance (fs : FileSystem) : ∀ c, Decidable (KeepsQuiet fs c)
  | .createFiletype _ _ _ _ => inferInstanceAs (Decidable True)
  | .openFile _ => inferInstanceAs (Decidable True)
  | .close _ => inferInstanceAs (Decidable True)
  | .read _ _ _ => inferInstanceAs (Decidable True)
  | .write _ _ _ => inferInstanceAs (Decidable False)
  | .seek _ _ _ => inferInstanceAs (Decidable True)
  | .unlink path _ => inferInstanceAs (Decidable (∀ e ∈ fs.target path, SafeTarget fs e))

theorem Quiet.keepsTree (h : Quiet fs) {c : FsCall} (hc : KeepsQuiet fs c) :
    KeepsTree fs c := by
  cases c with
  | createFiletype path _ _ _ => exact h.safePath path
  | write => exact hc.elim
  | unlink path _ => exact ⟨h.safePath path, hc⟩
  | _ => trivial

/-- **A call that keeps the file system quiet.** -/
theorem Effect.quiet {c : FsCall} (he : Effect fs fs' c) (hq : Quiet fs)
    (hc : KeepsQuiet fs c) : Quiet fs' := by
  cases he with
  | moved ht _ =>
      rw [ht]
      exact hq.of_table _
  | created h _ => exact h.quiet hq
  | opened ht _ _ _ _ =>
      rw [ht]
      exact hq.of_table _
  | closed ht _ =>
      rw [ht]
      exact hq.of_table _
  | wrote _ => exact hc.elim
  | removed h => exact h.quiet hq (hc _ (h.target_eq hq.sound (hq.safePath _)))

/-! ## Formatting -/

/-- The kernel after `initialize_allocator`, before the file system is initialized. -/
structure Boot (k : Kernel δ) : Prop where
  fs : ∃ disk, k.fs = FileSystem.zero disk
  heap : ∃ bottom, k.heap.allocator = AllocArray.initial bottom

/-- The kernel after a disk was formatted.  This takes surroundings in which the block at address 0
is mapped (`formatDisk_faults`). -/
def Formatted (k : Kernel δ) : Prop :=
  ∃ k₀ diskSize env, Boot k₀ ∧ formatDisk k₀ diskSize env = .ok k

/-- Where `boot.s` has left address 0 unmapped, formatting a disk faults. -/
theorem formatDisk_faults {k₀ : Kernel δ} (hboot : Boot k₀) (diskSize : Nat) {env : Surroundings}
    (hnull : env.null = none) : formatDisk k₀ diskSize env = .error .fault := by
  obtain ⟨disk, hfs⟩ := hboot.fs
  have hread : env.readNull = .error .fault := by
    rw [Surroundings.readNull, hnull]
  -- everything before can be done
  obtain ⟨ibmap, hi⟩ : ∃ bitmap, updateWord (FileSystem.zero disk).globalIbmap 0
      (fun word ↦ word ||| 1#32 <<< 31) = .ok bitmap := ⟨_, rfl⟩
  obtain ⟨⟨range, dbmap⟩, hd⟩ : ∃ r, allocBitrange (FileSystem.zero disk).globalDbmap
      bitmapCapacity (dataRegionStart + 1) false = .ok r := by
    change ∃ r, allocBitrange (Vector.replicate bitmapWords (0 : Word)) bitmapCapacity
      (dataRegionStart + 1) false = .ok r
    exact isSome_toOption.mp (by decide +kernel)
  rw [formatDisk, hfs, formatMetadata, hi, ok_bind, hd, ok_bind]
  exact (congrArg (· >>= _) (congrArg (· >>= _) hread)).trans rfl

/-- The calls that formatting makes. -/
inductive FormatCall : FsCall → Prop
  | createFiletype (path : CString) (fileType : UInt8) (past : Bytes) :
      FormatCall (.createFiletype path fileType false past)
  | openFile (path : CString) : FormatCall (.openFile path)

theorem FormatCall.keepsQuiet {c : FsCall} (h : FormatCall c) (fs : FileSystem) :
    KeepsQuiet fs c := by
  cases h with
  | createFiletype => trivial
  | openFile => trivial

theorem FormatCall.removes_eq_none {c : FsCall} (h : FormatCall c) (fs : FileSystem) :
    c.removes fs = none := by
  cases h with
  | createFiletype => rfl
  | openFile => rfl

/-- The steps of formatting a disk. -/
theorem formatDisk_ok {k₀ k : Kernel δ} {disk : Disk} {diskSize : Nat} {env : Surroundings}
    (hfs : k₀.fs = FileSystem.zero disk) (h : formatDisk k₀ diskSize env = .ok k) :
    ∃ fs k₁, formatMetadata (FileSystem.zero disk) diskSize env = .ok fs ∧ Blank fs ∧
      createSystemFiles { k₀ with fs := fs } env.past = .ok k₁ ∧ openSystemFiles k₁ = .ok k := by
  simp only [formatDisk, hfs, bind_eq_ok] at h
  obtain ⟨fs, hmeta, k₁, hsys, hopened⟩ := h
  exact ⟨fs, k₁, hmeta, formatMetadata_blank (unused_zero disk) hmeta, hsys, hopened⟩

/-- `create_system_files` makes `/dev` and then the files in it. -/
theorem createSystemFiles_ok {past : Bytes} {k k' : Kernel δ}
    (h : createSystemFiles k past = .ok k') : ∃ r k₁,
      mkdir k devPath past = .ok (r, k₁) ∧ createEach past k₁.systemFiles k₁ = .ok k' := by
  simp only [createSystemFiles, bind_eq_ok, Prod.exists] at h
  obtain ⟨r, k₁, hmkdir, h⟩ := h
  split at h
  · cases h
  · exact ⟨r, k₁, hmkdir, h⟩

/-- A round of `create_system_files`. -/
theorem createEach_cons_ok {past : Bytes} {file : SpecialFile δ} {files : List (SpecialFile δ)}
    {k k' : Kernel δ} (h : createEach past (file :: files) k = .ok k') : ∃ r k₁,
      createFiletype k (devPrefix.append file.filename) fileTypeSpecial false past =
        .ok (r, k₁) ∧ r ≠ -1 ∧ createEach past files k₁ = .ok k' := by
  simp only [createEach, bind_eq_ok, Prod.exists] at h
  obtain ⟨r, k₁, hmade, h⟩ := h
  split at h
  · rename_i hr
    exact ⟨r, k₁, hmade, hr, h⟩
  · cases h

/-- A round of `open_system_files`. -/
theorem openEach_cons_ok {file : SpecialFile δ} {files : List (SpecialFile δ)} {i : Nat}
    {k k' : Kernel δ} (h : openEach (file :: files) i k = .ok k') : ∃ fd k₁ dev,
      openFile k (devPrefix.append file.filename) = .ok (fd, k₁) ∧ fd ≠ -1 ∧
      openEach files (i + 1)
        { k₁ with
          systemFiles := k₁.systemFiles.modify i fun file ↦ { file with fd := fd }
          dev := dev } = .ok k' := by
  simp only [openEach, bind_eq_ok, Prod.exists] at h
  obtain ⟨fd, k₁, hopened, h⟩ := h
  split at h
  · cases h
  · rename_i hfd
    simp only [bind_eq_ok] at h
    obtain ⟨dev, -, h⟩ := h
    exact ⟨fd, k₁, dev, hopened, hfd, h⟩

section

variable {I : Kernel δ → Prop}
  (hstep : ∀ {k k' : Kernel δ} {c v}, I k → FormatCall c → FsCall.exec k c = .ok (v, k') → I k')
  (hdev : ∀ {k : Kernel δ} files dev, I k → I { k with systemFiles := files, dev := dev })

include hstep in
theorem createEach_invariant {past : Bytes} {files : List (SpecialFile δ)} {k k' : Kernel δ}
    (hk : I k) (h : createEach past files k = .ok k') : I k' := by
  induction files generalizing k with
  | nil =>
      cases h
      exact hk
  | cons file files ih =>
      obtain ⟨r, k₁, hmade, -, h⟩ := createEach_cons_ok h
      exact ih (hstep hk (.createFiletype _ _ _) hmade) h

include hstep in
theorem createSystemFiles_invariant {past : Bytes} {k k' : Kernel δ} (hk : I k)
    (h : createSystemFiles k past = .ok k') : I k' := by
  obtain ⟨r, k₁, hmkdir, heach⟩ := createSystemFiles_ok h
  exact createEach_invariant hstep (hstep hk (.createFiletype _ _ _) hmkdir) heach

include hstep hdev in
theorem openEach_invariant {files : List (SpecialFile δ)} {i : Nat} {k k' : Kernel δ}
    (hk : I k) (h : openEach files i k = .ok k') : I k' := by
  induction files generalizing k i with
  | nil =>
      cases h
      exact hk
  | cons file files ih =>
      obtain ⟨fd, k₁, dev, hopened, -, h⟩ := openEach_cons_ok h
      exact ih (hdev _ dev (hstep hk (.openFile _) hopened)) h

include hstep hdev in
/-- **What the calls preserve holds of a formatted disk**, if it holds of empty tables. -/
theorem Formatted.invariant {k : Kernel δ} (h : Formatted k)
    (hblank : ∀ {k : Kernel δ}, Blank k.fs →
      (∃ bottom, k.heap.allocator = AllocArray.initial bottom) → I k) : I k := by
  obtain ⟨k₀, diskSize, env, ⟨⟨disk, hfs⟩, hheap⟩, h⟩ := h
  obtain ⟨fs, k₁, -, hempty, hsys, hopened⟩ := formatDisk_ok hfs h
  have hI : I { k₀ with fs := fs } := hblank hempty hheap
  exact openEach_invariant hstep hdev (createSystemFiles_invariant hstep hI hsys) hopened

end

/-- A formatted disk is quiet. -/
theorem Formatted.quiet {k : Kernel δ} (h : Formatted k) : Quiet k.fs :=
  h.invariant (I := fun k ↦ Quiet k.fs) (fun hq hc hx ↦ (exec_ok hx).quiet hq (hc.keepsQuiet _))
    (fun _ _ hq ↦ hq) (fun hb _ ↦ hb.quiet)

/-- What calls that keep the file system quiet reach from a formatted disk is quiet. -/
theorem Formatted.quiet_of_reaches {k₀ k : Kernel δ} (h₀ : Formatted k₀)
    (h : Reaches FsCall.exec (fun k c ↦ KeepsQuiet k.fs c) k₀ k) : Quiet k.fs :=
  Reaches.invariant (I := fun k ↦ Quiet k.fs) h h₀.quiet fun hq hc hx ↦ (exec_ok hx).quiet hq hc

/-! ## A machine with two terminals -/

/-- A special file that never transfers anything. -/
def idleFile (filename : CString) : SpecialFile Unit where
  filename := filename
  handler := fun _ _ buf _ dev ↦ .ok (0, buf, dev)
  initializationFunc := fun _ dev ↦ .ok dev

/-- The kernel with the two entries of `system_files`, on a disk of zeros. -/
def terminalBoot : Kernel Unit where
  fs := FileSystem.zero fun _ _ ↦ 0
  heap := ⟨AllocArray.initial 0x400000, fun _ ↦ 0⟩
  systemFiles := [idleFile ⟨ofText "tty", by decide⟩, idleFile ⟨ofText "ttyS", by decide⟩]
  dev := ()

/-- The same kernel after formatting a disk of a megabyte. -/
def terminalKernel : Kernel Unit :=
  ((formatDisk terminalBoot 0x100000
    ⟨fun _ ↦ 0, fun _ ↦ 0, some fun _ ↦ 0, fun _ ↦ 0⟩).toOption).getD terminalBoot

theorem formatDisk_terminalBoot : formatDisk terminalBoot 0x100000
    ⟨fun _ ↦ 0, fun _ ↦ 0, some fun _ ↦ 0, fun _ ↦ 0⟩ = .ok terminalKernel := by
  have hsome : (formatDisk terminalBoot 0x100000
      ⟨fun _ ↦ 0, fun _ ↦ 0, some fun _ ↦ 0, fun _ ↦ 0⟩).toOption.isSome = true := by
    decide +kernel
  rw [terminalKernel]
  cases h : formatDisk terminalBoot 0x100000
      ⟨fun _ ↦ 0, fun _ ↦ 0, some fun _ ↦ 0, fun _ ↦ 0⟩ with
  | error e =>
      rw [h] at hsome
      cases hsome
  | ok k => rfl

theorem formatted_terminalKernel : Formatted terminalKernel :=
  ⟨terminalBoot, 0x100000, _, ⟨⟨_, rfl⟩, ⟨_, rfl⟩⟩, formatDisk_terminalBoot⟩

end Yorha.Fs
