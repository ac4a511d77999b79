import Yorha.Fs.Validity

/-!
# Directories are left alone

A directory is a file like any other to `open` and `write`, although a comment says that
directories cannot be opened.  In every state that calls lead to, each live directory
holds whole entries, with terminated names and live inodes, and no open descriptor can
change it, as long as no directory is opened, nothing is written through a descriptor that
is not open, and no file is removed that is open (`KeepsDirs`).

`open_system_files` opens special files only, because `create_system_files` has just made
them.
-/

namespace Yorha.Fs

open Yorha.Lib Yorha.Str Yorha.Util

variable {δ : Type} {fs fs' : FileSystem} {path : CString} {fileType : UInt8}
  {d i b e : Nat} {c : FsCall}

/-- No open descriptor names a directory. -/
def FdsOnFiles (fs : FileSystem) : Prop := ∀ fd i, fs.Names fd i → ¬ fs.IsDir i

/-- Live directories hold whole entries, with terminated names and live inodes. -/
structure DirsIntact (fs : FileSystem) : Prop where
  size : ∀ d, fs.Live d → fs.IsDir d → (fs.inode d).size = entryBytes * fs.files d ∧
    fs.files d ≤ dirFileCountMax
  entry : ∀ d, fs.Live d → fs.IsDir d → ∀ file < fs.files d,
    Terminated (entryName (fs.block d) file) ∧ fs.Live (entryInodeNum (fs.block d) file)

/-- The directories are intact, and no write through an open descriptor can change one. -/
structure Integrity (k : Kernel δ) : Prop where
  dirs : DirsIntact k.fs
  files : FdsOnFiles k.fs
  write : ∀ fd i, k.fs.Names fd i → ∀ buf count v k', Fs.write k fd buf count = .ok (v, k') →
    ∀ d, k.fs.Live d → k.fs.IsDir d →
      k'.fs.inode d = k.fs.inode d ∧ k'.fs.block d = k.fs.block d

theorem Sound.dirsIntact (hs : Sound fs) : DirsIntact fs where
  size := fun d hd hdir ↦ ⟨hs.size hd hdir, hs.files_le hd hdir⟩
  entry := by
    intro d hd hdir file hfile
    refine ⟨hs.names hd hdir file hfile, ?_⟩
    apply hs.forest.child_live (k := file) hd
    rw [FileSystem.forest_children, FileSystem.children_of_isDir hdir, FileSystem.entries,
      getElem?_entriesOf, if_pos hfile]
    rfl

/-- A call that follows paths through directories only, opens no directory, writes through
open descriptors only or to no directory, closes what calls return, and removes no open
file. -/
def KeepsDirs (k : Kernel δ) (c : FsCall) : Prop :=
  ClosesReturned c ∧ (∀ e ∈ c.removes k.fs, NotOpen k.fs e) ∧ match c with
    | .createFiletype path fileType allocateFd _ =>
        k.fs.SafePath path ∧ (allocateFd = true → fileType ≠ fileTypeDir)
    | .openFile path => k.fs.SafePath path ∧ ∀ e ∈ k.fs.target path, ¬ k.fs.IsDir e
    | .write fd _ count =>
        k.fs.globalFdTable.marked fd.toNat = true ∨ SafeWrite k.fs fd.toNat count
    | .unlink path _ => k.fs.SafePath path ∧ ∀ e ∈ k.fs.target path, SafeTarget k.fs e
    | _ => True

instance (k : Kernel δ) : ∀ c, Decidable (KeepsDirs k c)
  | .createFiletype _ _ _ _ => inferInstanceAs (Decidable (_ ∧ _ ∧ _ ∧ (_ → _)))
  | .openFile path =>
      inferInstanceAs (Decidable (_ ∧ _ ∧ _ ∧ ∀ e ∈ k.fs.target path, ¬ k.fs.IsDir e))
  | .close _ => inferInstanceAs (Decidable (_ ∧ _ ∧ True))
  | .read _ _ _ => inferInstanceAs (Decidable (_ ∧ _ ∧ True))
  | .write _ _ _ => inferInstanceAs (Decidable (_ ∧ _ ∧ (_ ∨ _)))
  | .seek _ _ _ => inferInstanceAs (Decidable (_ ∧ _ ∧ True))
  | .unlink path _ =>
      inferInstanceAs (Decidable (_ ∧ _ ∧ _ ∧ ∀ e ∈ k.fs.target path, SafeTarget k.fs e))

/-- A descriptor that is marked is one of the table. -/
theorem lt_of_marked {t : FileDescriptorTable} {fd : Nat} (h : t.marked fd = true) :
    fd < descriptorCount := by
  by_contra hge
  have hge' : ¬ fd < 32 := hge
  simp [FileDescriptorTable.marked, BitVec.getMsbD, hge'] at h

/-- What is invariant along a run. -/
structure IntegrityInv (k : Kernel δ) : Prop where
  sound : Sound k.fs
  live : FdsLive k.fs
  files : FdsOnFiles k.fs

theorem IntegrityInv.keepsTree {k : Kernel δ} (h : IntegrityInv k) (hc : KeepsDirs k c) :
    KeepsTree k.fs c := by
  obtain ⟨-, -, hc⟩ := hc
  cases c with
  | createFiletype => exact hc.1
  | write fd buf count =>
      rcases hc with hm | hsafe
      · have hnames : k.fs.Names fd.toNat (k.fs.globalFdTable.entry fd.toNat).inodeNum :=
          ⟨lt_of_marked hm, hm, rfl⟩
        exact safeWrite_of_live h.sound rfl (h.live _ _ hnames) (h.files _ _ hnames)
      · exact hsafe
  | unlink => exact hc
  | _ => trivial

theorem KeepsDirs.safePath {k : Kernel δ} (hc : KeepsDirs k c) :
    ∀ path, c = .openFile path → k.fs.SafePath path := by
  rintro path rfl
  exact hc.2.2.1

/-- Live inodes stay directories, or stay none. -/
theorem TreeEffect.isDir_iff (h : TreeEffect fs fs' c) (hi : fs.Live i) :
    fs'.IsDir i ↔ fs.IsDir i := by
  cases h with
  | same h => exact h.isDir_iff i
  | created h hd => exact h.isDir_iff hd hi
  | removed h _ _ _ => exact h.isDir_iff i

/-- **Step.**  A call that opens no directory leaves no descriptor on one. -/
theorem IntegrityInv.step {k k' : Kernel δ} {v : Int} (h : IntegrityInv k) (hc : KeepsDirs k c)
    (hx : FsCall.exec k c = .ok (v, k')) : IntegrityInv k' := by
  have he := exec_ok hx
  have htree := he.treeEffect h.sound (h.keepsTree hc)
  refine ⟨htree.sound h.sound, he.fdsLive h.sound htree hc.1 hc.safePath hc.2.1 h.live,
    fun fd i hnames ↦ ?_⟩
  rcases he.fd_cases hc.1 hnames with hold | ⟨-, hopens⟩
  · rw [htree.isDir_iff (h.live fd i hold)]
    exact h.files fd i hold
  · obtain ⟨-, -, hc⟩ := hc
    cases hopens with
    | created hcreated =>
        have hd := (h.sound.leads hc.1 hcreated.seek).2.live
        rw [FileSystem.IsDir, hcreated.inode_self hd]
        exact hc.2 rfl
    | opened ht hseek hsearch hr =>
        rw [ht]
        exact hc.2 _ (h.sound.target_of_search hc.1 hseek hsearch hr).1

theorem IntegrityInv.integrity {k : Kernel δ} (h : IntegrityInv k) : Integrity k where
  dirs := h.sound.dirsIntact
  files := h.files
  write := by
    intro fd i hnames buf count v k' hx d hd hdir
    have hne : d ≠ i := by
      rintro rfl
      exact h.files fd d hnames hdir
    exact write_othersKept h.sound (h.live fd i hnames) hnames.2.2 hx d hd hdir.not_isSpecial hne

/-! ## What formatting leaves open -/

/-- The path names a special file. -/
def SpecialAt (fs : FileSystem) (path : CString) : Prop :=
  ∃ e, fs.target path = some e ∧ fs.Live e ∧ fs.IsSpecial e

/-- A new file is what its path names. -/
theorem Created.target_self (h : Created fs fs' path fileType d i b) (hq : Quiet fs) :
    fs'.target path = some i := by
  obtain ⟨-, hlead⟩ := hq.sound.leads (hq.safePath path) h.seek
  have hlink := h.linked hq.sound hlead.live
  rw [FileSystem.target,
    hlink.resolve hq.sound.forest hq.sound.root_live hlead.resolve]
  exact hlink.lookup_self

/-- Making a file changes nothing that a path names. -/
theorem Created.target_of_some (h : Created fs fs' path fileType d i b) (hs : Sound fs)
    (hd : fs.Live d) {path' : CString} (ht : fs.target path' = some e) :
    fs'.target path' = some e := by
  rw [FileSystem.target_eq_resolve] at ht ⊢
  exact (h.linked hs hd).resolve hs.forest hs.root_live ht

/-- Making files leaves special files where they are. -/
theorem Created.specialAt (h : Created fs fs' path fileType d i b) (hs : Sound fs)
    (hd : fs.Live d) {path' : CString} (hat : SpecialAt fs path') : SpecialAt fs' path' := by
  obtain ⟨e, ht, he, hsp⟩ := hat
  exact ⟨e, h.target_of_some hs hd ht, (h.live_iff e).mpr (.inr he),
    (h.isSpecial_iff hd he).mpr hsp⟩

/-- `create_filetype` does not look at the table of special files. -/
theorem createFiletype_systemFiles {k k' : Kernel δ} {allocateFd : Bool} {past : Bytes} {v : Int}
    (h : createFiletype k path fileType allocateFd past = .ok (v, k')) :
    k'.systemFiles = k.systemFiles := by
  cases createFiletype_steps h with
  | relative => rfl
  | refused => rfl
  | made => rfl

/-- What the loop of `create_system_files` leaves: the file system quiet, nothing opened,
and each of its files in its place. -/
theorem createEach_specialAt {past : Bytes} {files : List (SpecialFile δ)} {k k' : Kernel δ}
    (hq : Quiet k.fs) (hopen : ∀ fd, k.fs.globalFdTable.marked fd = false)
    (h : createEach past files k = .ok k') :
    Quiet k'.fs ∧ (∀ fd, k'.fs.globalFdTable.marked fd = false) ∧
      k'.systemFiles = k.systemFiles ∧
      (∀ path, SpecialAt k.fs path → SpecialAt k'.fs path) ∧
      ∀ file ∈ files, SpecialAt k'.fs (devPrefix.append file.filename) := by
  induction files generalizing k with
  | nil =>
      cases h
      exact ⟨hq, hopen, rfl, fun _ hat ↦ hat, fun _ hmem ↦ absurd hmem List.not_mem_nil⟩
  | cons file files ih =>
      obtain ⟨r, k₁, hmade, hr, h⟩ := createEach_cons_ok h
      rcases createFiletype_ok hmade with ⟨hneg, -⟩ | ⟨d, i, b, hc, hout⟩
      · exact absurd hneg hr
      · have htable : k₁.fs.globalFdTable = k.fs.globalFdTable := by
          cases hout with
          | unopened heq => exact heq
        have hd := (hq.sound.leads (hq.safePath _) hc.seek).2.live
        obtain ⟨hq', hopen', hfiles, hkeep, hall⟩ := ih (hc.quiet hq) (by rwa [htable]) h
        refine ⟨hq', hopen', hfiles.trans (createFiletype_systemFiles hmade),
          fun path hat ↦ hkeep path (hc.specialAt hq.sound hd hat), ?_⟩
        rw [List.forall_mem_cons]
        refine ⟨hkeep _ ⟨i, hc.target_self hq, (hc.live_iff i).mpr (.inl rfl), ?_⟩, hall⟩
        exact (hc.isSpecial_self hd).mpr rfl

/-- `create_system_files` leaves every system file in its place, and nothing open. -/
theorem Blank.createSystemFiles {past : Bytes} {k k' : Kernel δ} (hb : Blank k.fs)
    (h : createSystemFiles k past = .ok k') :
    Quiet k'.fs ∧ (∀ fd, k'.fs.globalFdTable.marked fd = false) ∧
      k'.systemFiles = k.systemFiles ∧
      ∀ file ∈ k.systemFiles, SpecialAt k'.fs (devPrefix.append file.filename) := by
  obtain ⟨r, k₁, hmkdir, heach⟩ := createSystemFiles_ok h
  have hfiles := createFiletype_systemFiles hmkdir
  have hq : Quiet k₁.fs ∧ ∀ fd, k₁.fs.globalFdTable.marked fd = false := by
    rcases createFiletype_ok hmkdir with ⟨-, heq⟩ | ⟨d, i, b, hc, hout⟩
    · rw [heq]
      exact ⟨hb.quiet, hb.unmarked⟩
    · refine ⟨hc.quiet hb.quiet, ?_⟩
      cases hout with
      | unopened heq =>
          rw [heq]
          exact hb.unmarked
  obtain ⟨hquiet, hopen, hfiles', -, hat⟩ := createEach_specialAt hq.1 hq.2 heach
  refine ⟨hquiet, hopen, hfiles'.trans hfiles, ?_⟩
  rw [← hfiles]
  exact hat

/-- What the loop of `open_system_files` opens. -/
theorem openEach_fdsOnFiles {files : List (SpecialFile δ)} {n : Nat} {k k' : Kernel δ}
    (hq : Quiet k.fs) (hfds : FdsOnFiles k.fs)
    (hat : ∀ file ∈ files, SpecialAt k.fs (devPrefix.append file.filename))
    (h : openEach files n k = .ok k') : FdsOnFiles k'.fs := by
  induction files generalizing k n with
  | nil =>
      cases h
      exact hfds
  | cons file files ih =>
      rw [List.forall_mem_cons] at hat
      obtain ⟨fd, k₁, dev, hopened, -, h⟩ := openEach_cons_ok h
      obtain ⟨t, ht, -⟩ := openFile_ok hopened
      refine ih (k := { k₁ with systemFiles := _, dev := dev }) ?_ ?_ ?_ h
      · change Quiet k₁.fs
        rw [ht]
        exact hq.of_table t
      · change FdsOnFiles k₁.fs
        intro fd i hnames
        have he : Effect k.fs k₁.fs (.openFile _) := exec_ok hopened
        rcases he.fd_cases trivial hnames with hold | ⟨-, hopens⟩
        · rw [ht]
          exact hfds fd i hold
        · cases hopens with
          | opened ht' hseek hsearch hr =>
              obtain ⟨e, htarget, -, hsp⟩ := hat.1
              rw [(hq.sound.target_of_search (hq.safePath _) hseek hsearch hr).1] at htarget
              rw [ht', Option.some.inj htarget]
              exact fun hdir ↦ FileSystem.IsDir.not_isSpecial hdir hsp
      · change ∀ file ∈ files, SpecialAt k₁.fs _
        rw [ht]
        exact hat.2

/-- The descriptors that formatting leaves open are on no directories. -/
theorem Formatted.fdsOnFiles {k : Kernel δ} (h : Formatted k) : FdsOnFiles k.fs := by
  obtain ⟨k₀, diskSize, env, ⟨⟨disk, hfs⟩, -⟩, h⟩ := h
  obtain ⟨fs, k₁, -, hblank, hsys, hopened⟩ := formatDisk_ok hfs h
  obtain ⟨hq, hnone, hfiles, hat⟩ := Blank.createSystemFiles hblank hsys
  refine openEach_fdsOnFiles hq ?_ ?_ hopened
  · rintro fd i ⟨-, hm, -⟩
    rw [hnone] at hm
    cases hm
  · rw [hfiles]
    exact hat

/-! ## Runs -/

/-- **Directory integrity.**  In every state that calls keeping to `KeepsDirs` lead to from a
formatted disk, the live directories are intact, and no write through an open descriptor
changes one. -/
theorem integrity_of_reaches {k₀ k : Kernel δ} (h₀ : Formatted k₀)
    (h : Reaches FsCall.exec KeepsDirs k₀ k) : Integrity k :=
  (Reaches.invariant (I := IntegrityInv) h ⟨h₀.quiet.sound, h₀.fdsLive, h₀.fdsOnFiles⟩
    fun hI hc hx ↦ hI.step hc hx).integrity

/-- A program that writes to a file and reads it back. -/
def copyCalls : List FsCall :=
  [.mkdir (.literal "/d") fun _ ↦ 0, .create (.literal "/d/a") fun _ ↦ 0,
    .write 2 (fun _ ↦ 7) 100, .seek 2 0 0, .read 2 (fun _ ↦ 0) 50, .close 2,
    .unlink (.literal "/d/a") fun _ ↦ 0]

theorem integrity_copyCalls : ∃ k, runCalls FsCall.exec KeepsDirs copyCalls terminalKernel = some k ∧
    Integrity k := by
  obtain ⟨k, hk⟩ := Option.isSome_iff_exists.mp
    (show (runCalls FsCall.exec KeepsDirs copyCalls terminalKernel).isSome = true by
      decide +kernel)
  exact ⟨k, hk, integrity_of_reaches formatted_terminalKernel (reaches_of_runCalls hk)⟩

/-- A program that opens a directory and writes to it. -/
def scribbleCalls : List FsCall :=
  [.openFile (.literal "/dev"), .write 2 (fun _ ↦ 7) 5]

/-- **A directory can be opened and written to**; then its size is that of no whole number of
entries. -/
theorem scribbleCalls_break : Formatted terminalKernel ∧
    ∃ k, runCalls FsCall.exec (fun _ _ ↦ True) scribbleCalls terminalKernel = some k ∧
      ¬ Integrity k := by
  obtain ⟨k, hk, hcheck⟩ := (Option.any_eq_true _ _).mp
    (show (runCalls FsCall.exec (fun _ _ ↦ True) scribbleCalls terminalKernel).any (fun k ↦
      decide (k.fs.Live 1 ∧ k.fs.IsDir 1 ∧ (k.fs.inode 1).size ≠ entryBytes * k.fs.files 1)) =
        true by decide +kernel)
  obtain ⟨hlive, hdir, hsize⟩ := of_decide_eq_true hcheck
  exact ⟨formatted_terminalKernel, k, hk, fun h ↦ hsize (h.dirs.size 1 hlive hdir).1⟩

end Yorha.Fs
