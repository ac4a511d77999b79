import Yorha.Fs.Layout
import Yorha.Fs.Ownership
import Yorha.Fs.Returns

/-!
# The next boot

A boot that finds a formatted disk opens the system files and halts if one of them is not
there.  So whether it completes depends on what the programs of the boots before did to the
directory `/dev`.

As long as every call keeps to `KeepsDevices`, the system files stay where formatting put
them, and a shutdown and the next mount complete (`remounts_of_reaches`).  What this
excludes is, besides what damages a directory, removing a special file or `/dev` itself.
`unlink` does not look whether it does.
-/

namespace Yorha.Fs

open Yorha.Lib Yorha.Str Yorha.Util Yorha.Heap

variable {δ : Type} {fs fs' : FileSystem} {k k' : Kernel δ}

/-! ## System files -/

/-- The path of a system file. -/
def systemPath (filename : CString) : CString := devPrefix.append filename

/-- The name makes a path to a file of `/dev` that is not too long. -/
structure SystemName (filename : CString) : Prop where
  absolute : Absolute (systemPath filename)
  dirNames : dirNames (systemPath filename) = [ofText "dev"]
  nonempty : (systemPath filename).chars ≠ []
  short : (systemPath filename).chars.length < 64

/-- A table of system files in which no file is open. -/
structure SystemTable (files : List (SpecialFile δ)) : Prop where
  name : ∀ file ∈ files, SystemName file.filename
  closed : ∀ file ∈ files, file.fd = -1
  initializes : ∀ file ∈ files, ∀ fd dev, ∃ dev', file.initializationFunc fd dev = .ok dev'
  length_le : files.length ≤ descriptorCount

/-- The directory that has a system file. -/
theorem Sound.leads_dev (hs : Sound fs) {filename : CString} (hname : SystemName filename)
    (hat : SpecialAt fs (systemPath filename)) : ∃ d e, Leads fs [ofText "dev"] d ∧
      fs.target devPath = some d ∧ fs.target (systemPath filename) = some e ∧
      (fs.children d).lookup (fileName (systemPath filename)) = some e := by
  obtain ⟨e, htarget, -, -⟩ := hat
  have htarget' := htarget
  rw [FileSystem.target, hname.dirNames, Option.bind_eq_some_iff] at htarget'
  obtain ⟨d, hd, he⟩ := htarget'
  have hdir : fs.IsDir d := FileSystem.isDir_of_lookup he
  refine ⟨d, e, ⟨hs.forest.resolve_live hs.root_live hd, hdir, hd, ?_⟩, ?_, htarget, he⟩
  · intro name hmem
    rw [List.mem_singleton.mp hmem]
    decide
  · rw [FileSystem.target_eq_resolve]
    exact hd

/-! ## What keeps the system files -/

/-- A call that keeps the tree, and removes neither a special file nor the directory of the
system files. -/
def KeepsDevices (k : Kernel δ) (c : FsCall) : Prop :=
  KeepsBlocks k c ∧ ∀ e ∈ c.removes k.fs, k.fs.target devPath ≠ some e

instance (k : Kernel δ) (c : FsCall) : Decidable (KeepsDevices k c) :=
  inferInstanceAs (Decidable (_ ∧ _))

/-- The same tree has the same special files. -/
theorem SameTree.specialAt (h : SameTree fs fs') (hs : Sound fs) {path : CString}
    (hat : SpecialAt fs path) : SpecialAt fs' path := by
  obtain ⟨e, ht, he, hsp⟩ := hat
  refine ⟨e, ?_, (h.live_iff e).mpr he, (h.isSpecial_iff e).mpr hsp⟩
  rw [FileSystem.target_eq_resolve] at ht ⊢
  rw [h.forest.resolve hs.forest hs.root_live]
  exact ht

/-- Removing another file leaves a system file where it is. -/
theorem Removed.specialAt {path filename : CString} {past : Bytes} {d e : Nat}
    (h : Removed fs fs' path past d e) (hs : Sound fs) (hd : fs.Live d)
    (hname : SystemName filename) (hsp : ¬ fs.IsSpecial e) (hdev : fs.target devPath ≠ some e)
    (hat : SpecialAt fs (systemPath filename)) : SpecialAt fs' (systemPath filename) := by
  obtain ⟨f, ht, hf, hspf⟩ := hat
  have hfe : f ≠ e := by
    rintro rfl
    exact hsp hspf
  obtain ⟨entry, hcut⟩ := h.unlinked hs hd
  have hroot : fs'.Live 0 := (h.live_iff 0).mpr ⟨(h.ne_root hs hd).symm, hs.root_live⟩
  refine ⟨f, ?_, (h.live_iff f).mpr ⟨hfe, hf⟩, (h.isSpecial_iff f).mpr hspf⟩
  rw [FileSystem.target_eq_resolve] at ht hdev ⊢
  refine hcut.resolve hs.forest hroot ht fun m l hpre hto ↦ ?_
  -- the path comes to `/dev` and to the file
  rw [hname.dirNames] at ht hpre
  obtain ⟨rfl, hrest⟩ := List.cons_prefix_cons.mp hpre
  cases l with
  | nil => exact hdev hto
  | cons n l =>
      obtain ⟨hn, hnil⟩ := List.cons_prefix_cons.mp hrest
      rw [hn, List.prefix_nil.mp hnil] at hto
      exact hfe (Option.some.inj (ht.symm.trans hto))

/-- What makes the next mount complete. -/
structure RemountInv (files : List (SpecialFile δ)) (k : Kernel δ) : Prop where
  sound : Sound k.fs
  metadata : MetadataOwned k.fs
  mountable : Mountable k
  at_dev : ∀ file ∈ files, SpecialAt k.fs (systemPath file.filename)

/-- **Step.**  A call that keeps the system files keeps what makes the next mount complete. -/
theorem RemountInv.step {files : List (SpecialFile δ)} (htable : SystemTable files) {c : FsCall}
    {v : Int} (h : RemountInv files k) (hc : KeepsDevices k c)
    (hx : FsCall.exec k c = .ok (v, k')) : RemountInv files k' := by
  have he := (exec_ok hx).treeEffect h.sound hc.1.1
  refine ⟨he.sound h.sound, he.metadataOwned h.sound h.metadata hc.1, h.mountable.step hx,
    fun file hfile ↦ ?_⟩
  have hat := h.at_dev file hfile
  cases he with
  | same hsame => exact hsame.specialAt h.sound hat
  | created hcreated hd => exact hcreated.specialAt h.sound hd hat
  | removed hremoved hd htarget _ =>
      exact hremoved.specialAt h.sound hd (htable.name file hfile) (hc.1.2 _ htarget)
        (hc.2 _ htarget) hat

/-! ## Formatting -/

theorem forall_mem_modify {α : Type} {P : α → Prop} {f : α → α} {l : List α}
    (hl : ∀ x ∈ l, P x) (hf : ∀ x ∈ l, P (f x)) (i : Nat) : ∀ x ∈ l.modify i f, P x := by
  intro x hx
  obtain ⟨j, hj⟩ := List.mem_iff_getElem?.mp hx
  rw [List.getElem?_modify] at hj
  obtain ⟨y, hy, rfl⟩ := Option.map_eq_some_iff.mp hj
  have hmem : y ∈ l := List.mem_of_getElem? hy
  split
  · exact hf y hmem
  · exact hl y hmem

/-- Opening the system files puts descriptors into their table. -/
theorem openEach_validFd {files : List (SpecialFile δ)} {i : Nat}
    (hk : ∀ file ∈ k.systemFiles, ValidFd file.fd) (h : openEach files i k = .ok k') :
    ∀ file ∈ k'.systemFiles, ValidFd file.fd := by
  induction files generalizing k i with
  | nil =>
      cases h
      exact hk
  | cons file files ih =>
      obtain ⟨fd, k₁, dev, hopen, hne, h⟩ := openEach_cons_ok h
      have hfd : ValidFd fd := by
        obtain ⟨t, -, d, -, r, -, ⟨hneg, -, -⟩ | ⟨-, n, rfl, hopened⟩⟩ := openFile_ok hopen
        · exact absurd hneg hne
        · exact .inr ⟨Int.natCast_nonneg n, Int.ofNat_lt.mpr hopened.lt⟩
      rw [← openFile_systemFiles hopen] at hk
      exact ih (forall_mem_modify hk (fun _ _ ↦ hfd) i) h

/-- The kernel after a disk was formatted by a system with these system files. -/
def FormattedWith (files : List (SpecialFile δ)) (k : Kernel δ) : Prop :=
  ∃ k₀ diskSize env, Boot k₀ ∧ k₀.systemFiles = files ∧ diskSize < 2 ^ 64 ∧
    formatDisk k₀ diskSize env = .ok k

theorem FormattedWith.formatted {files : List (SpecialFile δ)} (h : FormattedWith files k) :
    Formatted k := by
  obtain ⟨k₀, diskSize, env, hboot, -, -, hformat⟩ := h
  exact ⟨k₀, diskSize, env, hboot, hformat⟩

theorem formattedWith_terminalKernel :
    FormattedWith terminalBoot.systemFiles terminalKernel :=
  ⟨terminalBoot, 0x100000, _, ⟨⟨_, rfl⟩, ⟨_, rfl⟩⟩, rfl, by decide, formatDisk_terminalBoot⟩

theorem map_modify_eq {α β : Type} {f : α → β} {g : α → α} (hfg : ∀ x, f (g x) = f x) (l : List α)
    (i : Nat) : (l.modify i g).map f = l.map f := by
  induction l generalizing i with
  | nil => rw [List.modify_nil]
  | cons x l ih =>
      cases i with
      | zero => exact congrArg (· :: l.map f) (hfg x)
      | succ i => exact congrArg (f x :: ·) (ih i)

/-- An entry of the table of system files, without its descriptor. -/
def closedFile (file : SpecialFile δ) : SpecialFile δ := { file with fd := -1 }

/-- Opening the system files changes nothing else in their table. -/
theorem openEach_systemFiles {files : List (SpecialFile δ)} {i : Nat}
    (h : openEach files i k = .ok k') :
    k'.systemFiles.map closedFile = k.systemFiles.map closedFile := by
  induction files generalizing k i with
  | nil =>
      cases h
      rfl
  | cons file files ih =>
      obtain ⟨fd, k₁, dev, hopen, -, h⟩ := openEach_cons_ok h
      have hclosed : ∀ file : SpecialFile δ,
          closedFile { file with fd := fd } = closedFile file := fun _ ↦ rfl
      rw [ih h, ← openFile_systemFiles hopen]
      exact map_modify_eq hclosed _ _

/-- The table after formatting is the one that the system started with, but for
descriptors. -/
theorem FormattedWith.systemFiles {files : List (SpecialFile δ)} (h : FormattedWith files k) :
    k.systemFiles.map closedFile = files.map closedFile := by
  obtain ⟨k₀, diskSize, env, ⟨⟨disk, hdisk⟩, -⟩, hfiles, -, h⟩ := h
  obtain ⟨fs, k₁, -, -, hsys, hopened⟩ := formatDisk_ok hdisk h
  have hstart : ({ k₀ with fs := fs } : Kernel δ).systemFiles = files := hfiles
  have hk₁ : k₁.systemFiles = files :=
    createSystemFiles_invariant (I := fun k ↦ k.systemFiles = files)
      (fun hI _ hx ↦ (exec_systemFiles hx).trans hI) hstart hsys
  rw [openEach_systemFiles hopened, hk₁]

theorem formatMetadata_super {diskSize : Nat} {env : Surroundings}
    (h : formatMetadata fs diskSize env = .ok fs') :
    fs'.globalSuper = formattedSuper fs diskSize := by
  simp only [formatMetadata, bind_eq_ok, Prod.exists] at h
  obtain ⟨ibmap, -, range, dbmap, -, null, -, h⟩ := h
  cases h
  rfl

/-- The super block that formatting writes is one that a mount can rely on. -/
theorem mountableSuper_formattedSuper (fs : FileSystem) {diskSize : Nat}
    (h : diskSize < 2 ^ 64) : MountableSuper (formattedSuper fs diskSize) where
  range := by
    refine ⟨h, Nat.mod_lt _ (by decide), ?_, ?_, ?_, ?_, ?_, ?_⟩
    all_goals exact of_decide_eq_true rfl
  layout := ⟨rfl, rfl, rfl, rfl⟩
  recognized := by
    rw [FileSystemSuper.Recognized, strcmp_eq_zero (by decide)]
    have hcopy := isString_strcpy (ataReadBlock fs.disk 0) 0 (ofText "Yorha")
    rwa [Bytes.drop_zero] at hcopy

/-- Empty tables are in range. -/
theorem Blank.inodesInRange (h : Blank fs) : InodesInRange fs := by
  intro i _
  by_cases hi : i = 0
  · rw [hi, h.root]
    exact ⟨by decide, by decide, by decide⟩
  · rw [h.others i hi]
    exact ⟨by decide, by decide, by decide⟩

/-- **After formatting, the next mount completes.** -/
theorem FormattedWith.remountInv {files : List (SpecialFile δ)} (htable : SystemTable files)
    (h : FormattedWith files k) : RemountInv files k := by
  have hf := h.formatted
  obtain ⟨k₀, diskSize, env, ⟨⟨disk, hdisk⟩, -⟩, hfiles, hsize, h⟩ := h
  obtain ⟨fs, k₁, hmeta, hblank, hsys, hopened⟩ := formatDisk_ok hdisk h
  have hsuper := formatMetadata_super hmeta
  have hstart : Mountable ({ k₀ with fs := fs } : Kernel δ) := by
    refine ⟨?_, hblank.inodesInRange, fun file hfile ↦ .inl ?_⟩
    · rw [hsuper]
      exact mountableSuper_formattedSuper _ hsize
    · rw [show ({ k₀ with fs := fs } : Kernel δ).systemFiles = files from hfiles] at hfile
      exact htable.closed file hfile
  have hmount : Mountable k₁ :=
    createSystemFiles_invariant (I := Mountable) (fun hI _ hx ↦ hI.step hx) hstart hsys
  obtain ⟨-, -, -, hat⟩ := Blank.createSystemFiles hblank hsys
  obtain ⟨t, ht⟩ := openEach_fs hopened
  refine ⟨hf.quiet.sound, hf.metadataOwned, ⟨?_, ?_, openEach_validFd hmount.fds hopened⟩, ?_⟩
  · rw [ht]
    exact hmount.super
  · rw [ht]
    exact hmount.inodes
  · intro file hfile
    rw [ht]
    exact hat file (hfiles.symm ▸ hfile)

/-! ## Mounting -/

/-- Tables that came back from the disk have the same tree. -/
theorem sameTree_of_sameTables (hs : Sound fs) (hm : MetadataOwned fs) (h : SameTables fs fs')
    (hdata : ∀ b, dataRegionStart ≤ b → fs'.disk b = fs.disk b) : SameTree fs fs' := by
  have hinode : ∀ i, fs'.inode i = { fs.inode i with name := (fs'.inode i).name } := by
    intro i
    by_cases hi : i < inodeCount
    · exact (h.inode i hi).fields
    · have hnone : ∀ fs : FileSystem, fs.inode i = {} := by
        intro fs
        rw [FileSystem.inode, Vector.getElem?_eq_none (Nat.le_of_not_lt hi)]
        rfl
      rw [hnone fs, hnone fs']
  have hstart : ∀ i, (fs'.inode i).dataBlockStart = (fs.inode i).dataBlockStart := by
    intro i
    rw [hinode]
  refine ⟨?_, h.ibmap, h.dbmap, fun i ↦ by rw [hinode], hstart, fun _ _ ↦ by rw [hinode],
    fun {d} hd hdir ↦ ?_⟩
  · rw [h.super.fields]
  · have hsp := hdir.not_isSpecial
    rw [FileSystem.block, FileSystem.block, hstart, ataReadBlock, ataReadBlock,
      blockAddress_of_lt (lt_trans (hs.block_lt hd) (by decide)), hdata _ (hm.block_ge hd hsp)]

/-- What the loop of `open_system_files` needs, with descriptors below `used` in use. -/
structure CanOpen (k : Kernel δ) (used : Nat) : Prop where
  sound : Sound k.fs
  heap : ∃ bottom live, Alike (AllocArray.initial bottom) k.heap.allocator ∧
    HeapInv k.heap.allocator live
  free : ∀ fd, used ≤ fd → k.fs.globalFdTable.marked fd = false
  initializes : ∀ file ∈ k.systemFiles, ∀ fd dev, ∃ dev', file.initializationFunc fd dev = .ok dev'

theorem initializeFirst_returns {files : List (SpecialFile δ)}
    (h : ∀ file ∈ files, ∀ fd dev, ∃ dev', file.initializationFunc fd dev = .ok dev') (fd : Int)
    (dev : δ) : ∃ dev', initializeFirst files fd dev = .ok dev' := by
  cases files with
  | nil => exact ⟨dev, rfl⟩
  | cons file files => exact h file List.mem_cons_self fd dev

/-- The heap has room for the path of a system file. -/
theorem CanOpen.room {used : Nat} (h : CanOpen k used) {filename : CString}
    (hname : SystemName filename) : ∃ r, Path k.heap (systemPath filename) = .ok r := by
  obtain ⟨bottom, live, halike, -⟩ := h.heap
  obtain ⟨⟨parsedPath, heap⟩, hr⟩ :=
    Path_initial bottom (fun _ ↦ 0) hname.nonempty hname.short
  obtain ⟨heap', hr'⟩ : ∃ heap', Path k.heap (systemPath filename) = .ok (parsedPath, heap') :=
    Path_alike halike hr
  exact ⟨_, hr'⟩

/-- The path leads to `/dev`. -/
theorem Sound.seekDirectory_systemPath (hs : Sound fs) {filename : CString} (hname : SystemName filename)
    {d : Nat} (hlead : Leads fs [ofText "dev"] d) :
    seekDirectory fs (parsePath (systemPath filename)).1.chars = .ok (d : Int) := by
  refine hs.seekDirectory_eq_ok hname.absolute ?_
  rw [hname.dirNames]
  exact hlead

/-- Opening one system file. -/
theorem CanOpen.openFile {used : Nat} (h : CanOpen k used) (hused : used < descriptorCount)
    {filename : CString} (hname : SystemName filename)
    (hat : SpecialAt k.fs (systemPath filename)) : ∃ (fd : Nat) (k' : Kernel δ),
      openFile k (systemPath filename) = .ok ((fd : Int), k') ∧ CanOpen k' (used + 1) ∧
      ∃ t, k'.fs = { k.fs with globalFdTable := t } := by
  obtain ⟨bottom, live, halike, hinv⟩ := h.heap
  obtain ⟨d, e, hlead, -, -, he⟩ := h.sound.leads_dev hname hat
  have hpath := h.room hname
  have hseek := h.sound.seekDirectory_systemPath hname hlead
  obtain ⟨fd, k', hopen⟩ := openFile_returns hinv hpath h.sound hlead.live hseek he hused
    (h.free used le_rfl)
  obtain ⟨t, ht, d', hseek', r, hsearch, hcase⟩ := openFile_ok hopen
  obtain ⟨halike', hkeeps⟩ := openFile_heap hinv hopen
  refine ⟨fd, k', hopen, ⟨?_, ⟨bottom, live, halike.trans halike', hkeeps.inv⟩, fun n hn ↦ ?_, ?_⟩, t, ht⟩
  · rw [ht]
    exact (SameTree.of_table k.fs t).sound h.sound
  · rw [ht]
    rcases hcase with ⟨hneg, -, -⟩ | ⟨-, m, -, hopened⟩
    · exact absurd hneg (by omega)
    · -- the first free descriptor is not behind `used`
      have hm : m ≤ used := by
        by_contra hlt
        have hmarked := hopened.first used (Nat.lt_of_not_le hlt)
        rw [h.free used le_rfl] at hmarked
        cases hmarked
      change t.marked n = false
      rw [hopened.marked, if_neg (by omega)]
      exact h.free n (by omega)
  · rw [openFile_systemFiles hopen]
    exact h.initializes

/-- **The loop of `open_system_files` completes.** -/
theorem CanOpen.openEach {files : List (SpecialFile δ)} {used i : Nat} (h : CanOpen k used)
    (hused : used + files.length ≤ descriptorCount)
    (hname : ∀ file ∈ files, SystemName file.filename)
    (hat : ∀ file ∈ files, SpecialAt k.fs (systemPath file.filename)) :
    ∃ k', openEach files i k = .ok k' := by
  induction files generalizing k used i with
  | nil => exact ⟨k, rfl⟩
  | cons file files ih =>
      rw [List.forall_mem_cons] at hname hat
      rw [List.length_cons] at hused
      obtain ⟨fd, k₁, hopen, hcan, t, ht⟩ := h.openFile (by omega) hname.1 hat.1
      have hinit : ∀ f ∈ k₁.systemFiles.modify i (fun file ↦ { file with fd := (fd : Int) }),
          ∀ fd dev, ∃ dev', f.initializationFunc fd dev = .ok dev' := by
        apply forall_mem_modify hcan.initializes
        exact fun f hf ↦ hcan.initializes f hf
      obtain ⟨dev, hdev⟩ := initializeFirst_returns hinit (fd : Int) k₁.dev
      have hnext : CanOpen ({ k₁ with
          systemFiles := k₁.systemFiles.modify i fun file ↦ { file with fd := (fd : Int) },
          dev := dev } : Kernel δ) (used + 1) :=
        ⟨hcan.sound, hcan.heap, hcan.free, hinit⟩
      obtain ⟨k', hk'⟩ := ih hnext (i := i + 1) (by omega) hname.2 (by
        intro f hf
        change SpecialAt k₁.fs _
        rw [ht]
        exact hat.2 f hf)
      refine ⟨k', ?_⟩
      have hne : ¬ (fd : Int) = -1 := by omega
      rw [Fs.openEach, show devPrefix.append file.filename = systemPath file.filename from rfl,
        hopen]
      simp only [ok_bind, if_neg hne, hdev]
      exact hk'

/-- Shutting down returns, and the system with these system files that starts from the disk
completes its mount. -/
def Remounts (files : List (SpecialFile δ)) (k : Kernel δ) : Prop :=
  ∀ env, ∃ k₁, shutdown k env = .ok k₁ ∧ ∀ (k₂ : Kernel δ) (diskSize : Nat) (env' : Surroundings),
    k₂.fs = FileSystem.zero k₁.fs.disk → (∃ bottom, k₂.heap.allocator = AllocArray.initial bottom) →
    k₂.systemFiles = files → ∃ k₃, initalizeFileSystem k₂ false diskSize env' = .ok (true, k₃)

/-- The system files can be opened in the next boot. -/
theorem RemountInv.canOpen {files : List (SpecialFile δ)} (htable : SystemTable files)
    (h : RemountInv files k) {k₁ k₂ : Kernel δ} {env : Surroundings}
    (hk₁ : shutdown k env = .ok k₁) (hk₂ : k₂.fs = FileSystem.zero k₁.fs.disk)
    (hheap : ∃ bottom, k₂.heap.allocator = AllocArray.initial bottom)
    (hfiles : k₂.systemFiles = files) :
    CanOpen ({ k₂ with fs := mountTables k₂.fs } : Kernel δ) 0 ∧
      (mountTables k₂.fs).globalSuper.Recognized ∧
      ∀ file ∈ files, SpecialAt (mountTables k₂.fs) (systemPath file.filename) := by
  subst hfiles
  obtain ⟨bottom, hheap⟩ := hheap
  obtain ⟨hdata, hsame⟩ := sameTables_of_shutdown ⟨h.mountable.super.range, h.mountable.inodes⟩
    h.mountable.super.layout hk₁
  have htree : SameTree k.fs (mountTables (FileSystem.zero k₁.fs.disk)) :=
    sameTree_of_sameTables h.sound h.metadata hsame hdata
  have hfree : ∀ fd, (mountTables (FileSystem.zero k₁.fs.disk)).globalFdTable.marked fd = false :=
    (unused_zero k₁.fs.disk).unmarked
  rw [← hk₂] at hsame htree hfree
  refine ⟨⟨htree.sound h.sound, ⟨bottom, fun _ ↦ none, ?_, ?_⟩, fun fd _ ↦ hfree fd, ?_⟩,
    hsame.super.recognized h.mountable.super.recognized,
    fun file hfile ↦ htree.specialAt h.sound (h.at_dev file hfile)⟩
  · rw [← hheap]
    exact alike_refl _
  · rw [show ({ k₂ with fs := mountTables k₂.fs } : Kernel δ).heap.allocator = _ from hheap]
    exact HeapInv.initial bottom
  · exact htable.initializes

/-- **The next mount completes.** -/
theorem RemountInv.remounts {files : List (SpecialFile δ)} (htable : SystemTable files)
    (h : RemountInv files k) : Remounts files k := by
  intro env
  obtain ⟨k₁, hk₁⟩ := shutdown_of_validFd h.mountable.fds env
  refine ⟨k₁, hk₁, fun k₂ diskSize env' hk₂ hheap hfiles ↦ ?_⟩
  obtain ⟨hcan, hrecognized, hat⟩ := h.canOpen htable hk₁ hk₂ hheap hfiles
  subst hfiles
  have hused : 0 + k₂.systemFiles.length ≤ descriptorCount := by
    rw [Nat.zero_add]
    exact htable.length_le
  obtain ⟨k₃, hk₃⟩ := hcan.openEach (i := 0) hused htable.name hat
  refine ⟨k₃, ?_⟩
  rw [initalizeFileSystem_of_recognized hrecognized, openSystemFiles, hk₃, ok_bind]

/-- **What calls that keep the system files reach can be mounted again.** -/
theorem remountInv_of_reaches {files : List (SpecialFile δ)} (htable : SystemTable files)
    {k₀ : Kernel δ} (h₀ : FormattedWith files k₀) (h : Reaches FsCall.exec KeepsDevices k₀ k) :
    RemountInv files k :=
  Reaches.invariant (I := RemountInv files) h (h₀.remountInv htable)
    fun hI hc hx ↦ hI.step htable hc hx

end Yorha.Fs
