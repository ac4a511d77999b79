import Yorha.Fs.Remount

/-!
# Names of entries

`Path` cuts a path behind its last slash, so the name of a new file has no slash.  But it may
be empty: nothing looks at the name of `"/"` or of `"/dev/"`.  If what is in front of the last
slash is a directory, an entry without a name is made in it, and no path leads through it.

As long as no such file is made, every name in every directory is one that paths are made of
(`wellNamed_of_reaches`).
-/

namespace Yorha.Fs

open Yorha.Lib Yorha.Str Yorha.Util Yorha.Heap

variable {δ : Type} {fs fs' : FileSystem} {k k' : Kernel δ} {path : CString} {c : FsCall}

/-! ## The name behind the last slash -/

/-- The loop finds the last slash, or keeps the number it started with. -/
theorem lastSlash_spec (path : List UInt8) (i last : Nat) :
    (slash ∉ path ∧ lastSlash path i last = last) ∨
      ∃ n, lastSlash path i last = i + n ∧ slash ∉ path.drop (n + 1) := by
  induction path generalizing i last with
  | nil => exact .inl ⟨List.not_mem_nil, rfl⟩
  | cons c path ih =>
      rw [lastSlash]
      rcases ih (i + 1) (if c = slash then i else last) with ⟨hpath, hlast⟩ | ⟨n, hlast, hdrop⟩
      · rw [hlast]
        split
        · exact .inr ⟨0, rfl, hpath⟩
        · rename_i hc
          refine .inl ⟨fun hmem ↦ ?_, rfl⟩
          rcases List.mem_cons.mp hmem with rfl | hmem
          · exact hc rfl
          · exact hpath hmem
      · refine .inr ⟨n + 1, ?_, hdrop⟩
        rw [hlast, Nat.add_right_comm, Nat.add_assoc]

/-- The last slash of a path is found. -/
theorem lastSlash_append {name : List UInt8} (h : slash ∉ name) (path : List UInt8) (i last : Nat) :
    lastSlash (path ++ slash :: name) i last = i + path.length := by
  induction path generalizing i last with
  | nil =>
      rw [List.nil_append, lastSlash, if_pos rfl]
      have hrest : ∀ name : List UInt8, slash ∉ name → ∀ j, lastSlash name j i = i := by
        intro name
        induction name with
        | nil => exact fun _ _ ↦ rfl
        | cons c name ih =>
            intro h j
            rw [List.mem_cons, not_or] at h
            rw [lastSlash, if_neg (Ne.symm h.1)]
            exact ih h.2 _
      exact hrest name h _
  | cons c path ih =>
      rw [List.cons_append, lastSlash, ih, List.length_cons]
      omega

/-- The name of a path has no slash. -/
theorem slash_notMem_fileName (path : CString) : slash ∉ fileName path := by
  change slash ∉ path.chars.drop (lastSlash path.chars 0 0 + 1)
  rcases lastSlash_spec path.chars 0 0 with ⟨hpath, -⟩ | ⟨n, hlast, hdrop⟩
  · exact fun hmem ↦ hpath (List.mem_of_mem_drop hmem)
  · rw [hlast, Nat.zero_add]
    exact hdrop

/-! ## Names -/

/-- A name that paths can be made of. -/
structure WellFormedName (name : Name) : Prop where
  nonempty : name ≠ []
  slash : slash ∉ name

/-- Every entry of every live directory has a name. -/
def WellNamed (fs : FileSystem) : Prop :=
  ∀ d, fs.Live d → fs.IsDir d → ∀ entry ∈ fs.children d, WellFormedName entry.1

/-- If the path ends with a slash, there is no directory in front of it. -/
def NamesFile (fs : FileSystem) (path : CString) : Prop :=
  fileName path = [] →
    ∀ d : Fin inodeCount, seekDirectory fs (parsePath path).1.chars ≠ .ok ((d : Nat) : Int)

instance (fs : FileSystem) (path : CString) : Decidable (NamesFile fs path) :=
  inferInstanceAs (Decidable (_ → _))

/-- A call that makes no file without a name. -/
def FsCall.Names (fs : FileSystem) : FsCall → Prop
  | .createFiletype path _ _ _ => NamesFile fs path
  | _ => True

instance (fs : FileSystem) : ∀ c : FsCall, Decidable (c.Names fs)
  | .createFiletype path _ _ _ => inferInstanceAs (Decidable (NamesFile fs path))
  | .openFile _ => inferInstanceAs (Decidable True)
  | .close _ => inferInstanceAs (Decidable True)
  | .read _ _ _ => inferInstanceAs (Decidable True)
  | .write _ _ _ => inferInstanceAs (Decidable True)
  | .seek _ _ _ => inferInstanceAs (Decidable True)
  | .unlink _ _ => inferInstanceAs (Decidable True)

/-- A call that writes nothing, makes no file without a name, and frees the block of no live
file. -/
def KeepsNames (fs : FileSystem) (c : FsCall) : Prop := KeepsQuiet fs c ∧ c.Names fs

instance (fs : FileSystem) (c : FsCall) : Decidable (KeepsNames fs c) :=
  inferInstanceAs (Decidable (_ ∧ _))

section

variable {fileType : UInt8} {past : Bytes} {d e i b : Nat}

/-- **Making a file keeps the names well formed exactly if it has a name.** -/
theorem Created.wellNamed_iff (h : Created fs fs' path fileType d i b) (hs : Sound fs)
    (hd : fs.Live d) (hw : WellNamed fs) : WellNamed fs' ↔ fileName path ≠ [] := by
  have hlive' : fs'.Live d := (h.live_iff d).mpr (.inr hd)
  have hdir' : fs'.IsDir d := (h.isDir_iff hd hd).mpr h.parent_dir
  constructor
  · intro hw'
    refine (hw' d hlive' hdir' (fileName path, i) ?_).nonempty
    rw [h.children_parent hs hd]
    exact List.mem_append_right _ (List.mem_singleton_self _)
  · intro hname j hj hdir entry hmem
    by_cases hjd : j = d
    · rw [hjd, h.children_parent hs hd, List.mem_append, List.mem_singleton] at hmem
      rcases hmem with hmem | rfl
      · exact hw d hd h.parent_dir entry hmem
      · exact ⟨hname, slash_notMem_fileName path⟩
    · rcases (h.live_iff j).mp hj with rfl | hj
      · rw [h.children_self hd] at hmem
        cases hmem
      · rw [h.children_eq hs hd hj hjd] at hmem
        exact hw j hj ((h.isDir_iff hd hj).mp hdir) entry hmem

/-- Removing a file keeps the names. -/
theorem Removed.wellNamed (h : Removed fs fs' path past d e) (hs : Sound fs) (hd : fs.Live d)
    (hw : WellNamed fs) : WellNamed fs' := by
  intro j hj hdir entry hmem
  have hlive := ((h.live_iff j).mp hj).2
  have hdir := (h.isDir_iff j).mp hdir
  by_cases hjd : j = d
  · obtain ⟨n, -, -, -, -, hchildren⟩ := h.parent_eq hs hd
    rw [hjd, hchildren] at hmem
    exact hw d hd h.parent_dir entry (List.mem_of_mem_eraseIdx hmem)
  · rw [h.children_eq hs hd hlive hjd] at hmem
    exact hw j hlive hdir entry hmem

end

/-- The descriptor table has no names of entries. -/
theorem WellNamed.of_table (h : WellNamed fs) (t : FileDescriptorTable) :
    WellNamed { fs with globalFdTable := t } := h

/-! ## Runs -/

/-- What is kept. -/
structure NamesInv (fs : FileSystem) : Prop where
  quiet : Quiet fs
  named : WellNamed fs

/-- **Step.**  A call that makes no file without a name keeps the names well formed. -/
theorem NamesInv.step (h : NamesInv fs) (hc : KeepsNames fs c) (he : Effect fs fs' c) :
    NamesInv fs' := by
  refine ⟨he.quiet h.quiet hc.1, ?_⟩
  cases he with
  | moved ht _ => exact ht ▸ h.named
  | @created path _ _ _ d i b _ hcreated _ =>
      have hd := (h.quiet.sound.leads (h.quiet.safePath path) hcreated.seek).2.live
      refine (hcreated.wellNamed_iff h.quiet.sound hd h.named).mpr fun hname ↦ ?_
      exact hc.2 hname ⟨d, hcreated.parent_lt⟩ hcreated.seek
  | opened ht _ _ _ _ => exact ht ▸ h.named
  | closed ht _ => exact ht ▸ h.named
  | wrote => exact hc.1.elim
  | @removed path _ d e hr =>
      have hd := (h.quiet.sound.leads (h.quiet.safePath path) hr.seek).2.live
      exact hr.wellNamed h.quiet.sound hd h.named

/-- A table of system files with names. -/
def NamedTable (files : List (SpecialFile δ)) : Prop :=
  ∀ file ∈ files, fileName (systemPath file.filename) ≠ []

theorem Blank.namesInv (h : Blank fs) : NamesInv fs where
  quiet := h.quiet
  named := by
    intro d hd _ entry hmem
    rw [h.children_live hd] at hmem
    cases hmem

/-- Making a file that has a name. -/
theorem NamesInv.createFiletype {fileType : UInt8} {past : Bytes} {v : Int} (h : NamesInv k.fs)
    (hname : fileName path ≠ []) (hx : createFiletype k path fileType false past = .ok (v, k')) :
    NamesInv k'.fs :=
  h.step (c := .createFiletype path fileType false past) ⟨trivial, fun hnil ↦ absurd hnil hname⟩
    (exec_ok hx)

theorem NamesInv.createEach {past : Bytes} {files : List (SpecialFile δ)}
    (hfiles : NamedTable files) (hI : NamesInv k.fs) (h : createEach past files k = .ok k') :
    NamesInv k'.fs := by
  induction files generalizing k with
  | nil =>
      cases h
      exact hI
  | cons file files ih =>
      obtain ⟨r, k₁, hmade, -, h⟩ := createEach_cons_ok h
      apply ih
      · exact fun file hfile ↦ hfiles file (List.mem_cons_of_mem _ hfile)
      · exact hI.createFiletype (hfiles file List.mem_cons_self) hmade
      · exact h

/-- **A formatted disk has well-formed names.** -/
theorem FormattedWith.namesInv {files : List (SpecialFile δ)} (hfiles : NamedTable files)
    (h : FormattedWith files k) : NamesInv k.fs := by
  obtain ⟨k₀, diskSize, env, ⟨⟨disk, hdisk⟩, -⟩, hsystem, -, h⟩ := h
  obtain ⟨fs, k₁, -, hblank, hsys, hopened⟩ := formatDisk_ok hdisk h
  obtain ⟨r, k₂, hmkdir, heach⟩ := createSystemFiles_ok hsys
  have htable : k₂.systemFiles = files := (createFiletype_systemFiles hmkdir).trans hsystem
  have hdev : NamesInv k₂.fs := hblank.namesInv.createFiletype (by decide) hmkdir
  have hmade : NamesInv k₁.fs := by
    rw [htable] at heach
    exact hdev.createEach hfiles heach
  obtain ⟨t, ht⟩ := openEach_fs hopened
  rw [ht]
  exact ⟨hmade.quiet.of_table t, hmade.named.of_table t⟩

/-- **Every name of every directory is well formed**, as long as no file is made in a
directory by a path that ends with a slash. -/
theorem wellNamed_of_reaches {files : List (SpecialFile δ)} (hfiles : NamedTable files)
    {k₀ : Kernel δ} (h₀ : FormattedWith files k₀)
    (h : Reaches FsCall.exec (fun k c ↦ KeepsNames k.fs c) k₀ k) : WellNamed k.fs := by
  have hinv : NamesInv k.fs := by
    refine Reaches.invariant (I := fun k ↦ NamesInv k.fs) h (h₀.namesInv hfiles) ?_
    intro s c v t hI hc hx
    exact NamesInv.step hI hc (exec_ok hx)
  exact hinv.named

/-- A directory with two files, one of which is removed; what is in front of the last slash of
the last path is not a directory. -/
def namedCalls : List FsCall :=
  [.mkdir ⟨ofText "/home", by decide⟩ (fun _ ↦ 0),
    .create ⟨ofText "/home/in", by decide⟩ (fun _ ↦ 0),
    .create ⟨ofText "/home/out", by decide⟩ (fun _ ↦ 0),
    .unlink ⟨ofText "/home/in", by decide⟩ (fun _ ↦ 0),
    .create ⟨ofText "/home/out/", by decide⟩ (fun _ ↦ 0)]

theorem wellNamed_namedCalls : ∃ k,
    runCalls FsCall.exec (fun k c ↦ KeepsNames k.fs c) namedCalls terminalKernel = some k ∧
      WellNamed k.fs := by
  obtain ⟨k, hk⟩ := Option.isSome_iff_exists.mp
    (show (runCalls FsCall.exec (fun k c ↦ KeepsNames k.fs c) namedCalls terminalKernel).isSome =
      true by decide +kernel)
  refine ⟨k, hk, wellNamed_of_reaches ?_ formattedWith_terminalKernel (reaches_of_runCalls hk)⟩
  intro file hfile
  have hnamed : ∀ file ∈ terminalBoot.systemFiles, fileName (systemPath file.filename) ≠ [] := by
    decide
  exact hnamed file hfile

/-- Two files are made, by paths that end with a slash. -/
def namelessCalls : List FsCall :=
  [.create ⟨ofText "/", by decide⟩ (fun _ ↦ 0), .mkdir devPrefix (fun _ ↦ 0)]

/-- **Both calls make an entry without a name.** -/
theorem namelessCalls_name_nothing : FormattedWith terminalBoot.systemFiles terminalKernel ∧
    ∃ k, runCalls FsCall.exec (fun _ _ ↦ True) namelessCalls terminalKernel = some k ∧
      (k.fs.Live 0 ∧ ([], 4) ∈ k.fs.children 0) ∧ (k.fs.Live 1 ∧ ([], 5) ∈ k.fs.children 1) ∧
      ¬ WellNamed k.fs := by
  obtain ⟨k, hk, hcheck⟩ := (Option.any_eq_true _ _).mp
    (show (runCalls FsCall.exec (fun _ _ ↦ True) namelessCalls terminalKernel).any (fun k ↦
      decide ((k.fs.Live 0 ∧ ([], 4) ∈ k.fs.children 0) ∧
        (k.fs.Live 1 ∧ ([], 5) ∈ k.fs.children 1))) = true by decide +kernel)
  obtain ⟨⟨hlive, hmem⟩, hdev⟩ := of_decide_eq_true hcheck
  refine ⟨formattedWith_terminalKernel, k, hk, ⟨hlive, hmem⟩, hdev, fun h ↦ ?_⟩
  obtain ⟨n, hn⟩ := List.mem_iff_getElem?.mp hmem
  exact (h 0 hlive (FileSystem.isDir_of_child hn) _ hmem).nonempty rfl

end Yorha.Fs
