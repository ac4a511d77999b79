import Yorha.Fs.Sound

/-!
# Following a path

`seek_directory` collects the characters of a path into names and looks each name up
as soon as it is complete.  `components` is the list of these names, and `walk` looks
up a list of names; the two together are the code's loop (`seekLoop_eq_walk`).

In a sound file system a walk that reads directories only follows the labels of the
forest (`Sound.walk_ok`, `Sound.walk_eq_ok`).
-/

namespace Yorha.Fs

open Yorha.Lib Yorha.Str Yorha.Util

/-! ## Searching without descriptors -/

section

variable (fs : FileSystem) (t : FileDescriptorTable)

/-- Directories are searched without descriptors. -/
theorem seekLoop_table (dirPath nextDir : List UInt8) (inodeNum : Nat) :
    seekLoop { fs with globalFdTable := t } dirPath nextDir inodeNum =
      seekLoop fs dirPath nextDir inodeNum := by
  induction dirPath generalizing nextDir inodeNum with
  | nil => rfl
  | cons c dirPath ih =>
      simp only [seekLoop, ih]
      rfl

theorem seekDirectory_table (dirPath : List UInt8) :
    seekDirectory { fs with globalFdTable := t } dirPath = seekDirectory fs dirPath := by
  cases dirPath with
  | nil => rfl
  | cons c dirPath =>
      rw [seekDirectory, seekDirectory, seekLoop_table]

end

/-! ## The names of a path -/

/-- The names that the loop looks up; `nextDir` is the part of the first that is
already collected. -/
def components : List UInt8 → Name → List Name
  | [], _ => []
  | c :: dirPath, nextDir =>
      if c = slash ∨ dirPath = [] then
        (if c = slash then nextDir else nextDir ++ [c]) :: components dirPath []
      else components dirPath (nextDir ++ [c])

/-- Look up a list of names, from the inode `currentInodeNum` on. -/
def FileSystem.walk (fs : FileSystem) : List Name → Nat → Except Stop Int
  | [], currentInodeNum => do
      let inode ← fs.readInode currentInodeNum
      .ok (if inode.fileType = fileTypeDir then toInt32 currentInodeNum else -1)
  | name :: names, currentInodeNum =>
      if name.length < nameBytes then do
        let dirInode ← fs.readInode currentInodeNum
        let buf := ataReadBlock fs.disk dirInode.dataBlockStart
        match ← scanEntries buf name (dirInode.size / entryBytes) 0 with
        | some fileInodeNumber =>
            if toInt32 fileInodeNumber = -1 then .ok (-1) else fs.walk names fileInodeNumber
        | none => .ok (-1)
      else .error .fault

/-- A name that is already too long makes the walk fault. -/
theorem walk_components_of_long (fs : FileSystem) {dirPath : List UInt8} (h : dirPath ≠ [])
    {nextDir : Name} (hlong : ¬ nextDir.length < nameBytes) (i : Nat) :
    fs.walk (components dirPath nextDir) i = .error .fault := by
  induction dirPath generalizing nextDir with
  | nil => exact absurd rfl h
  | cons c dirPath ih =>
      have happend : ¬ (nextDir ++ [c]).length < nameBytes := by
        rw [List.length_append]
        omega
      rw [components]
      split
      · have hname : ¬ (if c = slash then nextDir else nextDir ++ [c]).length < nameBytes := by
          split
          · exact hlong
          · exact happend
        rw [FileSystem.walk, if_neg hname]
      · rename_i hlast
        exact ih (fun hnil ↦ hlast (.inr hnil)) happend

/-- **The loop of `seek_directory` looks up the components of the path.** -/
theorem seekLoop_eq_walk (fs : FileSystem) (dirPath : List UInt8) (nextDir : Name) (i : Nat) :
    seekLoop fs dirPath nextDir i = fs.walk (components dirPath nextDir) i := by
  induction dirPath generalizing nextDir i with
  | nil => rfl
  | cons c dirPath ih =>
      rw [seekLoop, components]
      by_cases hlast : c = slash ∨ dirPath = []
      · rw [if_pos hlast, if_pos hlast, FileSystem.walk]
        have hrest : seekLoop fs dirPath [] = fs.walk (components dirPath []) := funext (ih [])
        exact hrest ▸ rfl
      · rw [if_neg hlast, if_neg hlast]
        split
        · exact ih _ _
        · rename_i hlong
          refine (walk_components_of_long fs (fun hnil ↦ hlast (.inr hnil)) ?_ i).symm
          rw [List.length_append]
          omega

/-- The names of a path have no terminator inside. -/
theorem zero_notMem_components {dirPath : List UInt8} {nextDir : Name} (h : 0 ∉ dirPath)
    (hnext : 0 ∉ nextDir) : ∀ name ∈ components dirPath nextDir, 0 ∉ name := by
  induction dirPath generalizing nextDir with
  | nil => exact fun name hname ↦ absurd hname List.not_mem_nil
  | cons c dirPath ih =>
      rw [List.mem_cons, not_or] at h
      have happend : 0 ∉ nextDir ++ [c] := by
        rw [List.mem_append, List.mem_singleton, not_or]
        exact ⟨hnext, h.1⟩
      intro name hname
      rw [components] at hname
      split at hname
      · rcases List.mem_cons.mp hname with rfl | hname
        · split
          · exact hnext
          · exact happend
        · exact ih h.2 List.not_mem_nil name hname
      · exact ih h.2 happend name hname

/-- A walk returns -1 or the number of a directory. -/
theorem walk_ok_range {fs : FileSystem} {names : List Name} {i : Nat} {r : Int}
    (h : fs.walk names i = .ok r) :
    r = -1 ∨ ∃ d : Nat, r = d ∧ d < inodeCount ∧ fs.IsDir d := by
  induction names generalizing i with
  | nil =>
      rw [FileSystem.walk, bind_eq_ok] at h
      obtain ⟨inode, hread, h⟩ := h
      obtain ⟨hlt, rfl⟩ := FileSystem.readInode_eq_ok.mp hread
      cases h
      split
      · rename_i hdir
        exact .inr ⟨i, toInt32_of_lt (lt_trans hlt (by decide)), hlt, hdir⟩
      · exact .inl rfl
  | cons name names ih =>
      rw [FileSystem.walk] at h
      split at h
      · simp only [bind_eq_ok] at h
        obtain ⟨inode, -, o, -, h⟩ := h
        split at h
        · split at h
          · cases h
            exact .inl rfl
          · exact ih h
        · cases h
          exact .inl rfl
      · cases h

/-! ## Walks through directories -/

/-- The walk reads entries of directories only. -/
def FileSystem.WalksDirs (fs : FileSystem) : List Name → Nat → Prop
  | [], _ => True
  | name :: names, i => (fs.IsDir i ∨ fs.files i = 0) ∧
      match (fs.entries i).lookup name with
      | some next => fs.WalksDirs names next
      | none => True

instance FileSystem.decidableWalksDirs (fs : FileSystem) :
    ∀ (names : List Name) (i : Nat), Decidable (fs.WalksDirs names i)
  | [], _ => inferInstanceAs (Decidable True)
  | name :: names, i =>
      let _ : Decidable (match (fs.entries i).lookup name with
          | some next => fs.WalksDirs names next
          | none => True) :=
        match (fs.entries i).lookup name with
        | some next => fs.decidableWalksDirs names next
        | none => inferInstanceAs (Decidable True)
      inferInstanceAs (Decidable (_ ∧ _))

/-- The names of the directory part of a path. -/
def dirNames (path : CString) : List Name := components (parsePath path).1.chars.tail []

/-- The name behind the last slash of a path. -/
def fileName (path : CString) : Name := (parsePath path).2.chars

theorem zero_notMem_fileName (path : CString) : 0 ∉ fileName path := (parsePath path).2.nonzero

/-- The directory part of the path starts with a slash. -/
def Absolute (path : CString) : Prop := (parsePath path).1.chars.head? = some slash

instance (path : CString) : Decidable (Absolute path) := inferInstanceAs (Decidable (_ = _))

/-- Following the directory part of a path reads entries of directories only. -/
def FileSystem.SafePath (fs : FileSystem) (path : CString) : Prop :=
  Absolute path → fs.WalksDirs (dirNames path) 0

instance (fs : FileSystem) (path : CString) : Decidable (fs.SafePath path) :=
  inferInstanceAs (Decidable (_ → _))

/-- The names that lead to a directory, and the directory. -/
structure Leads (fs : FileSystem) (names : List Name) (d : Nat) : Prop where
  live : fs.Live d
  dir : fs.IsDir d
  resolve : fs.forest.resolve names 0 = some d
  short : ∀ name ∈ names, name.length < nameBytes

section

variable {fs : FileSystem} {i d : Nat} {name : Name} {names : List Name} {r : Int}

/-- Reading an inode without entries, or a directory's entries. -/
theorem Sound.scan_of_dir_or_empty (h : Sound fs) (hi : fs.Live i)
    (hdir : fs.IsDir i ∨ fs.files i = 0) (hname : 0 ∉ name) :
    scanEntries (fs.block i) name (fs.files i) 0 = .ok ((fs.children i).lookup name) := by
  by_cases hd : fs.IsDir i
  · rw [FileSystem.children_of_isDir hd]
    exact scanEntries_eq hname (h.files_le hi hd) (h.names hi hd)
  · rw [hdir.resolve_left hd, FileSystem.children_of_not_isDir hd]
    rfl

/-- Where nothing but directories is read, the children are the entries. -/
theorem children_eq_entries (hdir : fs.IsDir i ∨ fs.files i = 0) :
    fs.children i = fs.entries i := by
  by_cases hd : fs.IsDir i
  · exact FileSystem.children_of_isDir hd
  · rw [FileSystem.children_of_not_isDir hd,
      FileSystem.entries_of_files_eq_zero (hdir.resolve_left hd)]

/-- One step of a walk. -/
theorem Sound.walk_cons (h : Sound fs) (hi : fs.Live i) (hdir : fs.IsDir i ∨ fs.files i = 0)
    (hname : 0 ∉ name) : fs.walk (name :: names) i =
      if name.length < nameBytes then
        match (fs.children i).lookup name with
        | some next => fs.walk names next
        | none => .ok (-1)
      else .error .fault := by
  have hread : fs.readInode i = .ok (fs.inode i) :=
    FileSystem.readInode_eq_ok.mpr ⟨h.lt hi, rfl⟩
  have hscan := h.scan_of_dir_or_empty hi hdir hname
  rw [FileSystem.walk]
  refine if_congr Iff.rfl ?_ rfl
  rw [hread, ok_bind]
  change (scanEntries (fs.block i) name (fs.files i) 0 >>= _) = _
  rw [hscan, ok_bind]
  cases hl : (fs.children i).lookup name with
  | none => rfl
  | some next =>
      have hnext : next < 2 ^ 31 := lt_trans (h.lt (h.live_of_lookup hi hl)) (by decide)
      refine if_neg ?_
      rw [toInt32_of_lt hnext]
      omega

/-- The end of a walk. -/
theorem Sound.walk_nil (h : Sound fs) (hi : fs.Live i) :
    fs.walk [] i = .ok (if fs.IsDir i then (i : Int) else -1) := by
  have hread : fs.readInode i = .ok (fs.inode i) :=
    FileSystem.readInode_eq_ok.mpr ⟨h.lt hi, rfl⟩
  rw [FileSystem.walk, hread, ok_bind, toInt32_of_lt (lt_trans (h.lt hi) (by decide))]
  rfl

/-- **A walk that returns a directory has followed the labels of the forest.** -/
theorem Sound.walk_ok (h : Sound fs) (hi : fs.Live i) (hnames : ∀ name ∈ names, 0 ∉ name)
    (hsafe : fs.WalksDirs names i) (hr : fs.walk names i = .ok r) :
    r = -1 ∨ ∃ d : Nat, r = d ∧ fs.Live d ∧ fs.IsDir d ∧ fs.forest.resolve names i = some d ∧
      ∀ name ∈ names, name.length < nameBytes := by
  induction names generalizing i with
  | nil =>
      rw [h.walk_nil hi] at hr
      cases hr
      split
      · rename_i hdir
        exact .inr ⟨i, rfl, hi, hdir, rfl, fun _ hname ↦ absurd hname List.not_mem_nil⟩
      · exact .inl rfl
  | cons name names ih =>
      rw [List.forall_mem_cons] at hnames
      obtain ⟨hdir, hnext⟩ := hsafe
      rw [h.walk_cons hi hdir hnames.1] at hr
      split at hr
      · rename_i hshort
        rw [← children_eq_entries hdir] at hnext
        cases hl : (fs.children i).lookup name with
        | none =>
            rw [hl] at hr
            cases hr
            exact .inl rfl
        | some next =>
            rw [hl] at hr hnext
            rcases ih (h.live_of_lookup hi hl) hnames.2 hnext hr with
              hneg | ⟨d, hd, hlive, hdir', hres, hall⟩
            · exact .inl hneg
            · refine .inr ⟨d, hd, hlive, hdir', ?_, List.forall_mem_cons.mpr ⟨hshort, hall⟩⟩
              rw [Forest.resolve, FileSystem.forest_children, hl]
              exact hres
      · cases hr

/-- A walk that follows labels of the forest to a directory returns it. -/
theorem Sound.walk_eq_ok (h : Sound fs) (hi : fs.Live i) (hnames : ∀ name ∈ names, 0 ∉ name)
    (hshort : ∀ name ∈ names, name.length < nameBytes)
    (hres : fs.forest.resolve names i = some d) (hd : fs.IsDir d) :
    fs.walk names i = .ok (d : Int) := by
  induction names generalizing i with
  | nil =>
      obtain rfl : i = d := Option.some.inj hres
      rw [h.walk_nil hi, if_pos hd]
  | cons name names ih =>
      rw [List.forall_mem_cons] at hnames hshort
      rw [Forest.resolve, Option.bind_eq_some_iff, FileSystem.forest_children] at hres
      obtain ⟨next, hl, hres⟩ := hres
      have hdir : fs.IsDir i := FileSystem.isDir_of_lookup hl
      rw [h.walk_cons hi (.inl hdir) hnames.1, if_pos hshort.1, hl]
      exact ih (h.live_of_lookup hi hl) hnames.2 hshort.2 hres

/-! ## `seek_directory` -/

theorem zero_notMem_dirNames (path : CString) : ∀ name ∈ dirNames path, 0 ∉ name :=
  zero_notMem_components (fun h ↦ (parsePath path).1.nonzero (List.mem_of_mem_tail h))
    List.not_mem_nil

/-- `seek_directory` on an absolute path. -/
theorem seekDirectory_eq_walk (fs : FileSystem) {dirPath : List UInt8}
    (h : dirPath.head? = some slash) :
    seekDirectory fs dirPath = fs.walk (components dirPath.tail []) 0 := by
  cases dirPath with
  | nil => cases h
  | cons c dirPath =>
      obtain rfl : c = slash := Option.some.inj h
      rw [seekDirectory, if_pos rfl, seekLoop_eq_walk]
      rfl

/-- `seek_directory` on a relative path. -/
theorem seekDirectory_of_head_ne (fs : FileSystem) {dirPath : List UInt8}
    (h : dirPath.head? ≠ some slash) : seekDirectory fs dirPath = .ok (-1) := by
  cases dirPath with
  | nil => rfl
  | cons c dirPath => exact if_neg fun hc ↦ h (congrArg some hc)

/-- A relative path leads nowhere. -/
theorem seekDirectory_of_relative (fs : FileSystem) {path : CString} (h : ¬ Absolute path) :
    seekDirectory fs (parsePath path).1.chars = .ok (-1) := seekDirectory_of_head_ne fs h

/-- `seek_directory` returns -1 or the number of a directory. -/
theorem seekDirectory_ok_range {dirPath : List UInt8} (h : seekDirectory fs dirPath = .ok r) :
    r = -1 ∨ ∃ d : Nat, r = d ∧ d < inodeCount ∧ fs.IsDir d := by
  by_cases habs : dirPath.head? = some slash
  · rw [seekDirectory_eq_walk fs habs] at h
    exact walk_ok_range h
  · rw [seekDirectory_of_head_ne fs habs] at h
    cases h
    exact .inl rfl

/-- **What `seek_directory` returns**: -1, or the live directory that the names of an
absolute path lead to. -/
theorem Sound.seekDirectory_ok (h : Sound fs) {path : CString} (hsafe : fs.SafePath path)
    (hr : seekDirectory fs (parsePath path).1.chars = .ok r) :
    r = -1 ∨ Absolute path ∧ ∃ d : Nat, r = d ∧ Leads fs (dirNames path) d := by
  by_cases habs : Absolute path
  · rw [seekDirectory_eq_walk fs habs] at hr
    rcases h.walk_ok h.root_live (zero_notMem_dirNames path) (hsafe habs) hr with
      hneg | ⟨d, hd, hlive, hdir, hres, hshort⟩
    · exact .inl hneg
    · exact .inr ⟨habs, d, hd, hlive, hdir, hres, hshort⟩
  · rw [seekDirectory_of_relative fs habs] at hr
    cases hr
    exact .inl rfl

/-- The directory that `seek_directory` finds on a safe path. -/
theorem Sound.leads (h : Sound fs) {path : CString} (hsafe : fs.SafePath path)
    (hr : seekDirectory fs (parsePath path).1.chars = .ok (d : Int)) :
    Absolute path ∧ Leads fs (dirNames path) d := by
  rcases h.seekDirectory_ok hsafe hr with hneg | ⟨habs, d', hd', hlead⟩
  · exact absurd hneg (by omega)
  · obtain rfl : d = d' := Int.ofNat.inj hd'
    exact ⟨habs, hlead⟩

/-- `seek_directory` finds a directory that the names of an absolute path lead to. -/
theorem Sound.seekDirectory_eq_ok (h : Sound fs) {path : CString}
    (habs : Absolute path) (hd : Leads fs (dirNames path) d) :
    seekDirectory fs (parsePath path).1.chars = .ok (d : Int) := by
  rw [seekDirectory_eq_walk fs habs]
  exact h.walk_eq_ok h.root_live (zero_notMem_dirNames path) hd.short hd.resolve hd.dir

end

end Yorha.Fs
