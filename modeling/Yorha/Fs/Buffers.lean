import Yorha.Fs.Full
import Yorha.Fs.Unresolved

/-!
# Buffers for names

A path goes through arrays of different sizes: its names through the 32 characters of
`next_dir`, its last name through those of an inode, an entry and a descriptor, and the path
itself through two blocks on the heap or two arrays on the stack.  None of these copies looks at
the length of what it copies.

For every call that takes a path, the copies it makes are listed here with the sizes of their
destinations.  `unlink` never has the room for its first copy, because it leaves the terminator
out of the size.  For each of the other calls there is a condition on the path and the state,
not far from "all names have at most 31 characters", under which every copy stays inside its
destination and a name that is too long is refused (`keepsBuffers_iff`).
-/

namespace Yorha.Fs

open Yorha.Lib Yorha.Str Yorha.Util Yorha.Heap

/-! ## Copies -/

/-- A copy of a string: the size of its destination, and the number of bytes that are stored
there with the terminator.  It is `none` if the string begins behind the end of another one,
where nothing is known. -/
structure StringCopy where
  capacity : Nat
  stored : Option Nat
deriving DecidableEq, Repr

/-- The copy stays inside its destination. -/
def StringCopy.Fits (c : StringCopy) : Prop := ∃ n ∈ c.stored, n ≤ c.capacity

/-- The copy of a known string. -/
def copyOf (capacity : Nat) (s : List UInt8) : StringCopy := ⟨capacity, some (s.length + 1)⟩

@[simp] theorem fits_copyOf {capacity : Nat} {s : List UInt8} :
    (copyOf capacity s).Fits ↔ s.length < capacity := by
  constructor
  · rintro ⟨n, hn, hle⟩
    cases hn
    exact hle
  · exact fun hlt ↦ ⟨_, rfl, hlt⟩

theorem not_fits_unknown (capacity : Nat) : ¬ StringCopy.Fits ⟨capacity, none⟩ :=
  fun ⟨_, hn, _⟩ ↦ nomatch hn

/-- The copies of `parse_path`, and of `Path`, which has the same text.  Of an empty path
everything from the second character on is taken for the file's name. -/
def parsePathCopies (dirPathSize filenameSize : Nat) (path : CString) : List StringCopy :=
  [copyOf dirPathSize path.chars,
    if path.chars = [] then ⟨filenameSize, none⟩ else copyOf filenameSize (parsePath path).2.chars]

/-- The copies of `Path`, to blocks that are as long as the path and its terminator. -/
def PathCopies (path : CString) : List StringCopy :=
  parsePathCopies (path.chars.length + 1) (path.chars.length + 1) path

/-- Looks a name up in the block of an inode, as the body of the loop of `seek_directory`
does. -/
def scanInode (fs : FileSystem) (currentInodeNum : Nat) (name : Name) :
    Except Stop (Option Nat) := do
  let dirInode ← fs.readInode currentInodeNum
  scanEntries (ataReadBlock fs.disk dirInode.dataBlockStart) name (dirInode.size / entryBytes) 0

/-- The copies that the loop of `seek_directory` makes to `next_dir`, one for each name that it
comes to.  Behind a name that does not fit nothing is listed. -/
def seekLoopCopies (fs : FileSystem) : List UInt8 → List UInt8 → Nat → List StringCopy
  | [], _, _ => []
  | c :: dirPath, nextDir, currentInodeNum =>
      if c = slash ∨ dirPath = [] then
        let nextDir := if c = slash then nextDir else nextDir ++ [c]
        copyOf nameBytes nextDir ::
          if nextDir.length < nameBytes then
            match scanInode fs currentInodeNum nextDir with
            | .ok (some fileInodeNumber) =>
                if toInt32 fileInodeNumber = -1 then []
                else seekLoopCopies fs dirPath [] fileInodeNumber
            | _ => []
          else []
      else seekLoopCopies fs dirPath (nextDir ++ [c]) currentInodeNum

/-- The copies of `seek_directory`. -/
def seekCopies (fs : FileSystem) (dirPath : List UInt8) : List StringCopy :=
  match dirPath with
  | [] => []
  | c :: dirPath => if c = slash then seekLoopCopies fs dirPath [] 0 else []

/-- The copies of `allocate_inode`: those of the walk, and one of the name of a new file. -/
def allocateInodeCopies (fs : FileSystem) (dirPath filename : CString) : List StringCopy :=
  seekCopies fs dirPath.chars ++
    match seekDirectory fs dirPath.chars with
    | .ok dirInodeNum =>
        if dirInodeNum = -1 then []
        else
          match searchDir fs (toUint32 dirInodeNum) filename.chars with
          | .ok existing => if existing ≠ -1 then [] else [copyOf nameBytes filename.chars]
          | .error _ => []
    | .error _ => []

/-- The copy of `link_file_in_dir`, from an inode to an entry.  For an entry outside of the
block it is not reached: the number of the inode has been stored outside before. -/
def linkFileInDirCopies (fs : FileSystem) (dirInodeNum fileInodeNum : Nat) : List StringCopy :=
  if fs.files dirInodeNum < dirFileCountMax then
    match readString (fs.inode fileInodeNum).name nameBytes with
    | .ok name => [copyOf nameBytes name]
    | .error _ => [⟨nameBytes, none⟩]
  else []

/-- The copies of `create_filetype`, on a heap with room for the path. -/
def createFiletypeCopies (fs : FileSystem) (path : CString) (fileType : UInt8)
    (allocateFd : Bool) : List StringCopy :=
  if path.chars.head? = some slash then
    let (dirPath, filename) := parsePath path
    PathCopies path ++ allocateInodeCopies fs dirPath filename ++
      match allocateInode fs ⟨0, 0, dirPath, filename⟩ fileType (fileType != fileTypeSpecial) with
      | .ok (inodePair, fs) =>
          if inodePair.valid then
            linkFileInDirCopies fs inodePair.dirInodeNum inodePair.fileInodeNum ++
              if allocateFd then [copyOf nameBytes filename.chars] else []
          else []
      | .error _ => []
  else []

/-- The copies of `open`, on a heap with room for the path. -/
def openFileCopies (fs : FileSystem) (path : CString) : List StringCopy :=
  let (dirPath, filename) := parsePath path
  PathCopies path ++ seekCopies fs dirPath.chars ++
    match seekDirectory fs dirPath.chars with
    | .ok dirInodeNum =>
        match searchDir fs (toUint32 dirInodeNum) filename.chars with
        | .ok fileInodeNum => if fileInodeNum = -1 then [] else [copyOf nameBytes filename.chars]
        | .error _ => []
    | .error _ => []

/-- The copies of `unlink`, whose array `dir_path` has no place for the terminator. -/
def unlinkCopies (fs : FileSystem) (path : CString) : List StringCopy :=
  parsePathCopies path.chars.length nameBytes path ++ seekCopies fs (parsePath path).1.chars

/-- The copies of `list_dir` to its arrays. -/
def listDirCopies (fs : FileSystem) (path : CString) : List StringCopy :=
  parsePathCopies (path.chars.length + 1) nameBytes path ++
    seekCopies fs (parsePath path).1.chars

/-! ## Walks -/

/-- No name is too long for an array of 32 characters. -/
def ShortNames (names : List Name) : Prop := ∀ name ∈ names, name.length < nameBytes

instance (names : List Name) : Decidable (ShortNames names) :=
  inferInstanceAs (Decidable (∀ _ ∈ names, _))

theorem shortNames_cons {name : Name} {names : List Name} :
    ShortNames (name :: names) ↔ name.length < nameBytes ∧ ShortNames names :=
  List.forall_mem_cons

/-- The walk comes to a name that is not there, and no name up to this one is too long. -/
def FileSystem.StopsEarly (fs : FileSystem) : List Name → Nat → Prop
  | [], _ => False
  | name :: names, i => name.length < nameBytes ∧
      match scanInode fs i name with
      | .ok (some next) => toInt32 next = -1 ∨ fs.StopsEarly names next
      | .ok none => True
      | .error _ => False

/-- The copies of a walk. -/
def FileSystem.walkCopies (fs : FileSystem) : List Name → Nat → List StringCopy
  | [], _ => []
  | name :: names, i => copyOf nameBytes name ::
      if name.length < nameBytes then
        match scanInode fs i name with
        | .ok (some next) => if toInt32 next = -1 then [] else fs.walkCopies names next
        | _ => []
      else []

variable {δ : Type} {fs fs' : FileSystem} {k k' : Kernel δ} {path : CString} {name : Name}
  {names : List Name} {i : Nat}

theorem seekLoopCopies_eq_walkCopies (fs : FileSystem) (dirPath : List UInt8) (nextDir : Name)
    (i : Nat) :
    seekLoopCopies fs dirPath nextDir i = fs.walkCopies (components dirPath nextDir) i := by
  induction dirPath generalizing nextDir i with
  | nil => rfl
  | cons c dirPath ih =>
      rw [seekLoopCopies, components]
      split
      · have hrest : seekLoopCopies fs dirPath [] = fs.walkCopies (components dirPath []) :=
          funext (ih [])
        rw [FileSystem.walkCopies]
        exact hrest ▸ rfl
      · exact ih _ _

/-- The copies of `seek_directory` on an absolute path. -/
theorem seekCopies_eq_walkCopies (fs : FileSystem) {dirPath : List UInt8}
    (h : dirPath.head? = some slash) :
    seekCopies fs dirPath = fs.walkCopies (components dirPath.tail []) 0 := by
  cases dirPath with
  | nil => cases h
  | cons c dirPath =>
      obtain rfl : c = slash := Option.some.inj h
      rw [seekCopies, if_pos rfl, seekLoopCopies_eq_walkCopies]
      rfl

/-- On a relative path it copies nothing. -/
theorem seekCopies_of_relative (fs : FileSystem) {dirPath : List UInt8}
    (h : dirPath.head? ≠ some slash) : seekCopies fs dirPath = [] := by
  cases dirPath with
  | nil => rfl
  | cons c dirPath => exact if_neg fun hc ↦ h (congrArg some hc)

theorem walk_cons_scan (fs : FileSystem) (name : Name) (names : List Name) (i : Nat) :
    fs.walk (name :: names) i =
      if name.length < nameBytes then do
        match ← scanInode fs i name with
        | some next => if toInt32 next = -1 then .ok (-1) else fs.walk names next
        | none => .ok (-1)
      else .error .fault := by
  rw [FileSystem.walk, scanInode]
  cases fs.readInode i with
  | error e => rfl
  | ok inode => rfl

/-- Short names are copied inside `next_dir`. -/
theorem walkCopies_fit_of_short (h : ShortNames names) :
    ∀ c ∈ fs.walkCopies names i, c.Fits := by
  induction names generalizing i with
  | nil => exact List.forall_mem_nil _
  | cons name names ih =>
      obtain ⟨hname, hnames⟩ := shortNames_cons.mp h
      rw [FileSystem.walkCopies, if_pos hname, List.forall_mem_cons, fits_copyOf]
      refine ⟨hname, ?_⟩
      split
      · split
        · exact List.forall_mem_nil _
        · exact ih hnames
      · exact List.forall_mem_nil _

/-- So are the names of a walk that returns. -/
theorem walkCopies_fit_of_ok {r : Int} (h : fs.walk names i = .ok r) :
    ∀ c ∈ fs.walkCopies names i, c.Fits := by
  induction names generalizing i with
  | nil => exact List.forall_mem_nil _
  | cons name names ih =>
      rw [walk_cons_scan] at h
      split at h
      · rename_i hname
        obtain ⟨o, hscan, h⟩ := bind_eq_ok.mp h
        rw [FileSystem.walkCopies, if_pos hname, hscan, List.forall_mem_cons, fits_copyOf]
        refine ⟨hname, ?_⟩
        cases o with
        | none => exact List.forall_mem_nil _
        | some next =>
            simp only at h ⊢
            split at h
            · rename_i hnone
              rw [if_pos hnone]
              exact List.forall_mem_nil _
            · rename_i hsome
              rw [if_neg hsome]
              exact ih h
      · cases h

/-- A walk that stops early returns -1. -/
theorem FileSystem.StopsEarly.walk (h : fs.StopsEarly names i) : fs.walk names i = .ok (-1) := by
  induction names generalizing i with
  | nil => exact h.elim
  | cons name names ih =>
      obtain ⟨hname, hnext⟩ := h
      rw [walk_cons_scan, if_pos hname]
      cases hscan : scanInode fs i name with
      | error e =>
          rw [hscan] at hnext
          exact hnext.elim
      | ok o =>
          rw [ok_bind]
          cases o with
          | none => rfl
          | some next =>
              rw [hscan] at hnext
              simp only
              split
              · rfl
              · rename_i hsome
                exact ih (hnext.resolve_left hsome)

/-- **Where a name is too long, returning -1 is stopping early.** -/
theorem stopsEarly_of_walk (hlong : ¬ ShortNames names) {r : Int}
    (h : fs.walk names i = .ok r) : fs.StopsEarly names i := by
  induction names generalizing i with
  | nil => exact absurd (List.forall_mem_nil _) hlong
  | cons name names ih =>
      rw [walk_cons_scan] at h
      split at h
      · rename_i hname
        rw [shortNames_cons, not_and] at hlong
        obtain ⟨o, hscan, h⟩ := bind_eq_ok.mp h
        refine ⟨hname, ?_⟩
        rw [hscan]
        cases o with
        | none => trivial
        | some next =>
            simp only at h ⊢
            split at h
            · rename_i hnone
              exact .inl hnone
            · exact .inr (ih (hlong hname) h)
      · cases h

theorem seekCopies_fit_of_short {dirPath : List UInt8} (h : ShortNames (components dirPath.tail [])) :
    ∀ c ∈ seekCopies fs dirPath, c.Fits := by
  by_cases habs : dirPath.head? = some slash
  · rw [seekCopies_eq_walkCopies fs habs]
    exact walkCopies_fit_of_short h
  · rw [seekCopies_of_relative fs habs]
    exact List.forall_mem_nil _

theorem seekCopies_fit_of_ok {dirPath : List UInt8} {r : Int}
    (h : seekDirectory fs dirPath = .ok r) : ∀ c ∈ seekCopies fs dirPath, c.Fits := by
  by_cases habs : dirPath.head? = some slash
  · rw [seekDirectory_eq_walk fs habs] at h
    rw [seekCopies_eq_walkCopies fs habs]
    exact walkCopies_fit_of_ok h
  · rw [seekCopies_of_relative fs habs]
    exact List.forall_mem_nil _

/-! ## One call -/

/-- A call keeps to its buffers: every copy stays inside its destination, and if a name is too
long the call is refused. -/
structure KeepsBuffers (copies : List StringCopy) (names : List Name) (refused : Prop) : Prop where
  fits : ∀ c ∈ copies, c.Fits
  refuses : ¬ ShortNames names → refused

/-- All names of a path, the file's among them. -/
def allNames (path : CString) : List Name := dirNames path ++ [fileName path]

theorem shortNames_allNames : ShortNames (allNames path) ↔
    ShortNames (dirNames path) ∧ (fileName path).length < nameBytes := by
  rw [ShortNames, allNames, List.forall_mem_append, List.forall_mem_singleton]
  rfl

/-- The heap has room for the two copies of the path, and takes them back. -/
def HeapServes (h : KernelHeap) (path : CString) : Prop :=
  ∃ parsedPath h₁ h₂, Path h path = .ok (parsedPath, h₁) ∧ freePath h₁ parsedPath = .ok h₂

/-- The directory part of the path leads nowhere, or the directory has the file's name. -/
def RefusesName (fs : FileSystem) (path : CString) : Prop :=
  seekDirectory fs (parsePath path).1.chars = .ok (-1) ∨
    ∃ (d : Nat) (r : Int), seekDirectory fs (parsePath path).1.chars = .ok (d : Int) ∧
      searchDir fs d (fileName path) = .ok r ∧ r ≠ -1

/-- The directory part of the path is a directory, and it does not have the file's name. -/
def MissesName (fs : FileSystem) (path : CString) : Prop :=
  ∃ d : Nat, seekDirectory fs (parsePath path).1.chars = .ok (d : Int) ∧
    searchDir fs d (fileName path) = .ok (-1)

theorem parsePathCopies_fit_iff {dirPathSize filenameSize : Nat} :
    (∀ c ∈ parsePathCopies dirPathSize filenameSize path, c.Fits) ↔
      path.chars.length < dirPathSize ∧ path.chars ≠ [] ∧
        (fileName path).length < filenameSize := by
  rw [parsePathCopies, List.forall_mem_cons, List.forall_mem_singleton, fits_copyOf]
  refine and_congr_right fun _ ↦ ?_
  split
  · rename_i hnil
    exact ⟨fun h ↦ absurd h (not_fits_unknown _), fun h ↦ absurd hnil h.1⟩
  · rename_i hne
    rw [fits_copyOf]
    exact ⟨fun h ↦ ⟨hne, h⟩, fun h ↦ h.2⟩

theorem PathCopies_fit_iff : (∀ c ∈ PathCopies path, c.Fits) ↔ path.chars ≠ [] := by
  rw [PathCopies, parsePathCopies_fit_iff]
  have hname : (fileName path).length ≤ path.chars.length := (length_parsePath_le path).2
  exact ⟨fun h ↦ h.2.1, fun h ↦ ⟨Nat.lt_succ_self _, h, Nat.lt_succ_of_le hname⟩⟩

/-- **`seek_directory` keeps to `next_dir`** where no name is too long, or the walk stops before
it comes to one. -/
theorem seekDirectory_keepsBuffers_iff {dirPath : List UInt8} :
    KeepsBuffers (seekCopies fs dirPath) (components dirPath.tail [])
        (seekDirectory fs dirPath = .ok (-1)) ↔
      dirPath.head? ≠ some slash ∨ ShortNames (components dirPath.tail []) ∨
        fs.StopsEarly (components dirPath.tail []) 0 := by
  by_cases habs : dirPath.head? = some slash
  · rw [or_iff_right (not_not.mpr habs)]
    constructor
    · rintro ⟨-, hrefuses⟩
      by_cases hshort : ShortNames (components dirPath.tail [])
      · exact .inl hshort
      · have hseek := hrefuses hshort
        rw [seekDirectory_eq_walk fs habs] at hseek
        exact .inr (stopsEarly_of_walk hshort hseek)
    · rintro (hshort | hearly)
      · exact ⟨seekCopies_fit_of_short hshort, fun hlong ↦ absurd hshort hlong⟩
      · have hseek : seekDirectory fs dirPath = .ok (-1) := by
          rw [seekDirectory_eq_walk fs habs]
          exact hearly.walk
        exact ⟨seekCopies_fit_of_ok hseek, fun _ ↦ hseek⟩
  · have hseek := seekDirectory_of_head_ne fs habs
    exact ⟨fun _ ↦ .inl habs, fun _ ↦ ⟨seekCopies_fit_of_ok hseek, fun _ ↦ hseek⟩⟩

/-! ### `create_filetype` -/

/-- What is refused for its name is refused before an inode is allocated. -/
theorem RefusesName.allocateInode (h : RefusesName fs path) {parsedPath : ParsedPath}
    (hdir : parsedPath.dirChars = (parsePath path).1)
    (hname : parsedPath.nameChars = (parsePath path).2) (fileType : UInt8) :
    allocateInode fs parsedPath fileType (fileType != fileTypeSpecial) =
      .ok ({ valid := false }, fs) := by
  rw [Fs.allocateInode, hdir, hname]
  rcases h with hseek | ⟨d, r, hseek, hsearch, hr⟩
  · rw [hseek, ok_bind, if_pos rfl]
  · have hd : toUint32 (d : Int) = d := toUint32_inode (searchDir_ok hsearch).1
    have hne : ¬ (d : Int) = -1 := by omega
    have hsearch' : searchDir fs d (parsePath path).2.chars = .ok r := hsearch
    rw [hseek, ok_bind, if_neg hne]
    simp only [hd, hsearch', ok_bind, if_pos hr]

/-- And no inode is allocated for another reason than its name. -/
theorem refusesName_of_invalid {parsedPath : ParsedPath} {fileType : UInt8} {pair : DirInodePair}
    (hdir : parsedPath.dirChars = (parsePath path).1)
    (hname : parsedPath.nameChars = (parsePath path).2)
    (h : allocateInode fs parsedPath fileType (fileType != fileTypeSpecial) = .ok (pair, fs'))
    (hinvalid : pair.valid = false) : RefusesName fs path := by
  obtain ⟨r, hseek, -⟩ := bind_eq_ok.mp h
  rw [hdir] at hseek
  rcases seekDirectory_ok_range hseek with rfl | ⟨d, rfl, -, -⟩
  · exact .inl hseek
  · obtain ⟨r, hsearch, hr⟩ := search_of_refused hdir hname hseek h hinvalid
    exact .inr ⟨d, r, hseek, hsearch, hr⟩

theorem allocateInodeCopies_fit {dirPath filename : CString}
    (hseek : ∀ c ∈ seekCopies fs dirPath.chars, c.Fits)
    (hname : filename.chars.length < nameBytes) :
    ∀ c ∈ allocateInodeCopies fs dirPath filename, c.Fits := by
  rw [allocateInodeCopies, List.forall_mem_append]
  refine ⟨hseek, ?_⟩
  split
  · split
    · exact List.forall_mem_nil _
    · split
      · split
        · exact List.forall_mem_nil _
        · rwa [List.forall_mem_singleton, fits_copyOf]
      · exact List.forall_mem_nil _
  · exact List.forall_mem_nil _

/-- The name of a new inode, which an entry gets, is the file's. -/
theorem InodeAllocated.linkFileInDirCopies_fit {fileType : UInt8} {d b : Nat}
    (h : InodeAllocated fs fs' path fileType d i b) :
    ∀ c ∈ linkFileInDirCopies fs' d i, c.Fits := by
  rw [linkFileInDirCopies, h.readString_name]
  split
  · rw [List.forall_mem_singleton, fits_copyOf]
    exact h.name_lt
  · exact List.forall_mem_nil _

theorem ne_nil_of_slash (h : path.chars.head? = some slash) : path.chars ≠ [] := by
  intro hnil
  rw [hnil] at h
  cases h

/-- With short names, every copy of `create_filetype` stays inside its destination. -/
theorem createFiletypeCopies_fit_of_short (h : ShortNames (allNames path)) (fileType : UInt8)
    (allocateFd : Bool) : ∀ c ∈ createFiletypeCopies fs path fileType allocateFd, c.Fits := by
  obtain ⟨hdirs, hname⟩ := shortNames_allNames.mp h
  rw [createFiletypeCopies]
  split
  · rename_i hroot
    simp only [List.forall_mem_append]
    refine ⟨⟨PathCopies_fit_iff.mpr (ne_nil_of_slash hroot),
      allocateInodeCopies_fit (seekCopies_fit_of_short hdirs) hname⟩, ?_⟩
    split
    · rename_i pair fs' halloc
      split
      · rename_i hvalid
        rw [List.forall_mem_append]
        constructor
        · obtain ⟨b, ha⟩ := allocateInode_made rfl rfl halloc hvalid
          exact ha.linkFileInDirCopies_fit
        · split
          · rw [List.forall_mem_singleton, fits_copyOf]
            exact hname
          · exact List.forall_mem_nil _
      · exact List.forall_mem_nil _
    · exact List.forall_mem_nil _
  · exact List.forall_mem_nil _

/-- Where the name is refused, the copies are those of the path and of the walk. -/
theorem createFiletypeCopies_fit_of_refuses (h : RefusesName fs path) (fileType : UInt8)
    (allocateFd : Bool) : ∀ c ∈ createFiletypeCopies fs path fileType allocateFd, c.Fits := by
  rw [createFiletypeCopies]
  split
  · rename_i hroot
    have halloc : allocateInode fs ⟨0, 0, (parsePath path).1, (parsePath path).2⟩ fileType
        (fileType != fileTypeSpecial) = .ok ({ valid := false }, fs) :=
      h.allocateInode rfl rfl fileType
    simp only [halloc, List.forall_mem_append, allocateInodeCopies]
    refine ⟨⟨PathCopies_fit_iff.mpr (ne_nil_of_slash hroot), ?_, ?_⟩, List.forall_mem_nil _⟩
    · rcases h with hseek | ⟨d, r, hseek, -⟩
      · exact seekCopies_fit_of_ok hseek
      · exact seekCopies_fit_of_ok hseek
    · rcases h with hseek | ⟨d, r, hseek, hsearch, hr⟩
      · rw [hseek]
        exact List.forall_mem_nil _
      · have hd : toUint32 (d : Int) = d := toUint32_inode (searchDir_ok hsearch).1
        have hsearch' : searchDir fs d (parsePath path).2.chars = .ok r := hsearch
        have hneg : ¬ (d : Int) = -1 := by omega
        simp only [hseek, hd, hsearch', if_neg hneg, if_pos hr]
        exact List.forall_mem_nil _
  · exact List.forall_mem_nil _

/-- **`create_filetype` keeps to its buffers** where it refuses the path at once, or no name is
too long, or the name is refused for another reason. -/
theorem createFiletype_keepsBuffers_iff {fileType : UInt8} {allocateFd : Bool} {past : Bytes} :
    KeepsBuffers (createFiletypeCopies k.fs path fileType allocateFd) (allNames path)
        (∃ k', createFiletype k path fileType allocateFd past = .ok (-1, k')) ↔
      path.chars.head? ≠ some slash ∨ ShortNames (allNames path) ∨
        (HeapServes k.heap path ∧ RefusesName k.fs path) := by
  by_cases hroot : path.chars.head? = some slash
  · rw [or_iff_right (not_not.mpr hroot)]
    constructor
    · rintro ⟨-, hrefuses⟩
      by_cases hshort : ShortNames (allNames path)
      · exact .inl hshort
      · obtain ⟨k', hx⟩ := hrefuses hshort
        obtain ⟨parsedPath, heap, heap', pair, fs, hpath, halloc, hinvalid, hfree⟩ :=
          createFiletype_minusOne hroot hx
        obtain ⟨hdir, hname⟩ := Path_ok hpath
        exact .inr ⟨⟨_, _, _, hpath, hfree⟩, refusesName_of_invalid hdir hname halloc hinvalid⟩
    · rintro (hshort | ⟨⟨parsedPath, h₁, h₂, hpath, hfree⟩, hrefuses⟩)
      · exact ⟨createFiletypeCopies_fit_of_short hshort _ _, fun hlong ↦ absurd hshort hlong⟩
      · refine ⟨createFiletypeCopies_fit_of_refuses hrefuses _ _, fun _ ↦ ?_⟩
        obtain ⟨hdir, hname⟩ := Path_ok hpath
        have halloc := hrefuses.allocateInode hdir hname fileType
        refine ⟨{ k with heap := h₂ }, ?_⟩
        rw [createFiletype, if_pos hroot]
        simp only [hpath, halloc, hfree, ok_bind, Bool.false_eq_true, if_false]
  · refine ⟨fun _ ↦ .inl hroot, fun _ ↦ ⟨?_, fun _ ↦ ⟨k, if_neg hroot⟩⟩⟩
    rw [createFiletypeCopies, if_neg hroot]
    exact List.forall_mem_nil _

/-! ### `open`, `unlink` and `list_dir` -/

/-- **`open` keeps to its buffers** where the path is not empty, and either no name is too long,
or only the file's is and the directory does not have it. -/
theorem openFile_keepsBuffers_iff :
    KeepsBuffers (openFileCopies k.fs path) (allNames path)
        (∃ k', openFile k path = .ok (-1, k')) ↔
      path.chars ≠ [] ∧ (ShortNames (allNames path) ∨
        (HeapServes k.heap path ∧ MissesName k.fs path)) := by
  constructor
  · rintro ⟨hfits, hrefuses⟩
    simp only [openFileCopies, List.forall_mem_append] at hfits
    refine ⟨PathCopies_fit_iff.mp hfits.1.1, ?_⟩
    by_cases hshort : ShortNames (allNames path)
    · exact .inl hshort
    · obtain ⟨k', hx⟩ := hrefuses hshort
      generalize hv : (-1 : Int) = v at hx
      right
      cases openFile_steps hx with
      | missing hpath hseek hsearch hfree =>
          obtain ⟨hdir, hname⟩ := Path_ok hpath
          rw [hdir] at hseek
          rw [hname] at hsearch
          obtain ⟨d, rfl, hd⟩ := seekDirectory_found hseek hsearch
          rw [hd] at hsearch
          exact ⟨⟨_, _, _, hpath, hfree⟩, d, hseek, hsearch⟩
      | opened _ _ _ _ halloc =>
          obtain ⟨n, rfl, -⟩ := allocateFileDescriptor_ok halloc
          exact absurd hv (by omega)
  · rintro ⟨hne, hshort | ⟨⟨parsedPath, h₁, h₂, hpath, hfree⟩, d, hseek, hsearch⟩⟩
    · obtain ⟨hdirs, hname⟩ := shortNames_allNames.mp hshort
      refine ⟨?_, fun hlong ↦ absurd hshort hlong⟩
      simp only [openFileCopies, List.forall_mem_append]
      refine ⟨⟨PathCopies_fit_iff.mpr hne, seekCopies_fit_of_short hdirs⟩, ?_⟩
      split
      · split
        · split
          · exact List.forall_mem_nil _
          · rw [List.forall_mem_singleton, fits_copyOf]
            exact hname
        · exact List.forall_mem_nil _
      · exact List.forall_mem_nil _
    · have hd : toUint32 (d : Int) = d := toUint32_inode (searchDir_ok hsearch).1
      have hsearch' : searchDir k.fs d (parsePath path).2.chars = .ok (-1) := hsearch
      refine ⟨?_, fun _ ↦ ?_⟩
      · simp only [openFileCopies, hseek, hd, hsearch', if_pos, List.forall_mem_append]
        exact ⟨⟨PathCopies_fit_iff.mpr hne, seekCopies_fit_of_ok hseek⟩, List.forall_mem_nil _⟩
      · obtain ⟨hdir, hname⟩ := Path_ok hpath
        refine ⟨{ k with heap := h₂ }, ?_⟩
        simp only [openFile, hpath, ok_bind, hdir, hname, hseek, hd, hsearch', if_pos, hfree]

/-- **`unlink` never keeps to its buffers**: the copy of the path is one byte too long. -/
theorem unlink_not_keepsBuffers {refused : Prop} :
    ¬ KeepsBuffers (unlinkCopies fs path) (allNames path) refused := by
  rintro ⟨hfits, -⟩
  rw [unlinkCopies, List.forall_mem_append, parsePathCopies_fit_iff] at hfits
  exact lt_irrefl _ hfits.1.1

/-- **`list_dir` keeps to its buffers** where the path is not empty and no name is too long. -/
theorem listDir_keepsBuffers_iff {buf : Bytes} :
    KeepsBuffers (listDirCopies fs path) (allNames path) (listDir fs path buf = .ok buf) ↔
      path.chars ≠ [] ∧ ShortNames (allNames path) := by
  rw [listDirCopies]
  constructor
  · rintro ⟨hfits, hrefuses⟩
    rw [List.forall_mem_append, parsePathCopies_fit_iff] at hfits
    obtain ⟨⟨-, hne, hname⟩, -⟩ := hfits
    refine ⟨hne, ?_⟩
    by_contra hlong
    have hlist := hrefuses hlong
    simp only [listDir] at hlist
    rw [if_pos ⟨hne, hname⟩] at hlist
    obtain ⟨r, hseek, hlist⟩ := bind_eq_ok.mp hlist
    obtain ⟨inode, hread, -⟩ := bind_eq_ok.mp hlist
    have hdirs : ¬ ShortNames (dirNames path) := fun h ↦ hlong (shortNames_allNames.mpr ⟨h, hname⟩)
    have hneg : r = -1 := by
      by_cases habs : Absolute path
      · have hwalk := hseek
        rw [seekDirectory_eq_walk fs habs] at hwalk
        exact (Except.ok.inj ((stopsEarly_of_walk hdirs hwalk).walk.symm.trans hwalk)).symm
      · rw [seekDirectory_of_relative fs habs] at hseek
        exact (Except.ok.inj hseek).symm
    rw [hneg, readInode_minusOne] at hread
    cases hread
  · rintro ⟨hne, hshort⟩
    obtain ⟨hdirs, hname⟩ := shortNames_allNames.mp hshort
    refine ⟨?_, fun hlong ↦ absurd hshort hlong⟩
    rw [List.forall_mem_append, parsePathCopies_fit_iff]
    exact ⟨⟨Nat.lt_succ_self _, hne, hname⟩, seekCopies_fit_of_short hdirs⟩

/-! ## All calls -/

/-- The calls that take a path. -/
inductive PathCall where
  | create
  | mkdir
  | openFile
  | unlink
  | listDir
  | seekDirectory
deriving DecidableEq, Repr

/-- The call with this path keeps to its buffers.  `list_dir` returns nothing; it refuses a path
by listing nothing. -/
def PathCall.KeepsBuffers (k : Kernel δ) (path : CString) (past buf : Bytes) : PathCall → Prop
  | .create => Fs.KeepsBuffers (createFiletypeCopies k.fs path fileTypeNormal true)
      (allNames path) (∃ k', Fs.create k path past = .ok (-1, k'))
  | .mkdir => Fs.KeepsBuffers (createFiletypeCopies k.fs path fileTypeDir false)
      (allNames path) (∃ k', Fs.mkdir k path past = .ok (-1, k'))
  | .openFile => Fs.KeepsBuffers (openFileCopies k.fs path) (allNames path)
      (∃ k', Fs.openFile k path = .ok (-1, k'))
  | .unlink => Fs.KeepsBuffers (unlinkCopies k.fs path) (allNames path)
      (∃ k', Fs.unlink k path past = .ok (-1, k'))
  | .listDir => Fs.KeepsBuffers (listDirCopies k.fs path) (allNames path)
      (Fs.listDir k.fs path buf = .ok buf)
  | .seekDirectory => Fs.KeepsBuffers (seekCopies k.fs path.chars)
      (components path.chars.tail []) (Fs.seekDirectory k.fs path.chars = .ok (-1))

/-- What the call needs of its path for that. -/
def PathCall.NamesFit (k : Kernel δ) (path : CString) : PathCall → Prop
  | .create | .mkdir => path.chars.head? ≠ some slash ∨ ShortNames (allNames path) ∨
      (HeapServes k.heap path ∧ RefusesName k.fs path)
  | .openFile => path.chars ≠ [] ∧
      (ShortNames (allNames path) ∨ (HeapServes k.heap path ∧ MissesName k.fs path))
  | .unlink => False
  | .listDir => path.chars ≠ [] ∧ ShortNames (allNames path)
  | .seekDirectory => path.chars.head? ≠ some slash ∨
      ShortNames (components path.chars.tail []) ∨
        k.fs.StopsEarly (components path.chars.tail []) 0

/-- **When a call keeps to its buffers for names**, and refuses names that do not fit. -/
theorem keepsBuffers_iff (k : Kernel δ) (path : CString) (past buf : Bytes) (c : PathCall) :
    c.KeepsBuffers k path past buf ↔ c.NamesFit k path := by
  cases c with
  | create => exact createFiletype_keepsBuffers_iff
  | mkdir => exact createFiletype_keepsBuffers_iff
  | openFile => exact openFile_keepsBuffers_iff
  | unlink => exact iff_of_false unlink_not_keepsBuffers id
  | listDir => exact listDir_keepsBuffers_iff
  | seekDirectory => exact seekDirectory_keepsBuffers_iff

/-- A file of the root with 32 characters. -/
def longPath : CString := ⟨slash :: List.replicate 32 97, by decide⟩

/-- **A name of 32 characters overruns the name of an inode**, and `unlink` overruns its array
with every path. -/
theorem longPath_overruns : Formatted terminalKernel ∧
    (⟨32, some 33⟩ ∈ createFiletypeCopies terminalKernel.fs longPath fileTypeNormal true ∧
      ∀ past buf, ¬ PathCall.create.KeepsBuffers terminalKernel longPath past buf) ∧
    (⟨8, some 9⟩ ∈ unlinkCopies terminalKernel.fs ⟨ofText "/dev/tty", by decide⟩ ∧
      ∀ past buf, ¬ PathCall.unlink.KeepsBuffers terminalKernel ⟨ofText "/dev/tty", by decide⟩
        past buf) := by
  have hlong : ⟨32, some 33⟩ ∈ createFiletypeCopies terminalKernel.fs longPath fileTypeNormal
      true := by
    decide +kernel
  refine ⟨formatted_terminalKernel, ⟨hlong, fun past buf h ↦ ?_⟩, by decide +kernel,
    fun past buf ↦ unlink_not_keepsBuffers⟩
  obtain ⟨n, hn, hle⟩ := h.fits _ hlong
  obtain rfl : 33 = n := Option.some.inj hn
  exact absurd hle (by decide)

end Yorha.Fs
