import Yorha.Fs.Walk

/-!
# What a call does

For each call of the file system, what it did if it returned: one statement for each
function, with everything that the later modules need to know about it.  Nothing is
assumed of the state the call is made in.

`Created` is what `create_filetype` does to everything but the descriptor table,
`Removed` what `unlink` does, and `Wrote` what `write` does to a file that is not
special.  The other calls change the descriptor table only.  `Effect` lists the cases
for a call as data.
-/

namespace Yorha.Fs

open Yorha.Lib Yorha.Str Yorha.Util Yorha.Heap

variable {δ : Type}

/-! ## Bits -/

/-- `n` was the first free bit, and is marked now.  The last bit of a bitmap cannot be
marked: the loop that sets a range also visits the word behind it. -/
structure BitAllocated (bitmap bitmap' : Vector Word bitmapWords) (n : Nat) : Prop where
  free : WordArray.bit bitmap n = false
  first : ∀ m < n, WordArray.bit bitmap m = true
  lt : n + 1 < 32 * bitmapWords
  bits : ∀ m, WordArray.bit bitmap' m = if m = n then true else WordArray.bit bitmap m

theorem allocBit_ok {bitmap bitmap' : Vector Word bitmapWords} {msg : String} {n : Nat}
    (h : allocBit bitmap msg = .ok (n, bitmap')) : BitAllocated bitmap bitmap' n := by
  simp only [allocBit, bind_eq_ok, Prod.exists] at h
  obtain ⟨range, bitmap₁, halloc, h⟩ := h
  rcases allocBitrange_ok Nat.one_pos (by decide) halloc with
    ⟨hlen, hfit, hbits, hend⟩ | ⟨rfl, -, -, -⟩
  · rw [if_neg (by omega)] at h
    cases h
    rw [size_vector] at hend
    refine ⟨hfit.clear _ le_rfl (Nat.lt_succ_self _), fun m hm ↦ ?_, by omega, hbits.single⟩
    by_contra hclear
    refine hfit.least m hm (fun hal ↦ nomatch hal) fun k h₁ h₂ ↦ ?_
    obtain rfl : k = m := by omega
    exact Bool.eq_false_iff.mpr hclear
  · cases h

/-- Which bit is allocated depends on the bits only. -/
theorem BitAllocated.unique {bitmap bitmap₁ bitmap₂ : Vector Word bitmapWords} {n m : Nat}
    (h : BitAllocated bitmap bitmap₁ n) (h' : BitAllocated bitmap bitmap₂ m) :
    n = m ∧ bitmap₁ = bitmap₂ := by
  obtain rfl : n = m := by
    rcases Nat.lt_trichotomy n m with hlt | heq | hlt
    · exact absurd (h'.first n hlt) (by simp [h.free])
    · exact heq
    · exact absurd (h.first m hlt) (by simp [h'.free])
  refine ⟨rfl, vector_ext_bit fun k ↦ ?_⟩
  rw [h.bits, h'.bits]

/-- Clearing one bit of a bitmap. -/
theorem deallocBitrange_single {bitmap bitmap' : Vector Word bitmapWords} {n : Nat}
    (hn : n < 32 * bitmapWords) (h : deallocBitrange bitmap ⟨n, 1⟩ = .ok bitmap') (m : Nat) :
    WordArray.bit bitmap' m = if m = n then false else WordArray.bit bitmap m := by
  have hn' : n < 32 * 1024 := hn
  obtain ⟨-, hbits⟩ := applyBitrange_ok h Nat.one_pos (by change (n + 1) / 32 < 65535; omega)
  exact hbits.single m

/-! ## Parts of the calls -/

theorem searchDir_ok {fs : FileSystem} {d : Nat} {name : Name} {r : Int}
    (h : searchDir fs d name = .ok r) : d < inodeCount ∧ fs.IsDir d := by
  simp only [searchDir, bind_eq_ok] at h
  obtain ⟨inode, hread, h⟩ := h
  obtain ⟨hlt, rfl⟩ := FileSystem.readInode_eq_ok.mp hread
  split at h
  · rename_i hdir
    exact ⟨hlt, hdir⟩
  · cases h

/-- `Path` splits a path that is not empty. -/
theorem Path_ok {h h' : KernelHeap} {path : CString} {parsedPath : ParsedPath}
    (hp : Path h path = .ok (parsedPath, h')) :
    parsedPath.dirChars = (parsePath path).1 ∧ parsedPath.nameChars = (parsePath path).2 := by
  simp only [Path, bind_eq_ok, Prod.exists] at hp
  obtain ⟨p, a, -, q, a', -, hp⟩ := hp
  split at hp
  · cases hp
  · cases hp
    exact ⟨rfl, rfl⟩

/-- The inode that `allocate_inode` writes. -/
def madeInode (name : Name) (fileType : UInt8) (b d : Nat) : FileSystemInode :=
  { name := strcpy (fun _ ↦ 0) 0 name, fileType := fileType, dataBlockStart := b,
    parentInodeNum := d }

/-- The name of a new inode reads back. -/
theorem readString_madeInode {name : Name} (hlen : name.length < nameBytes) (hzero : 0 ∉ name)
    (fileType : UInt8) (b d : Nat) :
    readString (madeInode name fileType b d).name nameBytes = .ok name := by
  refine readString_eq_ok.mpr ⟨hlen, hzero, ?_⟩
  exact (isString_strcpy (fun _ ↦ 0) 0 name).congr fun i _ ↦ by rw [Bytes.drop_apply, Nat.zero_add]; rfl

/-! ## `create_filetype` -/

/-- The inode of the directory `d` when the entry for the new inode `i` is appended.  If
`d` is itself the number that was free, this is the new inode. -/
def parentInode (fs : FileSystem) (name : Name) (fileType : UInt8) (d i b : Nat) :
    FileSystemInode :=
  if d = i then madeInode name fileType b d else fs.inode d

/-- `fs'` is `fs` with the file of a path made: inode `i` with block `b`, and an entry
in the directory `d`.  Nothing is said about the descriptor table. -/
structure Created (fs fs' : FileSystem) (path : CString) (fileType : UInt8) (d i b : Nat) :
    Prop where
  seek : seekDirectory fs (parsePath path).1.chars = .ok (d : Int)
  search : searchDir fs d (fileName path) = .ok (-1)
  name_lt : (fileName path).length < nameBytes
  parent_lt : d < inodeCount
  lt : i < inodeCount
  parent_dir : fs.IsDir d
  dataStart : fs'.globalSuper.dataStart = fs.globalSuper.dataStart
  ibmap : BitAllocated fs.globalIbmap fs'.globalIbmap i
  dbmap : if fileType = fileTypeSpecial then b = 0 ∧ fs'.globalDbmap = fs.globalDbmap
    else BitAllocated fs.globalDbmap fs'.globalDbmap b
  room : (parentInode fs (fileName path) fileType d i b).size / entryBytes < dirFileCountMax
  inode : ∀ j, fs'.inode j =
    let parent := parentInode fs (fileName path) fileType d i b
    if j = d then { parent with size := (parent.size + entryBytes) % 2 ^ 32 }
    else if j = i then madeInode (fileName path) fileType b d
    else fs.inode j
  disk : fs'.disk =
    let parent := parentInode fs (fileName path) fileType d i b
    ataWriteBlock fs.disk parent.dataBlockStart
      (linkEntry (ataReadBlock fs.disk parent.dataBlockStart) (parent.size / entryBytes)
        (fileName path) i)

/-- What becomes of the descriptor table when a file is made, and what is returned. -/
inductive FdOutcome (t t' : FileDescriptorTable) (i : Nat) (name : Name) : Bool → Int → Prop
  | unopened : t' = t → FdOutcome t t' i name false 0
  | opened {fd : Nat} : Opened t t' fd i name → FdOutcome t t' i name true fd

/-- The outcome depends on the table only. -/
theorem FdOutcome.unique {t t₁ t₂ : FileDescriptorTable} {i : Nat} {name : Name}
    {allocateFd : Bool} {v w : Int} (h : FdOutcome t t₁ i name allocateFd v)
    (h' : FdOutcome t t₂ i name allocateFd w) : v = w ∧ t₁ = t₂ := by
  cases h with
  | unopened heq =>
      cases h' with
      | unopened heq' => exact ⟨rfl, heq.trans heq'.symm⟩
  | opened ho =>
      cases h' with
      | opened ho' =>
          obtain ⟨rfl, ht⟩ := ho.unique ho'
          exact ⟨rfl, ht⟩

/-- What `allocate_inode` does to the file system. -/
structure InodeAllocated (fs fs' : FileSystem) (path : CString) (fileType : UInt8)
    (d i b : Nat) : Prop where
  seek : seekDirectory fs (parsePath path).1.chars = .ok (d : Int)
  search : searchDir fs d (fileName path) = .ok (-1)
  name_lt : (fileName path).length < nameBytes
  lt : i < inodeCount
  dataStart : fs'.globalSuper.dataStart = fs.globalSuper.dataStart
  ibmap : BitAllocated fs.globalIbmap fs'.globalIbmap i
  dbmap : if fileType = fileTypeSpecial then b = 0 ∧ fs'.globalDbmap = fs.globalDbmap
    else BitAllocated fs.globalDbmap fs'.globalDbmap b
  inode : ∀ j, fs'.inode j =
    if j = i then madeInode (fileName path) fileType b d else fs.inode j
  disk : fs'.disk = fs.disk
  table : fs'.globalFdTable = fs.globalFdTable

theorem allocDataBlock_ok {bitmap bitmap' : Vector Word bitmapWords} {fileType : UInt8} {b : Nat}
    (h : allocDataBlock bitmap (fileType != fileTypeSpecial) = .ok (b, bitmap')) :
    if fileType = fileTypeSpecial then b = 0 ∧ bitmap' = bitmap
    else BitAllocated bitmap bitmap' b := by
  rw [allocDataBlock] at h
  split at h
  · rename_i hdata
    rw [if_neg (bne_iff_ne.mp hdata)]
    exact allocBit_ok h
  · rename_i hdata
    rw [bne_iff_ne, not_not] at hdata
    cases h
    rw [if_pos hdata]
    exact ⟨rfl, rfl⟩

theorem openCreated_ok {t t' : FileDescriptorTable} {allocateFd : Bool} {i : Nat} {name : Name}
    {v : Int} (h : openCreated t allocateFd i name = .ok (v, t')) :
    FdOutcome t t' i name allocateFd v := by
  cases allocateFd with
  | false =>
      cases h
      exact .unopened rfl
  | true =>
      obtain ⟨fd, rfl, hopen⟩ := allocateFileDescriptor_ok h
      exact .opened hopen

/-- A new file's descriptor is never -1. -/
theorem FdOutcome.ne_minusOne {t t' : FileDescriptorTable} {i : Nat} {name : Name}
    {allocateFd : Bool} {v : Int} (h : FdOutcome t t' i name allocateFd v) : v ≠ -1 := by
  cases h with
  | unopened => decide
  | opened => exact fun hneg ↦ by omega

/-- So nothing is undone. -/
theorem FdOutcome.cleanup_eq {t t' : FileDescriptorTable} {i : Nat} {name : Name}
    {allocateFd : Bool} {v : Int} (h : FdOutcome t t' i name allocateFd v) (fs : FileSystem)
    (pair : DirInodePair) (past : Bytes) : cleanup fs v pair past = .ok fs :=
  if_neg h.ne_minusOne

theorem allocateInode_ok {fs fs' : FileSystem} {parsedPath : ParsedPath} {path : CString}
    (hdir : parsedPath.dirChars = (parsePath path).1)
    (hname : parsedPath.nameChars = (parsePath path).2) {fileType : UInt8} {pair : DirInodePair}
    (h : allocateInode fs parsedPath fileType (fileType != fileTypeSpecial) = .ok (pair, fs')) :
    (pair.valid = false ∧ fs' = fs) ∨
      (pair.valid = true ∧ ∃ b, InodeAllocated fs fs' path fileType pair.dirInodeNum
        pair.fileInodeNum b) := by
  simp only [allocateInode, hdir, hname, bind_eq_ok] at h
  obtain ⟨r, hseek, h⟩ := h
  split at h
  · cases h
    exact .inl ⟨rfl, rfl⟩
  · rename_i hr
    rcases seekDirectory_ok_range hseek with hneg | ⟨d, rfl, hd, hdir'⟩
    · exact absurd hneg hr
    · have hd' : toUint32 (d : Int) = d := toUint32_inode hd
      simp only [hd', bind_eq_ok] at h
      obtain ⟨existing, hsearch, h⟩ := h
      split at h
      · cases h
        exact .inl ⟨rfl, rfl⟩
      · rename_i hnone
        rw [not_not] at hnone
        subst hnone
        split at h
        · rename_i hshort
          simp only [bind_eq_ok, Prod.exists] at h
          obtain ⟨i, globalIbmap, hi, b, globalDbmap, hb, h⟩ := h
          split at h
          · rename_i hlt
            cases h
            exact .inr ⟨rfl, b, hseek, hsearch, hshort, hlt, rfl, allocBit_ok hi,
              allocDataBlock_ok hb, FileSystem.inode_setInode _ hlt _, rfl, rfl⟩
          · cases h
        · cases h

/-- A pair that is not valid means that nothing was done. -/
theorem allocateInode_refused {fs fs' : FileSystem} {parsedPath : ParsedPath} {path : CString}
    (hdir : parsedPath.dirChars = (parsePath path).1)
    (hname : parsedPath.nameChars = (parsePath path).2) {fileType : UInt8} {pair : DirInodePair}
    (h : allocateInode fs parsedPath fileType (fileType != fileTypeSpecial) = .ok (pair, fs'))
    (hinvalid : pair.valid = false) : fs' = fs := by
  rcases allocateInode_ok hdir hname h with ⟨-, hfs⟩ | ⟨hvalid, -⟩
  · exact hfs
  · rw [hinvalid] at hvalid
    cases hvalid

/-- A valid pair means that an inode was allocated. -/
theorem allocateInode_made {fs fs' : FileSystem} {parsedPath : ParsedPath} {path : CString}
    (hdir : parsedPath.dirChars = (parsePath path).1)
    (hname : parsedPath.nameChars = (parsePath path).2) {fileType : UInt8} {pair : DirInodePair}
    (h : allocateInode fs parsedPath fileType (fileType != fileTypeSpecial) = .ok (pair, fs'))
    (hvalid : pair.valid = true) :
    ∃ b, InodeAllocated fs fs' path fileType pair.dirInodeNum pair.fileInodeNum b := by
  rcases allocateInode_ok hdir hname h with ⟨hinvalid, -⟩ | ⟨-, hmade⟩
  · rw [hinvalid] at hvalid
    cases hvalid
  · exact hmade

/-- The name of the new inode is the file's. -/
theorem InodeAllocated.readString_name {fs fs' : FileSystem} {path : CString} {fileType : UInt8}
    {d i b : Nat} (h : InodeAllocated fs fs' path fileType d i b) :
    readString (fs'.inode i).name nameBytes = .ok (fileName path) := by
  rw [h.inode i, if_pos rfl]
  exact readString_madeInode h.name_lt (zero_notMem_fileName path) fileType b d

/-- What `link_file_in_dir` does. -/
theorem linkFileInDir_ok {fs fs' : FileSystem} {d i : Nat} {name : Name}
    (hname : readString (fs.inode i).name nameBytes = .ok name)
    (h : linkFileInDir fs d i = .ok fs') :
    d < inodeCount ∧ fs.files d < dirFileCountMax ∧
      fs' =
        { fs.setInode d
            { fs.inode d with size := ((fs.inode d).size + entryBytes) % 2 ^ 32 } with
          disk := ataWriteBlock fs.disk (fs.inode d).dataBlockStart
            (linkEntry (fs.block d) (fs.files d) name i) } := by
  simp only [linkFileInDir, bind_eq_ok] at h
  obtain ⟨dirInode, hd, fileInode, hi, h⟩ := h
  obtain ⟨hlt, rfl⟩ := FileSystem.readInode_eq_ok.mp hd
  obtain ⟨-, rfl⟩ := FileSystem.readInode_eq_ok.mp hi
  split at h
  · rename_i hroom
    simp only [hname, ok_bind] at h
    cases h
    exact ⟨hlt, hroom, rfl⟩
  · cases h

/-- The ways in which `create_filetype` returns, with the steps it made. -/
inductive CreateSteps (k : Kernel δ) (path : CString) (fileType : UInt8) (allocateFd : Bool)
    (past : Bytes) : Int → Kernel δ → Prop
  /-- It refuses a relative path at once. -/
  | relative : path.chars.head? ≠ some slash →
      CreateSteps k path fileType allocateFd past (-1) k
  | refused {parsedPath : ParsedPath} {heap heap' : KernelHeap} {pair : DirInodePair}
      {fs : FileSystem} : path.chars.head? = some slash →
      Path k.heap path = .ok (parsedPath, heap) →
      allocateInode k.fs parsedPath fileType (fileType != fileTypeSpecial) = .ok (pair, fs) →
      pair.valid = false → freePath heap parsedPath = .ok heap' →
      CreateSteps k path fileType allocateFd past (-1) { k with fs := fs, heap := heap' }
  | made {parsedPath : ParsedPath} {heap heap' : KernelHeap} {pair : DirInodePair}
      {fs₁ fs₂ fs₃ : FileSystem} {fd : Int} {table : FileDescriptorTable} :
      path.chars.head? = some slash → Path k.heap path = .ok (parsedPath, heap) →
      allocateInode k.fs parsedPath fileType (fileType != fileTypeSpecial) = .ok (pair, fs₁) →
      pair.valid = true → linkFileInDir fs₁ pair.dirInodeNum pair.fileInodeNum = .ok fs₂ →
      openCreated fs₂.globalFdTable allocateFd pair.fileInodeNum parsedPath.nameChars.chars =
        .ok (fd, table) → freePath heap parsedPath = .ok heap' →
      cleanup { fs₂ with globalFdTable := table } fd pair past = .ok fs₃ →
      CreateSteps k path fileType allocateFd past fd { k with fs := fs₃, heap := heap' }

theorem createFiletype_steps {k k' : Kernel δ} {path : CString} {fileType : UInt8}
    {allocateFd : Bool} {past : Bytes} {v : Int}
    (h : createFiletype k path fileType allocateFd past = .ok (v, k')) :
    CreateSteps k path fileType allocateFd past v k' := by
  rw [createFiletype] at h
  split at h
  · rename_i hroot
    simp only [bind_eq_ok, Prod.exists] at h
    obtain ⟨parsedPath, heap, hpath, pair, fs₁, halloc, h⟩ := h
    split at h
    · rename_i hvalid
      simp only [bind_eq_ok, Prod.exists] at h
      obtain ⟨fs₂, hlink, fd, table, hfd, heap', hfree, fs₃, hclean, h⟩ := h
      cases h
      exact .made hroot hpath halloc hvalid hlink hfd hfree hclean
    · rename_i hinvalid
      simp only [bind_eq_ok] at h
      obtain ⟨heap', hfree, h⟩ := h
      cases h
      exact .refused hroot hpath halloc (Bool.eq_false_iff.mpr hinvalid) hfree
  · rename_i hrel
    cases h
    exact .relative hrel

/-- **What a returning `create_filetype` did**: nothing to the file system, or it made
the file.  Its cleanup is never reached, because a descriptor is never refused. -/
theorem createFiletype_ok {k k' : Kernel δ} {path : CString} {fileType : UInt8}
    {allocateFd : Bool} {past : Bytes} {v : Int}
    (h : createFiletype k path fileType allocateFd past = .ok (v, k')) :
    (v = -1 ∧ k'.fs = k.fs) ∨
      ∃ d i b, Created k.fs k'.fs path fileType d i b ∧
        FdOutcome k.fs.globalFdTable k'.fs.globalFdTable i (fileName path) allocateFd v := by
  cases createFiletype_steps h with
  | relative => exact .inl ⟨rfl, rfl⟩
  | refused _ hpath halloc hinvalid =>
      obtain ⟨hdir, hname⟩ := Path_ok hpath
      exact .inl ⟨rfl, allocateInode_refused hdir hname halloc hinvalid⟩
  | @made parsedPath heap heap' pair fs₁ fs₂ fs₃ _ table _ hpath halloc hvalid hlink hfd _ hclean =>
      obtain ⟨hdir, hname⟩ := Path_ok hpath
      obtain ⟨b, ha⟩ := allocateInode_made hdir hname halloc hvalid
      right
      rw [hname] at hfd
      have hout := openCreated_ok hfd
      rw [hout.cleanup_eq] at hclean
      cases hclean
      obtain ⟨hparent, hroom, rfl⟩ := linkFileInDir_ok ha.readString_name hlink
      have hbase : fs₁.inode pair.dirInodeNum =
          parentInode k.fs (fileName path) fileType pair.dirInodeNum pair.fileInodeNum b :=
        ha.inode _
      have htable : fs₁.globalFdTable = k.fs.globalFdTable := ha.table
      simp only [FileSystem.globalFdTable_setInode, htable] at hout
      refine ⟨pair.dirInodeNum, pair.fileInodeNum, b, ?_, hout⟩
      refine ⟨ha.seek, ha.search, ha.name_lt, hparent, ha.lt, (searchDir_ok ha.search).2,
        ha.dataStart, ha.ibmap, ha.dbmap, ?_, fun j ↦ ?_, ?_⟩
      · rw [← hbase]
        exact hroom
      · refine (FileSystem.inode_setInode fs₁ hparent _ j).trans ?_
        rw [hbase, ha.inode j]
      · change ataWriteBlock fs₁.disk _ (linkEntry (ataReadBlock fs₁.disk _) _ _ _) = _
        rw [FileSystem.files, hbase, ha.disk]

/-- `allocate_inode` accepts a name that is free. -/
theorem allocateInode_valid {fs fs' : FileSystem} {parsedPath : ParsedPath} {path : CString}
    (hdir : parsedPath.dirChars = (parsePath path).1)
    (hname : parsedPath.nameChars = (parsePath path).2) {fileType : UInt8} {data : Bool}
    {pair : DirInodePair} {d : Nat}
    (hseek : seekDirectory fs (parsePath path).1.chars = .ok (d : Int))
    (hsearch : searchDir fs d (fileName path) = .ok (-1))
    (h : allocateInode fs parsedPath fileType data = .ok (pair, fs')) : pair.valid = true := by
  have hd : toUint32 (d : Int) = d := toUint32_inode (searchDir_ok hsearch).1
  have hsearch' : searchDir fs d (parsePath path).2.chars = .ok (-1) := hsearch
  rw [allocateInode, hdir, hname, hseek, ok_bind, if_neg (by omega)] at h
  simp only [hd, hsearch', ok_bind, ne_eq, not_true_eq_false, if_false] at h
  split at h
  · simp only [bind_eq_ok, Prod.exists] at h
    obtain ⟨i, globalIbmap, -, b, globalDbmap, -, h⟩ := h
    split at h
    · cases h
      rfl
    · cases h
  · cases h

/-- A path to a directory starts with a slash. -/
theorem head_of_seekDirectory {fs : FileSystem} {path : CString} {d : Nat}
    (h : seekDirectory fs (parsePath path).1.chars = .ok (d : Int)) :
    path.chars.head? = some slash := by
  have habs : Absolute path := by
    by_contra hrel
    rw [seekDirectory_of_relative fs hrel] at h
    have := Except.ok.inj h
    omega
  have htake : (path.chars.take (lastSlash path.chars 0 0 + 1)).head? = some slash := habs
  rw [List.head?_take, if_neg (Nat.succ_ne_zero _)] at htake
  exact htake

/-- `create_filetype` refuses no name that is free. -/
theorem createFiletype_ne {k k' : Kernel δ} {path : CString} {fileType : UInt8}
    {allocateFd : Bool} {past : Bytes} {v : Int} {d : Nat}
    (hseek : seekDirectory k.fs (parsePath path).1.chars = .ok (d : Int))
    (hsearch : searchDir k.fs d (fileName path) = .ok (-1))
    (h : createFiletype k path fileType allocateFd past = .ok (v, k')) : v ≠ -1 := by
  cases createFiletype_steps h with
  | relative hrel => exact absurd (head_of_seekDirectory hseek) hrel
  | refused _ hpath halloc hinvalid =>
      obtain ⟨hdir, hname⟩ := Path_ok hpath
      rw [allocateInode_valid hdir hname hseek hsearch halloc] at hinvalid
      cases hinvalid
  | made _ _ _ _ _ hfd => exact (openCreated_ok hfd).ne_minusOne

/-- A path that starts with a slash is refused because no inode is allocated for it. -/
theorem createFiletype_minusOne {k k' : Kernel δ} {path : CString} {fileType : UInt8}
    {allocateFd : Bool} {past : Bytes} (hroot : path.chars.head? = some slash)
    (h : createFiletype k path fileType allocateFd past = .ok (-1, k')) :
    ∃ (parsedPath : ParsedPath) (heap heap' : KernelHeap) (pair : DirInodePair) (fs : FileSystem),
      Path k.heap path = .ok (parsedPath, heap) ∧
      allocateInode k.fs parsedPath fileType (fileType != fileTypeSpecial) = .ok (pair, fs) ∧
      pair.valid = false ∧ freePath heap parsedPath = .ok heap' := by
  generalize hv : (-1 : Int) = v at h
  cases createFiletype_steps h with
  | relative hrel => exact absurd hroot hrel
  | refused _ hpath halloc hinvalid hfree => exact ⟨_, _, _, _, _, hpath, halloc, hinvalid, hfree⟩
  | made _ _ _ _ _ hfd => exact absurd hv.symm (openCreated_ok hfd).ne_minusOne

/-! ## `unlink` -/

/-- What `unlink_file_in_dir` does to the directory `d`: the first entry of the inode `e`
goes, if there is one. -/
inductive EntryRemoved (fs fs' : FileSystem) (past : Bytes) (d e : Nat) : Prop
  | absent : (fs.entries d).findIdx? (fun p ↦ p.2 = e) = none →
      (∀ j, fs'.inode j = fs.inode j) → fs'.disk = fs.disk → EntryRemoved fs fs' past d e
  | removed {entry : Nat} {buf : Bytes} :
      (fs.entries d).findIdx? (fun p ↦ p.2 = e) = some entry →
      moveEntries past (fs.files d - entry) entry (fs.block d) = .ok buf →
      (∀ j, fs'.inode j =
        if j = d then { fs.inode d with size := (fs.inode d).size - entryBytes }
        else fs.inode j) →
      fs'.disk = ataWriteBlock fs.disk (fs.inode d).dataBlockStart buf →
      EntryRemoved fs fs' past d e

/-- `fs'` is `fs` with the entry of the inode `e` gone from the directory `d`, and its
inode and its block free. -/
structure Removed (fs fs' : FileSystem) (path : CString) (past : Bytes) (d e : Nat) :
    Prop where
  seek : seekDirectory fs (parsePath path).1.chars = .ok (d : Int)
  search : ∃ r, searchDir fs d (fileName path) = .ok r ∧ r ≠ -1 ∧ toUint32 r = e
  parent_dir : fs.IsDir d
  lt : e < inodeCount
  entry : EntryRemoved fs fs' past d e
  dbmap : deallocBitrange fs.globalDbmap ⟨(fs.inode e).dataBlockStart, 1⟩ = .ok fs'.globalDbmap
  ibmap : ∀ i, WordArray.bit fs'.globalIbmap i =
    if i = e then false else WordArray.bit fs.globalIbmap i
  dataStart : fs'.globalSuper.dataStart = fs.globalSuper.dataStart
  table : fs'.globalFdTable = fs.globalFdTable

/-- Only the size of the directory changes. -/
theorem EntryRemoved.inode {fs fs' : FileSystem} {past : Bytes} {d e : Nat}
    (h : EntryRemoved fs fs' past d e) (j : Nat) : ∃ n ≤ (fs.inode j).size,
      fs'.inode j = { fs.inode j with size := n } := by
  cases h with
  | absent _ hinode _ => exact ⟨_, le_rfl, hinode j⟩
  | removed _ _ hinode _ =>
      rw [hinode j]
      split
      · rename_i hjd
        subst hjd
        exact ⟨_, Nat.sub_le _ _, rfl⟩
      · exact ⟨_, le_rfl, rfl⟩

/-- What a returning `unlink_file_in_dir` did. -/
theorem unlinkFileInDir_ok {fs fs' : FileSystem} {d e : Nat} {past : Bytes}
    (h : unlinkFileInDir fs d e past = .ok fs') :
    EntryRemoved fs fs' past d e ∧ fs'.globalIbmap = fs.globalIbmap ∧
      fs'.globalDbmap = fs.globalDbmap ∧ fs'.globalSuper = fs.globalSuper ∧
      fs'.globalFdTable = fs.globalFdTable := by
  simp only [unlinkFileInDir, bind_eq_ok] at h
  obtain ⟨dirInode, hread, o, hfind, h⟩ := h
  obtain ⟨hd, rfl⟩ := FileSystem.readInode_eq_ok.mp hread
  have hfound : (fs.entries d).findIdx? (fun p ↦ p.2 = e) = o := by
    have hshift := findEntry_ok hfind
    simp only [Nat.zero_add, Option.map_id'] at hshift
    exact hshift.symm
  cases o with
  | none =>
      cases h
      exact ⟨.absent hfound (fun _ ↦ rfl) (write_read_block _ _), rfl, rfl, rfl, rfl⟩
  | some entry =>
      simp only [bind_eq_ok] at h
      obtain ⟨buf, hmove, h⟩ := h
      cases h
      exact ⟨.removed hfound hmove (FileSystem.inode_setInode fs hd _) rfl, rfl, rfl, rfl, rfl⟩

/-- The number -1 that `seek_directory` returns is past the end of the table, so no search
there returns. -/
theorem seekDirectory_found {fs : FileSystem} {path : CString} {name : Name} {n r : Int}
    (hseek : seekDirectory fs (parsePath path).1.chars = .ok n)
    (hsearch : searchDir fs (toUint32 n) name = .ok r) :
    ∃ d : Nat, n = d ∧ toUint32 n = d := by
  rcases seekDirectory_ok_range hseek with rfl | ⟨d, rfl, hd, -⟩
  · exact absurd (searchDir_ok hsearch).1 (by decide)
  · exact ⟨d, rfl, toUint32_inode hd⟩

/-- The ways in which `unlink` returns, with the steps it made. -/
inductive UnlinkSteps (k : Kernel δ) (path : CString) (past : Bytes) : Int → Kernel δ → Prop
  | missing {d : Int} : seekDirectory k.fs (parsePath path).1.chars = .ok d →
      searchDir k.fs (toUint32 d) (fileName path) = .ok (-1) → UnlinkSteps k path past (-1) k
  | removed {d e : Int} {fs : FileSystem} {dbmap ibmap : Vector Word bitmapWords} :
      seekDirectory k.fs (parsePath path).1.chars = .ok d →
      searchDir k.fs (toUint32 d) (fileName path) = .ok e → e ≠ -1 →
      unlinkFileInDir k.fs (toUint32 d) (toUint32 e) past = .ok fs → toUint32 e < inodeCount →
      deallocBitrange fs.globalDbmap ⟨(fs.inode (toUint32 e)).dataBlockStart, 1⟩ = .ok dbmap →
      deallocBitrange fs.globalIbmap ⟨toUint32 e, 1⟩ = .ok ibmap →
      UnlinkSteps k path past 0
        { k with fs := { fs with globalDbmap := dbmap, globalIbmap := ibmap } }

theorem unlink_steps {k k' : Kernel δ} {path : CString} {past : Bytes} {v : Int}
    (h : unlink k path past = .ok (v, k')) : UnlinkSteps k path past v k' := by
  simp only [unlink] at h
  split at h
  · simp only [bind_eq_ok] at h
    obtain ⟨d, hseek, e, hsearch, h⟩ := h
    split at h
    · rename_i hnone
      cases h
      exact .missing hseek (hnone ▸ hsearch)
    · rename_i hfound
      simp only [bind_eq_ok] at h
      obtain ⟨fs, hunlink, inode, hread, dbmap, hdb, ibmap, hib, h⟩ := h
      obtain ⟨hlt, rfl⟩ := FileSystem.readInode_eq_ok.mp hread
      cases h
      exact .removed hseek hsearch hfound hunlink hlt hdb hib
  · cases h

/-- **What a returning `unlink` did**: nothing, or it removed the file. -/
theorem unlink_ok {k k' : Kernel δ} {path : CString} {past : Bytes} {v : Int}
    (h : unlink k path past = .ok (v, k')) :
    (v = -1 ∧ k' = k) ∨ (v = 0 ∧ k'.heap = k.heap ∧
      ∃ d e, Removed k.fs k'.fs path past d e) := by
  cases unlink_steps h with
  | missing => exact .inl ⟨rfl, rfl⟩
  | @removed r e fs₁ dbmap ibmap hseek hsearch hfound hunlink hlt hdb hib =>
      obtain ⟨d, rfl, hd⟩ := seekDirectory_found hseek hsearch
      rw [hd] at hsearch hunlink
      obtain ⟨hentry, hibmap, hdbmap, hsuper, htable⟩ := unlinkFileInDir_ok hunlink
      obtain ⟨n, -, hinode⟩ := hentry.inode (toUint32 e)
      rw [hinode, hdbmap] at hdb
      rw [hibmap] at hib
      refine .inr ⟨rfl, rfl, d, toUint32 e, hseek, ⟨e, hsearch, hfound, rfl⟩,
        (searchDir_ok hsearch).2, hlt, ?_, hdb,
        deallocBitrange_single (lt_trans hlt (by decide)) hib,
        congrArg FileSystemSuper.dataStart hsuper, htable⟩
      cases hentry with
      | absent hnone hinodes hdisk => exact .absent hnone hinodes hdisk
      | removed hsome hmove hinodes hdisk => exact .removed hsome hmove hinodes hdisk

/-- `unlink` refuses no name that is there. -/
theorem unlink_ne {k k' : Kernel δ} {path : CString} {past : Bytes} {v r : Int} {d : Nat}
    (hseek : seekDirectory k.fs (parsePath path).1.chars = .ok (d : Int))
    (hsearch : searchDir k.fs d (fileName path) = .ok r) (hr : r ≠ -1)
    (h : unlink k path past = .ok (v, k')) : v ≠ -1 := by
  have hd : toUint32 (d : Int) = d := toUint32_inode (searchDir_ok hsearch).1
  cases unlink_steps h with
  | missing hseek' hsearch' =>
      rw [hseek] at hseek'
      rw [← Except.ok.inj hseek', hd, hsearch] at hsearch'
      exact absurd (Except.ok.inj hsearch') hr
  | removed => decide

/-! ## Calls that change the descriptor table only -/

/-- The ways in which `open` returns, with the steps it made. -/
inductive OpenSteps (k : Kernel δ) (path : CString) : Int → Kernel δ → Prop
  | missing {parsedPath : ParsedPath} {heap heap' : KernelHeap} {d : Int} :
      Path k.heap path = .ok (parsedPath, heap) →
      seekDirectory k.fs parsedPath.dirChars.chars = .ok d →
      searchDir k.fs (toUint32 d) parsedPath.nameChars.chars = .ok (-1) →
      freePath heap parsedPath = .ok heap' → OpenSteps k path (-1) { k with heap := heap' }
  | opened {parsedPath : ParsedPath} {heap heap' : KernelHeap} {d e fd : Int}
      {table : FileDescriptorTable} : Path k.heap path = .ok (parsedPath, heap) →
      seekDirectory k.fs parsedPath.dirChars.chars = .ok d →
      searchDir k.fs (toUint32 d) parsedPath.nameChars.chars = .ok e → e ≠ -1 →
      allocateFileDescriptor k.fs.globalFdTable (toUint32 e) parsedPath.nameChars.chars =
        .ok (fd, table) → freePath heap parsedPath = .ok heap' →
      OpenSteps k path fd
        { k with fs := { k.fs with globalFdTable := table }, heap := heap' }

theorem openFile_steps {k k' : Kernel δ} {path : CString} {v : Int}
    (h : openFile k path = .ok (v, k')) : OpenSteps k path v k' := by
  simp only [openFile, bind_eq_ok, Prod.exists] at h
  obtain ⟨parsedPath, heap, hpath, d, hseek, e, hsearch, h⟩ := h
  split at h
  · rename_i hnone
    simp only [bind_eq_ok] at h
    obtain ⟨heap', hfree, h⟩ := h
    cases h
    exact .missing hpath hseek (hnone ▸ hsearch) hfree
  · rename_i hsome
    simp only [bind_eq_ok, Prod.exists] at h
    obtain ⟨fd, table, halloc, heap', hfree, h⟩ := h
    cases h
    exact .opened hpath hseek hsearch hsome halloc hfree

/-- What a returning `open` did: it opened nothing, or a descriptor on the inode that the
path leads to. -/
theorem openFile_ok {k k' : Kernel δ} {path : CString} {v : Int}
    (h : openFile k path = .ok (v, k')) :
    ∃ t, k'.fs = { k.fs with globalFdTable := t } ∧
      ∃ d : Nat, seekDirectory k.fs (parsePath path).1.chars = .ok (d : Int) ∧
        ∃ r, searchDir k.fs d (fileName path) = .ok r ∧
          ((v = -1 ∧ r = -1 ∧ t = k.fs.globalFdTable) ∨
            (r ≠ -1 ∧ ∃ fd : Nat, v = fd ∧
              Opened k.fs.globalFdTable t fd (toUint32 r) (fileName path))) := by
  cases openFile_steps h with
  | missing hpath hseek hsearch =>
      obtain ⟨hdirChars, hname⟩ := Path_ok hpath
      rw [hdirChars] at hseek
      rw [hname] at hsearch
      obtain ⟨d, rfl, hd⟩ := seekDirectory_found hseek hsearch
      rw [hd] at hsearch
      exact ⟨k.fs.globalFdTable, rfl, d, hseek, -1, hsearch, .inl ⟨rfl, rfl, rfl⟩⟩
  | opened hpath hseek hsearch hsome halloc =>
      obtain ⟨hdirChars, hname⟩ := Path_ok hpath
      rw [hdirChars] at hseek
      rw [hname] at hsearch halloc
      obtain ⟨d, rfl, hd⟩ := seekDirectory_found hseek hsearch
      rw [hd] at hsearch
      obtain ⟨n, rfl, hopen⟩ := allocateFileDescriptor_ok halloc
      exact ⟨_, rfl, d, hseek, _, hsearch, .inr ⟨hsome, n, rfl, hopen⟩⟩

/-- What a returning `close` did. -/
theorem close_ok {k k' : Kernel δ} {fd v : Int} (h : close k fd = .ok (v, k')) :
    v = -1 ∧ ∃ t, deallocBitrange k.fs.globalFdTable ⟨toUint32 fd, 1⟩ = .ok t ∧
      k' = { k with fs := { k.fs with globalFdTable := t } } := by
  simp only [close, bind_eq_ok] at h
  obtain ⟨t, ht, h⟩ := h
  cases h
  exact ⟨rfl, t, ht, rfl⟩

/-- `t'` is `t` with cursors moved: every descriptor is as free as before, and names the
same inode. -/
structure CursorsMoved (t t' : FileDescriptorTable) : Prop where
  marked : ∀ fd, t'.marked fd = t.marked fd
  inodeNum : ∀ fd, (t'.entry fd).inodeNum = (t.entry fd).inodeNum

theorem CursorsMoved.refl (t : FileDescriptorTable) : CursorsMoved t t :=
  ⟨fun _ ↦ rfl, fun _ ↦ rfl⟩

theorem cursorsMoved_setEntry (t : FileDescriptorTable) {index : Nat}
    (h : index < descriptorCount) {e : FileDescriptorEntry}
    (he : e.inodeNum = (t.entry index).inodeNum) : CursorsMoved t (t.setEntry index e) where
  marked := fun _ ↦ rfl
  inodeNum := by
    intro fd
    rw [t.entry_setEntry h]
    split
    · rename_i hfd
      subst hfd
      exact he
    · rfl

theorem entryIndex_eq_ok {fd : Int} {index : Nat} :
    entryIndex fd = .ok index ↔ fd = index ∧ index < descriptorCount := by
  rw [entryIndex]
  constructor
  · intro h
    split at h
    · rename_i hfd
      cases h
      omega
    · cases h
  · rintro ⟨rfl, hlt⟩
    rw [if_pos ⟨Int.natCast_nonneg _, by omega⟩, Int.toNat_natCast]

/-- What a returning `read` did: at most a cursor moved, that of the descriptor read
through. -/
theorem read_ok {k k' : Kernel δ} {fd : Int} {buf : Bytes} {count : Nat} {v : Nat × Bytes}
    (h : read k fd buf count = .ok (v, k')) :
    ∃ t, k'.fs = { k.fs with globalFdTable := t } ∧ CursorsMoved k.fs.globalFdTable t ∧
      ∀ n : Nat, fd ≠ n → t.entry n = k.fs.globalFdTable.entry n := by
  simp only [read, bind_eq_ok] at h
  obtain ⟨index, hindex, inode, -, h⟩ := h
  obtain ⟨rfl, hlt⟩ := entryIndex_eq_ok.mp hindex
  split at h
  · split at h
    · simp only [bind_eq_ok, Prod.exists] at h
      obtain ⟨n, buf', dev, -, h⟩ := h
      cases h
      exact ⟨_, rfl, CursorsMoved.refl _, fun _ _ ↦ rfl⟩
    · cases h
      exact ⟨_, rfl, CursorsMoved.refl _, fun _ _ ↦ rfl⟩
  · simp only [bind_eq_ok, Prod.exists] at h
    obtain ⟨readPos, n, buf', -, h⟩ := h
    cases h
    refine ⟨_, rfl, cursorsMoved_setEntry _ hlt rfl, fun n hn ↦ ?_⟩
    rw [FileDescriptorTable.entry_setEntry _ hlt, if_neg]
    rintro rfl
    exact hn rfl

theorem moveCursors_ok {fs : FileSystem} {e e' : FileDescriptorEntry} {offset : Int}
    {param : Nat} (h : moveCursors fs e offset param = .ok e') : e'.inodeNum = e.inodeNum := by
  rw [moveCursors.eq_def] at h
  split at h
  · cases h
    rfl
  · cases h
    rfl
  · simp only [bind_eq_ok] at h
    obtain ⟨inode, -, h⟩ := h
    cases h
    rfl
  · cases h
    rfl

/-- What a returning `seek` did. -/
theorem seek_ok {k k' : Kernel δ} {fd offset v : Int} {param : Nat}
    (h : seek k fd offset param = .ok (v, k')) :
    ∃ t, k' = { k with fs := { k.fs with globalFdTable := t } } ∧
      CursorsMoved k.fs.globalFdTable t := by
  rw [seek] at h
  split at h
  · simp only [bind_eq_ok] at h
    obtain ⟨index, hindex, e, he, h⟩ := h
    obtain ⟨-, hlt⟩ := entryIndex_eq_ok.mp hindex
    cases h
    exact ⟨_, rfl, cursorsMoved_setEntry _ hlt (moveCursors_ok he)⟩
  · cases h
    exact ⟨_, rfl, CursorsMoved.refl _⟩

/-! ## `write` -/

/-- The loop of `write`, started on a descriptor and its inode. -/
def FileSystem.writeResult (fs : FileSystem) (fd : Nat) (buf : Bytes) (count : Nat) :
    WriteState :=
  let i := (fs.globalFdTable.entry fd).inodeNum
  writeLoop buf count
    { writePos := (fs.globalFdTable.entry fd).writePos
      bytesWritten := 0
      size := (fs.inode i).size
      dataBlockBuf := fs.block i }

/-- `fs'` is `fs` with bytes written to the file `i` of the descriptor `fd`. -/
structure Wrote (fs fs' : FileSystem) (fd i : Nat) (buf : Bytes) (count : Nat) : Prop where
  fd_lt : fd < descriptorCount
  inodeNum : (fs.globalFdTable.entry fd).inodeNum = i
  lt : i < inodeCount
  not_special : ¬ fs.IsSpecial i
  dataStart : fs'.globalSuper.dataStart = fs.globalSuper.dataStart
  ibmap : fs'.globalIbmap = fs.globalIbmap
  dbmap : fs'.globalDbmap = fs.globalDbmap
  inode : ∀ j, fs'.inode j =
    if j = i then { fs.inode i with size := (fs.writeResult fd buf count).size }
    else fs.inode j
  disk : fs'.disk = ataWriteBlock fs.disk (fs.inode i).dataBlockStart
    (fs.writeResult fd buf count).dataBlockBuf
  table : fs'.globalFdTable = fs.globalFdTable.setEntry fd
    { fs.globalFdTable.entry fd with writePos := (fs.writeResult fd buf count).writePos }

/-- **What a returning `write` did**: it left the file system to a special file's handler,
or it wrote to a file. -/
theorem write_ok {k k' : Kernel δ} {fd : Int} {buf : Bytes} {count v : Nat}
    (h : write k fd buf count = .ok (v, k')) :
    ∃ n : Nat, fd = n ∧ n < descriptorCount ∧
      ((k.fs.IsSpecial (k.fs.globalFdTable.entry n).inodeNum ∧ k'.fs = k.fs) ∨
        (v = (k.fs.writeResult n buf count).bytesWritten ∧ k'.heap = k.heap ∧
          Wrote k.fs k'.fs n (k.fs.globalFdTable.entry n).inodeNum buf count)) := by
  simp only [write, bind_eq_ok] at h
  obtain ⟨index, hindex, inode, hread, h⟩ := h
  obtain ⟨hfd, hlt⟩ := entryIndex_eq_ok.mp hindex
  obtain ⟨hi, rfl⟩ := FileSystem.readInode_eq_ok.mp hread
  refine ⟨index, hfd, hlt, ?_⟩
  split at h
  · rename_i hspecial
    left
    refine ⟨hspecial, ?_⟩
    split at h
    · simp only [bind_eq_ok, Prod.exists] at h
      obtain ⟨n, buf', dev, -, h⟩ := h
      cases h
      rfl
    · cases h
      rfl
  · rename_i hspecial
    right
    cases h
    exact ⟨rfl, rfl, hlt, rfl, hi, hspecial, rfl, rfl, rfl, FileSystem.inode_setInode _ hi _,
      rfl, rfl⟩

/-! ## Calls as data -/

/-- What a returning call did to the file system. -/
inductive Effect (fs fs' : FileSystem) : FsCall → Prop
  /-- At most cursors moved; so it is if the call was refused. -/
  | moved {c : FsCall} {t : FileDescriptorTable} : fs' = { fs with globalFdTable := t } →
      CursorsMoved fs.globalFdTable t → Effect fs fs' c
  | created {path : CString} {fileType : UInt8} {allocateFd : Bool} {past : Bytes}
      {d i b : Nat} {v : Int} : Created fs fs' path fileType d i b →
      FdOutcome fs.globalFdTable fs'.globalFdTable i (fileName path) allocateFd v →
      Effect fs fs' (.createFiletype path fileType allocateFd past)
  | opened {path : CString} {t : FileDescriptorTable} {d fd : Nat} {r : Int} :
      fs' = { fs with globalFdTable := t } →
      seekDirectory fs (parsePath path).1.chars = .ok (d : Int) →
      searchDir fs d (fileName path) = .ok r → r ≠ -1 →
      Opened fs.globalFdTable t fd (toUint32 r) (fileName path) →
      Effect fs fs' (.openFile path)
  | closed {fd : Int} {t : FileDescriptorTable} : fs' = { fs with globalFdTable := t } →
      deallocBitrange fs.globalFdTable ⟨toUint32 fd, 1⟩ = .ok t → Effect fs fs' (.close fd)
  | wrote {buf : Bytes} {count fd i : Nat} : Wrote fs fs' fd i buf count →
      Effect fs fs' (.write fd buf count)
  | removed {path : CString} {past : Bytes} {d e : Nat} : Removed fs fs' path past d e →
      Effect fs fs' (.unlink path past)

theorem Effect.refl (fs : FileSystem) (c : FsCall) : Effect fs fs c :=
  .moved rfl (CursorsMoved.refl _)

/-- A call of `read` as data. -/
theorem exec_read {k k' : Kernel δ} {fd : Int} {buf : Bytes} {count : Nat} {v : Int}
    (h : FsCall.exec k (.read fd buf count) = .ok (v, k')) :
    ∃ n buf', read k fd buf count = .ok ((n, buf'), k') := by
  simp only [FsCall.exec, bind_eq_ok, Prod.exists] at h
  obtain ⟨n, buf', k₁, hread, h⟩ := h
  cases h
  exact ⟨n, buf', hread⟩

/-- A call of `write` as data. -/
theorem exec_write {k k' : Kernel δ} {fd : Int} {buf : Bytes} {count : Nat} {v : Int}
    (h : FsCall.exec k (.write fd buf count) = .ok (v, k')) :
    ∃ n, write k fd buf count = .ok (n, k') := by
  simp only [FsCall.exec, bind_eq_ok, Prod.exists] at h
  obtain ⟨n, k₁, hwrite, h⟩ := h
  cases h
  exact ⟨n, hwrite⟩

/-- `read` works on the descriptors and the devices. -/
theorem read_frame {k k' : Kernel δ} {fd : Int} {buf : Bytes} {count : Nat} {v : Nat × Bytes}
    (h : read k fd buf count = .ok (v, k')) :
    k'.heap = k.heap ∧ k'.systemFiles = k.systemFiles := by
  simp only [read, bind_eq_ok] at h
  obtain ⟨index, -, inode, -, h⟩ := h
  split at h
  · split at h
    · simp only [bind_eq_ok, Prod.exists] at h
      obtain ⟨n, buf', dev, -, h⟩ := h
      cases h
      exact ⟨rfl, rfl⟩
    · cases h
      exact ⟨rfl, rfl⟩
  · simp only [bind_eq_ok, Prod.exists] at h
    obtain ⟨pos, n, buf', -, h⟩ := h
    cases h
    exact ⟨rfl, rfl⟩

/-- `write` works on the file system and the devices. -/
theorem write_frame {k k' : Kernel δ} {fd : Int} {buf : Bytes} {count v : Nat}
    (h : write k fd buf count = .ok (v, k')) :
    k'.heap = k.heap ∧ k'.systemFiles = k.systemFiles := by
  simp only [write, bind_eq_ok] at h
  obtain ⟨index, -, inode, -, h⟩ := h
  split at h
  · split at h
    · simp only [bind_eq_ok, Prod.exists] at h
      obtain ⟨n, buf', dev, -, h⟩ := h
      cases h
      exact ⟨rfl, rfl⟩
    · cases h
      exact ⟨rfl, rfl⟩
  · cases h
    exact ⟨rfl, rfl⟩

/-- **What a returning call did.** -/
theorem exec_ok {k k' : Kernel δ} {c : FsCall} {v : Int} (h : FsCall.exec k c = .ok (v, k')) :
    Effect k.fs k'.fs c := by
  cases c with
  | createFiletype path fileType allocateFd past =>
      rcases createFiletype_ok h with ⟨-, heq⟩ | ⟨d, i, b, hc, hout⟩
      · rw [heq]
        exact .refl _ _
      · exact .created hc hout
  | openFile path =>
      obtain ⟨t, ht, d, hseek, r, hsearch, ⟨-, -, rfl⟩ | ⟨hr, fd, -, hopen⟩⟩ := openFile_ok h
      · rw [ht]
        exact .refl _ _
      · exact .opened ht hseek hsearch hr hopen
  | close fd =>
      obtain ⟨-, t, ht, rfl⟩ := close_ok h
      exact .closed rfl ht
  | read fd buf count =>
      obtain ⟨n, buf', hread⟩ := exec_read h
      obtain ⟨t, ht, hmoved, -⟩ := read_ok hread
      exact .moved ht hmoved
  | write fd buf count =>
      obtain ⟨v, hwrite⟩ := exec_write h
      obtain ⟨n, rfl, -, ⟨-, heq⟩ | ⟨-, -, hwrote⟩⟩ := write_ok hwrite
      · rw [heq]
        exact .refl _ _
      · exact .wrote hwrote
  | seek fd offset param =>
      obtain ⟨t, rfl, hmoved⟩ := seek_ok h
      exact .moved rfl hmoved
  | unlink path past =>
      rcases unlink_ok h with ⟨-, rfl⟩ | ⟨-, -, d, e, hr⟩
      · exact .refl _ _
      · exact .removed hr

end Yorha.Fs
