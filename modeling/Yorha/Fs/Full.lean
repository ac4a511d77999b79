import Yorha.Fs.Namespace

/-!
# Full directories

A directory is one block, with room for 113 entries.  `create_filetype` does not count them: it
looks the name up, and if the name is new it appends an entry, wherever the size says.  In a
full directory this entry is the 114th, and its bytes lie on both sides of the end of the
buffer that `link_file_in_dir` has for the block.

So a creation in a full directory fails as it should only where the name is there already
(`RefusesFull`).  A live directory has at most 113 entries as long as calls return and none of
them writes to a directory (`DirsFit`).
-/

namespace Yorha.Fs

open Yorha.Lib Yorha.Str Yorha.Util Yorha.Heap

variable {δ : Type} {k k' : Kernel δ} {fs fs' : FileSystem} {path : CString} {fileType : UInt8}
  {allocateFd : Bool} {past : Bytes} {d i b e n : Nat} {c : FsCall}

/-- In a full directory, the call returns -1 and leaves the file system as it was. -/
def RefusesFull (k : Kernel δ) (path : CString) (fileType : UInt8) (allocateFd : Bool)
    (past : Bytes) : Prop :=
  ∀ d : Nat, seekDirectory k.fs (parsePath path).1.chars = .ok (d : Int) →
    dirFileCountMax ≤ k.fs.files d →
    ∃ k', createFiletype k path fileType allocateFd past = .ok (-1, k') ∧ k'.fs = k.fs

/-- If the directory is full, the name is one of its entries'. -/
def NameThere (fs : FileSystem) (path : CString) : Prop :=
  ∀ d : Nat, seekDirectory fs (parsePath path).1.chars = .ok (d : Int) →
    dirFileCountMax ≤ fs.files d → ∃ r, searchDir fs d (fileName path) = .ok r ∧ r ≠ -1

/-- If the directory is full, the heap has room for the copies of the path. -/
def PathFits (k : Kernel δ) (path : CString) : Prop :=
  ∀ d : Nat, seekDirectory k.fs (parsePath path).1.chars = .ok (d : Int) →
    dirFileCountMax ≤ k.fs.files d → ∃ r, Path k.heap path = .ok r

/-- The entry that a creation appends lies in the block of its directory. -/
def LinkFits (k : Kernel δ) (path : CString) (fileType : UInt8) : Prop :=
  ∀ (parsedPath : ParsedPath) (heap : KernelHeap) (pair : DirInodePair) (fs : FileSystem),
    Path k.heap path = .ok (parsedPath, heap) →
    allocateInode k.fs parsedPath fileType (fileType != fileTypeSpecial) = .ok (pair, fs) →
    pair.valid = true → fs.files pair.dirInodeNum < dirFileCountMax

/-- Every live directory has at most 113 entries. -/
def DirsFit (fs : FileSystem) : Prop :=
  ∀ d, fs.Live d → fs.IsDir d → fs.files d ≤ dirFileCountMax

/-- A call that writes nothing through a descriptor of a directory. -/
def WritesNoDir (fs : FileSystem) : FsCall → Prop
  | .write fd _ _ => ¬ fs.IsDir (fs.globalFdTable.entry fd.toNat).inodeNum
  | _ => True

/-! ## One call -/

/-- What a refused creation found. -/
theorem search_of_refused {parsedPath : ParsedPath} {pair : DirInodePair}
    (hdir : parsedPath.dirChars = (parsePath path).1)
    (hname : parsedPath.nameChars = (parsePath path).2)
    (hseek : seekDirectory fs (parsePath path).1.chars = .ok (d : Int))
    (h : allocateInode fs parsedPath fileType (fileType != fileTypeSpecial) = .ok (pair, fs'))
    (hinvalid : pair.valid = false) : ∃ r, searchDir fs d (fileName path) = .ok r ∧ r ≠ -1 := by
  obtain ⟨r, hsearch⟩ : ∃ r, searchDir fs d (fileName path) = .ok r := by
    rcases seekDirectory_ok_range hseek with hneg | ⟨d', hd', hlt, -⟩
    · omega
    · obtain rfl : d = d' := Int.ofNat.inj hd'
      have hd : toUint32 (d : Int) = d := toUint32_inode hlt
      rw [allocateInode, hdir, hname, hseek, ok_bind, if_neg (by omega)] at h
      simp only [hd] at h
      obtain ⟨r, hsearch, -⟩ := bind_eq_ok.mp h
      exact ⟨r, hsearch⟩
  refine ⟨r, hsearch, ?_⟩
  rintro rfl
  rw [allocateInode_valid hdir hname hseek hsearch h] at hinvalid
  cases hinvalid

/-- **When a full directory is respected**: the name is there, and the heap has room for the
path. -/
theorem refusesFull_iff {live : LiveBlocks} (hinv : HeapInv k.heap.allocator live) :
    RefusesFull k path fileType allocateFd past ↔ PathFits k path ∧ NameThere k.fs path := by
  constructor
  · intro h
    have hsteps : ∀ d : Nat, seekDirectory k.fs (parsePath path).1.chars = .ok (d : Int) →
        dirFileCountMax ≤ k.fs.files d → (∃ r, Path k.heap path = .ok r) ∧
          ∃ r, searchDir k.fs d (fileName path) = .ok r ∧ r ≠ -1 := by
      intro d hseek hfull
      obtain ⟨k', hx, -⟩ := h d hseek hfull
      obtain ⟨parsedPath, heap, heap', pair, fs, hpath, halloc, hinvalid, -⟩ :=
        createFiletype_minusOne (head_of_seekDirectory hseek) hx
      obtain ⟨hdir, hname⟩ := Path_ok hpath
      exact ⟨⟨_, hpath⟩, search_of_refused hdir hname hseek halloc hinvalid⟩
    exact ⟨fun d hseek hfull ↦ (hsteps d hseek hfull).1,
      fun d hseek hfull ↦ (hsteps d hseek hfull).2⟩
  · rintro ⟨hfits, hthere⟩ d hseek hfull
    obtain ⟨⟨parsedPath, heap⟩, hpath⟩ := hfits d hseek hfull
    obtain ⟨r, hsearch, hr⟩ := hthere d hseek hfull
    exact createFiletype_of_taken hinv (head_of_seekDirectory hseek) hpath (searchDir_ok hsearch).1
      hseek hsearch hr

/-- Where a full directory already has the name, nothing is appended to it. -/
theorem NameThere.linkFits (h : NameThere k.fs path) : LinkFits k path fileType := by
  intro parsedPath heap pair fs hpath halloc hvalid
  obtain ⟨hdir, hname⟩ := Path_ok hpath
  obtain ⟨b, ha⟩ := allocateInode_made hdir hname halloc hvalid
  rw [FileSystem.files, ha.inode]
  split
  · change 0 / entryBytes < dirFileCountMax
    decide
  · by_contra hfull
    obtain ⟨r, hsearch, hr⟩ := h _ ha.seek (Nat.le_of_not_lt hfull)
    rw [ha.search] at hsearch
    exact hr (Except.ok.inj hsearch).symm

/-! ## Runs -/

/-- A creation leaves no directory with more than 113 entries. -/
theorem Created.dirsFit (h : Created fs fs' path fileType d i b) (hfit : DirsFit fs) :
    DirsFit fs' := by
  intro j hj hdir
  have hroom := h.room
  rw [FileSystem.files, h.inode j]
  by_cases hjd : j = d
  · have hmax : dirFileCountMax = 113 := rfl
    have hbytes : entryBytes = 36 := rfl
    rw [hmax, hbytes] at hroom ⊢
    simp only [if_pos hjd]
    omega
  · simp only [if_neg hjd]
    split
    · exact Nat.div_le_of_le_mul (Nat.zero_le _)
    · rename_i hji
      have hinode := h.inode_of_ne hji hjd
      refine hfit j (((h.live_iff j).mp hj).resolve_left hji) ?_
      rwa [FileSystem.IsDir, hinode] at hdir

/-- A removal does not either. -/
theorem Removed.dirsFit (h : Removed fs fs' path past d e) (hfit : DirsFit fs) : DirsFit fs' := by
  intro j hj hdir
  have hlive : fs.Live j := ((h.live_iff j).mp hj).2
  have hdir := (h.isDir_iff j).mp hdir
  obtain ⟨size, hle, hinode⟩ := h.entry.inode j
  rw [FileSystem.files, hinode]
  exact le_trans (Nat.div_le_div_right hle) (hfit j hlive hdir)

/-- **Step.**  A call that does not write to a directory leaves none with more than 113
entries. -/
theorem Effect.dirsFit (he : Effect fs fs' c) (hc : WritesNoDir fs c) (hfit : DirsFit fs) :
    DirsFit fs' := by
  cases he with
  | moved ht _ =>
      rw [ht]
      exact hfit
  | created h _ => exact h.dirsFit hfit
  | opened ht _ _ _ _ =>
      rw [ht]
      exact hfit
  | closed ht _ =>
      rw [ht]
      exact hfit
  | @wrote buf count fd i h =>
      intro j hj hdir
      have hlive : fs.Live j := by rwa [FileSystem.Live, h.ibmap] at hj
      obtain ⟨size, hinode, hsize⟩ := h.inode_eq j
      have hdir : fs.IsDir j := by rwa [FileSystem.IsDir, hinode] at hdir
      have hji : j ≠ i := by
        rintro rfl
        rw [WritesNoDir, Int.toNat_natCast, h.inodeNum] at hc
        exact hc hdir
      rw [FileSystem.files, hinode, hsize hji]
      exact hfit j hlive hdir
  | removed h => exact h.dirsFit hfit

/-- In every state that calls lead to from a formatted disk, the heap is in order. -/
theorem heapInv_of_reaches {ok : Kernel δ → FsCall → Prop} {k₀ : Kernel δ} (h₀ : Formatted k₀)
    (h : Reaches FsCall.exec ok k₀ k) : ∃ live, HeapInv k.heap.allocator live :=
  Reaches.invariant (I := fun k : Kernel δ ↦ ∃ live, HeapInv k.heap.allocator live) h
    h₀.namespaceInv.heap fun ⟨live, hinv⟩ _ hx ↦ ⟨live, (exec_keeps hinv hx).inv⟩

/-- **Full directories.**  In every state that calls lead to from a formatted disk, a creation in
a full directory returns -1 and changes nothing exactly if its name is there and the heap has
room for its path.  Where no call has written to a directory, every live directory has at most
113 entries; and a creation whose name is there if its directory is full appends nothing
behind the block. -/
theorem refusesFull_of_reaches {k₀ k : Kernel δ} (h₀ : Formatted k₀) :
    (Reaches FsCall.exec (fun _ _ ↦ True) k₀ k → ∀ path fileType allocateFd past,
      RefusesFull k path fileType allocateFd past ↔ PathFits k path ∧ NameThere k.fs path) ∧
    (Reaches FsCall.exec (fun k c ↦ WritesNoDir k.fs c) k₀ k → DirsFit k.fs ∧
      ∀ path fileType, NameThere k.fs path → LinkFits k path fileType) := by
  constructor
  · intro h path fileType allocateFd past
    obtain ⟨live, hinv⟩ := heapInv_of_reaches h₀ h
    exact refusesFull_iff hinv
  · intro h
    refine ⟨?_, fun path fileType hthere ↦ hthere.linkFits⟩
    exact Reaches.invariant (I := fun k : Kernel δ ↦ DirsFit k.fs) h
      (fun d hd hdir ↦ h₀.quiet.sound.files_le hd hdir)
      fun hfit hc hx ↦ (exec_ok hx).dirsFit hc hfit

/-! ## A directory that is full -/

/-- The names of 113 directories. -/
def letter (n : Nat) : UInt8 := UInt8.ofNat (128 + n)

/-- The path of such a directory. -/
def letterPath (n : Fin 113) : CString :=
  ⟨[slash, letter n], by revert n; decide⟩

/-- The root has `n` directories besides `/dev`; what the others need is free. -/
structure Crowded (n : Nat) (k : Kernel Unit) : Prop where
  inv : NamespaceInv k
  alike : Alike terminalKernel.heap.allocator k.heap.allocator
  files : k.fs.files 0 = n + 1
  dev : (k.fs.children 0).lookup (ofText "dev") = some 1
  names : ∀ m : Fin 113, n ≤ m → (k.fs.children 0).lookup [letter m] = none
  inodes : ∀ j < 200, n + 4 ≤ j → ¬ k.fs.Live j
  blocks : ∀ m < 200, n + 10 ≤ m → WordArray.bit k.fs.globalDbmap m = false

theorem crowded_terminalKernel : Crowded 0 terminalKernel where
  inv := formatted_terminalKernel.namespaceInv
  alike := alike_refl _
  files := by decide +kernel
  dev := by decide +kernel
  names := by
    intro m _
    revert m
    decide +kernel
  inodes := by decide +kernel
  blocks := by decide +kernel

/-- Where one of the directories is made. -/
theorem letterPath_parts : ∀ n : Fin 113, (parsePath (letterPath n)).1.chars = [slash] ∧
    fileName (letterPath n) = [letter n] ∧
    (Path terminalKernel.heap (letterPath n)).toOption.isSome = true := by
  decide +kernel

theorem letter_ne {m n : Fin 113} (h : m ≠ n) : letter m ≠ letter n := by
  intro heq
  have hnat := congrArg UInt8.toNat heq
  rw [letter, letter, UInt8.toNat_ofNat', UInt8.toNat_ofNat'] at hnat
  exact h (Fin.ext (by omega))

section

variable {k : Kernel Unit}

/-- The next directory is not there. -/
theorem Crowded.search (h : Crowded n k) (m : Fin 113) (hm : n ≤ m) :
    seekDirectory k.fs (parsePath (letterPath m)).1.chars = .ok ((0 : Nat) : Int) ∧
      searchDir k.fs 0 (fileName (letterPath m)) = .ok (-1) := by
  obtain ⟨hdir, hname, -⟩ := letterPath_parts m
  have hs := h.inv.quiet.sound
  constructor
  · rw [hdir, seekDirectory_eq_walk k.fs rfl]
    exact (hs.walk_nil hs.root_live).trans (congrArg Except.ok (if_pos hs.root_dir))
  · rw [hs.searchDir_eq hs.root_live hs.root_dir (zero_notMem_fileName _), hname, h.names m hm]
    rfl

/-- One directory more can be made. -/
theorem Crowded.canCreate (h : Crowded n k) (hn : n < 112) :
    CanCreate k (letterPath ⟨n, by omega⟩) 0 := by
  let m : Fin 113 := ⟨n, by omega⟩
  obtain ⟨-, hname, hpath⟩ := letterPath_parts m
  obtain ⟨hseek, hsearch⟩ := h.search m le_rfl
  have hdead : ¬ k.fs.Live (n + 4) := h.inodes _ (by omega) le_rfl
  have hfree : WordArray.bit k.fs.globalDbmap (n + 10) = false := h.blocks _ (by omega) le_rfl
  obtain ⟨r, hr⟩ := Option.isSome_iff_exists.mp hpath
  exact
    { root := rfl
      heap := by
        obtain ⟨heap, hheap⟩ := Path_alike h.alike (toOption_eq_some.mp hr)
        exact ⟨_, hheap⟩
      seek := hseek
      search := hsearch
      short := by
        rw [hname]
        change 1 < nameBytes
        decide
      room := by
        rw [h.files]
        exact Nat.succ_lt_succ hn
      inode := ⟨n + 4, lt_trans (Nat.add_lt_add_right hn 4) (by decide), hdead⟩
      block := ⟨n + 10, lt_trans (Nat.add_lt_add_right hn 11) (by decide), hfree⟩ }

/-- One directory more. -/
theorem Crowded.mkdir (h : Crowded n k) (hn : n < 112) :
    ∃ k', Reaches FsCall.exec NamespaceCall k k' ∧ Crowded (n + 1) k' := by
  let m : Fin 113 := ⟨n, by omega⟩
  obtain ⟨-, hname, -⟩ := letterPath_parts m
  have hs := h.inv.quiet.sound
  have hdead : ¬ k.fs.Live (n + 4) := h.inodes _ (by omega) le_rfl
  have hfree : WordArray.bit k.fs.globalDbmap (n + 10) = false := h.blocks _ (by omega) le_rfl
  have hcan : CanCreate k (letterPath m) 0 := h.canCreate hn
  obtain ⟨live, hheap⟩ := h.inv.heap
  obtain ⟨k', hx⟩ := createFiletype_returns hheap hs.root_live (by decide) hcan fileTypeDir
    fun _ ↦ 0
  have hcall : NamespaceCall k (.mkdir (letterPath m) fun _ ↦ 0) := ⟨.inr rfl, rfl⟩
  refine ⟨k', (Reaches.refl k).tail hcall hx, ?_⟩
  rcases createFiletype_ok hx with ⟨hneg, -⟩ | ⟨d, i, b, hc, -⟩
  · exact absurd hneg (by decide)
  · obtain rfl : d = 0 := Int.ofNat.inj (Except.ok.inj (hc.seek.symm.trans hcan.seek))
    have hb : BitAllocated k.fs.globalDbmap k'.fs.globalDbmap b := hc.dbmap
    refine ⟨h.inv.step (.inl hcall) hx, h.alike.trans (createFiletype_heap hheap hx).1, ?_, ?_, ?_,
      ?_, ?_⟩
    · rw [hc.files_parent hs hs.root_live, h.files]
    · rw [hc.children_parent hs hs.root_live]
      exact Forest.lookup_append_of_eq_some h.dev
    · intro l hl
      have hne : ([letter l] == [letter m]) = false := by
        refine beq_eq_false_iff_ne.mpr fun heq ↦ letter_ne (m := l) (n := m) ?_ ?_
        · rintro rfl
          exact absurd hl (Nat.not_succ_le_self n)
        · exact (List.cons.inj heq).1
      rw [hc.children_parent hs hs.root_live, List.lookup_append, h.names l (by omega), hname,
        Option.none_or, List.lookup_cons, hne]
      rfl
    · intro j hj hle hlive
      rcases (hc.live_iff j).mp hlive with rfl | hlive
      · exact hdead (hc.ibmap.first _ (by omega))
      · exact h.inodes j hj (by omega) hlive
    · intro l hl hle
      rw [hb.bits]
      split
      · rename_i hlb
        rw [← hb.first (n + 10) (by omega), hfree]
      · exact h.blocks l hl (by omega)

/-- The root can be filled. -/
theorem exists_crowded (hn : n ≤ 112) :
    ∃ k, Reaches FsCall.exec NamespaceCall terminalKernel k ∧ Crowded n k := by
  induction n with
  | zero => exact ⟨terminalKernel, Reaches.refl _, crowded_terminalKernel⟩
  | succ n ih =>
      obtain ⟨k, hk, hcrowd⟩ := ih (Nat.le_of_succ_le hn)
      obtain ⟨k', hk', hcrowd'⟩ := hcrowd.mkdir hn
      exact ⟨k', hk.trans hk', hcrowd'⟩

/-- Making `/dev` again in a root of 113 entries. -/
theorem refusesFull_fullRoot : ∃ k, Reaches FsCall.exec NamespaceCall terminalKernel k ∧
    k.fs.files 0 = dirFileCountMax ∧
    (∀ fileType allocateFd past, RefusesFull k devPath fileType allocateFd past) ∧
    DirsFit k.fs ∧ LinkFits k devPath fileTypeDir := by
  obtain ⟨k, hk, hcrowd⟩ := exists_crowded (n := 112) le_rfl
  have hs := hcrowd.inv.quiet.sound
  have hname : 0 ∉ fileName devPath := zero_notMem_fileName devPath
  have hdev := hs.searchDir_of_lookup hs.root_live hname hcrowd.dev
  have hroot : (parsePath devPath).1.chars = [slash] := by decide
  have hseek : seekDirectory k.fs (parsePath devPath).1.chars = .ok ((0 : Nat) : Int) := by
    rw [hroot, seekDirectory_eq_walk k.fs rfl]
    exact (hs.walk_nil hs.root_live).trans (congrArg Except.ok (if_pos hs.root_dir))
  have hthere : NameThere k.fs devPath := by
    intro d hd _
    obtain rfl : d = 0 := Int.ofNat.inj (Except.ok.inj (hd.symm.trans hseek))
    exact ⟨1, hdev, by decide⟩
  have hfits : PathFits k devPath := by
    intro _ _ _
    have hpath : (Path terminalKernel.heap devPath).toOption.isSome = true := by decide +kernel
    obtain ⟨r, hr⟩ := Option.isSome_iff_exists.mp hpath
    obtain ⟨heap, hheap⟩ := Path_alike hcrowd.alike (toOption_eq_some.mp hr)
    exact ⟨_, hheap⟩
  obtain ⟨hrefuses, hkeeps⟩ := refusesFull_of_reaches (k := k) formatted_terminalKernel
  obtain ⟨hdirs, hlink⟩ := hkeeps (hk.mono fun k c hc ↦ by
    cases c with
    | write fd buf count => cases hc
    | createFiletype | openFile | close | read | seek | unlink => trivial)
  exact ⟨k, hk, hcrowd.files,
    fun _ _ _ ↦ (hrefuses (hk.mono fun _ _ _ ↦ trivial) _ _ _ _).mpr ⟨hfits, hthere⟩,
    hdirs, hlink _ _ hthere⟩

/-- **The 114th entry does not fit**: after 112 directories have been made next to `/dev`, the
root holds 113 entries, and the next creation there does not return. -/
theorem fullRoot_overruns : Formatted terminalKernel ∧
    ∃ k, Reaches FsCall.exec (fun _ _ ↦ True) terminalKernel k ∧
      k.fs.files 0 = dirFileCountMax ∧ ∀ fileType allocateFd past,
        (∀ r, createFiletype k (letterPath 112) fileType allocateFd past ≠ .ok r) ∧
        ¬ RefusesFull k (letterPath 112) fileType allocateFd past := by
  obtain ⟨k, hk, hcrowd⟩ := exists_crowded (n := 112) le_rfl
  obtain ⟨hseek, hsearch⟩ := hcrowd.search 112 le_rfl
  have hfull : k.fs.files 0 = dirFileCountMax := hcrowd.files
  refine ⟨formatted_terminalKernel, k, hk.mono fun _ _ _ ↦ trivial, hfull,
    fun fileType allocateFd past ↦ ?_⟩
  have hstops : ∀ r, createFiletype k (letterPath 112) fileType allocateFd past ≠ .ok r := by
    rintro ⟨v, k'⟩ hx
    rcases createFiletype_ok hx with ⟨rfl, -⟩ | ⟨d, i, b, hc, -⟩
    · exact createFiletype_ne hseek hsearch hx rfl
    · obtain rfl : d = 0 := Int.ofNat.inj (Except.ok.inj (hc.seek.symm.trans hseek))
      have hlt := hc.files_lt hcrowd.inv.quiet.sound.root_live
      exact absurd hlt (by rw [hfull]; exact Nat.lt_irrefl _)
  refine ⟨hstops, fun h ↦ ?_⟩
  obtain ⟨k', hx, -⟩ := h 0 hseek hfull.ge
  exact hstops _ hx

end

end Yorha.Fs
