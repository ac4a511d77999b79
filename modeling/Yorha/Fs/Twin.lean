import Yorha.Fs.Write

/-!
# Two file systems that differ in one block

Two file systems are twins when they have the same tables and the same disk, but for bytes
of one block that no file covers which counts.  `Shown` says which bytes count: all of the
other blocks, and of the one block those below the size of a file that is listed.

A call that follows its path through directories only finds the same in both, and what it
does to one it does to the other.  `write` reads its block and writes it back, so the bytes
that do not count stay where they are; they come to count when the size of a file grows
over them.
-/

namespace Yorha.Fs

open Yorha.Lib Yorha.Str Yorha.Util

variable {δ : Type} {fs fs' fs₁ fs₁' : FileSystem} {secret : Option Nat} {files : List Nat}
  {path : CString} {d i : Nat}

/-! ## What counts -/

/-- Where the block of an inode is. -/
def FileSystem.address (fs : FileSystem) (i : Nat) : Nat :=
  blockAddress (fs.inode i).dataBlockStart

/-- Byte `p` of block `b` counts: a listed file covers it, if the block is the secret one. -/
def Shown (fs : FileSystem) (secret : Option Nat) (files : List Nat) (b p : Nat) : Prop :=
  secret = some b → ∃ i ∈ files, fs.address i = b ∧ p < (fs.inode i).size

/-- The file systems are the same as far as it counts. -/
structure Twin (secret : Option Nat) (files : List Nat) (fs fs' : FileSystem) : Prop where
  dataStart : fs'.globalSuper.dataStart = fs.globalSuper.dataStart
  ibmap : fs'.globalIbmap = fs.globalIbmap
  dbmap : fs'.globalDbmap = fs.globalDbmap
  inode : ∀ j, fs'.inode j = fs.inode j
  table : fs'.globalFdTable = fs.globalFdTable
  disk : ∀ {b p}, Shown fs secret files b p → fs'.disk b p = fs.disk b p

/-- The secret block is no directory's, and the listed files are normal ones. -/
structure Guarded (fs : FileSystem) (secret : Option Nat) (files : List Nat) : Prop where
  sound : Sound fs
  dirs : ∀ {d}, fs.Live d → fs.IsDir d → secret ≠ some (fs.address d)
  files : ∀ j ∈ files, fs.IsNormal j

theorem FileSystem.IsNormal.not_isDir (h : fs.IsNormal i) : ¬ fs.IsDir i := by
  intro hdir
  rw [FileSystem.IsDir, h] at hdir
  exact absurd hdir (by decide)

theorem Guarded.ne_of_isDir (hg : Guarded fs secret files) {j : Nat} (hj : j ∈ files)
    (hdir : fs.IsDir d) : j ≠ d := by
  rintro rfl
  exact (hg.files j hj).not_isDir hdir

theorem Twin.refl (secret : Option Nat) (files : List Nat) (fs : FileSystem) :
    Twin secret files fs fs :=
  ⟨rfl, rfl, rfl, fun _ ↦ rfl, rfl, fun _ ↦ rfl⟩

/-- A new descriptor table on both sides. -/
theorem Twin.of_table (h : Twin secret files fs fs') (t : FileDescriptorTable) :
    Twin secret files { fs with globalFdTable := t } { fs' with globalFdTable := t } :=
  ⟨h.dataStart, h.ibmap, h.dbmap, h.inode, rfl, h.disk⟩

/-- With fewer files less counts. -/
theorem Twin.mono (h : Twin secret files fs fs') {files' : List Nat}
    (hsub : ∀ j ∈ files', j ∈ files) : Twin secret files' fs fs' where
  dataStart := h.dataStart
  ibmap := h.ibmap
  dbmap := h.dbmap
  inode := h.inode
  table := h.table
  disk := by
    intro b p hshown
    apply h.disk
    intro hb
    obtain ⟨j, hj, hcover⟩ := hshown hb
    exact ⟨j, hsub j hj, hcover⟩

/-! ## What is found -/

section

variable (h : Twin secret files fs fs') (hg : Guarded fs secret files)

include h hg

/-- The block of a directory counts as a whole. -/
theorem Twin.block_eq (hd : fs.Live d) (hdir : fs.IsDir d) : fs'.block d = fs.block d := by
  funext p
  rw [FileSystem.block, h.inode]
  exact h.disk fun hb ↦ absurd hb (hg.dirs hd hdir)

theorem Twin.sameTree : SameTree fs fs' where
  dataStart := h.dataStart
  ibmap := h.ibmap
  dbmap := h.dbmap
  fileType := fun j ↦ by rw [h.inode]
  dataBlockStart := fun j ↦ by rw [h.inode]
  size := fun _ _ ↦ by rw [h.inode]
  block := h.block_eq hg

theorem Twin.sound : Sound fs' := (h.sameTree hg).sound hg.sound

/-- A walk through directories finds the same. -/
theorem Twin.walk_eq {names : List Name} (hi : fs.Live i) (hnames : ∀ name ∈ names, 0 ∉ name)
    (hsafe : fs.WalksDirs names i) : fs'.walk names i = fs.walk names i := by
  have htree := h.sameTree hg
  have hs' := h.sound hg
  induction names generalizing i with
  | nil =>
      rw [hg.sound.walk_nil hi, hs'.walk_nil ((htree.live_iff i).mpr hi)]
      exact congrArg Except.ok (if_congr (htree.isDir_iff i) rfl rfl)
  | cons name names ih =>
      rw [List.forall_mem_cons] at hnames
      obtain ⟨hdir, hnext⟩ := hsafe
      have hdir' : fs'.IsDir i ∨ fs'.files i = 0 := by
        rw [htree.isDir_iff, FileSystem.files, h.inode]
        exact hdir
      rw [hg.sound.walk_cons hi hdir hnames.1,
        hs'.walk_cons ((htree.live_iff i).mpr hi) hdir' hnames.1, htree.children_eq hi]
      refine if_congr Iff.rfl ?_ rfl
      rw [← children_eq_entries hdir] at hnext
      cases hl : (fs.children i).lookup name with
      | none => rfl
      | some next =>
          rw [hl] at hnext
          exact ih (hg.sound.live_of_lookup hi hl) hnames.2 hnext

/-- **`seek_directory` finds the same directory.** -/
theorem Twin.seekDirectory_eq (hsafe : fs.SafePath path) :
    seekDirectory fs' (parsePath path).1.chars = seekDirectory fs (parsePath path).1.chars := by
  by_cases habs : Absolute path
  · rw [seekDirectory_eq_walk fs habs, seekDirectory_eq_walk fs' habs]
    exact h.walk_eq hg hg.sound.root_live (zero_notMem_dirNames path) (hsafe habs)
  · rw [seekDirectory_of_relative fs habs, seekDirectory_of_relative fs' habs]

/-- **`search_dir` finds the same file.** -/
theorem Twin.searchDir_eq (hd : fs.Live d) (hdir : fs.IsDir d) {name : Name} (hname : 0 ∉ name) :
    searchDir fs' d name = searchDir fs d name := by
  have htree := h.sameTree hg
  rw [hg.sound.searchDir_eq hd hdir hname,
    (h.sound hg).searchDir_eq ((htree.live_iff d).mpr hd) ((htree.isDir_iff d).mpr hdir) hname,
    htree.children_eq hd]

/-- What a path leads to in one file system it leads to in the other. -/
theorem Twin.search_eq (hsafe : fs.SafePath path)
    (hseek : seekDirectory fs (parsePath path).1.chars = .ok (d : Int)) :
    seekDirectory fs' (parsePath path).1.chars = .ok (d : Int) ∧
      searchDir fs' d (fileName path) = searchDir fs d (fileName path) := by
  obtain ⟨-, hlead⟩ := hg.sound.leads hsafe hseek
  refine ⟨(h.seekDirectory_eq hg hsafe).trans hseek, ?_⟩
  exact h.searchDir_eq hg hlead.live hlead.dir (zero_notMem_fileName path)

/-- The same, from what the other finds. -/
theorem Twin.search_eq' (hsafe : fs.SafePath path)
    (hseek : seekDirectory fs' (parsePath path).1.chars = .ok (d : Int)) :
    seekDirectory fs (parsePath path).1.chars = .ok (d : Int) ∧
      searchDir fs' d (fileName path) = searchDir fs d (fileName path) := by
  rw [h.seekDirectory_eq hg hsafe] at hseek
  exact ⟨hseek, (h.search_eq hg hsafe hseek).2⟩

end

/-! ## What calls do to twins -/

theorem ataWriteBlock_apply (disk : Disk) (blockNum : Nat) (buf : Bytes) (b : Nat) :
    ataWriteBlock disk blockNum buf b = if b = blockAddress blockNum then buf else disk b :=
  Function.update_apply _ _ _ _

/-- Writing the same to the same block of both, when nothing else comes to count. -/
theorem Twin.disk_write (h : Twin secret files fs fs') {files' : List Nat} {blockNum : Nat}
    {buf : Bytes} (hdisk : fs₁.disk = ataWriteBlock fs.disk blockNum buf)
    (hdisk' : fs₁'.disk = ataWriteBlock fs'.disk blockNum buf)
    (hshown : ∀ {b p}, Shown fs₁ secret files' b p → Shown fs secret files b p) {b p : Nat}
    (hb : Shown fs₁ secret files' b p) : fs₁'.disk b p = fs₁.disk b p := by
  rw [hdisk, hdisk', ataWriteBlock_apply, ataWriteBlock_apply]
  split
  · rfl
  · exact h.disk (hshown hb)

section

variable (h : Twin secret files fs fs') (hg : Guarded fs secret files)

include h hg

/-- **Making a file** makes it in both: with the same numbers, and nothing of it counts. -/
theorem Twin.created {d' i' b b' : Nat} {allocateFd : Bool} {v v' : Int}
    (hsafe : fs.SafePath path) (hc : Created fs fs₁ path fileTypeNormal d i b)
    (hout : FdOutcome fs.globalFdTable fs₁.globalFdTable i (fileName path) allocateFd v)
    (hc' : Created fs' fs₁' path fileTypeNormal d' i' b')
    (hout' : FdOutcome fs'.globalFdTable fs₁'.globalFdTable i' (fileName path) allocateFd v') :
    Twin secret (i :: files) fs₁ fs₁' := by
  have htree := h.sameTree hg
  have hd := (hg.sound.leads hsafe hc.seek).2.live
  obtain rfl : d' = d := by
    obtain ⟨hseek, -⟩ := h.search_eq hg hsafe hc.seek
    exact Int.ofNat.inj (Except.ok.inj (hc'.seek.symm.trans hseek))
  have hd' := (htree.live_iff d').mpr hd
  have hibmap := hc'.ibmap
  rw [h.ibmap] at hibmap
  obtain ⟨rfl, hi⟩ := hc.ibmap.unique hibmap
  have hdbmap := hc.dbmap
  have hdbmap' := hc'.dbmap
  rw [if_neg (by decide)] at hdbmap hdbmap'
  rw [h.dbmap] at hdbmap'
  obtain ⟨rfl, hb⟩ := hdbmap.unique hdbmap'
  rw [h.table] at hout'
  refine ⟨?_, hi.symm, hb.symm, fun j ↦ ?_, (hout.unique hout').2.symm, ?_⟩
  · rw [hc'.dataStart, hc.dataStart, h.dataStart]
  · have hinode := hc.inode j
    have hinode' := hc'.inode j
    simp only [parentInode, h.inode] at hinode hinode'
    rw [hinode, hinode']
  · refine h.disk_write (hc.disk_eq hd) ?_ ?_
    · rw [hc'.disk_eq hd', h.inode, h.block_eq hg hd hc.parent_dir,
        htree.files_eq hd hc.parent_dir]
    · intro b p hshown hsecret
      obtain ⟨j, hj, haddress, hp⟩ := hshown hsecret
      by_cases hji : j = i
      · -- the new file is empty
        subst hji
        rw [hc.inode_self hd] at hp
        exact absurd hp (Nat.not_lt_zero p)
      · have hj := (List.mem_cons.mp hj).resolve_left hji
        have hjd := hg.ne_of_isDir hj hc.parent_dir
        rw [FileSystem.address, hc.inode_of_ne hji hjd] at haddress
        rw [hc.inode_of_ne hji hjd] at hp
        exact ⟨j, hj, haddress, hp⟩

/-- **Removing a file** removes it from both. -/
theorem Twin.removed {past : Bytes} {d' e e' : Nat} (hsafe : fs.SafePath path)
    (hr : Removed fs fs₁ path past d e) (hr' : Removed fs' fs₁' path past d' e') :
    Twin secret files fs₁ fs₁' := by
  have htree := h.sameTree hg
  have hs' := h.sound hg
  have hd := (hg.sound.leads hsafe hr.seek).2.live
  obtain ⟨hseek, hsearch⟩ := h.search_eq hg hsafe hr.seek
  obtain rfl : d' = d := Int.ofNat.inj (Except.ok.inj (hr'.seek.symm.trans hseek))
  have hd' := (htree.live_iff d').mpr hd
  obtain rfl : e' = e := by
    obtain ⟨r, hfound, -, rfl⟩ := hr.search
    obtain ⟨r', hfound', -, rfl⟩ := hr'.search
    rw [hsearch, hfound] at hfound'
    rw [Except.ok.inj hfound']
  -- the entry is the same, and so are those behind it
  obtain ⟨entry, buf, hget, -, hmove, hinode, hdisk⟩ := hr.entry_eq hg.sound hd
  obtain ⟨entry', buf', hget', -, hmove', hinode', hdisk'⟩ := hr'.entry_eq hs' hd'
  rw [htree.children_eq hd] at hget'
  obtain ⟨-, rfl⟩ := hg.sound.forest.once hd hd hget hget'
  rw [htree.files_eq hd hr.parent_dir, h.block_eq hg hd hr.parent_dir, hmove] at hmove'
  cases hmove'
  refine ⟨?_, ?_, ?_, fun j ↦ ?_, ?_, ?_⟩
  · rw [hr'.dataStart, hr.dataStart, h.dataStart]
  · apply vector_ext_bit
    intro m
    rw [hr'.ibmap, hr.ibmap, h.ibmap]
  · have hdbmap := hr'.dbmap
    rw [h.inode, h.dbmap, hr.dbmap] at hdbmap
    exact (Except.ok.inj hdbmap).symm
  · rw [hinode, hinode', h.inode, h.inode]
  · rw [hr'.table, hr.table, h.table]
  · refine h.disk_write hdisk (by rw [hdisk', h.inode]) ?_
    intro b p hshown hsecret
    obtain ⟨j, hj, haddress, hp⟩ := hshown hsecret
    have hjd := hg.ne_of_isDir hj hr.parent_dir
    rw [FileSystem.address, hinode, if_neg hjd] at haddress
    rw [hinode, if_neg hjd] at hp
    exact ⟨j, hj, haddress, hp⟩

end

/-! ## The guard -/

/-- A live inode keeps its type and its block. -/
theorem TreeEffect.inode_kept {c : FsCall} (h : TreeEffect fs fs₁ c) {j : Nat} (hj : fs.Live j) :
    (fs₁.inode j).fileType = (fs.inode j).fileType ∧ fs₁.address j = fs.address j := by
  rw [FileSystem.address, FileSystem.address]
  cases h with
  | same h => exact ⟨h.fileType j, congrArg blockAddress (h.dataBlockStart j)⟩
  | created h hd =>
      obtain ⟨n, hn, -⟩ := h.inode_live hd hj
      rw [hn]
      exact ⟨rfl, rfl⟩
  | removed h _ _ _ =>
      obtain ⟨n, -, hn⟩ := h.entry.inode j
      rw [hn]
      exact ⟨rfl, rfl⟩

/-- A call that makes no files but normal ones. -/
def MakesNormal : FsCall → Prop
  | .createFiletype _ fileType _ _ => fileType = fileTypeNormal
  | _ => True

/-- **The guard stays.**  No directory gets the secret block, as none is made. -/
theorem Guarded.step {c : FsCall} (hg : Guarded fs secret files) (h : TreeEffect fs fs₁ c)
    (hc : MakesNormal c) : Guarded fs₁ secret files where
  sound := h.sound hg.sound
  dirs := by
    intro j hj hdir
    have hold : fs.Live j := by
      cases h with
      | same h => exact (h.live_iff j).mp hj
      | created h hd =>
          rcases (h.live_iff j).mp hj with rfl | hold
          · have hnormal : fs₁.IsNormal j := by
              rw [FileSystem.IsNormal, h.inode_self hd]
              exact hc
            exact absurd hdir hnormal.not_isDir
          · exact hold
      | removed h _ _ _ => exact ((h.live_iff j).mp hj).2
    obtain ⟨htype, haddress⟩ := h.inode_kept hold
    rw [FileSystem.IsDir, htype] at hdir
    rw [haddress]
    exact hg.dirs hold hdir
  files := by
    intro j hj
    have hnormal := hg.files j hj
    rw [FileSystem.IsNormal] at hnormal ⊢
    cases h with
    | same h => rw [h.fileType, hnormal]
    | @created _ _ _ _ d i b h hd =>
        have hjd := hg.ne_of_isDir hj h.parent_dir
        by_cases hji : j = i
        · rw [hji, h.inode_self hd]
          exact hc
        · rw [h.inode_of_ne hji hjd, hnormal]
    | removed h _ _ _ =>
        obtain ⟨n, -, hn⟩ := h.entry.inode j
        rw [hn, hnormal]

/-- A file more is listed. -/
theorem Guarded.cons (hg : Guarded fs secret files) (hi : fs.IsNormal i) :
    Guarded fs secret (i :: files) :=
  ⟨hg.sound, hg.dirs, List.forall_mem_cons.mpr ⟨hi, hg.files⟩⟩

/-! ## Writing -/

/-- What is accepted goes to the end of the file, if it is a listed file with the secret
block. -/
def AppendsToListed (fs : FileSystem) (secret : Option Nat) (files : List Nat) (fd count : Nat) :
    Prop :=
  let e := fs.globalFdTable.entry fd
  e.inodeNum ∈ files → secret = some (fs.address e.inodeNum) →
    accepted e.writePos count = 0 ∨ e.writePos = (fs.inode e.inodeNum).size

instance (fs : FileSystem) (secret : Option Nat) (files : List Nat) (fd count : Nat) :
    Decidable (AppendsToListed fs secret files fd count) :=
  inferInstanceAs (Decidable (_ → _ → _))

section

variable {buf buf' : Bytes} {fd count : Nat}

theorem Wrote.address_eq (hw : Wrote fs fs₁ fd i buf count) (j : Nat) :
    fs₁.address j = fs.address j := by
  obtain ⟨n, hn, -⟩ := hw.inode_eq j
  rw [FileSystem.address, hn, FileSystem.address]

/-- What comes to count was written, when what is accepted goes to the end. -/
theorem Wrote.shown (hw : Wrote fs fs₁ fd i buf count)
    (hend : AppendsToListed fs secret files fd count) {b p : Nat}
    (hb : Shown fs₁ secret files b p) : Shown fs secret files b p ∨
      b = fs.address i ∧ (fs.globalFdTable.entry fd).writePos ≤ p ∧
        p < (fs.globalFdTable.entry fd).writePos +
          accepted (fs.globalFdTable.entry fd).writePos count := by
  by_cases hsecret : secret = some b
  · obtain ⟨j, hj, haddress, hp⟩ := hb hsecret
    rw [hw.address_eq] at haddress
    by_cases hji : j = i
    · subst hji
      have hcase := hend (by rwa [hw.inodeNum]) (by rw [hw.inodeNum, haddress]; exact hsecret)
      rw [hw.inodeNum] at hcase
      rw [hw.size_eq] at hp
      rcases hcase with hnone | hpos
      · rw [if_pos hnone] at hp
        exact .inl fun _ ↦ ⟨j, hj, haddress, hp⟩
      · by_cases hlt : p < (fs.inode j).size
        · exact .inl fun _ ↦ ⟨j, hj, haddress, hlt⟩
        · refine .inr ⟨haddress.symm, ?_, ?_⟩
          · rw [hpos]
            exact Nat.le_of_not_lt hlt
          · simp only at hp
            split at hp
            · exact absurd hp hlt
            · rw [hpos] at hp ⊢
              exact lt_of_lt_of_le hp (Nat.mod_le _ _)
    · obtain ⟨n, hn, hsize⟩ := hw.inode_eq j
      rw [hn, hsize hji] at hp
      exact .inl fun _ ↦ ⟨j, hj, haddress, hp⟩
  · exact .inl fun heq ↦ absurd heq hsecret

/-- The tables after a write of as many bytes. -/
theorem Twin.wrote_tables (h : Twin secret files fs fs') (hw : Wrote fs fs₁ fd i buf count)
    (hw' : Wrote fs' fs₁' fd i buf' count) (hdisk : ∀ {b p}, Shown fs₁ secret files b p →
      fs₁'.disk b p = fs₁.disk b p) : Twin secret files fs₁ fs₁' where
  dataStart := by rw [hw'.dataStart, hw.dataStart, h.dataStart]
  ibmap := by rw [hw'.ibmap, hw.ibmap, h.ibmap]
  dbmap := by rw [hw'.dbmap, hw.dbmap, h.dbmap]
  inode := by
    intro j
    rw [hw'.inode, hw.inode, h.inode, h.inode]
    simp only [FileSystem.writeResult, writeLoop_size, h.table, h.inode]
  table := by
    rw [hw'.table, hw.table, h.table]
    simp only [FileSystem.writeResult, writeLoop_writePos, h.table]
  disk := hdisk

/-- A byte of the disk after a write. -/
theorem Wrote.disk_apply (hw : Wrote fs fs₁ fd i buf count) (b p : Nat) : fs₁.disk b p =
    let pos := (fs.globalFdTable.entry fd).writePos
    if b = fs.address i ∧ pos ≤ p ∧ p < pos + accepted pos count then buf (p - pos)
    else fs.disk b p := by
  have haddress : blockAddress (fs.inode i).dataBlockStart = fs.address i := rfl
  rw [hw.disk, ataWriteBlock_apply, haddress]
  by_cases hb : b = fs.address i
  · rw [if_pos hb, FileSystem.writeResult, writeLoop_dataBlockBuf]
    simp only [Nat.zero_add, hw.inodeNum, hb, true_and]
    rfl
  · rw [if_neg hb, if_neg (fun hin ↦ hb hin.1)]

/-- **Writing the same bytes** to both, at the end of listed files. -/
theorem Twin.wrote (h : Twin secret files fs fs') (hw : Wrote fs fs₁ fd i buf count)
    (hw' : Wrote fs' fs₁' fd i buf' count) (hbuf : ∀ j < count, buf' j = buf j)
    (hend : AppendsToListed fs secret files fd count) : Twin secret files fs₁ fs₁' := by
  refine h.wrote_tables hw hw' fun {b p} hb ↦ ?_
  have haddress : fs'.address i = fs.address i := by
    rw [FileSystem.address, h.inode, FileSystem.address]
  rw [hw'.disk_apply, hw.disk_apply, h.table, haddress]
  simp only
  split
  · rename_i hin
    apply hbuf
    have hle : accepted (fs.globalFdTable.entry fd).writePos count ≤ count :=
      Nat.min_le_left _ _
    omega
  · rename_i hout
    exact h.disk ((hw.shown hend hb).resolve_right hout)

/-- **Writing to the secret block** while no file is listed. -/
theorem Twin.wrote_secret (h : Twin secret [] fs fs') (hw : Wrote fs fs₁ fd i buf count)
    (hw' : Wrote fs' fs₁' fd i buf' count) (hsecret : secret = some (fs.address i)) :
    Twin secret [] fs₁ fs₁' := by
  refine h.wrote_tables hw hw' fun {b p} hb ↦ ?_
  have hne : b ≠ fs.address i := by
    rintro rfl
    obtain ⟨j, hj, -⟩ := hb hsecret
    exact List.not_mem_nil hj
  have haddress : fs'.address i = fs.address i := by
    rw [FileSystem.address, h.inode, FileSystem.address]
  rw [hw'.disk_apply, hw.disk_apply, haddress]
  simp only [hne, false_and, if_false]
  exact h.disk fun heq ↦ absurd (Option.some.inj (heq.symm.trans hsecret)) hne

end

/-! ## Reading -/

/-- What the loop of `read` does to the cursor depends on the size only, and what it reads on
the bytes below the size. -/
theorem readLoop_alike {dataBlockBuf dataBlockBuf' : Bytes} {size n readPos bytesRead pos pos' : Nat}
    {m m' : Nat} {buf buf' out out' : Bytes}
    (h : readLoop dataBlockBuf size n readPos bytesRead buf = .ok (pos, m, out))
    (h' : readLoop dataBlockBuf' size n readPos bytesRead buf' = .ok (pos', m', out')) :
    pos' = pos ∧ m' = m ∧
      ((∀ p < size, dataBlockBuf' p = dataBlockBuf p) → buf' = buf → out' = out) := by
  induction n generalizing readPos bytesRead buf buf' with
  | zero =>
      cases h
      cases h'
      exact ⟨rfl, rfl, fun _ heq ↦ heq⟩
  | succ n ih =>
      rw [readLoop] at h h'
      split at h
      · rename_i hpos
        rw [if_pos hpos] at h'
        split at h
        · rename_i hlt
          rw [if_pos hlt] at h'
          obtain ⟨hpos', hm, hout⟩ := ih h h'
          refine ⟨hpos', hm, fun hsame heq ↦ hout hsame ?_⟩
          rw [heq, hsame _ hpos]
        · cases h
      · rename_i hpos
        rw [if_neg hpos] at h'
        cases h
        cases h'
        exact ⟨rfl, rfl, fun _ heq ↦ heq⟩

/-- **Reading** moves the same cursor, and returns the same bytes of a listed file. -/
theorem Twin.read {k k' k₁ k₁' : Kernel δ} (h : Twin secret files k.fs k'.fs) {fd : Int}
    {buf : Bytes} {count : Nat} {v v' : Nat × Bytes}
    (hx : Fs.read k fd buf count = .ok (v, k₁)) (hx' : Fs.read k' fd buf count = .ok (v', k₁')) :
    Twin secret files k₁.fs k₁'.fs ∧
      ((k.fs.globalFdTable.entry fd.toNat).inodeNum ∈ files →
        k.fs.IsNormal (k.fs.globalFdTable.entry fd.toNat).inodeNum → v' = v) := by
  simp only [Fs.read, bind_eq_ok] at hx hx'
  obtain ⟨index, hindex, inode, hread, hx⟩ := hx
  obtain ⟨index', hindex', inode', hread', hx'⟩ := hx'
  rw [hindex] at hindex'
  cases hindex'
  obtain ⟨rfl, hlt⟩ := entryIndex_eq_ok.mp hindex
  obtain ⟨-, rfl⟩ := FileSystem.readInode_eq_ok.mp hread
  obtain ⟨-, rfl⟩ := FileSystem.readInode_eq_ok.mp hread'
  rw [h.table, h.inode] at hx'
  rw [Int.toNat_natCast]
  split at hx
  · rename_i hspecial
    rw [if_pos hspecial] at hx'
    have hfs : k₁.fs = k.fs := by
      split at hx
      · simp only [bind_eq_ok, Prod.exists] at hx
        obtain ⟨n, out, dev, -, hx⟩ := hx
        cases hx
        rfl
      · cases hx
        rfl
    have hfs' : k₁'.fs = k'.fs := by
      split at hx'
      · simp only [bind_eq_ok, Prod.exists] at hx'
        obtain ⟨n, out, dev, -, hx'⟩ := hx'
        cases hx'
        rfl
      · cases hx'
        rfl
    rw [hfs, hfs']
    exact ⟨h, fun _ hnormal ↦ absurd hspecial hnormal.not_isSpecial⟩
  · rename_i hspecial
    rw [if_neg hspecial] at hx'
    simp only [bind_eq_ok, Prod.exists] at hx hx'
    obtain ⟨pos, n, out, hloop, hx⟩ := hx
    obtain ⟨pos', n', out', hloop', hx'⟩ := hx'
    cases hx
    cases hx'
    obtain ⟨rfl, rfl, hout⟩ := readLoop_alike hloop hloop'
    refine ⟨?_, fun hfile _ ↦ ?_⟩
    · exact h.of_table _
    · rw [hout (fun p hp ↦ ?_) rfl]
      exact h.disk fun _ ↦ ⟨_, hfile, rfl, hp⟩

end Yorha.Fs
