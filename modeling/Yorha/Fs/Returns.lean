import Yorha.Fs.Preserve
import Yorha.Heap.Buffer
import Yorha.Heap.Replay

/-!
# Calls that return

`Effect` says what a call did if it returned.  This module says when it does: making a
file returns if its name is free and short, its directory is not full, and an inode, a
block and the heap's memory are left (`createFiletype_returns`); removing one returns if
it is there (`unlink_returns`); and making a file that is there returns -1
(`createFiletype_of_taken`).

The copies of a path on the heap are given back before a call returns, so the heap is
like before, and the blocks of others have the contents they had (`createFiletype_heap`,
`openFile_heap`); the other calls do not touch it (`exec_keeps`).
-/

namespace Yorha.Fs

open Yorha.Lib Yorha.Str Yorha.Util Yorha.Heap

variable {δ : Type} {fs fs' : FileSystem} {path : CString} {fileType : UInt8} {d e i b : Nat}

/-! ## Paths on the heap -/

section

variable {h h' h₁ : KernelHeap} {live : LiveBlocks} {parsedPath : ParsedPath}

/-- Alike heaps copy a path alike. -/
theorem Path_alike (hal : Alike h.allocator h'.allocator)
    (hp : Path h path = .ok (parsedPath, h₁)) : ∃ h₁', Path h' path = .ok (parsedPath, h₁') := by
  simp only [Path, bind_eq_ok, Prod.exists] at hp
  obtain ⟨p, a, hm, q, a', hn, hp⟩ := hp
  obtain ⟨b, hm', hal₁⟩ := hal.kmalloc hm
  obtain ⟨b', hn', -⟩ := hal₁.kmalloc hn
  split at hp
  · cases hp
  · rename_i hne
    cases hp
    simp only [Path, hm', hn', ok_bind, if_neg hne]
    exact ⟨_, rfl⟩

/-- Splitting a path gives no longer strings. -/
theorem length_parsePath_le (path : CString) :
    (parsePath path).1.chars.length ≤ path.chars.length ∧
      (parsePath path).2.chars.length ≤ path.chars.length :=
  ⟨List.length_take_le' _ _, (List.length_drop ..).trans_le (Nat.sub_le _ _)⟩

/-- The copies are written to their own blocks. -/
theorem Path_frame (hinv : HeapInv h.allocator live)
    (hp : Path h path = .ok (parsedPath, h₁)) {r n i : Nat} (hr : live r = some n) (hi : i < n) :
    h₁.mem (r + i) = h.mem (r + i) := by
  simp only [Path, bind_eq_ok, Prod.exists] at hp
  obtain ⟨p, a, hm, q, a', hn, hp⟩ := hp
  split at hp
  · cases hp
  · cases hp
    have hpos : 0 < path.chars.length + 1 := Nat.succ_pos _
    have hinv₁ := hinv.kmalloc hpos hm
    have hinv₂ := hinv₁.kmalloc hpos hn
    have hrp := ne_of_fresh (hinv.kmalloc_fresh hpos hm) hr
    have hr₁ := (Function.update_of_ne hrp (some (path.chars.length + 1)) live).trans hr
    have hp₁ := Function.update_self p (some (path.chars.length + 1)) live
    have hfresh := hinv₁.kmalloc_fresh hpos hn
    have hrq := ne_of_fresh hfresh hr₁
    -- the byte lies in neither of the two blocks
    have hout : ∀ {s}, Function.update (Function.update live p (some (path.chars.length + 1))) q
        (some (path.chars.length + 1)) s = some (path.chars.length + 1) → r ≠ s →
        ¬ (s ≤ r + i ∧ r + i < s + (path.chars.length + 1)) := fun hs hne ↦
      HeapInv.apart (h := ⟨a', h.mem⟩) hinv₂ ((Function.update_of_ne hrq _ _).trans hr₁) hs hne
        (Nat.le_add_right r i) (Nat.add_lt_add_left hi r)
    have hdir := (length_parsePath_le path).1
    have hname := (length_parsePath_le path).2
    have houtp := hout ((Function.update_of_ne (ne_of_fresh hfresh hp₁) _ _).trans hp₁) hrp
    have houtq := hout (Function.update_self q _ _) hrq
    change Function.update (strcpy (strcpy h.mem p path.chars) q (parsePath path).2.chars)
      (p + (parsePath path).1.chars.length) 0 (r + i) = h.mem (r + i)
    rw [Function.update_of_ne (by omega), strcpy, Bytes.splice_of_notMem, strcpy,
      Bytes.splice_of_notMem]
    · rw [List.length_append, List.length_singleton]
      exact houtp
    · rw [List.length_append, List.length_singleton]
      omega

/-- The copies can be given back, whatever was done to the memory, and leave a heap like
the one before. -/
theorem freePath_returns (hinv : HeapInv h.allocator live)
    (hp : Path h path = .ok (parsedPath, h₁)) : ∃ h₂, freePath h₁ parsedPath = .ok h₂ ∧
      Alike h.allocator h₂.allocator ∧ Keeps h h₂ live := by
  have hframe := fun {r n i : Nat} ↦ Path_frame hinv hp (r := r) (n := n) (i := i)
  simp only [Path, bind_eq_ok, Prod.exists] at hp
  obtain ⟨p, a, hm, q, a', hn, hp⟩ := hp
  obtain ⟨a₃, a₄, hfree, hfree', hal, hinv'⟩ := hinv.alike_of_undo hm hn
  split at hp
  · cases hp
  · cases hp
    have hboth : ∀ mem, freePath ⟨a', mem⟩ ⟨p, q, (parsePath path).1, (parsePath path).2⟩ =
        .ok ⟨a₄, mem⟩ := by
      intro mem
      simp only [freePath, hfree, hfree', ok_bind]
    exact ⟨_, hboth _, hal, hinv', fun hr _ ↦ hr, fun hr _ hi ↦ hframe hr hi, hal.bottom⟩

theorem freePath_keeps {h₂ : KernelHeap} (hinv : HeapInv h.allocator live)
    (hp : Path h path = .ok (parsedPath, h₁)) (hfree : freePath h₁ parsedPath = .ok h₂) :
    Alike h.allocator h₂.allocator ∧ Keeps h h₂ live := by
  obtain ⟨h₃, hfree', hkept⟩ := freePath_returns hinv hp
  rw [hfree] at hfree'
  cases hfree'
  exact hkept

end

/-- A new heap has room for the copies of a short path. -/
theorem Path_initial (bottom : Nat) (mem : Bytes) (hne : path.chars ≠ [])
    (hlen : path.chars.length < 64) : ∃ r, Path ⟨AllocArray.initial bottom, mem⟩ path = .ok r := by
  obtain ⟨p, a, q, a', hp, hq⟩ := kmalloc_initial bottom (Nat.succ_pos path.chars.length) hlen
    (Nat.succ_pos path.chars.length) hlen
  simp only [Path, hp, hq, ok_bind, if_neg hne]
  exact ⟨_, rfl⟩

/-- A heap is like itself. -/
theorem alike_refl (a : AllocArray) : Alike a a :=
  ⟨rfl, rfl, fun _ ↦ rfl, fun _ ↦ Iff.rfl⟩

section

variable {k k' : Kernel δ} {allocateFd : Bool} {past : Bytes} {v : Int} {live : LiveBlocks}

/-- Making a file leaves the heap like before. -/
theorem createFiletype_heap (hinv : HeapInv k.heap.allocator live)
    (h : createFiletype k path fileType allocateFd past = .ok (v, k')) :
    Alike k.heap.allocator k'.heap.allocator ∧ Keeps k.heap k'.heap live := by
  cases createFiletype_steps h with
  | relative => exact ⟨alike_refl _, Keeps.refl hinv⟩
  | refused _ hpath _ _ hfree => exact freePath_keeps hinv hpath hfree
  | made _ hpath _ _ _ _ hfree => exact freePath_keeps hinv hpath hfree

/-- Opening a file leaves the heap like before. -/
theorem openFile_heap (hinv : HeapInv k.heap.allocator live)
    (h : openFile k path = .ok (v, k')) :
    Alike k.heap.allocator k'.heap.allocator ∧ Keeps k.heap k'.heap live := by
  cases openFile_steps h with
  | missing hpath _ _ hfree => exact freePath_keeps hinv hpath hfree
  | opened hpath _ _ _ _ hfree => exact freePath_keeps hinv hpath hfree

/-- **Making a file whose name is taken returns -1**, and changes nothing but the heap. -/
theorem createFiletype_of_taken (hinv : HeapInv k.heap.allocator live)
    (hroot : path.chars.head? = some slash) {parsedPath : ParsedPath} {heap : KernelHeap}
    (hpath : Path k.heap path = .ok (parsedPath, heap)) (hd : d < inodeCount)
    (hseek : seekDirectory k.fs (parsePath path).1.chars = .ok (d : Int)) {r : Int}
    (hsearch : searchDir k.fs d (fileName path) = .ok r) (hr : r ≠ -1) :
    ∃ k', createFiletype k path fileType allocateFd past = .ok (-1, k') ∧ k'.fs = k.fs := by
  obtain ⟨hdirChars, hname⟩ := Path_ok hpath
  obtain ⟨heap', hfree, -, -⟩ := freePath_returns hinv hpath
  have hd' : toUint32 (d : Int) = d := toUint32_inode hd
  have hne : ¬ (d : Int) = -1 := by omega
  have halloc : allocateInode k.fs parsedPath fileType (fileType != fileTypeSpecial) =
      .ok ({ valid := false }, k.fs) := by
    rw [allocateInode, hdirChars, hname, hseek, ok_bind, if_neg hne]
    simp only [hd']
    rw [show searchDir k.fs d (parsePath path).2.chars = .ok r from hsearch, ok_bind, if_pos hr]
  refine ⟨{ k with heap := heap' }, ?_, rfl⟩
  rw [createFiletype, if_pos hroot]
  simp only [hpath, halloc, hfree, ok_bind, Bool.false_eq_true, if_false]

end

/-! ## Bits -/

/-- A bitmap with a free bit before its last has one to allocate. -/
theorem allocBit_of_free {bitmap : Vector Word bitmapWords} (hb : b + 1 < 32 * bitmapWords)
    (hfree : WordArray.bit bitmap b = false) (msg : String) :
    ∃ n bitmap', allocBit bitmap msg = .ok (n, bitmap') ∧ n ≤ b := by
  have hb' : b + 1 < 32 * 1024 := hb
  have hclear : WordArray.Clear bitmap b 1 := by
    intro k h₁ h₂
    obtain rfl : k = b := by omega
    exact hfree
  have hfit : Fits bitmap (32 * (bitmapCapacity / 4)) 1 false b :=
    ⟨fun hal ↦ (nomatch hal), by change b + 1 ≤ 32 * 8192; omega, hclear⟩
  obtain ⟨r, bitmap', he, hlen, hfirst, -⟩ := allocBitrange_of_fits Nat.one_pos hfit hb (by omega)
  refine ⟨r.start, bitmap', ?_, hfirst.le hfit⟩
  simp only [allocBit, he, ok_bind, hlen, if_neg Nat.one_ne_zero]

/-- A bit before the last can be cleared. -/
theorem deallocBitrange_returns (bitmap : Vector Word bitmapWords)
    (hb : b + 1 < 32 * bitmapWords) : ∃ bitmap', deallocBitrange bitmap ⟨b, 1⟩ = .ok bitmap' := by
  have hb' : b + 1 < 32 * 1024 := hb
  obtain ⟨bitmap', he, -⟩ := applyBitrange_spec bitmap ⟨b, 1⟩ false Nat.one_pos
    (by change (b + 1) / 32 < 65535; omega) (by change (b + 1) / 32 < 1024; omega)
  exact ⟨bitmap', he⟩

/-! ## Making a file -/

/-- Making the file of a path succeeds: its directory is there and has room, its name is
short and free, and an inode, a block and the heap's memory are left. -/
structure CanCreate (k : Kernel δ) (path : CString) (d : Nat) : Prop where
  root : path.chars.head? = some slash
  heap : ∃ r, Path k.heap path = .ok r
  seek : seekDirectory k.fs (parsePath path).1.chars = .ok (d : Int)
  search : searchDir k.fs d (fileName path) = .ok (-1)
  short : (fileName path).length < nameBytes
  room : k.fs.files d < dirFileCountMax
  inode : ∃ i < inodeCount, ¬ k.fs.Live i
  block : ∃ b, b + 1 < 32 * bitmapWords ∧ WordArray.bit k.fs.globalDbmap b = false

section

variable {k : Kernel δ} {live : LiveBlocks}

theorem allocateInode_returns (fileType : UInt8) (h : CanCreate k path d)
    {parsedPath : ParsedPath}
    (hdirChars : parsedPath.dirChars = (parsePath path).1)
    (hname : parsedPath.nameChars = (parsePath path).2) (hd : d < inodeCount) :
    ∃ i fs', allocateInode k.fs parsedPath fileType (fileType != fileTypeSpecial) =
      .ok (⟨true, i, d⟩, fs') := by
  obtain ⟨n, hn, hdead⟩ := h.inode
  obtain ⟨c, hc, hfree⟩ := h.block
  have hd' : toUint32 (d : Int) = d := toUint32_inode hd
  have hne : ¬ (d : Int) = -1 := by omega
  have hn' : n + 1 < 32 * bitmapWords := lt_trans (Nat.succ_lt_succ hn) (by decide)
  obtain ⟨i, ibmap, hi, hle⟩ := allocBit_of_free hn' (Bool.eq_false_iff.mpr hdead)
    "allocate_inode: can't allocate inode"
  obtain ⟨b, dbmap, hb⟩ : ∃ b dbmap,
      allocDataBlock k.fs.globalDbmap (fileType != fileTypeSpecial) = .ok (b, dbmap) := by
    rw [allocDataBlock]
    split
    · obtain ⟨b, dbmap, hb, -⟩ := allocBit_of_free hc hfree "can't allocate data blocks"
      exact ⟨b, dbmap, hb⟩
    · exact ⟨_, _, rfl⟩
  have hshort : (parsePath path).2.chars.length < nameBytes := h.short
  have hsearch : searchDir k.fs d (parsePath path).2.chars = .ok (-1) := h.search
  refine ⟨i, ?_⟩
  rw [allocateInode, hdirChars, hname, h.seek, ok_bind, if_neg hne]
  simp only [hd', hsearch, ok_bind, ne_eq, not_true_eq_false, if_false, if_pos hshort, hi, hb,
    if_pos (lt_of_le_of_lt hle hn)]
  exact ⟨_, rfl⟩

theorem linkFileInDir_returns {name : Name}
    (hname : readString (fs.inode i).name nameBytes = .ok name) (hd : d < inodeCount)
    (hi : i < inodeCount) (hroom : fs.files d < dirFileCountMax) :
    ∃ fs', linkFileInDir fs d i = .ok fs' := by
  have hreadd : fs.readInode d = .ok (fs.inode d) := FileSystem.readInode_eq_ok.mpr ⟨hd, rfl⟩
  have hreadi : fs.readInode i = .ok (fs.inode i) := FileSystem.readInode_eq_ok.mpr ⟨hi, rfl⟩
  rw [linkFileInDir, hreadd, ok_bind, hreadi, ok_bind]
  simp only [hname, ok_bind]
  exact ⟨_, if_pos hroom⟩

/-- **Making a file returns**, if there is room for it. -/
theorem createFiletype_returns (hinv : HeapInv k.heap.allocator live) (hd : k.fs.Live d)
    (hlt : d < inodeCount) (h : CanCreate k path d) (fileType : UInt8) (past : Bytes) :
    ∃ k', createFiletype k path fileType false past = .ok (0, k') := by
  obtain ⟨⟨parsedPath, heap⟩, hpath⟩ := h.heap
  obtain ⟨hdirChars, hname⟩ := Path_ok hpath
  obtain ⟨heap', hfree, -, -⟩ := freePath_returns hinv hpath
  obtain ⟨i, fs₁, halloc⟩ := allocateInode_returns fileType h hdirChars hname hlt
  obtain ⟨b, ha⟩ := allocateInode_made hdirChars hname halloc rfl
  have hdi : d ≠ i := by
    rintro rfl
    have hfree := ha.ibmap.free
    rw [FileSystem.Live, hfree] at hd
    cases hd
  have hroom : fs₁.files d < dirFileCountMax := by
    rw [FileSystem.files, ha.inode, if_neg hdi]
    exact h.room
  obtain ⟨fs₂, hlink⟩ := linkFileInDir_returns ha.readString_name hlt ha.lt hroom
  have hclean : ∀ fs₃ : FileSystem, cleanup fs₃ 0 ⟨true, i, d⟩ past = .ok fs₃ :=
    fun _ ↦ if_neg (by decide)
  refine ⟨{ k with fs := fs₂, heap := heap' }, ?_⟩
  rw [createFiletype, if_pos h.root]
  simp only [hpath, halloc, hlink, hfree, ok_bind, if_true, openCreated, Bool.false_eq_true,
    if_false, hclean]

end

/-! ## Removing a file -/

theorem findEntry_returns (buf : Bytes) (inodeNum : Nat) {n entry : Nat}
    (hmax : entry + n ≤ dirFileCountMax) : ∃ o, findEntry buf inodeNum n entry = .ok o := by
  induction n generalizing entry with
  | zero => exact ⟨none, rfl⟩
  | succ n ih =>
      rw [findEntry, if_pos (by omega)]
      split
      · exact ⟨_, rfl⟩
      · exact ih (by omega)

/-- What the search finds is an entry of the directory. -/
theorem lt_files_of_findIdx? {p : Name × Nat → Bool} {entry : Nat}
    (h : (fs.entries d).findIdx? p = some entry) : entry < fs.files d := by
  have hlt := (List.findIdx?_eq_some_iff_findIdx_eq.mp h).1
  rwa [FileSystem.entries, length_entriesOf] at hlt

section

variable (hd : d < inodeCount) (hmax : fs.files d ≤ dirFileCountMax)

include hmax

/-- The search, in terms of the entries. -/
theorem findEntry_eq :
    findEntry (fs.block d) i (fs.files d) 0 = .ok ((fs.entries d).findIdx? fun e ↦ e.2 = i) := by
  obtain ⟨o, ho⟩ := findEntry_returns (fs.block d) i
    (show 0 + fs.files d ≤ dirFileCountMax by rwa [Nat.zero_add])
  have hshift := findEntry_ok ho
  simp only [Nat.zero_add, Option.map_id'] at hshift
  rw [ho, hshift]
  rfl

include hd

/-- A number that is not there: the block is written back as it was read. -/
theorem unlinkFileInDir_of_none (hnone : (fs.entries d).findIdx? (fun e ↦ e.2 = i) = none)
    (past : Bytes) : unlinkFileInDir fs d i past = .ok fs := by
  have hread : fs.readInode d = .ok (fs.inode d) := FileSystem.readInode_eq_ok.mpr ⟨hd, rfl⟩
  rw [unlinkFileInDir, hread, ok_bind]
  change (findEntry (fs.block d) i (fs.files d) 0 >>= _) = _
  rw [findEntry_eq hmax, hnone, ok_bind]
  exact congrArg (fun disk ↦ Except.ok { fs with disk := disk }) (write_read_block _ _)

/-- A number that is there: the entries behind it are moved. -/
theorem unlinkFileInDir_of_some {entry : Nat}
    (hsome : (fs.entries d).findIdx? (fun e ↦ e.2 = i) = some entry) (past : Bytes) :
    ∃ buf, moveEntries past (fs.files d - entry) entry (fs.block d) = .ok buf ∧
      unlinkFileInDir fs d i past = .ok
        { fs.setInode d { fs.inode d with size := (fs.inode d).size - entryBytes } with
          disk := ataWriteBlock fs.disk (fs.inode d).dataBlockStart buf } := by
  have hread : fs.readInode d = .ok (fs.inode d) := FileSystem.readInode_eq_ok.mpr ⟨hd, rfl⟩
  have hentry := lt_files_of_findIdx? hsome
  obtain ⟨buf, hmove⟩ := moveEntries_eq_ok past (fs.block d) (n := fs.files d - entry) entry
    (by omega)
  refine ⟨buf, hmove, ?_⟩
  rw [unlinkFileInDir, hread, ok_bind]
  change (findEntry (fs.block d) i (fs.files d) 0 >>= _) = _
  rw [findEntry_eq hmax, hsome, ok_bind]
  change (moveEntries past (fs.files d - entry) entry (fs.block d) >>= _) = _
  rw [hmove, ok_bind]
  rfl

/-- **`unlink_file_in_dir` returns** for a directory of at most 113 entries. -/
theorem unlinkFileInDir_returns (i : Nat) (past : Bytes) :
    ∃ fs', unlinkFileInDir fs d i past = .ok fs' := by
  cases h : (fs.entries d).findIdx? (fun e ↦ e.2 = i) with
  | none => exact ⟨fs, unlinkFileInDir_of_none hd hmax h past⟩
  | some entry =>
      obtain ⟨buf, -, hunlink⟩ := unlinkFileInDir_of_some hd hmax h past
      exact ⟨_, hunlink⟩

end

/-- A terminated name is short. -/
theorem length_stringAt_lt {m : Bytes} (h : Terminated m) :
    (stringAt m nameBytes).length < nameBytes := by
  obtain ⟨i, hi, hzero⟩ := h
  have hstr := isString_stringAt ⟨i, hi, hzero⟩
  by_contra hlong
  have hlt : i < (stringAt m nameBytes).length := by omega
  have hmem := List.getElem_mem hlt
  rw [← hstr.1 i hlt, hzero] at hmem
  exact zero_notMem_stringAt m nameBytes hmem

/-- A name that a live directory has is short. -/
theorem Sound.length_lt_of_lookup (hs : Sound fs) (hd : fs.Live d) {name : Name}
    (he : (fs.children d).lookup name = some e) : name.length < nameBytes := by
  obtain ⟨k, hk⟩ := Forest.getElem?_of_lookup he
  have hdir : fs.IsDir d := FileSystem.isDir_of_child hk
  rw [FileSystem.children_of_isDir hdir, FileSystem.entries, getElem?_entriesOf] at hk
  split at hk
  · rename_i hlt
    have hname : stringAt (entryName (fs.block d) k) nameBytes = name :=
      congrArg Prod.fst (Option.some.inj hk)
    rw [← hname]
    exact length_stringAt_lt (hs.names hd hdir k hlt)
  · cases hk

/-- The block of a live inode is before the last bit. -/
theorem Sound.block_succ_lt (hs : Sound fs) (hi : fs.Live i) :
    (fs.inode i).dataBlockStart + 1 < 32 * bitmapWords := by
  by_cases hsp : fs.IsSpecial i
  · rw [hs.special_block hi hsp]
    decide
  · have hmarked := hs.block_marked hi hsp
    have hlt := lt_of_bit hmarked
    have hne : (fs.inode i).dataBlockStart ≠ 32 * bitmapWords - 1 := by
      intro heq
      rw [heq, hs.last_free] at hmarked
      cases hmarked
    omega

/-- **Removing a file that is there returns 0.** -/
theorem unlink_returns {k : Kernel δ} (hs : Sound k.fs) (hd : k.fs.Live d)
    (hseek : seekDirectory k.fs (parsePath path).1.chars = .ok (d : Int))
    (he : (k.fs.children d).lookup (fileName path) = some e) (past : Bytes) :
    ∃ k', unlink k path past = .ok (0, k') := by
  have hdlt := hs.lt hd
  have helive := hs.live_of_lookup hd he
  have helt := hs.lt helive
  have hd' : toUint32 (d : Int) = d := toUint32_inode hdlt
  have he' : toUint32 (e : Int) = e := toUint32_inode helt
  have hne : ¬ (e : Int) = -1 := by omega
  have hnonempty : path.chars ≠ [] := by
    intro hnil
    have hdirChars : (parsePath path).1.chars = [] := by
      simp only [parsePath, CString.take, hnil, List.take_nil]
    rw [hdirChars, seekDirectory] at hseek
    have := Except.ok.inj hseek
    omega
  have hsearch : searchDir k.fs d (parsePath path).2.chars = .ok (e : Int) :=
    hs.searchDir_of_lookup hd (zero_notMem_fileName path) he
  -- the entry is found and removed
  obtain ⟨fs₁, hunlink⟩ := unlinkFileInDir_returns hdlt
    (hs.files_le hd (FileSystem.isDir_of_lookup he)) e past
  obtain ⟨hentry, -⟩ := unlinkFileInDir_ok hunlink
  obtain ⟨n, -, hinode⟩ := hentry.inode e
  have hread : fs₁.readInode e = .ok (fs₁.inode e) := FileSystem.readInode_eq_ok.mpr ⟨helt, rfl⟩
  have hblock : (fs₁.inode e).dataBlockStart + 1 < 32 * bitmapWords := by
    rw [hinode]
    exact hs.block_succ_lt helive
  -- and the bits of its block and inode are cleared
  obtain ⟨dbmap, hdb⟩ := deallocBitrange_returns fs₁.globalDbmap hblock
  obtain ⟨ibmap, hib⟩ := deallocBitrange_returns fs₁.globalIbmap (b := e)
    (lt_trans (Nat.succ_lt_succ helt) (by decide))
  have hshort : (parsePath path).2.chars.length < nameBytes := hs.length_lt_of_lookup hd he
  simp only [unlink]
  rw [if_pos ⟨hnonempty, hshort⟩, hseek, ok_bind]
  simp only [hd', hsearch, ok_bind, if_neg hne, he', hunlink, hread, hdb, hib]
  exact ⟨_, rfl⟩

/-! ## Opening a file -/

/-- **Opening a file that is found returns a descriptor**, if one is free. -/
theorem openFile_of_found {k : Kernel δ} {live : LiveBlocks} {fd : Nat} {r : Int}
    (hinv : HeapInv k.heap.allocator live) (hpath : ∃ r, Path k.heap path = .ok r)
    (hseek : seekDirectory k.fs (parsePath path).1.chars = .ok (d : Int))
    (hsearch : searchDir k.fs d (fileName path) = .ok r) (hr : r ≠ -1)
    (hshort : (fileName path).length < nameBytes) (hfd : fd < descriptorCount)
    (hfree : k.fs.globalFdTable.marked fd = false) :
    ∃ (n : Nat) (k' : Kernel δ), openFile k path = .ok ((n : Int), k') := by
  obtain ⟨⟨parsedPath, heap⟩, hpath⟩ := hpath
  obtain ⟨hdirChars, hname⟩ := Path_ok hpath
  obtain ⟨heap', hback, -, -⟩ := freePath_returns hinv hpath
  have hd : toUint32 (d : Int) = d := toUint32_inode (searchDir_ok hsearch).1
  have hsearch' : searchDir k.fs d (parsePath path).2.chars = .ok r := hsearch
  obtain ⟨v, t, halloc⟩ := allocateFileDescriptor_of_free hfd hfree (toUint32 r) hshort
  obtain ⟨n, rfl, -⟩ := allocateFileDescriptor_ok halloc
  have halloc' : allocateFileDescriptor k.fs.globalFdTable (toUint32 r) (parsePath path).2.chars =
      .ok ((n : Int), t) := halloc
  simp only [openFile, hpath, hdirChars, hname, hseek, hd, hsearch', hback, halloc', ok_bind,
    if_neg hr]
  exact ⟨n, _, rfl⟩

/-- So does opening a file that is there. -/
theorem openFile_returns {k : Kernel δ} {live : LiveBlocks} {fd : Nat}
    (hinv : HeapInv k.heap.allocator live) (hpath : ∃ r, Path k.heap path = .ok r)
    (hs : Sound k.fs) (hd : k.fs.Live d)
    (hseek : seekDirectory k.fs (parsePath path).1.chars = .ok (d : Int))
    (he : (k.fs.children d).lookup (fileName path) = some e) (hfd : fd < descriptorCount)
    (hfree : k.fs.globalFdTable.marked fd = false) :
    ∃ (r : Nat) (k' : Kernel δ), openFile k path = .ok ((r : Int), k') := by
  have hne : (e : Int) ≠ -1 := by omega
  have hsearch : searchDir k.fs d (fileName path) = .ok (e : Int) :=
    hs.searchDir_of_lookup hd (zero_notMem_fileName path) he
  have hshort : (fileName path).length < nameBytes := hs.length_lt_of_lookup hd he
  exact openFile_of_found hinv hpath hseek hsearch hne hshort hfd hfree

/-! ## The heap -/

section

variable {k k' : Kernel δ} {live : LiveBlocks} {fd : Int}

theorem read_heap {buf : Bytes} {count : Nat} {v : Nat × Bytes}
    (h : Fs.read k fd buf count = .ok (v, k')) : k'.heap = k.heap := (read_frame h).1

theorem write_heap {buf : Bytes} {count v : Nat} (h : Fs.write k fd buf count = .ok (v, k')) :
    k'.heap = k.heap := (write_frame h).1

theorem close_heap {v : Int} (h : close k fd = .ok (v, k')) : k'.heap = k.heap := by
  simp only [close, bind_eq_ok] at h
  obtain ⟨t, -, h⟩ := h
  cases h
  rfl

theorem seek_heap {offset v : Int} {param : Nat} (h : seek k fd offset param = .ok (v, k')) :
    k'.heap = k.heap := by
  simp only [seek] at h
  split at h
  · simp only [bind_eq_ok] at h
    obtain ⟨index, -, e, -, h⟩ := h
    cases h
    rfl
  · cases h
    rfl

/-- A call that leaves the heap alone keeps its blocks. -/
theorem keeps_of_heap (hinv : HeapInv k.heap.allocator live) (h : k'.heap = k.heap) :
    Keeps k.heap k'.heap live := by
  rw [h]
  exact Keeps.refl hinv

/-- **No call of the file system changes a block that was live before it.** -/
theorem exec_keeps {c : FsCall} {v : Int} (hinv : HeapInv k.heap.allocator live)
    (h : FsCall.exec k c = .ok (v, k')) : Keeps k.heap k'.heap live := by
  cases c with
  | createFiletype => exact (createFiletype_heap hinv h).2
  | openFile => exact (openFile_heap hinv h).2
  | close => exact keeps_of_heap hinv (close_heap h)
  | read =>
      obtain ⟨n, buf', hread⟩ := exec_read h
      exact keeps_of_heap hinv (read_heap hread)
  | write =>
      obtain ⟨n, hwrite⟩ := exec_write h
      exact keeps_of_heap hinv (write_heap hwrite)
  | seek => exact keeps_of_heap hinv (seek_heap h)
  | unlink =>
      rcases unlink_ok h with ⟨-, rfl⟩ | ⟨-, hheap, -⟩
      · exact Keeps.refl hinv
      · exact keeps_of_heap hinv hheap

end

end Yorha.Fs
