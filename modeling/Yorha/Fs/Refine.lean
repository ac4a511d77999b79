import Yorha.Fs.Integrity
import Yorha.Fs.Returns
import Yorha.Fs.Write
import Yorha.Lib.Store

/-!
# The calls are those of a store

Seen from outside, a kernel's files are a `Store`: the live inodes are its nodes, named by the
entries of the directories, with the bytes of the files up to their sizes; the marked
descriptors are its handles.

Every call that returns does what the store does under the same request, and answers what the
store answers, as long as it keeps to `KeepsStore`.  What this excludes are the calls that
other modules show to go wrong: paths through normal files, writing anywhere but at the end,
descriptors that are not open, removing what is open.  Formatting itself is a run of the store,
from one that has an empty root and nothing else.
-/

namespace Yorha.Fs

open Yorha.Lib Yorha.Str Yorha.Util

variable {δ : Type} {fs fs' : FileSystem} {path : CString} {fileType : UInt8} {past : Bytes}
  {d e i b : Nat}

/-! ## The store of a file system -/

namespace FileSystem

variable (fs : FileSystem)

/-- The bytes of a file. -/
def content (i : Nat) : List UInt8 := (List.range (fs.inode i).size).map (fs.block i)

/-- What an inode is to its users. -/
def storeNode (i : Nat) : Option (Node Nat Name UInt8) :=
  if fs.Live i then
    if fs.IsDir i then some (.dir fun name ↦ (fs.children i).lookup name)
    else if fs.IsSpecial i then some .device
    else some (.file (fs.content i))
  else none

/-- What a descriptor is to its users. -/
def storeHandle (fd : Nat) : Option (Handle Nat) :=
  if fs.globalFdTable.marked fd then
    let e := fs.globalFdTable.entry fd
    some ⟨e.inodeNum, e.readPos, e.writePos⟩
  else none

/-- What a file system is to its users. -/
def store : Store Nat Name UInt8 := ⟨fs.storeNode, fs.storeHandle⟩

@[simp] theorem length_content (i : Nat) : (fs.content i).length = (fs.inode i).size := by
  rw [content, List.length_map, List.length_range]

end FileSystem

/-- An inode that is not live is no node. -/
theorem storeNode_of_not_live (h : ¬ fs.Live i) : fs.storeNode i = none := if_neg h

theorem storeNode_of_isDir (hlive : fs.Live i) (hdir : fs.IsDir i) :
    fs.storeNode i = some (.dir fun name ↦ (fs.children i).lookup name) := by
  rw [FileSystem.storeNode, if_pos hlive, if_pos hdir]

theorem storeNode_of_isSpecial (hlive : fs.Live i) (hsp : fs.IsSpecial i) :
    fs.storeNode i = some .device := by
  rw [FileSystem.storeNode, if_pos hlive, if_neg fun hdir ↦ hdir.not_isSpecial hsp, if_pos hsp]

theorem storeNode_of_file (hlive : fs.Live i) (hdir : ¬ fs.IsDir i) (hsp : ¬ fs.IsSpecial i) :
    fs.storeNode i = some (.file (fs.content i)) := by
  rw [FileSystem.storeNode, if_pos hlive, if_neg hdir, if_neg hsp]

/-- Inodes that agree are the same node. -/
theorem storeNode_congr (hlive : fs'.Live i ↔ fs.Live i) (hdir : fs'.IsDir i ↔ fs.IsDir i)
    (hsp : fs'.IsSpecial i ↔ fs.IsSpecial i)
    (hchildren : fs.Live i → fs.IsDir i → fs'.children i = fs.children i)
    (hcontent : fs.Live i → ¬ fs.IsDir i → ¬ fs.IsSpecial i → fs'.content i = fs.content i) :
    fs'.storeNode i = fs.storeNode i := by
  by_cases h : fs.Live i
  · by_cases hd : fs.IsDir i
    · rw [storeNode_of_isDir h hd, storeNode_of_isDir (hlive.mpr h) (hdir.mpr hd),
        hchildren h hd]
    · by_cases hs : fs.IsSpecial i
      · rw [storeNode_of_isSpecial h hs, storeNode_of_isSpecial (hlive.mpr h) (hsp.mpr hs)]
      · rw [storeNode_of_file h hd hs,
          storeNode_of_file (hlive.mpr h) (mt hdir.mp hd) (mt hsp.mp hs), hcontent h hd hs]
  · rw [storeNode_of_not_live h, storeNode_of_not_live (mt hlive.mp h)]

/-- The bytes of a file depend on its size and its block. -/
theorem content_congr (hsize : (fs'.inode i).size = (fs.inode i).size)
    (hblock : fs'.block i = fs.block i) : fs'.content i = fs.content i := by
  rw [FileSystem.content, FileSystem.content, hsize, hblock]

theorem storeHandle_of_marked {fd : Nat} (h : fs.globalFdTable.marked fd = true) :
    fs.storeHandle fd = some ⟨(fs.globalFdTable.entry fd).inodeNum,
      (fs.globalFdTable.entry fd).readPos, (fs.globalFdTable.entry fd).writePos⟩ := if_pos h

theorem storeHandle_eq_none {fd : Nat} :
    fs.storeHandle fd = none ↔ fs.globalFdTable.marked fd = false := by
  rw [FileSystem.storeHandle]
  split
  · rename_i h
    simp [h]
  · rename_i h
    exact ⟨fun _ ↦ Bool.eq_false_iff.mpr h, fun _ ↦ rfl⟩

/-- Descriptors that agree are the same handle. -/
theorem storeHandle_congr {fd : Nat}
    (hmarked : fs'.globalFdTable.marked fd = fs.globalFdTable.marked fd)
    (hentry : fs'.globalFdTable.entry fd = fs.globalFdTable.entry fd) :
    fs'.storeHandle fd = fs.storeHandle fd := by
  rw [FileSystem.storeHandle, FileSystem.storeHandle, hmarked, hentry]

/-! ## Paths -/

theorem store_isDir_iff (hd : fs.Live d) : fs.store.isDir d = true ↔ fs.IsDir d := by
  have hnode : fs.store.node d = fs.storeNode d := rfl
  rw [Store.isDir, hnode]
  by_cases hdir : fs.IsDir d
  · rw [storeNode_of_isDir hd hdir]
    exact iff_of_true rfl hdir
  · by_cases hsp : fs.IsSpecial d
    · rw [storeNode_of_isSpecial hd hsp]
      exact iff_of_false Bool.false_ne_true hdir
    · rw [storeNode_of_file hd hdir hsp]
      exact iff_of_false Bool.false_ne_true hdir

/-- The names in a directory are those of its entries. -/
theorem store_child (hd : fs.Live d) (name : Name) :
    fs.store.child d name = (fs.children d).lookup name := by
  by_cases hdir : fs.IsDir d
  · have hnode : fs.store.node d = _ := storeNode_of_isDir hd hdir
    exact Store.child_of_dir hnode name
  · rw [FileSystem.children_of_not_isDir hdir]
    exact Store.child_of_not_isDir (Bool.eq_false_iff.mpr (mt (store_isDir_iff hd).mp hdir)) name

/-- Names lead where they lead in the forest. -/
theorem Sound.store_walk (hs : Sound fs) {names : List Name} (hi : fs.Live i) :
    fs.store.walk names i = fs.forest.resolve names i := by
  induction names generalizing i with
  | nil => rfl
  | cons name names ih =>
      rw [Store.walk, Forest.resolve, store_child hi, FileSystem.forest_children]
      cases hl : (fs.children i).lookup name with
      | none => rfl
      | some next => exact ih (hs.live_of_lookup hi hl)

/-- The names of a path that starts at the root. -/
def storePath (path : CString) : Option (List Name × Name) :=
  if Absolute path then some (dirNames path, fileName path) else none

/-- **What a path stands for** is what `seek_directory` finds. -/
theorem Sound.place_of_seek (hs : Sound fs) (hsafe : fs.SafePath path)
    (hseek : seekDirectory fs (parsePath path).1.chars = .ok (d : Int)) :
    fs.Live d ∧ fs.IsDir d ∧ fs.store.place 0 (storePath path) = some (d, fileName path) := by
  obtain ⟨habs, hlead⟩ := hs.leads hsafe hseek
  refine ⟨hlead.live, hlead.dir, ?_⟩
  rw [storePath, if_pos habs, Store.place, hs.store_walk hs.root_live, hlead.resolve]
  exact if_pos ((store_isDir_iff hlead.live).mpr hlead.dir)

/-- Names that lead somewhere are those of entries. -/
theorem Sound.short_of_resolve (hs : Sound fs) {names : List Name} (hi : fs.Live i)
    (hres : fs.forest.resolve names i = some d) : ∀ name ∈ names, name.length < nameBytes := by
  induction names generalizing i with
  | nil => exact List.forall_mem_nil _
  | cons name names ih =>
      rw [Forest.resolve, Option.bind_eq_some_iff, FileSystem.forest_children] at hres
      obtain ⟨next, hl, hres⟩ := hres
      rw [List.forall_mem_cons]
      exact ⟨hs.length_lt_of_lookup hi hl, ih (hs.live_of_lookup hi hl) hres⟩

/-- Conversely, `seek_directory` finds what a path stands for. -/
theorem Sound.seek_of_place (hs : Sound fs) {name : Name}
    (hplace : fs.store.place 0 (storePath path) = some (d, name)) :
    seekDirectory fs (parsePath path).1.chars = .ok (d : Int) ∧ name = fileName path := by
  rw [storePath] at hplace
  split at hplace
  · rename_i habs
    rw [Store.place, hs.store_walk hs.root_live, Option.bind_eq_some_iff] at hplace
    obtain ⟨d', hres, hplace⟩ := hplace
    have hlive : fs.Live d' := hs.forest.resolve_live hs.root_live hres
    split at hplace
    · rename_i hdir
      cases hplace
      exact ⟨hs.seekDirectory_eq_ok habs ⟨hlive, (store_isDir_iff hlive).mp hdir, hres,
        hs.short_of_resolve hs.root_live hres⟩, rfl⟩
    · cases hplace
  · cases hplace

/-! ## Requests and answers -/

/-- What a file of a type is. -/
def kindOf (fileType : UInt8) : Kind :=
  if fileType = fileTypeDir then .dir
  else if fileType = fileTypeSpecial then .device
  else .file

/-- What `seek` does to the cursors. -/
def moveOf (offset : Int) : Nat → Move
  | 0 => .set offset
  | 1 => .ahead offset
  | 2 => .beforeEnd offset
  | _ => .stay

/-- What a call asks for. -/
def FsCall.request : FsCall → Request Name UInt8
  | .createFiletype path fileType allocateFd _ =>
      .make (storePath path) (kindOf fileType) allocateFd
  | .openFile path => .openFile (storePath path)
  | .close fd => .close fd.toNat?
  | .read fd _ count => .read fd.toNat? count
  | .write fd buf count => .write fd.toNat? ((List.range count).map buf)
  | .seek fd offset param => .seek fd.toNat? (moveOf offset param)
  | .unlink path _ => .remove (storePath path)

/-- What the value that a call returns says, and the buffer it leaves. -/
def FsCall.reply (v : Int) (buf : Bytes) : FsCall → Reply UInt8
  | .createFiletype _ _ allocateFd _ =>
      if v = -1 then .refused else if allocateFd then .handle v.toNat else .done
  | .openFile _ => if v = -1 then .refused else .handle v.toNat
  | .close _ => .done
  | .read _ _ _ => .data ((List.range v.toNat).map buf)
  | .write _ _ _ => .accepted v.toNat
  | .seek _ _ _ => if v = -1 then .refused else .position v.toNat
  | .unlink _ _ => if v = -1 then .refused else .done

/-- Make a call, and keep the buffer that `read` filled. -/
def FsCall.answer (k : Kernel δ) : FsCall → Except Stop ((Int × Bytes) × Kernel δ)
  | .read fd buf count => do
      let ((bytesRead, buf), k) ← Fs.read k fd buf count
      .ok ((bytesRead, buf), k)
  | c => do
      let (v, k) ← c.exec k
      .ok ((v, fun _ ↦ 0), k)

/-- A cursor stays a number that `seek` can return. -/
def CursorStays (move : Move) (size pos : Nat) : Prop :=
  0 ≤ move.target size pos ∧ move.target size pos < 2 ^ 31

instance (move : Move) (size pos : Nat) : Decidable (CursorStays move size pos) :=
  inferInstanceAs (Decidable (_ ∧ _))

/-- Neither cursor of a file that is open goes too far. -/
def SeeksInside (fs : FileSystem) (fd : Nat) (move : Move) : Prop :=
  let e := fs.globalFdTable.entry fd
  let size := (fs.inode e.inodeNum).size
  fs.globalFdTable.marked fd = true → ¬ fs.IsSpecial e.inodeNum →
    CursorStays move size e.readPos ∧ CursorStays move size e.writePos

instance (fs : FileSystem) (fd : Nat) (move : Move) : Decidable (SeeksInside fs fd move) :=
  inferInstanceAs (Decidable (_ → _ → _))

/-- A call that leaves directories alone, reads and writes through open descriptors, writes
files at their ends, and moves no cursor too far. -/
def KeepsStore (k : Kernel δ) (c : FsCall) : Prop :=
  KeepsDirs k c ∧ match c with
    | .read fd _ _ => k.fs.globalFdTable.marked fd.toNat = true
    | .write fd _ count =>
        let e := k.fs.globalFdTable.entry fd.toNat
        k.fs.globalFdTable.marked fd.toNat = true ∧
          (¬ k.fs.IsSpecial e.inodeNum → e.writePos ≤ blockBytes →
            WritesAtEnd k.fs fd.toNat count)
    | .seek fd offset param => SeeksInside k.fs fd.toNat (moveOf offset param)
    | _ => True

instance (k : Kernel δ) : ∀ c, Decidable (KeepsStore k c)
  | .createFiletype _ _ _ _ => inferInstanceAs (Decidable (_ ∧ True))
  | .openFile _ => inferInstanceAs (Decidable (_ ∧ True))
  | .close _ => inferInstanceAs (Decidable (_ ∧ True))
  | .read _ _ _ => inferInstanceAs (Decidable (_ ∧ _ = true))
  | .write _ _ _ => inferInstanceAs (Decidable (_ ∧ _ ∧ (_ → _ → _)))
  | .seek _ _ _ => inferInstanceAs (Decidable (_ ∧ SeeksInside _ _ _))
  | .unlink _ _ => inferInstanceAs (Decidable (_ ∧ True))

/-- One call that returns, with its value and the buffer. -/
def Answers (k : Kernel δ) (answered : FsCall × Int × Bytes) (k' : Kernel δ) : Prop :=
  KeepsStore k answered.1 ∧ answered.1.answer k = .ok (answered.2, k')

/-- What the users see of a call. -/
def seen (answered : FsCall × Int × Bytes) : Request Name UInt8 × Reply UInt8 :=
  (answered.1.request, answered.1.reply answered.2.1 answered.2.2)

/-! ## Files fit into their blocks -/

/-- Every file that is written to fits into its block. -/
def FilesFit (fs : FileSystem) : Prop :=
  ∀ i, fs.Live i → ¬ fs.IsDir i → ¬ fs.IsSpecial i → (fs.inode i).size ≤ blockBytes

theorem Created.filesFit (h : Created fs fs' path fileType d i b) (hd : fs.Live d)
    (hfit : FilesFit fs) : FilesFit fs' := by
  intro j hj hdir hsp
  rcases (h.live_iff j).mp hj with rfl | hj
  · rw [h.inode_self hd]
    exact Nat.zero_le _
  · obtain ⟨n, hn, hsize⟩ := h.inode_live hd hj
    have hjd : j ≠ d := by
      rintro rfl
      exact hdir ((h.isDir_iff hd hj).mpr h.parent_dir)
    rw [hn, hsize hjd]
    exact hfit j hj (mt (h.isDir_iff hd hj).mpr hdir) (mt (h.isSpecial_iff hd hj).mpr hsp)

theorem Removed.filesFit (h : Removed fs fs' path past d e) (hfit : FilesFit fs) :
    FilesFit fs' := by
  intro j hj hdir hsp
  obtain ⟨n, hle, hn⟩ := h.entry.inode j
  rw [hn]
  exact le_trans hle (hfit j ((h.live_iff j).mp hj).2 (mt (h.isDir_iff j).mpr hdir)
    (mt (h.isSpecial_iff j).mpr hsp))

/-- A write at the end stays in the block. -/
theorem Wrote.filesFit {fd count : Nat} {buf : Bytes} (h : Wrote fs fs' fd i buf count)
    (hfit : FilesFit fs) (hend : ¬ fs.IsSpecial (fs.globalFdTable.entry fd).inodeNum →
      (fs.globalFdTable.entry fd).writePos ≤ blockBytes → WritesAtEnd fs fd count) :
    FilesFit fs' := by
  intro j hj hdir hsp
  obtain ⟨n, hn, hsize⟩ := h.inode_eq j
  have hlive : fs.Live j := by
    rw [FileSystem.Live, h.ibmap] at hj
    exact hj
  have hold := hfit j hlive (by rwa [FileSystem.IsDir, hn] at hdir)
    (by rwa [FileSystem.IsSpecial, hn] at hsp)
  by_cases hji : j = i
  · subst hji
    rw [h.size_eq]
    have hle := accepted_le (fs.globalFdTable.entry fd).writePos count
    change (if accepted _ _ = 0 then _ else _) ≤ _
    by_cases hpos : (fs.globalFdTable.entry fd).writePos ≤ blockBytes
    · have hat := hend (by rw [h.inodeNum]; exact h.not_special) hpos
      rw [WritesAtEnd, h.inodeNum] at hat
      rw [(size_eq_max_iff _ count hpos).mpr hat]
      omega
    · rw [if_pos (by omega)]
      exact hold
  · rw [hn, hsize hji]
    exact hold

/-- **Step.** -/
theorem Effect.filesFit {k : Kernel δ} {c : FsCall} (he : Effect k.fs fs' c) (hs : Sound k.fs)
    (hc : KeepsTree k.fs c) (hend : ∀ fd buf count, c = .write fd buf count →
      ¬ k.fs.IsSpecial (k.fs.globalFdTable.entry fd.toNat).inodeNum →
      (k.fs.globalFdTable.entry fd.toNat).writePos ≤ blockBytes →
      WritesAtEnd k.fs fd.toNat count) (hfit : FilesFit k.fs) : FilesFit fs' := by
  cases he with
  | moved ht _ =>
      rw [ht]
      exact hfit
  | created h _ => exact h.filesFit (hs.leads hc h.seek).2.live hfit
  | opened ht _ _ _ _ =>
      rw [ht]
      exact hfit
  | closed ht _ =>
      rw [ht]
      exact hfit
  | wrote h => exact h.filesFit hfit (hend _ _ _ rfl)
  | removed h => exact h.filesFit hfit

/-! ## Making files and removing them -/

/-- The node of a new file. -/
theorem Created.storeNode_self (h : Created fs fs' path fileType d i b) (hd : fs.Live d) :
    fs'.storeNode i = some (Store.made (kindOf fileType)) := by
  have hlive : fs'.Live i := (h.live_iff i).mpr (.inl rfl)
  have htype : (fs'.inode i).fileType = fileType := by
    rw [h.inode_self hd]
    rfl
  rw [kindOf]
  by_cases hdir : fileType = fileTypeDir
  · rw [if_pos hdir, storeNode_of_isDir hlive (htype.trans hdir), h.children_self hd]
    rfl
  · rw [if_neg hdir]
    have hdir' : ¬ fs'.IsDir i := fun hd' ↦ hdir (htype.symm.trans hd')
    by_cases hsp : fileType = fileTypeSpecial
    · rw [if_pos hsp, storeNode_of_isSpecial hlive (htype.trans hsp)]
      rfl
    · rw [if_neg hsp, storeNode_of_file hlive hdir' fun hs' ↦ hsp (htype.symm.trans hs'),
        FileSystem.content, h.inode_self hd]
      rfl

/-- **Making a file makes a node**, and gives it a name. -/
theorem Created.store_node (h : Created fs fs' path fileType d i b) (hs : Sound fs)
    (hd : fs.Live d) : fs'.store.node =
      ((fs.store.setChild d (fileName path) (some i)).setNode i
        (some (Store.made (kindOf fileType)))).node := by
  funext j
  change fs'.storeNode j = Function.update (Function.update fs.storeNode d _) i _ j
  by_cases hji : j = i
  · subst hji
    rw [Function.update_self, h.storeNode_self hd]
  · rw [Function.update_of_ne hji]
    have hlive : fs'.Live j ↔ fs.Live j := by
      rw [h.live_iff, or_iff_right hji]
    by_cases hjd : j = d
    · subst hjd
      rw [Function.update_self, storeNode_of_isDir (hlive.mpr hd)
        ((h.isDir_iff hd hd).mpr h.parent_dir)]
      congr 2
      funext name
      by_cases hname : name = fileName path
      · rw [hname, Function.update_self]
        exact (h.linked hs hd).lookup_self
      · rw [Function.update_of_ne hname, store_child hd]
        exact (h.linked hs hd).lookup_of_ne hd (.inr hname)
    · rw [Function.update_of_ne hjd]
      by_cases hj : fs.Live j
      · refine storeNode_congr hlive (h.isDir_iff hd hj) (h.isSpecial_iff hd hj)
          (fun _ _ ↦ h.children_eq hs hd hj hjd) fun _ _ hsp ↦ ?_
        obtain ⟨n, hn, hsize⟩ := h.inode_live hd hj
        exact content_congr (by rw [hn, hsize hjd]) (h.block_eq hs hd hj hsp hjd)
      · rw [storeNode_of_not_live hj, storeNode_of_not_live (mt hlive.mp hj)]

/-- **Removing a file removes a node** and its name. -/
theorem Removed.store_node (h : Removed fs fs' path past d e) (hs : Sound fs) (hd : fs.Live d) :
    fs'.store.node = ((fs.store.setChild d (fileName path) none).setNode e none).node := by
  obtain ⟨entry, hcut⟩ := h.unlinked hs hd
  funext j
  change fs'.storeNode j = Function.update (Function.update fs.storeNode d _) e _ j
  by_cases hje : j = e
  · subst hje
    rw [Function.update_self, storeNode_of_not_live fun hl ↦ ((h.live_iff j).mp hl).1 rfl]
  · rw [Function.update_of_ne hje]
    have hlive : fs'.Live j ↔ fs.Live j := by
      rw [h.live_iff, and_iff_right hje]
    by_cases hjd : j = d
    · subst hjd
      rw [Function.update_self, storeNode_of_isDir (hlive.mpr hd)
        ((h.isDir_iff j).mpr h.parent_dir)]
      congr 2
      funext name
      by_cases hname : name = fileName path
      · rw [hname, Function.update_self]
        exact hcut.lookup_self hs.forest (hlive.mpr hd)
      · rw [Function.update_of_ne hname, store_child hd]
        exact hcut.lookup_of_ne hs.forest (hlive.mpr hd) (.inr hname)
    · rw [Function.update_of_ne hjd]
      refine storeNode_congr hlive (h.isDir_iff j) (h.isSpecial_iff j)
        (fun hj _ ↦ h.children_eq hs hd hj hjd) fun hj _ hsp ↦ ?_
      exact content_congr (by rw [h.inode_of_ne hs hd hjd]) (h.block_eq hs hd hj hsp hjd)

/-! ## One call -/

/-- Opening a descriptor opens the first handle that is free. -/
theorem Opened.store_handle {fd : Nat} {name : List UInt8}
    (h : Opened fs.globalFdTable fs'.globalFdTable fd i name) : fs.store.FirstFree fd ∧
      fs'.store.handle = (fs.store.setHandle fd (some ⟨i, 0, 0⟩)).handle := by
  refine ⟨⟨storeHandle_eq_none.mpr h.free, fun fd' hlt hnone ↦ ?_⟩, ?_⟩
  · have hmarked := storeHandle_eq_none.mp hnone
    rw [h.first fd' hlt] at hmarked
    cases hmarked
  · funext fd'
    change fs'.storeHandle fd' = Function.update fs.storeHandle fd _ fd'
    by_cases hfd : fd' = fd
    · subst hfd
      have hmarked := h.marked fd'
      have hentry := h.entry fd'
      rw [if_pos rfl] at hmarked hentry
      rw [Function.update_self, storeHandle_of_marked hmarked, hentry]
    · have hmarked := h.marked fd'
      have hentry := h.entry fd'
      rw [if_neg hfd] at hmarked hentry
      rw [Function.update_of_ne hfd, storeHandle_congr hmarked hentry]

/-- The same descriptor table has the same handles. -/
theorem store_handle_of_table (h : fs'.globalFdTable = fs.globalFdTable) :
    fs'.store.handle = fs.store.handle := by
  funext fd
  exact storeHandle_congr (by rw [h]) (by rw [h])

/-- Changing the entry of an open descriptor changes its handle. -/
theorem store_handle_setEntry {fd : Nat} (hmarked : fs.globalFdTable.marked fd = true)
    {e : FileDescriptorEntry} (ht : fs'.globalFdTable = fs.globalFdTable.setEntry fd e) :
    fs'.store.handle =
      (fs.store.setHandle fd (some ⟨e.inodeNum, e.readPos, e.writePos⟩)).handle := by
  funext fd'
  change fs'.storeHandle fd' = Function.update fs.storeHandle fd _ fd'
  have hmarked' : ∀ n, fs'.globalFdTable.marked n = fs.globalFdTable.marked n := by
    intro n
    rw [ht]
    rfl
  have hentry := FileDescriptorTable.entry_setEntry fs.globalFdTable (lt_of_marked hmarked) e fd'
  rw [← ht] at hentry
  by_cases hfd : fd' = fd
  · subst hfd
    rw [if_pos rfl] at hentry
    rw [Function.update_self, storeHandle_of_marked ((hmarked' fd').trans hmarked), hentry]
  · rw [if_neg hfd] at hentry
    rw [Function.update_of_ne hfd, storeHandle_congr (hmarked' fd') hentry]

theorem store_setEntry {fd : Nat} (hmarked : fs.globalFdTable.marked fd = true)
    (e : FileDescriptorEntry) :
    ({ fs with globalFdTable := fs.globalFdTable.setEntry fd e } : FileSystem).store =
      fs.store.setHandle fd (some ⟨e.inodeNum, e.readPos, e.writePos⟩) :=
  Store.ext rfl (store_handle_setEntry hmarked rfl)

section

variable {k k' : Kernel δ} {v : Int} {buf buf' : Bytes} {fd count : Nat}

/-- **Making a file.** -/
theorem createFiletype_serves {allocateFd : Bool} (buf : Bytes) (hs : Sound k.fs)
    (hsafe : k.fs.SafePath path)
    (h : createFiletype k path fileType allocateFd past = .ok (v, k')) :
    k.fs.store.Serves 0 blockBytes (seen (.createFiletype path fileType allocateFd past, v, buf))
      k'.fs.store := by
  rcases createFiletype_ok h with ⟨rfl, hfs⟩ | ⟨d, i, b, hc, hout⟩
  · rw [hfs]
    refine .makeRefused fun d n hplace hnone ↦ ?_
    obtain ⟨hseek, rfl⟩ := hs.seek_of_place hplace
    obtain ⟨hd, hdir, -⟩ := hs.place_of_seek hsafe hseek
    have hsearch : searchDir k.fs d (fileName path) = .ok (-1) := by
      rw [hs.searchDir_eq hd hdir (zero_notMem_fileName path), ← store_child hd, hnone]
      rfl
    exact createFiletype_ne hseek hsearch h rfl
  · obtain ⟨hd, -, hplace⟩ := hs.place_of_seek hsafe hc.seek
    have hfree : k.fs.store.child d (fileName path) = none := by
      rw [store_child hd]
      exact hc.lookup_eq_none hs hd
    have hfresh : k.fs.store.node i = none := storeNode_of_not_live hc.not_live
    have hnode := hc.store_node hs hd
    cases hout with
    | unopened ht =>
        have hstore : k'.fs.store = (k.fs.store.setChild d (fileName path) (some i)).setNode i
            (some (Store.made (kindOf fileType))) :=
          Store.ext hnode (store_handle_of_table ht)
        rw [hstore]
        exact .made hplace hfree hfresh
    | @opened fd ho =>
        obtain ⟨hfirst, hhandle⟩ := ho.store_handle
        have hstore : k'.fs.store = ((k.fs.store.setChild d (fileName path) (some i)).setNode i
            (some (Store.made (kindOf fileType)))).setHandle fd (some ⟨i, 0, 0⟩) :=
          Store.ext hnode hhandle
        have hreply : seen (.createFiletype path fileType true past, (fd : Int), buf) =
            (.make (storePath path) (kindOf fileType) true, .handle fd) := by
          have hne : ¬ (fd : Int) = -1 := by omega
          simp only [seen, FsCall.request, FsCall.reply, if_neg hne, if_true, Int.toNat_natCast]
        rw [hstore, hreply]
        exact .madeOpen hplace hfree hfresh hfirst

/-- **Opening a file.** -/
theorem openFile_serves (buf : Bytes) (hs : Sound k.fs) (hsafe : k.fs.SafePath path)
    (h : openFile k path = .ok (v, k')) :
    k.fs.store.Serves 0 blockBytes (seen (.openFile path, v, buf)) k'.fs.store := by
  obtain ⟨t, ht, d, hseek, r, hsearch, ⟨rfl, rfl, rfl⟩ | ⟨hr, fd, rfl, ho⟩⟩ := openFile_ok h
  · obtain ⟨hd, hdir, hplace⟩ := hs.place_of_seek hsafe hseek
    rw [hs.searchDir_eq hd hdir (zero_notMem_fileName path)] at hsearch
    rw [ht]
    refine .openRefused hplace ?_
    rw [store_child hd]
    exact found_eq_neg_one.mp (Except.ok.inj hsearch)
  · obtain ⟨hd, hdir, hplace⟩ := hs.place_of_seek hsafe hseek
    have hlook := hs.lookup_of_search hd hdir (zero_notMem_fileName path) hsearch hr
    rw [← store_child hd] at hlook
    have ho' : Opened k.fs.globalFdTable k'.fs.globalFdTable fd (toUint32 r) (fileName path) := by
      rw [ht]
      exact ho
    obtain ⟨hfirst, hhandle⟩ := ho'.store_handle
    have hstore : k'.fs.store = k.fs.store.setHandle fd (some ⟨toUint32 r, 0, 0⟩) := by
      refine Store.ext ?_ hhandle
      rw [ht]
      rfl
    have hreply : seen (.openFile path, (fd : Int), buf) =
        (.openFile (storePath path), .handle fd) := by
      have hne : ¬ (fd : Int) = -1 := by omega
      simp only [seen, FsCall.request, FsCall.reply, if_neg hne, Int.toNat_natCast]
    rw [hstore, hreply]
    exact .opened hplace hlook hfirst

/-- **Closing a descriptor.** -/
theorem close_serves {fd : Int} (hc : ClosesReturned (.close fd))
    (h : close k fd = .ok (v, k')) :
    k.fs.store.Serves 0 blockBytes (seen (.close fd, v, buf)) k'.fs.store := by
  obtain ⟨-, t, ht, rfl⟩ := close_ok h
  rcases closed_of_returned hc ht with ⟨rfl, rfl⟩ | ⟨n, rfl, -, hclosed⟩
  · exact .closedNone
  · have hstore : ({ k.fs with globalFdTable := t } : FileSystem).store =
        k.fs.store.setHandle n none := by
      refine Store.ext rfl ?_
      funext fd'
      change ({ k.fs with globalFdTable := t } : FileSystem).storeHandle fd' =
        Function.update k.fs.storeHandle n none fd'
      have hmarked := hclosed.marked fd'
      by_cases hfd : fd' = n
      · rw [if_pos hfd] at hmarked
        rw [hfd, Function.update_self]
        rw [hfd] at hmarked
        exact storeHandle_eq_none.mpr hmarked
      · rw [if_neg hfd] at hmarked
        rw [Function.update_of_ne hfd]
        exact storeHandle_congr hmarked (hclosed.entry fd')
    rw [hstore]
    exact .closed

/-- **Removing a file.** -/
theorem Removed.serves (h : Removed fs fs' path past d e) (hs : Sound fs)
    (hsafe : fs.SafePath path) :
    fs.store.Serves 0 blockBytes (.remove (storePath path), .done) fs'.store := by
  obtain ⟨hd, -, hplace⟩ := hs.place_of_seek hsafe h.seek
  obtain ⟨-, hlead⟩ := hs.leads hsafe h.seek
  obtain ⟨entry, hcut⟩ := h.unlinked hs hd
  have hreach : fs.forest.Reach 0 (dirNames path) d := Forest.Reach.resolve .nil hlead.resolve
  have hstore : fs'.store = (fs.store.setChild d (fileName path) none).setNode e none :=
    Store.ext (h.store_node hs hd) (store_handle_of_table h.table)
  rw [hstore]
  refine .removed hplace ?_ (hreach.child_ne hs.forest hcut.child) (h.ne_root hs hd)
  rw [store_child hd]
  exact h.lookup_eq_some hs hd

theorem unlink_serves (hs : Sound k.fs) (hsafe : k.fs.SafePath path)
    (h : unlink k path past = .ok (v, k')) :
    k.fs.store.Serves 0 blockBytes (seen (.unlink path past, v, buf)) k'.fs.store := by
  cases unlink_steps h with
  | missing hseek hsearch =>
      obtain ⟨d, rfl, hd'⟩ := seekDirectory_found hseek hsearch
      rw [hd'] at hsearch
      obtain ⟨hd, hdir, hplace⟩ := hs.place_of_seek hsafe hseek
      rw [hs.searchDir_eq hd hdir (zero_notMem_fileName path)] at hsearch
      refine .removeRefused hplace ?_
      rw [store_child hd]
      exact found_eq_neg_one.mp (Except.ok.inj hsearch)
  | removed =>
      rcases unlink_ok h with ⟨hneg, -⟩ | ⟨-, -, d, e, hr⟩
      · cases hneg
      · exact hr.serves hs hsafe

/-! ## Reading, writing and moving the cursors -/

/-- What holds along a run. -/
structure StoreInv (k : Kernel δ) : Prop where
  integrity : IntegrityInv k
  fit : FilesFit k.fs

/-- What an open descriptor is open on. -/
theorem StoreInv.opened (h : StoreInv k) (hmarked : k.fs.globalFdTable.marked fd = true) :
    fd < descriptorCount ∧ k.fs.Live (k.fs.globalFdTable.entry fd).inodeNum ∧
      ¬ k.fs.IsDir (k.fs.globalFdTable.entry fd).inodeNum := by
  have hnames : k.fs.Names fd (k.fs.globalFdTable.entry fd).inodeNum :=
    ⟨lt_of_marked hmarked, hmarked, rfl⟩
  exact ⟨hnames.1, h.integrity.live _ _ hnames, h.integrity.files _ _ hnames⟩

/-- Reading a special file is left to its handler. -/
theorem read_fs_of_special {r : Nat × Bytes}
    (hsp : k.fs.IsSpecial (k.fs.globalFdTable.entry fd).inodeNum)
    (h : read k fd buf count = .ok (r, k')) : k'.fs = k.fs := by
  simp only [read, bind_eq_ok] at h
  obtain ⟨index, hindex, inode, hinode, h⟩ := h
  obtain ⟨hfd, -⟩ := entryIndex_eq_ok.mp hindex
  obtain ⟨-, rfl⟩ := FileSystem.readInode_eq_ok.mp hinode
  rw [← Int.ofNat.inj hfd] at h
  rw [if_pos (show (k.fs.inode _).fileType = fileTypeSpecial from hsp)] at h
  split at h
  · simp only [bind_eq_ok, Prod.exists] at h
    obtain ⟨n, buf', dev, -, h⟩ := h
    cases h
    rfl
  · cases h
    rfl

/-- What a read gets, as a piece of the file. -/
theorem take_drop_content (fs : FileSystem) (i pos count : Nat) :
    ((fs.content i).drop pos).take count =
      (List.range (available (fs.inode i).size pos count)).map fun j ↦ fs.block i (pos + j) := by
  refine List.ext_getElem ?_ fun j hj hj' ↦ ?_
  · rw [List.length_take, List.length_drop, FileSystem.length_content, List.length_map,
      List.length_range, available]
  · simp only [List.getElem_take, List.getElem_drop, FileSystem.content, List.getElem_map,
      List.getElem_range]

/-- **Reading.** -/
theorem read_serves {fd : Int} {v : Nat} (hI : StoreInv k)
    (hmarked : k.fs.globalFdTable.marked fd.toNat = true)
    (h : read k fd buf count = .ok ((v, buf'), k')) :
    k.fs.store.Serves 0 blockBytes (seen (.read fd buf count, v, buf')) k'.fs.store := by
  obtain ⟨index, hindex, -⟩ := bind_eq_ok.mp h
  obtain ⟨rfl, -⟩ := entryIndex_eq_ok.mp hindex
  rw [Int.toNat_natCast] at hmarked
  obtain ⟨hlt, hlive, hdir⟩ := hI.opened hmarked
  have hhandle : k.fs.store.handle index = _ := storeHandle_of_marked hmarked
  have hinode := hI.integrity.sound.lt hlive
  by_cases hsp : k.fs.IsSpecial (k.fs.globalFdTable.entry index).inodeNum
  · rw [read_fs_of_special hsp h]
    exact .readDevice hhandle (storeNode_of_isSpecial hlive hsp)
  · have hfit := hI.fit _ hlive hdir hsp
    obtain ⟨buf'', hread, hbuf⟩ := read_returns hlt rfl hinode hsp hfit buf count
    rw [h] at hread
    cases hread
    have hdata : (List.range (available (k.fs.inode (k.fs.globalFdTable.entry index).inodeNum).size
        (k.fs.globalFdTable.entry index).readPos count)).map buf' =
        ((k.fs.content (k.fs.globalFdTable.entry index).inodeNum).drop
          (k.fs.globalFdTable.entry index).readPos).take count := by
      rw [take_drop_content]
      refine List.map_congr_left fun j hj ↦ ?_
      rw [hbuf j, if_pos (List.mem_range.mp hj)]
    have hserves : k.fs.store.Serves 0 blockBytes (.read (some index) count, .data _)
      (k.fs.store.setHandle index _) := .read hhandle (storeNode_of_file hlive hdir hsp) hdata
    rw [List.length_map, List.length_range] at hserves
    rw [store_setEntry hmarked]
    exact hserves

/-- The bytes that a write accepts. -/
theorem take_data (buf : Bytes) (pos count : Nat) :
    ((List.range count).map buf).take (blockBytes - pos) =
      (List.range (accepted pos count)).map buf := by
  rw [← List.map_take, List.take_range, accepted, Nat.min_comm]

/-- A write that accepts nothing leaves the file alone. -/
theorem Wrote.content_of_zero (h : Wrote fs fs' fd i buf count)
    (hzero : accepted (fs.globalFdTable.entry fd).writePos count = 0) :
    fs'.content i = fs.content i := by
  have hsize : (fs'.inode i).size = (fs.inode i).size := by
    rw [h.size_eq]
    exact if_pos hzero
  refine content_congr hsize ?_
  funext j
  rw [h.block_apply]
  simp only [hzero, Nat.add_zero]
  exact if_neg (by omega)

/-- A write at the end of the file makes it longer by what it accepts. -/
theorem Wrote.content_of_end (h : Wrote fs fs' fd i buf count)
    (hend : (fs.globalFdTable.entry fd).writePos = (fs.inode i).size)
    (hfit : (fs.inode i).size ≤ blockBytes) :
    fs'.content i = fs.content i ++
      (List.range (accepted (fs.globalFdTable.entry fd).writePos count)).map buf := by
  have hle := accepted_le (fs.globalFdTable.entry fd).writePos count
  have hblock : blockBytes = 4096 := rfl
  have hsize : (fs'.inode i).size =
      (fs.inode i).size + accepted (fs.globalFdTable.entry fd).writePos count := by
    rw [h.size_eq]
    change (if accepted _ _ = 0 then _ else _) = _
    split
    · omega
    · exact Nat.mod_eq_of_lt (by omega)
  rw [FileSystem.content, hsize, List.range_add, List.map_append, List.map_map]
  congr 1
  · refine List.map_congr_left fun j hj ↦ ?_
    have hlt := List.mem_range.mp hj
    rw [h.block_apply]
    exact if_neg (by omega)
  · refine List.map_congr_left fun j hj ↦ ?_
    have hlt := List.mem_range.mp hj
    rw [Function.comp_apply, h.block_apply]
    simp only [hend]
    rw [hend] at hlt
    rw [if_pos (by omega), Nat.add_sub_cancel_left]

/-- **What a write puts into a file.** -/
theorem Wrote.content_eq (h : Wrote fs fs' fd i buf count) (hend :
      (fs.globalFdTable.entry fd).writePos ≤ blockBytes → WritesAtEnd fs fd count)
    (hfit : (fs.inode i).size ≤ blockBytes) :
    let pos := (fs.globalFdTable.entry fd).writePos
    let fits := (List.range (accepted pos count)).map buf
    fs'.content i = Store.overwrite (fs.content i) pos fits ∧
      (fits = [] ∨ pos ≤ (fs.content i).length) := by
  intro pos fits
  by_cases hzero : accepted pos count = 0
  · have hfits : fits = [] := by
      change (List.range (accepted pos count)).map buf = []
      rw [hzero]
      rfl
    rw [hfits, Store.overwrite_nil]
    exact ⟨h.content_of_zero hzero, .inl rfl⟩
  · have hle : accepted pos count ≤ blockBytes - pos := accepted_le pos count
    have hat : pos = (fs.inode i).size := by
      have hend' := hend (by omega)
      rw [WritesAtEnd, h.inodeNum] at hend'
      rcases hend' with hat | ⟨hnone, -⟩
      · exact hat
      · refine absurd ?_ hzero
        rw [accepted]
        omega
    have hlen : pos = (fs.content i).length := by rw [FileSystem.length_content, hat]
    refine ⟨?_, .inr (le_of_eq hlen)⟩
    rw [h.content_of_end hat hfit, hlen, Store.overwrite_length]

/-- A write to a file changes one node. -/
theorem Wrote.store_node (h : Wrote fs fs' fd i buf count) (hs : Sound fs) (hlive : fs.Live i)
    (hdir : ¬ fs.IsDir i) :
    fs'.store.node = (fs.store.setNode i (some (.file (fs'.content i)))).node := by
  have htree := h.sameTree hs (safeWrite_of_live hs h.inodeNum hlive hdir)
  funext j
  change fs'.storeNode j = Function.update fs.storeNode i _ j
  by_cases hji : j = i
  · rw [hji, Function.update_self]
    exact storeNode_of_file ((htree.live_iff i).mpr hlive) (mt (htree.isDir_iff i).mp hdir)
      (mt (htree.isSpecial_iff i).mp h.not_special)
  · rw [Function.update_of_ne hji]
    refine storeNode_congr (htree.live_iff j) (htree.isDir_iff j) (htree.isSpecial_iff j)
      (fun hj _ ↦ htree.children_eq hj) fun hj _ hsp ↦ ?_
    obtain ⟨n, hn, hsize⟩ := h.inode_eq j
    refine content_congr (by rw [hn, hsize hji]) ?_
    rw [FileSystem.block, htree.dataBlockStart, h.disk, read_write_block_of_ne, FileSystem.block]
    exact hs.blockAddress_ne hj hlive hsp h.not_special hji

/-- Writing to a special file is left to its handler. -/
theorem write_fs_of_special {n : Nat}
    (hsp : k.fs.IsSpecial (k.fs.globalFdTable.entry fd).inodeNum)
    (h : write k fd buf count = .ok (n, k')) : k'.fs = k.fs := by
  obtain ⟨index, hindex, -, ⟨-, hfs⟩ | ⟨-, -, hw⟩⟩ := write_ok h
  · exact hfs
  · rw [← Int.ofNat.inj hindex] at hw
    exact absurd hsp hw.not_special

/-- **Writing.** -/
theorem write_serves {fd : Int} {v : Nat} (hI : StoreInv k)
    (hc : KeepsStore k (.write fd buf count)) (h : write k fd buf count = .ok (v, k')) :
    k.fs.store.Serves 0 blockBytes (seen (.write fd buf count, v, buf')) k'.fs.store := by
  obtain ⟨-, hmarked, hend⟩ := hc
  obtain ⟨index, hindex, -⟩ := bind_eq_ok.mp h
  obtain ⟨rfl, -⟩ := entryIndex_eq_ok.mp hindex
  rw [Int.toNat_natCast] at hmarked hend
  obtain ⟨hlt, hlive, hdir⟩ := hI.opened hmarked
  have hhandle : k.fs.store.handle index = _ := storeHandle_of_marked hmarked
  have hinode := hI.integrity.sound.lt hlive
  by_cases hsp : k.fs.IsSpecial (k.fs.globalFdTable.entry index).inodeNum
  · rw [write_fs_of_special hsp h]
    exact .writeDevice hhandle (storeNode_of_isSpecial hlive hsp)
  · obtain ⟨k'', hwrite, hw⟩ := write_returns hlt rfl hinode hsp buf count
    rw [h] at hwrite
    cases hwrite
    obtain ⟨hcontent, hfits⟩ := hw.content_eq (hend hsp) (hI.fit _ hlive hdir hsp)
    have hserves : k.fs.store.Serves 0 blockBytes
      (.write (some index) ((List.range count).map buf), .accepted _) _ :=
      .write hhandle (storeNode_of_file hlive hdir hsp) (take_data buf _ count).symm hfits
    rw [List.length_map, List.length_range, ← hcontent] at hserves
    have hpos : (k.fs.writeResult index buf count).writePos =
        (k.fs.globalFdTable.entry index).writePos +
          accepted (k.fs.globalFdTable.entry index).writePos count := writeLoop_writePos _ _ _
    have hhandle' := store_handle_setEntry hmarked hw.table
    rw [hpos] at hhandle'
    have hstore : k'.fs.store = (k.fs.store.setNode (k.fs.globalFdTable.entry index).inodeNum
        (some (.file (k'.fs.content (k.fs.globalFdTable.entry index).inodeNum)))).setHandle index
        (some ⟨_, _, _⟩) := Store.ext (hw.store_node hI.integrity.sound hlive hdir) hhandle'
    rw [hstore]
    exact hserves

/-- Where `seek` puts the cursors, if they stay numbers. -/
theorem moveCursors_target {e e' : FileDescriptorEntry} {offset : Int} {param : Nat}
    (h : moveCursors fs e offset param = .ok e')
    (hread : CursorStays (moveOf offset param) (fs.inode e.inodeNum).size e.readPos)
    (hwrite : CursorStays (moveOf offset param) (fs.inode e.inodeNum).size e.writePos) :
    (e'.readPos : Int) = (moveOf offset param).target (fs.inode e.inodeNum).size e.readPos ∧
      (e'.writePos : Int) = (moveOf offset param).target (fs.inode e.inodeNum).size e.writePos := by
  rw [moveCursors.eq_def] at h
  split at h
  · cases h
    obtain ⟨hpos, hlt⟩ : 0 ≤ offset ∧ offset < 2 ^ 31 := hread
    have hset : ((toUint64 offset : Nat) : Int) = offset := by
      rw [toUint64]
      omega
    exact ⟨hset, hset⟩
  · cases h
    obtain ⟨hpos, hlt⟩ : 0 ≤ (e.readPos : Int) + offset ∧
      (e.readPos : Int) + offset < 2 ^ 31 := hread
    obtain ⟨hpos', hlt'⟩ : 0 ≤ (e.writePos : Int) + offset ∧
      (e.writePos : Int) + offset < 2 ^ 31 := hwrite
    constructor
    · change ((toUint64 (e.readPos + offset) : Nat) : Int) = e.readPos + offset
      rw [toUint64]
      omega
    · change ((toUint64 (e.writePos + offset) : Nat) : Int) = e.writePos + offset
      rw [toUint64]
      omega
  · simp only [bind_eq_ok] at h
    obtain ⟨inode, hinode, h⟩ := h
    obtain ⟨-, rfl⟩ := FileSystem.readInode_eq_ok.mp hinode
    cases h
    obtain ⟨hpos, hlt⟩ : 0 ≤ ((fs.inode e.inodeNum).size : Int) - offset ∧
      ((fs.inode e.inodeNum).size : Int) - offset < 2 ^ 31 := hread
    have hset : ((toUint32 ((fs.inode e.inodeNum).size - offset) : Nat) : Int) =
        (fs.inode e.inodeNum).size - offset := by
      rw [toUint32]
      omega
    exact ⟨hset, hset⟩
  · rename_i h₀ h₁ h₂
    cases h
    have hstay : moveOf offset param = .stay := by
      rw [moveOf.eq_def]
      split
      · exact absurd rfl h₀
      · exact absurd rfl h₁
      · exact absurd rfl h₂
      · rfl
    rw [hstay]
    exact ⟨rfl, rfl⟩

/-- **Moving the cursors.** -/
theorem seek_serves {fd offset : Int} {param : Nat} (hI : StoreInv k)
    (hstays : SeeksInside k.fs fd.toNat (moveOf offset param))
    (h : seek k fd offset param = .ok (v, k')) :
    k.fs.store.Serves 0 blockBytes (seen (.seek fd offset param, v, buf)) k'.fs.store := by
  rw [seek] at h
  split at h
  · rename_i hmarked
    simp only [bind_eq_ok] at h
    obtain ⟨index, hindex, e, hmove, h⟩ := h
    obtain ⟨rfl, hlt⟩ := entryIndex_eq_ok.mp hindex
    have hmod : ((index : Int) % 32).toNat = index := by
      have hlt' : index < 32 := hlt
      omega
    rw [hmod] at hmarked
    rw [Int.toNat_natCast] at hstays
    obtain ⟨-, hlive, hdir⟩ := hI.opened hmarked
    have hhandle : k.fs.store.handle index = _ := storeHandle_of_marked hmarked
    have hnum := moveCursors_ok hmove
    cases h
    rw [store_setEntry hmarked, hnum]
    by_cases hsp : k.fs.IsSpecial (k.fs.globalFdTable.entry index).inodeNum
    · exact .soughtDevice hhandle (storeNode_of_isSpecial hlive hsp)
    · obtain ⟨hread, hwrite⟩ := hstays hmarked hsp
      obtain ⟨htarget, htarget'⟩ := moveCursors_target hmove hread hwrite
      rw [← FileSystem.length_content] at htarget htarget'
      have hserves : k.fs.store.Serves 0 blockBytes
        (.seek (some index) (moveOf offset param), .position e.readPos) _ :=
        .sought hhandle (storeNode_of_file hlive hdir hsp) htarget htarget'
      have hbound := hread.2
      rw [← FileSystem.length_content, ← htarget] at hbound
      have hv : toInt32 (e.readPos % 2 ^ 32) = e.readPos := by
        rw [Nat.mod_eq_of_lt (by omega)]
        exact toInt32_of_lt (by omega)
      have hne : ¬ (e.readPos : Int) = -1 := by omega
      rw [hv]
      simp only [seen, FsCall.reply, if_neg hne, Int.toNat_natCast]
      exact hserves
  · rename_i hfree
    cases h
    refine .seekRefused ?_
    cases fd with
    | ofNat n =>
        refine storeHandle_eq_none.mpr (Bool.eq_false_iff.mpr fun hmarked ↦ hfree ?_)
        have hlt : n < 32 := lt_of_marked hmarked
        have hmod : ((n : Int) % 32).toNat = n := by omega
        rw [Int.ofNat_eq_natCast, hmod]
        exact hmarked
    | negSucc n => rfl

/-- **Every call that returns is the store's answer.** -/
theorem Answers.serves {answered : FsCall × Int × Bytes} (hI : StoreInv k)
    (h : Answers k answered k') :
    k.fs.store.Serves 0 blockBytes (seen answered) k'.fs.store := by
  obtain ⟨c, v, buf⟩ := answered
  obtain ⟨hc, h⟩ := h
  have hs := hI.integrity.sound
  cases c with
  | read fd buf count =>
      simp only [FsCall.answer, bind_eq_ok, Prod.exists] at h
      obtain ⟨n, buf', k'', hread, h⟩ := h
      cases h
      exact read_serves hI hc.2 hread
  | write fd buf count =>
      simp only [FsCall.answer, FsCall.exec, bind_eq_ok, Prod.exists] at h
      obtain ⟨n, k'', ⟨m, k₁, hwrite, hv⟩, h⟩ := h
      cases hv
      cases h
      exact write_serves hI hc hwrite
  | createFiletype path fileType allocateFd past =>
      simp only [FsCall.answer, FsCall.exec, bind_eq_ok, Prod.exists] at h
      obtain ⟨n, k'', hx, h⟩ := h
      cases h
      exact createFiletype_serves _ hs hc.1.2.2.1 hx
  | openFile path =>
      simp only [FsCall.answer, FsCall.exec, bind_eq_ok, Prod.exists] at h
      obtain ⟨n, k'', hx, h⟩ := h
      cases h
      exact openFile_serves _ hs hc.1.2.2.1 hx
  | close fd =>
      simp only [FsCall.answer, FsCall.exec, bind_eq_ok, Prod.exists] at h
      obtain ⟨n, k'', hx, h⟩ := h
      cases h
      exact close_serves hc.1.1 hx
  | seek fd offset param =>
      simp only [FsCall.answer, FsCall.exec, bind_eq_ok, Prod.exists] at h
      obtain ⟨n, k'', hx, h⟩ := h
      cases h
      exact seek_serves hI hc.2 hx
  | unlink path past =>
      simp only [FsCall.answer, FsCall.exec, bind_eq_ok, Prod.exists] at h
      obtain ⟨n, k'', hx, h⟩ := h
      cases h
      exact unlink_serves hs hc.1.2.2.1 hx

end

/-! ## Runs -/

/-- What a call answers is what it returns. -/
theorem exec_of_answer {k k' : Kernel δ} {c : FsCall} {r : Int × Bytes}
    (h : c.answer k = .ok (r, k')) : c.exec k = .ok (r.1, k') := by
  cases c with
  | read fd buf count =>
      simp only [FsCall.answer, bind_eq_ok, Prod.exists] at h
      obtain ⟨n, buf', k'', hread, h⟩ := h
      cases h
      rw [FsCall.exec, hread]
      rfl
  | _ =>
      obtain ⟨⟨v, k''⟩, hx, h⟩ := bind_eq_ok.mp h
      cases h
      exact hx

/-- A call that returns answers. -/
theorem answer_of_exec {k k' : Kernel δ} {c : FsCall} {v : Int} (h : c.exec k = .ok (v, k')) :
    ∃ buf, c.answer k = .ok ((v, buf), k') := by
  cases c with
  | read fd buf count =>
      simp only [FsCall.exec, bind_eq_ok, Prod.exists] at h
      obtain ⟨n, buf', k'', hread, h⟩ := h
      cases h
      refine ⟨buf', ?_⟩
      rw [FsCall.answer, hread]
      rfl
  | _ =>
      refine ⟨fun _ ↦ 0, ?_⟩
      simp only [FsCall.answer, h, ok_bind]

/-- What a run leads to is reached by its calls. -/
theorem reaches_of_run {k k' : Kernel δ} {l : List (FsCall × Int × Bytes)}
    (h : Run Answers k l k') : Reaches FsCall.exec KeepsStore k k' := by
  induction h with
  | nil => exact .refl k
  | snoc _ hstep ih => exact ih.tail hstep.1 (exec_of_answer hstep.2)

/-- A list of calls that return is a run. -/
theorem run_of_runCalls {calls : List FsCall} {k k' : Kernel δ}
    (h : runCalls FsCall.exec KeepsStore calls k = some k') :
    ∃ l, l.map Prod.fst = calls ∧ Run Answers k l k' := by
  induction calls generalizing k with
  | nil =>
      cases h
      exact ⟨[], rfl, .nil⟩
  | cons c calls ih =>
      rw [runCalls] at h
      split at h
      · rename_i hok
        split at h
        · rename_i v k'' hx
          obtain ⟨l, hl, hrun⟩ := ih h
          obtain ⟨buf, hanswer⟩ := answer_of_exec hx
          exact ⟨(c, v, buf) :: l, by rw [List.map_cons, hl], hrun.cons ⟨hok, hanswer⟩⟩
        · cases h
      · cases h

/-- **Step.** -/
theorem StoreInv.step {k k' : Kernel δ} {answered : FsCall × Int × Bytes} (hI : StoreInv k)
    (h : Answers k answered k') : StoreInv k' := by
  obtain ⟨hc, h⟩ := h
  have hx := exec_of_answer h
  have hkeep := hI.integrity.keepsTree hc.1
  refine ⟨hI.integrity.step hc.1 hx,
    (exec_ok hx).filesFit hI.integrity.sound hkeep (fun fd buf count hwrite ↦ ?_) hI.fit⟩
  rw [hwrite] at hc
  exact hc.2.2

/-- The calls are simulated by the store. -/
theorem store_simulation : Simulation (Answers (δ := δ)) (Store.Serves 0 blockBytes) StoreInv
    (fun k ↦ k.fs.store) seen where
  inv := fun hI h ↦ hI.step h
  step := fun hI h ↦ h.serves hI

theorem Blank.filesFit (h : Blank fs) : FilesFit fs := by
  intro i hi hdir
  obtain rfl := (h.live_iff i).mp hi
  refine absurd ?_ hdir
  rw [FileSystem.IsDir, h.root]
  rfl

/-- A blank disk is an empty store. -/
theorem Blank.store (h : Blank fs) : fs.store = Store.empty 0 := by
  refine Store.ext ?_ ?_
  · funext i
    change fs.storeNode i = if i = 0 then _ else none
    by_cases hi : i = 0
    · have hlive : fs.Live i := (h.live_iff i).mpr hi
      have hdir : fs.IsDir i := by
        rw [FileSystem.IsDir, hi, h.root]
        rfl
      have hnone : fs.children i = [] := by
        rw [hi]
        exact h.children_root
      rw [if_pos hi, storeNode_of_isDir hlive hdir, hnone]
      rfl
    · rw [if_neg hi]
      exact storeNode_of_not_live (mt (h.live_iff i).mp hi)
  · funext fd
    exact storeHandle_eq_none.mpr (h.unmarked fd)

/-- A formatted disk keeps the invariant, and is what a run of the store makes. -/
theorem Formatted.store {k : Kernel δ} (h : Formatted k) :
    StoreInv k ∧ ∃ l, Run (Store.Serves 0 blockBytes) (Store.empty 0) l k.fs.store := by
  have hmade : Quiet k.fs ∧ FilesFit k.fs ∧
      ∃ l, Run (Store.Serves 0 blockBytes) (Store.empty 0) l k.fs.store := by
    refine h.invariant (I := fun k ↦ Quiet k.fs ∧ FilesFit k.fs ∧
      ∃ l, Run (Store.Serves 0 blockBytes) (Store.empty 0) l k.fs.store) ?_ (fun _ _ hI ↦ hI) ?_
    · rintro k k' c v ⟨hq, hfit, l, hrun⟩ hc hx
      have hkeep := hc.keepsQuiet k.fs
      have he := exec_ok hx
      refine ⟨he.quiet hq hkeep, ?_, ?_⟩
      · refine he.filesFit hq.sound (hq.keepsTree hkeep) (fun fd buf count hwrite ↦ ?_) hfit
        rw [hwrite] at hc
        cases hc
      · cases hc with
        | createFiletype path fileType past =>
            have hserves := createFiletype_serves (fun _ ↦ 0) hq.sound (hq.safePath path) hx
            exact ⟨_, hrun.snoc hserves⟩
        | openFile path =>
            have hserves := openFile_serves (fun _ ↦ 0) hq.sound (hq.safePath path) hx
            exact ⟨_, hrun.snoc hserves⟩
    · intro k hb _
      refine ⟨hb.quiet, hb.filesFit, [], ?_⟩
      rw [hb.store]
      exact .nil
  obtain ⟨hq, hfit, hrun⟩ := hmade
  exact ⟨⟨⟨hq.sound, h.fdsLive, h.fdsOnFiles⟩, hfit⟩, hrun⟩

/-- **Every run of the calls is a run of the store.**  Formatting makes a store from an empty
one; from there, whatever sequence of calls returns, each call does and answers what the store
does and answers under the same request. -/
theorem store_of_run {k₀ k : Kernel δ} {l : List (FsCall × Int × Bytes)} (h₀ : Formatted k₀)
    (h : Run Answers k₀ l k) :
    (∃ l₀, Run (Store.Serves 0 blockBytes) (Store.empty 0) l₀ k₀.fs.store) ∧
      Run (Store.Serves 0 blockBytes) k₀.fs.store (l.map seen) k.fs.store := by
  obtain ⟨hI, hmade⟩ := h₀.store
  exact ⟨hmade, (store_simulation.run hI h).2⟩

/-- A program that writes to a file and reads it back. -/
theorem store_of_run_copyCalls : ∃ l k, l.map Prod.fst = copyCalls ∧
    Run Answers terminalKernel l k ∧
    (∃ l₀, Run (Store.Serves 0 blockBytes) (Store.empty 0) l₀ terminalKernel.fs.store) ∧
    Run (Store.Serves 0 blockBytes) terminalKernel.fs.store (l.map seen) k.fs.store := by
  obtain ⟨k, hk⟩ := Option.isSome_iff_exists.mp
    (show (runCalls FsCall.exec KeepsStore copyCalls terminalKernel).isSome = true by
      decide +kernel)
  obtain ⟨l, hl, hrun⟩ := run_of_runCalls hk
  exact ⟨l, k, hl, hrun, store_of_run formatted_terminalKernel hrun⟩

end Yorha.Fs
