import Yorha.Fs.Format
import Yorha.Fs.Returns

/-!
# Directories are finite maps

As long as nobody writes, the directories of a formatted disk behave as maps from names
to inodes: making a file adds one name, removing one takes one name away, and what every
other name means in every other directory stays (`BehavesAsMaps`).

The second half of the statement about making a file, that making it again fails, also
needs the heap: the copies of the path were given back, so there is room for them again.
-/

namespace Yorha.Fs

open Yorha.Lib Yorha.Str Yorha.Util Yorha.Heap

variable {δ : Type} {fs fs' : FileSystem} {path : CString} {fileType : UInt8} {past : Bytes}
  {d e i b : Nat}

/-- Outside of one directory and name, `search_dir` returns the same. -/
def SameNamesBut (fs fs' : FileSystem) (d : Nat) (name : Name) : Prop :=
  ∀ (d' : Nat) (name' : CString), fs.Live d' → fs.IsDir d' →
    (d' ≠ d ∨ name'.chars ≠ name) →
    searchDir fs' d' name'.chars = searchDir fs d' name'.chars

/-- `fs'` is `fs` with the name of a path made to mean the inode `i`, which was not live,
in the directory `d`. -/
structure NameAdded (fs fs' : FileSystem) (path : CString) (d i : Nat) : Prop where
  seek : seekDirectory fs (parsePath path).1.chars = .ok (d : Int)
  seek' : seekDirectory fs' (parsePath path).1.chars = .ok (d : Int)
  old : ¬ fs.Live i
  new : fs'.Live i
  search : searchDir fs d (fileName path) = .ok (-1)
  search' : searchDir fs' d (fileName path) = .ok (i : Int)
  others : SameNamesBut fs fs' d (fileName path)

/-- `fs'` is `fs` with the name of a path, which meant the inode `e`, gone from the
directory `d`. -/
structure NameRemoved (fs fs' : FileSystem) (path : CString) (d e : Nat) : Prop where
  seek : seekDirectory fs (parsePath path).1.chars = .ok (d : Int)
  search : searchDir fs d (fileName path) = .ok (e : Int)
  search' : searchDir fs' d (fileName path) = .ok (-1)
  dead : ¬ fs'.Live e
  others : SameNamesBut fs fs' d (fileName path)

/-- The directories of a kernel behave as maps from names to inodes. -/
structure BehavesAsMaps (k : Kernel δ) : Prop where
  /-- Making a file returns, if there is room for it. -/
  creates : ∀ {path d fileType past}, CanCreate k path d →
    ∃ k', createFiletype k path fileType false past = .ok (0, k')
  /-- It adds the name, and making the file again returns -1; a refused call changes
  nothing. -/
  create : ∀ {path fileType past v k'},
    createFiletype k path fileType false past = .ok (v, k') →
      (v = -1 ∧ k'.fs = k.fs) ∨ (v = 0 ∧ ∃ d i, NameAdded k.fs k'.fs path d i ∧
        ∀ fileType past, ∃ k'', createFiletype k' path fileType false past = .ok (-1, k'') ∧
          k''.fs = k'.fs)
  /-- Removing a file that is there returns. -/
  unlinks : ∀ {path past} {d e : Nat},
    seekDirectory k.fs (parsePath path).1.chars = .ok (d : Int) →
    searchDir k.fs d (fileName path) = .ok (e : Int) →
    ∃ k', unlink k path past = .ok (0, k')
  /-- Removing a normal file takes the name away; a refused call changes nothing. -/
  unlink : ∀ {path past v k'},
    (∀ e ∈ k.fs.target path, (k.fs.inode e).fileType = fileTypeNormal) →
    Fs.unlink k path past = .ok (v, k') →
      (v = -1 ∧ k' = k) ∨ (v = 0 ∧ ∃ d e, NameRemoved k.fs k'.fs path d e)

/-! ## One name more -/

theorem Created.sameNamesBut (h : Created fs fs' path fileType d i b) (hq : Quiet fs)
    (hd : fs.Live d) : SameNamesBut fs fs' d (fileName path) := by
  intro d' name' hd' hdir' hne
  have hq' := h.quiet hq
  have hlive : fs'.Live d' := (h.live_iff d').mpr (.inr hd')
  rw [hq.sound.searchDir_eq hd' hdir' name'.nonzero,
    hq'.sound.searchDir_eq hlive ((h.isDir_iff hd hd').mpr hdir') name'.nonzero]
  exact congrArg (Except.ok ∘ found) ((h.linked hq.sound hd).lookup_of_ne hd' hne)

/-- **Making a file adds one name.** -/
theorem Created.nameAdded (h : Created fs fs' path fileType d i b) (hq : Quiet fs) :
    NameAdded fs fs' path d i := by
  obtain ⟨habs, hlead⟩ := hq.sound.leads (hq.safePath path) h.seek
  have hd := hlead.live
  have hq' := h.quiet hq
  have hd' : fs'.Live d := (h.live_iff d).mpr (.inr hd)
  have hdir' : fs'.IsDir d := (h.isDir_iff hd hd).mpr h.parent_dir
  have hlink := h.linked hq.sound hd
  refine ⟨h.seek, ?_, h.not_live, (h.live_iff i).mpr (.inl rfl), h.search, ?_,
    h.sameNamesBut hq hd⟩
  · refine hq'.sound.seekDirectory_eq_ok habs ⟨hd', hdir', ?_, hlead.short⟩
    exact hlink.resolve hq.sound.forest hq.sound.root_live hlead.resolve
  · rw [hq'.sound.searchDir_eq hd' hdir' (zero_notMem_fileName path)]
    exact congrArg (Except.ok ∘ found) hlink.lookup_self

/-! ## One name less -/

theorem Removed.sameNamesBut (h : Removed fs fs' path past d e) (hq : Quiet fs)
    (hd : fs.Live d) (hsafe : SafeTarget fs e) (hnot : ¬ fs.IsDir e) :
    SameNamesBut fs fs' d (fileName path) := by
  intro d' name' hd' hdir' hne
  have hq' := h.quiet hq hsafe
  have hlive : fs'.Live d' := by
    refine (h.live_iff d').mpr ⟨?_, hd'⟩
    rintro rfl
    exact hnot hdir'
  obtain ⟨entry, hcut⟩ := h.unlinked hq.sound hd
  rw [hq.sound.searchDir_eq hd' hdir' name'.nonzero,
    hq'.sound.searchDir_eq hlive ((h.isDir_iff d').mpr hdir') name'.nonzero]
  exact congrArg (Except.ok ∘ found) (hcut.lookup_of_ne hq.sound.forest hlive hne)

/-- **Removing a file that is not a directory takes one name away.** -/
theorem Removed.nameRemoved (h : Removed fs fs' path past d e) (hq : Quiet fs)
    (hsafe : SafeTarget fs e) (hnot : ¬ fs.IsDir e) : NameRemoved fs fs' path d e := by
  obtain ⟨-, hlead⟩ := hq.sound.leads (hq.safePath path) h.seek
  have hd := hlead.live
  have hq' := h.quiet hq hsafe
  have hde : d ≠ e := by
    rintro rfl
    exact hnot h.parent_dir
  have hd' : fs'.Live d := (h.live_iff d).mpr ⟨hde, hd⟩
  obtain ⟨entry, hcut⟩ := h.unlinked hq.sound hd
  refine ⟨h.seek, ?_, ?_, fun he ↦ ((h.live_iff e).mp he).1 rfl, h.sameNamesBut hq hd hsafe hnot⟩
  · rw [hq.sound.searchDir_eq hd h.parent_dir (zero_notMem_fileName path),
      h.lookup_eq_some hq.sound hd]
    rfl
  · rw [hq'.sound.searchDir_eq hd' ((h.isDir_iff d).mpr h.parent_dir)
      (zero_notMem_fileName path)]
    exact congrArg (Except.ok ∘ found) (hcut.lookup_self hq.sound.forest hd')

/-! ## Runs -/

/-- Making normal files and directories without a descriptor, and removing normal
files. -/
def NamespaceCall (k : Kernel δ) : FsCall → Prop
  | .createFiletype _ fileType allocateFd _ =>
      (fileType = fileTypeNormal ∨ fileType = fileTypeDir) ∧ allocateFd = false
  | .unlink path _ => ∀ e ∈ k.fs.target path, (k.fs.inode e).fileType = fileTypeNormal
  | _ => False

instance (k : Kernel δ) : ∀ c, Decidable (NamespaceCall k c)
  | .createFiletype _ _ _ _ => inferInstanceAs (Decidable (_ ∧ _))
  | .openFile _ => inferInstanceAs (Decidable False)
  | .close _ => inferInstanceAs (Decidable False)
  | .read _ _ _ => inferInstanceAs (Decidable False)
  | .write _ _ _ => inferInstanceAs (Decidable False)
  | .seek _ _ _ => inferInstanceAs (Decidable False)
  | .unlink path _ =>
      inferInstanceAs (Decidable (∀ e ∈ k.fs.target path, (k.fs.inode e).fileType = _))

/-- The file system is quiet, and the heap in order. -/
structure NamespaceInv (k : Kernel δ) : Prop where
  quiet : Quiet k.fs
  heap : ∃ live, HeapInv k.heap.allocator live

/-- A normal file can be removed safely. -/
theorem safeTarget_of_normal (h : (fs.inode e).fileType = fileTypeNormal) :
    SafeTarget fs e ∧ ¬ fs.IsDir e := by
  refine ⟨safeTarget_of_not_isSpecial ?_, ?_⟩
  · rw [FileSystem.IsSpecial, h]
    decide
  · rw [FileSystem.IsDir, h]
    decide

theorem NamespaceCall.keepsQuiet {k : Kernel δ} {c : FsCall} (h : NamespaceCall k c) :
    KeepsQuiet k.fs c := by
  cases c with
  | createFiletype => trivial
  | unlink => exact fun e he ↦ (safeTarget_of_normal (h e he)).1
  | _ => exact h.elim

/-- **Step.**  Making files, opening them and removing them keeps the invariant. -/
theorem NamespaceInv.step {k k' : Kernel δ} {c : FsCall} {v : Int} (h : NamespaceInv k)
    (hc : NamespaceCall k c ∨ FormatCall c) (hx : FsCall.exec k c = .ok (v, k')) :
    NamespaceInv k' := by
  obtain ⟨live, hheap⟩ := h.heap
  constructor
  · apply (exec_ok hx).quiet h.quiet
    rcases hc with hc | hc
    · exact hc.keepsQuiet
    · exact hc.keepsQuiet _
  · cases c with
    | createFiletype => exact ⟨live, (createFiletype_heap hheap hx).2.inv⟩
    | openFile => exact ⟨live, (openFile_heap hheap hx).2.inv⟩
    | unlink =>
        rcases unlink_ok hx with ⟨-, rfl⟩ | ⟨-, heq, -⟩
        · exact ⟨live, hheap⟩
        · rw [heq]
          exact ⟨live, hheap⟩
    | _ =>
        rcases hc with hc | hc
        · exact hc.elim
        · cases hc

theorem Formatted.namespaceInv {k : Kernel δ} (h : Formatted k) : NamespaceInv k := by
  refine h.invariant (fun hI hc hx ↦ hI.step (.inr hc) hx) (fun _ _ hI ↦ ⟨hI.quiet, hI.heap⟩) ?_
  rintro k hb ⟨bottom, hheap⟩
  refine ⟨hb.quiet, fun _ ↦ none, ?_⟩
  rw [hheap]
  exact HeapInv.initial bottom

/-- The invariant makes the directories behave as maps. -/
theorem NamespaceInv.behavesAsMaps {k : Kernel δ} (h : NamespaceInv k) : BehavesAsMaps k where
  creates := by
    intro path d fileType past hcan
    obtain ⟨live, hheap⟩ := h.heap
    have hd := (h.quiet.sound.leads (h.quiet.safePath path) hcan.seek).2.live
    exact createFiletype_returns hheap hd (h.quiet.sound.lt hd) hcan fileType past
  create := by
    intro path fileType past v k' hx
    obtain ⟨live, hheap⟩ := h.heap
    have hheap' := createFiletype_heap hheap hx
    rcases createFiletype_ok hx with hrefused | ⟨d, i, b, hc, hout⟩
    · exact .inl hrefused
    · right
      have hadd := hc.nameAdded h.quiet
      refine ⟨by cases hout; rfl, d, i, hadd, fun fileType past ↦ ?_⟩
      obtain ⟨hroot, r, hpath⟩ : path.chars.head? = some slash ∧ ∃ r, Path k.heap path = .ok r := by
        cases createFiletype_steps hx with
        | relative => cases hout
        | refused => cases hout
        | made hroot hpath => exact ⟨hroot, _, hpath⟩
      obtain ⟨heap', hpath'⟩ := Path_alike hheap'.1 hpath
      exact createFiletype_of_taken hheap'.2.inv hroot hpath' hc.parent_lt hadd.seek' hadd.search'
        (by omega)
  unlinks := by
    intro path past d e hseek hsearch
    have hs := h.quiet.sound
    have hlead := (hs.leads (h.quiet.safePath path) hseek).2
    apply unlink_returns hs hlead.live hseek (e := e) ?_ past
    rw [hs.searchDir_eq hlead.live hlead.dir (zero_notMem_fileName path)] at hsearch
    have hfound := Except.ok.inj hsearch
    cases hl : (k.fs.children d).lookup (fileName path) with
    | none =>
        rw [hl, found] at hfound
        omega
    | some c =>
        rw [hl, found] at hfound
        exact congrArg some (Int.ofNat.inj hfound)
  unlink := by
    intro path past v k' hnormal hx
    rcases unlink_ok hx with hrefused | ⟨hv, -, d, e, hr⟩
    · exact .inl hrefused
    · have htarget := hr.target_eq h.quiet.sound (h.quiet.safePath path)
      obtain ⟨hsafe, hnot⟩ := safeTarget_of_normal (hnormal e htarget)
      exact .inr ⟨hv, d, e, hr.nameRemoved h.quiet hsafe hnot⟩

/-- **Namespace refinement.**  In every state that making normal files and directories and
removing normal files leads to from a formatted disk, the directories behave as maps
from names to inodes. -/
theorem behavesAsMaps_of_reaches {k₀ k : Kernel δ} (h₀ : Formatted k₀)
    (h : Reaches FsCall.exec NamespaceCall k₀ k) : BehavesAsMaps k :=
  (Reaches.invariant (I := NamespaceInv) h h₀.namespaceInv
    fun hI hc hx ↦ hI.step (.inl hc) hx).behavesAsMaps

/-- The run that makes a directory with a file in it, and removes the file. -/
theorem behavesAsMaps_nested : ∃ k, runCalls FsCall.exec NamespaceCall
    [.mkdir ⟨ofText "/d", by decide⟩ fun _ ↦ 0,
      .createFiletype ⟨ofText "/d/x", by decide⟩ fileTypeNormal false fun _ ↦ 0,
      .unlink ⟨ofText "/d/x", by decide⟩ fun _ ↦ 0] terminalKernel = some k ∧ BehavesAsMaps k := by
  obtain ⟨k, hk⟩ := Option.isSome_iff_exists.mp
    (show (runCalls FsCall.exec NamespaceCall
      [.mkdir ⟨ofText "/d", by decide⟩ fun _ ↦ 0,
        .createFiletype ⟨ofText "/d/x", by decide⟩ fileTypeNormal false fun _ ↦ 0,
        .unlink ⟨ofText "/d/x", by decide⟩ fun _ ↦ 0] terminalKernel).isSome = true by
      decide +kernel)
  exact ⟨k, hk, behavesAsMaps_of_reaches formatted_terminalKernel (reaches_of_runCalls hk)⟩

end Yorha.Fs
