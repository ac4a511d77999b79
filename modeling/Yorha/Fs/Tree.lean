import Yorha.Fs.Format

/-!
# One path to every file

The forest of a file system says who is below whom, but a live inode need not be below
anybody.  In every state that making and removing files leads to from a formatted disk,
each live inode but the root has exactly one entry in exactly one live directory, and
exactly one path from the root, as long as no directory is removed that still has
entries (`KeepsPaths`).

`unlink` does not look whether what it removes is such a directory.  The inodes below
it stay marked, with nothing that leads to them.
-/

namespace Yorha.Fs

open Yorha.Lib Yorha.Str Yorha.Util

variable {δ : Type} {fs fs' : FileSystem}

/-- Entry number `p.2` of the live directory `p.1` is the inode `i`. -/
def FileSystem.HasEntry (fs : FileSystem) (i : Nat) (p : Nat × Nat) : Prop :=
  fs.Live p.1 ∧ fs.IsDir p.1 ∧ ∃ name, (fs.entries p.1)[p.2]? = some (name, i)

/-- Every live inode but the root is the target of one entry of one live directory, and
one path leads to it. -/
structure NoOrphans (fs : FileSystem) : Prop where
  entry : ∀ i, fs.Live i → i ≠ 0 → ∃! p, fs.HasEntry i p
  path : ∀ i, fs.Live i → ∃! names, fs.forest.Reach 0 names i

/-- A child has an entry. -/
theorem hasEntry_of_child {d i k : Nat} {name : Name} (hd : fs.Live d)
    (hc : (fs.children d)[k]? = some (name, i)) : fs.HasEntry i (d, k) := by
  have hdir : fs.IsDir d := FileSystem.isDir_of_child hc
  rw [FileSystem.children_of_isDir hdir] at hc
  exact ⟨hd, hdir, name, hc⟩

/-- **If a path leads to every live inode, there are no orphans.** -/
theorem Sound.noOrphans (hs : Sound fs) (hall : fs.forest.AllReach 0) : NoOrphans fs where
  entry := by
    intro i hi hroot
    obtain ⟨names, hreach⟩ := hall i hi
    cases hreach with
    | nil => exact absurd rfl hroot
    | @snoc _ d _ k _ hd hc =>
        have hlive : fs.Live d := hd.live hs.forest
        refine ⟨(d, k), hasEntry_of_child hlive hc, ?_⟩
        rintro ⟨d', k'⟩ ⟨hd', hdir', name', hc'⟩
        rw [← FileSystem.children_of_isDir hdir'] at hc'
        obtain ⟨rfl, rfl⟩ := hs.forest.once hd' hlive hc' hc
        rfl
  path := by
    intro i hi
    obtain ⟨names, hreach⟩ := hall i hi
    exact ⟨names, hreach, fun names' hreach' ↦ hreach'.unique hs.forest hreach⟩

/-- A call that keeps the file system quiet and removes no directory with entries. -/
def KeepsPaths (k : Kernel δ) (c : FsCall) : Prop :=
  KeepsQuiet k.fs c ∧ ∀ e ∈ c.removes k.fs, k.fs.children e = []

instance (k : Kernel δ) (c : FsCall) : Decidable (KeepsPaths k c) :=
  inferInstanceAs (Decidable (_ ∧ _))

/-- The same tree has the same paths. -/
theorem SameTree.allReach (h : SameTree fs fs') (hs : Sound fs) (hall : fs.forest.AllReach 0) :
    fs'.forest.AllReach 0 :=
  h.forest.allReach hs.forest hall

/-- **Step.**  A call that removes no directory with entries leaves a path to every live
inode. -/
theorem TreeEffect.allReach {k : Kernel δ} {c : FsCall} (h : TreeEffect k.fs fs' c)
    (hs : Sound k.fs) (hall : k.fs.forest.AllReach 0) (hc : KeepsPaths k c) :
    fs'.forest.AllReach 0 := by
  cases h with
  | same h => exact h.allReach hs hall
  | created h hd => exact (h.linked hs hd).allReach hs.forest hall
  | removed h hd htarget _ =>
      obtain ⟨entry, hcut⟩ := h.unlinked hs hd
      exact hcut.allReach hs.forest (hc.2 _ htarget) hall

/-- A formatted disk is a tree. -/
theorem Formatted.allReach {k : Kernel δ} (h : Formatted k) : k.fs.forest.AllReach 0 := by
  refine (h.invariant (I := fun k ↦ Quiet k.fs ∧ k.fs.forest.AllReach 0) ?_ (fun _ _ hI ↦ hI)
    (fun hb _ ↦ ⟨hb.quiet, hb.allReach⟩)).2
  rintro k k' c v ⟨hq, hall⟩ hc hx
  have hkeep := hc.keepsQuiet k.fs
  refine ⟨(exec_ok hx).quiet hq hkeep, ?_⟩
  exact ((exec_ok hx).treeEffect hq.sound (hq.keepsTree hkeep)).allReach hq.sound hall
    ⟨hkeep, by simp [hc.removes_eq_none]⟩

/-- **No orphans.**  In every state that calls keeping to `KeepsPaths` lead to from a
formatted disk, each live inode but the root has one entry, and one path leads to it. -/
theorem noOrphans_of_reaches {k₀ k : Kernel δ} (h₀ : Formatted k₀)
    (h : Reaches FsCall.exec KeepsPaths k₀ k) : NoOrphans k.fs := by
  have hinv : Quiet k.fs ∧ k.fs.forest.AllReach 0 := by
    refine Reaches.invariant (I := fun k ↦ Quiet k.fs ∧ k.fs.forest.AllReach 0) h
      ⟨h₀.quiet, h₀.allReach⟩ ?_
    rintro k c v k' ⟨hq, hall⟩ hc hx
    have he := exec_ok hx
    exact ⟨he.quiet hq hc.1,
      (he.treeEffect hq.sound (hq.keepsTree hc.1)).allReach hq.sound hall hc⟩
  exact hinv.1.sound.noOrphans hinv.2

/-- A program that makes a directory and a file in it, and removes both. -/
def nestedCalls : List FsCall :=
  [.mkdir ⟨ofText "/d", by decide⟩ fun _ ↦ 0, .create ⟨ofText "/d/x", by decide⟩ fun _ ↦ 0,
    .unlink ⟨ofText "/d/x", by decide⟩ fun _ ↦ 0, .unlink ⟨ofText "/d", by decide⟩ fun _ ↦ 0]

theorem noOrphans_nestedCalls : ∃ k, runCalls FsCall.exec KeepsPaths nestedCalls
    terminalKernel = some k ∧ NoOrphans k.fs := by
  obtain ⟨k, hk⟩ := Option.isSome_iff_exists.mp
    (show (runCalls FsCall.exec KeepsPaths nestedCalls terminalKernel).isSome = true by
      decide +kernel)
  exact ⟨k, hk, noOrphans_of_reaches formatted_terminalKernel (reaches_of_runCalls hk)⟩

/-- A program that removes the directory only. -/
def prunedCalls : List FsCall :=
  [.mkdir ⟨ofText "/d", by decide⟩ fun _ ↦ 0, .mkdir ⟨ofText "/d/x", by decide⟩ fun _ ↦ 0,
    .unlink ⟨ofText "/d", by decide⟩ fun _ ↦ 0]

/-- **Removing a directory with an entry leaves an orphan.** -/
theorem prunedCalls_orphan : Formatted terminalKernel ∧
    ∃ k, runCalls FsCall.exec (fun k c ↦ KeepsQuiet k.fs c) prunedCalls terminalKernel = some k ∧
      ¬ NoOrphans k.fs := by
  obtain ⟨k, hk, hcheck⟩ := (Option.any_eq_true _ _).mp
    (show (runCalls FsCall.exec (fun k c ↦ KeepsQuiet k.fs c) prunedCalls terminalKernel).any
      (fun k ↦ decide (k.fs.Live 5 ∧ ∀ d < inodeCount, k.fs.Live d → k.fs.IsDir d →
        5 ∉ (k.fs.entries d).map Prod.snd)) = true by decide +kernel)
  obtain ⟨hlive, hnone⟩ := of_decide_eq_true hcheck
  refine ⟨formatted_terminalKernel, k, hk, fun h ↦ ?_⟩
  obtain ⟨⟨d, entry⟩, ⟨hd, hdir, name, hentry⟩, -⟩ := h.entry 5 hlive (by decide)
  have hs := (formatted_terminalKernel.quiet_of_reaches (reaches_of_runCalls hk)).sound
  refine hnone d (hs.lt hd) hd hdir (List.mem_map.mpr ⟨_, List.mem_of_getElem? hentry, rfl⟩)

end Yorha.Fs
