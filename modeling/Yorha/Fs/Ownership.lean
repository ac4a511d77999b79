import Yorha.Fs.Format

/-!
# Who owns a block

In every state reached from a formatted disk, the metadata and the root's block stay
marked, and every directory and normal file has a marked block of its own, which is not
one of the metadata (`BlocksOwned`), as long as every call keeps to `KeepsBlocks`.

What this excludes are three things that the code does not check.  `unlink` of a special
file frees the block number it carries as a place-holder, which is that of the super
block.  `write` does not look whether its descriptor is open, or names a directory, or a
file that is gone.  And `seek_directory` goes through normal files.
-/

namespace Yorha.Fs

open Yorha.Lib Yorha.Str Yorha.Util

variable {δ : Type} {fs fs' : FileSystem}

/-- The metadata and the root's block are marked, and every live directory or normal file
has a marked block behind the metadata, and has it alone. -/
structure BlocksOwned (fs : FileSystem) : Prop where
  metadata : ∀ b ≤ dataRegionStart, WordArray.bit fs.globalDbmap b = true
  owned : ∀ {i}, fs.Live i → ¬ fs.IsSpecial i →
    fs.globalSuper.dataStart ≤ (fs.inode i).dataBlockStart ∧
      WordArray.bit fs.globalDbmap (fs.inode i).dataBlockStart = true
  apart : ∀ {i j}, fs.Live i → fs.Live j → ¬ fs.IsSpecial i → ¬ fs.IsSpecial j →
    (fs.inode i).dataBlockStart = (fs.inode j).dataBlockStart → i = j

theorem Sound.blocksOwned (hs : Sound fs) (hm : MetadataOwned fs) : BlocksOwned fs where
  metadata := hm.marked
  owned := by
    intro i hi hsp
    rw [hm.dataStart]
    exact ⟨hm.block_ge hi hsp, hs.block_marked hi hsp⟩
  apart := hs.block_inj

/-- A call that makes no file and removes none. -/
def KeepsFiles : FsCall → Prop
  | .createFiletype _ _ _ _ => False
  | .unlink _ _ => False
  | _ => True

instance : ∀ c, Decidable (KeepsFiles c)
  | .createFiletype _ _ _ _ => inferInstanceAs (Decidable False)
  | .openFile _ => inferInstanceAs (Decidable True)
  | .close _ => inferInstanceAs (Decidable True)
  | .read _ _ _ => inferInstanceAs (Decidable True)
  | .write _ _ _ => inferInstanceAs (Decidable True)
  | .seek _ _ _ => inferInstanceAs (Decidable True)
  | .unlink _ _ => inferInstanceAs (Decidable False)

theorem BlocksOwned.of_table (h : BlocksOwned fs) (t : FileDescriptorTable) :
    BlocksOwned { fs with globalFdTable := t } :=
  ⟨h.metadata, h.owned, h.apart⟩

/-- A write moves no block, whatever it writes to. -/
theorem Wrote.blocksOwned {fd i count : Nat} {buf : Bytes} (h : Wrote fs fs' fd i buf count)
    (ho : BlocksOwned fs) : BlocksOwned fs' := by
  have hlive : ∀ {j}, fs'.Live j → fs.Live j := by
    intro j hj
    rw [FileSystem.Live, h.ibmap] at hj
    exact hj
  have hspecial : ∀ {j}, ¬ fs'.IsSpecial j → ¬ fs.IsSpecial j := by
    intro j hj
    obtain ⟨n, hn, -⟩ := h.inode_eq j
    rw [FileSystem.IsSpecial, hn] at hj
    exact hj
  have hblock : ∀ j, (fs'.inode j).dataBlockStart = (fs.inode j).dataBlockStart := by
    intro j
    obtain ⟨n, hn, -⟩ := h.inode_eq j
    rw [hn]
  refine ⟨?_, fun {j} hj hsp ↦ ?_, fun {j l} hj hl hsj hsl heq ↦ ?_⟩
  · rw [h.dbmap]
    exact ho.metadata
  · rw [h.dataStart, h.dbmap, hblock]
    exact ho.owned (hlive hj) (hspecial hsp)
  · rw [hblock, hblock] at heq
    exact ho.apart (hlive hj) (hlive hl) (hspecial hsj) (hspecial hsl) heq

/-- Blocks stay owned while no file is made or removed. -/
theorem blocksOwned_of_keepsFiles {k₀ k : Kernel δ} (h₀ : BlocksOwned k₀.fs)
    (h : Reaches FsCall.exec (fun _ c ↦ KeepsFiles c) k₀ k) : BlocksOwned k.fs := by
  refine Reaches.invariant (I := fun k ↦ BlocksOwned k.fs) h h₀ ?_
  intro k c v k' ho hc hx
  cases exec_ok hx with
  | moved ht _ =>
      rw [ht]
      exact ho.of_table _
  | created _ _ => exact hc.elim
  | opened ht _ _ _ _ =>
      rw [ht]
      exact ho.of_table _
  | closed ht _ =>
      rw [ht]
      exact ho.of_table _
  | wrote h => exact h.blocksOwned ho
  | removed _ => exact hc.elim

/-- A call that keeps the tree and removes no special file. -/
def KeepsBlocks (k : Kernel δ) (c : FsCall) : Prop :=
  KeepsTree k.fs c ∧ ∀ e ∈ c.removes k.fs, ¬ k.fs.IsSpecial e

instance (k : Kernel δ) (c : FsCall) : Decidable (KeepsBlocks k c) :=
  inferInstanceAs (Decidable (_ ∧ _))

/-- **Step.**  A call that keeps the tree and removes no special file keeps the
metadata. -/
theorem TreeEffect.metadataOwned {k : Kernel δ} {c : FsCall} (h : TreeEffect k.fs fs' c)
    (hs : Sound k.fs) (hm : MetadataOwned k.fs) (hc : KeepsBlocks k c) : MetadataOwned fs' := by
  cases h with
  | same h => exact h.metadataOwned hm
  | created h hd => exact h.metadataOwned hm hs hd
  | removed h hd htarget _ => exact h.metadataOwned hm hs hd (hc.2 _ htarget)

/-- A formatted disk's metadata is its own. -/
theorem Formatted.metadataOwned {k : Kernel δ} (h : Formatted k) : MetadataOwned k.fs := by
  refine (h.invariant (I := fun k ↦ Quiet k.fs ∧ MetadataOwned k.fs) ?_ (fun _ _ hI ↦ hI)
    (fun hb _ ↦ ⟨hb.quiet, hb.metadataOwned⟩)).2
  rintro k k' c v ⟨hq, hm⟩ hc hx
  have he := exec_ok hx
  refine ⟨he.quiet hq (hc.keepsQuiet _), ?_⟩
  have hkeep : KeepsTree k.fs c := hq.keepsTree (hc.keepsQuiet _)
  exact (he.treeEffect hq.sound hkeep).metadataOwned hq.sound hm
    ⟨hkeep, by simp [hc.removes_eq_none]⟩

/-- **Block ownership.**  In every state that calls keeping to `KeepsBlocks` lead to from a
formatted disk, the metadata is marked and every live directory or normal file has a
marked block of its own behind it. -/
theorem blocksOwned_of_reaches {k₀ k : Kernel δ} (h₀ : Formatted k₀)
    (h : Reaches FsCall.exec KeepsBlocks k₀ k) : BlocksOwned k.fs := by
  have hinv : Sound k.fs ∧ MetadataOwned k.fs := by
    refine Reaches.invariant (I := fun k ↦ Sound k.fs ∧ MetadataOwned k.fs) h
      ⟨h₀.quiet.sound, h₀.metadataOwned⟩ ?_
    rintro k c v k' ⟨hs, hm⟩ hc hx
    have he := (exec_ok hx).treeEffect hs hc.1
    exact ⟨he.sound hs, he.metadataOwned hs hm hc⟩
  exact hinv.1.blocksOwned hinv.2

/-- A program that writes to a file of its own, and removes it. -/
def scratchCalls : List FsCall :=
  [.create ⟨ofText "/a", by decide⟩ fun _ ↦ 0, .write 2 (fun _ ↦ 7) 5000,
    .unlink ⟨ofText "/a", by decide⟩ fun _ ↦ 0, .mkdir ⟨ofText "/b", by decide⟩ fun _ ↦ 0]

/-- The run of a program. -/
theorem blocksOwned_scratchCalls : ∃ k, runCalls FsCall.exec KeepsBlocks scratchCalls
    terminalKernel = some k ∧ BlocksOwned k.fs := by
  obtain ⟨k, hk⟩ := Option.isSome_iff_exists.mp
    (show (runCalls FsCall.exec KeepsBlocks scratchCalls terminalKernel).isSome = true by
      decide +kernel)
  exact ⟨k, hk, blocksOwned_of_reaches formatted_terminalKernel (reaches_of_runCalls hk)⟩

/-- **Removing `/dev/tty` frees the block of the super block.** -/
theorem unlink_tty_frees_super : Formatted terminalKernel ∧
    ∃ k, runCalls FsCall.exec (fun _ _ ↦ True) [.unlink ⟨ofText "/dev/tty", by decide⟩ fun _ ↦ 0]
      terminalKernel = some k ∧ ¬ BlocksOwned k.fs := by
  obtain ⟨k, hk, hbit⟩ := (Option.any_eq_true _ _).mp
    (show (runCalls FsCall.exec (fun _ _ ↦ True)
      [.unlink ⟨ofText "/dev/tty", by decide⟩ fun _ ↦ 0] terminalKernel).any
        (fun k ↦ !WordArray.bit k.fs.globalDbmap 0) = true by decide +kernel)
  refine ⟨formatted_terminalKernel, k, hk, fun howned ↦ ?_⟩
  rw [howned.metadata 0 (Nat.zero_le _)] at hbit
  cases hbit

end Yorha.Fs
