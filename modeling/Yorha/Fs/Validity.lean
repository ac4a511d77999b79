import Yorha.Fs.Cursor
import Yorha.Fs.Open

/-!
# Is it still the same file?

An inode number is used again for another file after its file was removed.  `History`
tells the files apart: it counts the calls, and remembers for each inode the call that
made its file, and for each descriptor the file it was opened on.  Nothing of it is in
the code.

In every state that calls lead to, an open descriptor names a live inode, and the file
there is the one it was opened on, as long as no file is removed that a descriptor is open
on.  `unlink` does not look; after it, the descriptor names whatever file gets the inode
next.
-/

namespace Yorha.Fs

open Yorha.Lib Yorha.Str Yorha.Util

variable {δ : Type} {fs fs' : FileSystem}

/-! ## Histories -/

/-- What the calls made so far did to files and descriptors. -/
structure History where
  /-- The number of calls. -/
  clock : Nat
  /-- The call that made the file of an inode. -/
  births : Nat → Nat
  /-- The file that a descriptor was opened on, by the call that made it. -/
  opened : Nat → Nat

/-- Before the first call. -/
def History.start : History := ⟨0, fun _ ↦ 0, fun _ ↦ 0⟩

/-- The history after one more call, which took `fs` to `fs'`. -/
def History.next (h : History) (fs fs' : FileSystem) : History :=
  let births := fun i ↦ if fs'.Live i ∧ ¬ fs.Live i then h.clock + 1 else h.births i
  { clock := h.clock + 1
    births := births
    opened := fun fd ↦
      if fs'.globalFdTable.marked fd ∧ ¬ fs.globalFdTable.marked fd then
        births (fs'.globalFdTable.entry fd).inodeNum
      else h.opened fd }

/-- A kernel with the history of the calls made. -/
structure Recorded (δ : Type) where
  kernel : Kernel δ
  history : History

/-- Make a call. -/
def Recorded.exec (s : Recorded δ) (c : FsCall) : Except Stop (Int × Recorded δ) := do
  let (v, kernel) ← FsCall.exec s.kernel c
  .ok (v, ⟨kernel, s.history.next s.kernel.fs kernel.fs⟩)

/-! ## Valid descriptors -/

/-- The other directories and normal files are what they were. -/
def OthersKept (fs fs' : FileSystem) (i : Nat) : Prop :=
  ∀ j, fs.Live j → ¬ fs.IsSpecial j → j ≠ i →
    fs'.inode j = fs.inode j ∧ fs'.block j = fs.block j

/-- Every open descriptor names a live inode, whose file is the one the descriptor was
opened on; and a write through it changes no other file. -/
structure FdsValid (s : Recorded δ) : Prop where
  /-- The file that is made next is none of the files so far. -/
  fresh : ∀ i, s.history.births i ≤ s.history.clock
  live : ∀ fd i, s.kernel.fs.Names fd i → s.kernel.fs.Live i
  same : ∀ fd i, s.kernel.fs.Names fd i → s.history.births i = s.history.opened fd
  write : ∀ fd i, s.kernel.fs.Names fd i → ∀ buf count v k',
    Fs.write s.kernel fd buf count = .ok (v, k') → OthersKept s.kernel.fs k'.fs i

/-- Writing to a live file leaves the other files alone. -/
theorem Wrote.othersKept {fd i count : Nat} {buf : Bytes} (h : Wrote fs fs' fd i buf count)
    (hs : Sound fs) (hi : fs.Live i) : OthersKept fs fs' i := by
  intro j hj hsp hne
  have hinode : fs'.inode j = fs.inode j := by rw [h.inode j, if_neg hne]
  refine ⟨hinode, ?_⟩
  rw [FileSystem.block, hinode, h.disk, read_write_block_of_ne, FileSystem.block]
  exact hs.blockAddress_ne hj hi hsp h.not_special hne

/-- A write through a descriptor on a live file leaves the other files alone. -/
theorem write_othersKept {k k' : Kernel δ} {fd i count v : Nat} {buf : Bytes}
    (hs : Sound k.fs) (hi : k.fs.Live i) (hfd : (k.fs.globalFdTable.entry fd).inodeNum = i)
    (h : Fs.write k fd buf count = .ok (v, k')) : OthersKept k.fs k'.fs i := by
  obtain ⟨n, hn, -, ⟨-, heq⟩ | ⟨-, -, hw⟩⟩ := write_ok h
  · rw [heq]
    exact fun j _ _ _ ↦ ⟨rfl, rfl⟩
  · obtain rfl : fd = n := Int.ofNat.inj hn
    rw [hfd] at hw
    exact hw.othersKept hs hi

/-- Nothing is written, nothing is closed but what calls return, and no file is removed
that a descriptor is open on, nor a special file whose place-holder a file has as its
block. -/
def KeepsFds (s : Recorded δ) (c : FsCall) : Prop :=
  KeepsQuiet s.kernel.fs c ∧ ClosesReturned c ∧ ∀ e ∈ c.removes s.kernel.fs, NotOpen s.kernel.fs e

instance (s : Recorded δ) (c : FsCall) : Decidable (KeepsFds s c) :=
  inferInstanceAs (Decidable (_ ∧ _ ∧ _))

/-- What is invariant along a run. -/
structure ValidityInv (s : Recorded δ) : Prop where
  quiet : Quiet s.kernel.fs
  live : FdsLive s.kernel.fs
  fresh : ∀ i, s.history.births i ≤ s.history.clock
  same : ∀ fd i, s.kernel.fs.Names fd i → s.history.births i = s.history.opened fd

/-- The file of an inode that was live is as old as before. -/
theorem History.births_next (h : History) {i : Nat} (hi : fs.Live i) :
    (h.next fs fs').births i = h.births i := if_neg fun hnew ↦ hnew.2 hi

theorem History.births_le (h : History) (hfresh : ∀ i, h.births i ≤ h.clock) (i : Nat) :
    (h.next fs fs').births i ≤ (h.next fs fs').clock := by
  change (if _ then _ else _) ≤ h.clock + 1
  split
  · exact le_rfl
  · exact Nat.le_succ_of_le (hfresh i)

/-- **Step.**  A descriptor that stays open stays on its file, and one that is opened is
opened on the file that is there. -/
theorem ValidityInv.step {s s' : Recorded δ} {c : FsCall} {v : Int} (h : ValidityInv s)
    (hc : KeepsFds s c) (hx : s.exec c = .ok (v, s')) : ValidityInv s' := by
  simp only [Recorded.exec, bind_eq_ok, Prod.exists] at hx
  obtain ⟨w, k', hx, hs⟩ := hx
  cases hs
  obtain ⟨hquiet, hclose, hremove⟩ := hc
  have he := exec_ok hx
  have htree := he.treeEffect h.quiet.sound (h.quiet.keepsTree hquiet)
  refine ⟨he.quiet h.quiet hquiet, he.fdsLive h.quiet.sound htree hclose
    (fun path _ ↦ h.quiet.safePath path) hremove h.live, s.history.births_le h.fresh,
    fun fd i hnames ↦ ?_⟩
  rcases he.fd_cases hclose hnames with hold | ⟨hfree, -⟩
  · have hopened : (s.history.next s.kernel.fs k'.fs).opened fd = s.history.opened fd :=
      if_neg fun hnew ↦ hnew.2 hold.2.1
    rw [hopened, History.births_next _ (h.live fd i hold)]
    exact h.same fd i hold
  · have hopened : (s.history.next s.kernel.fs k'.fs).opened fd =
        (s.history.next s.kernel.fs k'.fs).births (k'.fs.globalFdTable.entry fd).inodeNum :=
      if_pos ⟨hnames.2.1, by rw [hfree]; exact Bool.false_ne_true⟩
    rw [hopened, hnames.2.2]

/-- **Descriptor validity.**  In every state that calls keeping to `KeepsFds` lead to from a
formatted disk, every open descriptor names a live inode, still with the file it was
opened on, and a write through it changes no other file. -/
theorem fdsValid_of_reaches {k₀ : Kernel δ} {s : Recorded δ} (h₀ : Formatted k₀)
    (h : Reaches Recorded.exec KeepsFds ⟨k₀, .start⟩ s) : FdsValid s := by
  have hinv : ValidityInv s :=
    Reaches.invariant (I := ValidityInv) h
      ⟨h₀.quiet, h₀.fdsLive, fun _ ↦ le_rfl, fun _ _ _ ↦ rfl⟩
      ValidityInv.step
  refine ⟨hinv.fresh, hinv.live, hinv.same, fun fd i hnames buf count v k' hx ↦ ?_⟩
  exact write_othersKept hinv.quiet.sound (hinv.live fd i hnames) hnames.2.2 hx

/-- A program that closes a file before it removes it, and makes another one. -/
def tidyCalls : List FsCall :=
  [.create (.literal "/a") fun _ ↦ 0, .close 2,
    .unlink (.literal "/a") fun _ ↦ 0, .create (.literal "/b") fun _ ↦ 0]

theorem fdsValid_tidyCalls : ∃ s, runCalls Recorded.exec KeepsFds tidyCalls
    ⟨terminalKernel, .start⟩ = some s ∧ FdsValid s := by
  obtain ⟨s, hs⟩ := Option.isSome_iff_exists.mp
    (show (runCalls Recorded.exec KeepsFds tidyCalls ⟨terminalKernel, .start⟩).isSome = true by
      decide +kernel)
  exact ⟨s, hs, fdsValid_of_reaches formatted_terminalKernel (reaches_of_runCalls hs)⟩

/-- A program that removes the file first. -/
def staleCalls : List FsCall :=
  [.create (.literal "/a") fun _ ↦ 0, .unlink (.literal "/a") fun _ ↦ 0,
    .create (.literal "/b") fun _ ↦ 0]

/-- **A descriptor of a removed file is one of the next file.**  Descriptors 2 and 3 were
opened on two files, and name one inode. -/
theorem staleCalls_share : Formatted terminalKernel ∧
    ∃ s, runCalls Recorded.exec (fun _ _ ↦ True) staleCalls ⟨terminalKernel, .start⟩ = some s ∧
      s.kernel.fs.Names 2 4 ∧ s.kernel.fs.Names 3 4 ∧
      s.history.opened 2 ≠ s.history.opened 3 ∧ ¬ FdsValid s := by
  obtain ⟨s, hs, hcheck⟩ := (Option.any_eq_true _ _).mp
    (show (runCalls Recorded.exec (fun _ _ ↦ True) staleCalls ⟨terminalKernel, .start⟩).any
      (fun s ↦ decide (s.kernel.fs.Names 2 4 ∧ s.kernel.fs.Names 3 4 ∧
        s.history.opened 2 ≠ s.history.opened 3)) = true by decide +kernel)
  obtain ⟨h₂, h₃, hne⟩ := of_decide_eq_true hcheck
  refine ⟨formatted_terminalKernel, s, hs, h₂, h₃, hne, fun h ↦ hne ?_⟩
  exact (h.same 2 4 h₂).symm.trans (h.same 3 4 h₃)

end Yorha.Fs
