import Mathlib.Data.Finset.Card
import Mathlib.Data.Finset.Range
import Yorha.Fs.Remount

/-!
# Counting inodes

The super block counts the inodes in use, and so does the bitmap of inodes, by its bits.
`allocate_inode` sets a bit and adds one to the counter.  `unlink` clears a bit and leaves the
counter as it is.

So the counter is the number of bits that are set plus the number of bits that have ever been
cleared, as a number of 32 bits (`Tallied`), through every sequence of calls, shutdowns and
mounts.  Mounting does not help: the counter is stored and read back like the bitmap.
-/

namespace Yorha.Fs

open Yorha.Lib Yorha.Str Yorha.Util Yorha.Heap

variable {δ : Type} {k k' : Kernel δ} {fs fs' : FileSystem} {c : FsCall} {v : Int} {n : Nat}

/-! ## The bits of a bitmap -/

/-- The bits that are set. -/
def setBits (bitmap : Vector Word bitmapWords) : Finset Nat :=
  (Finset.range (32 * bitmapWords)).filter fun i ↦ WordArray.bit bitmap i = true

theorem mem_setBits {bitmap : Vector Word bitmapWords} {i : Nat} :
    i ∈ setBits bitmap ↔ i < 32 * bitmapWords ∧ WordArray.bit bitmap i = true := by
  rw [setBits, Finset.mem_filter, Finset.mem_range]

theorem card_setBits_lt (bitmap : Vector Word bitmapWords) : (setBits bitmap).card < 2 ^ 32 := by
  calc
    (setBits bitmap).card ≤ (Finset.range (32 * bitmapWords)).card := Finset.card_filter_le _ _
    _ = 32 * bitmapWords := Finset.card_range _
    _ < 2 ^ 32 := by decide

/-- Allocating sets one bit more. -/
theorem BitAllocated.card_setBits {bitmap bitmap' : Vector Word bitmapWords} {i : Nat}
    (h : BitAllocated bitmap bitmap' i) : (setBits bitmap').card = (setBits bitmap).card + 1 := by
  have hinsert : setBits bitmap' = insert i (setBits bitmap) := by
    ext j
    rw [Finset.mem_insert, mem_setBits, mem_setBits, h.bits]
    by_cases hj : j = i
    · rw [hj, if_pos rfl]
      exact ⟨fun _ ↦ .inl rfl, fun _ ↦ ⟨Nat.lt_of_succ_lt h.lt, rfl⟩⟩
    · rw [if_neg hj, or_iff_right hj]
  rw [hinsert, Finset.card_insert_of_notMem]
  rw [mem_setBits, h.free]
  exact fun hmem ↦ nomatch hmem.2

/-- Clearing a bit that is set leaves one less. -/
theorem card_setBits_of_clear {bitmap bitmap' : Vector Word bitmapWords} {e : Nat}
    (he : e < 32 * bitmapWords) (hset : WordArray.bit bitmap e = true)
    (h : ∀ i, WordArray.bit bitmap' i = if i = e then false else WordArray.bit bitmap i) :
    (setBits bitmap).card = (setBits bitmap').card + 1 := by
  have hinsert : setBits bitmap = insert e (setBits bitmap') := by
    ext j
    rw [Finset.mem_insert, mem_setBits, mem_setBits, h]
    by_cases hj : j = e
    · rw [hj]
      exact ⟨fun _ ↦ .inl rfl, fun _ ↦ ⟨he, hset⟩⟩
    · rw [if_neg hj, or_iff_right hj]
  rw [hinsert, Finset.card_insert_of_notMem]
  rw [mem_setBits, h, if_pos rfl]
  exact fun hmem ↦ nomatch hmem.2

/-- Clearing a bit that is clear changes nothing. -/
theorem setBits_of_clear {bitmap bitmap' : Vector Word bitmapWords} {e : Nat}
    (hclear : WordArray.bit bitmap e = false)
    (h : ∀ i, WordArray.bit bitmap' i = if i = e then false else WordArray.bit bitmap i) :
    setBits bitmap' = setBits bitmap := by
  ext j
  rw [mem_setBits, mem_setBits, h]
  split
  · rename_i hj
    rw [hj, hclear]
  · rfl

/-! ## The counter -/

/-- The counter of the super block is the number of set bits. -/
def Accounted (fs : FileSystem) : Prop :=
  fs.globalSuper.usedInodes = (setBits fs.globalIbmap).card

/-- The counter is ahead of the bits by `n`. -/
def Tallied (fs : FileSystem) (n : Nat) : Prop :=
  fs.globalSuper.usedInodes = ((setBits fs.globalIbmap).card + n) % 2 ^ 32

theorem Tallied.accounted_iff (h : Tallied fs n) : Accounted fs ↔ 2 ^ 32 ∣ n := by
  have hlt := card_setBits_lt fs.globalIbmap
  rw [Accounted, h]
  omega

/-! ## Calls -/

theorem linkFileInDir_ibmap {d i : Nat} (h : linkFileInDir fs d i = .ok fs') :
    fs'.globalIbmap = fs.globalIbmap := by
  simp only [linkFileInDir, bind_eq_ok] at h
  obtain ⟨dirInode, -, fileInode, -, h⟩ := h
  split at h
  · simp only [bind_eq_ok] at h
    obtain ⟨name, -, h⟩ := h
    cases h
    rfl
  · cases h

/-- An inode that is allocated is counted. -/
theorem allocateInode_usedInodes {parsedPath : ParsedPath} {fileType : UInt8} {allocData : Bool}
    {pair : DirInodePair} (h : allocateInode fs parsedPath fileType allocData = .ok (pair, fs'))
    (hvalid : pair.valid = true) :
    fs'.globalSuper.usedInodes = (fs.globalSuper.usedInodes + 1) % 2 ^ 32 := by
  simp only [allocateInode, bind_eq_ok] at h
  obtain ⟨d, -, h⟩ := h
  split at h
  · cases h
    cases hvalid
  · simp only [bind_eq_ok] at h
    obtain ⟨existing, -, h⟩ := h
    split at h
    · cases h
      cases hvalid
    · split at h
      · simp only [bind_eq_ok, Prod.exists] at h
        obtain ⟨i, ibmap, -, b, dbmap, -, h⟩ := h
        split at h
        · cases h
          rfl
        · cases h
      · cases h

theorem Tallied.allocated (h : Tallied fs n) {i : Nat}
    (hbit : BitAllocated fs.globalIbmap fs'.globalIbmap i)
    (hused : fs'.globalSuper.usedInodes = (fs.globalSuper.usedInodes + 1) % 2 ^ 32) :
    Tallied fs' n := by
  rw [Tallied, hused, h, hbit.card_setBits, Nat.mod_add_mod, Nat.add_right_comm]

theorem Tallied.createFiletype {path : CString} {fileType : UInt8} {allocateFd : Bool}
    {past : Bytes} (h : Tallied k.fs n)
    (hx : createFiletype k path fileType allocateFd past = .ok (v, k')) : Tallied k'.fs n := by
  cases createFiletype_steps hx with
  | relative => exact h
  | refused _ hpath halloc hinvalid =>
      obtain ⟨hdir, hname⟩ := Path_ok hpath
      rw [allocateInode_refused hdir hname halloc hinvalid]
      exact h
  | made _ hpath halloc hvalid hlink hfd _ hclean =>
      obtain ⟨hdir, hname⟩ := Path_ok hpath
      rw [(openCreated_ok hfd).cleanup_eq] at hclean
      cases hclean
      obtain ⟨b, ha⟩ := allocateInode_made hdir hname halloc hvalid
      have hbit := ha.ibmap
      have hused := allocateInode_usedInodes halloc hvalid
      rw [← linkFileInDir_ibmap hlink] at hbit
      rw [← linkFileInDir_super hlink] at hused
      exact h.allocated hbit hused

/-- The call clears a bit of the bitmap of inodes that is set. -/
def FsCall.frees (fs : FileSystem) : FsCall → Bool
  | .unlink path _ =>
      match seekDirectory fs (parsePath path).1.chars with
      | .ok d =>
          match searchDir fs (toUint32 d) (fileName path) with
          | .ok e => e ≠ -1 && WordArray.bit fs.globalIbmap (toUint32 e)
          | .error _ => false
      | .error _ => false
  | _ => false

/-- The number of bits that the call clears. -/
def FsCall.freed (fs : FileSystem) (c : FsCall) : Nat := if c.frees fs then 1 else 0

theorem frees_of_missing {path : CString} {d : Int} (past : Bytes)
    (hseek : seekDirectory fs (parsePath path).1.chars = .ok d)
    (hsearch : searchDir fs (toUint32 d) (fileName path) = .ok (-1)) :
    (FsCall.unlink path past).frees fs = false := by
  simp only [FsCall.frees, hseek, hsearch]
  rfl

theorem Removed.frees {path : CString} {past : Bytes} {d e : Nat}
    (h : Removed fs fs' path past d e) :
    (FsCall.unlink path past).frees fs = WordArray.bit fs.globalIbmap e := by
  obtain ⟨r, hsearch, hr, he⟩ := h.search
  have hd : toUint32 (d : Int) = d := toUint32_inode (searchDir_ok hsearch).1
  simp only [FsCall.frees, h.seek, hd, hsearch, he, hr, ne_eq, not_false_eq_true, decide_true,
    Bool.true_and]

theorem Tallied.unlink {path : CString} {past : Bytes} (h : Tallied k.fs n)
    (hx : unlink k path past = .ok (v, k')) :
    Tallied k'.fs (n + (FsCall.unlink path past).freed k.fs) := by
  rw [Tallied, unlink_super hx, FsCall.freed]
  rcases unlink_ok hx with ⟨rfl, rfl⟩ | ⟨-, -, d, e, hr⟩
  · have hmissing : (FsCall.unlink path past).frees k'.fs = false := by
      cases unlink_steps hx with
      | missing hseek hsearch => exact frees_of_missing past hseek hsearch
    rw [hmissing]
    exact h
  · rw [hr.frees]
    cases hbit : WordArray.bit k.fs.globalIbmap e with
    | true =>
        have hcard := card_setBits_of_clear (lt_trans hr.lt (by decide)) hbit hr.ibmap
        rw [if_pos rfl, h, hcard, Nat.add_right_comm, Nat.add_assoc]
    | false =>
        rw [setBits_of_clear hbit hr.ibmap]
        exact h

/-- What leaves the bitmap and the super block leaves the tally. -/
theorem Tallied.of_eq (h : Tallied fs n) (hbits : fs'.globalIbmap = fs.globalIbmap)
    (hsuper : fs'.globalSuper.usedInodes = fs.globalSuper.usedInodes) : Tallied fs' n := by
  rw [Tallied, hbits, hsuper]
  exact h

/-- **Step.**  A call puts the counter ahead by the bits that it clears. -/
theorem Tallied.step (h : Tallied k.fs n) (hx : FsCall.exec k c = .ok (v, k')) :
    Tallied k'.fs (n + c.freed k.fs) := by
  cases c with
  | createFiletype => exact h.createFiletype hx
  | openFile =>
      obtain ⟨t, ht, -⟩ := openFile_ok hx
      rw [ht]
      exact h
  | close =>
      obtain ⟨-, t, -, rfl⟩ := close_ok hx
      exact h
  | read =>
      obtain ⟨m, buf', hread⟩ := exec_read hx
      obtain ⟨t, ht, -⟩ := read_ok hread
      rw [ht]
      exact h
  | write =>
      obtain ⟨m, hwrite⟩ := exec_write hx
      have hsuper := congrArg FileSystemSuper.usedInodes (write_super hwrite)
      obtain ⟨fd, -, -, ⟨-, hfs⟩ | ⟨-, -, hw⟩⟩ := write_ok hwrite
      · rw [hfs]
        exact h
      · exact h.of_eq hw.ibmap hsuper
  | seek =>
      obtain ⟨t, rfl, -⟩ := seek_ok hx
      exact h
  | unlink => exact h.unlink hx

/-! ## Formatting and mounting -/

/-- What is kept through calls, shutdowns and mounts. -/
structure TallyInv (fs : FileSystem) (n : Nat) : Prop where
  super : MountableSuper fs.globalSuper
  inodes : InodesInRange fs
  tallied : Tallied fs n

theorem TallyInv.step (h : TallyInv k.fs n) (hx : FsCall.exec k c = .ok (v, k')) :
    TallyInv k'.fs (n + c.freed k.fs) where
  super := (exec_super hx).mountableSuper h.super
  inodes := (exec_ok hx).inodesInRange h.inodes
  tallied := h.tallied.step hx

/-- The one bit that is set after the tables are written is that of the root. -/
theorem Blank.setBits (h : Blank fs) : Fs.setBits fs.globalIbmap = {0} := by
  ext i
  rw [mem_setBits, Finset.mem_singleton]
  have hlive : WordArray.bit fs.globalIbmap i = true ↔ i = 0 := h.live_iff i
  rw [hlive]
  refine ⟨fun hi ↦ hi.2, fun hi ↦ ⟨?_, hi⟩⟩
  rw [hi]
  decide

/-- **A formatted disk has its inodes counted.** -/
theorem FormattedWith.tallyInv {files : List (SpecialFile δ)} (h : FormattedWith files k) :
    TallyInv k.fs 0 := by
  obtain ⟨k₀, diskSize, env, ⟨⟨disk, hdisk⟩, -⟩, -, hsize, h⟩ := h
  obtain ⟨fs, k₁, hmeta, hblank, hsys, hopened⟩ := formatDisk_ok hdisk h
  have hsuper := formatMetadata_super hmeta
  have hstart : TallyInv fs 0 := by
    refine ⟨?_, hblank.inodesInRange, ?_⟩
    · rw [hsuper]
      exact mountableSuper_formattedSuper _ hsize
    · rw [Tallied, hsuper, hblank.setBits]
      rfl
  have hstep : ∀ {k k' : Kernel δ} {c v}, TallyInv k.fs 0 → FormatCall c →
      FsCall.exec k c = .ok (v, k') → TallyInv k'.fs 0 := by
    intro k k' c v hI hc hx
    have hnext := hI.step hx
    cases hc with
    | createFiletype => exact hnext
    | openFile => exact hnext
  have hmade : TallyInv k₁.fs 0 :=
    createSystemFiles_invariant (I := fun k ↦ TallyInv k.fs 0) hstep hstart hsys
  exact openEach_invariant (I := fun k ↦ TallyInv k.fs 0) hstep (fun _ _ hI ↦ hI) hmade hopened

/-- Tables that came back from the disk are counted as they were. -/
theorem SameTables.tallyInv (hs : SameTables fs fs') (h : TallyInv fs n) : TallyInv fs' n where
  super := by
    have hfields := hs.super.fields
    refine ⟨?_, ?_, hs.super.recognized h.super.recognized⟩
    · rw [hfields]
      exact { h.super.range with }
    · rw [hfields]
      exact { h.super.layout with }
  inodes := by
    intro i hi
    rw [(hs.inode i hi).fields]
    exact { h.inodes i hi with }
  tallied := by
    refine h.tallied.of_eq hs.ibmap ?_
    rw [hs.super.fields]

/-! ## Sessions -/

/-- The machine, and how many bits of inodes have been cleared since the disk was formatted. -/
structure DiskHistory (δ : Type) where
  kernel : Kernel δ
  freed : Nat

/-- What may happen. -/
inductive DiskEvent (δ : Type) where
  | call (c : FsCall)
  /-- The machine is shut down, and the kernel `boot` is started with the disk. -/
  | reboot (env : Surroundings) (boot : Kernel δ) (diskSize : Nat) (env' : Surroundings)

def DiskHistory.exec (s : DiskHistory δ) : DiskEvent δ → Except Stop (Bool × DiskHistory δ)
  | .call c => do
      let (_, k) ← c.exec s.kernel
      .ok (true, ⟨k, s.freed + c.freed s.kernel.fs⟩)
  | .reboot env boot diskSize env' => do
      let k ← shutdown s.kernel env
      let boot := { boot with fs := FileSystem.zero k.fs.disk }
      let (r, k) ← initalizeFileSystem boot false diskSize env'
      .ok (r, ⟨k, s.freed⟩)

/-- **Step.**  Whatever happens, the counter is ahead by the bits that have been cleared. -/
theorem TallyInv.exec {s s' : DiskHistory δ} {ev : DiskEvent δ} {r : Bool}
    (h : TallyInv s.kernel.fs s.freed) (hx : s.exec ev = .ok (r, s')) :
    TallyInv s'.kernel.fs s'.freed := by
  cases ev with
  | call c =>
      simp only [DiskHistory.exec, bind_eq_ok, Prod.exists] at hx
      obtain ⟨v, k, hcall, hx⟩ := hx
      cases hx
      exact h.step hcall
  | reboot env boot diskSize env' =>
      simp only [DiskHistory.exec, bind_eq_ok, Prod.exists] at hx
      obtain ⟨k, hdown, r, k', hmount, hx⟩ := hx
      cases hx
      have hrestores := restores_of_shutdown ⟨h.super.range, h.inodes⟩ h.super.layout
        h.super.recognized hdown
      obtain ⟨-, -, -, hsame⟩ :=
        hrestores { boot with fs := FileSystem.zero k.fs.disk } diskSize env' rfl
      exact (hsame _ _ hmount).tallyInv h

theorem FormattedWith.tallyInv_of_reaches {files : List (SpecialFile δ)}
    (h₀ : FormattedWith files k) {s : DiskHistory δ}
    (h : Reaches DiskHistory.exec (fun _ _ ↦ True) ⟨k, 0⟩ s) : TallyInv s.kernel.fs s.freed :=
  Reaches.invariant (I := fun s ↦ TallyInv s.kernel.fs s.freed) h h₀.tallyInv
    fun hI _ hx ↦ hI.exec hx

/-- **When the inodes are counted right**: as long as no call has cleared the bit of an inode,
and not after, until 2 ^ 32 of them have. -/
theorem accounted_iff_of_reaches {files : List (SpecialFile δ)} (h₀ : FormattedWith files k)
    {s : DiskHistory δ} (h : Reaches DiskHistory.exec (fun _ _ ↦ True) ⟨k, 0⟩ s) :
    Accounted s.kernel.fs ↔ 2 ^ 32 ∣ s.freed :=
  (h₀.tallyInv_of_reaches h).tallied.accounted_iff

/-- A file is made, a second one is refused, and the machine is shut down and started again. -/
def remadeCalls : List (DiskEvent Unit) :=
  [.call (.create ⟨ofText "/f", by decide⟩ (fun _ ↦ 0)),
    .call (.create ⟨ofText "/f", by decide⟩ (fun _ ↦ 0)),
    .reboot ⟨fun _ ↦ 0, fun _ ↦ 0, none, fun _ ↦ 0⟩ terminalBoot 0x100000
      ⟨fun _ ↦ 0, fun _ ↦ 0, none, fun _ ↦ 0⟩]

/-- Then the counter is right. -/
theorem accounted_remadeCalls : ∃ s,
    runCalls DiskHistory.exec (fun _ _ ↦ True) remadeCalls ⟨terminalKernel, 0⟩ = some s ∧
      Accounted s.kernel.fs := by
  obtain ⟨s, hs, hcheck⟩ := (Option.any_eq_true _ _).mp
    (show (runCalls DiskHistory.exec (fun _ _ ↦ True) remadeCalls ⟨terminalKernel, 0⟩).any
      (fun s ↦ decide (s.freed = 0)) = true by decide +kernel)
  refine ⟨s, hs, (accounted_iff_of_reaches formattedWith_terminalKernel ?_).mpr ?_⟩
  · exact reaches_of_runCalls hs
  · rw [of_decide_eq_true hcheck]
    exact Nat.dvd_zero _

/-- A file is made and removed. -/
def droppedCalls : List (DiskEvent Unit) :=
  [.call (.create ⟨ofText "/f", by decide⟩ (fun _ ↦ 0)),
    .call (.unlink ⟨ofText "/f", by decide⟩ (fun _ ↦ 0))]

/-- **A removal is not counted**: the counter is one more than the bits that are set. -/
theorem droppedCalls_miscount : FormattedWith terminalBoot.systemFiles terminalKernel ∧ ∃ s,
    runCalls DiskHistory.exec (fun _ _ ↦ True) droppedCalls ⟨terminalKernel, 0⟩ = some s ∧
      s.kernel.fs.globalSuper.usedInodes = (setBits s.kernel.fs.globalIbmap).card + 1 ∧
      ¬ Accounted s.kernel.fs := by
  obtain ⟨s, hs, hcheck⟩ := (Option.any_eq_true _ _).mp
    (show (runCalls DiskHistory.exec (fun _ _ ↦ True) droppedCalls ⟨terminalKernel, 0⟩).any
      (fun s ↦ decide (s.freed = 1 ∧ s.kernel.fs.globalSuper.usedInodes = 5)) = true by
        decide +kernel)
  obtain ⟨hfreed, hused⟩ := of_decide_eq_true hcheck
  have htally := (formattedWith_terminalKernel.tallyInv_of_reaches (reaches_of_runCalls hs)).tallied
  have hlt := card_setBits_lt s.kernel.fs.globalIbmap
  rw [hfreed, Tallied, hused] at htally
  refine ⟨formattedWith_terminalKernel, s, hs, ?_, ?_⟩
  · rw [hused]
    omega
  · rw [Accounted, hused]
    omega

end Yorha.Fs
