import Yorha.Fs.Ownership
import Yorha.Fs.Write

/-!
# A new file is a stream

What is written through the descriptor that `create` returned is read through it in the
same order, until the block is full (`InOrder`).  Both cursors start at zero and so does
the size, and nobody else moves them: neither reads and writes through descriptors of
other normal files, whose blocks are other blocks, nor those through the descriptor
itself, which leave each other's cursor alone.

There is one exception.  `seek_directory` does not ensure that the inode it is led to is in
use.  If it is led to the number that `create` allocates next, the new file becomes its own
directory, and has the size of an entry before anything is written.
-/

namespace Yorha.Fs

open Yorha.Lib Yorha.Str Yorha.Util

variable {δ : Type} {fs fs' : FileSystem}

/-! ## Reads and writes beside a record of the bytes -/

/-- A kernel, what was asked to be written through a descriptor, and what was read. -/
structure Stream (δ : Type) where
  kernel : Kernel δ
  requested : List UInt8
  got : List UInt8

/-- What can be stored of the bytes written: as many as a block has. -/
def Stream.stored (s : Stream δ) : List UInt8 := s.requested.take blockBytes

/-- A read or a write through a descriptor. -/
inductive StreamCall where
  | read (fd : Nat) (buf : Bytes) (count : Nat)
  | write (fd : Nat) (buf : Bytes) (count : Nat)

/-- Make a call, and record the bytes that went through the descriptor `fd`. -/
def Stream.exec (fd : Nat) (s : Stream δ) : StreamCall → Except Stop (Nat × Stream δ)
  | .read fd' buf count => do
      let ((n, buf), kernel) ← Fs.read s.kernel fd' buf count
      let got := if fd' = fd then s.got ++ buf.take n else s.got
      .ok (n, { s with kernel := kernel, got := got })
  | .write fd' buf count => do
      let (n, kernel) ← Fs.write s.kernel fd' buf count
      let requested := if fd' = fd then s.requested ++ buf.take count else s.requested
      .ok (n, { s with kernel := kernel, requested := requested })

/-- The descriptor of a call. -/
def StreamCall.fd : StreamCall → Nat
  | .read fd _ _ => fd
  | .write fd _ _ => fd

/-- The call is through `fd`, or through a descriptor of another normal file. -/
def OtherFiles (fd : Nat) (s : Stream δ) (c : StreamCall) : Prop :=
  let fs := s.kernel.fs
  let j := (fs.globalFdTable.entry c.fd).inodeNum
  c.fd = fd ∨ (fs.Live j ∧ fs.IsNormal j ∧ j ≠ (fs.globalFdTable.entry fd).inodeNum)

/-- What was read is the start of what was stored; a read returns as many bytes as are
stored and not yet read, and a write accepts as many as the block has left. -/
structure InOrder (fd : Nat) (s : Stream δ) : Prop where
  got : s.got <+: s.stored
  read : ∀ buf count, ∃ buf' k', Fs.read s.kernel fd buf count =
    .ok ((min count (s.stored.length - s.got.length), buf'), k')
  write : ∀ buf count, ∃ k', Fs.write s.kernel fd buf count =
    .ok (min count (blockBytes - s.stored.length), k')

/-- From `k` on, the descriptor is a stream: whatever is read and written through it, and
through descriptors of other normal files. -/
def StreamLaw (k : Kernel δ) (fd : Nat) : Prop :=
  ∀ s, Reaches (Stream.exec fd) (OtherFiles fd) ⟨k, [], []⟩ s → InOrder fd s

/-! ## The invariant -/

/-- The cursors of `fd` are where its file's bytes end and where those read end, and no
other file has its block. -/
structure StreamInv (fd i : Nat) (s : Stream δ) : Prop where
  fd_lt : fd < descriptorCount
  inodeNum : (s.kernel.fs.globalFdTable.entry fd).inodeNum = i
  normal : s.kernel.fs.IsNormal i
  size : (s.kernel.fs.inode i).size = s.stored.length
  writePos : (s.kernel.fs.globalFdTable.entry fd).writePos = s.stored.length
  readPos : (s.kernel.fs.globalFdTable.entry fd).readPos = s.got.length
  got_le : s.got.length ≤ s.stored.length
  stored : s.stored = (s.kernel.fs.block i).take s.stored.length
  got : s.got = (s.kernel.fs.block i).take s.got.length
  apart : ∀ {j}, s.kernel.fs.Live j → s.kernel.fs.IsNormal j → j ≠ i →
    blockAddress (s.kernel.fs.inode j).dataBlockStart ≠
      blockAddress (s.kernel.fs.inode i).dataBlockStart

theorem Stream.stored_le (s : Stream δ) : s.stored.length ≤ blockBytes :=
  List.length_take_le _ _

section

variable {fd i : Nat} {s : Stream δ} (h : StreamInv fd i s)

include h

/-- What a read through the descriptor returns. -/
theorem StreamInv.read_eq (buf : Bytes) (count : Nat) :
    let n := min count (s.stored.length - s.got.length)
    let e := s.kernel.fs.globalFdTable.entry fd
    let t := s.kernel.fs.globalFdTable.setEntry fd { e with readPos := e.readPos + n }
    ∃ buf' k, Fs.read s.kernel fd buf count = .ok ((n, buf'), k) ∧
      k.fs = { s.kernel.fs with globalFdTable := t } ∧
      buf'.take n = ((s.kernel.fs.block i).drop s.got.length).take n := by
  obtain ⟨buf', hx, hbuf⟩ := read_returns h.fd_lt h.inodeNum h.normal.lt h.normal.not_isSpecial
    (by rw [h.size]; exact s.stored_le) buf count
  rw [available, h.size, h.readPos] at hx hbuf
  rw [← h.readPos] at hx ⊢
  refine ⟨buf', _, hx, rfl, ?_⟩
  rw [h.readPos]
  apply Bytes.take_congr
  intro j hj
  rw [hbuf j, if_pos hj, Bytes.drop_apply]

/-- What a write through the descriptor returns. -/
theorem StreamInv.write_eq (buf : Bytes) (count : Nat) : ∃ k',
    Fs.write s.kernel fd buf count = .ok (min count (blockBytes - s.stored.length), k') ∧
      Wrote s.kernel.fs k'.fs fd i buf count := by
  obtain ⟨k', hx, hw⟩ := write_returns h.fd_lt h.inodeNum h.normal.lt h.normal.not_isSpecial
    buf count
  rw [accepted, h.writePos] at hx
  exact ⟨k', hx, hw⟩

/-- **The invariant is enough.** -/
theorem StreamInv.inOrder : InOrder fd s where
  got := by
    rw [h.got, h.stored]
    obtain ⟨n, hn⟩ := Nat.exists_eq_add_of_le h.got_le
    rw [hn, Bytes.take_add]
    exact ⟨_, rfl⟩
  read buf count := by
    obtain ⟨buf', k, hx, -⟩ := h.read_eq buf count
    exact ⟨buf', k, hx⟩
  write buf count := by
    obtain ⟨k', hx, -⟩ := h.write_eq buf count
    exact ⟨k', hx⟩

end

/-! ## One call -/

/-- What was stored, after another write. -/
theorem Stream.stored_append (s : Stream δ) (kernel : Kernel δ) (buf : Bytes) (count : Nat) :
    Stream.stored { s with kernel := kernel, requested := s.requested ++ buf.take count } =
      s.stored ++ buf.take (min count (blockBytes - s.stored.length)) := by
  have hroom : blockBytes - s.stored.length = blockBytes - s.requested.length := by
    rw [Stream.stored, List.length_take]
    omega
  rw [Stream.stored, List.take_append, Bytes.take_take, hroom, Nat.min_comm, Stream.stored]

section

variable {fd i : Nat} {s : Stream δ} (h : StreamInv fd i s)

include h

/-- A call that changes the descriptor table only, and of the descriptor the read cursor. -/
theorem StreamInv.of_table {k : Kernel δ} {t : FileDescriptorTable} {got : List UInt8}
    (hk : k.fs = { s.kernel.fs with globalFdTable := t })
    (hentry : t.entry fd = { s.kernel.fs.globalFdTable.entry fd with readPos := got.length })
    (hle : got.length ≤ s.stored.length)
    (hgot : got = (s.kernel.fs.block i).take got.length) :
    StreamInv fd i { s with kernel := k, got := got } := by
  have htable : k.fs.globalFdTable = t := congrArg FileSystem.globalFdTable hk
  have hinode : ∀ j, k.fs.inode j = s.kernel.fs.inode j := fun j ↦ by
    rw [hk]
    rfl
  have hblock : k.fs.block i = s.kernel.fs.block i := by
    rw [hk]
    rfl
  refine ⟨h.fd_lt, ?_, ?_, ?_, ?_, ?_, hle, ?_, ?_, fun {j} hj hn hne ↦ ?_⟩
  · rw [htable, hentry]
    exact h.inodeNum
  · rw [FileSystem.IsNormal, hinode]
    exact h.normal
  · rw [hinode]
    exact h.size
  · rw [htable, hentry]
    exact h.writePos
  · rw [htable, hentry]
  · rw [hblock]
    exact h.stored
  · rw [hblock]
    exact hgot
  · rw [FileSystem.Live, hk] at hj
    rw [FileSystem.IsNormal, hinode] at hn
    rw [hinode, hinode]
    exact h.apart hj hn hne

/-- **Step.**  A read through the descriptor. -/
theorem StreamInv.read_self {buf buf' : Bytes} {count n : Nat} {k : Kernel δ}
    (hx : Fs.read s.kernel fd buf count = .ok ((n, buf'), k)) :
    StreamInv fd i { s with kernel := k, got := s.got ++ buf'.take n } := by
  obtain ⟨buf'', k', hx', hk, hbuf⟩ := h.read_eq buf count
  rw [hx'] at hx
  cases hx
  rw [hbuf]
  have hlen : (s.got ++ ((s.kernel.fs.block i).drop s.got.length).take
      (min count (s.stored.length - s.got.length))).length =
        s.got.length + min count (s.stored.length - s.got.length) := by
    rw [List.length_append, Bytes.length_take]
  apply h.of_table hk
  · rw [FileDescriptorTable.entry_setEntry _ h.fd_lt, if_pos rfl, hlen, h.readPos]
  · rw [hlen]
    have := h.got_le
    omega
  · rw [hlen, Bytes.take_add, ← h.got]

/-- **Step.**  A read through another descriptor. -/
theorem StreamInv.read_other {fd' : Nat} {r : Nat × Bytes} {buf : Bytes} {count : Nat}
    {k : Kernel δ} (hx : Fs.read s.kernel fd' buf count = .ok (r, k)) (hne : fd' ≠ fd) :
    StreamInv fd i { s with kernel := k } := by
  obtain ⟨t, ht, -, hother⟩ := read_ok hx
  apply h.of_table ht
  · rw [hother fd (fun heq ↦ hne (Int.ofNat.inj heq)), ← h.readPos]
  · exact h.got_le
  · exact h.got

/-- The files keep their blocks when one of them is written to. -/
theorem StreamInv.apart_of_wrote {fd' i' count : Nat} {buf : Bytes} {k : Kernel δ}
    (hw : Wrote s.kernel.fs k.fs fd' i' buf count) {j : Nat} (hj : k.fs.Live j)
    (hn : k.fs.IsNormal j) (hne : j ≠ i) :
    blockAddress (k.fs.inode j).dataBlockStart ≠ blockAddress (k.fs.inode i).dataBlockStart := by
  obtain ⟨n, hn', -⟩ := hw.inode_eq j
  obtain ⟨m, hm, -⟩ := hw.inode_eq i
  rw [FileSystem.Live, hw.ibmap] at hj
  rw [FileSystem.IsNormal, hn'] at hn
  rw [hn', hm]
  exact h.apart hj hn hne

/-- **Step.**  A write through the descriptor. -/
theorem StreamInv.write_self {buf : Bytes} {count n : Nat} {k : Kernel δ}
    (hx : Fs.write s.kernel fd buf count = .ok (n, k)) :
    StreamInv fd i { s with kernel := k, requested := s.requested ++ buf.take count } := by
  obtain ⟨k', hx', hw⟩ := h.write_eq buf count
  rw [hx'] at hx
  cases hx
  have hstored := s.stored_append k buf count
  have hpos := h.writePos
  have hblock := hw.block_apply
  have hentry := hw.entry_eq fd
  have hsize := hw.size_eq
  simp only [accepted, hpos, h.size, if_true] at hblock hentry hsize
  have hle := s.stored_le
  generalize hn : min count (blockBytes - s.stored.length) = n at hstored hblock hentry hsize
  have hroom : s.stored.length + n ≤ blockBytes := by omega
  have hlen : (s.stored ++ buf.take n).length = s.stored.length + n := by
    rw [List.length_append, Bytes.length_take]
  have hkept : ∀ m ≤ s.stored.length, (k.fs.block i).take m = (s.kernel.fs.block i).take m := by
    intro m hm
    apply Bytes.take_congr
    intro j hj
    rw [hblock j, if_neg (by omega)]
  obtain ⟨m, hm, -⟩ := hw.inode_eq i
  refine ⟨h.fd_lt, ?_, ?_, ?_, ?_, ?_, ?_, ?_, ?_, h.apart_of_wrote hw⟩
  · rw [hentry]
    exact h.inodeNum
  · rw [FileSystem.IsNormal, hm]
    exact h.normal
  · rw [hsize, hstored, hlen]
    split
    · rename_i hzero
      rw [hzero, Nat.add_zero]
    · exact Nat.mod_eq_of_lt (lt_of_le_of_lt hroom (by decide))
  · rw [hentry, hstored, hlen]
  · rw [hentry]
    exact h.readPos
  · rw [hstored, hlen]
    exact le_trans h.got_le (Nat.le_add_right _ _)
  · rw [hstored, hlen, Bytes.take_add, hkept _ le_rfl, ← h.stored]
    refine congrArg (s.stored ++ ·) (Bytes.take_congr fun j hj ↦ ?_)
    rw [Bytes.drop_apply, hblock, if_pos ⟨Nat.le_add_right _ _, by omega⟩,
      Nat.add_sub_cancel_left]
  · rw [hkept _ h.got_le]
    exact h.got

/-- **Step.**  A write through a descriptor of another normal file. -/
theorem StreamInv.write_other {fd' n : Nat} {buf : Bytes} {count : Nat} {k : Kernel δ}
    (hx : Fs.write s.kernel fd' buf count = .ok (n, k)) (hne : fd' ≠ fd)
    (hlive : s.kernel.fs.Live (s.kernel.fs.globalFdTable.entry fd').inodeNum)
    (hnormal : s.kernel.fs.IsNormal (s.kernel.fs.globalFdTable.entry fd').inodeNum)
    (hfile : (s.kernel.fs.globalFdTable.entry fd').inodeNum ≠ i) :
    StreamInv fd i { s with kernel := k } := by
  obtain ⟨fd'', hfd, -, ⟨hspecial, -⟩ | ⟨-, -, hw⟩⟩ := write_ok hx
  · obtain rfl : fd' = fd'' := Int.ofNat.inj hfd
    exact absurd hspecial hnormal.not_isSpecial
  · obtain rfl : fd' = fd'' := Int.ofNat.inj hfd
    have hentry : k.fs.globalFdTable.entry fd = s.kernel.fs.globalFdTable.entry fd := by
      rw [hw.entry_eq, if_neg hne.symm]
    have hinode : k.fs.inode i = s.kernel.fs.inode i := by
      rw [hw.inode, if_neg hfile.symm]
    have hblock : k.fs.block i = s.kernel.fs.block i := by
      rw [FileSystem.block, hinode, hw.disk,
        read_write_block_of_ne _ _ (h.apart hlive hnormal hfile).symm, FileSystem.block]
    refine ⟨h.fd_lt, ?_, ?_, ?_, ?_, ?_, h.got_le, ?_, ?_, h.apart_of_wrote hw⟩
    · rw [hentry]
      exact h.inodeNum
    · rw [FileSystem.IsNormal, hinode]
      exact h.normal
    · rw [hinode]
      exact h.size
    · rw [hentry]
      exact h.writePos
    · rw [hentry]
      exact h.readPos
    · rw [hblock]
      exact h.stored
    · rw [hblock]
      exact h.got

/-- **Step.**  A read or a write through the descriptor, or one of another normal file. -/
theorem StreamInv.step {c : StreamCall} {n : Nat} {s' : Stream δ} (hc : OtherFiles fd s c)
    (hx : Stream.exec fd s c = .ok (n, s')) : StreamInv fd i s' := by
  rw [OtherFiles, h.inodeNum] at hc
  cases c with
  | read fd' buf count =>
      simp only [Stream.exec, bind_eq_ok, Prod.exists] at hx
      obtain ⟨n', buf', k, hread, hx⟩ := hx
      cases hx
      by_cases hfd : fd' = fd
      · subst hfd
        rw [if_pos rfl]
        exact h.read_self hread
      · rw [if_neg hfd]
        exact h.read_other hread hfd
  | write fd' buf count =>
      simp only [Stream.exec, bind_eq_ok, Prod.exists] at hx
      obtain ⟨n', k, hwrite, hx⟩ := hx
      cases hx
      by_cases hfd : fd' = fd
      · subst hfd
        rw [if_pos rfl]
        exact h.write_self hwrite
      · rw [if_neg hfd]
        obtain ⟨hlive, hnormal, hfile⟩ := hc.resolve_left hfd
        exact h.write_other hwrite hfd hlive hnormal hfile

end

/-! ## A new file -/

/-- The path's directory is the inode number that is allocated next. -/
def TakesParent (fs : FileSystem) (path : CString) : Prop :=
  ∃ d : Nat, seekDirectory fs (parsePath path).1.chars = .ok (d : Int) ∧
    WordArray.bit fs.globalIbmap d = false ∧ ∀ m < d, WordArray.bit fs.globalIbmap m = true

section

variable {path : CString} {fileType : UInt8} {d i b : Nat}

theorem Created.takesParent_iff (h : Created fs fs' path fileType d i b) :
    TakesParent fs path ↔ d = i := by
  constructor
  · rintro ⟨d', hseek, hfree, hfirst⟩
    rw [h.seek] at hseek
    obtain rfl : d = d' := Int.ofNat.inj (Except.ok.inj hseek)
    rcases Nat.lt_trichotomy d i with hlt | heq | hgt
    · rw [h.ibmap.first d hlt] at hfree
      cases hfree
    · exact heq
    · have hi := hfirst i hgt
      rw [h.ibmap.free] at hi
      cases hi
  · rintro rfl
    exact ⟨d, h.seek, h.ibmap.free, h.ibmap.first⟩

/-- A file that does not become its own directory starts as an empty stream. -/
theorem Created.streamInv {k k' : Kernel δ} {fd : Nat}
    (h : Created k.fs k'.fs path fileTypeNormal d i b) (howned : BlocksOwned k.fs)
    (hopen : Opened k.fs.globalFdTable k'.fs.globalFdTable fd i (fileName path))
    (hdi : d ≠ i) : StreamInv fd i ⟨k', [], []⟩ := by
  have hinode : k'.fs.inode i = madeInode (fileName path) fileTypeNormal b d := by
    rw [h.inode]
    exact (if_neg hdi.symm).trans (if_pos rfl)
  have hentry := hopen.entry fd
  rw [if_pos rfl] at hentry
  have hbit : BitAllocated k.fs.globalDbmap k'.fs.globalDbmap b := h.dbmap
  refine ⟨hopen.lt, ?_, ?_, ?_, ?_, ?_, le_rfl, rfl, rfl, fun {j} hj hn hne ↦ ?_⟩
  · exact congrArg FileDescriptorEntry.inodeNum hentry
  · exact congrArg FileSystemInode.fileType hinode
  · exact congrArg FileSystemInode.size hinode
  · exact congrArg FileDescriptorEntry.writePos hentry
  · exact congrArg FileDescriptorEntry.readPos hentry
  · -- the block was free, and that of the other file was not
    have hold : k'.fs.inode j = k.fs.inode j := by
      have hj' := h.inode j
      simp only [if_neg hne] at hj'
      by_cases hjd : j = d
      · rw [if_pos hjd, parentInode, if_neg hdi] at hj'
        rw [FileSystem.IsNormal, hj'] at hn
        exact absurd (h.parent_dir.symm.trans hn) (by decide)
      · rwa [if_neg hjd] at hj'
    have hlive : k.fs.Live j := by
      have hmarked := h.ibmap.bits j
      rw [if_neg hne] at hmarked
      exact hmarked.symm.trans hj
    rw [FileSystem.IsNormal, hold] at hn
    have hn' : k.fs.IsNormal j := hn
    obtain ⟨-, hmarked⟩ := howned.owned hlive hn'.not_isSpecial
    rw [hold, hinode, madeInode, blockAddress_of_lt (lt_trans (lt_of_bit hmarked) (by decide)),
      blockAddress_of_lt (lt_trans (Nat.lt_of_succ_lt hbit.lt) (by decide))]
    rintro rfl
    rw [hbit.free] at hmarked
    cases hmarked

/-- A file that becomes its own directory can be read before anything is written. -/
theorem Created.not_streamLaw {k k' : Kernel δ} {fd : Nat}
    (h : Created k.fs k'.fs path fileTypeNormal i i b)
    (hopen : Opened k.fs.globalFdTable k'.fs.globalFdTable fd i (fileName path)) :
    ¬ StreamLaw k' fd := by
  intro hlaw
  have hinode : k'.fs.inode i =
      { madeInode (fileName path) fileTypeNormal b i with size := entryBytes } := by
    rw [h.inode]
    simp only [parentInode, if_true]
    rfl
  have hentry := hopen.entry fd
  rw [if_pos rfl] at hentry
  have hnormal : k'.fs.IsNormal i := congrArg FileSystemInode.fileType hinode
  have hsize : (k'.fs.inode i).size ≤ blockBytes := by
    rw [hinode]
    change entryBytes ≤ blockBytes
    decide
  obtain ⟨buf', hx, -⟩ := read_returns hopen.lt (congrArg FileDescriptorEntry.inodeNum hentry)
    h.lt hnormal.not_isSpecial hsize (fun _ ↦ 0) 1
  obtain ⟨buf'', k'', hx'⟩ := (hlaw _ (Reaches.refl _)).read (fun _ ↦ 0) 1
  rw [hx', hentry, hinode] at hx
  cases hx

end

/-- What a `create` that returned a descriptor did. -/
theorem create_ok {k k' : Kernel δ} {path : CString} {past : Bytes} {fd : Nat}
    (hx : create k path past = .ok ((fd : Int), k')) : ∃ d i b,
    Created k.fs k'.fs path fileTypeNormal d i b ∧
      Opened k.fs.globalFdTable k'.fs.globalFdTable fd i (fileName path) := by
  rcases createFiletype_ok hx with ⟨hneg, -⟩ | ⟨d, i, b, hc, hout⟩
  · exact absurd hneg (by omega)
  · generalize hv : (fd : Int) = v at hout
    cases hout with
    | opened hopen =>
        obtain rfl : fd = _ := Int.ofNat.inj hv
        exact ⟨d, i, b, hc, hopen⟩

/-- **A new file is a stream, unless it becomes its own directory.**  In a state where blocks
are owned, the descriptor that `create` returns is a stream if and only if the directory of
the path is not the inode number that is allocated next. -/
theorem streamLaw_iff {k k' : Kernel δ} {path : CString} {past : Bytes} {fd : Nat}
    (howned : BlocksOwned k.fs) (hx : create k path past = .ok ((fd : Int), k')) :
    StreamLaw k' fd ↔ ¬ TakesParent k.fs path := by
  obtain ⟨d, i, b, hc, hopen⟩ := create_ok hx
  rw [hc.takesParent_iff]
  constructor
  · rintro hlaw rfl
    exact hc.not_streamLaw hopen hlaw
  · intro hdi s hs
    exact (Reaches.invariant (I := StreamInv fd i) hs (hc.streamInv howned hopen hdi)
      fun hI hok hr ↦ hI.step hok hr).inOrder

/-- The first file made on a formatted disk. -/
theorem streamLaw_first : ∃ k',
    create terminalKernel ⟨ofText "/a", by decide⟩ (fun _ ↦ 0) = .ok (((2 : Nat) : Int), k') ∧
      StreamLaw k' 2 := by
  obtain ⟨k', hx⟩ := value_eq_some.mp (show value (create terminalKernel
    ⟨ofText "/a", by decide⟩ (fun _ ↦ 0)) = some ((2 : Nat) : Int) by decide +kernel)
  refine ⟨k', hx, ?_⟩
  have hq := formatted_terminalKernel.quiet
  rw [streamLaw_iff (hq.sound.blocksOwned formatted_terminalKernel.metadataOwned) hx]
  rintro ⟨d, hseek, hfree, -⟩
  obtain rfl : d = 0 := by
    have hroot : seekDirectory terminalKernel.fs
        (parsePath ⟨ofText "/a", by decide⟩).1.chars = .ok 0 := by decide +kernel
    rw [hroot] at hseek
    exact (Int.ofNat.inj (Except.ok.inj hseek)).symm
  rw [hq.sound.root_live] at hfree
  cases hfree

/-- An entry named `x` of the inode 4. -/
def forgedEntry : Bytes := Function.update (Function.update (fun _ ↦ 0) 0 120) 32 4

/-- A program that writes a directory entry of its own to `/dev`.  Inode 4 is free. -/
def forgeCalls : List FsCall :=
  [.openFile (.literal "/dev"), .write 2 forgedEntry 36]

/-- A path through that entry. -/
def forgedPath : CString := ⟨ofText "/dev/x/y", by decide⟩

/-- **A file made under a forged entry can be its own directory**: it is no stream. -/
theorem forgeCalls_break_stream : Formatted terminalKernel ∧
    ∃ k k', runCalls FsCall.exec (fun _ c ↦ KeepsFiles c) forgeCalls terminalKernel = some k ∧
      BlocksOwned k.fs ∧
      create k forgedPath (fun _ ↦ 0) = .ok (((3 : Nat) : Int), k') ∧
      ¬ StreamLaw k' 3 := by
  obtain ⟨k, hk, hcheck⟩ := (Option.any_eq_true _ _).mp
    (show (runCalls FsCall.exec (fun _ c ↦ KeepsFiles c) forgeCalls terminalKernel).any (fun k ↦
      decide (value (create k forgedPath (fun _ ↦ 0)) = some ((3 : Nat) : Int) ∧
        seekDirectory k.fs (parsePath forgedPath).1.chars = .ok 4 ∧
        WordArray.bit k.fs.globalIbmap 4 = false ∧
        ∀ m : Nat, m < 4 → WordArray.bit k.fs.globalIbmap m = true)) = true by decide +kernel)
  obtain ⟨hreturns, htakes⟩ := of_decide_eq_true hcheck
  obtain ⟨k', hx⟩ := value_eq_some.mp hreturns
  have howned := blocksOwned_of_keepsFiles
    (formatted_terminalKernel.quiet.sound.blocksOwned formatted_terminalKernel.metadataOwned)
    (reaches_of_runCalls hk)
  refine ⟨formatted_terminalKernel, k, k', hk, howned, hx, ?_⟩
  obtain ⟨d, i, b, hc, hopen⟩ := create_ok hx
  obtain rfl : d = i := hc.takesParent_iff.mp ⟨4, htakes⟩
  exact hc.not_streamLaw hopen

end Yorha.Fs
