import Yorha.Fs.Open

/-!
# How many descriptors there are

The table has 32 descriptors, and `allocate_file_descriptor` is meant to return one that
is free, or -1 if there is none.  It does so exactly as long as there is one: the search
has the capacity of a disk bitmap, so in a full table it goes on into the entries and
finds a free bit there, or behind the table.

That a descriptor is in use means here what a program understands by it: a call returned
it and it was not closed since (`Handles`).  The bitmap agrees with that as long as
programs close nothing but what calls return (`Handles.marked_iff`).
-/

namespace Yorha.Fs

open Yorha.Lib Yorha.Str Yorha.Util

variable {δ : Type}

/-- What `allocate_file_descriptor` is meant to do, where `inUse` says which descriptors
are in use: it opens a descriptor that is not in use, or returns -1 and leaves the table
alone because all are. -/
inductive TableBounded (inUse : Nat → Bool) (t : FileDescriptorTable) (inodeNum : Nat)
    (name : Name) : Except Stop (Int × FileDescriptorTable) → Prop
  | opened {fd : Nat} {t' : FileDescriptorTable} : fd < descriptorCount → inUse fd = false →
      Opened t t' fd inodeNum name → TableBounded inUse t inodeNum name (.ok (fd, t'))
  | full : (∀ fd < descriptorCount, inUse fd = true) →
      TableBounded inUse t inodeNum name (.ok (-1, t))

/-- **A descriptor is allocated in the table exactly if one is free**, and the name fits
into its array. -/
theorem tableBounded_iff {inUse : Nat → Bool} {t : FileDescriptorTable}
    (h : ∀ fd < descriptorCount, t.marked fd = inUse fd) (inodeNum : Nat) (name : Name) :
    TableBounded inUse t inodeNum name (allocateFileDescriptor t inodeNum name) ↔
      name.length < nameBytes ∧ ∃ fd < descriptorCount, inUse fd = false := by
  constructor
  · intro hb
    cases he : allocateFileDescriptor t inodeNum name with
    | error e =>
        rw [he] at hb
        cases hb
    | ok r =>
        obtain ⟨v, t'⟩ := r
        obtain ⟨fd, -, hopen⟩ := allocateFileDescriptor_ok he
        exact ⟨hopen.name_lt, fd, hopen.lt, (h fd hopen.lt).symm.trans hopen.free⟩
  · rintro ⟨hname, fd, hfd, hfree⟩
    obtain ⟨v, t', he⟩ := allocateFileDescriptor_of_free hfd ((h fd hfd).trans hfree) inodeNum
      hname
    obtain ⟨n, rfl, hopen⟩ := allocateFileDescriptor_ok he
    rw [he]
    exact .opened hopen.lt ((h n hopen.lt).symm.trans hopen.free) hopen

/-! ## What a program has open -/

/-- A kernel, and the descriptors that the calls made so far returned and did not
close. -/
structure Handles (δ : Type) where
  kernel : Kernel δ
  inUse : Nat → Bool

/-- The descriptors in use after a call that returned `v`. -/
def handlesAfter (inUse : Nat → Bool) (v : Int) : FsCall → Nat → Bool
  | .createFiletype _ _ true _ | .openFile _ =>
      if v = -1 then inUse else Function.update inUse v.toNat true
  | .close fd => if fd = -1 then inUse else Function.update inUse fd.toNat false
  | _ => inUse

/-- Make a call. -/
def Handles.exec (s : Handles δ) (c : FsCall) : Except Stop (Int × Handles δ) := do
  let (v, kernel) ← FsCall.exec s.kernel c
  .ok (v, ⟨kernel, handlesAfter s.inUse v c⟩)

/-- Opening a descriptor marks it. -/
theorem Opened.marked_update {inUse : Nat → Bool} {t t' : FileDescriptorTable} {n i : Nat}
    {name : Name} (h : ∀ fd < descriptorCount, t.marked fd = inUse fd) (ho : Opened t t' n i name) :
    ∀ fd < descriptorCount, t'.marked fd = Function.update inUse n true fd := by
  intro fd hfd
  rw [ho.marked fd]
  split
  · rename_i heq
    rw [heq, Function.update_self]
  · rename_i hne
    rw [Function.update_of_ne hne, h fd hfd]

/-- Closing a descriptor unmarks it. -/
theorem Closed.marked_update {inUse : Nat → Bool} {t t' : FileDescriptorTable} {n : Nat}
    (h : ∀ fd < descriptorCount, t.marked fd = inUse fd) (hc : Closed t t' n) :
    ∀ fd < descriptorCount, t'.marked fd = Function.update inUse n false fd := by
  intro fd hfd
  rw [hc.marked fd]
  split
  · rename_i heq
    rw [heq, Function.update_self]
  · rename_i hne
    rw [Function.update_of_ne hne, h fd hfd]

/-- **Step.**  The marks follow what the program has open. -/
theorem Handles.marked_step {s s' : Handles δ} {c : FsCall} {v : Int}
    (h : ∀ fd < descriptorCount, s.kernel.fs.globalFdTable.marked fd = s.inUse fd)
    (hc : ClosesReturned c) (hx : s.exec c = .ok (v, s')) :
    ∀ fd < descriptorCount, s'.kernel.fs.globalFdTable.marked fd = s'.inUse fd := by
  simp only [Handles.exec, bind_eq_ok, Prod.exists] at hx
  obtain ⟨w, k', hx, hs⟩ := hx
  cases hs
  have hnat : ∀ n : Nat, ¬ (n : Int) = -1 := fun n ↦ by omega
  cases c with
  | createFiletype path fileType allocateFd past =>
      rcases createFiletype_ok hx with ⟨rfl, heq⟩ | ⟨d, i, b, -, hout⟩
      · rw [heq]
        cases allocateFd with
        | false => exact h
        | true => simpa only [handlesAfter, if_true] using h
      · cases hout with
        | unopened heq =>
            rw [heq]
            exact h
        | opened ho =>
            simp only [handlesAfter, if_neg (hnat _), Int.toNat_natCast]
            exact ho.marked_update h
  | openFile path =>
      obtain ⟨t, ht, d, -, r, -, ⟨rfl, -, rfl⟩ | ⟨-, n, rfl, ho⟩⟩ := openFile_ok hx
      · simpa only [ht, handlesAfter, if_true] using h
      · simp only [ht, handlesAfter, if_neg (hnat _), Int.toNat_natCast]
        exact ho.marked_update h
  | close fd =>
      obtain ⟨-, t, ht, rfl⟩ := close_ok hx
      rcases closed_of_returned hc ht with ⟨rfl, rfl⟩ | ⟨n, rfl, -, hclosed⟩
      · simpa only [handlesAfter, if_true] using h
      · simp only [handlesAfter, if_neg (hnat _), Int.toNat_natCast]
        exact hclosed.marked_update h
  | read fd buf count =>
      cases exec_ok hx with
      | moved ht hmoved =>
          rw [ht]
          exact fun fd hfd ↦ (hmoved.marked fd).trans (h fd hfd)
  | write fd buf count =>
      cases exec_ok hx with
      | moved ht hmoved =>
          rw [ht]
          exact fun fd hfd ↦ (hmoved.marked fd).trans (h fd hfd)
      | wrote hw =>
          rw [hw.table]
          exact h
  | seek fd offset param =>
      cases exec_ok hx with
      | moved ht hmoved =>
          rw [ht]
          exact fun fd hfd ↦ (hmoved.marked fd).trans (h fd hfd)
  | unlink path past =>
      cases exec_ok hx with
      | moved ht hmoved =>
          rw [ht]
          exact fun fd hfd ↦ (hmoved.marked fd).trans (h fd hfd)
      | removed hr =>
          rw [hr.table]
          exact h

/-- **Run.**  The marks are what the program has open. -/
theorem Handles.marked_of_reaches {s₀ s : Handles δ}
    (h₀ : ∀ fd < descriptorCount, s₀.kernel.fs.globalFdTable.marked fd = s₀.inUse fd)
    (h : Reaches Handles.exec (fun _ c ↦ ClosesReturned c) s₀ s) :
    ∀ fd < descriptorCount, s.kernel.fs.globalFdTable.marked fd = s.inUse fd :=
  Reaches.invariant
    (I := fun s ↦ ∀ fd < descriptorCount, s.kernel.fs.globalFdTable.marked fd = s.inUse fd) h h₀
    Handles.marked_step

/-- **The descriptor table's bound.**  In every table, and so in every state that calls lead
to, `allocate_file_descriptor` does what it is meant to do if and only if a descriptor is
free, and the name fits into its array.  In the states that calls lead to from one where
the bitmap is right about it, free means that no call returned the descriptor, or that it
was closed since. -/
theorem allocateFileDescriptor_bounded_iff :
    (∀ t inodeNum name,
      TableBounded t.marked t inodeNum name (allocateFileDescriptor t inodeNum name) ↔
        name.length < nameBytes ∧ ∃ fd < descriptorCount, t.marked fd = false) ∧
    ∀ {s₀ s : Handles δ},
      (∀ fd < descriptorCount, s₀.kernel.fs.globalFdTable.marked fd = s₀.inUse fd) →
      Reaches Handles.exec (fun _ c ↦ ClosesReturned c) s₀ s → ∀ inodeNum name,
      TableBounded s.inUse s.kernel.fs.globalFdTable inodeNum name
          (allocateFileDescriptor s.kernel.fs.globalFdTable inodeNum name) ↔
        name.length < nameBytes ∧ ∃ fd < descriptorCount, s.inUse fd = false :=
  ⟨fun _ ↦ tableBounded_iff fun _ _ ↦ rfl,
    fun h₀ h ↦ tableBounded_iff (Handles.marked_of_reaches h₀ h)⟩

/-- A formatted disk, with the descriptors that `open_system_files` left open. -/
def terminalHandles : Handles Unit := ⟨terminalKernel, fun fd ↦ decide (fd < 2)⟩

theorem formatted_terminalHandles : Formatted terminalHandles.kernel := by
  simp only [terminalHandles, formatted_terminalKernel]

theorem marked_terminalHandles : ∀ fd < descriptorCount,
    terminalHandles.kernel.fs.globalFdTable.marked fd = terminalHandles.inUse fd := by
  decide +kernel

/-- Opening a terminal as often as there are descriptors left. -/
def terminalOpens : List FsCall :=
  List.replicate 30 (.openFile ⟨ofText "/dev/tty", by decide⟩)

/-- One descriptor is closed again, and can be opened. -/
theorem bounded_after_close : ∃ s, runCalls Handles.exec (fun _ c ↦ ClosesReturned c)
    (terminalOpens ++ [.close 7]) terminalHandles = some s ∧
      TableBounded s.inUse s.kernel.fs.globalFdTable 2 (ofText "tty")
        (allocateFileDescriptor s.kernel.fs.globalFdTable 2 (ofText "tty")) := by
  obtain ⟨s, hs, hfree⟩ := (Option.any_eq_true _ _).mp
    (show (runCalls Handles.exec (fun _ c ↦ ClosesReturned c) (terminalOpens ++ [.close 7])
      terminalHandles).any (fun s ↦ !s.inUse 7) = true by decide +kernel)
  refine ⟨s, hs, ?_⟩
  rw [(allocateFileDescriptor_bounded_iff (δ := Unit)).2 marked_terminalHandles
    (reaches_of_runCalls hs)]
  exact ⟨by decide, 7, by decide, by simpa using hfree⟩

/-- **In a full table the search goes on into the entries.** -/
theorem opens_leave_table : Formatted terminalHandles.kernel ∧
    ∃ s, runCalls Handles.exec (fun _ c ↦ ClosesReturned c) terminalOpens terminalHandles = some s ∧
      ¬ TableBounded s.inUse s.kernel.fs.globalFdTable 2 (ofText "tty")
        (allocateFileDescriptor s.kernel.fs.globalFdTable 2 (ofText "tty")) := by
  obtain ⟨s, hs, hfull⟩ := (Option.any_eq_true _ _).mp
    (show (runCalls Handles.exec (fun _ c ↦ ClosesReturned c) terminalOpens
      terminalHandles).any (fun s ↦ decide (∀ fd < descriptorCount, s.inUse fd = true)) = true by
      decide +kernel)
  refine ⟨formatted_terminalHandles, s, hs, ?_⟩
  rw [tableBounded_iff (Handles.marked_of_reaches marked_terminalHandles (reaches_of_runCalls hs))]
  rintro ⟨-, fd, hfd, hfree⟩
  rw [of_decide_eq_true hfull fd hfd] at hfree
  cases hfree

end Yorha.Fs
