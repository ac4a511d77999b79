import Yorha.Fs.Format

/-!
# What descriptors name

A descriptor names the inode it was opened on.  A call makes a descriptor name another
inode only by opening it (`Effect.fd_cases`), as long as nothing is closed but what calls
return: `close` computes with whatever number it gets, and clears a bit in the entries if
the number is too large.

Descriptors name live inodes as long as no inode is removed that one of them names.
`unlink` does not look.
-/

namespace Yorha.Fs

open Yorha.Lib Yorha.Str Yorha.Util

variable {δ : Type} {fs fs' : FileSystem} {c : FsCall}

/-- Nothing is closed but what calls return: a descriptor, or -1. -/
def ClosesReturned : FsCall → Prop
  | .close fd => fd = -1 ∨ (0 ≤ fd ∧ fd < descriptorCount)
  | _ => True

instance : ∀ c, Decidable (ClosesReturned c)
  | .createFiletype _ _ _ _ => inferInstanceAs (Decidable True)
  | .openFile _ => inferInstanceAs (Decidable True)
  | .close fd => inferInstanceAs (Decidable (fd = -1 ∨ _))
  | .read _ _ _ => inferInstanceAs (Decidable True)
  | .write _ _ _ => inferInstanceAs (Decidable True)
  | .seek _ _ _ => inferInstanceAs (Decidable True)
  | .unlink _ _ => inferInstanceAs (Decidable True)

/-- Closing what a call returned closes that descriptor, or nothing. -/
theorem closed_of_returned {t t' : FileDescriptorTable} {fd : Int}
    (hfd : fd = -1 ∨ (0 ≤ fd ∧ fd < descriptorCount))
    (h : deallocBitrange t ⟨toUint32 fd, 1⟩ = .ok t') :
    (fd = -1 ∧ t' = t) ∨ ∃ n : Nat, fd = n ∧ n < descriptorCount ∧ Closed t t' n := by
  rcases hfd with rfl | ⟨hpos, hlt⟩
  · rw [deallocBitrange_minusOne] at h
    exact .inl ⟨rfl, (Except.ok.inj h).symm⟩
  · obtain ⟨n, rfl⟩ := Int.eq_ofNat_of_zero_le hpos
    have hn : n < descriptorCount := Int.ofNat_lt.mp hlt
    rw [toUint32_descriptor hn] at h
    obtain ⟨t'', ht'', hclosed⟩ := deallocBitrange_table t hn
    rw [h] at ht''
    exact .inr ⟨n, rfl, hn, Except.ok.inj ht'' ▸ hclosed⟩

theorem FormatCall.closesReturned (h : FormatCall c) : ClosesReturned c := by
  cases h with
  | createFiletype => trivial
  | openFile => trivial

/-! ## One step -/

/-- The descriptor `fd` is open on the inode `i`. -/
def FileSystem.Names (fs : FileSystem) (fd i : Nat) : Prop :=
  fd < descriptorCount ∧ fs.globalFdTable.marked fd = true ∧
    (fs.globalFdTable.entry fd).inodeNum = i

instance (fs : FileSystem) (fd i : Nat) : Decidable (fs.Names fd i) :=
  inferInstanceAs (Decidable (_ ∧ _ ∧ _))

/-- The call opened the inode `i`. -/
inductive Opens (fs fs' : FileSystem) : FsCall → Nat → Prop
  | created {path : CString} {fileType : UInt8} {past : Bytes} {d i b : Nat} :
      Created fs fs' path fileType d i b → Opens fs fs' (.createFiletype path fileType true past) i
  | opened {path : CString} {d : Nat} {r : Int} {t : FileDescriptorTable} :
      fs' = { fs with globalFdTable := t } →
      seekDirectory fs (parsePath path).1.chars = .ok (d : Int) →
      searchDir fs d (fileName path) = .ok r → r ≠ -1 →
      Opens fs fs' (.openFile path) (toUint32 r)

/-- The descriptors after one was opened. -/
theorem Opened.names {t t' : FileDescriptorTable} {n i : Nat} {name : Name}
    (h : Opened t t' n i name) {fd : Nat} (hm : t'.marked fd = true) :
    (fd ≠ n ∧ t.marked fd = true ∧ t'.entry fd = t.entry fd) ∨
      (fd = n ∧ t.marked fd = false ∧ (t'.entry fd).inodeNum = i) := by
  have hmarked := h.marked fd
  have hentry := h.entry fd
  by_cases hfd : fd = n
  · subst hfd
    rw [if_pos rfl] at hentry
    exact .inr ⟨rfl, h.free, by rw [hentry]⟩
  · rw [if_neg hfd] at hmarked hentry
    exact .inl ⟨hfd, hmarked.symm.trans hm, hentry⟩

/-- **What a call does to a descriptor** that is open after it: it was open on the same
inode, or the call opened it. -/
theorem Effect.fd_cases (he : Effect fs fs' c) (hc : ClosesReturned c) {fd i : Nat}
    (h : fs'.Names fd i) :
    fs.Names fd i ∨ (fs.globalFdTable.marked fd = false ∧ Opens fs fs' c i) := by
  obtain ⟨hfd, hm, rfl⟩ := h
  cases he with
  | moved ht hmoved =>
      rw [ht] at hm ⊢
      exact .inl ⟨hfd, (hmoved.marked fd).symm.trans hm, (hmoved.inodeNum fd).symm⟩
  | created hcreated hout =>
      cases hout with
      | unopened heq =>
          rw [heq] at hm ⊢
          exact .inl ⟨hfd, hm, rfl⟩
      | opened ho =>
          rcases ho.names hm with ⟨-, hold, hentry⟩ | ⟨-, hfree, hnum⟩
          · exact .inl ⟨hfd, hold, by rw [hentry]⟩
          · rw [hnum]
            exact .inr ⟨hfree, .created hcreated⟩
  | opened ht hseek hsearch hr ho =>
      rw [ht] at hm ⊢
      rcases ho.names hm with ⟨-, hold, hentry⟩ | ⟨-, hfree, hnum⟩
      · exact .inl ⟨hfd, hold, by rw [hentry]⟩
      · refine .inr ⟨hfree, ?_⟩
        rw [hnum]
        exact .opened rfl hseek hsearch hr
  | closed ht hclose =>
      rw [ht] at hm ⊢
      rcases closed_of_returned hc hclose with ⟨-, rfl⟩ | ⟨n, -, -, hclosed⟩
      · exact .inl ⟨hfd, hm, rfl⟩
      · have hmarked := hclosed.marked fd
        have hentry := hclosed.entry fd
        change FileDescriptorTable.marked _ fd = true at hm
        rw [hmarked] at hm
        split at hm
        · cases hm
        · exact .inl ⟨hfd, hm, congrArg FileDescriptorEntry.inodeNum hentry.symm⟩
  | wrote hw =>
      have hm' : fs.globalFdTable.marked fd = true := by
        rw [hw.table] at hm
        exact hm
      refine .inl ⟨hfd, hm', ?_⟩
      rw [hw.table, FileDescriptorTable.entry_setEntry _ hw.fd_lt]
      split
      · rename_i heq
        rw [heq]
      · rfl
  | removed hr =>
      rw [hr.table] at hm ⊢
      exact .inl ⟨hfd, hm, rfl⟩

/-! ## Descriptors of live files -/

/-- Every open descriptor names a live inode. -/
def FdsLive (fs : FileSystem) : Prop := ∀ fd i, fs.Names fd i → fs.Live i

/-- No open descriptor names the inode. -/
def NotOpen (fs : FileSystem) (e : Nat) : Prop :=
  ∀ fd < descriptorCount, fs.globalFdTable.marked fd = true →
    (fs.globalFdTable.entry fd).inodeNum ≠ e

instance (fs : FileSystem) (e : Nat) : Decidable (NotOpen fs e) :=
  inferInstanceAs (Decidable (∀ fd < descriptorCount, _ → _))

/-- What a call opened is live, and was live or is new. -/
theorem Opens.live {i : Nat} (h : Opens fs fs' c i) (hs : Sound fs) (hc : ∀ path,
    c = .openFile path → fs.SafePath path) : fs'.Live i := by
  cases h with
  | created h => exact (h.live_iff _).mpr (.inl rfl)
  | opened ht hseek hsearch hr =>
      rw [ht]
      exact (hs.target_of_search (hc _ rfl) hseek hsearch hr).2

/-- **Step.**  Descriptors name live inodes, as long as no call removes one that is open. -/
theorem Effect.fdsLive (he : Effect fs fs' c) (hs : Sound fs) (htree : TreeEffect fs fs' c)
    (hclose : ClosesReturned c) (hopen : ∀ path, c = .openFile path → fs.SafePath path)
    (hremove : ∀ e ∈ c.removes fs, NotOpen fs e) (h : FdsLive fs) : FdsLive fs' := by
  intro fd i hnames
  rcases he.fd_cases hclose hnames with hold | ⟨-, hopens⟩
  · have hlive := h fd i hold
    cases htree with
    | same htree => exact (htree.live_iff i).mpr hlive
    | created hc _ => exact (hc.live_iff i).mpr (.inr hlive)
    | removed hr _ htarget _ =>
        refine (hr.live_iff i).mpr ⟨?_, hlive⟩
        rintro rfl
        exact hremove i htarget fd hold.1 hold.2.1 hold.2.2
  · exact hopens.live hs hopen

theorem Blank.fdsLive (h : Blank fs) : FdsLive fs := by
  rintro fd i ⟨-, hm, -⟩
  rw [h.unmarked] at hm
  cases hm

/-- The descriptors that formatting leaves open name live inodes. -/
theorem Formatted.fdsLive {k : Kernel δ} (h : Formatted k) : FdsLive k.fs := by
  refine (h.invariant (I := fun k ↦ Quiet k.fs ∧ FdsLive k.fs) ?_ (fun _ _ hI ↦ hI)
    (fun hb _ ↦ ⟨hb.quiet, hb.fdsLive⟩)).2
  rintro k k' c v ⟨hq, hlive⟩ hc hx
  have he := exec_ok hx
  have hkeep := hc.keepsQuiet k.fs
  refine ⟨he.quiet hq hkeep, ?_⟩
  exact he.fdsLive hq.sound (he.treeEffect hq.sound (hq.keepsTree hkeep)) hc.closesReturned
    (fun path _ ↦ hq.safePath path) (by simp [hc.removes_eq_none]) hlive

end Yorha.Fs
