import Yorha.Shell.Editing

/-!
# What a command leaves open

A command line opens descriptors in two places: the shell opens the target of a redirection,
and `cat`, `sget` and `run` open the file they are about.  The shell closes the first, `cat`
and `sget` close the second on every way to their return, and `run` does not: it returns -1
with the descriptor of the program still open (`execRun_opens`).

So a command line leaves the set of open descriptors as it was exactly when it runs no
program: when it is no `run`, or when its redirection cannot be opened, so that no command is
executed (`processCommand_conserves_iff`).
-/

namespace Yorha.Shell

open Yorha.Lib Yorha.Str Yorha.Heap Yorha.Io
open Yorha.Fs hiding read write

/-! ## Open descriptors -/

section

variable {δ : Type} {k k₁ k₂ k' : Kernel δ} {cmd : StringList} {fd : Int}

/-- The descriptors that are allocated. -/
def openDescriptors (k : Kernel δ) : Set Nat := {fd | k.fs.globalFdTable.marked fd = true}

/-- The same descriptors are open. -/
def SameOpen (k k' : Kernel δ) : Prop :=
  ∀ fd, k'.fs.globalFdTable.marked fd = k.fs.globalFdTable.marked fd

/-- One descriptor more is open. -/
structure OpenedOne (k k' : Kernel δ) (n : Nat) : Prop where
  lt : n < descriptorCount
  free : k.fs.globalFdTable.marked n = false
  marked : ∀ fd, k'.fs.globalFdTable.marked fd =
    if fd = n then true else k.fs.globalFdTable.marked fd

theorem openDescriptors_eq_iff : openDescriptors k' = openDescriptors k ↔ SameOpen k k' := by
  rw [Set.ext_iff]
  refine forall_congr' fun fd ↦ ?_
  exact (Bool.eq_iff_iff).symm

theorem SameOpen.refl (k : Kernel δ) : SameOpen k k := fun _ ↦ rfl

theorem SameOpen.trans (h : SameOpen k k₁) (h' : SameOpen k₁ k₂) : SameOpen k k₂ :=
  fun fd ↦ (h' fd).trans (h fd)

theorem sameOpen_of_fs (h : k'.fs = k.fs) : SameOpen k k' := by
  intro fd
  rw [h]

/-- What is open now and was not before is not gone. -/
theorem OpenedOne.not_sameOpen {n : Nat} (h : OpenedOne k k' n) : ¬ SameOpen k k' := by
  intro hsame
  have hn := hsame n
  rw [h.marked, if_pos rfl, h.free] at hn
  cases hn

theorem OpenedOne.sameOpen {n : Nat} (h : OpenedOne k k₁ n) (h' : SameOpen k₁ k₂) :
    OpenedOne k k₂ n :=
  ⟨h.lt, h.free, fun fd ↦ (h' fd).trans (h.marked fd)⟩

theorem SameOpen.openedOne {n : Nat} (h : SameOpen k k₁) (h' : OpenedOne k₁ k₂ n) :
    OpenedOne k k₂ n := by
  refine ⟨h'.lt, (h n).symm.trans h'.free, fun fd ↦ ?_⟩
  rw [h'.marked, h fd]

/-! ## Calls -/

theorem Moved.sameOpen (h : Moved k k') : SameOpen k k' := h.marked

theorem write_sameOpen {buf : Bytes} {count v : Nat} (h : Fs.write k fd buf count = .ok (v, k')) :
    SameOpen k k' := (write_moved h).sameOpen

theorem seek_sameOpen {offset v : Int} {param : Nat}
    (h : seek k fd offset param = .ok (v, k')) : SameOpen k k' := by
  obtain ⟨t, rfl, hmoved⟩ := seek_ok h
  exact hmoved.marked

theorem print_sameOpen {text : String} {count : Nat} (h : print k fd text count = .ok k') :
    SameOpen k k' := (print_moved h).sameOpen

theorem strListDir_sameOpen {path : CString} {ptr : Option Nat}
    (h : strListDir k path = .ok (ptr, k')) : SameOpen k k' := by
  simp only [strListDir, bind_eq_ok] at h
  obtain ⟨d, -, h⟩ := h
  split at h
  · cases h
    exact SameOpen.refl k
  · simp only [bind_eq_ok, Prod.exists] at h
    obtain ⟨inode, -, p, a, -, text, -, h⟩ := h
    split at h
    · cases h
      exact SameOpen.refl k
    · cases h

/-- A call of `open` opens the first free descriptor, or none. -/
theorem openFile_opens {path : CString} (h : openFile k path = .ok (fd, k')) :
    fd = -1 ∧ SameOpen k k' ∨ ∃ n : Nat, fd = n ∧ OpenedOne k k' n := by
  obtain ⟨t, ht, d, -, r, -, ⟨rfl, -, rfl⟩ | ⟨-, n, rfl, hopened⟩⟩ := openFile_ok h
  · exact .inl ⟨rfl, fun n ↦ by rw [ht]⟩
  · refine .inr ⟨n, rfl, hopened.lt, hopened.free, fun n' ↦ ?_⟩
    rw [ht]
    exact hopened.marked n'

/-- A call of `close` with a descriptor of the table closes it. -/
theorem close_marked {n : Nat} {v : Int} (hn : n < descriptorCount)
    (h : close k n = .ok (v, k')) (fd : Nat) :
    k'.fs.globalFdTable.marked fd = if fd = n then false else k.fs.globalFdTable.marked fd := by
  obtain ⟨-, t, ht, rfl⟩ := close_ok h
  rw [toUint32_of_lt (lt_trans hn (by decide))] at ht
  obtain ⟨t', ht', hclosed⟩ := deallocBitrange_table k.fs.globalFdTable hn
  rw [ht'] at ht
  cases ht
  exact hclosed.marked fd

/-- A descriptor that was opened is closed again. -/
theorem close_opened {n : Nat} {v : Int} (ho : OpenedOne k k₁ n) (hsame : SameOpen k₁ k₂)
    (h : close k₂ n = .ok (v, k')) : SameOpen k k' := by
  intro fd
  rw [close_marked ho.lt h]
  split
  · rename_i hfd
    rw [hfd, ho.free]
  · rename_i hfd
    rw [hsame, ho.marked, if_neg hfd]

/-- Of two descriptors that were opened one is closed again. -/
theorem close_other {n m : Nat} {v : Int} (hn : OpenedOne k k₁ n) (hm : OpenedOne k₁ k₂ m)
    (h : close k₂ n = .ok (v, k')) : OpenedOne k k' m := by
  have hne : m ≠ n := by
    rintro rfl
    have hfree := hm.free
    rw [hn.marked, if_pos rfl] at hfree
    cases hfree
  refine ⟨hm.lt, ?_, fun fd ↦ ?_⟩
  · have hfree := hm.free
    rw [hn.marked, if_neg hne] at hfree
    exact hfree
  · rw [close_marked hn.lt h]
    by_cases hfd : fd = n
    · rw [if_pos hfd, if_neg (hfd ▸ hne.symm), hfd, hn.free]
    · rw [if_neg hfd, hm.marked, hn.marked, if_neg hfd]

/-- Making a file without opening it. -/
theorem createFiletype_sameOpen {path : CString} {fileType : UInt8} {past : Bytes} {v : Int}
    (h : createFiletype k path fileType false past = .ok (v, k')) : SameOpen k k' := by
  rcases createFiletype_ok h with ⟨-, hfs⟩ | ⟨d, i, b, -, hout⟩
  · exact sameOpen_of_fs hfs
  · cases hout with
    | unopened htable =>
        intro fd
        rw [htable]

theorem unlink_sameOpen {path : CString} {past : Bytes} {v : Int}
    (h : unlink k path past = .ok (v, k')) : SameOpen k k' := by
  rcases unlink_ok h with ⟨-, rfl⟩ | ⟨-, -, d, e, hremoved⟩
  · exact SameOpen.refl k'
  · intro fd
    rw [hremoved.table]

/-! ## Commands -/

theorem execLs_sameOpen {out v : Int} (h : execLs k out cmd = .ok (v, k')) : SameOpen k k' := by
  simp only [execLs, bind_eq_ok, Prod.exists] at h
  obtain ⟨path, -, ptr, k₁, hlist, h⟩ := h
  have hsame := strListDir_sameOpen hlist
  split at h
  · cases h
    exact hsame
  · simp only [bind_eq_ok, Prod.exists] at h
    obtain ⟨text, -, count, k₂, hwrite, a', -, h⟩ := h
    cases h
    exact hsame.trans fun fd ↦ write_sameOpen hwrite fd

/-- `cat` closes what it opens. -/
theorem execCat_sameOpen {out v : Int} {fuel : Nat} (h : execCat k out cmd fuel = .ok (v, k')) :
    SameOpen k k' := by
  simp only [execCat, bind_eq_ok, Prod.exists] at h
  obtain ⟨path, -, fd, k₁, hopen, h⟩ := h
  rcases openFile_opens hopen with ⟨rfl, hsame⟩ | ⟨n, rfl, hopened⟩
  · cases h
    exact hsame
  · rw [if_neg (by omega)] at h
    simp only [bind_eq_ok, Prod.exists] at h
    obtain ⟨k₂, hloop, r, k₃, hclose, h⟩ := h
    cases h
    exact close_opened hopened (catLoop_moved hloop).sameOpen hclose

theorem execEcho_sameOpen {out v : Int} (h : execEcho k out cmd = .ok (v, k')) :
    SameOpen k k' := by
  simp only [execEcho, bind_eq_ok, Prod.exists] at h
  obtain ⟨text, -, n, k₁, hwrite, h⟩ := h
  cases h
  exact write_sameOpen hwrite

/-- **Run.**  `exec_sget` closes what it opens, whatever the clock and the devices do. -/
theorem run_sameOpen {line : Line δ} {fuel i n : Nat} {s : Sget δ} {v : Int}
    (ho : OpenedOne k s.k n) (h : s.run line n fuel i = .ok (v, k')) : SameOpen k k' := by
  induction fuel generalizing i s with
  | zero => cases h
  | succ fuel ih =>
      simp only [Sget.run, bind_eq_ok] at h
      obtain ⟨r, hstep, h⟩ := h
      have hpasses : OpenedOne k (line.passes i s).k n := ho.sameOpen fun _ ↦ rfl
      obtain ⟨s', rfl, hmoved⟩ | ⟨w, v', k₁, rfl, hclose⟩ := step_moved hstep
      · exact ih (hpasses.sameOpen hmoved.sameOpen) h
      · cases h
        exact close_opened hpasses (SameOpen.refl _) hclose

theorem execSget_sameOpen {line : Line δ} {fuel : Nat} {v : Int}
    (h : execSget k cmd line fuel = .ok (v, k')) : SameOpen k k' := by
  simp only [execSget, bind_eq_ok, Prod.exists] at h
  obtain ⟨path, -, fd, k₁, hopen, h⟩ := h
  rcases openFile_opens hopen with ⟨rfl, hsame⟩ | ⟨n, rfl, hopened⟩
  · cases h
    exact hsame
  · rw [if_neg (by omega)] at h
    simp only [bind_eq_ok] at h
    obtain ⟨k₂, hprint, h⟩ := h
    exact run_sameOpen (hopened.sameOpen (print_sameOpen hprint)) h

/-- **`run` leaves its descriptor open**, whenever it returns. -/
theorem execRun_opens {outside : Outside δ} {v : Int}
    (h : execRun k cmd outside = .ok (v, k')) : ∃ n, OpenedOne k k' n := by
  simp only [execRun, bind_eq_ok, Prod.exists] at h
  obtain ⟨path, -, fd, k₁, hopen, h⟩ := h
  rcases openFile_opens hopen with ⟨rfl, -⟩ | ⟨n, rfl, hopened⟩
  · cases h
  · rw [if_neg (by omega)] at h
    simp only [bind_eq_ok, Prod.exists] at h
    obtain ⟨m, header, k₂, hread, h⟩ := h
    split at h
    · simp only [bind_eq_ok, Prod.exists] at h
      obtain ⟨r, k₃, hseek, m', program, k₄, hread', dev, -, h⟩ := h
      cases h
      have hsame := ((read_moved hread).sameOpen.trans (seek_sameOpen hseek)).trans
        (read_moved hread').sameOpen
      exact ⟨n, hopened.sameOpen hsame⟩
    · cases h

/-- **Every command but `run` leaves the descriptors as they were.** -/
theorem Command.exec_sameOpen {command : Command} {out v : Int} {outside : Outside δ}
    (hrun : command ≠ .run) (h : command.exec k out cmd outside = .ok (v, k')) :
    SameOpen k k' := by
  cases command with
  | exit =>
      cases h
      exact SameOpen.refl k
  | help =>
      simp only [Command.exec, bind_eq_ok] at h
      obtain ⟨k₁, hprint, h⟩ := h
      cases h
      exact print_sameOpen hprint
  | ls => exact execLs_sameOpen h
  | cat => exact execCat_sameOpen h
  | echo => exact execEcho_sameOpen h
  | touch =>
      simp only [Command.exec, execTouch, bind_eq_ok] at h
      obtain ⟨path, -, h⟩ := h
      exact createFiletype_sameOpen h
  | rm =>
      simp only [Command.exec, execRm, bind_eq_ok] at h
      obtain ⟨path, -, h⟩ := h
      exact unlink_sameOpen h
  | mkdir =>
      simp only [Command.exec, execMkdir, bind_eq_ok] at h
      obtain ⟨path, -, h⟩ := h
      exact createFiletype_sameOpen h
  | sget => exact execSget_sameOpen h
  | run => exact absurd rfl hrun
  | unknown =>
      simp only [Command.exec, bind_eq_ok] at h
      obtain ⟨k₁, hprint, h⟩ := h
      cases h
      exact print_sameOpen hprint

/-! ## Before and after a command -/

theorem reportError_sameOpen {exitCode : Int} {errorMsg : CString}
    (h : reportError k exitCode errorMsg = .ok k') : SameOpen k k' := by
  rw [reportError] at h
  split at h
  · simp only [bind_eq_ok, Prod.exists] at h
    obtain ⟨n, k₁, hwrite, h⟩ := h
    cases h
    exact write_sameOpen hwrite
  · cases h
    exact SameOpen.refl k

/-- The kernel `k₁` has opened `out` for a redirection of a line, if it has one. -/
def Redirected (k k₁ : Kernel δ) (out : Int) : Prop :=
  out = stdout ∧ SameOpen k k₁ ∨ out ≠ stdout ∧ ∃ n : Nat, out = n ∧ OpenedOne k k₁ n

/-- With the terminal open, a redirection opens another descriptor than that of the terminal,
or nothing. -/
theorem openRedirection_opens (hstdout : k.fs.globalFdTable.marked 0 = true)
    (h : openRedirection k cmd = .ok (fd, k')) :
    fd = -1 ∧ SameOpen k k' ∨ Redirected k k' fd := by
  simp only [openRedirection, bind_eq_ok] at h
  obtain ⟨found, -, h⟩ := h
  split at h
  · simp only [bind_eq_ok] at h
    obtain ⟨path, -, h⟩ := h
    rcases openFile_opens h with hfail | ⟨n, hn, hopened⟩
    · exact .inl hfail
    · refine .inr (.inr ⟨?_, n, hn, hopened⟩)
      rintro rfl
      obtain rfl : n = 0 := Int.ofNat_eq_zero.mp hn.symm
      rw [hopened.free] at hstdout
      cases hstdout
  · cases h
    exact .inr (.inl ⟨rfl, SameOpen.refl k⟩)

section

variable {out : Int}

/-- What was opened for a redirection is closed. -/
theorem Redirected.close_sameOpen (hr : Redirected k k₁ out) (hsame : SameOpen k₁ k₂)
    (h : closeRedirection k₂ out = .ok k') : SameOpen k k' := by
  rw [closeRedirection] at h
  rcases hr with ⟨rfl, hk₁⟩ | ⟨hn, n, rfl, hopened⟩
  · cases h
    exact hk₁.trans hsame
  · rw [if_pos hn] at h
    simp only [bind_eq_ok, Prod.exists] at h
    obtain ⟨v, k₃, hclose, h⟩ := h
    cases h
    exact close_opened hopened hsame hclose

/-- What a command has left open is not. -/
theorem Redirected.close_openedOne {m : Nat} (hr : Redirected k k₁ out)
    (hm : OpenedOne k₁ k₂ m) (h : closeRedirection k₂ out = .ok k') : OpenedOne k k' m := by
  rw [closeRedirection] at h
  rcases hr with ⟨rfl, hk₁⟩ | ⟨hn, n, rfl, hopened⟩
  · cases h
    exact hk₁.openedOne hm
  · rw [if_pos hn] at h
    simp only [bind_eq_ok, Prod.exists] at h
    obtain ⟨v, k₃, hclose, h⟩ := h
    cases h
    exact close_other hopened hm hclose

end

end

/-! ## Lines -/

section

variable {δ : Type} {s s' : ShellState δ} {live : LiveBlocks} {line : CString}
  {outside : Outside δ}

/-- What processing a line does to the descriptors: it is an `exit`, it leaves them as they
were, or it is a `run` that has left one open. -/
theorem Processed.opens (hstdout : s.k.fs.globalFdTable.marked 0 = true)
    (h : Processed s live line outside s') :
    lineCommand line = .exit ∧ s'.exited = true ∨
      (lineCommand line ≠ .run ∨ s.redirects line = false) ∧ SameOpen s.k s'.k ∨
      (lineCommand line = .run ∧ s.redirects line = true) ∧ ∃ m, OpenedOne s.k s'.k m := by
  cases h with
  | @refused cmd heap live₁ placed k₂ k₃ k₄ _ hno hopen hprint hprint' =>
      have hk₂ : SameOpen s.k k₂ := by
        rcases openRedirection_opens (k := { s.k with heap := heap }) hstdout hopen with
          ⟨-, hsame⟩ | ⟨heq, -⟩ | ⟨-, n, heq, -⟩
        · exact fun fd ↦ hsame fd
        · cases heq
        · exact absurd heq (by omega)
      have hsame := (hk₂.trans (print_sameOpen hprint)).trans (print_sameOpen hprint')
      exact .inr (.inl ⟨.inr hno, hsame⟩)
  | exited _ hcommand => exact .inl ⟨hcommand, rfl⟩
  | @executed cmd heap live₁ placed out code k₂ k₃ k₄ _ hred hopen hne _ hexec _ hfinish =>
      have hr := (openRedirection_opens (k := { s.k with heap := heap }) hstdout
        hopen).resolve_left fun hfail ↦ hne hfail.1
      simp only [finishCommand, bind_eq_ok] at hfinish
      obtain ⟨k₅, hclose, k₆, hreport, heap₇, -, hprint⟩ := hfinish
      have hafter : SameOpen k₅ k₄ := by
        have hlast : SameOpen k₆ k₄ := fun fd ↦ print_sameOpen hprint fd
        exact (reportError_sameOpen hreport).trans hlast
      by_cases hrun : lineCommand line = .run
      · -- the descriptor of the program stays open
        rw [hrun] at hexec
        obtain ⟨m, hm⟩ := execRun_opens hexec
        have hone := (hr.close_openedOne hm hclose).sameOpen hafter
        exact .inr (.inr ⟨⟨hrun, hred⟩, m, hone.lt, hone.free, hone.marked⟩)
      · have hsame := (hr.close_sameOpen (Command.exec_sameOpen hrun hexec) hclose).trans hafter
        exact .inr (.inl ⟨.inl hrun, fun fd ↦ hsame fd⟩)

/-- **What a line leaves open.**  With the terminal open, a line that is no `exit` leaves the
descriptors as they were exactly when no program is run: the line is no `run`, or its
redirection fails. -/
theorem Processed.sameOpen_iff (hstdout : s.k.fs.globalFdTable.marked 0 = true)
    (hexit : lineCommand line ≠ .exit) (h : Processed s live line outside s') :
    SameOpen s.k s'.k ↔ lineCommand line ≠ .run ∨ s.redirects line = false := by
  rcases h.opens hstdout with ⟨hcommand, -⟩ | ⟨hno, hsame⟩ | ⟨⟨hrun, hred⟩, m, hone⟩
  · exact absurd hcommand hexit
  · exact iff_of_true hsame hno
  · refine iff_of_false hone.not_sameOpen ?_
    rintro (hnot | hno)
    · exact hnot hrun
    · rw [hred] at hno
      cases hno

/-- As long as the shell goes on, the terminal stays open. -/
theorem Processed.stdout (hstdout : s.k.fs.globalFdTable.marked 0 = true)
    (h : Processed s live line outside s') (hexited : s'.exited = false) :
    s'.k.fs.globalFdTable.marked 0 = true := by
  rcases h.opens hstdout with ⟨-, hexit⟩ | ⟨-, hsame⟩ | ⟨-, m, hone⟩
  · rw [hexited] at hexit
    cases hexit
  · exact (hsame 0).trans hstdout
  · rw [hone.marked, hstdout, ite_self]

/-! ## Sessions -/

theorem typeChar_sameOpen {c : UInt8} (h : s.typeChar c = .ok s') : SameOpen s.k s'.k := by
  rw [ShellState.typeChar] at h
  split at h
  · split at h
    · simp only [bind_eq_ok] at h
      obtain ⟨k₁, hprint, h⟩ := h
      cases h
      exact print_sameOpen hprint
    · cases h
      exact SameOpen.refl _
  · simp only [bind_eq_ok, Prod.exists] at h
    obtain ⟨n, k₁, hwrite, h⟩ := h
    have hsame := write_sameOpen hwrite
    split at h
    · simp only [bind_eq_ok, Prod.exists] at h
      obtain ⟨curr, heap, -, h⟩ := h
      cases h
      exact fun fd ↦ hsame fd
    · split at h
      · simp only [bind_eq_ok] at h
        obtain ⟨k₂, hprint, h⟩ := h
        cases h
        exact hsame.trans (print_sameOpen hprint)
      · simp only [bind_eq_ok, Prod.exists] at h
        obtain ⟨curr, heap, -, text, -, h⟩ := h
        cases h
        exact fun fd ↦ hsame fd

/-- The shell between its calls: the terminal is open, and the buffer holds some line, or one
is being processed.  The buffer does not start with a terminator. -/
structure Steady (s : ShellState δ) (live : LiveBlocks) : Prop where
  inv : HeapInv s.k.heap.allocator live
  bottom : s.k.heap.allocator.bottom + scannedBits < 2 ^ 32
  stdout : s.k.fs.globalFdTable.marked 0 = true
  typing : s.pending = none → ∃ bytes, bytes.head? ≠ some 0 ∧
    Edits s.k.heap live s.currCommand bytes
  processing : ∀ line, s.pending = some line → line.chars ≠ [] ∧ ∃ bytes, bytes.head? ≠ some 0 ∧
    Stored s.k.heap live 1 s.currCommand bytes

/-- A string that does not start with its terminator is not empty. -/
theorem chars_ne_nil {h : KernelHeap} {curr : HeapString} {bytes : List UInt8} {text : CString}
    (hs : Stored h live 1 curr bytes) (hne : bytes ≠ []) (hhead : bytes.head? ≠ some 0)
    (htext : heapString h curr.contents = .ok text) : text.chars ≠ [] := by
  intro hnil
  have hstring := isString_of_heapString htext
  rw [hnil, Bytes.isString_nil] at hstring
  have hpos := List.length_pos_of_ne_nil hne
  have hfirst : (h.mem.drop curr.contents) 0 = bytes[0] := by
    rw [Bytes.eq_ofList hs.mem hpos, Bytes.ofList_of_lt hpos]
  refine hhead ?_
  rw [List.head?_eq_getElem?, List.getElem?_eq_getElem hpos, ← hfirst, hstring]

/-- No character but NUL puts a terminator at the start of the line. -/
theorem head_editLine {bytes : List UInt8} {c : UInt8} (hhead : bytes.head? ≠ some 0)
    (hc : c ≠ 0) : (editLine bytes c).head? ≠ some 0 := by
  rw [editLine]
  split
  · rw [List.head?_dropLast]
    split
    · exact hhead
    · exact (Option.some_ne_none 0).symm
  · split
    · exact hhead
    · cases bytes with
      | nil => exact fun h ↦ hc (Option.some.inj h)
      | cons b bytes => exact hhead

/-- **Step.**  A character is typed. -/
theorem Steady.typeChar {c : UInt8} (hs : Steady s live) (hnone : s.pending = none) (hc : c ≠ 0)
    (h : s.typeChar c = .ok s') : ∃ live', Steady s' live' := by
  obtain ⟨bytes, hhead, hedits⟩ := hs.typing hnone
  obtain ⟨live', hinv, hbottom, -, htyping⟩ := typeChar_ok hs.inv hedits hnone h
  have hstdout := (typeChar_sameOpen h 0).trans hs.stdout
  have hbottom : s'.k.heap.allocator.bottom + scannedBits < 2 ^ 32 := hbottom ▸ hs.bottom
  cases htyping with
  | edited hnone' _ hedits' =>
      refine ⟨live', hinv, hbottom, hstdout, fun _ ↦ ⟨_, head_editLine hhead hc, hedits'⟩,
        fun line hline ↦ ?_⟩
      rw [hnone'] at hline
      cases hline
  | @handed text hsome _ hne htext hstored =>
      have hhead' : (bytes ++ [0]).head? ≠ some 0 := by
        rw [List.head?_append_of_ne_nil _ hne]
        exact hhead
      refine ⟨live', hinv, hbottom, hstdout, fun hnone' ↦ ?_, fun line hline ↦ ?_⟩
      · rw [hsome] at hnone'
        cases hnone'
      · rw [hsome] at hline
        cases hline
        refine ⟨?_, _, hhead', hstored⟩
        exact chars_ne_nil hstored (List.append_ne_nil_of_left_ne_nil hne _) hhead' htext

/-- **Step.**  A line is processed. -/
theorem Steady.processCommand (hs : Steady s live) (hpending : s.pending = some line)
    (h : s.processCommand line outside = .ok s') (hexited : s'.exited = false) :
    ∃ live', Steady s' live' := by
  obtain ⟨hline, bytes, hhead, hcurr⟩ := hs.processing line hpending
  have hprocessed := processCommand_ok hs.inv hs.bottom hline h
  have hstdout := hprocessed.stdout hs.stdout hexited
  cases hred : s.redirects line with
  | true =>
      -- the buffer is empty behind the command
      have hrunning : Running s live ⟨[], []⟩ := by
        refine ⟨hs.inv, hs.bottom, fun hnone ↦ ?_, fun line' hline' ↦ ?_⟩
        · rw [hpending] at hnone
          cases hnone
        · rw [hpending] at hline'
          cases hline'
          exact ⟨hline, rfl, bytes, hcurr⟩
      obtain ⟨hnone, hrun⟩ := hrunning.processCommand hpending hred h
      obtain ⟨live', hrun⟩ := hrun hexited
      refine ⟨live', hrun.inv, hrun.bottom, hstdout, fun hnone ↦ ?_, fun line' hline' ↦ ?_⟩
      · exact ⟨[], (Option.some_ne_none 0).symm, hrun.typing hnone⟩
      · rw [hnone] at hline'
        cases hline'
  | false =>
      -- the line stays in the buffer
      cases hprocessed with
      | @refused cmd heap live₁ placed k₂ k₃ k₄ hp _ hopen hprint hprint' =>
          have hkeeps := openRedirection_keeps (k := { s.k with heap := heap }) hp.split.inv hopen
          have hheap : k₄.heap = k₂.heap := (print_heap hprint').trans (print_heap hprint)
          have hstored := (hcurr.frame hp.split.frame not_false).frame hkeeps.frame not_false
          refine ⟨live₁, ?_, ?_, hstdout, fun _ ↦ ⟨bytes, hhead, ?_⟩, fun _ hsome ↦ ?_⟩
          · exact hheap ▸ hkeeps.inv
          · change k₄.heap.allocator.bottom + scannedBits < 2 ^ 32
            rw [hheap, hkeeps.frame.bottom, hp.split.frame.bottom]
            exact hs.bottom
          · exact edits_of_stored (hheap ▸ hstored)
          · cases hsome
      | exited hyes =>
          rw [hred] at hyes
          cases hyes
      | executed _ hyes =>
          rw [hred] at hyes
          cases hyes

end

section

variable {δ : Type} {s s' : Session δ} {ev : SessionEvent δ}

/-- The shell of a user who has typed no NUL is steady, until it exits. -/
def SteadySession (s : Session δ) : Prop :=
  s.shell.exited = false → ∃ live, Steady s.shell live

/-- **Step.**  An event keeps the shell steady. -/
theorem SteadySession.exec {v : Unit} (hs : 0 ∉ s.typed → SteadySession s)
    (h : s.exec ev = .ok (v, s')) (hzero : 0 ∉ s'.typed) : SteadySession s' := by
  have hi := hs fun hmem ↦ hzero (mem_typed_of_exec h hmem)
  cases Session.exec_steps h with
  | devices =>
      intro hexited
      obtain ⟨live, hsteady⟩ := hi hexited
      exact ⟨live, hsteady.inv, hsteady.bottom, hsteady.stdout, hsteady.typing,
        hsteady.processing⟩
  | exited => exact hi
  | processed hexited hpending hprocess =>
      obtain ⟨live, hsteady⟩ := hi hexited
      exact hsteady.processCommand hpending hprocess
  | read hexited hnone hread =>
      obtain ⟨live, hsteady⟩ := hi hexited
      simp only [ShellState.readCommand, bind_eq_ok, Prod.exists] at hread
      obtain ⟨c, k, hread, h⟩ := hread
      have hheap := readChar_heap hread
      have hsteady' : Steady { s.shell with k := k } live := by
        refine ⟨hheap ▸ hsteady.inv, ?_, ?_, ?_, ?_⟩
        · exact hheap ▸ hsteady.bottom
        · exact ((readChar_moved hread).marked 0).trans hsteady.stdout
        · exact hheap ▸ hsteady.typing
        · exact hheap ▸ hsteady.processing
      split at h
      · simp only [bind_eq_ok] at h
        obtain ⟨s₁, htype, h⟩ := h
        cases h
        refine fun _ ↦ hsteady'.typeChar hnone ?_ htype
        rintro rfl
        exact hzero (List.mem_append_right _ (List.mem_singleton_self 0))
      · cases h
        exact fun _ ↦ ⟨live, hsteady'⟩

/-- The shell comes to its loop steady. -/
theorem steadySession_start {k : Kernel δ} {shell : ShellState δ} {live : LiveBlocks}
    (hinv : HeapInv k.heap.allocator live)
    (hbottom : k.heap.allocator.bottom + scannedBits < 2 ^ 32)
    (hstdout : k.fs.globalFdTable.marked 0 = true) (h : shellStart k = .ok shell) :
    SteadySession (Session.start shell) := by
  intro hexited
  obtain ⟨live', hrun⟩ := (sessionInv_start hinv hbottom h).running hexited
  simp only [shellStart, bind_eq_ok, Prod.exists] at h
  obtain ⟨workingDir, heap, -, k₁, hprint, h⟩ := h
  cases h
  refine ⟨live', hrun.inv, hrun.bottom, (print_sameOpen hprint 0).trans hstdout,
    fun hnone ↦ ⟨[], (Option.some_ne_none 0).symm, hrun.typing hnone⟩, fun _ hsome ↦ ?_⟩
  cases hsome

theorem steadySession_of_reaches {k : Kernel δ} {shell : ShellState δ} {live : LiveBlocks}
    (hinv : HeapInv k.heap.allocator live)
    (hbottom : k.heap.allocator.bottom + scannedBits < 2 ^ 32)
    (hstdout : k.fs.globalFdTable.marked 0 = true) (hstart : shellStart k = .ok shell)
    (h : Reaches Session.exec (fun _ _ ↦ True) (Session.start shell) s) (hzero : 0 ∉ s.typed) :
    SteadySession s := by
  have hsteady : 0 ∉ s.typed → SteadySession s :=
    h.invariant (I := fun s ↦ 0 ∉ s.typed → SteadySession s)
      (fun _ ↦ steadySession_start hinv hbottom hstdout hstart)
      fun hs _ hx ↦ SteadySession.exec hs hx
  exact hsteady hzero

/-- **Descriptors are conserved but for programs.**  Whatever has happened in a session, the
descriptors that are allocated after a line that is no `exit` are those from before it exactly
when it runs no program: it is no `run`, or its redirection fails. -/
theorem openDescriptors_eq_iff_of_reaches {k : Kernel δ} {shell s' : ShellState δ}
    {live : LiveBlocks} {line : CString} {outside : Outside δ}
    (hinv : HeapInv k.heap.allocator live)
    (hbottom : k.heap.allocator.bottom + scannedBits < 2 ^ 32)
    (hstdout : k.fs.globalFdTable.marked 0 = true) (hstart : shellStart k = .ok shell)
    (h : Reaches Session.exec (fun _ _ ↦ True) (Session.start shell) s) (hzero : 0 ∉ s.typed)
    (hexited : s.shell.exited = false) (hpending : s.shell.pending = some line)
    (hexit : lineCommand line ≠ .exit) (hprocess : s.shell.processCommand line outside = .ok s') :
    openDescriptors s'.k = openDescriptors s.shell.k ↔
      lineCommand line ≠ .run ∨ s.shell.redirects line = false := by
  obtain ⟨live', hs⟩ := steadySession_of_reaches hinv hbottom hstdout hstart h hzero hexited
  have hline := (hs.processing line hpending).1
  rw [openDescriptors_eq_iff]
  exact (processCommand_ok hs.inv hs.bottom hline hprocess).sameOpen_iff hs.stdout hexit

end

/-! ## Two lines -/

/-- On the machine whose disk was formatted, a user has typed these lines, and the shell is
processing the last. -/
def processLast (lines : List String) :
    Option (Session Devices × CString × ShellState Devices) := do
  let shell ← systemShell.toOption
  let s ← runCalls Session.exec (fun _ _ ↦ True) (lines.flatMap typeLine).dropLast
    (Session.start shell)
  let line ← s.shell.pending
  let s' ← (s.shell.processCommand line quietOutside).toOption
  some (s, line, s')

theorem processLast_eq_some {lines : List String} {s : Session Devices} {line : CString}
    {s' : ShellState Devices} (h : processLast lines = some (s, line, s')) :
    ∃ shell, systemShell = .ok shell ∧
      Reaches Session.exec (fun _ _ ↦ True) (Session.start shell) s ∧
      s.shell.pending = some line ∧ s.shell.processCommand line quietOutside = .ok s' := by
  simp only [processLast, Option.bind_eq_bind, Option.bind_eq_some_iff] at h
  obtain ⟨shell, hshell, s₁, hs, line₁, hline, s₂, hprocess, h⟩ := h
  cases h
  exact ⟨shell, toOption_eq_some.mp hshell, reaches_of_runCalls hs, hline,
    toOption_eq_some.mp hprocess⟩

/-- What the machine is like when its shell starts. -/
theorem systemKernel_steady : (∃ live, HeapInv systemKernel.heap.allocator live) ∧
    systemKernel.heap.allocator.bottom + scannedBits < 2 ^ 32 ∧
    systemKernel.fs.globalFdTable.marked 0 = true := by
  have hsystem : systemKernel.heap.allocator.bottom = 0x400000 ∧
      systemKernel.fs.globalFdTable.marked 0 = true := by
    decide +kernel
  refine ⟨formattedWith_systemKernel.formatted.namespaceInv.heap, ?_, hsystem.2⟩
  rw [hsystem.1]
  decide

/-- A file is listed to another file, and what was opened for it is closed. -/
theorem openDescriptors_redirected : ∃ shell s line s', systemShell = .ok shell ∧
    Reaches Session.exec (fun _ _ ↦ True) (Session.start shell) s ∧
    s.shell.pending = some line ∧ line.chars = ofText "ls / > /a" ∧
    s.shell.processCommand line quietOutside = .ok s' ∧
    openDescriptors s'.k = openDescriptors s.shell.k := by
  have hcheck : (processLast ["touch /a\n", "ls / > /a\n"]).any (fun (s, line, _) ↦
      decide (0 ∉ s.typed ∧ s.shell.exited = false ∧ line.chars = ofText "ls / > /a" ∧
        lineCommand line = .ls)) = true := by
    decide +kernel
  obtain ⟨⟨s, line, s'⟩, hlast, hcheck⟩ := (Option.any_eq_true _ _).mp hcheck
  obtain ⟨hzero, hexited, hline, hcommand⟩ := of_decide_eq_true hcheck
  obtain ⟨shell, hstart, hreach, hpending, hprocess⟩ := processLast_eq_some hlast
  obtain ⟨⟨live, hinv⟩, hbottom, hstdout⟩ := systemKernel_steady
  refine ⟨shell, s, line, s', hstart, hreach, hpending, hline, hprocess, ?_⟩
  refine (openDescriptors_eq_iff_of_reaches hinv hbottom hstdout hstart hreach hzero hexited
    hpending ?_ hprocess).mpr (.inl ?_)
  · rw [hcommand]
    exact Command.noConfusion
  · rw [hcommand]
    exact Command.noConfusion

/-- **`run` leaves a descriptor open.**  The file is empty, so the header is what the stack
held; the program returns at once. -/
theorem openDescriptors_run : ∃ shell s line s', systemShell = .ok shell ∧
    Reaches Session.exec (fun _ _ ↦ True) (Session.start shell) s ∧ 0 ∉ s.typed ∧
    s.shell.exited = false ∧ s.shell.pending = some line ∧ line.chars = ofText "run /a" ∧
    s.shell.processCommand line quietOutside = .ok s' ∧
    openDescriptors s'.k ≠ openDescriptors s.shell.k := by
  have hcheck : (processLast ["touch /a\n", "run /a\n"]).any (fun (s, line, s') ↦
      decide (0 ∉ s.typed ∧ s.shell.exited = false ∧ line.chars = ofText "run /a" ∧
        s'.k.fs.globalFdTable.marked 2 ≠ s.shell.k.fs.globalFdTable.marked 2)) = true := by
    decide +kernel
  obtain ⟨⟨s, line, s'⟩, hlast, hcheck⟩ := (Option.any_eq_true _ _).mp hcheck
  obtain ⟨hzero, hexited, hline, hmarked⟩ := of_decide_eq_true hcheck
  obtain ⟨shell, hstart, hreach, hpending, hprocess⟩ := processLast_eq_some hlast
  refine ⟨shell, s, line, s', hstart, hreach, hzero, hexited, hpending, hline, hprocess,
    fun heq ↦ hmarked ?_⟩
  exact openDescriptors_eq_iff.mp heq 2

end Yorha.Shell
