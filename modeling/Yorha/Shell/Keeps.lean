import Yorha.Fs.Returns
import Yorha.Shell.Loop

/-!
# Commands and the heap

No command of the shell changes a block of the heap that was live before it: what a command
takes it gives back before it returns, and it writes to no other block.  Most calls do not
touch the heap at all; the paths of the others, and the listing of a directory, come and go.
-/

namespace Yorha.Shell

open Yorha.Lib Yorha.Str Yorha.Heap
open Yorha.Fs hiding read write

variable {δ : Type} {k k₁ k' : Kernel δ} {live : LiveBlocks} {cmd : StringList} {fd : Int}

/-! ## Moving bytes -/

/-- Bytes were moved: the heap is as before, and the same descriptors are open. -/
structure Moved (k k' : Kernel δ) : Prop where
  heap : k'.heap = k.heap
  marked : ∀ fd, k'.fs.globalFdTable.marked fd = k.fs.globalFdTable.marked fd

theorem Moved.refl (k : Kernel δ) : Moved k k := ⟨rfl, fun _ ↦ rfl⟩

theorem Moved.trans (h : Moved k k₁) (h' : Moved k₁ k') : Moved k k' :=
  ⟨h'.heap.trans h.heap, fun fd ↦ (h'.marked fd).trans (h.marked fd)⟩

theorem read_moved {buf : Bytes} {count : Nat} {v : Nat × Bytes}
    (h : Fs.read k fd buf count = .ok (v, k')) : Moved k k' := by
  obtain ⟨t, ht, hmoved, -⟩ := read_ok h
  refine ⟨read_heap h, fun n ↦ ?_⟩
  rw [ht]
  exact hmoved.marked n

theorem write_moved {buf : Bytes} {count v : Nat} (h : Fs.write k fd buf count = .ok (v, k')) :
    Moved k k' := by
  refine ⟨write_heap h, fun n ↦ ?_⟩
  obtain ⟨m, -, -, ⟨-, hfs⟩ | ⟨-, -, hwrote⟩⟩ := write_ok h
  · rw [hfs]
  · rw [hwrote.table]
    rfl

theorem print_moved {text : String} {count : Nat} (h : print k fd text count = .ok k') :
    Moved k k' := by
  simp only [print, bind_eq_ok, Prod.exists] at h
  obtain ⟨n, k₁, hw, h⟩ := h
  cases h
  exact write_moved hw

theorem readChar_moved {c : Option UInt8} (h : readChar k fd = .ok (c, k')) : Moved k k' := by
  simp only [readChar, bind_eq_ok, Prod.exists] at h
  obtain ⟨n, buf, k₁, hr, h⟩ := h
  cases h
  exact read_moved hr

theorem print_heap {text : String} {count : Nat} (h : print k fd text count = .ok k') :
    k'.heap = k.heap := (print_moved h).heap

theorem readChar_heap {c : Option UInt8} (h : readChar k fd = .ok (c, k')) :
    k'.heap = k.heap := (readChar_moved h).heap

theorem catByte_moved {out : Int} {c : UInt8} (h : catByte k out cmd c = .ok k') :
    Moved k k' := by
  simp only [catByte, bind_eq_ok] at h
  obtain ⟨dump, -, h⟩ := h
  split at h
  · simp only [bind_eq_ok, Prod.exists] at h
    obtain ⟨k₁, h₁, top, -, n₂, k₂, h₂, bottom, -, n₃, k₃, h₃, h⟩ := h
    cases h
    exact ((print_moved h₁).trans (write_moved h₂)).trans (write_moved h₃)
  · simp only [bind_eq_ok, Prod.exists] at h
    obtain ⟨n₁, k₁, h₁, h⟩ := h
    cases h
    exact write_moved h₁

theorem catLoop_moved {out : Int} {fuel : Nat} (h : catLoop fd out cmd fuel k = .ok k') :
    Moved k k' := by
  induction fuel generalizing k with
  | zero => cases h
  | succ fuel ih =>
      simp only [catLoop, bind_eq_ok, Prod.exists] at h
      obtain ⟨c, k₁, hread, h⟩ := h
      have hmoved := readChar_moved hread
      split at h
      · simp only [bind_eq_ok] at h
        obtain ⟨k₂, hbyte, h⟩ := h
        exact (hmoved.trans (catByte_moved hbyte)).trans (ih h)
      · cases h
        exact hmoved

/-- **Step.**  As long as `exec_sget` goes on it moves bytes, and it returns when it has closed
its descriptor. -/
theorem step_moved {line : Line δ} {s : Sget δ} {r : Sget δ ⊕ (Int × Kernel δ)}
    (h : s.step line fd = .ok r) :
    (∃ s', r = .inl s' ∧ Moved s.k s'.k) ∨
      ∃ v v' k', r = .inr (v, k') ∧ close s.k fd = .ok (v', k') := by
  rw [Sget.step] at h
  split at h
  · -- at the top
    split at h
    · simp only [bind_eq_ok, Prod.exists] at h
      obtain ⟨v, k₁, hclose, h⟩ := h
      cases h
      exact .inr ⟨_, v, k₁, rfl, hclose⟩
    · cases h
      exact .inl ⟨_, rfl, Moved.refl _⟩
  · -- reading the size
    simp only [bind_eq_ok, Prod.exists] at h
    obtain ⟨c, k₁, hread, h⟩ := h
    have hmoved := readChar_moved hread
    split at h
    · split at h
      · cases h
        exact .inl ⟨_, rfl, hmoved⟩
      · cases h
    · split at h
      · simp only [bind_eq_ok, Prod.exists] at h
        obtain ⟨k₂, hprint, n, k₃, hwrite, h⟩ := h
        cases h
        exact .inl ⟨_, rfl, (hmoved.trans (print_moved hprint)).trans (write_moved hwrite)⟩
      · cases h
        exact .inl ⟨_, rfl, hmoved⟩
  · -- reading the file
    simp only [bind_eq_ok, Prod.exists] at h
    obtain ⟨c, k₁, hread, h⟩ := h
    have hmoved := readChar_moved hread
    split at h
    · cases h
      exact .inl ⟨_, rfl, hmoved⟩
    · cases h
      exact .inl ⟨_, rfl, hmoved⟩
  · -- writing a character
    simp only [bind_eq_ok, Prod.exists] at h
    obtain ⟨n, k₁, hwrite, h⟩ := h
    have hmoved := write_moved hwrite
    split at h
    · cases h
      exact .inl ⟨_, rfl, hmoved⟩
    · rw [if_neg (toNat_ne_stackAddress _ _)] at h
      cases h
      exact .inl ⟨_, rfl, hmoved⟩

theorem run_heap {line : Line δ} {fuel n : Nat} {s : Sget δ} {v : Int}
    (h : s.run line fd fuel n = .ok (v, k')) : k'.heap = s.k.heap := by
  induction fuel generalizing n s with
  | zero => cases h
  | succ fuel ih =>
      simp only [Sget.run, bind_eq_ok] at h
      obtain ⟨r, hstep, h⟩ := h
      obtain ⟨s', rfl, hmoved⟩ | ⟨w, v', k₁, rfl, hclose⟩ := step_moved hstep
      · exact (ih h).trans hmoved.heap
      · have hheap : k₁.heap = (line.passes n s).k.heap := close_heap hclose
        cases h
        exact hheap

/-! ## Commands -/

/-- A block that is taken, written and given back. -/
theorem keeps_of_block {h : KernelHeap} {a a' : AllocArray} {mem : Bytes} {p n : Nat}
    (hinv : HeapInv h.allocator live) (hm : kmalloc h.allocator n = .ok (p, a))
    (hmem : ∀ i, ¬ (p ≤ i ∧ i < p + n) → mem i = h.mem i) (hf : kfree a p = .ok a') :
    Keeps h ⟨a', mem⟩ live := by
  have hpos := kmalloc_pos hm
  have hfresh := hinv.kmalloc_fresh hpos hm
  have hinv₁ := hinv.kmalloc hpos hm
  have hp := Function.update_self p (some n) live
  obtain ⟨slot, start, ha, -⟩ := kmalloc_ok hpos hm
  obtain ⟨a₂, hf₂, hbottom, hinv₂, -⟩ := hinv₁.kfree_live hp
  rw [hf] at hf₂
  cases hf₂
  rw [Function.update_idem, ← hfresh, Function.update_eq_self] at hinv₂
  refine ⟨hinv₂, fun hq _ ↦ hq, fun {q m i} hq _ hi ↦ hmem _ ?_, hbottom.trans ha.bottom⟩
  have hqp := ne_of_fresh hfresh hq
  exact HeapInv.apart (h := ⟨a, h.mem⟩) hinv₁ ((Function.update_of_ne hqp _ _).trans hq) hp hqp
    (Nat.le_add_right q i) (Nat.add_lt_add_left hi q)

/-- What `str_list_dir` takes and writes. -/
theorem strListDir_ok {path : CString} {ptr : Option Nat}
    (h : strListDir k path = .ok (ptr, k')) :
    ptr = none ∧ k' = k ∨ ∃ p n a mem, ptr = some p ∧ k'.heap = ⟨a, mem⟩ ∧
      kmalloc k.heap.allocator n = .ok (p, a) ∧
      ∀ i, ¬ (p ≤ i ∧ i < p + n) → mem i = k.heap.mem i := by
  simp only [strListDir, bind_eq_ok] at h
  obtain ⟨d, -, h⟩ := h
  split at h
  · cases h
    exact .inl ⟨rfl, rfl⟩
  · simp only [bind_eq_ok, Prod.exists] at h
    obtain ⟨inode, -, p, a, hm, text, -, h⟩ := h
    split at h
    · rename_i hlen
      cases h
      refine .inr ⟨p, _, a, _, rfl, rfl, hm, fun i hi ↦ Bytes.splice_of_notMem fun hin ↦ hi ?_⟩
      rw [List.length_append, List.length_singleton] at hin
      exact ⟨hin.1, lt_of_lt_of_le hin.2 (Nat.add_le_add_left hlen p)⟩
    · cases h

theorem execLs_keeps {out v : Int} (hinv : HeapInv k.heap.allocator live)
    (h : execLs k out cmd = .ok (v, k')) : Keeps k.heap k'.heap live := by
  simp only [execLs, bind_eq_ok, Prod.exists] at h
  obtain ⟨path, -, ptr, k₁, hlist, h⟩ := h
  rcases strListDir_ok hlist with ⟨rfl, rfl⟩ | ⟨p, n, a, mem, rfl, hheap, hm, hmem⟩
  · cases h
    exact Keeps.refl hinv
  · simp only [bind_eq_ok, Prod.exists] at h
    obtain ⟨text, -, count, k₂, hwrite, a', hfree, h⟩ := h
    cases h
    rw [write_heap hwrite, hheap] at hfree
    rw [write_heap hwrite, hheap]
    exact keeps_of_block hinv hm hmem hfree

theorem execCat_keeps {out v : Int} {fuel : Nat} (hinv : HeapInv k.heap.allocator live)
    (h : execCat k out cmd fuel = .ok (v, k')) : Keeps k.heap k'.heap live := by
  simp only [execCat, bind_eq_ok, Prod.exists] at h
  obtain ⟨path, -, fd, k₁, hopen, h⟩ := h
  have hkeeps := (openFile_heap hinv hopen).2
  split at h
  · cases h
    exact hkeeps
  · simp only [bind_eq_ok, Prod.exists] at h
    obtain ⟨k₂, hloop, r, k₃, hclose, h⟩ := h
    cases h
    exact hkeeps.trans (keeps_of_heap hkeeps.inv ((close_heap hclose).trans (catLoop_moved hloop).heap))

theorem execEcho_keeps {out v : Int} (hinv : HeapInv k.heap.allocator live)
    (h : execEcho k out cmd = .ok (v, k')) : Keeps k.heap k'.heap live := by
  simp only [execEcho, bind_eq_ok, Prod.exists] at h
  obtain ⟨text, -, n, k₁, hwrite, h⟩ := h
  cases h
  exact keeps_of_heap hinv (write_heap hwrite)

theorem execRm_keeps {v : Int} {past : Bytes} (hinv : HeapInv k.heap.allocator live)
    (h : execRm k cmd past = .ok (v, k')) : Keeps k.heap k'.heap live := by
  simp only [execRm, bind_eq_ok] at h
  obtain ⟨path, -, h⟩ := h
  rcases unlink_ok h with ⟨-, rfl⟩ | ⟨-, hheap, -⟩
  · exact Keeps.refl hinv
  · exact keeps_of_heap hinv hheap

theorem execSget_keeps {v : Int} {line : Line δ} {fuel : Nat}
    (hinv : HeapInv k.heap.allocator live) (h : execSget k cmd line fuel = .ok (v, k')) :
    Keeps k.heap k'.heap live := by
  simp only [execSget, bind_eq_ok, Prod.exists] at h
  obtain ⟨path, -, fd, k₁, hopen, h⟩ := h
  have hkeeps := (openFile_heap hinv hopen).2
  split at h
  · cases h
    exact hkeeps
  · simp only [bind_eq_ok] at h
    obtain ⟨k₂, hprint, h⟩ := h
    exact hkeeps.trans (keeps_of_heap hkeeps.inv ((run_heap h).trans (print_heap hprint)))

theorem execRun_keeps {v : Int} {outside : Outside δ} (hinv : HeapInv k.heap.allocator live)
    (h : execRun k cmd outside = .ok (v, k')) : Keeps k.heap k'.heap live := by
  simp only [execRun, bind_eq_ok, Prod.exists] at h
  obtain ⟨path, -, fd, k₁, hopen, h⟩ := h
  have hkeeps := (openFile_heap hinv hopen).2
  split at h
  · cases h
  · simp only [bind_eq_ok, Prod.exists] at h
    obtain ⟨n, header, k₂, hread, h⟩ := h
    split at h
    · simp only [bind_eq_ok, Prod.exists] at h
      obtain ⟨r, k₃, hseek, n', program, k₄, hread', dev, -, h⟩ := h
      cases h
      exact hkeeps.trans (keeps_of_heap hkeeps.inv
        (((read_heap hread').trans (seek_heap hseek)).trans (read_heap hread)))
    · cases h

/-- **No command changes a block that was live before it.** -/
theorem Command.exec_keeps {command : Command} {out v : Int} {outside : Outside δ}
    (hinv : HeapInv k.heap.allocator live)
    (h : command.exec k out cmd outside = .ok (v, k')) : Keeps k.heap k'.heap live := by
  cases command with
  | exit =>
      cases h
      exact Keeps.refl hinv
  | help =>
      simp only [Command.exec, bind_eq_ok] at h
      obtain ⟨k₁, hprint, h⟩ := h
      cases h
      exact keeps_of_heap hinv (print_heap hprint)
  | ls => exact execLs_keeps hinv h
  | cat => exact execCat_keeps hinv h
  | echo => exact execEcho_keeps hinv h
  | touch =>
      simp only [Command.exec, execTouch, bind_eq_ok] at h
      obtain ⟨path, -, h⟩ := h
      exact (createFiletype_heap hinv h).2
  | rm => exact execRm_keeps hinv h
  | mkdir =>
      simp only [Command.exec, execMkdir, bind_eq_ok] at h
      obtain ⟨path, -, h⟩ := h
      exact (createFiletype_heap hinv h).2
  | sget => exact execSget_keeps hinv h
  | run => exact execRun_keeps hinv h
  | unknown =>
      simp only [Command.exec, bind_eq_ok] at h
      obtain ⟨k₁, hprint, h⟩ := h
      cases h
      exact keeps_of_heap hinv (print_heap hprint)

/-! ## Before and after a command -/

theorem closeRedirection_heap {out : Int} (h : closeRedirection k out = .ok k') :
    k'.heap = k.heap := by
  rw [closeRedirection] at h
  split at h
  · simp only [bind_eq_ok, Prod.exists] at h
    obtain ⟨v, k₁, hclose, h⟩ := h
    cases h
    exact close_heap hclose
  · cases h
    rfl

theorem reportError_heap {exitCode : Int} {errorMsg : CString}
    (h : reportError k exitCode errorMsg = .ok k') : k'.heap = k.heap := by
  rw [reportError] at h
  split at h
  · simp only [bind_eq_ok, Prod.exists] at h
    obtain ⟨n, k₁, hwrite, h⟩ := h
    cases h
    exact write_heap hwrite
  · cases h
    rfl

/-- Looking for a redirection and opening it keeps all blocks. -/
theorem openRedirection_keeps {v : Int} (hinv : HeapInv k.heap.allocator live)
    (h : openRedirection k cmd = .ok (v, k')) : Keeps k.heap k'.heap live := by
  simp only [openRedirection, bind_eq_ok] at h
  obtain ⟨found, -, h⟩ := h
  split at h
  · simp only [bind_eq_ok] at h
    obtain ⟨path, -, h⟩ := h
    exact (openFile_heap hinv h).2
  · cases h
    exact Keeps.refl hinv

end Yorha.Shell
