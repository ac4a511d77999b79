import Yorha.Fs.Returns
import Yorha.Fs.Format

/-!
# Paths whose directory is not there

`open`, `unlink` and `list_dir` store what `seek_directory` returns in a `uint32_t`, and use it
as an index of `global_inode_table`.  Only `create_filetype` compares it with -1 first.  Where
the directory part of a path leads nowhere, the index is 4294967295, and none of the three
returns (`unresolved_faults`).

`list_dir` is modelled here.  It writes the listing behind `buf`, which is assumed to have the
room.
-/

namespace Yorha.Fs

open Yorha.Lib Yorha.Str Yorha.Util Yorha.Heap

/-! ## `list_dir` -/

/-- The loop of `list_dir`, over `n` more entries from number `file` on; `pos` is where `buf`
has come to. -/
def listDirLoop (currentDirBuf : Bytes) (path : List UInt8) :
    Nat → Nat → Bytes → Nat → Except Stop Bytes
  | 0, _, buf, _ => .ok buf
  | n + 1, file, buf, pos =>
      if file < dirFileCountMax then do
        let buf := strcpy buf pos path
        let pos := pos + path.length
        let name ← readString (entryName currentDirBuf file) (blockBytes - entryBytes * file)
        let buf := strcpy buf pos name
        let pos := pos + name.length
        listDirLoop currentDirBuf path n (file + 1) (Function.update buf pos 10) (pos + 1)
      else .error .fault

/-- Lists the directory of a path behind `buf`. -/
def listDir (fs : FileSystem) (path : CString) (buf : Bytes) : Except Stop Bytes := do
  let (dirPath, filename) := parsePath path
  if path.chars ≠ [] ∧ filename.chars.length < nameBytes then do
    let dirInodeNum ← seekDirectory fs dirPath.chars
    let dirInode ← fs.readInode (toUint32 dirInodeNum)
    let currentDirBuf := ataReadBlock fs.disk dirInode.dataBlockStart
    listDirLoop currentDirBuf path.chars (dirInode.size / entryBytes) 0 buf 0
  else .error .fault

/-! ## The index -1 -/

variable {δ : Type} {k : Kernel δ} {path : CString} {past buf : Bytes}

/-- The three calls report that the directory of the path is not there, and change nothing. -/
structure ReportsUnresolved (k : Kernel δ) (path : CString) (past buf : Bytes) : Prop where
  openFile : ∃ k', Fs.openFile k path = .ok (-1, k') ∧ k'.fs = k.fs ∧
    Alike k.heap.allocator k'.heap.allocator
  unlink : Fs.unlink k path past = .ok (-1, k)
  listDir : Fs.listDir k.fs path buf = .ok buf

/-- As an index of the table, -1 is far outside. -/
theorem readInode_minusOne (fs : FileSystem) : fs.readInode (toUint32 (-1)) = .error .fault :=
  if_neg (by decide)

theorem searchDir_minusOne (fs : FileSystem) (filename : List UInt8) :
    searchDir fs (toUint32 (-1)) filename = .error .fault := by
  rw [searchDir, readInode_minusOne]
  rfl

/-- With its path copied, `open` indexes the table with -1. -/
theorem openFile_unresolved (h : seekDirectory k.fs (parsePath path).1.chars = .ok (-1))
    {p : ParsedPath × KernelHeap} (hpath : Path k.heap path = .ok p) :
    openFile k path = .error .fault := by
  obtain ⟨parsedPath, heap⟩ := p
  have hdir : parsedPath.dirChars = (parsePath path).1 := (Path_ok hpath).1
  simp only [openFile, hpath, ok_bind, hdir, h, searchDir_minusOne, error_bind]

theorem openFile_ne_ok (h : seekDirectory k.fs (parsePath path).1.chars = .ok (-1))
    (r : Int × Kernel δ) : openFile k path ≠ .ok r := by
  intro hopen
  obtain ⟨p, hpath, -⟩ := bind_eq_ok.mp hopen
  rw [openFile_unresolved h hpath] at hopen
  cases hopen

theorem unlink_unresolved (h : seekDirectory k.fs (parsePath path).1.chars = .ok (-1)) :
    unlink k path past = .error .fault := by
  simp only [unlink]
  split
  · simp only [h, ok_bind, searchDir_minusOne, error_bind]
  · rfl

theorem listDir_unresolved (h : seekDirectory k.fs (parsePath path).1.chars = .ok (-1)) :
    listDir k.fs path buf = .error .fault := by
  simp only [listDir]
  split
  · simp only [h, ok_bind, readInode_minusOne, error_bind]
  · rfl

/-- **A directory that is not there is reported by none of the three calls**: where the
directory part of a path does not resolve, `open` does not return, and `open`, `unlink` and
`list_dir` read behind the inode table. -/
theorem unresolved_faults (k : Kernel δ) (path : CString) (past buf : Bytes)
    (h : seekDirectory k.fs (parsePath path).1.chars = .ok (-1)) :
    (∀ r, openFile k path ≠ .ok r) ∧
    (∀ p, Path k.heap path = .ok p → openFile k path = .error .fault) ∧
    unlink k path past = .error .fault ∧ listDir k.fs path buf = .error .fault ∧
    ¬ ReportsUnresolved k path past buf :=
  ⟨openFile_ne_ok h, fun _ ↦ openFile_unresolved h, unlink_unresolved h, listDir_unresolved h,
    fun hr ↦ by
      obtain ⟨k', hopen, -⟩ := hr.openFile
      exact openFile_ne_ok h _ hopen⟩

/-- A path into a directory that a formatted disk does not have. -/
def nopePath : CString := ⟨ofText "/nope/x", by decide⟩

theorem seekDirectory_nope :
    seekDirectory terminalKernel.fs (parsePath nopePath).1.chars = .ok (-1) := by
  decide +kernel

theorem unresolved_faults_nope :
    unlink terminalKernel nopePath (fun _ ↦ 0) = .error .fault ∧
      listDir terminalKernel.fs nopePath (fun _ ↦ 0) = .error .fault := by
  obtain ⟨-, -, hunlink, hlist, -⟩ :=
    unresolved_faults terminalKernel nopePath (fun _ ↦ 0) (fun _ ↦ 0) seekDirectory_nope
  exact ⟨hunlink, hlist⟩

/-- **On a formatted disk, opening `/nope/x` reads behind the inode table.** -/
theorem nope_faults : Formatted terminalKernel ∧
    seekDirectory terminalKernel.fs (parsePath nopePath).1.chars = .ok (-1) ∧
    stop (openFile terminalKernel nopePath) = some .fault ∧
    ¬ ReportsUnresolved terminalKernel nopePath (fun _ ↦ 0) (fun _ ↦ 0) := by
  have hstop : stop (openFile terminalKernel nopePath) = some .fault := by decide +kernel
  refine ⟨formatted_terminalKernel, seekDirectory_nope, hstop, fun h ↦ ?_⟩
  obtain ⟨k', hopen, -⟩ := h.openFile
  rw [hopen] at hstop
  cases hstop

end Yorha.Fs
