import Yorha.Io.Console
import Yorha.Shell.Descriptors

/-!
# Redirections and the terminal

A redirection `> g` hands a command another descriptor than that of the terminal.  What the
command writes should then be in `g`, and be what it writes to the terminal without the
redirection.

For `ls` and `echo` it is: they write one text, that depends on the first word behind the
command and on the files (`Said`).  `cat` takes the last word of the line for its file, and with
a redirection the last word is `g`: it copies the empty file `g` to itself.  So it is
transparent only when nothing can be read from its file (`redirect_transparent_iff`).
-/

namespace Yorha.Shell

open Yorha.Lib Yorha.Str Yorha.Heap Yorha.Io
open Yorha.Fs hiding read write

variable {δ : Type}

/-! ## What does not depend on descriptors -/

section

variable (fs : FileSystem) (t : FileDescriptorTable)

theorem lookupPath_table (path : List UInt8) :
    lookupPath { fs with globalFdTable := t } path = lookupPath fs path := by
  rw [lookupPath, lookupPath, seekDirectory_table]
  rfl

/-- What `ls` writes for a directory: nothing if it is not there. -/
def listing (fs : FileSystem) (path : List UInt8) : Except Stop (List UInt8) := do
  let dirInodeNum ← seekDirectory fs path
  if dirInodeNum = -1 then .ok []
  else do
    let dirInode ← fs.readInode (toUint32 dirInodeNum)
    listEntries (ataReadBlock fs.disk dirInode.dataBlockStart) path
      (dirInode.size / entryBytes) 0

theorem listing_table (path : List UInt8) :
    listing { fs with globalFdTable := t } path = listing fs path := by
  rw [listing, listing, seekDirectory_table]
  rfl

end

/-- A listing is a string. -/
theorem listEntries_nonzero {buf : Bytes} {path text : List UInt8} (hpath : 0 ∉ path) {n file : Nat}
    (h : listEntries buf path n file = .ok text) : 0 ∉ text := by
  induction n generalizing file text with
  | zero =>
      cases h
      exact List.not_mem_nil
  | succ n ih =>
      rw [listEntries] at h
      split at h
      · simp only [bind_eq_ok] at h
        obtain ⟨name, hname, rest, hrest, h⟩ := h
        cases h
        have hline : 0 ∉ (if file = 0 then [] else ofText "\n") := by
          split
          · exact List.not_mem_nil
          · decide
        simp only [List.mem_append, not_or]
        exact ⟨⟨⟨hline, hpath⟩, (readString_eq_ok.mp hname).2.1⟩, ih hrest⟩
      · cases h

/-! ## Words of a line -/

/-- The words of a list on the heap. -/
structure HasWords (h : KernelHeap) (cmd : StringList) (words : List (List UInt8)) : Prop where
  len : cmd.len = words.length
  stored : ∀ i (hi : i < words.length), ∃ live, Stored h live 1 (cmd.string h i) (words[i] ++ [0])
  nonzero : ∀ word ∈ words, 0 ∉ word

section

variable {k k' : Kernel δ} {cmd : StringList} {words : List (List UInt8)} {out : Int}
  {word text : List UInt8}

/-- Reading a word. -/
theorem HasWords.argument_eq (h : HasWords k.heap cmd words) {i : Nat} (hi : words[i]? = some word)
    {path : CString} (ht : argument k cmd i = .ok path) : path.chars = word := by
  obtain ⟨hlt, rfl⟩ := List.getElem?_eq_some_iff.mp hi
  obtain ⟨live, hs⟩ := h.stored i hlt
  exact heapString_eq hs (h.nonzero _ (List.getElem_mem hlt)) ht

/-- The list of a line that was split has its words, as long as its blocks are kept. -/
theorem Parsed.hasWords {h h' h₁ : KernelHeap} {live live' : LiveBlocks} {line : CString}
    {placed : List (HeapString × List UInt8)} (hp : Parsed h h' live live' line cmd placed)
    (hkeeps : Keeps h' h₁ live') (hbottom : h.allocator.bottom + scannedBits < 2 ^ 32) :
    HasWords h₁ cmd (splitWords space true false line.chars) := by
  have hw := hp.split.words.frame hkeeps.frame (fun _ ↦ not_false) (fun _ _ ↦ not_false)
  have hbottom₁ : h₁.allocator.bottom + scannedBits < 2 ^ 32 := by
    rw [hkeeps.frame.bottom, hp.split.frame.bottom]
    exact hbottom
  rw [← hp.words]
  refine ⟨?_, fun i hi ↦ ?_, fun word hword ↦ ?_⟩
  · rw [List.length_map]
    exact hw.len_eq hp.ne_nil
  · rw [List.length_map] at hi
    rw [hw.string_eq hkeeps.inv hbottom₁ hi, List.getElem_map]
    exact ⟨live', hw.stored _ (List.getElem_mem hi)⟩
  · obtain ⟨p, hmem, rfl⟩ := List.mem_map.mp hword
    exact hp.nonzero p hmem

/-! ## Commands that say one thing -/

/-- All that was done but for the heap is that a text was written, or nothing if it is
empty. -/
inductive Said (k k' : Kernel δ) (out : Int) : List UInt8 → Prop
  | nothing {heap : KernelHeap} : k' = { k with heap := heap } → Said k k' out []
  | text {heap heap' : KernelHeap} {buf : Bytes} {text : List UInt8} {n : Nat} {k₁ : Kernel δ} :
      Fs.write { k with heap := heap } out buf text.length = .ok (n, k₁) →
      buf.take text.length = text → k' = { k₁ with heap := heap' } → Said k k' out text

/-- `echo` says its word. -/
theorem execEcho_said {v : Int} (hw : HasWords k.heap cmd words) (hword : words[1]? = some word)
    (h : execEcho k out cmd = .ok (v, k')) : Said k k' out word := by
  simp only [execEcho, bind_eq_ok, Prod.exists] at h
  obtain ⟨text, htext, n, k₁, hwrite, h⟩ := h
  cases h
  have hchars := hw.argument_eq hword htext
  have hstring := isString_of_heapString htext
  subst hchars
  have hwrite' : Fs.write { k with heap := k.heap } out _ text.chars.length = .ok (n, k') := hwrite
  exact .text hwrite' hstring.take_eq rfl

/-- `ls` says what is in the directory. -/
theorem execLs_said {v : Int} (hw : HasWords k.heap cmd words) (hword : words[1]? = some word)
    (h : execLs k out cmd = .ok (v, k')) :
    ∃ text, listing k.fs word = .ok text ∧ Said k k' out text := by
  simp only [execLs, bind_eq_ok, Prod.exists] at h
  obtain ⟨path, hpath, ptr, k₁, hlist, h⟩ := h
  have hchars := hw.argument_eq hword hpath
  subst hchars
  simp only [strListDir, bind_eq_ok] at hlist
  obtain ⟨d, hseek, hlist⟩ := hlist
  split at hlist
  · rename_i hmissing
    cases hlist
    cases h
    refine ⟨[], ?_, .nothing rfl⟩
    simp only [listing, hseek, ok_bind, if_pos hmissing]
  · rename_i hfound
    simp only [bind_eq_ok, Prod.exists] at hlist
    obtain ⟨inode, hinode, p, a, -, listed, hentries, hlist⟩ := hlist
    split at hlist
    · cases hlist
      simp only [bind_eq_ok, Prod.exists] at h
      obtain ⟨text, htext, n, k₂, hwrite, a', -, h⟩ := h
      cases h
      have hstring := isString_of_heapString htext
      obtain rfl : text.chars = listed :=
        hstring.unique (isString_strcpy _ _ _) text.nonzero (listEntries_nonzero path.nonzero hentries)
      refine ⟨text.chars, ?_, .text hwrite hstring.take_eq rfl⟩
      simp only [listing, hseek, ok_bind, if_neg hfound, hinode, hentries]
    · cases hlist

end

/-! ## Where it is said -/

section

variable {k k' k₁ : Kernel Console} {cmd : StringList} {words : List (List UInt8)}
  {word text : List UInt8} {i n : Nat}

/-- The bytes of a file. -/
def contents (fs : FileSystem) (i : Nat) : List UInt8 := (fs.block i).take (fs.inode i).size

/-- A path leads to an empty normal file. -/
structure EmptyFile (fs : FileSystem) (path : List UInt8) (i : Nat) : Prop where
  lookup : lookupPath fs path = .ok (i : Int)
  normal : fs.IsNormal i
  empty : (fs.inode i).size = 0

/-- Descriptors do not matter for a file. -/
theorem EmptyFile.of_table {fs fs' : FileSystem} {path : List UInt8}
    (h : EmptyFile fs path i) (hfs : ∃ t, fs' = { fs with globalFdTable := t }) :
    EmptyFile fs' path i := by
  obtain ⟨t, rfl⟩ := hfs
  exact ⟨(lookupPath_table fs t path).trans h.lookup, h.normal, h.empty⟩

/-- What is written to the start of an empty file is in it, up to the end of its block. -/
theorem contents_of_wrote {fs fs' : FileSystem} {buf : Bytes} {count : Nat}
    (h : Wrote fs fs' n i buf count) (hpos : (fs.globalFdTable.entry n).writePos = 0)
    (hempty : (fs.inode i).size = 0) : contents fs' i = (buf.take count).take blockBytes := by
  have hcount : accepted 0 count = min blockBytes count := Nat.min_comm _ _
  have hlt : min blockBytes count < 2 ^ 32 := lt_of_le_of_lt (Nat.min_le_left _ _) (by decide)
  have hsize : (fs'.inode i).size = min blockBytes count := by
    rw [h.size_eq, hpos, hempty, hcount]
    simp only [Nat.zero_add, Nat.mod_eq_of_lt hlt]
    split
    · rename_i hzero
      exact hzero.symm
    · rfl
  rw [contents, hsize, Bytes.take_take]
  refine Bytes.take_congr fun j hj ↦ ?_
  rw [h.block_apply, hpos]
  refine if_pos ⟨Nat.zero_le j, ?_⟩
  rw [Nat.zero_add, hcount]
  exact hj

/-- The heap does not matter for the terminal. -/
theorem terminalOpen_heap {heap : KernelHeap} (h : TerminalOpen k) :
    TerminalOpen { k with heap := heap } :=
  h.congr rfl rfl rfl fun _ _ ↦ rfl

/-- What is said to the terminal is recorded. -/
theorem Said.output (hs : Said k k' stdout text) (h : TerminalOpen k) :
    k'.dev.output = k.dev.output ++ text := by
  cases hs with
  | nothing hk' =>
      rw [hk', List.append_nil]
  | text hwrite htake hk' =>
      rw [hk', ((terminalOpen_heap h).write hwrite).1, htake]

/-- Saying something leaves the terminal open. -/
theorem Said.terminalOpen {out : Int} (hs : Said k k' out text) (h : TerminalOpen k) :
    TerminalOpen k' := by
  cases hs with
  | nothing hk' =>
      rw [hk']
      exact terminalOpen_heap h
  | text hwrite _ hk' =>
      rw [hk']
      exact terminalOpen_heap ((terminalOpen_heap h).store hwrite)

/-- **What is said to an empty file is in it**, up to the end of its block. -/
theorem Said.contents (hs : Said k k' n text)
    (hentry : (k.fs.globalFdTable.entry n).inodeNum = i)
    (hpos : (k.fs.globalFdTable.entry n).writePos = 0) (he : EmptyFile k.fs word i) :
    contents k'.fs i = text.take blockBytes := by
  cases hs with
  | nothing hk' =>
      rw [hk', Shell.contents, he.empty]
      rfl
  | text hwrite htake hk' =>
      obtain ⟨m, hm, -, ⟨hspecial, -⟩ | ⟨-, -, hwrote⟩⟩ := write_ok hwrite
      · obtain rfl : n = m := Int.ofNat.inj hm
        exact absurd (hentry ▸ hspecial) he.normal.not_isSpecial
      · obtain rfl : n = m := Int.ofNat.inj hm
        have hcontents := contents_of_wrote (hentry ▸ hwrote) hpos he.empty
        rw [hk', hcontents, htake]

/-! ## Copying a file -/

/-- What is there is written, and leaves the terminal open. -/
theorem writeChar_output {c : UInt8} {v : Nat} (h : TerminalOpen k)
    (hw : writeChar k stdout c = .ok (v, k')) :
    TerminalOpen k' ∧ k'.dev.output = k.dev.output ++ [c] :=
  ⟨h.store hw, (h.write hw).1⟩

/-- The loop of `cat` writes something for every character. -/
theorem catByte_output {c : UInt8} (h : TerminalOpen k) (hc : catByte k stdout cmd c = .ok k') :
    TerminalOpen k' ∧ ∃ text, text ≠ [] ∧ k'.dev.output = k.dev.output ++ text := by
  simp only [catByte, bind_eq_ok] at hc
  obtain ⟨dump, -, hc⟩ := hc
  split at hc
  · simp only [print, bind_eq_ok, Prod.exists] at hc
    obtain ⟨k₁, ⟨n₁, k₁', hprint, hk₁⟩, top, -, n₂, k₂, htop, bottom, -, n₃, k₃, hbottom, hc⟩ := hc
    cases hk₁
    cases hc
    obtain ⟨h₂, hout₂⟩ := writeChar_output (h.store hprint) htop
    obtain ⟨h₃, hout₃⟩ := writeChar_output h₂ hbottom
    refine ⟨h₃, (Bytes.ofList (ofText "\\x")).take 2 ++ ([top] ++ [bottom]), ?_, ?_⟩
    · exact List.append_ne_nil_of_right_ne_nil _ (List.cons_ne_nil _ _)
    · rw [hout₃, hout₂, (h.write hprint).1, List.append_assoc, List.append_assoc]
  · simp only [bind_eq_ok, Prod.exists] at hc
    obtain ⟨n₁, k₁, hwrite, hc⟩ := hc
    cases hc
    obtain ⟨h₁, hout⟩ := writeChar_output h hwrite
    exact ⟨h₁, [c], List.cons_ne_nil _ _, hout⟩

/-- Reading a character records nothing; at the start of a file there is one unless the file is
drained. -/
theorem readChar_output {c : Option UInt8} {fd : Int} (h : TerminalOpen k)
    (hr : readChar k fd = .ok (c, k')) :
    TerminalOpen k' ∧ k'.dev.output = k.dev.output ∧ ∃ m : Nat, fd = m ∧
      ((k.fs.globalFdTable.entry m).readPos = 0 →
        (c = none ↔ Drained k (k.fs.globalFdTable.entry m).inodeNum)) := by
  simp only [readChar, bind_eq_ok, Prod.exists] at hr
  obtain ⟨bytesRead, buf, k₁, hread, hr⟩ := hr
  cases hr
  obtain ⟨houtput, hopen, m, hm, hdrained⟩ := h.read hread
  refine ⟨hopen, houtput, m, hm, fun hpos ↦ ?_⟩
  rw [← hdrained hpos]
  split
  · rename_i hsome
    exact iff_of_false (Option.some_ne_none _) hsome.ne'
  · rename_i hnone
    exact iff_of_true rfl (Nat.eq_zero_of_not_pos hnone)

/-- The loop of `cat` writes something to the terminal unless there is nothing to read. -/
theorem catLoop_output {m fuel : Nat} (h : TerminalOpen k)
    (hl : catLoop m stdout cmd fuel k = .ok k') :
    ∃ text, k'.dev.output = k.dev.output ++ text ∧
      ((k.fs.globalFdTable.entry m).readPos = 0 →
        (text = [] ↔ Drained k (k.fs.globalFdTable.entry m).inodeNum)) := by
  induction fuel generalizing k with
  | zero => cases hl
  | succ fuel ih =>
      simp only [catLoop, bind_eq_ok, Prod.exists] at hl
      obtain ⟨c, k₁, hread, hl⟩ := hl
      obtain ⟨h₁, hout₁, m', hm, hdrained⟩ := readChar_output h hread
      obtain rfl : m = m' := Int.ofNat.inj hm
      split at hl
      · rename_i c
        simp only [bind_eq_ok] at hl
        obtain ⟨k₂, hbyte, hl⟩ := hl
        obtain ⟨h₂, text, hne, hout₂⟩ := catByte_output h₁ hbyte
        obtain ⟨rest, hout, -⟩ := ih h₂ hl
        refine ⟨text ++ rest, ?_, fun hpos ↦ ?_⟩
        · rw [hout, hout₂, hout₁, List.append_assoc]
        · rw [← hdrained hpos]
          exact iff_of_false (List.append_ne_nil_of_left_ne_nil hne _) (Option.some_ne_none c)
      · cases hl
        refine ⟨[], ?_, fun hpos ↦ ?_⟩
        · rw [hout₁, List.append_nil]
        · rw [← hdrained hpos]
          exact iff_of_true rfl rfl

/-- The loop of `cat` does nothing with a file that has nothing. -/
theorem catLoop_drained {m fuel : Nat} {out : Int} (h : TerminalOpen k)
    (hpos : (k.fs.globalFdTable.entry m).readPos = 0)
    (hdrained : Drained k (k.fs.globalFdTable.entry m).inodeNum)
    (hl : catLoop m out cmd fuel k = .ok k') :
    TerminalOpen k' ∧ ∃ t, k'.fs = { k.fs with globalFdTable := t } := by
  cases fuel with
  | zero => cases hl
  | succ fuel =>
      simp only [catLoop, bind_eq_ok, Prod.exists] at hl
      obtain ⟨c, k₁, hread, hl⟩ := hl
      obtain ⟨h₁, -, m', hm, hnone⟩ := readChar_output h hread
      obtain rfl : m = m' := Int.ofNat.inj hm
      obtain rfl := (hnone hpos).mpr hdrained
      cases hl
      simp only [readChar, bind_eq_ok, Prod.exists] at hread
      obtain ⟨bytesRead, buf, k₁, hread, hk'⟩ := hread
      obtain ⟨-, rfl⟩ := Prod.mk.inj (Except.ok.inj hk')
      obtain ⟨t, ht, -⟩ := read_ok hread
      exact ⟨h₁, t, ht⟩

/-- Nothing is to be read from the file of a path, if there is one. -/
def Silent (k : Kernel Console) (path : List UInt8) : Prop :=
  ∀ r, lookupPath k.fs path = .ok r → r ≠ -1 → Drained k (toUint32 r)

/-- The start of a file that `cat` has opened. -/
theorem opened_entry {fs : FileSystem} {t : FileDescriptorTable} {m : Nat} {name : List UInt8}
    (hopened : Opened fs.globalFdTable t m i name) (hfs : k.fs = { fs with globalFdTable := t }) :
    (k.fs.globalFdTable.entry m).inodeNum = i ∧ (k.fs.globalFdTable.entry m).readPos = 0 ∧
      (k.fs.globalFdTable.entry m).writePos = 0 := by
  rw [hfs, hopened.entry, if_pos rfl]
  exact ⟨rfl, rfl, rfl⟩

/-- **`cat` to the terminal** writes something unless nothing is to be read from its file. -/
theorem execCat_output {v : Int} {fuel : Nat} (h : TerminalOpen k) (hw : HasWords k.heap cmd words)
    (hword : words.getLast? = some word) (hc : execCat k stdout cmd fuel = .ok (v, k')) :
    ∃ text, k'.dev.output = k.dev.output ++ text ∧ (text = [] ↔ Silent k word) := by
  simp only [execCat, bind_eq_ok, Prod.exists] at hc
  obtain ⟨path, hpath, fd, k₁, hopen, hc⟩ := hc
  rw [List.getLast?_eq_getElem?, ← hw.len] at hword
  have hchars := hw.argument_eq hword hpath
  subst hchars
  obtain ⟨h₁, hdev, -⟩ := h.openFile hopen
  obtain ⟨r, hlookup, t, ht, ⟨rfl, rfl, -⟩ | ⟨hr, m, rfl, hopened⟩⟩ := openFile_lookup hopen
  · cases hc
    refine ⟨[], ?_, iff_of_true rfl fun r hr hne ↦ ?_⟩
    · rw [hdev, List.append_nil]
    · rw [hlookup] at hr
      cases hr
      exact absurd rfl hne
  · rw [if_neg (by omega)] at hc
    simp only [bind_eq_ok, Prod.exists] at hc
    obtain ⟨k₂, hloop, v', k₃, hclose, hc⟩ := hc
    cases hc
    obtain ⟨text, hout, hdrained⟩ := catLoop_output h₁ hloop
    obtain ⟨hinode, hpos, -⟩ := opened_entry hopened ht
    have hsame : Drained k₁ (toUint32 r) ↔ Drained k (toUint32 r) := by
      rw [Drained, Drained, hdev, ht]
      rfl
    refine ⟨text, ?_, ?_⟩
    · obtain ⟨-, t', -, rfl⟩ := close_ok hclose
      rw [← hdev]
      exact hout
    · rw [hdrained hpos, hinode, hsame]
      constructor
      · intro hd r' hr' _
        rw [hlookup] at hr'
        cases hr'
        exact hd
      · exact fun hs ↦ hs r hlookup hr

/-- **`cat` of an empty file** writes nothing to it. -/
theorem execCat_empty {v out : Int} {fuel : Nat} (h : TerminalOpen k)
    (hw : HasWords k.heap cmd words) (hword : words.getLast? = some word)
    (he : EmptyFile k.fs word i) (hc : execCat k out cmd fuel = .ok (v, k')) :
    TerminalOpen k' ∧ contents k'.fs i = [] := by
  simp only [execCat, bind_eq_ok, Prod.exists] at hc
  obtain ⟨path, hpath, fd, k₁, hopen, hc⟩ := hc
  rw [List.getLast?_eq_getElem?, ← hw.len] at hword
  have hchars := hw.argument_eq hword hpath
  subst hchars
  obtain ⟨h₁, -, hne⟩ := h.openFile hopen
  obtain ⟨r, hlookup, t, ht, hcase⟩ := openFile_lookup hopen
  obtain rfl : r = i := Except.ok.inj (hlookup.symm.trans he.lookup)
  rw [toUint32_inode he.normal.lt] at hcase
  obtain ⟨-, hneg, -⟩ | ⟨-, m, rfl, hopened⟩ := hcase
  · exact absurd hneg (by omega)
  · rw [if_neg (by omega)] at hc
    simp only [bind_eq_ok, Prod.exists] at hc
    obtain ⟨k₂, hloop, v', k₃, hclose, hc⟩ := hc
    cases hc
    obtain ⟨hinode, hpos, -⟩ := opened_entry hopened ht
    have he₁ := he.of_table ⟨t, ht⟩
    have hdrained : Drained k₁ (k₁.fs.globalFdTable.entry m).inodeNum := by
      rw [hinode, Drained, if_neg he₁.normal.not_isSpecial]
      exact he₁.empty
    obtain ⟨h₂, t₂, ht₂⟩ := catLoop_drained h₁ hpos hdrained hloop
    have he₂ := he₁.of_table ⟨t₂, ht₂⟩
    obtain ⟨h₃, t₃, ht₃⟩ := h₂.close hopened.lt (Int.natCast_ne_zero.mp hne) hclose
    have he₃ := he₂.of_table ⟨t₃, ht₃⟩
    refine ⟨h₃, ?_⟩
    rw [contents, he₃.empty]
    rfl

end

/-! ## Lines -/

/-- The commands whose output a redirection is to catch, with their words. -/
inductive PlainCommand where
  | ls (path : List UInt8)
  | cat (file : List UInt8)
  | catBytes (file : List UInt8)
  | echo (word : List UInt8)

/-- The words of a line without a redirection. -/
def PlainCommand.words : PlainCommand → List (List UInt8)
  | .ls path => [ofText "ls", path]
  | .cat file => [ofText "cat", file]
  | .catBytes file => [ofText "cat", ofText "-b", file]
  | .echo word => [ofText "echo", word]

/-- The words of a line with a redirection. -/
def PlainCommand.redirected (c : PlainCommand) (target : List UInt8) : List (List UInt8) :=
  c.words ++ [ofText ">", target]

/-- The command that is run. -/
def PlainCommand.command : PlainCommand → Command
  | .ls _ => .ls
  | .cat _ => .cat
  | .catBytes _ => .cat
  | .echo _ => .echo

/-- The command is no `cat`, or one of a file from which nothing is to be read. -/
def PlainCommand.Transparent (k : Kernel Console) : PlainCommand → Prop
  | .ls _ => True
  | .cat file => Silent k file
  | .catBytes file => Silent k file
  | .echo _ => True

/-- The line of these words. -/
def commandLine (words : List (List UInt8)) : List UInt8 := [space].intercalate words

/-- A word without quotes. -/
def IsWord (word : List UInt8) : Prop := space ∉ word ∧ quote ∉ word

instance (word : List UInt8) : Decidable (IsWord word) := inferInstanceAs (Decidable (_ ∧ _))

/-- What the command of a line writes to the terminal, up to its return. -/
def ShellState.commandOutput (s : ShellState Console) (line : CString)
    (outside : Outside Console) : List UInt8 :=
  match s.execCommand line outside with
  | .ok (_, k) => k.dev.output.drop s.k.dev.output.length
  | .error _ => []

/-- A shell between its lines: its heap is in order, and descriptor 0 is the terminal. -/
structure Ready (s : ShellState Console) : Prop where
  heap : ∃ live, HeapInv s.k.heap.allocator live
  bottom : s.k.heap.allocator.bottom + scannedBits < 2 ^ 32
  terminal : TerminalOpen s.k

/-- A line redirects to its last word, if to any. -/
theorem redirection_append {words : List (List UInt8)} {target path : List UInt8}
    (h : redirection (words ++ [ofText ">", target]) = some path) : path = target := by
  induction words with
  | nil =>
      cases h
      rfl
  | cons word words ih =>
      cases words with
      | nil =>
          rw [List.cons_append, List.nil_append, redirection] at h
          split at h
          · cases h
          · cases h
            rfl
      | cons next words =>
          rw [List.cons_append, List.cons_append, redirection] at h
          split at h
          · rw [if_neg (List.append_ne_nil_of_right_ne_nil _ (List.cons_ne_nil _ _))] at h
            cases h
          · exact ih h

namespace PlainCommand

variable {c : PlainCommand} {line : CString} {target : List UInt8}

theorem words_ne_nil (c : PlainCommand) : c.words ≠ [] := by
  cases c with
  | ls => exact List.cons_ne_nil _ _
  | cat => exact List.cons_ne_nil _ _
  | catBytes => exact List.cons_ne_nil _ _
  | echo => exact List.cons_ne_nil _ _

theorem redirection_words (c : PlainCommand) : redirection c.words = none := by
  cases c with
  | ls => rfl
  | cat => rfl
  | catBytes => rfl
  | echo => rfl

theorem command_ne_exit (c : PlainCommand) : c.command ≠ .exit := by
  cases c with
  | ls => exact Command.noConfusion
  | cat => exact Command.noConfusion
  | catBytes => exact Command.noConfusion
  | echo => exact Command.noConfusion

/-- What a line with the words of a command, or more, names. -/
theorem lineCommand_eq {rest : List (List UInt8)}
    (h : splitWords space true false line.chars = c.words ++ rest) :
    lineCommand line = c.command := by
  rw [lineCommand, h]
  cases c with
  | ls => rfl
  | cat => rfl
  | catBytes => rfl
  | echo => rfl

theorem chars_ne_nil {rest : List (List UInt8)}
    (h : splitWords space true false line.chars = c.words ++ rest) : line.chars ≠ [] := by
  intro hnil
  rw [hnil, splitWords] at h
  cases c with
  | ls => cases h
  | cat => cases h
  | catBytes => cases h
  | echo => cases h

end PlainCommand

section

variable {s s' : ShellState Console} {live : LiveBlocks} {line : CString}
  {outside : Outside Console} {c : PlainCommand} {target text : List UInt8} {i : Nat}

/-- What a line without a redirection runs. -/
theorem processCommand_plain (hs : Ready s)
    (hwords : splitWords space true false line.chars = c.words)
    (h : s.processCommand line outside = .ok s') : ∃ cmd heap code k,
      HasWords heap cmd c.words ∧
      c.command.exec { s.k with heap := heap } stdout cmd outside = .ok (code, k) ∧
      s.execCommand line outside = .ok (code, k) := by
  obtain ⟨live, hinv⟩ := hs.heap
  have happend := hwords.trans (List.append_nil _).symm
  have hcommand := PlainCommand.lineCommand_eq happend
  cases processCommand_ok hinv hs.bottom (PlainCommand.chars_ne_nil happend) h with
  | refused _ hno =>
      rw [ShellState.redirects, hwords, c.redirection_words] at hno
      cases hno
  | exited _ hexit => exact absurd (hcommand ▸ hexit) c.command_ne_exit
  | @executed cmd heap live₁ placed out code k₂ k₃ k₄ hp _ hopen _ _ hexec hexecCommand _ =>
      have hbottom₁ : heap.allocator.bottom + scannedBits < 2 ^ 32 :=
        hp.split.frame.bottom ▸ hs.bottom
      have hw := hp.hasWords (Keeps.refl hp.split.inv) hs.bottom
      rw [hwords] at hw
      rcases openRedirection_ok (k := { s.k with heap := heap }) hp.split.inv hbottom₁
        hp.split.words hp.nonzero hp.ne_nil hopen with ⟨-, rfl, rfl⟩ | ⟨path, hred, -⟩
      · exact ⟨cmd, heap, code, k₃, hw, hcommand ▸ hexec, hexecCommand⟩
      · rw [hp.words, hwords, c.redirection_words] at hred
        cases hred

/-- What comes after a command leaves the files as they are. -/
theorem finishCommand_contents {k k' : Kernel Console} {cmd : StringList} {n : Nat} {code : Int}
    (h : TerminalOpen k) (hn : n < descriptorCount) (hne : n ≠ 0)
    (hf : finishCommand k n code cmd outside = .ok k') : contents k'.fs i = contents k.fs i := by
  simp only [finishCommand, bind_eq_ok] at hf
  obtain ⟨k₁, hclose, k₂, hreport, heap, -, hprint⟩ := hf
  rw [closeRedirection, if_pos (show (n : Int) ≠ stdout from Int.natCast_ne_zero.mpr hne)]
    at hclose
  simp only [bind_eq_ok, Prod.exists] at hclose
  obtain ⟨v, k₁', hclose, heq⟩ := hclose
  cases heq
  obtain ⟨h₁, t, ht⟩ := h.close hn hne hclose
  have h₂ : TerminalOpen k₂ ∧ k₂.fs = k₁.fs := by
    rw [reportError] at hreport
    split at hreport
    · simp only [bind_eq_ok, Prod.exists] at hreport
      obtain ⟨m, k₂', hwrite, heq⟩ := hreport
      cases heq
      exact ⟨h₁.store hwrite, (h₁.write hwrite).2⟩
    · cases hreport
      exact ⟨h₁, rfl⟩
  simp only [print, bind_eq_ok, Prod.exists] at hprint
  obtain ⟨m, k₃, hwrite, heq⟩ := hprint
  cases heq
  rw [((terminalOpen_heap h₂.1).write hwrite).2, h₂.2, ht]
  rfl

/-- A command has run with a descriptor that was opened on a file for it: it began with the
kernel `k`, it returned with `k'`, and the line ended in `s'`. -/
structure RedirectedRun (s s' : ShellState Console) (words : List (List UInt8)) (i : Nat)
    (cmd : StringList) (n : Nat) (k k' : Kernel Console) : Prop where
  words : HasWords k.heap cmd words
  terminal : TerminalOpen k
  fs : ∃ t, k.fs = { s.k.fs with globalFdTable := t }
  inodeNum : (k.fs.globalFdTable.entry n).inodeNum = i
  writePos : (k.fs.globalFdTable.entry n).writePos = 0
  finished : TerminalOpen k' → contents s'.k.fs i = contents k'.fs i

/-- What a line with a redirection runs. -/
theorem processCommand_redirected (hs : Ready s)
    (hwords : splitWords space true false line.chars = c.redirected target)
    (he : EmptyFile s.k.fs target i) (h : s.processCommand line outside = .ok s') : ∃ cmd n code k k',
      RedirectedRun s s' (c.redirected target) i cmd n k k' ∧
      c.command.exec k (n : Int) cmd outside = .ok (code, k') := by
  obtain ⟨live, hinv⟩ := hs.heap
  have hcommand := PlainCommand.lineCommand_eq hwords
  have hredirection : ∀ path, redirection (c.redirected target) = some path → path = target :=
    fun path ↦ redirection_append
  cases processCommand_ok hinv hs.bottom (PlainCommand.chars_ne_nil hwords) h with
  | refused _ hno =>
      have hfound : found s.k.fs target = true := by
        rw [found, he.lookup]
        exact bne_iff_ne.mpr (by omega)
      rw [ShellState.redirects, hwords] at hno
      cases hred : redirection (c.redirected target) with
      | none =>
          rw [hred] at hno
          cases hno
      | some path =>
          rw [hred, hredirection path hred, Option.all_some, hfound] at hno
          cases hno
  | exited _ hexit => exact absurd (hcommand ▸ hexit) c.command_ne_exit
  | @executed cmd heap live₁ placed out code k₂ k₃ k₄ hp _ hopen hne _ hexec _ hfinish =>
      have hbottom₁ : heap.allocator.bottom + scannedBits < 2 ^ 32 :=
        hp.split.frame.bottom ▸ hs.bottom
      have hkeeps := openRedirection_keeps (k := { s.k with heap := heap }) hp.split.inv hopen
      have hw := hp.hasWords hkeeps hs.bottom
      rw [hwords] at hw
      rcases openRedirection_ok (k := { s.k with heap := heap }) hp.split.inv hbottom₁
        hp.split.words hp.nonzero hp.ne_nil hopen with ⟨hno, -, -⟩ | ⟨path, hred, hopen⟩
      · rw [hp.words, hwords, PlainCommand.redirected,
          List.dropLast_append_of_ne_nil (List.cons_ne_nil _ _)] at hno
        exact absurd (List.mem_append_right _ (List.mem_singleton_self _)) hno
      · rw [hp.words, hwords] at hred
        obtain ⟨h₂, -, hout⟩ := (terminalOpen_heap hs.terminal).openFile hopen
        obtain ⟨r, hlookup, t, ht, hcase⟩ := openFile_lookup hopen
        rw [hredirection _ hred] at hlookup
        obtain rfl : r = i := Except.ok.inj (hlookup.symm.trans he.lookup)
        rw [toUint32_inode he.normal.lt] at hcase
        obtain ⟨hneg, -, -⟩ | ⟨-, n, rfl, hopened⟩ := hcase
        · exact absurd hneg hne
        · obtain ⟨hentry, -, hpos⟩ := opened_entry hopened ht
          refine ⟨cmd, n, code, k₂, k₃, ⟨hw, h₂, ⟨t, ht⟩, hentry, hpos, fun h₃ ↦ ?_⟩,
            hcommand ▸ hexec⟩
          exact finishCommand_contents h₃ hopened.lt (Int.natCast_ne_zero.mp hout) hfinish

theorem commandOutput_eq {code : Int} {k : Kernel Console}
    (h : s.execCommand line outside = .ok (code, k))
    (houtput : k.dev.output = s.k.dev.output ++ text) : s.commandOutput line outside = text := by
  simp only [ShellState.commandOutput, h, houtput]
  exact List.drop_left

section

variable {r sA sB : ShellState Console} {cmdA cmdB : StringList} {heap : KernelHeap} {codeA : Int}
  {kA k kB : Kernel Console} {wordsA wordsB : List (List UInt8)} {n : Nat}

/-- A text that is said in both runs is in the file. -/
theorem said_transparent (hs : Ready s) (hfs : r.k.fs = s.k.fs) (he : EmptyFile s.k.fs target i)
    (hexec : s.execCommand line outside = .ok (codeA, kA))
    (hB : RedirectedRun r sB wordsB i cmdB n k kB)
    (hsA : Said { s.k with heap := heap } kA stdout text) (hsB : Said k kB n text) :
    contents sB.k.fs i = (s.commandOutput line outside).take blockBytes := by
  have heB := (hfs ▸ he).of_table hB.fs
  rw [hB.finished (hsB.terminalOpen hB.terminal), hsB.contents hB.inodeNum hB.writePos heB,
    commandOutput_eq hexec (hsA.output (terminalOpen_heap hs.terminal))]

/-- `cat` leaves the file empty, whatever it writes to the terminal. -/
theorem cat_transparent_iff {file : List UInt8} {fuelA fuelB : Nat} {codeB : Int} (hs : Ready s)
    (hfs : r.k.fs = s.k.fs) (he : EmptyFile s.k.fs target i) (hwA : HasWords heap cmdA wordsA)
    (hexec : s.execCommand line outside = .ok (codeA, kA))
    (hB : RedirectedRun r sB wordsB i cmdB n k kB) (hfile : wordsA.getLast? = some file)
    (htarget : wordsB.getLast? = some target)
    (hcatA : execCat { s.k with heap := heap } stdout cmdA fuelA = .ok (codeA, kA))
    (hcatB : execCat k n cmdB fuelB = .ok (codeB, kB)) :
    contents sB.k.fs i = (s.commandOutput line outside).take blockBytes ↔ Silent s.k file := by
  have heB := (hfs ▸ he).of_table hB.fs
  obtain ⟨hkB, hcontents⟩ := execCat_empty hB.terminal hB.words htarget heB hcatB
  obtain ⟨text, houtput, hsilent⟩ :=
    execCat_output (terminalOpen_heap hs.terminal) hwA hfile hcatA
  rw [hB.finished hkB, hcontents, commandOutput_eq hexec houtput, eq_comm, List.take_eq_nil_iff,
    or_iff_right (by decide), hsilent]
  rfl

/-- **Redirections and `cat`.**  Two shells whose files are the same process a line of unquoted
words with `ls`, `cat` or `echo`, the second with `> g` behind it, where `g` is an empty file.
Then `g` gets what the first writes to the terminal, up to the end of its block, exactly when the
command is no `cat`, or one of a file from which nothing is to be read. -/
theorem redirect_transparent_iff {lineA lineB : CString} {outsideA outsideB : Outside Console}
    (hs : Ready s) (hr : Ready r) (hfs : r.k.fs = s.k.fs) (he : EmptyFile s.k.fs target i)
    (hwords : ∀ word ∈ c.redirected target, IsWord word)
    (hlineA : lineA.chars = commandLine c.words)
    (hlineB : lineB.chars = commandLine (c.redirected target))
    (hA : s.processCommand lineA outsideA = .ok sA)
    (hB : r.processCommand lineB outsideB = .ok sB) :
    contents sB.k.fs i = (s.commandOutput lineA outsideA).take blockBytes ↔
      c.Transparent s.k := by
  have hsplitA : splitWords space true false lineA.chars = c.words := by
    rw [hlineA]
    refine splitWords_intercalate (by decide) c.words_ne_nil fun word hword ↦ ?_
    exact hwords word (List.mem_append_left _ hword)
  have hsplitB : splitWords space true false lineB.chars = c.redirected target := by
    rw [hlineB]
    refine splitWords_intercalate (by decide) ?_ hwords
    exact List.append_ne_nil_of_right_ne_nil _ (List.cons_ne_nil _ _)
  obtain ⟨cmdA, heap, codeA, kA, hwA, hexecA, hexec⟩ := processCommand_plain hs hsplitA hA
  obtain ⟨cmdB, n, codeB, k, kB, hrun, hexecB⟩ :=
    processCommand_redirected hr hsplitB (hfs ▸ he) hB
  have htarget : (c.redirected target).getLast? = some target := by
    rw [PlainCommand.redirected, List.getLast?_append]
    rfl
  cases c with
  | ls path =>
      obtain ⟨textA, hlistA, hsA⟩ := execLs_said hwA rfl hexecA
      obtain ⟨textB, hlistB, hsB⟩ := execLs_said hrun.words rfl hexecB
      obtain ⟨t, ht⟩ := hrun.fs
      rw [ht, listing_table, hfs] at hlistB
      obtain rfl : textA = textB := Except.ok.inj (hlistA.symm.trans hlistB)
      exact iff_of_true (said_transparent hs hfs he hexec hrun hsA hsB) trivial
  | cat file => exact cat_transparent_iff hs hfs he hwA hexec hrun rfl htarget hexecA hexecB
  | catBytes file => exact cat_transparent_iff hs hfs he hwA hexec hrun rfl htarget hexecA hexecB
  | echo word =>
      have hsA := execEcho_said hwA rfl hexecA
      have hsB := execEcho_said hrun.words rfl hexecB
      exact iff_of_true (said_transparent hs hfs he hexec hrun hsA hsB) trivial

end

end

/-! ## Two files -/

/-- Around the commands of a console is nothing that they use. -/
def consoleOutside : Outside Console where
  past := fun _ ↦ 0
  stack := fun _ ↦ 0
  errorMsg := quietOutside.errorMsg
  program := fun _ dev ↦ .ok dev
  line := ⟨0, fun _ ↦ 0, fun _ dev ↦ dev, burstLine.fileSize, fun _ ↦ 0⟩
  fuel := 10

/-- Making a file `/f` of two bytes, and an empty file `/g`. -/
def fileCalls : List FsCall :=
  [.create (.literal "/f") fun _ ↦ 0, .write 2 (Bytes.ofList (ofText "hi")) 2, .close 2,
    .create (.literal "/g") fun _ ↦ 0, .close 2]

/-- A shell that starts where there are these files. -/
def fileShell : Option (ShellState Console) := do
  let k ← runCalls FsCall.exec (fun _ _ ↦ True) fileCalls consoleKernel
  (shellStart k).toOption

/-- The heap of the console is in order after any calls. -/
theorem heap_of_reaches_console {k : Kernel Console}
    (h : Reaches FsCall.exec (fun _ _ ↦ True) consoleKernel k) :
    ∃ live, HeapInv k.heap.allocator live ∧ k.heap.allocator.bottom = 0x400000 := by
  obtain ⟨live, hinv⟩ := formattedWith_consoleKernel.formatted.namespaceInv.heap
  have hbottom : consoleKernel.heap.allocator.bottom = 0x400000 := by
    decide +kernel
  refine h.invariant (I := fun k ↦ ∃ live, HeapInv k.heap.allocator live ∧
    k.heap.allocator.bottom = 0x400000) ⟨live, hinv, hbottom⟩ ?_
  rintro k k' c v ⟨live, hinv, hbottom⟩ - hx
  have hkeeps := exec_keeps hinv hx
  exact ⟨live, hkeeps.inv, hkeeps.frame.bottom.trans hbottom⟩

/-- What a shell is like that starts after calls, with the terminal open. -/
theorem ready_shellStart {k : Kernel Console} {s : ShellState Console}
    (h : Reaches FsCall.exec (fun _ _ ↦ True) consoleKernel k) (hstart : shellStart k = .ok s)
    (hopened : k.fs.globalFdTable.marked 0 = true)
    (hspecial : k.fs.IsSpecial (k.fs.globalFdTable.entry 0).inodeNum)
    (hname : strcmp (k.fs.inode (k.fs.globalFdTable.entry 0).inodeNum).name (ofText "tty") = 0) :
    Ready s ∧ s.k.fs = k.fs := by
  have hterminal : TerminalOpen k :=
    ⟨systemFiles_of_reaches h, hopened, hspecial, (strcmp_eq_zero (by decide) _).mp hname⟩
  obtain ⟨live, hinv, hbottom⟩ := heap_of_reaches_console h
  have hbottom : k.heap.allocator.bottom + scannedBits < 2 ^ 32 := by
    rw [hbottom]
    decide
  have hrunning := (sessionInv_start hinv hbottom hstart).running
  simp only [shellStart, print, bind_eq_ok, Prod.exists] at hstart
  obtain ⟨workingDir, heap, -, k₁, ⟨n, k₁', hwrite, heq⟩, hstart⟩ := hstart
  cases heq
  cases hstart
  obtain ⟨live, hrunning⟩ := hrunning rfl
  have hplain : TerminalOpen { k with heap := heap } := terminalOpen_heap hterminal
  exact ⟨⟨⟨live, hrunning.inv⟩, hrunning.bottom, hplain.store hwrite⟩, (hplain.write hwrite).2⟩

/-- The shell is ready, and `/g` is empty. -/
theorem ready_fileShell {s : ShellState Console} (hs : fileShell = some s) :
    Ready s ∧ EmptyFile s.k.fs (ofText "/g") 5 := by
  obtain ⟨k, hk, hcheck⟩ := (Option.any_eq_true _ _).mp
    (show (runCalls FsCall.exec (fun _ _ ↦ True) fileCalls consoleKernel).any (fun k ↦
      decide (k.fs.globalFdTable.marked 0 = true ∧
        k.fs.IsSpecial (k.fs.globalFdTable.entry 0).inodeNum ∧
        strcmp (k.fs.inode (k.fs.globalFdTable.entry 0).inodeNum).name (ofText "tty") = 0 ∧
        (lookupPath k.fs (ofText "/g")).toOption = some 5 ∧ k.fs.IsNormal 5 ∧
        (k.fs.inode 5).size = 0)) = true by decide +kernel)
  obtain ⟨hopened, hspecial, hname, hlookup, hnormal, hempty⟩ := of_decide_eq_true hcheck
  rw [fileShell, hk] at hs
  obtain ⟨hready, hfs⟩ := ready_shellStart (reaches_of_runCalls hk) (toOption_eq_some.mp hs)
    hopened hspecial hname
  rw [hfs]
  exact ⟨hready, toOption_eq_some.mp hlookup, hnormal, hempty⟩

/-- What `ls` writes is in the file. -/
theorem redirect_transparent_ls : ∃ s sA sB, fileShell = some s ∧
    s.processCommand (.literal "ls /") consoleOutside = .ok sA ∧
    s.processCommand (.literal "ls / > /g") consoleOutside = .ok sB ∧
    contents sB.k.fs 5 =
      (s.commandOutput (.literal "ls /") consoleOutside).take blockBytes := by
  have hcheck : (fileShell.any fun s ↦
      (s.processCommand (.literal "ls /") consoleOutside).toOption.isSome &&
        (s.processCommand (.literal "ls / > /g") consoleOutside).toOption.isSome) = true := by
    decide +kernel
  obtain ⟨s, hs, hcheck⟩ := (Option.any_eq_true _ _).mp hcheck
  rw [Bool.and_eq_true, Option.isSome_iff_exists, Option.isSome_iff_exists] at hcheck
  obtain ⟨⟨sA, hA⟩, sB, hB⟩ := hcheck
  obtain ⟨hready, he⟩ := ready_fileShell hs
  have hA := toOption_eq_some.mp hA
  have hB := toOption_eq_some.mp hB
  refine ⟨s, sA, sB, hs, hA, hB, ?_⟩
  exact (redirect_transparent_iff (c := .ls (ofText "/")) hready hready rfl he (by decide)
    (by decide) (by decide) hA hB).mpr trivial

/-- **`cat` with a redirection copies the target to itself**: `/g` stays empty, although `/f` is
not. -/
theorem redirect_cat_empty : ∃ s sA sB, fileShell = some s ∧ Ready s ∧
    EmptyFile s.k.fs (ofText "/g") 5 ∧
    s.processCommand (.literal "cat /f") consoleOutside = .ok sA ∧
    s.processCommand (.literal "cat /f > /g") consoleOutside = .ok sB ∧
    contents sB.k.fs 5 ≠
      (s.commandOutput (.literal "cat /f") consoleOutside).take blockBytes := by
  have hcheck : (fileShell.any fun s ↦
      decide (s.commandOutput (.literal "cat /f") consoleOutside = ofText "hi") &&
        (s.processCommand (.literal "cat /f") consoleOutside).toOption.isSome &&
        (s.processCommand (.literal "cat /f > /g") consoleOutside).toOption.any fun sB ↦
          decide (contents sB.k.fs 5 = [])) = true := by
    decide +kernel
  obtain ⟨s, hs, hcheck⟩ := (Option.any_eq_true _ _).mp hcheck
  rw [Bool.and_eq_true, Bool.and_eq_true, Option.isSome_iff_exists] at hcheck
  obtain ⟨⟨houtput, sA, hA⟩, hcheck⟩ := hcheck
  obtain ⟨sB, hB, hcontents⟩ := (Option.any_eq_true _ _).mp hcheck
  obtain ⟨hready, he⟩ := ready_fileShell hs
  refine ⟨s, sA, sB, hs, hready, he, toOption_eq_some.mp hA, toOption_eq_some.mp hB, ?_⟩
  rw [of_decide_eq_true hcontents, of_decide_eq_true houtput]
  decide

end Yorha.Shell
