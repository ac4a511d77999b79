import Yorha.Shell.Keeps
import Yorha.Shell.Redirect

/-!
# Hex dumps

`cat -b f` is to write two digits for every byte of a file, from which the bytes can be read
back (`undump_flatMap`).  The byte is held in a `char`, which is signed, and shifted before it
is used as an index: from 128 on the index of the first digit is negative.  So a file is dumped
exactly if all its bytes are below 128 (`dumpsFile_iff`).
-/

namespace Yorha.Shell

open Yorha.Lib Yorha.Str Yorha.Heap Yorha.Io
open Yorha.Fs hiding read write

/-! ## Dumps -/

/-- The upper-case digits. -/
def hexDigits : List UInt8 := ofText "0123456789ABCDEF"

/-- What is to be written for a byte. -/
def dumpByte (c : UInt8) : List UInt8 :=
  ofText "\\x" ++ [hexDigits.getD (c.toNat / 16) 0, hexDigits.getD (c.toNat % 16) 0]

/-- The bytes that a dump is of. -/
def undump : List UInt8 → Option (List UInt8)
  | [] => some []
  | backslash :: x :: top :: bottom :: text =>
      if [backslash, x] = ofText "\\x" then do
        let top ← hexDigits.idxOf? top
        let bottom ← hexDigits.idxOf? bottom
        let bytes ← undump text
        some (UInt8.ofNat (16 * top + bottom) :: bytes)
      else none
  | _ => none

/-- The indices at which the loop of `exec_cat` reads its table. -/
def tableIndices (c : UInt8) : List Int := [charValue c / 16, c.toNat % 16]

/-- From `k` to `k'`, these bytes were dumped to the terminal. -/
structure DumpsFile (k k' : Kernel Console) (bytes : List UInt8) : Prop where
  output : k'.dev.output = k.dev.output ++ bytes.flatMap dumpByte
  decodes : undump (k'.dev.output.drop k.dev.output.length) = some bytes
  indices : ∀ c ∈ bytes, ∀ i ∈ tableIndices c, 0 ≤ i ∧ i < 16

/-- A digit is read back. -/
theorem idxOf?_hexDigits : ∀ n < 16, hexDigits.idxOf? (hexDigits.getD n 0) = some n := by
  decide

/-- **A dump is read back.** -/
theorem undump_flatMap (bytes : List UInt8) : undump (bytes.flatMap dumpByte) = some bytes := by
  induction bytes with
  | nil => rfl
  | cons c bytes ih =>
      have hlt := c.toNat_lt
      have hbyte : UInt8.ofNat (16 * (c.toNat / 16) + c.toNat % 16) = c := by
        rw [Nat.div_add_mod, UInt8.ofNat_toNat]
      have htext : (c :: bytes).flatMap dumpByte = 92 :: 120 :: hexDigits.getD (c.toNat / 16) 0 ::
          hexDigits.getD (c.toNat % 16) 0 :: bytes.flatMap dumpByte := rfl
      rw [htext, undump, if_pos (by decide), idxOf?_hexDigits _ (by omega),
        idxOf?_hexDigits _ (Nat.mod_lt _ (by decide)), ih]
      simp only [Option.bind_eq_bind, Option.bind_some, hbyte]

/-- The second index is always one of the table. -/
theorem nibToHex_bottom (c : UInt8) :
    nibToHex (c.toNat % 16) = .ok (hexDigits.getD (c.toNat % 16) 0) := by
  rw [nibToHex, if_pos (by omega)]
  congr 2

/-- The first index is one of the table for a byte below 128. -/
theorem nibToHex_top {c : UInt8} (h : c < 128) :
    nibToHex (charValue c / 16) = .ok (hexDigits.getD (c.toNat / 16) 0) := by
  have hlt : c.toNat < 128 := UInt8.lt_iff_toNat_lt.mp h
  rw [charValue, if_pos hlt, nibToHex, if_pos (by omega)]
  congr 2

theorem nibToHex_top_fault {c : UInt8} (h : ¬ c < 128) :
    nibToHex (charValue c / 16) = .error .fault := by
  have hle : ¬ c.toNat < 128 := fun hlt ↦ h (UInt8.lt_iff_toNat_lt.mpr hlt)
  have hlt := c.toNat_lt
  rw [charValue, if_neg hle, nibToHex, if_neg (by omega)]

theorem tableIndices_lt {c : UInt8} (h : c < 128) : ∀ i ∈ tableIndices c, 0 ≤ i ∧ i < 16 := by
  have hlt : c.toNat < 128 := UInt8.lt_iff_toNat_lt.mp h
  rw [tableIndices, charValue, if_pos hlt, List.forall_mem_cons, List.forall_mem_singleton]
  exact ⟨by omega, by omega⟩

/-! ## The terminal -/

section

variable {k k' : Kernel Console} {cmd : StringList} {m i fuel : Nat} {c : UInt8}
  {rest : List UInt8}

/-- Writing to the terminal returns. -/
theorem terminal_write_returns (h : TerminalOpen k) (buf : Bytes) (count : Nat) :
    ∃ n k', Fs.write k stdout buf count = .ok (n, k') := by
  have hindex : entryIndex stdout = .ok 0 := entryIndex_eq_ok.mpr ⟨rfl, by decide⟩
  have hlt : (k.fs.globalFdTable.entry 0).inodeNum < inodeCount := by
    by_contra hge
    have hspecial := h.special
    rw [FileSystem.IsSpecial, FileSystem.inode,
      Vector.getElem?_eq_none (Nat.le_of_not_lt hge)] at hspecial
    exact absurd hspecial (by decide)
  have hread : k.fs.readInode (k.fs.globalFdTable.entry 0).inodeNum = .ok (k.fs.inode _) :=
    FileSystem.readInode_eq_ok.mpr ⟨hlt, rfl⟩
  have hspecial : (k.fs.inode (k.fs.globalFdTable.entry 0).inodeNum).fileType = fileTypeSpecial :=
    h.special
  have hdevice := h.device (k.fs.inode (k.fs.globalFdTable.entry 0).inodeNum).name
  simp only [Fs.write, hindex, ok_bind, hread, if_pos hspecial]
  cases hfound : findSpecial k.systemFiles
      (k.fs.inode (k.fs.globalFdTable.entry 0).inodeNum).name with
  | none => exact ⟨0, k, rfl⟩
  | some file =>
      rw [hfound] at hdevice
      cases hdevice with
      | tty _ hfile =>
          simp only [hfile]
          exact ⟨_, _, rfl⟩
      | ttyS hname => exact absurd hname (not_isString_ttyS h.name)

/-- Something was written to the terminal, and nothing else was done. -/
structure Displayed (k k' : Kernel Console) (text : List UInt8) : Prop where
  terminal : TerminalOpen k'
  output : k'.dev.output = k.dev.output ++ text
  fs : k'.fs = k.fs
  heap : k'.heap = k.heap

theorem Displayed.trans {k₁ : Kernel Console} {text text₁ : List UInt8} (h : Displayed k k₁ text)
    (h₁ : Displayed k₁ k' text₁) : Displayed k k' (text ++ text₁) where
  terminal := h₁.terminal
  output := by rw [h₁.output, h.output, List.append_assoc]
  fs := h₁.fs.trans h.fs
  heap := h₁.heap.trans h.heap

theorem print_displayed (h : TerminalOpen k) (text : String) (count : Nat) : ∃ k',
    print k stdout text count = .ok k' ∧
      Displayed k k' ((Bytes.ofList (ofText text)).take count) := by
  obtain ⟨n, k', hw⟩ := terminal_write_returns h (Bytes.ofList (ofText text)) count
  obtain ⟨houtput, hfs⟩ := h.write hw
  refine ⟨k', ?_, h.store hw, houtput, hfs, write_heap hw⟩
  rw [print, hw, ok_bind]

theorem writeChar_displayed (h : TerminalOpen k) (c : UInt8) :
    ∃ n k', writeChar k stdout c = .ok (n, k') ∧ Displayed k k' [c] := by
  obtain ⟨n, k', hw⟩ := terminal_write_returns h (fun _ ↦ c) 1
  obtain ⟨houtput, hfs⟩ := h.write hw
  exact ⟨n, k', hw, h.store hw, houtput, hfs, write_heap hw⟩

/-- **The body of the loop** writes two digits for a byte below 128. -/
theorem catByte_displayed (h : TerminalOpen k) (hdump : dumps k.heap cmd = .ok true)
    (hc : c < 128) : ∃ k', catByte k stdout cmd c = .ok k' ∧ Displayed k k' (dumpByte c) := by
  obtain ⟨k₁, hprint, h₁⟩ := print_displayed h "\\x" 2
  obtain ⟨n₂, k₂, htop, h₂⟩ :=
    writeChar_displayed h₁.terminal (hexDigits.getD (c.toNat / 16) 0)
  obtain ⟨n₃, k₃, hbottom, h₃⟩ :=
    writeChar_displayed h₂.terminal (hexDigits.getD (c.toNat % 16) 0)
  refine ⟨k₃, ?_, (h₁.trans h₂).trans h₃⟩
  simp only [catByte, hdump, ok_bind, if_true, hprint, nibToHex_top hc, htop,
    nibToHex_bottom, hbottom]

/-- From 128 on it reads in front of the table. -/
theorem catByte_fault (h : TerminalOpen k) (hdump : dumps k.heap cmd = .ok true)
    (hc : ¬ c < 128) : catByte k stdout cmd c = .error .fault := by
  obtain ⟨k₁, hprint, -⟩ := print_displayed h "\\x" 2
  simp only [catByte, hdump, ok_bind, if_true, hprint, nibToHex_top_fault hc, error_bind]

/-! ## The file -/

/-- Descriptor `m` is that of the normal file `i`, of which `rest` is left to be read. -/
structure Reads (k : Kernel Console) (m i : Nat) (rest : List UInt8) : Prop where
  terminal : TerminalOpen k
  lt : m < descriptorCount
  inodeNum : (k.fs.globalFdTable.entry m).inodeNum = i
  normal : k.fs.IsNormal i
  size : (k.fs.inode i).size ≤ blockBytes
  rest : rest = ((k.fs.block i).drop (k.fs.globalFdTable.entry m).readPos).take
    ((k.fs.inode i).size - (k.fs.globalFdTable.entry m).readPos)

theorem Reads.of_displayed {text : List UInt8} (h : Reads k m i rest) (ht : Displayed k k' text) :
    Reads k' m i rest where
  terminal := ht.terminal
  lt := h.lt
  inodeNum := ht.fs ▸ h.inodeNum
  normal := ht.fs ▸ h.normal
  size := ht.fs ▸ h.size
  rest := ht.fs ▸ h.rest

/-- **Reading** gets the next byte, until there is none. -/
theorem Reads.readChar (h : Reads k m i rest) : ∃ k', readChar k m = .ok (rest.head?, k') ∧
    Reads k' m i rest.tail ∧ k'.dev.output = k.dev.output ∧ k'.heap = k.heap := by
  obtain ⟨buf', hread, hbuf⟩ := read_returns h.lt h.inodeNum h.normal.lt h.normal.not_isSpecial
    h.size (fun _ ↦ 0) 1
  have hrest := h.rest
  simp only [available] at hread hbuf
  generalize ht : k.fs.globalFdTable.setEntry m _ = t at hread
  have hentry : t.entry m = { k.fs.globalFdTable.entry m with
      readPos := (k.fs.globalFdTable.entry m).readPos +
        min 1 ((k.fs.inode i).size - (k.fs.globalFdTable.entry m).readPos) } := by
    rw [← ht, FileDescriptorTable.entry_setEntry _ h.lt, if_pos rfl]
  generalize (k.fs.globalFdTable.entry m).readPos = p at hread hbuf hrest hentry
  have hchar : Shell.readChar k m =
      .ok (rest.head?, { k with fs := { k.fs with globalFdTable := t } }) := by
    rw [Shell.readChar, hread, ok_bind]
    cases hleft : (k.fs.inode i).size - p with
    | zero =>
        rw [hrest, hleft]
        rfl
    | succ n =>
        have hmin : min 1 (n + 1) = 1 := Nat.min_eq_left (Nat.succ_pos n)
        have hbyte : buf' 0 = k.fs.block i p := by
          rw [hbuf 0]
          exact if_pos (by omega)
        rw [hrest, hleft, Bytes.take_drop_succ, hmin, List.head?_cons, ← hbyte]
        rfl
  obtain ⟨hterminal, houtput, -⟩ := readChar_output h.terminal hchar
  refine ⟨_, hchar, ⟨hterminal, h.lt, ?_, h.normal, h.size, ?_⟩, houtput, readChar_heap hchar⟩
  · rw [hentry]
    exact h.inodeNum
  · rw [hrest, hentry]
    change _ = ((k.fs.block i).drop (p + min 1 ((k.fs.inode i).size - p))).take
      ((k.fs.inode i).size - (p + min 1 ((k.fs.inode i).size - p)))
    cases hleft : (k.fs.inode i).size - p with
    | zero =>
        have hnone : (k.fs.inode i).size - (p + min 1 0) = 0 := by omega
        rw [hnone]
        rfl
    | succ n =>
        have hone : (k.fs.inode i).size - (p + min 1 (n + 1)) = n := by omega
        rw [hone, Bytes.take_drop_succ, List.tail_cons, Nat.min_eq_left (Nat.succ_pos n)]

/-- **The loop** dumps what is left, if it can. -/
theorem Reads.catLoop (h : Reads k m i rest) (hdump : dumps k.heap cmd = .ok true)
    (hfuel : rest.length < fuel) (hrest : ∀ c ∈ rest, c < 128) :
    ∃ k', catLoop m stdout cmd fuel k = .ok k' ∧
      k'.dev.output = k.dev.output ++ rest.flatMap dumpByte := by
  induction rest generalizing k fuel with
  | nil =>
      obtain ⟨fuel, rfl⟩ := Nat.exists_eq_succ_of_ne_zero (Nat.ne_of_gt hfuel)
      obtain ⟨k₁, hread, -, houtput, -⟩ := h.readChar
      refine ⟨k₁, ?_, ?_⟩
      · simp only [Shell.catLoop, hread, ok_bind, List.head?_nil]
      · rw [houtput, List.flatMap_nil, List.append_nil]
  | cons c rest ih =>
      obtain ⟨fuel, rfl⟩ := Nat.exists_eq_succ_of_ne_zero (Nat.ne_zero_of_lt hfuel)
      obtain ⟨hc, hrest⟩ := List.forall_mem_cons.mp hrest
      obtain ⟨k₁, hread, h₁, houtput, hheap⟩ := h.readChar
      have hdump₁ : dumps k₁.heap cmd = .ok true := by rw [hheap, hdump]
      obtain ⟨k₂, hbyte, hdisplayed⟩ := catByte_displayed h₁.terminal hdump₁ hc
      obtain ⟨k₃, hloop, houtput₃⟩ := ih (h₁.of_displayed hdisplayed) (hdisplayed.heap ▸ hdump₁)
        (Nat.lt_of_succ_lt_succ hfuel) hrest
      refine ⟨k₃, ?_, ?_⟩
      · simp only [Shell.catLoop, hread, ok_bind, List.head?_cons, hbyte]
        exact hloop
      · rw [houtput₃, hdisplayed.output, houtput, List.flatMap_cons, List.append_assoc]

/-- A loop that returns has met no byte from 128 on. -/
theorem Reads.lt_of_catLoop (h : Reads k m i rest) (hdump : dumps k.heap cmd = .ok true)
    (hl : Shell.catLoop m stdout cmd fuel k = .ok k') : ∀ c ∈ rest, c < 128 := by
  induction fuel generalizing k rest with
  | zero => cases hl
  | succ fuel ih =>
      obtain ⟨k₁, hread, h₁, -, hheap⟩ := h.readChar
      simp only [Shell.catLoop, hread, ok_bind] at hl
      cases rest with
      | nil => exact List.forall_mem_nil _
      | cons c rest =>
          have hdump₁ : dumps k₁.heap cmd = .ok true := by rw [hheap, hdump]
          simp only [List.head?_cons, bind_eq_ok] at hl
          obtain ⟨k₂, hbyte, hl⟩ := hl
          have hc : c < 128 := by
            by_contra hc
            rw [catByte_fault h₁.terminal hdump₁ hc] at hbyte
            cases hbyte
          obtain ⟨k₂', hbyte', hdisplayed⟩ := catByte_displayed h₁.terminal hdump₁ hc
          obtain rfl : k₂ = k₂' := Except.ok.inj (hbyte.symm.trans hbyte')
          rw [List.forall_mem_cons]
          exact ⟨hc, ih (h₁.of_displayed hdisplayed) (hdisplayed.heap ▸ hdump₁) hl⟩

/-! ## The command -/

/-- The words of a command are on the heap, inside its page. -/
structure OnPage (h : KernelHeap) (live : LiveBlocks) (cmd : StringList)
    (placed : List (HeapString × List UInt8)) : Prop where
  inv : HeapInv h.allocator live
  bottom : h.allocator.bottom + scannedBits < 2 ^ 32
  words : Words h live cmd placed
  nonzero : ∀ p ∈ placed, 0 ∉ p.2
  inPage : ∀ p ∈ placed, h.allocator.bottom ≤ p.1.contents ∧
    p.1.contents + p.2.length < h.allocator.bottom + kernelHeapSize

section

variable {h h' : KernelHeap} {live : LiveBlocks} {placed : List (HeapString × List UInt8)}

/-- They are still there as long as their blocks are kept. -/
theorem OnPage.keeps (hp : OnPage h live cmd placed) (hk : Keeps h h' live) :
    OnPage h' live cmd placed where
  inv := hk.inv
  bottom := hk.frame.bottom ▸ hp.bottom
  words := hp.words.frame hk.frame (fun _ ↦ not_false) (fun _ _ ↦ not_false)
  nonzero := hp.nonzero
  inPage := hk.frame.bottom ▸ hp.inPage

/-- A word ends before the page does. -/
theorem OnPage.length_lt (hp : OnPage h live cmd placed) {i : Nat} (hi : i < placed.length) :
    placed[i].2.length < heapLeft h placed[i].1.contents := by
  obtain ⟨hle, hlt⟩ := hp.inPage _ (List.getElem_mem hi)
  rw [heapLeft, if_pos hle]
  omega

/-- Reading a word. -/
theorem OnPage.heapString_eq (hp : OnPage h live cmd placed) {i : Nat} (hi : i < placed.length)
    {path : CString} (hpath : path.chars = placed[i].2) :
    heapString h (cmd.string h i).contents = .ok path := by
  have hstring := isString_of_stored (hp.words.stored _ (List.getElem_mem hi))
  have hread := readString_eq_ok.mpr
    ⟨hp.length_lt hi, hp.nonzero _ (List.getElem_mem hi), hstring⟩
  rw [hp.words.string_eq hp.inv hp.bottom hi, heapString, readCString]
  split
  · rename_i chars hchars
    obtain rfl := Except.ok.inj (hread.symm.trans hchars)
    cases path
    cases hpath
    rfl
  · rename_i e he
    rw [hread] at he
    cases he

/-- Asking whether there is a `-b`. -/
theorem OnPage.dumps_eq (hp : OnPage h live cmd placed) (hlen : placed.length = 3)
    (hword : placed[1].2 = ofText "-b") : dumps h cmd = .ok true := by
  have hne : placed ≠ [] := List.ne_nil_of_length_pos (by omega)
  have hi : 1 < placed.length := by omega
  have hlt := hp.length_lt hi
  rw [hword] at hlt
  have hstring := isString_of_stored (hp.words.stored _ (List.getElem_mem hi))
  have horder := (strcmp_eq_zero (by decide) _).mpr (hword ▸ hstring)
  rw [dumps, if_pos ((hp.words.len_eq hne).trans hlen), hp.words.string_eq hp.inv hp.bottom hi,
    matchString, strcmpWithin_of_length_lt hlt, ok_bind, horder]
  rfl

end

/-- A file that was opened is about to be read. -/
theorem reads_openFile {path : CString} {fd : Int} (h : TerminalOpen k)
    (hlookup : lookupPath k.fs path.chars = .ok (i : Int)) (hnormal : k.fs.IsNormal i)
    (hsize : (k.fs.inode i).size ≤ blockBytes) (hopen : openFile k path = .ok (fd, k')) :
    ∃ m : Nat, fd = m ∧ m ≠ 0 ∧ Reads k' m i (contents k.fs i) ∧
      k'.dev.output = k.dev.output := by
  obtain ⟨h', hdev, hne⟩ := h.openFile hopen
  obtain ⟨r, hr, t, ht, hcase⟩ := openFile_lookup hopen
  obtain rfl : r = i := Except.ok.inj (hr.symm.trans hlookup)
  rw [toUint32_inode hnormal.lt] at hcase
  obtain ⟨-, hneg, -⟩ | ⟨-, m, rfl, hopened⟩ := hcase
  · exact absurd hneg (by omega)
  · obtain ⟨hinode, hpos, -⟩ := opened_entry hopened ht
    refine ⟨m, rfl, Int.natCast_ne_zero.mp hne, ⟨h', hopened.lt, hinode, ?_, ?_, ?_⟩, by rw [hdev]⟩
    · rw [ht]
      exact hnormal
    · rw [ht]
      exact hsize
    · rw [hpos, ht, Nat.sub_zero, Bytes.drop_zero]
      rfl

/-- A descriptor that was opened can be closed. -/
theorem close_returns (k : Kernel Console) (hm : m < descriptorCount) :
    ∃ v k', close k m = .ok (v, k') ∧ k'.dev = k.dev := by
  obtain ⟨t, ht, -⟩ := deallocBitrange_table k.fs.globalFdTable hm
  refine ⟨-1, { k with fs := { k.fs with globalFdTable := t } }, ?_, rfl⟩
  rw [close, toUint32_descriptor hm, ht, ok_bind]

end

/-- **When a dump is faithful.**  For every normal file of at most a block that can be opened,
`cat -b` writes a dump of its bytes to the terminal, reading its table inside its bounds, if
and only if all the bytes are below 128. -/
theorem dumpsFile_iff {k k₁ : Kernel Console} {cmd : StringList} {path : CString} {fd : Int}
    {i fuel : Nat} {live : LiveBlocks} {placed : List (HeapString × List UInt8)}
    (h : TerminalOpen k) (hp : OnPage k.heap live cmd placed)
    (hwords : placed.map Prod.snd = [ofText "cat", ofText "-b", path.chars])
    (hlookup : lookupPath k.fs path.chars = .ok (i : Int)) (hnormal : k.fs.IsNormal i)
    (hsize : (k.fs.inode i).size ≤ blockBytes) (hopen : openFile k path = .ok (fd, k₁))
    (hfuel : (k.fs.inode i).size < fuel) :
    (∃ k', execCat k stdout cmd fuel = .ok (0, k') ∧ DumpsFile k k' (contents k.fs i)) ↔
      ∀ c ∈ contents k.fs i, c < 128 := by
  obtain ⟨m, rfl, hne, hreads, houtput⟩ := reads_openFile h hlookup hnormal hsize hopen
  obtain ⟨name, rest, rfl, -, hrest⟩ := List.map_eq_cons_iff.mp hwords
  obtain ⟨flag, rest, rfl, hflag, hrest⟩ := List.map_eq_cons_iff.mp hrest
  obtain ⟨file, rest, rfl, hfile, hnil⟩ := List.map_eq_cons_iff.mp hrest
  obtain rfl := List.map_eq_nil_iff.mp hnil
  have hpath : argument k cmd (cmd.len - 1) = .ok path := by
    rw [hp.words.len_eq (List.cons_ne_nil _ _)]
    exact hp.heapString_eq (i := 2) (by decide : 2 < 3) hfile.symm
  have hdump₁ : dumps k₁.heap cmd = .ok true :=
    (hp.keeps (openFile_heap hp.inv hopen).2).dumps_eq rfl hflag
  constructor
  · rintro ⟨k', hexec, -⟩
    simp only [execCat, hpath, ok_bind, hopen, if_neg (show (m : Int) ≠ -1 by omega),
      bind_eq_ok] at hexec
    obtain ⟨k₂, hloop, -⟩ := hexec
    exact hreads.lt_of_catLoop hdump₁ hloop
  · intro hbytes
    have hlen : (contents k.fs i).length < fuel := by
      rw [contents, Bytes.length_take]
      exact hfuel
    obtain ⟨k₂, hloop, houtput₂⟩ := hreads.catLoop hdump₁ hlen hbytes
    obtain ⟨v, k₃, hclose, hdev⟩ := close_returns k₂ hreads.lt
    have houtput₃ : k₃.dev.output = k.dev.output ++ (contents k.fs i).flatMap dumpByte := by
      rw [hdev, houtput₂, houtput]
    refine ⟨k₃, ?_, houtput₃, ?_, fun c hc ↦ tableIndices_lt (hbytes c hc)⟩
    · simp only [execCat, hpath, ok_bind, hopen, if_neg (show (m : Int) ≠ -1 by omega), hloop,
        hclose]
    · rw [houtput₃, List.drop_left]
      exact undump_flatMap _

/-! ## Two files -/

/-- After calls, with the words of `cat -b /f` on the heap. -/
def dumpCase (calls : List FsCall) : Option (Kernel Console × StringList) := do
  let k ← runCalls FsCall.exec (fun _ _ ↦ True) calls consoleKernel
  let (cmd, heap) ← (stringSplit k.heap (ofText "cat -b /f") space true).toOption
  some ({ k with heap := heap }, cmd)

section

variable {calls : List FsCall} {k : Kernel Console} {cmd : StringList}

/-- The calls return, and so does the splitting. -/
theorem exists_of_dumpCase (h : dumpCase calls = some (k, cmd)) : ∃ k₀ heap,
    runCalls FsCall.exec (fun _ _ ↦ True) calls consoleKernel = some k₀ ∧
      stringSplit k₀.heap (ofText "cat -b /f") space true = .ok (cmd, heap) ∧
      k = { k₀ with heap := heap } := by
  simp only [dumpCase, Option.bind_eq_bind, Option.bind_eq_some_iff, Prod.exists] at h
  obtain ⟨k₀, hk₀, cmd', heap, hsplit, heq⟩ := h
  cases heq
  exact ⟨k₀, heap, hk₀, toOption_eq_some.mp hsplit, rfl⟩

/-- The terminal is open if descriptor 0 is that of a special file of its name. -/
theorem terminalOpen_of_dumpCase (h : dumpCase calls = some (k, cmd))
    (hopened : k.fs.globalFdTable.marked 0 = true)
    (hspecial : k.fs.IsSpecial (k.fs.globalFdTable.entry 0).inodeNum)
    (hname : strcmp (k.fs.inode (k.fs.globalFdTable.entry 0).inodeNum).name (ofText "tty") = 0) :
    TerminalOpen k := by
  obtain ⟨k₀, heap, hk₀, -, rfl⟩ := exists_of_dumpCase h
  have hopen : TerminalOpen k₀ := ⟨systemFiles_of_reaches (reaches_of_runCalls hk₀), hopened,
    hspecial, (strcmp_eq_zero (by decide) _).mp hname⟩
  exact terminalOpen_heap hopen

/-- The three words are on the heap, and inside its page if they begin there. -/
theorem onPage_of_dumpCase (h : dumpCase calls = some (k, cmd))
    (hpage : ∀ i < 3, 0x400000 ≤ (cmd.string k.heap i).contents ∧
      (cmd.string k.heap i).contents + 3 < 0x400000 + kernelHeapSize) :
    ∃ live placed, OnPage k.heap live cmd placed ∧
      placed.map Prod.snd = [ofText "cat", ofText "-b", ofText "/f"] := by
  obtain ⟨k₀, heap, hk₀, hsplit, rfl⟩ := exists_of_dumpCase h
  obtain ⟨live, hinv, hbottom⟩ := heap_of_reaches_console (reaches_of_runCalls hk₀)
  have hsplit : stringSplit k₀.heap (CString.literal "cat -b /f").chars space true =
      .ok (cmd, heap) := hsplit
  obtain ⟨live', placed, hparsed⟩ := parsed_of_stringSplit hinv (by decide) hsplit
  have hwords : placed.map Prod.snd = [ofText "cat", ofText "-b", ofText "/f"] :=
    hparsed.words.trans (by decide)
  have hbottom' : heap.allocator.bottom = 0x400000 :=
    hparsed.split.frame.bottom.trans hbottom
  have hlow : heap.allocator.bottom + scannedBits < 2 ^ 32 := by
    rw [hbottom']
    decide
  have hlen : placed.length = 3 := by
    rw [← List.length_map Prod.snd, hwords]
    rfl
  refine ⟨live', placed, ⟨hparsed.split.inv, hlow, hparsed.split.words, hparsed.nonzero,
    fun p hp ↦ ?_⟩, hwords⟩
  obtain ⟨i, hi, rfl⟩ := List.getElem_of_mem hp
  have hshort : placed[i].2.length ≤ 3 := by
    have hmem : placed[i].2 ∈ placed.map Prod.snd := List.mem_map_of_mem hp
    rw [hwords] at hmem
    exact (by decide : ∀ word ∈ [ofText "cat", ofText "-b", ofText "/f"], word.length ≤ 3) _ hmem
  have hin := hpage i (hlen ▸ hi)
  simp only [hparsed.split.words.string_eq hparsed.split.inv hlow hi] at hin
  rw [hbottom']
  exact ⟨hin.1, by omega⟩

end

/-- The two bytes of `/f`. -/
theorem dumpsFile_hi : ∃ k cmd k', dumpCase fileCalls = some (k, cmd) ∧
    execCat k stdout cmd 10 = .ok (0, k') ∧ DumpsFile k k' (ofText "hi") := by
  obtain ⟨⟨k, cmd⟩, hcase, hcheck⟩ := (Option.any_eq_true _ _).mp
    (show (dumpCase fileCalls).any (fun c ↦
      decide (c.1.fs.globalFdTable.marked 0 = true ∧
        c.1.fs.IsSpecial (c.1.fs.globalFdTable.entry 0).inodeNum ∧
        strcmp (c.1.fs.inode (c.1.fs.globalFdTable.entry 0).inodeNum).name (ofText "tty") = 0) &&
      (List.range 3).all (fun i ↦ decide (0x400000 ≤ (c.2.string c.1.heap i).contents ∧
        (c.2.string c.1.heap i).contents + 3 < 0x400000 + kernelHeapSize)) &&
      decide ((lookupPath c.1.fs (ofText "/f")).toOption = some 4 ∧ c.1.fs.IsNormal 4 ∧
        (c.1.fs.inode 4).size = 2 ∧ (openFile c.1 (.literal "/f")).toOption.isSome = true ∧
        contents c.1.fs 4 = ofText "hi")) = true by decide +kernel)
  obtain ⟨hcheck, hfile⟩ := Bool.and_eq_true_iff.mp hcheck
  obtain ⟨hterminal, hpage⟩ := Bool.and_eq_true_iff.mp hcheck
  obtain ⟨hopened, hspecial, hname⟩ := of_decide_eq_true hterminal
  obtain ⟨hlookup, hnormal, hsize, hopen, hbytes⟩ := of_decide_eq_true hfile
  obtain ⟨live, placed, hp, hwords⟩ := onPage_of_dumpCase hcase fun i hi ↦
    of_decide_eq_true (List.all_eq_true.mp hpage i (List.mem_range.mpr hi))
  obtain ⟨⟨fd, k₁⟩, hopen⟩ := Option.isSome_iff_exists.mp hopen
  have hfuel : (k.fs.inode 4).size < 10 := by
    rw [hsize]
    decide
  have htext : ∀ c ∈ contents k.fs 4, c < 128 := by
    rw [hbytes]
    decide +kernel
  obtain ⟨k', hexec, hdumps⟩ :=
    (dumpsFile_iff (terminalOpen_of_dumpCase hcase hopened hspecial hname) hp hwords
      (toOption_eq_some.mp hlookup) hnormal (by rw [hsize]; decide) (toOption_eq_some.mp hopen)
      hfuel).mpr htext
  exact ⟨k, cmd, k', hcase, hexec, hbytes ▸ hdumps⟩

/-- Making a file `/f` of one byte. -/
def highCalls : List FsCall :=
  [.create (.literal "/f") fun _ ↦ 0, .write 2 (fun _ ↦ 0x80) 1, .close 2]

/-- **A byte of 128 is not dumped.** -/
theorem high_not_dumped : ∃ k cmd, dumpCase highCalls = some (k, cmd) ∧
    contents k.fs 4 = [0x80] ∧
    ¬ ∃ k', execCat k stdout cmd 10 = .ok (0, k') ∧ DumpsFile k k' (contents k.fs 4) := by
  obtain ⟨⟨k, cmd⟩, hcase, hcheck⟩ := (Option.any_eq_true _ _).mp
    (show (dumpCase highCalls).any (fun c ↦
      decide (contents c.1.fs 4 = [0x80]) &&
        (execCat c.1 stdout c.2 10).toOption.isNone) = true by decide +kernel)
  obtain ⟨hbytes, hnone⟩ := Bool.and_eq_true_iff.mp hcheck
  refine ⟨k, cmd, hcase, of_decide_eq_true hbytes, fun ⟨k', hexec, _⟩ ↦ ?_⟩
  rw [hexec] at hnone
  cases hnone

end Yorha.Shell
