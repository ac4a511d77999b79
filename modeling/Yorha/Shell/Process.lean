import Yorha.Fs.Namespace
import Yorha.Shell.Keeps

/-!
# What the shell makes of a line

The words of a line lie on the heap, where the shell compares them with `>` and with the names
of the commands.  What it finds there is what the line says: `redirection` is the target that
its words redirect to, and `lineCommand` the command that its first word names.

`processCommand_ok` lists the ways in which a line is processed: its redirection fails, it is
an `exit`, or its command is executed.
-/

namespace Yorha.Shell

open Yorha.Lib Yorha.Str Yorha.Heap
open Yorha.Fs hiding read write

variable {δ : Type}

/-! ## Strings on the heap -/

section

variable {h : KernelHeap} {live : LiveBlocks} {s : HeapString} {word : List UInt8}

/-- A word that is stored with its terminator is a string there. -/
theorem isString_of_stored (hs : Stored h live 1 s (word ++ [0])) :
    (h.mem.drop s.contents).IsString word := by
  have hget : ∀ i (hi : i < (word ++ [0]).length),
      (h.mem.drop s.contents) i = (word ++ [0])[i] := by
    intro i hi
    rw [Bytes.eq_ofList hs.mem hi, Bytes.ofList_of_lt hi]
  constructor
  · intro i hi
    rw [hget i (by rw [List.length_append]; exact Nat.lt_add_right _ hi),
      List.getElem_append_left hi]
  · rw [hget _ (by rw [List.length_append]; exact Nat.lt_succ_self _),
      List.getElem_append_right (Nat.le_refl _)]
    exact List.getElem_singleton _

/-- What is read as a string is one. -/
theorem isString_of_heapString {ptr : Nat} {t : CString} (ht : heapString h ptr = .ok t) :
    (h.mem.drop ptr).IsString t.chars := by
  rw [heapString, readCString] at ht
  split at ht
  · rename_i chars hread
    cases ht
    exact (readString_eq_ok.mp hread).2.2
  · cases ht

/-- Reading a word back. -/
theorem heapString_eq (hs : Stored h live 1 s (word ++ [0])) (hword : 0 ∉ word) {t : CString}
    (ht : heapString h s.contents = .ok t) : t.chars = word :=
  (isString_of_heapString ht).unique (isString_of_stored hs) t.nonzero hword

/-- What `strcmpWithin` returns is what `strcmp` does. -/
theorem strcmp_of_strcmpWithin {limit : Nat} {str1 : Bytes} {str2 : List UInt8} {r : Int}
    (h : strcmpWithin limit str1 str2 = .ok r) : strcmp str1 str2 = r := by
  induction str2 generalizing limit str1 with
  | nil =>
      cases limit with
      | zero => cases h
      | succ limit => exact Except.ok.inj h
  | cons c str2 ih =>
      cases limit with
      | zero => cases h
      | succ limit =>
          rw [strcmpWithin] at h
          rw [strcmp]
          split at h
          · rename_i hc
            rw [if_pos hc]
            exact ih h
          · rename_i hc
            rw [if_neg hc]
            exact Except.ok.inj h

/-- Comparing a word with a literal. -/
theorem matchString_eq (hs : Stored h live 1 s (word ++ [0])) (hword : 0 ∉ word) {text : String}
    (htext : 0 ∉ ofText text) {b : Bool} (hm : matchString h s text = .ok b) :
    b = true ↔ word = ofText text := by
  simp only [matchString, bind_eq_ok] at hm
  obtain ⟨order, hcmp, hb⟩ := hm
  cases hb
  have horder := strcmp_of_strcmpWithin hcmp
  subst horder
  rw [beq_iff_eq, strcmp_eq_zero htext]
  constructor
  · intro hstring
    exact (isString_of_stored hs).unique hstring hword htext
  · rintro rfl
    exact isString_of_stored hs

end

/-! ## Redirections -/

/-- The word that the words of a line redirect to. -/
def redirection : List (List UInt8) → Option (List UInt8)
  | [] => none
  | [_] => none
  | word :: target :: words =>
      if word = ofText ">" then if words = [] then some target else none
      else redirection (target :: words)

/-- The inode number of a path, or -1. -/
def lookupPath (fs : FileSystem) (path : List UInt8) : Except Stop Int := do
  let last := lastSlash path 0 0
  let dirInodeNum ← seekDirectory fs (path.take (last + 1))
  searchDir fs (toUint32 dirInodeNum) (path.drop (last + 1))

/-- There is a file of this path. -/
def found (fs : FileSystem) (path : List UInt8) : Bool :=
  (lookupPath fs path).toOption.any (· != -1)

/-- What `open` does for a path that leads to an inode, or to none. -/
theorem openFile_lookup {k k' : Kernel δ} {path : CString} {fd : Int}
    (h : openFile k path = .ok (fd, k')) : ∃ r, lookupPath k.fs path.chars = .ok r ∧
      ∃ t, k'.fs = { k.fs with globalFdTable := t } ∧
        ((fd = -1 ∧ r = -1 ∧ t = k.fs.globalFdTable) ∨
          (r ≠ -1 ∧ ∃ n : Nat, fd = n ∧
            Opened k.fs.globalFdTable t n (toUint32 r) (fileName path))) := by
  obtain ⟨t, ht, d, hseek, r, hsearch, hcase⟩ := openFile_ok h
  have hd : toUint32 (d : Int) = d := toUint32_inode (searchDir_ok hsearch).1
  refine ⟨r, ?_, t, ht, hcase⟩
  have hseek' : seekDirectory k.fs (path.chars.take (lastSlash path.chars 0 0 + 1)) =
      .ok (d : Int) := hseek
  rw [lookupPath, hseek', ok_bind, hd]
  exact hsearch

/-- A file is opened exactly when it is there. -/
theorem openFile_found {k k' : Kernel δ} {path : CString} {fd : Int}
    (h : openFile k path = .ok (fd, k')) : found k.fs path.chars = true ↔ fd ≠ -1 := by
  obtain ⟨r, hlookup, t, -, hcase⟩ := openFile_lookup h
  have hfound : found k.fs path.chars = (r != -1) := by
    rw [found, hlookup]
    rfl
  rw [hfound, bne_iff_ne]
  rcases hcase with ⟨rfl, rfl, -⟩ | ⟨hr, n, rfl, -⟩
  · rfl
  · refine iff_of_true hr fun hneg ↦ ?_
    exact Int.natCast_nonneg n |>.not_gt (hneg ▸ by decide)

/-- Words that do not say `>` redirect to nothing. -/
theorem redirection_eq_none {words : List (List UInt8)} (h : ofText ">" ∉ words.dropLast) :
    redirection words = none := by
  induction words with
  | nil => rfl
  | cons word words ih =>
      cases words with
      | nil => rfl
      | cons target words =>
          rw [List.dropLast_cons_cons, List.mem_cons, not_or] at h
          rw [redirection, if_neg (Ne.symm h.1)]
          exact ih h.2

/-- A line redirects to its last word, if to any. -/
theorem getLast?_of_redirection {words : List (List UInt8)} {target : List UInt8}
    (h : redirection words = some target) : words.getLast? = some target := by
  induction words with
  | nil => cases h
  | cons word words ih =>
      cases words with
      | nil => cases h
      | cons next words =>
          rw [redirection] at h
          rw [List.getLast?_cons_cons]
          split at h
          · split at h
            · rename_i hnil
              cases h
              rw [hnil]
              rfl
            · cases h
          · exact ih h

section

variable {h : KernelHeap} {live : LiveBlocks} {cmd : StringList}
  {placed : List (HeapString × List UInt8)}

/-- The loop looks at all words but the last. -/
theorem scannedWords_eq (hinv : HeapInv h.allocator live)
    (hbottom : h.allocator.bottom + scannedBits < 2 ^ 32) (hw : Words h live cmd placed)
    (hne : placed ≠ []) : toUint32 ((cmd.len : Int) - 1) + 1 = placed.length := by
  have hpos := List.length_pos_of_ne_nil hne
  have hlen := hw.len_eq hne
  obtain ⟨hlt, -, -⟩ := (hw.stored_list hne).fields_lt hinv hbottom (by decide)
  have hpred : (cmd.len : Int) - 1 = ((cmd.len - 1 : Nat) : Int) := by omega
  rw [hpred, toUint32_of_lt (lt_of_le_of_lt (Nat.sub_le _ _) hlt)]
  omega

/-- What the loop finds is the target of the redirection. -/
theorem findRedirection_eq (hinv : HeapInv h.allocator live)
    (hbottom : h.allocator.bottom + scannedBits < 2 ^ 32) (hw : Words h live cmd placed)
    (hzero : ∀ p ∈ placed, 0 ∉ p.2) {n i : Nat} {r : Option Nat} (hn : i + n + 1 = placed.length)
    (hf : findRedirection h cmd n i = .ok r) :
    r = none ∧ ofText ">" ∉ ((placed.drop i).map Prod.snd).dropLast ∨
      ∃ j, ∃ hj : j < placed.length, r = some j ∧
        redirection ((placed.drop i).map Prod.snd) = some (placed[j]).2 := by
  induction n generalizing i with
  | zero =>
      cases hf
      refine .inl ⟨rfl, ?_⟩
      rw [List.drop_eq_getElem_cons (by omega), List.drop_eq_nil_of_le (by omega)]
      exact List.not_mem_nil
  | succ n ih =>
      have hi : i < placed.length := by omega
      have hi' : i + 1 < placed.length := by omega
      have hdrop : placed.drop i = placed[i] :: placed[i + 1] :: placed.drop (i + 2) := by
        rw [List.drop_eq_getElem_cons hi, List.drop_eq_getElem_cons hi']
      simp only [findRedirection, bind_eq_ok] at hf
      obtain ⟨b, hmatch, hf⟩ := hf
      rw [hw.string_eq hinv hbottom hi] at hmatch
      have hword := matchString_eq (hw.stored _ (List.getElem_mem hi))
        (hzero _ (List.getElem_mem hi)) (by decide) hmatch
      rw [hdrop, List.map_cons, List.map_cons, redirection, List.dropLast_cons_cons,
        List.mem_cons, not_or]
      split at hf
      · rename_i hb
        rw [if_pos (hword.mp hb)]
        split at hf
        · rename_i hlast
          cases hf
          rw [hw.len_eq (List.ne_nil_of_length_pos (Nat.zero_lt_of_lt hi))] at hlast
          refine .inr ⟨_, hi', rfl, ?_⟩
          rw [if_pos]
          rw [List.drop_eq_nil_of_le (by omega)]
          rfl
        · cases hf
      · rename_i hb
        have hne : placed[i].2 ≠ ofText ">" := fun heq ↦ hb (hword.mpr heq)
        rw [if_neg hne]
        have hrest := ih (by omega) hf
        rw [List.drop_eq_getElem_cons hi', List.map_cons] at hrest
        exact hrest.imp_left fun ⟨hr, hnone⟩ ↦ ⟨hr, hne.symm, hnone⟩

/-- What the shell does for a redirection: nothing when no word but the last is `>`, or it
opens the target. -/
theorem openRedirection_ok {k k' : Kernel δ} {fd : Int} (hinv : HeapInv k.heap.allocator live)
    (hbottom : k.heap.allocator.bottom + scannedBits < 2 ^ 32)
    (hw : Words k.heap live cmd placed) (hzero : ∀ p ∈ placed, 0 ∉ p.2) (hne : placed ≠ [])
    (h : openRedirection k cmd = .ok (fd, k')) :
    ofText ">" ∉ (placed.map Prod.snd).dropLast ∧ fd = stdout ∧ k' = k ∨
      ∃ path : CString, redirection (placed.map Prod.snd) = some path.chars ∧
        openFile k path = .ok (fd, k') := by
  have hn : 0 + toUint32 ((cmd.len : Int) - 1) + 1 = placed.length := by
    rw [Nat.zero_add]
    exact scannedWords_eq hinv hbottom hw hne
  simp only [openRedirection, bind_eq_ok] at h
  obtain ⟨r, hfind, h⟩ := h
  rcases findRedirection_eq hinv hbottom hw hzero hn hfind with
    ⟨rfl, hred⟩ | ⟨j, hj, rfl, hred⟩
  · cases h
    exact .inl ⟨hred, rfl, rfl⟩
  · simp only [bind_eq_ok] at h
    obtain ⟨path, hpath, hopen⟩ := h
    rw [argument, hw.string_eq hinv hbottom hj] at hpath
    have hchars := heapString_eq (hw.stored _ (List.getElem_mem hj))
      (hzero _ (List.getElem_mem hj)) hpath
    exact .inr ⟨path, hchars ▸ hred, hopen⟩

/-- **A redirection fails exactly when its target is not there.** -/
theorem openRedirection_found {k k' : Kernel δ} {fd : Int} (hinv : HeapInv k.heap.allocator live)
    (hbottom : k.heap.allocator.bottom + scannedBits < 2 ^ 32)
    (hw : Words k.heap live cmd placed) (hzero : ∀ p ∈ placed, 0 ∉ p.2) (hne : placed ≠ [])
    (h : openRedirection k cmd = .ok (fd, k')) :
    (redirection (placed.map Prod.snd)).all (found k.fs) = true ↔ fd ≠ -1 := by
  rcases openRedirection_ok hinv hbottom hw hzero hne h with ⟨hred, rfl, -⟩ | ⟨path, hred, hopen⟩
  · rw [redirection_eq_none hred]
    exact iff_of_true rfl (by decide)
  · rw [hred]
    exact openFile_found hopen

end

/-! ## Processing a line -/

/-- The command that a word names. -/
def namedCommand (word : List UInt8) : List (String × Command) → Command
  | [] => .unknown
  | (name, command) :: names =>
      if word = ofText name then command else namedCommand word names

/-- The command that a line names with its first word. -/
def lineCommand (line : CString) : Command :=
  namedCommand ((splitWords space true false line.chars).headD []) commandNames

/-- The redirection of a line, if it has one, names a file that is there. -/
def ShellState.redirects (s : ShellState δ) (line : CString) : Bool :=
  (redirection (splitWords space true false line.chars)).all (found s.k.fs)

/-- What is done with a line up to the return of its command. -/
def ShellState.execCommand (s : ShellState δ) (line : CString) (outside : Outside δ) :
    Except Stop (Int × Kernel δ) := do
  let (cmd, heap) ← stringSplit s.k.heap line.chars space true
  let (exp1Stdout, k) ← openRedirection { s.k with heap := heap } cmd
  let command ← findCommand k.heap (cmd.string k.heap 0) commandNames
  command.exec k exp1Stdout cmd outside

/-- The heap has the words of a line. -/
structure Parsed (h h' : KernelHeap) (live live' : LiveBlocks) (line : CString)
    (cmd : StringList) (placed : List (HeapString × List UInt8)) : Prop where
  split : Split h h' live live' cmd placed
  words : placed.map Prod.snd = splitWords space true false line.chars
  nonzero : ∀ p ∈ placed, 0 ∉ p.2
  ne_nil : placed ≠ []

section

variable {h h' : KernelHeap} {live live' : LiveBlocks} {line : CString} {cmd : StringList}
  {placed : List (HeapString × List UInt8)}

theorem parsed_of_stringSplit (hinv : HeapInv h.allocator live) (hline : line.chars ≠ [])
    (hsplit : stringSplit h line.chars space true = .ok (cmd, h')) : ∃ live' placed,
      Parsed h h' live live' line cmd placed := by
  obtain ⟨live', placed, hsp, hwords⟩ := stringSplit_ok hinv hline hsplit
  refine ⟨live', placed, hsp, hwords, fun p hp hmem ↦ ?_, ?_⟩
  · have hword : p.2 ∈ splitWords space true false line.chars := by
      rw [← hwords]
      exact List.mem_map_of_mem hp
    exact line.nonzero (mem_of_mem_splitWords hword hmem)
  · rintro rfl
    exact splitWords_ne_nil space true false line.chars hwords.symm

/-- The tests of `PREFIX` find the command that the word names. -/
theorem findCommand_eq {s : HeapString} {word : List UInt8} (hs : Stored h live 1 s (word ++ [0]))
    (hword : 0 ∉ word) {names : List (String × Command)} (hnames : ∀ p ∈ names, 0 ∉ ofText p.1)
    {command : Command} (hf : findCommand h s names = .ok command) :
    command = namedCommand word names := by
  induction names with
  | nil =>
      cases hf
      rfl
  | cons p names ih =>
      simp only [findCommand, bind_eq_ok] at hf
      obtain ⟨b, hmatch, hf⟩ := hf
      have hb := matchString_eq hs hword (hnames p (List.mem_cons_self ..)) hmatch
      rw [namedCommand]
      split at hf
      · rename_i hfound
        cases hf
        rw [if_pos (hb.mp hfound)]
      · rename_i hfound
        rw [if_neg fun heq ↦ hfound (hb.mpr heq)]
        exact ih (fun q hq ↦ hnames q (List.mem_cons_of_mem _ hq)) hf

/-- The shell finds the command that the line names. -/
theorem Parsed.findCommand_eq (hp : Parsed h h' live live' line cmd placed) {h₁ : KernelHeap}
    (hkeeps : Keeps h' h₁ live')
    (hbottom : h.allocator.bottom + scannedBits < 2 ^ 32) {command : Command}
    (hf : findCommand h₁ (cmd.string h₁ 0) commandNames = .ok command) :
    command = lineCommand line := by
  have hpos : 0 < placed.length := List.length_pos_of_ne_nil hp.ne_nil
  have hwords := hp.split.words.frame hkeeps.frame (fun _ ↦ not_false) (fun _ _ ↦ not_false)
  have hbottom₁ : h₁.allocator.bottom + scannedBits < 2 ^ 32 := by
    rw [hkeeps.frame.bottom, hp.split.frame.bottom]
    exact hbottom
  rw [hwords.string_eq hkeeps.inv hbottom₁ hpos] at hf
  have hfirst : (splitWords space true false line.chars).headD [] = (placed[0]).2 := by
    rw [← hp.words, List.headD_eq_head?_getD, List.head?_map, List.head?_eq_getElem?,
      List.getElem?_eq_getElem hpos]
    rfl
  rw [lineCommand, hfirst]
  exact Shell.findCommand_eq (hwords.stored _ (List.getElem_mem hpos))
    (hp.nonzero _ (List.getElem_mem hpos)) (by decide) hf

end

/-- The ways in which a line is processed, with the steps that were made. -/
inductive Processed (s : ShellState δ) (live : LiveBlocks) (line : CString)
    (outside : Outside δ) : ShellState δ → Prop
  /-- The redirection fails. -/
  | refused {cmd : StringList} {heap : KernelHeap} {live₁ : LiveBlocks}
      {placed : List (HeapString × List UInt8)} {k₂ k₃ k₄ : Kernel δ} :
      Parsed s.k.heap heap live live₁ line cmd placed → s.redirects line = false →
      openRedirection { s.k with heap := heap } cmd = .ok (-1, k₂) →
      print k₂ stdout "Couldn't parse command
" 24 = .ok k₃ →
      print k₃ stdout "
$ " 3 = .ok k₄ →
      Processed s live line outside { s with k := k₄, pending := none }
  | exited {k' : Kernel δ} : s.redirects line = true → lineCommand line = .exit →
      Processed s live line outside { s with k := k', pending := none, exited := true }
  | executed {cmd : StringList} {heap : KernelHeap} {live₁ : LiveBlocks}
      {placed : List (HeapString × List UInt8)} {out code : Int} {k₂ k₃ k₄ : Kernel δ} :
      Parsed s.k.heap heap live live₁ line cmd placed → s.redirects line = true →
      openRedirection { s.k with heap := heap } cmd = .ok (out, k₂) → out ≠ -1 →
      lineCommand line ≠ .exit →
      (lineCommand line).exec k₂ out cmd outside = .ok (code, k₃) →
      s.execCommand line outside = .ok (code, k₃) →
      finishCommand k₃ out code cmd outside = .ok k₄ →
      Processed s live line outside
        { s with k := k₄, currCommand := { s.currCommand with len := 0 }, pending := none }

theorem processCommand_ok {s s' : ShellState δ} {live : LiveBlocks} {line : CString}
    {outside : Outside δ} (hinv : HeapInv s.k.heap.allocator live)
    (hbottom : s.k.heap.allocator.bottom + scannedBits < 2 ^ 32) (hline : line.chars ≠ [])
    (h : s.processCommand line outside = .ok s') : Processed s live line outside s' := by
  simp only [ShellState.processCommand, bind_eq_ok, Prod.exists] at h
  obtain ⟨cmd, heap₁, hsplit, out, k₂, hopen, h⟩ := h
  obtain ⟨live₁, placed, hp⟩ := parsed_of_stringSplit hinv hline hsplit
  have hbottom₁ : heap₁.allocator.bottom + scannedBits < 2 ^ 32 :=
    hp.split.frame.bottom ▸ hbottom
  have hfound := openRedirection_found (k := { s.k with heap := heap₁ }) hp.split.inv hbottom₁
    hp.split.words hp.nonzero hp.ne_nil hopen
  rw [hp.words] at hfound
  split at h
  · rename_i hneg
    subst hneg
    simp only [bind_eq_ok] at h
    obtain ⟨k₃, hprint, k₄, hprint', h⟩ := h
    cases h
    exact .refused hp (Bool.eq_false_iff.mpr fun hred ↦ hfound.mp hred rfl) hopen hprint hprint'
  · rename_i hne
    have hred : s.redirects line = true := hfound.mpr hne
    have hk₂ := openRedirection_keeps (k := { s.k with heap := heap₁ }) hp.split.inv hopen
    simp only [bind_eq_ok] at h
    obtain ⟨command, hfind, h⟩ := h
    obtain rfl := hp.findCommand_eq hk₂ hbottom hfind
    split at h
    · rename_i hexit
      simp only [bind_eq_ok] at h
      obtain ⟨heap₃, -, heap₄, -, heap₅, -, h⟩ := h
      cases h
      exact .exited hred hexit
    · rename_i hexit
      simp only [bind_eq_ok, Prod.exists] at h
      obtain ⟨code, k₃, hexec, k₄, hfinish, h⟩ := h
      cases h
      refine .executed hp hred hopen hne hexit hexec ?_ hfinish
      simp only [ShellState.execCommand, hsplit, hopen, hfind, ok_bind]
      exact hexec

end Yorha.Shell
