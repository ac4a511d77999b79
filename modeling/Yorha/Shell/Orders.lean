import Mathlib.Data.List.TakeWhile
import Yorha.Fs.Refine
import Yorha.Lib.Orders
import Yorha.Shell.Dump
import Yorha.Shell.Listing
import Yorha.Shell.Relookup

/-!
# Lines as orders

A line of words is an order to a store: `orderOf` reads it off the words, without the heap,
descriptors or inodes.  A command whose output goes to the terminal does what its words order, and
shows what the order says (`Command.exec_does`), as long as the line keeps to `KeepsLine`.  What
this excludes are the lines that other modules show to go wrong: those with paths through normal
files, those that open a directory or remove what is open.  `sget` and `run` are no orders.
-/

namespace Yorha.Shell

open Yorha.Lib Yorha.Str Yorha.Heap Yorha.Io
open Yorha.Fs hiding read write

/-! ## Lines -/

/-- A word, read as a path. -/
def asPath (word : List UInt8) : CString :=
  ⟨word.takeWhile (· ≠ 0), fun hzero ↦
    absurd (List.all_eq_true.mp List.all_takeWhile 0 hzero) (by decide)⟩

theorem asPath_chars (path : CString) : asPath path.chars = path := by
  obtain ⟨chars, hzero⟩ := path
  have hall : chars.takeWhile (· ≠ 0) = chars :=
    List.takeWhile_eq_self_iff.mpr fun c hc ↦ decide_eq_true fun h ↦ hzero (h ▸ hc)
  simp only [asPath, hall]

/-- The file of a word. -/
def wordFile (word : List UInt8) : Option (List Name × Name) := storePath (asPath word)

/-- The directory of a word: all its names lead there. -/
def wordDir (word : List UInt8) : Option (List Name) :=
  if word.head? = some slash then some (pathNames word) else none

/-- The first `count` bytes of a literal. -/
def notice (text : String) (count : Nat) : List UInt8 := (Bytes.ofList (ofText text)).take count

/-- `cat` dumps the file. -/
def IsDump (words : List (List UInt8)) : Prop := words.length = 3 ∧ words[1]? = some (ofText "-b")

instance (words : List (List UInt8)) : Decidable (IsDump words) :=
  inferInstanceAs (Decidable (_ ∧ _))

/-- What `cat` makes of a byte. -/
def catChar (words : List (List UInt8)) (c : UInt8) : List UInt8 :=
  if IsDump words then dumpByte c else [c]

/-- What the words of a command order. -/
def commandOrder (words : List (List UInt8)) : Command → Option (Order Name UInt8)
  | .help => some (.notify (notice "commands: ls, cat, echo, touch, rm, mkdir\n" 43))
  | .ls => words[1]?.map fun word ↦ .list (wordDir word) (separated word)
  | .cat => words.getLast?.map fun word ↦ .display (wordFile word) (·.flatMap (catChar words))
  | .echo => words[1]?.map .say
  | .touch => words[1]?.map fun word ↦ .make (wordFile word) .file
  | .rm => words[1]?.map fun word ↦ .remove (wordFile word)
  | .mkdir => words[1]?.map fun word ↦ .make (wordFile word) .dir
  | .unknown => some (.notify (notice "Couldn't parse command\n" 24))
  | .exit => none
  | .sget => none
  | .run => none

/-- What a line orders, and the file that it redirects to. -/
def orderOf (line : List UInt8) : Option (Directed Name UInt8) :=
  let words := splitWords space true false line
  (commandOrder words (namedCommand (words.headD []) commandNames)).map fun o ↦
    ⟨o, (redirection words).map wordFile⟩

/-- The path leads through directories, and to no directory or device. -/
def OpensFile (fs : FileSystem) (path : CString) : Prop :=
  fs.SafePath path ∧ ∀ e ∈ fs.target path, fs.IsNormal e

instance (fs : FileSystem) (path : CString) : Decidable (OpensFile fs path) :=
  inferInstanceAs (Decidable (_ ∧ ∀ e ∈ _, _))

/-- What a word has to be for the command, in a line that redirects to a target. -/
def KeepsWord (fs : FileSystem) (target : Option (List UInt8)) (word : List UInt8) :
    Command → Prop
  | .ls => word.head? = some slash → fs.WalksDirs (pathNames word) 0
  | .cat => OpensFile fs (asPath word)
  | .touch => fs.SafePath (asPath word)
  | .mkdir => fs.SafePath (asPath word)
  | .rm => fs.SafePath (asPath word) ∧ ∀ e ∈ fs.target (asPath word),
      NotOpen fs e ∧ SafeTarget fs e ∧ ∀ g ∈ target, fs.target (asPath g) ≠ some e
  | _ => True

instance (fs : FileSystem) (target : Option (List UInt8)) (word : List UInt8) :
    ∀ command, Decidable (KeepsWord fs target word command)
  | .ls => inferInstanceAs (Decidable (_ → _))
  | .cat => inferInstanceAs (Decidable (OpensFile _ _))
  | .touch => inferInstanceAs (Decidable (fs.SafePath _))
  | .mkdir => inferInstanceAs (Decidable (fs.SafePath _))
  | .rm => inferInstanceAs (Decidable (_ ∧ ∀ e ∈ _, _ ∧ _ ∧ ∀ g ∈ _, _))
  | .exit => inferInstanceAs (Decidable True)
  | .help => inferInstanceAs (Decidable True)
  | .echo => inferInstanceAs (Decidable True)
  | .sget => inferInstanceAs (Decidable True)
  | .run => inferInstanceAs (Decidable True)
  | .unknown => inferInstanceAs (Decidable True)

/-- The word that a command is about. -/
def commandWord (words : List (List UInt8)) : Command → Option (List UInt8)
  | .cat => words.getLast?
  | _ => words[1]?

/-- A line that is an order, with a path that its command can take, and that redirects to an
empty file, if to any that is there. -/
def KeepsLine (fs : FileSystem) (line : CString) : Prop :=
  let words := splitWords space true false line.chars
  (orderOf line.chars).isSome = true ∧
  (∀ word ∈ redirection words, OpensFile fs (asPath word) ∧
    ∀ e ∈ fs.target (asPath word), (fs.inode e).size = 0) ∧
  ∀ word ∈ commandWord words (lineCommand line),
    KeepsWord fs (redirection words) word (lineCommand line)

instance (fs : FileSystem) (line : CString) : Decidable (KeepsLine fs line) :=
  inferInstanceAs (Decidable (_ = true ∧ (∀ word ∈ _, _ ∧ ∀ e ∈ _, _) ∧ ∀ word ∈ _, _))

/-! ## The kernel between the calls -/

/-- What the calls of the shell need, and keep. -/
structure Serving (k : Kernel Console) : Prop where
  store : StoreInv k
  terminal : TerminalOpen k

section

variable {k k' : Kernel Console} {path : CString} {fd v : Int} {e m n i : Nat}
  {text : List UInt8}

theorem Serving.congr (hk : Serving k) (hfs : k'.fs = k.fs) (ht : TerminalOpen k') :
    Serving k' := by
  obtain ⟨⟨⟨hsound, hlive, hfiles⟩, hfit⟩, -⟩ := hk
  exact ⟨⟨⟨hfs ▸ hsound, hfs ▸ hlive, hfs ▸ hfiles⟩, hfs ▸ hfit⟩, ht⟩

theorem Serving.heap (hk : Serving k) (heap : KernelHeap) : Serving { k with heap := heap } :=
  hk.congr rfl (terminalOpen_heap hk.terminal)

theorem Serving.displayed (hk : Serving k) (h : Displayed k k' text) : Serving k' :=
  hk.congr h.fs h.terminal

/-- **A call is a step of the store.** -/
theorem Serving.call {c : FsCall} (hk : Serving k) (hc : KeepsStore k c)
    (h : c.exec k = .ok (v, k')) (ht : TerminalOpen k') : Serving k' ∧
      ∃ buf, k.fs.store.Serves 0 blockBytes (seen (c, v, buf)) k'.fs.store := by
  obtain ⟨buf, hanswer⟩ := answer_of_exec h
  have hanswers : Answers k (c, v, buf) k' := ⟨hc, hanswer⟩
  exact ⟨⟨hk.store.step hanswers, ht⟩, buf, hanswers.serves hk.store⟩

theorem not_isDir_of_isNormal {fs : FileSystem} (h : fs.IsNormal i) : ¬ fs.IsDir i := by
  intro hdir
  rw [FileSystem.IsNormal, hdir] at h
  exact absurd h (by decide)

/-- **Opening a file.** -/
theorem Serving.openFile (hk : Serving k) (hopens : OpensFile k.fs path)
    (h : openFile k path = .ok (fd, k')) : Serving k' ∧ k'.dev = k.dev ∧ fd ≠ 0 ∧
      ∃ buf, k.fs.store.Serves 0 blockBytes (seen (.openFile path, fd, buf)) k'.fs.store := by
  obtain ⟨ht, hdev, hne⟩ := hk.terminal.openFile h
  have hc : KeepsStore k (.openFile path) :=
    ⟨⟨trivial, fun e he ↦ absurd he (Option.not_mem_none e), hopens.1,
      fun e he ↦ not_isDir_of_isNormal (hopens.2 e he)⟩, trivial⟩
  obtain ⟨hk', hserves⟩ := hk.call hc h ht
  exact ⟨hk', hdev, hne, hserves⟩

/-- **Closing another descriptor than that of the terminal.** -/
theorem Serving.close (hk : Serving k) (hm : m < descriptorCount) (hne : m ≠ 0)
    (h : close k m = .ok (v, k')) : Serving k' ∧ k'.dev = k.dev ∧
      k'.fs.store = k.fs.store.setHandle m none := by
  obtain ⟨ht, -⟩ := hk.terminal.close hm hne h
  have hc : KeepsStore k (.close m) :=
    ⟨⟨.inr ⟨Int.natCast_nonneg m, Int.ofNat_lt.mpr hm⟩,
      fun e he ↦ absurd he (Option.not_mem_none e), trivial⟩, trivial⟩
  obtain ⟨hk', buf, hserves⟩ := hk.call hc h ht
  refine ⟨hk', ?_, ?_⟩
  · obtain ⟨-, t, -, rfl⟩ := close_ok h
    rfl
  · generalize hstore : k'.fs.store = s' at hserves
    cases hserves
    rfl

/-- The terminal stays open where its inode keeps all but its size. -/
theorem TerminalOpen.of_inode (h : TerminalOpen k) (hfiles : k'.systemFiles = k.systemFiles)
    (htable : k'.fs.globalFdTable = k.fs.globalFdTable)
    (hinode : k'.fs.inode (k.fs.globalFdTable.entry 0).inodeNum =
      { k.fs.inode (k.fs.globalFdTable.entry 0).inodeNum with size := n }) : TerminalOpen k' where
  files := hfiles ▸ h.files
  opened := htable ▸ h.opened
  special := by
    rw [FileSystem.IsSpecial, htable, hinode]
    exact h.special
  name := by
    rw [htable, hinode]
    exact h.name

/-- **Making a file** that is not opened. -/
theorem Serving.createFiletype {fileType : UInt8} {past : Bytes} (hk : Serving k)
    (hsafe : k.fs.SafePath path) (h : createFiletype k path fileType false past = .ok (v, k')) :
    Serving k' ∧ k'.dev = k.dev ∧ ∃ buf, k.fs.store.Serves 0 blockBytes
      (seen (.createFiletype path fileType false past, v, buf)) k'.fs.store := by
  have hx : FsCall.exec k (.createFiletype path fileType false past) = .ok (v, k') := h
  have hc : KeepsStore k (.createFiletype path fileType false past) :=
    ⟨⟨trivial, fun e he ↦ absurd he (Option.not_mem_none e), hsafe,
      fun heq ↦ absurd heq Bool.false_ne_true⟩, trivial⟩
  obtain ⟨-, hlive, -⟩ := hk.store.opened hk.terminal.opened
  have ht : TerminalOpen k' := by
    rcases createFiletype_ok h with ⟨-, hfs⟩ | ⟨d, i, b, hcreated, hout⟩
    · exact hk.terminal.congr (exec_systemFiles hx) (by rw [hfs]) (by rw [hfs])
        fun j _ ↦ by rw [hfs]
    · obtain ⟨hd, -, -⟩ := hk.store.integrity.sound.place_of_seek hsafe hcreated.seek
      obtain ⟨n, hn, -⟩ := hcreated.inode_live hd hlive
      cases hout with
      | unopened htable => exact TerminalOpen.of_inode hk.terminal (exec_systemFiles hx) htable hn
  obtain ⟨hk', hserves⟩ := hk.call hc hx ht
  refine ⟨hk', ?_, hserves⟩
  cases createFiletype_steps h with
  | _ => rfl

/-- **Removing a file** that is not open. -/
theorem Serving.unlink {past : Bytes} (hk : Serving k) (hsafe : k.fs.SafePath path)
    (htarget : ∀ e ∈ k.fs.target path, NotOpen k.fs e ∧ SafeTarget k.fs e)
    (h : unlink k path past = .ok (v, k')) : Serving k' ∧ k'.dev = k.dev ∧
      ∃ buf, k.fs.store.Serves 0 blockBytes (seen (.unlink path past, v, buf)) k'.fs.store := by
  have hx : FsCall.exec k (.unlink path past) = .ok (v, k') := h
  have hc : KeepsStore k (.unlink path past) :=
    ⟨⟨trivial, fun e he ↦ (htarget e he).1, hsafe, fun e he ↦ (htarget e he).2⟩, trivial⟩
  have ht : TerminalOpen k' := by
    rcases unlink_ok h with ⟨-, rfl⟩ | ⟨-, -, d, e, hr⟩
    · exact hk.terminal
    · obtain ⟨n, -, hn⟩ := hr.entry.inode (k.fs.globalFdTable.entry 0).inodeNum
      exact TerminalOpen.of_inode hk.terminal (exec_systemFiles hx) hr.table hn
  obtain ⟨hk', hserves⟩ := hk.call hc hx ht
  refine ⟨hk', ?_, hserves⟩
  cases unlink_steps h with
  | _ => rfl

end

/-! ## What a command does -/

/-- A command does what the order says, and shows what it says. -/
structure Does (k : Kernel Console) (room : Option Nat) (o : Obeyed Name UInt8)
    (k' : Kernel Console) : Prop where
  serving : Serving k'
  output : k'.dev.output = k.dev.output ++ o.text
  obeys : k.fs.store.Obeys 0 room o k'.fs.store

/-- All that was done to the files and the terminal is that a text was shown. -/
structure Shows (k k' : Kernel Console) (text : List UInt8) : Prop where
  serving : Serving k'
  output : k'.dev.output = k.dev.output ++ text
  fs : k'.fs = k.fs

section

variable {k k' : Kernel Console} {cmd : StringList} {words : List (List UInt8)} {path : CString}
  {word text : List UInt8} {code v : Int} {m : Nat}

theorem Shows.trans {k₁ : Kernel Console} {text₁ : List UInt8} (h : Shows k k₁ text)
    (h₁ : Shows k₁ k' text₁) : Shows k k' (text ++ text₁) where
  serving := h₁.serving
  output := by rw [h₁.output, h.output, List.append_assoc]
  fs := h₁.fs.trans h.fs

/-- What is written to the terminal is shown. -/
theorem Serving.write {buf : Bytes} {count n : Nat} (hk : Serving k)
    (h : Fs.write k stdout buf count = .ok (n, k')) : Shows k k' (buf.take count) := by
  obtain ⟨houtput, hfs⟩ := hk.terminal.write h
  exact ⟨hk.congr hfs (hk.terminal.store h), houtput, hfs⟩

theorem Serving.print {literal : String} {count : Nat} (hk : Serving k)
    (h : print k stdout literal count = .ok k') : Shows k k' (notice literal count) := by
  simp only [Shell.print, bind_eq_ok, Prod.exists] at h
  obtain ⟨n, k₁, hwrite, h⟩ := h
  cases h
  exact hk.write hwrite

theorem Said.shows (hs : Said k k' stdout text) (hk : Serving k) : Shows k k' text := by
  have hfs : k'.fs = k.fs := by
    cases hs with
    | nothing hk' => rw [hk']
    | text hwrite _ hk' =>
        rw [hk']
        exact ((terminalOpen_heap hk.terminal).write hwrite).2
  exact ⟨hk.congr hfs (hs.terminalOpen hk.terminal), hs.output hk.terminal, hfs⟩

/-- The terminal takes all that is written. -/
theorem Serving.write_count {buf : Bytes} {count n : Nat} (hk : Serving k)
    (h : Fs.write k stdout buf count = .ok (n, k')) : n = count := by
  simp only [Fs.write, bind_eq_ok] at h
  obtain ⟨index, hindex, inode, hread, h⟩ := h
  obtain ⟨hfd, -⟩ := entryIndex_eq_ok.mp hindex
  obtain rfl : index = 0 := Int.ofNat_eq_zero.mp hfd.symm
  obtain ⟨-, rfl⟩ := FileSystem.readInode_eq_ok.mp hread
  rw [if_pos (show (k.fs.inode _).fileType = fileTypeSpecial from hk.terminal.special)] at h
  have hdevice := hk.terminal.device (k.fs.inode (k.fs.globalFdTable.entry 0).inodeNum).name
  split at h
  · rename_i file hfound
    rw [hfound] at hdevice
    simp only [bind_eq_ok, Prod.exists] at h
    obtain ⟨written, buf', dev, hhandler, h⟩ := h
    cases h
    cases hdevice with
    | tty _ hfile =>
        rw [hfile, record_handler_eq_ok] at hhandler
        obtain ⟨rfl, -⟩ := Prod.mk.inj (Except.ok.inj hhandler.1)
        rfl
    | ttyS hname => exact absurd hname (not_isString_ttyS hk.terminal.name)
  · rename_i hfound
    rw [hfound] at hdevice
    cases hdevice with
    | missing hname => exact absurd hk.terminal.name hname

/-! ## Listing -/

/-- The entries of a directory have different names, and are the names that it gives. -/
theorem nodup_childNames {fs : FileSystem} {d : Nat} (hs : Sound fs) (hd : fs.Live d) :
    ((fs.children d).map Prod.fst).Nodup := by
  have hlabels := hs.forest.labels hd
  rw [FileSystem.forest_children] at hlabels
  exact hlabels

theorem mem_childNames {fs : FileSystem} {d : Nat} (hd : fs.Live d) (name : Name) :
    name ∈ (fs.children d).map Prod.fst ↔ fs.store.child d name ≠ none := by
  rw [store_child hd, Ne, List.lookup_eq_none_iff, List.mem_map]
  constructor
  · rintro ⟨entry, hmem, rfl⟩ hnone
    exact absurd rfl (bne_iff_ne.mp (hnone entry hmem))
  · intro hsome
    simp only [not_forall] at hsome
    obtain ⟨entry, hmem, hname⟩ := hsome
    exact ⟨entry, hmem, (not_not.mp (mt bne_iff_ne.mpr hname)).symm⟩

/-- Where `seek_directory` finds nothing is no directory. -/
theorem notListed_of_seek {fs : FileSystem} (hs : Sound fs)
    (hseek : seekDirectory fs path.chars = .ok (-1)) :
    ∀ names d, wordDir path.chars = some names → fs.store.walk names 0 = some d →
      fs.store.isDir d = false := by
  intro names d hnames hwalk
  rw [wordDir] at hnames
  split at hnames
  · rename_i habs
    cases hnames
    rw [hs.store_walk hs.root_live] at hwalk
    have hlive : fs.Live d := hs.forest.resolve_live hs.root_live hwalk
    by_contra hdir
    have hlead : Leads fs (pathNames path.chars) d :=
      ⟨hlive, (store_isDir_iff hlive).mp (Bool.eq_true_of_not_eq_false hdir), hwalk,
        hs.short_of_resolve hs.root_live hwalk⟩
    rw [seekDirectory_of_leads hs habs (zero_notMem_pathNames path) hlead] at hseek
    cases hseek
  · cases hnames

/-- What `seek_directory` finds is the directory that all the names lead to. -/
theorem leads_of_seek {fs : FileSystem} {r : Int} (hs : Sound fs)
    (hsafe : path.chars.head? = some slash → fs.WalksDirs (pathNames path.chars) 0)
    (hseek : seekDirectory fs path.chars = .ok r) (hr : r ≠ -1) :
    path.chars.head? = some slash ∧ ∃ d : Nat, r = d ∧ Leads fs (pathNames path.chars) d := by
  by_cases habs : path.chars.head? = some slash
  · rw [seekDirectory_eq_walk fs habs, components_eq_pathNames] at hseek
    rcases hs.walk_ok hs.root_live (zero_notMem_pathNames path) (hsafe habs) hseek with
      hneg | ⟨d, hd, hlive, hdir, hres, hshort⟩
    · exact absurd hneg hr
    · exact ⟨habs, d, hd, hlive, hdir, hres, hshort⟩
  · rw [seekDirectory_of_head_ne fs habs] at hseek
    cases hseek
    exact absurd rfl hr

/-- **`ls`** says what the directory has. -/
theorem execLs_obeys {out : Int} (room : Option Nat) (hk : Serving k)
    (hw : HasWords k.heap cmd words) (hword : words[1]? = some word)
    (hsafe : word.head? = some slash → k.fs.WalksDirs (pathNames word) 0)
    (h : execLs k out cmd = .ok (code, k')) : ∃ text, Said k k' out text ∧
      k.fs.store.Obeys 0 room ⟨.list (wordDir word) (separated word), code != -1, text⟩
        k.fs.store := by
  obtain ⟨text, hlisting, hsaid⟩ := execLs_said hw hword h
  have hs := hk.store.integrity.sound
  refine ⟨text, hsaid, ?_⟩
  simp only [execLs, bind_eq_ok, Prod.exists] at h
  obtain ⟨path, hpath, ptr, k₁, hlist, h⟩ := h
  obtain rfl := hw.argument_eq hword hpath
  simp only [strListDir, bind_eq_ok] at hlist
  obtain ⟨r, hseek, hlist⟩ := hlist
  by_cases hr : r = -1
  · subst hr
    rw [if_pos rfl] at hlist
    cases hlist
    cases h
    simp only [listing, hseek, ok_bind, if_true] at hlisting
    cases hlisting
    exact .notListed (notListed_of_seek hs hseek)
  · rw [if_neg hr] at hlist
    obtain ⟨habs, d, rfl, hlead⟩ := leads_of_seek hs hsafe hseek hr
    rw [listing_eq hseek, dirListed_eq hs hlead.live hlead.dir] at hlisting
    cases hlisting
    simp only [bind_eq_ok, Prod.exists] at hlist
    obtain ⟨inode, hinode, p, a, -, listed, -, hlist⟩ := hlist
    split at hlist
    · cases hlist
      simp only [bind_eq_ok, Prod.exists] at h
      obtain ⟨text, -, n, k₂, -, a', -, h⟩ := h
      cases h
      rw [wordDir, if_pos habs]
      refine .listed ?_ ((store_isDir_iff hlead.live).mpr hlead.dir)
        (nodup_childNames hs hlead.live) (mem_childNames hlead.live)
      rw [hs.store_walk hs.root_live]
      exact hlead.resolve
    · cases hlist

/-! ## Copying a file -/

section

variable {s : Store Nat Name UInt8} {i fuel : Nat} {c : UInt8} {rest : List UInt8}

/-- A word is matched with a literal. -/
theorem HasWords.dumps (hw : HasWords k.heap cmd words) {b : Bool}
    (h : dumps k.heap cmd = .ok b) : b = true ↔ IsDump words := by
  rw [Shell.dumps, hw.len] at h
  split at h
  · rename_i hlen
    have hlt : 1 < words.length := by omega
    obtain ⟨live, hstored⟩ := hw.stored 1 hlt
    rw [matchString_eq hstored (hw.nonzero _ (List.getElem_mem hlt)) (by decide) h, IsDump,
      List.getElem?_eq_getElem hlt, Option.some_inj]
    exact ⟨fun hword ↦ ⟨hlen, hword⟩, And.right⟩
  · rename_i hlen
    cases h
    exact iff_of_false Bool.false_ne_true fun hdumps ↦ hlen hdumps.1

/-- **The body of the loop** shows what is made of the byte. -/
theorem catByte_shown (h : TerminalOpen k) (hw : HasWords k.heap cmd words)
    (hc : catByte k stdout cmd c = .ok k') : Displayed k k' (catChar words c) := by
  have hbyte := hc
  simp only [catByte, bind_eq_ok] at hc
  obtain ⟨dump, hdump, hc⟩ := hc
  have hdumps := hw.dumps hdump
  rw [catChar]
  split at hc
  · rename_i htrue
    subst htrue
    have hlt : c < 128 := by
      by_contra hge
      rw [catByte_fault h hdump hge] at hbyte
      cases hbyte
    obtain ⟨k'', hbyte', hdisplayed⟩ := catByte_displayed h hdump hlt
    obtain rfl : k' = k'' := Except.ok.inj (hbyte.symm.trans hbyte')
    rw [if_pos (hdumps.mp rfl)]
    exact hdisplayed
  · rename_i hfalse
    simp only [bind_eq_ok, Prod.exists] at hc
    obtain ⟨n, k₁, hwrite, hc⟩ := hc
    cases hc
    obtain ⟨n', k'', hwrite', hdisplayed⟩ := writeChar_displayed h c
    rw [hwrite] at hwrite'
    cases hwrite'
    rw [if_neg (mt hdumps.mpr hfalse)]
    exact hdisplayed

/-- Handle `m` is open, and the rest of the store is as it was. -/
def OpenedHandle (s s' : Store Nat Name UInt8) (m : Nat) : Prop :=
  ∃ e, s' = s.setHandle m (some e)

/-- A handle that is open is a descriptor that is marked. -/
theorem marked_of_handle {fs : FileSystem} {e : Handle Nat} (h : fs.store.handle m = some e) :
    fs.globalFdTable.marked m = true := by
  by_contra hfree
  have hnone : fs.store.handle m = none :=
    storeHandle_eq_none.mpr (Bool.eq_false_of_not_eq_true hfree)
  rw [hnone] at h
  cases h

/-- **Reading a character** moves a cursor. -/
theorem Serving.readChar {o : Option UInt8} (hk : Serving k) (hs : OpenedHandle s k.fs.store m)
    (h : readChar k m = .ok (o, k')) : Serving k' ∧ OpenedHandle s k'.fs.store m := by
  obtain ⟨e, he⟩ := hs
  have hmarked : k.fs.globalFdTable.marked m = true :=
    marked_of_handle (by rw [he, Store.handle_setHandle])
  simp only [Shell.readChar, bind_eq_ok, Prod.exists] at h
  obtain ⟨n, buf, k₁, hread, h⟩ := h
  cases h
  have hx : FsCall.exec k (.read m (fun _ ↦ 0) 1) = .ok ((n : Int), k') := by
    simp only [FsCall.exec, hread, ok_bind]
  have hc : KeepsStore k (.read m (fun _ ↦ 0) 1) :=
    ⟨⟨trivial, fun e he ↦ absurd he (Option.not_mem_none e), trivial⟩, hmarked⟩
  obtain ⟨-, ht, -⟩ := hk.terminal.read hread
  obtain ⟨hk', buf', hserves⟩ := hk.call hc hx ht
  refine ⟨hk', ?_⟩
  generalize hstore : k'.fs.store = s' at hserves
  cases hserves with
  | read hhandle =>
      rw [he]
      exact ⟨_, Store.setHandle_setHandle _ _ _⟩
  | readDevice => exact ⟨e, he⟩

/-- **The loop** shows what is left of the file. -/
theorem Serving.catLoop {out : Int} (hk : Serving k) (hr : Reads k m i rest)
    (hout : out = stdout ∨ rest = []) (hs : OpenedHandle s k.fs.store m)
    (hw : HasWords k.heap cmd words) (h : catLoop m out cmd fuel k = .ok k') :
    Serving k' ∧ OpenedHandle s k'.fs.store m ∧
      k'.dev.output = k.dev.output ++ rest.flatMap (catChar words) := by
  induction fuel generalizing k rest with
  | zero => cases h
  | succ fuel ih =>
      obtain ⟨k₁, hread, hr₁, houtput, hheap⟩ := hr.readChar
      obtain ⟨hk₁, hs₁⟩ := hk.readChar hs hread
      simp only [Shell.catLoop, hread, ok_bind] at h
      cases rest with
      | nil =>
          cases h
          refine ⟨hk₁, hs₁, ?_⟩
          rw [houtput, List.flatMap_nil, List.append_nil]
      | cons c rest =>
          obtain rfl := hout.resolve_right (List.cons_ne_nil c rest)
          simp only [List.head?_cons, bind_eq_ok] at h
          obtain ⟨k₂, hbyte, h⟩ := h
          have hd := catByte_shown hk₁.terminal (hheap ▸ hw) hbyte
          have hw₂ : HasWords k₂.heap cmd words := by
            rw [hd.heap, hheap]
            exact hw
          obtain ⟨hk', hs', hrest⟩ := ih (hk₁.displayed hd) (hr₁.of_displayed hd)
            (.inl rfl) (hd.fs ▸ hs₁) hw₂ h
          refine ⟨hk', hs', ?_⟩
          rw [hrest, hd.output, houtput, List.flatMap_cons, List.append_assoc, List.tail_cons]

/-- What is opened for a path: nothing is there, or a new handle is open on its file. -/
theorem Serving.opens {fd : Int} (hk : Serving k) (hopens : OpensFile k.fs path)
    (h : Fs.openFile k path = .ok (fd, k')) : Serving k' ∧ k'.dev = k.dev ∧ ∃ d n,
      k.fs.store.place 0 (storePath path) = some (d, n) ∧
      ((fd = -1 ∧ k.fs.store.child d n = none ∧ k'.fs.store = k.fs.store) ∨
        ∃ m i : Nat, fd = m ∧ m ≠ 0 ∧ k.fs.store.child d n = some i ∧
          k.fs.store.node i = some (.file (k.fs.content i)) ∧ k.fs.store.handle m = none ∧
          k'.fs.store = k.fs.store.setHandle m (some ⟨i, 0, 0⟩) ∧
          Reads k' m i (k.fs.content i)) := by
  obtain ⟨hk', hdev, hne, buf, hserves⟩ := hk.openFile hopens h
  refine ⟨hk', hdev, ?_⟩
  have hs := hk.store.integrity.sound
  obtain ⟨t, ht, d, hseek, r, hsearch, ⟨rfl, -, -⟩ | ⟨hr, m, rfl, hopened⟩⟩ := openFile_ok h
  · generalize hstore : k'.fs.store = s' at hserves
    cases hserves with
    | openRefused hplace hchild => exact ⟨_, _, hplace, .inl ⟨rfl, hchild, rfl⟩⟩
  · obtain ⟨hlive, hdir, hplace⟩ := hs.place_of_seek hopens.1 hseek
    obtain ⟨htarget, hilive⟩ := hs.target_of_search hopens.1 hseek hsearch hr
    have hnormal := hopens.2 _ htarget
    have hlookup := hs.lookup_of_search hlive hdir (zero_notMem_fileName path) hsearch hr
    obtain ⟨hinode, hpos, -⟩ := opened_entry hopened ht
    refine ⟨d, fileName path, hplace, .inr ⟨m, toUint32 r, rfl, Int.natCast_ne_zero.mp hne, ?_, ?_,
      storeHandle_eq_none.mpr hopened.free, ?_, ?_⟩⟩
    · rw [store_child hlive]
      exact hlookup
    · exact storeNode_of_file hilive (not_isDir_of_isNormal hnormal) hnormal.not_isSpecial
    · have hm : ¬ (m : Int) = -1 := by omega
      simp only [seen, FsCall.request, FsCall.reply, if_neg hm, Int.toNat_natCast] at hserves
      generalize k'.fs.store = s' at hserves
      cases hserves with
      | opened hplace' hchild' =>
          obtain ⟨rfl, rfl⟩ := Prod.mk.inj (Option.some.inj (hplace.symm.trans hplace'))
          rw [store_child hlive, hlookup] at hchild'
          rw [Option.some.inj hchild']
    · refine ⟨hk'.terminal, hopened.lt, hinode, ?_, ?_, ?_⟩
      · rw [ht]
        exact hnormal
      · rw [ht]
        exact hk.store.fit _ hilive (not_isDir_of_isNormal hnormal) hnormal.not_isSpecial
      · rw [hpos, ht, Nat.sub_zero, Bytes.drop_zero]
        rfl

/-- **`cat`** shows the file; where it writes to another descriptor, nothing is left of an empty
one. -/
theorem execCat_does {live : LiveBlocks} {out : Int} (room : Option Nat) (hk : Serving k)
    (hinv : HeapInv k.heap.allocator live)
    (hw : ∀ {h' : KernelHeap}, Keeps k.heap h' live → HasWords h' cmd words)
    (hword : words.getLast? = some word) (hopens : OpensFile k.fs (asPath word))
    (hout : out = stdout ∨ ∀ d n i, k.fs.store.place 0 (wordFile word) = some (d, n) →
      k.fs.store.child d n = some i → k.fs.store.node i = some (.file []))
    (h : execCat k out cmd fuel = .ok (code, k')) : ∃ text, (out = stdout ∨ text = []) ∧
      Does k room ⟨.display (wordFile word) (·.flatMap (catChar words)), code != -1, text⟩ k' := by
  simp only [execCat, bind_eq_ok, Prod.exists] at h
  obtain ⟨path, hpath, fd, k₁, hopen, h⟩ := h
  have hw₀ := hw (Keeps.refl hinv)
  rw [List.getLast?_eq_getElem?, ← hw₀.len] at hword
  obtain rfl := hw₀.argument_eq hword hpath
  rw [wordFile, asPath_chars] at hout ⊢
  rw [asPath_chars] at hopens
  obtain ⟨hk₁, hdev, d, n, hplace, ⟨rfl, hchild, hstore⟩ |
    ⟨m, i, rfl, hne, hchild, hnode, hfree, hopened, hr⟩⟩ := hk.opens hopens hopen
  · cases h
    refine ⟨[], .inr rfl, hk₁, ?_, ?_⟩
    · rw [hdev]
      exact (List.append_nil _).symm
    · rw [hstore]
      exact .notDisplayed hplace hchild
  · rw [if_neg (by omega)] at h
    simp only [bind_eq_ok, Prod.exists] at h
    obtain ⟨k₂, hloop, v, k₃, hclose, h⟩ := h
    cases h
    have hcontent : out = stdout ∨ k.fs.content i = [] :=
      hout.imp_right fun hempty ↦ by
        have hnil := hempty d n i hplace hchild
        rw [hnode] at hnil
        exact Node.file.inj (Option.some.inj hnil)
    have hw₁ := hw (openFile_heap hinv hopen).2
    obtain ⟨hk₂, ⟨e, he⟩, houtput⟩ := hk₁.catLoop hr hcontent ⟨_, hopened⟩ hw₁ hloop
    obtain ⟨hk₃, hdev₃, hclosed⟩ := hk₂.close hr.lt hne hclose
    refine ⟨(k.fs.content i).flatMap (catChar words), ?_, hk₃, ?_, ?_⟩
    · exact hcontent.imp_right fun hnil ↦ by rw [hnil, List.flatMap_nil]
    · rw [hdev₃, houtput, hdev]
    · rw [hclosed, he, Store.setHandle_free hfree]
      exact .displayed hplace hchild hnode

end

/-! ## Making and removing files -/

/-- **`touch` and `mkdir`** make a file. -/
theorem createFiletype_does {fileType : UInt8} {past : Bytes} (room : Option Nat) (hk : Serving k)
    (hsafe : k.fs.SafePath path)
    (h : createFiletype k path fileType false past = .ok (code, k')) :
    Does k room ⟨.make (storePath path) (kindOf fileType), code != -1, []⟩ k' := by
  obtain ⟨hk', hdev, buf, hserves⟩ := hk.createFiletype hsafe h
  refine ⟨hk', ?_, ?_⟩
  · rw [hdev]
    exact (List.append_nil _).symm
  · simp only [seen, FsCall.request, FsCall.reply, Bool.false_eq_true, if_false] at hserves
    generalize k'.fs.store = s' at hserves
    by_cases hcode : code = -1
    · subst hcode
      simp only [if_true] at hserves
      cases hserves with
      | makeRefused hplace => exact .notMade hplace
    · rw [bne_iff_ne.mpr hcode]
      simp only [if_neg hcode] at hserves
      cases hserves with
      | made hplace hchild hfresh => exact .made hplace hchild hfresh

/-- **`rm`** removes a file. -/
theorem unlink_does {past : Bytes} (room : Option Nat) (hk : Serving k)
    (hsafe : k.fs.SafePath path)
    (htarget : ∀ e ∈ k.fs.target path, NotOpen k.fs e ∧ SafeTarget k.fs e)
    (h : unlink k path past = .ok (code, k')) :
    Does k room ⟨.remove (storePath path), code != -1, []⟩ k' := by
  obtain ⟨hk', hdev, buf, hserves⟩ := hk.unlink hsafe htarget h
  refine ⟨hk', ?_, ?_⟩
  · rw [hdev]
    exact (List.append_nil _).symm
  · simp only [seen, FsCall.request, FsCall.reply] at hserves
    generalize k'.fs.store = s' at hserves
    by_cases hcode : code = -1
    · subst hcode
      simp only [if_true] at hserves
      cases hserves with
      | removeRefused hplace hchild => exact .notRemoved hplace hchild
    · rw [bne_iff_ne.mpr hcode]
      simp only [if_neg hcode] at hserves
      cases hserves with
      | removed hplace hchild hne hroot => exact .removed hplace hchild hne hroot

/-- The path of a command, of which there is a word. -/
theorem HasWords.asPath_eq (hw : HasWords k.heap cmd words) (hword : words[1]? = some word)
    (hpath : argument k cmd 1 = .ok path) : asPath word = path := by
  rw [← hw.argument_eq hword hpath, asPath_chars]

/-- The commands that say nothing do what their words order. -/
theorem Command.exec_files {command : Command} {o : Order Name UInt8} {out : Int}
    {outside : Outside Console} (room : Option Nat) (hk : Serving k)
    (hw : HasWords k.heap cmd words) (hfiles : command = .touch ∨ command = .rm ∨ command = .mkdir)
    (ho : commandOrder words command = some o)
    (hkeeps : ∀ word ∈ commandWord words command, KeepsWord k.fs none word command)
    (h : command.exec k out cmd outside = .ok (code, k')) :
    Does k room ⟨o, code != -1, []⟩ k' := by
  obtain rfl | rfl | rfl := hfiles
  · obtain ⟨word, hword, rfl⟩ := Option.map_eq_some_iff.mp ho
    have hsafe := hkeeps word hword
    simp only [Command.exec, execTouch, bind_eq_ok] at h
    obtain ⟨path, hpath, h⟩ := h
    obtain rfl := hw.asPath_eq hword hpath
    exact createFiletype_does room hk hsafe h
  · obtain ⟨word, hword, rfl⟩ := Option.map_eq_some_iff.mp ho
    obtain ⟨hsafe, htarget⟩ := hkeeps word hword
    simp only [Command.exec, execRm, bind_eq_ok] at h
    obtain ⟨path, hpath, h⟩ := h
    obtain rfl := hw.asPath_eq hword hpath
    exact unlink_does room hk hsafe (fun e he ↦ ⟨(htarget e he).1, (htarget e he).2.1⟩) h
  · obtain ⟨word, hword, rfl⟩ := Option.map_eq_some_iff.mp ho
    have hsafe := hkeeps word hword
    simp only [Command.exec, execMkdir, bind_eq_ok] at h
    obtain ⟨path, hpath, h⟩ := h
    obtain rfl := hw.asPath_eq hword hpath
    exact createFiletype_does room hk hsafe h

/-! ## To the terminal -/

/-- A notice is shown, wherever the command writes to. -/
theorem Command.exec_notify {command : Command} {out : Int} {outside : Outside Console}
    (hk : Serving k) (ho : commandOrder words command = some (.notify text))
    (h : command.exec k out cmd outside = .ok (code, k')) : code = 0 ∧ Shows k k' text := by
  cases command with
  | help =>
      cases ho
      simp only [Command.exec, bind_eq_ok] at h
      obtain ⟨k₁, hprint, h⟩ := h
      cases h
      exact ⟨rfl, hk.print hprint⟩
  | unknown =>
      cases ho
      simp only [Command.exec, bind_eq_ok] at h
      obtain ⟨k₁, hprint, h⟩ := h
      cases h
      exact ⟨rfl, hk.print hprint⟩
  | _ => simp [commandOrder] at ho

/-- **To the terminal, a command does what its words order.** -/
theorem Command.exec_does {command : Command} {o : Order Name UInt8} {live : LiveBlocks}
    {outside : Outside Console} (hk : Serving k) (hinv : HeapInv k.heap.allocator live)
    (hw : ∀ {h' : KernelHeap}, Keeps k.heap h' live → HasWords h' cmd words)
    (ho : commandOrder words command = some o)
    (hkeeps : ∀ word ∈ commandWord words command, KeepsWord k.fs none word command)
    (h : command.exec k stdout cmd outside = .ok (code, k')) :
    ∃ text, Does k none ⟨o, code != -1, text⟩ k' := by
  have hw₀ := hw (Keeps.refl hinv)
  cases command with
  | exit => cases ho
  | sget => cases ho
  | run => cases ho
  | help =>
      obtain rfl : Order.notify _ = o := Option.some.inj ho
      obtain ⟨rfl, hshows⟩ := Command.exec_notify hk ho h
      exact ⟨_, hshows.serving, hshows.output, hshows.fs ▸ .notified⟩
  | unknown =>
      obtain rfl : Order.notify _ = o := Option.some.inj ho
      obtain ⟨rfl, hshows⟩ := Command.exec_notify hk ho h
      exact ⟨_, hshows.serving, hshows.output, hshows.fs ▸ .notified⟩
  | ls =>
      obtain ⟨word, hword, rfl⟩ := Option.map_eq_some_iff.mp ho
      obtain ⟨text, hsaid, hobeys⟩ := execLs_obeys none hk hw₀ hword (hkeeps word hword) h
      have hshows := hsaid.shows hk
      exact ⟨text, hshows.serving, hshows.output, hshows.fs.symm ▸ hobeys⟩
  | cat =>
      obtain ⟨word, hword, rfl⟩ := Option.map_eq_some_iff.mp ho
      obtain ⟨text, -, hdoes⟩ :=
        execCat_does none hk hinv hw hword (hkeeps word hword) (.inl rfl) h
      exact ⟨text, hdoes⟩
  | echo =>
      obtain ⟨word, hword, rfl⟩ := Option.map_eq_some_iff.mp ho
      have hshows := (execEcho_said hw₀ hword h).shows hk
      refine ⟨word, hshows.serving, hshows.output, ?_⟩
      simp only [Command.exec, execEcho, bind_eq_ok, Prod.exists] at h
      obtain ⟨text, htext, n, k₁, hwrite, h⟩ := h
      cases h
      rw [hk.write_count hwrite, if_neg (not_not_intro rfl), hshows.fs]
      exact .said
  | touch => exact ⟨[], Command.exec_files none hk hw₀ (.inl rfl) ho hkeeps h⟩
  | rm => exact ⟨[], Command.exec_files none hk hw₀ (.inr (.inl rfl)) ho hkeeps h⟩
  | mkdir => exact ⟨[], Command.exec_files none hk hw₀ (.inr (.inr rfl)) ho hkeeps h⟩

end

end Yorha.Shell
