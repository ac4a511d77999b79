import Yorha.Fs.Full
import Yorha.Shell.Orders

/-!
# Sessions are runs of a store

The shell follows the orders of its lines: it does to the files what the store does that follows
them, and shows what is seen of this (`processCommand_follows`).  With a redirection, what is
said goes to an empty file; the command runs with one more descriptor, of which nothing is left in
the end.

A whole session is then a run of the store, line by line (`orders_of_reaches`).
-/

namespace Yorha.Shell

open Yorha.Lib Yorha.Str Yorha.Heap Yorha.Io
open Yorha.Fs hiding read write

section

variable {k k' : Kernel Console} {cmd : StringList} {words : List (List UInt8)}
  {text : List UInt8} {code : Int}

/-! ## To a file -/

/-- Handle `n` is open on the empty file `g`. -/
structure Target (k : Kernel Console) (n g : Nat) : Prop where
  ne : n ≠ 0
  handle : k.fs.store.handle n = some ⟨g, 0, 0⟩
  file : k.fs.store.node g = some (.file [])

/-- A command does what the order says, and what it says is put into the file. -/
structure Puts (k : Kernel Console) (n g : Nat) (o : Obeyed Name UInt8) (k' : Kernel Console) :
    Prop where
  serving : Serving k'
  output : k'.dev.output = k.dev.output
  obeys : ∃ s e, k.fs.store.Obeys 0 (some blockBytes) o s ∧ s.node g = some (.file []) ∧
    k'.fs.store =
      (s.setNode g (some (.file (o.text.take blockBytes)))).setHandle n (some e)

section

variable {fs : FileSystem} {n g i : Nat} {content : List UInt8}

/-- A node that is a file. -/
theorem file_of_node (h : fs.store.node i = some (.file content)) :
    fs.Live i ∧ ¬ fs.IsDir i ∧ ¬ fs.IsSpecial i ∧ content = fs.content i := by
  have hnode : fs.storeNode i = some (.file content) := h
  rw [FileSystem.storeNode] at hnode
  split at hnode
  · rename_i hlive
    split at hnode
    · cases hnode
    · rename_i hdir
      split at hnode
      · cases hnode
      · rename_i hsp
        cases hnode
        exact ⟨hlive, hdir, hsp, rfl⟩
  · cases hnode

/-- Writing to a file has nothing to do with the devices. -/
theorem write_dev {buf : Bytes} {count v : Nat}
    (hsp : ¬ k.fs.IsSpecial (k.fs.globalFdTable.entry n).inodeNum)
    (h : Fs.write k n buf count = .ok (v, k')) : k'.dev = k.dev := by
  simp only [Fs.write, bind_eq_ok] at h
  obtain ⟨index, hindex, inode, hinode, h⟩ := h
  obtain ⟨hfd, -⟩ := entryIndex_eq_ok.mp hindex
  obtain ⟨-, rfl⟩ := FileSystem.readInode_eq_ok.mp hinode
  rw [← Int.ofNat.inj hfd, if_neg (show ¬ (k.fs.inode _).fileType = fileTypeSpecial from hsp)] at h
  cases h
  rfl

/-- **Writing to the target.** -/
theorem Serving.put {buf : Bytes} {count v : Nat} (hk : Serving k) (ht : Target k n g)
    (h : Fs.write k n buf count = .ok (v, k')) : Serving k' ∧ k'.dev = k.dev ∧
      v = ((buf.take count).take blockBytes).length ∧ ∃ e, k'.fs.store =
        (k.fs.store.setNode g (some (.file ((buf.take count).take blockBytes)))).setHandle n
          (some e) := by
  have hmarked := marked_of_handle ht.handle
  have hentry := ht.handle
  change k.fs.storeHandle n = _ at hentry
  rw [storeHandle_of_marked hmarked] at hentry
  obtain ⟨hinode, -, hpos⟩ := Handle.mk.inj (Option.some.inj hentry)
  obtain ⟨hlive, -, hsp, hempty⟩ := file_of_node ht.file
  have hsize : (k.fs.inode g).size = 0 := by
    rw [← FileSystem.length_content, ← hempty]
    rfl
  have hx : FsCall.exec k (.write n buf count) = .ok ((v : Int), k') := by
    simp only [FsCall.exec, h, ok_bind]
  have hc : KeepsStore k (.write n buf count) := by
    refine ⟨⟨trivial, fun e he ↦ absurd he (Option.not_mem_none e), .inl hmarked⟩, hmarked,
      fun _ _ ↦ .inl ?_⟩
    change (k.fs.globalFdTable.entry n).writePos =
      (k.fs.inode (k.fs.globalFdTable.entry n).inodeNum).size
    rw [hpos, hinode, hsize]
  obtain ⟨hk', buf', hserves⟩ := hk.call hc hx (hk.terminal.store h)
  refine ⟨hk', write_dev (hinode ▸ hsp) h, ?_⟩
  have hdata : (List.range count).map buf = buf.take count := rfl
  simp only [seen, FsCall.request, FsCall.reply, Int.toNat_natCast, hdata] at hserves
  generalize k'.fs.store = s' at hserves
  cases hserves with
  | write hhandle hfile hfits hgap =>
      rw [ht.handle] at hhandle
      cases hhandle
      rw [ht.file] at hfile
      cases hfile
      rw [Nat.sub_zero] at hfits
      subst hfits
      have hover : Store.overwrite [] 0 ((buf.take count).take blockBytes) =
        (buf.take count).take blockBytes := Store.overwrite_length [] _
      refine ⟨rfl, ⟨g, 0, 0 + ((buf.take count).take blockBytes).length⟩, ?_⟩
      rw [hover]
  | writeDevice hhandle hdevice =>
      rw [ht.handle] at hhandle
      cases hhandle
      rw [ht.file] at hdevice
      cases hdevice

/-- The heap does not matter for the target. -/
theorem Target.heap (ht : Target k n g) (heap : KernelHeap) : Target { k with heap := heap } n g :=
  ⟨ht.ne, ht.handle, ht.file⟩

/-- What is said to the target is put there. -/
theorem Said.puts {o : Order Name UInt8} {ok : Bool} (hs : Said k k' n text) (hk : Serving k)
    (ht : Target k n g) (hobeys : k.fs.store.Obeys 0 (some blockBytes) ⟨o, ok, text⟩ k.fs.store) :
    Puts k n g ⟨o, ok, text⟩ k' := by
  cases hs with
  | nothing hk' =>
      subst hk'
      refine ⟨hk.heap _, rfl, _, ⟨g, 0, 0⟩, hobeys, ht.file, ?_⟩
      rw [List.take_nil, Store.setNode_self ht.file]
      exact (Store.setHandle_self ht.handle).symm
  | text hwrite htake hk' =>
      obtain ⟨hk₁, hdev, -, e, hstore⟩ := (hk.heap _).put (ht.heap _) hwrite
      subst hk'
      rw [htake] at hstore
      exact ⟨hk₁.heap _, congrArg Console.output hdev, _, e, hobeys, ht.file, hstore⟩

/-- A command that says nothing puts nothing there. -/
theorem Does.puts {o : Order Name UInt8} {ok : Bool}
    (h : Does k (some blockBytes) ⟨o, ok, []⟩ k') (ht : Target k n g)
    (hremove : ∀ path d m, o = .remove path → k.fs.store.place 0 path = some (d, m) →
      k.fs.store.child d m ≠ some g) : Puts k n g ⟨o, ok, []⟩ k' := by
  have hfile := h.obeys.file ht.file hremove
  refine ⟨h.serving, h.output.trans (List.append_nil _), _, ⟨g, 0, 0⟩, h.obeys, hfile, ?_⟩
  rw [List.take_nil, Store.setNode_self hfile]
  refine (Store.setHandle_self ?_).symm
  rw [h.obeys.handle]
  exact ht.handle

/-- **To a file, a command does what its words order.** -/
theorem Command.exec_puts {command : Command} {o : Order Name UInt8} {live : LiveBlocks}
    {outside : Outside Console} (hk : Serving k) (ht : Target k n g)
    (hinv : HeapInv k.heap.allocator live)
    (hw : ∀ {h' : KernelHeap}, Keeps k.heap h' live → HasWords h' cmd words)
    (ho : commandOrder words command = some o) (hnotice : ∀ text, o ≠ .notify text)
    (hkeeps : ∀ word ∈ commandWord words command, KeepsWord k.fs none word command)
    (hlast : ∀ word ∈ words.getLast?, ∀ d m i, k.fs.store.place 0 (wordFile word) = some (d, m) →
      k.fs.store.child d m = some i → i = g)
    (hremove : ∀ path d m, o = .remove path → k.fs.store.place 0 path = some (d, m) →
      k.fs.store.child d m ≠ some g)
    (h : command.exec k n cmd outside = .ok (code, k')) :
    ∃ text, Puts k n g ⟨o, code != -1, text⟩ k' := by
  have hw₀ := hw (Keeps.refl hinv)
  have hout : ¬ (n : Int) = stdout := Int.natCast_ne_zero.mpr ht.ne
  cases command with
  | exit => cases ho
  | sget => cases ho
  | run => cases ho
  | help => exact absurd (Option.some.inj ho).symm (hnotice _)
  | unknown => exact absurd (Option.some.inj ho).symm (hnotice _)
  | ls =>
      obtain ⟨word, hword, rfl⟩ := Option.map_eq_some_iff.mp ho
      obtain ⟨text, hsaid, hobeys⟩ := execLs_obeys _ hk hw₀ hword (hkeeps word hword) h
      exact ⟨text, hsaid.puts hk ht hobeys⟩
  | cat =>
      obtain ⟨word, hword, rfl⟩ := Option.map_eq_some_iff.mp ho
      have hempty : ∀ d m i, k.fs.store.place 0 (wordFile word) = some (d, m) →
          k.fs.store.child d m = some i → k.fs.store.node i = some (.file []) := by
        intro d m i hplace hchild
        rw [hlast word hword d m i hplace hchild]
        exact ht.file
      obtain ⟨text, htext, hdoes⟩ :=
        execCat_does _ hk hinv hw hword (hkeeps word hword) (.inr hempty) h
      obtain rfl := htext.resolve_left hout
      exact ⟨[], hdoes.puts ht hremove⟩
  | echo =>
      obtain ⟨word, hword, rfl⟩ := Option.map_eq_some_iff.mp ho
      refine ⟨word, (execEcho_said hw₀ hword h).puts hk ht ?_⟩
      simp only [Command.exec, execEcho, bind_eq_ok, Prod.exists] at h
      obtain ⟨text, htext, v, k₁, hwrite, h⟩ := h
      have hchars := hw₀.argument_eq hword htext
      obtain ⟨-, -, hv, -⟩ := hk.put ht hwrite
      rw [(isString_of_heapString htext).take_eq, List.length_take] at hv
      cases h
      have hok : ((if v ≠ text.chars.length then (-1 : Int) else 0) != -1) =
          decide (text.chars.length ≤ blockBytes) := by
        by_cases hle : text.chars.length ≤ blockBytes
        · rw [if_neg (not_not_intro (by omega)), decide_eq_true hle]
          rfl
        · rw [if_pos (by omega), decide_eq_false hle]
          rfl
      rw [hok, hchars]
      exact .said
  | touch => exact ⟨[], (Command.exec_files _ hk hw₀ (.inl rfl) ho hkeeps h).puts ht hremove⟩
  | rm => exact ⟨[], (Command.exec_files _ hk hw₀ (.inr (.inl rfl)) ho hkeeps h).puts ht hremove⟩
  | mkdir =>
      exact ⟨[], (Command.exec_files _ hk hw₀ (.inr (.inr rfl)) ho hkeeps h).puts ht hremove⟩

end

end

/-! ## Opening the target -/

section

variable {fs : FileSystem} {t : FileDescriptorTable} {path : CString} {d e g n : Nat} {name : Name}

/-- The file of a path in the store is that in the forest. -/
theorem target_of_place (hs : Sound fs)
    (hplace : fs.store.place 0 (storePath path) = some (d, name)) :
    fs.target path = fs.store.child d name := by
  rw [storePath] at hplace
  split at hplace
  · rw [Store.place, hs.store_walk hs.root_live, Option.bind_eq_some_iff] at hplace
    obtain ⟨d', hres, hplace⟩ := hplace
    split at hplace
    · cases hplace
      rw [FileSystem.target, hres, store_child (hs.forest.resolve_live hs.root_live hres)]
      rfl
    · cases hplace
  · cases hplace

/-- Whether a file is open can be seen from the store. -/
theorem notOpen_iff : NotOpen fs e ↔ ∀ n h, fs.store.handle n = some h → h.node ≠ e := by
  constructor
  · intro hnot n h hhandle
    have hmarked := marked_of_handle hhandle
    change fs.storeHandle n = some h at hhandle
    rw [storeHandle_of_marked hmarked] at hhandle
    cases hhandle
    exact hnot n (lt_of_marked hmarked) hmarked
  · exact fun hnot n _ hmarked ↦ hnot n _ (storeHandle_of_marked hmarked)

/-- Descriptors do not matter for walks. -/
theorem walksDirs_table (fs : FileSystem) (t : FileDescriptorTable) (names : List Name) (i : Nat) :
    FileSystem.WalksDirs { fs with globalFdTable := t } names i ↔ fs.WalksDirs names i := by
  induction names generalizing i with
  | nil => exact Iff.rfl
  | cons name names ih =>
      have hentries : FileSystem.entries { fs with globalFdTable := t } i = fs.entries i := rfl
      rw [FileSystem.WalksDirs, FileSystem.WalksDirs, hentries]
      cases (fs.entries i).lookup name with
      | none => exact Iff.rfl
      | some next => exact and_congr Iff.rfl (ih next)

/-- A command can take the word also when the target is open. -/
theorem KeepsWord.opened {fs' : FileSystem} {word target : List UInt8} {command : Command}
    (h : KeepsWord fs (some target) word command) (hfs : fs' = { fs with globalFdTable := t })
    (hstore : fs'.store = fs.store.setHandle n (some ⟨g, 0, 0⟩))
    (htarget : fs.target (asPath target) = some g) : KeepsWord fs' none word command := by
  have hsafe : ∀ path, fs.SafePath path → fs'.SafePath path := by
    intro path hpath habs
    rw [hfs]
    exact (walksDirs_table fs t _ 0).mpr (hpath habs)
  have heq : ∀ path, fs'.target path = fs.target path := by
    intro path
    rw [hfs]
    rfl
  cases command with
  | ls =>
      intro habs
      rw [hfs]
      exact (walksDirs_table fs t _ 0).mpr (h habs)
  | cat =>
      refine ⟨hsafe _ h.1, fun e he ↦ ?_⟩
      rw [heq] at he
      rw [hfs]
      exact h.2 e he
  | touch => exact hsafe _ h
  | mkdir => exact hsafe _ h
  | rm =>
      refine ⟨hsafe _ h.1, fun e he ↦ ?_⟩
      rw [heq] at he
      obtain ⟨hopen, hspecial, hother⟩ := h.2 e he
      refine ⟨notOpen_iff.mpr fun n' handle hhandle ↦ ?_, ?_,
        fun _ hnone ↦ absurd hnone (Option.not_mem_none _)⟩
      · rw [hstore] at hhandle
        change Function.update fs.store.handle n (some ⟨g, 0, 0⟩) n' = some handle at hhandle
        rw [Function.update_apply] at hhandle
        split at hhandle
        · cases hhandle
          exact fun hge ↦ hother target rfl (htarget.trans (congrArg some hge))
        · exact notOpen_iff.mp hopen n' handle hhandle
      · rw [hfs]
        exact hspecial
  | _ => trivial

/-- Only `rm` removes. -/
theorem rm_of_remove {words : List (List UInt8)} {command : Command}
    {path : Option (List Name × Name)} (h : commandOrder words command = some (.remove path)) :
    command = .rm ∧ ∃ word, words[1]? = some word ∧ path = wordFile word := by
  cases command with
  | rm =>
      obtain ⟨word, hword, heq⟩ := Option.map_eq_some_iff.mp h
      cases heq
      exact ⟨rfl, word, hword, rfl⟩
  | _ => simp [commandOrder] at h

end

/-! ## Processing a line -/

section

variable {k k' : Kernel Console} {cmd : StringList} {words : List (List UInt8)} {code : Int}
  {live : LiveBlocks} {outside : Outside Console} {line : CString} {s s' : ShellState Console}

/-- What is shown in the end: an error if the order failed, and the prompt. -/
def closing (outside : Outside Console) (ok : Bool) : List UInt8 :=
  (if ok then [] else outside.errorMsg.chars) ++ notice "\n$ " 3

/-- What is shown for a line. -/
def shownText (outside : Outside Console) : Option (Bool × List UInt8) → List UInt8
  | some (ok, text) => text ++ closing outside ok
  | none => notice "Couldn't parse command\n" 24 ++ notice "\n$ " 3

/-- What comes after a command, once its descriptor is closed. -/
theorem finishCommand_shows {out : Int} (h : finishCommand k out code cmd outside = .ok k') :
    ∃ k₁, closeRedirection k out = .ok k₁ ∧
      (Serving k₁ → Shows k₁ k' (closing outside (code != -1))) := by
  simp only [finishCommand, bind_eq_ok] at h
  obtain ⟨k₁, hclose, k₂, hreport, heap, -, hprint⟩ := h
  refine ⟨k₁, hclose, fun hk ↦ ?_⟩
  have hreported : Shows k₁ k₂ (if code != -1 then [] else outside.errorMsg.chars) := by
    rw [reportError] at hreport
    split at hreport
    · rename_i hcode
      subst hcode
      simp only [bind_eq_ok, Prod.exists] at hreport
      obtain ⟨n, k₂', hwrite, heq⟩ := hreport
      cases heq
      have hshows := hk.write hwrite
      rw [Bytes.take_ofList] at hshows
      exact hshows
    · rename_i hcode
      cases hreport
      rw [if_pos (bne_iff_ne.mpr hcode)]
      exact ⟨hk, (List.append_nil _).symm, rfl⟩
  have hprompt := (hreported.serving.heap heap).print hprint
  exact hreported.trans ⟨hprompt.serving, hprompt.output, hprompt.fs⟩

/-- A line was followed: the store is what it orders, and what is seen of it was shown. -/
structure LineDone (s : ShellState Console) (line : CString) (outside : Outside Console)
    (o : Followed Name UInt8) (s' : ShellState Console) : Prop where
  line : orderOf line.chars = some o.line
  follows : s.k.fs.store.Follows 0 blockBytes o s'.k.fs.store
  output : s'.k.dev.output = s.k.dev.output ++ shownText outside o.outcome

/-- A command that wrote to the terminal. -/
theorem Does.follows {o : Order Name UInt8} {text : List UInt8}
    (hdoes : Does k none ⟨o, code != -1, text⟩ k') {k'' : Kernel Console}
    (hfinish : finishCommand k' stdout code cmd outside = .ok k'') :
    Serving k'' ∧
      k.fs.store.Follows 0 blockBytes ⟨⟨o, none⟩, some (code != -1, text)⟩ k''.fs.store ∧
      k''.dev.output = k.dev.output ++ shownText outside (some (code != -1, text)) := by
  obtain ⟨k₁, hclose, hfinished⟩ := finishCommand_shows hfinish
  rw [closeRedirection, if_neg (not_not_intro rfl)] at hclose
  cases hclose
  have hshows := hfinished hdoes.serving
  refine ⟨hshows.serving, ?_, ?_⟩
  · rw [hshows.fs]
    exact .shown hdoes.obeys
  · rw [hshows.output, hdoes.output, shownText, List.append_assoc]

/-- A command that wrote to another descriptor, which is closed. -/
theorem finishCommand_closes {n : Nat} (hk : Serving k) (hn : n < descriptorCount) (hne : n ≠ 0)
    (h : finishCommand k n code cmd outside = .ok k') :
    Serving k' ∧ k'.fs.store = k.fs.store.setHandle n none ∧
      k'.dev.output = k.dev.output ++ closing outside (code != -1) := by
  obtain ⟨k₁, hclose, hfinished⟩ := finishCommand_shows h
  rw [closeRedirection, if_pos (show (n : Int) ≠ stdout from Int.natCast_ne_zero.mpr hne)]
    at hclose
  simp only [bind_eq_ok, Prod.exists] at hclose
  obtain ⟨v, k₁', hclose, heq⟩ := hclose
  cases heq
  obtain ⟨hk₁, hdev, hstore⟩ := hk.close hn hne hclose
  have hshows := hfinished hk₁
  exact ⟨hshows.serving, by rw [hshows.fs, hstore], by rw [hshows.output, hdev]⟩

/-- What a line with a redirection has opened: `k₁` is the kernel before, `k` the one after. -/
structure RedirectedTo (k₁ k : Kernel Console) (path : CString) (n g : Nat) : Prop where
  serving : Serving k
  dev : k.dev = k₁.dev
  lt : n < descriptorCount
  place : ∃ d name, k₁.fs.store.place 0 (storePath path) = some (d, name) ∧
    k₁.fs.store.child d name = some g
  file : k₁.fs.store.node g = some (.file [])
  free : k₁.fs.store.handle n = none
  store : k.fs.store = k₁.fs.store.setHandle n (some ⟨g, 0, 0⟩)
  target : Target k n g
  table : ∃ t, k.fs = { k₁.fs with globalFdTable := t }

/-- Opening the target. -/
theorem Serving.redirectedTo {path : CString} {out : Int} (hk : Serving k)
    (hopens : OpensFile k.fs path) (hempty : ∀ e ∈ k.fs.target path, (k.fs.inode e).size = 0)
    (h : Fs.openFile k path = .ok (out, k')) (hout : out ≠ -1) :
    ∃ n g, out = (n : Nat) ∧ RedirectedTo k k' path n g := by
  obtain ⟨hk', hdev, d, name, hplace, ⟨hneg, -, -⟩ |
    ⟨n, g, rfl, hne, hchild, hnode, hfree, hstore, hreads⟩⟩ := hk.opens hopens h
  · exact absurd hneg hout
  · obtain ⟨t, ht, -⟩ := openFile_ok h
    have htarget := (target_of_place hk.store.integrity.sound hplace).trans hchild
    have hnil : k.fs.content g = [] := by
      refine List.eq_nil_of_length_eq_zero ?_
      rw [FileSystem.length_content]
      exact hempty g htarget
    rw [hnil] at hnode
    refine ⟨n, g, rfl, hk', hdev, hreads.lt, ⟨d, name, hplace, hchild⟩, hnode, hfree, hstore, ?_,
      ⟨t, ht⟩⟩
    refine ⟨hne, by rw [hstore, Store.handle_setHandle], ?_⟩
    rw [hstore]
    exact hnode

/-- A notice in a line with a redirection. -/
theorem RedirectedTo.notified {path : CString} {n g : Nat} {text : List UInt8}
    {k₁ k'' : Kernel Console} (hr : RedirectedTo k₁ k path n g) (hshows : Shows k k' text)
    (hfinish : finishCommand k' n 0 cmd outside = .ok k'') : Serving k'' ∧
      k₁.fs.store.Follows 0 blockBytes
        ⟨⟨.notify text, some (storePath path)⟩, some (true, text)⟩ k''.fs.store ∧
      k''.dev.output = k₁.dev.output ++ shownText outside (some (true, text)) := by
  obtain ⟨hk'', hclosed, houtput⟩ := finishCommand_closes hshows.serving hr.lt hr.target.ne hfinish
  obtain ⟨d, name, hplace, hchild⟩ := hr.place
  refine ⟨hk'', ?_, ?_⟩
  · rw [hclosed, hshows.fs, hr.store, Store.setHandle_free hr.free]
    exact .notified hplace hchild
  · rw [houtput, hshows.output, hr.dev, shownText, List.append_assoc]
    rfl

/-- A command that wrote to the target. -/
theorem Puts.follows {path : CString} {n g : Nat} {o : Order Name UInt8} {text : List UInt8}
    {k₁ k'' : Kernel Console} (hputs : Puts k n g ⟨o, code != -1, text⟩ k')
    (hr : RedirectedTo k₁ k path n g) (hnotice : ∀ text, o ≠ .notify text)
    (hremove : ∀ path d m, o = .remove path → k₁.fs.store.place 0 path = some (d, m) →
      k₁.fs.store.child d m ≠ some g)
    (hfinish : finishCommand k' n code cmd outside = .ok k'') : Serving k'' ∧
      k₁.fs.store.Follows 0 blockBytes
        ⟨⟨o, some (storePath path)⟩, some (code != -1, [])⟩ k''.fs.store ∧
      k''.dev.output = k₁.dev.output ++ shownText outside (some (code != -1, [])) := by
  obtain ⟨hk'', hclosed, houtput⟩ := finishCommand_closes hputs.serving hr.lt hr.target.ne hfinish
  obtain ⟨d, name, hplace, hchild⟩ := hr.place
  obtain ⟨s', e, hobeys, -, hstore⟩ := hputs.obeys
  obtain ⟨s'', hobeys', hs'⟩ := hobeys.of_setHandle hr.store
  refine ⟨hk'', ?_, ?_⟩
  · have hfree : (s''.setNode g (some (.file (text.take blockBytes)))).handle n = none := by
      change s''.handle n = none
      rw [hobeys'.handle]
      exact hr.free
    rw [hclosed, hstore, hs', Store.setNode_setHandle, Store.setHandle_setHandle,
      Store.setHandle_free hfree]
    exact .redirected hplace hchild hr.file hnotice hobeys' (hobeys'.file hr.file hremove)
  · rw [houtput, hputs.output, hr.dev]
    rfl

/-- **A line is an order.** -/
theorem processCommand_follows (hinv : HeapInv s.k.heap.allocator live)
    (hbottom : s.k.heap.allocator.bottom + scannedBits < 2 ^ 32) (hline : line.chars ≠ [])
    (hk : Serving s.k) (hkeeps : KeepsLine s.k.fs line)
    (h : s.processCommand line outside = .ok s') :
    Serving s'.k ∧ ∃ o, LineDone s line outside o s' := by
  obtain ⟨hsome, htarget, hword⟩ := hkeeps
  obtain ⟨directed, hdirected⟩ := Option.isSome_iff_exists.mp hsome
  obtain ⟨o, ho, rfl⟩ := Option.map_eq_some_iff.mp hdirected
  have hcommand : commandOrder (splitWords space true false line.chars) (lineCommand line) =
      some o := ho
  cases processCommand_ok hinv hbottom hline h with
  | @refused cmd heap live₁ placed k₂ k₃ k₄ hp _ hopen hprint hprint' =>
      have hbottom₁ : heap.allocator.bottom + scannedBits < 2 ^ 32 :=
        hp.split.frame.bottom ▸ hbottom
      rcases openRedirection_ok (k := { s.k with heap := heap }) hp.split.inv hbottom₁
        hp.split.words hp.nonzero hp.ne_nil hopen with ⟨-, hout, -⟩ | ⟨path, hred, hopen⟩
      · cases hout
      · rw [hp.words] at hred
        have hopens := (htarget _ hred).1
        rw [asPath_chars] at hopens
        rw [hred, Option.map_some, wordFile, asPath_chars] at hdirected
        obtain ⟨hk₂, hdev, d, name, hplace, ⟨-, hchild, hstore⟩ | ⟨n, g, hn, -⟩⟩ :=
          (hk.heap heap).opens hopens hopen
        · have hshows := hk₂.print hprint
          have hshows' := hshows.trans (hshows.serving.print hprint')
          refine ⟨hshows'.serving, ⟨_, none⟩, hdirected, ?_, ?_⟩
          · rw [hshows'.fs, hstore]
            exact .refused hplace hchild
          · rw [hshows'.output, hdev]
            rfl
        · omega
  | exited _ hexit =>
      rw [hexit] at hcommand
      cases hcommand
  | @executed cmd heap live₁ placed out code k₂ k₃ k₄ hp _ hopen hout _ hexec _ hfinish =>
      have hbottom₁ : heap.allocator.bottom + scannedBits < 2 ^ 32 :=
        hp.split.frame.bottom ▸ hbottom
      have hkeeps₂ := openRedirection_keeps (k := { s.k with heap := heap }) hp.split.inv hopen
      rcases openRedirection_ok (k := { s.k with heap := heap }) hp.split.inv hbottom₁
        hp.split.words hp.nonzero hp.ne_nil hopen with ⟨hno, rfl, rfl⟩ | ⟨path, hred, hopen⟩
      · -- to the terminal
        rw [hp.words] at hno
        have hnone := redirection_eq_none hno
        rw [hnone] at hword hdirected
        obtain ⟨text, hdoes⟩ := Command.exec_does (hk.heap heap) hp.split.inv
          (fun hkept ↦ hp.hasWords hkept hbottom) hcommand hword hexec
        obtain ⟨hk', hfollows, houtput⟩ := hdoes.follows hfinish
        exact ⟨hk', ⟨_, some (code != -1, text)⟩, hdirected, hfollows, houtput⟩
      · -- to a file
        rw [hp.words] at hred
        obtain ⟨hopens, hempty⟩ := htarget _ hred
        rw [asPath_chars] at hopens hempty
        rw [hred] at hword hdirected
        rw [Option.map_some, wordFile, asPath_chars] at hdirected
        obtain ⟨n, g, rfl, hr⟩ := (hk.heap heap).redirectedTo hopens hempty hopen hout
        by_cases hnotify : ∃ text, o = .notify text
        · obtain ⟨text, rfl⟩ := hnotify
          obtain ⟨rfl, hshows⟩ := Command.exec_notify hr.serving hcommand hexec
          obtain ⟨hk', hfollows, houtput⟩ := hr.notified hshows hfinish
          exact ⟨hk', ⟨_, some (true, text)⟩, hdirected, hfollows, houtput⟩
        · have hnotice : ∀ text, o ≠ .notify text := fun text heq ↦ hnotify ⟨text, heq⟩
          have hs := hk.store.integrity.sound
          have hs₂ := hr.serving.store.integrity.sound
          obtain ⟨t, ht⟩ := hr.table
          obtain ⟨d, name, hplace, hchild⟩ := hr.place
          have htargets : s.k.fs.target path = some g := (target_of_place hs hplace).trans hchild
          have htargets₂ : k₂.fs.target path = some g := by
            rw [ht]
            exact htargets
          have hremove : ∀ path' d m, o = .remove path' →
              s.k.fs.store.place 0 path' = some (d, m) → s.k.fs.store.child d m ≠ some g := by
            rintro path' d m rfl hplace' hchild'
            obtain ⟨hrm, word, hword₁, rfl⟩ := rm_of_remove hcommand
            rw [hrm] at hword
            have he := (target_of_place hs hplace').trans hchild'
            refine ((hword word hword₁).2 g he).2.2 _ rfl ?_
            rw [asPath_chars]
            exact htargets
          have hremove₂ : ∀ path' d m, o = .remove path' →
              k₂.fs.store.place 0 path' = some (d, m) → k₂.fs.store.child d m ≠ some g := by
            have hnode : k₂.fs.store.node = s.k.fs.store.node := by
              rw [hr.store]
              rfl
            intro path' d m heq hplace' hchild'
            rw [Store.place_congr hnode] at hplace'
            rw [Store.child_congr hnode] at hchild'
            exact hremove path' d m heq hplace' hchild'
          have hlast : ∀ word ∈ (splitWords space true false line.chars).getLast?, ∀ d m i,
              k₂.fs.store.place 0 (wordFile word) = some (d, m) →
              k₂.fs.store.child d m = some i → i = g := by
            intro word hmem d m i hplace' hchild'
            rw [getLast?_of_redirection hred, Option.mem_some] at hmem
            subst hmem
            rw [wordFile, asPath_chars] at hplace'
            have hi := (target_of_place hs₂ hplace').trans hchild'
            exact Option.some.inj (hi.symm.trans htargets₂)
          have hword₂ : ∀ word ∈ commandWord (splitWords space true false line.chars)
              (lineCommand line), KeepsWord k₂.fs none word (lineCommand line) :=
            fun word hmem ↦ (hword word hmem).opened ht hr.store (by rw [asPath_chars, htargets])
          obtain ⟨text, hputs⟩ := Command.exec_puts hr.serving hr.target hkeeps₂.inv
            (fun hkept ↦ hp.hasWords (hkeeps₂.trans hkept) hbottom) hcommand hnotice hword₂ hlast
            hremove₂ hexec
          obtain ⟨hk', hfollows, houtput⟩ := hputs.follows hr hnotice hremove hfinish
          exact ⟨hk', ⟨_, some (code != -1, [])⟩, hdirected, hfollows, houtput⟩

/-! ## Typing -/

/-- The files are as they were. -/
def SameFiles (k k' : Kernel Console) : Prop := Serving k' ∧ k'.fs = k.fs

/-- **Step.**  Typing a character leaves the files as they are. -/
theorem Serving.typeChar {c : UInt8} (hk : Serving s.k) (h : s.typeChar c = .ok s') :
    SameFiles s.k s'.k := by
  rw [ShellState.typeChar] at h
  split at h
  · split at h
    · simp only [bind_eq_ok] at h
      obtain ⟨k, hprint, h⟩ := h
      cases h
      exact ⟨(hk.print hprint).serving, (hk.print hprint).fs⟩
    · cases h
      exact ⟨hk, rfl⟩
  · simp only [bind_eq_ok, Prod.exists] at h
    obtain ⟨n, k, hwrite, h⟩ := h
    have hshows := hk.write hwrite
    split at h
    · simp only [bind_eq_ok, Prod.exists] at h
      obtain ⟨curr, heap, -, h⟩ := h
      cases h
      exact ⟨hshows.serving.heap heap, hshows.fs⟩
    · split at h
      · simp only [bind_eq_ok] at h
        obtain ⟨k₁, hprint, h⟩ := h
        cases h
        have hprompt := hshows.serving.print hprint
        exact ⟨hprompt.serving, hprompt.fs.trans hshows.fs⟩
      · simp only [bind_eq_ok, Prod.exists] at h
        obtain ⟨curr, heap, -, text, -, h⟩ := h
        cases h
        exact ⟨hshows.serving.heap heap, hshows.fs⟩

/-- **Step.**  So does reading one. -/
theorem Serving.readCommand {c : Option UInt8} (hk : Serving s.k)
    (h : s.readCommand = .ok (c, s')) : SameFiles s.k s'.k := by
  simp only [ShellState.readCommand, bind_eq_ok, Prod.exists] at h
  obtain ⟨c, k, hread, h⟩ := h
  have hsame : SameFiles s.k k := by
    simp only [Shell.readChar, bind_eq_ok, Prod.exists] at hread
    obtain ⟨n, buf, k₁, hread, hk₁⟩ := hread
    obtain ⟨-, rfl⟩ := Prod.mk.inj (Except.ok.inj hk₁)
    obtain ⟨-, ht, -⟩ := hk.terminal.read hread
    have hspecial : s.k.fs.IsSpecial (s.k.fs.globalFdTable.entry 0).inodeNum := hk.terminal.special
    have hfs := read_fs_of_special hspecial hread
    exact ⟨hk.congr hfs ht, hfs⟩
  split at h
  · simp only [bind_eq_ok] at h
    obtain ⟨s₁, htype, h⟩ := h
    cases h
    obtain ⟨hk', hfs⟩ := Serving.typeChar hsame.1 htype
    exact ⟨hk', hfs.trans hsame.2⟩
  · cases h
    exact hsame

end

/-! ## Sessions -/

/-- The lines that the shell processes keep to the store. -/
def KeepsOrders (s : Session Console) : SessionEvent Console → Prop
  | .devices _ => True
  | .resume _ => s.shell.exited = false → ∀ line ∈ s.shell.pending, KeepsLine s.shell.k.fs line

instance (s : Session Console) : ∀ event, Decidable (KeepsOrders s event)
  | .devices _ => inferInstanceAs (Decidable True)
  | .resume _ => inferInstanceAs (Decidable (_ → ∀ line ∈ _, _))

/-- The lines that were processed so far were orders, and the store is what these made of the
store `s₀`. -/
structure Ordered (s₀ : Store Nat Name UInt8) (s : Session Console) : Prop where
  serving : Serving s.shell.k
  run : ∃ lines l, s.handed = lines ++ (s.shell.pending.map CString.chars).toList ∧
    lines.map orderOf = l.map (fun o ↦ some o.line) ∧
    Run (Store.Follows 0 blockBytes) s₀ l s.shell.k.fs.store

section

variable {s₀ : Store Nat Name UInt8} {s s' : Session Console} {event : SessionEvent Console}

theorem processCommand_pending {δ : Type} {s s' : ShellState δ} {line : CString}
    {outside : Outside δ} (h : s.processCommand line outside = .ok s') : s'.pending = none := by
  simp only [ShellState.processCommand, bind_eq_ok, Prod.exists] at h
  obtain ⟨cmd, heap, -, out, k, -, h⟩ := h
  split at h
  · simp only [bind_eq_ok] at h
    obtain ⟨k₁, -, k₂, -, h⟩ := h
    cases h
    rfl
  · simp only [bind_eq_ok] at h
    obtain ⟨command, -, h⟩ := h
    split at h
    · simp only [bind_eq_ok] at h
      obtain ⟨heap₁, -, heap₂, -, heap₃, -, h⟩ := h
      cases h
      rfl
    · simp only [bind_eq_ok, Prod.exists] at h
      obtain ⟨code, k₁, -, k₂, -, h⟩ := h
      cases h
      rfl

/-- The shell comes to its loop with no line. -/
theorem Serving.shellStart {k : Kernel Console} {shell : ShellState Console} (hk : Serving k)
    (h : shellStart k = .ok shell) : Ordered k.fs.store (Session.start shell) := by
  simp only [Shell.shellStart, bind_eq_ok, Prod.exists] at h
  obtain ⟨workingDir, heap, -, k₁, hprint, h⟩ := h
  cases h
  have hshows := (hk.heap heap).print hprint
  refine ⟨hshows.serving, [], [], rfl, rfl, ?_⟩
  change Run (Store.Follows 0 blockBytes) k.fs.store [] k₁.fs.store
  rw [hshows.fs]
  exact .nil

/-- **Step.**  A line is one more order; nothing else changes the store. -/
theorem Ordered.exec {v : Unit} (hs : SteadySession s) (ho : s.shell.exited = false → Ordered s₀ s)
    (hkeeps : KeepsOrders s event) (h : s.exec event = .ok (v, s')) :
    s'.shell.exited = false → Ordered s₀ s' := by
  cases Session.exec_steps h with
  | devices =>
      intro hexited
      obtain ⟨hk, lines, l, hhanded, horders, hrun⟩ := ho hexited
      exact ⟨hk.congr rfl (hk.terminal.congr rfl rfl rfl fun _ _ ↦ rfl), lines, l, hhanded,
        horders, hrun⟩
  | exited hexited => exact ho
  | @processed outside line shell hexited hpending hprocess =>
      intro _
      obtain ⟨hk, lines, l, hhanded, horders, hrun⟩ := ho hexited
      obtain ⟨live, hsteady⟩ := hs hexited
      obtain ⟨hk', o, hdone⟩ := processCommand_follows hsteady.inv hsteady.bottom
        (hsteady.processing line hpending).1 hk (hkeeps hexited line hpending) hprocess
      refine ⟨hk', lines ++ [line.chars], l ++ [o], ?_, ?_, hrun.snoc hdone.follows⟩
      · rw [processCommand_pending hprocess, hhanded, hpending]
        exact (List.append_nil _).symm
      · rw [List.map_append, List.map_append, horders, List.map_singleton, List.map_singleton,
          hdone.line]
  | @read outside c shell hexited hnone hread =>
      intro _
      obtain ⟨hk, lines, l, hhanded, horders, hrun⟩ := ho hexited
      obtain ⟨hk', hfs⟩ := hk.readCommand hread
      refine ⟨hk', lines, l, ?_, horders, hfs ▸ hrun⟩
      rw [hhanded, hnone]
      exact congrArg (· ++ _) (List.append_nil lines)

/-- **A session is a run of the store.**  A user has typed lines into the shell of a machine that
was formatted and used, and the shell has processed all of them but the one that it holds, if it
holds one.  Read as orders, and in this order, the lines are followed by the store that the disk
was to its users when the shell started, and leave no descriptor open; and the line that is held is
followed next. -/
theorem orders_of_reaches {k₀ k : Kernel Console} {calls : List (FsCall × Int × Bytes)}
    {shell : ShellState Console} (h₀ : Formatted k₀) (hcalls : Run Answers k₀ calls k)
    (hterminal : TerminalOpen k)
    (hbottom : k.heap.allocator.bottom + scannedBits < 2 ^ 32) (hstart : shellStart k = .ok shell)
    (h : Reaches Session.exec KeepsOrders (Session.start shell) s) (hzero : 0 ∉ s.typed)
    (hexited : s.shell.exited = false) :
    (∃ lines l, s.handed = lines ++ (s.shell.pending.map CString.chars).toList ∧
      lines.map orderOf = l.map (fun o ↦ some o.line) ∧
      Run (Store.Follows 0 blockBytes) k.fs.store l s.shell.k.fs.store) ∧
    s.shell.k.fs.store.handle = k.fs.store.handle ∧
    ∀ line outside s', s.shell.pending = some line → KeepsLine s.shell.k.fs line →
      s.shell.processCommand line outside = .ok s' → ∃ o, LineDone s.shell line outside o s' := by
  have hk : Serving k := ⟨(store_simulation.run h₀.store.1 hcalls).1, hterminal⟩
  obtain ⟨live, hinv⟩ := heapInv_of_reaches h₀ (reaches_of_run hcalls)
  have hsession : (0 ∉ s.typed → SteadySession s) ∧
      (0 ∉ s.typed → s.shell.exited = false → Ordered k.fs.store s) := by
    refine h.invariant (I := fun s ↦ (0 ∉ s.typed → SteadySession s) ∧
      (0 ∉ s.typed → s.shell.exited = false → Ordered k.fs.store s)) ⟨fun _ ↦ ?_, fun _ _ ↦ ?_⟩ ?_
    · exact steadySession_start hinv hbottom hterminal.opened hstart
    · exact hk.shellStart hstart
    · rintro s event v s' ⟨hsteady, hordered⟩ hkeeps hx
      refine ⟨SteadySession.exec hsteady hx, fun hzero ↦ ?_⟩
      have hzero' : 0 ∉ s.typed := fun hmem ↦ hzero (mem_typed_of_exec hx hmem)
      exact Ordered.exec (hsteady hzero') (hordered hzero') hkeeps hx
  have hordered := hsession.2 hzero hexited
  obtain ⟨lines, l, hhanded, horders, hrun⟩ := hordered.run
  refine ⟨⟨lines, l, hhanded, horders, hrun⟩, Store.handle_of_follows hrun,
    fun line outside s' hpending hkeeps hprocess ↦ ?_⟩
  obtain ⟨live', hsteady⟩ := hsession.1 hzero hexited
  exact (processCommand_follows hsteady.inv hsteady.bottom (hsteady.processing line hpending).1
    hordered.serving hkeeps hprocess).2

/-- A user of a console types a line, and the shell goes on until it has read and processed it. -/
def typedLine (text : String) : List (SessionEvent Console) :=
  let cs := ofText text
  .devices ⟨{ Devices.zero with keyboard := ⟨false, ⟨Bytes.ofList cs, cs.length, 0⟩⟩ }, []⟩ ::
    List.replicate (cs.length + 1) (.resume consoleOutside)

/-- A text is put into a file, and the file is to be shown. -/
theorem orders_of_reaches_cat : ∃ shell s line s', shellStart consoleKernel = .ok shell ∧
    Reaches Session.exec KeepsOrders (Session.start shell) s ∧ s.shell.pending = some line ∧
    line.chars = ofText "cat /d/a" ∧ s.shell.processCommand line consoleOutside = .ok s' ∧
    (∃ lines l, s.handed = lines ++ (s.shell.pending.map CString.chars).toList ∧
      lines.map orderOf = l.map (fun o ↦ some o.line) ∧
      Run (Store.Follows 0 blockBytes) consoleKernel.fs.store l s.shell.k.fs.store) ∧
    ∃ o, LineDone s.shell line consoleOutside o s' := by
  have hcheck : ((shellStart consoleKernel).toOption.any fun shell ↦
      (runCalls Session.exec KeepsOrders
        ((["mkdir /d\n", "touch /d/a\n", "echo hi > /d/a\n", "cat /d/a\n"].flatMap
          typedLine).dropLast) (Session.start shell)).any fun s ↦
        decide (0 ∉ s.typed ∧ s.shell.exited = false) &&
          s.shell.pending.any fun line ↦
            decide (line.chars = ofText "cat /d/a" ∧ KeepsLine s.shell.k.fs line) &&
              (s.shell.processCommand line consoleOutside).toOption.isSome) = true := by
    decide +kernel
  obtain ⟨shell, hshell, hcheck⟩ := (Option.any_eq_true _ _).mp hcheck
  obtain ⟨s, hs, hcheck⟩ := (Option.any_eq_true _ _).mp hcheck
  obtain ⟨htyped, hcheck⟩ := Bool.and_eq_true_iff.mp hcheck
  obtain ⟨line, hpending, hcheck⟩ := (Option.any_eq_true _ _).mp hcheck
  obtain ⟨hline, hprocess⟩ := Bool.and_eq_true_iff.mp hcheck
  obtain ⟨hzero, hexited⟩ := of_decide_eq_true htyped
  obtain ⟨hline, hkeeps⟩ := of_decide_eq_true hline
  obtain ⟨s', hprocess⟩ := Option.isSome_iff_exists.mp hprocess
  have hstart := toOption_eq_some.mp hshell
  have hprocess := toOption_eq_some.mp hprocess
  have hreach := reaches_of_runCalls hs
  have hterminal : TerminalOpen consoleKernel := by
    have hopened : consoleKernel.fs.globalFdTable.marked 0 = true ∧
        consoleKernel.fs.IsSpecial (consoleKernel.fs.globalFdTable.entry 0).inodeNum ∧
        strcmp (consoleKernel.fs.inode (consoleKernel.fs.globalFdTable.entry 0).inodeNum).name
          (ofText "tty") = 0 := by
      decide +kernel
    exact ⟨systemFiles_of_reaches (.refl _), hopened.1, hopened.2.1,
      (strcmp_eq_zero (by decide) _).mp hopened.2.2⟩
  obtain ⟨-, -, hbottom⟩ := heap_of_reaches_console (.refl _)
  have hbottom : consoleKernel.heap.allocator.bottom + scannedBits < 2 ^ 32 := by
    rw [hbottom]
    decide
  obtain ⟨hrun, -, hnext⟩ := orders_of_reaches formattedWith_consoleKernel.formatted .nil hterminal
    hbottom hstart hreach hzero hexited
  exact ⟨shell, s, line, s', hstart, hreach, hpending, hline, hprocess, hrun,
    hnext line consoleOutside s' hpending hkeeps hprocess⟩

end

end Yorha.Shell
