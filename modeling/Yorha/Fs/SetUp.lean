import Mathlib.Order.Interval.Finset.Nat
import Yorha.Fs.Names

/-!
# Setting up the system files

`open_system_files` opens the system files one after the other, and stores in the entry of each
the descriptor that it got.  After each it calls `system_files->initialization_func`, which is
the initializer of the first entry, whichever file it has opened.

To say which initializers are called, the table is taken for one whose initializers note that
they are called.  Files that are in `/dev` are opened and their descriptors are stored, for any
table and any descriptors that are free (`openEach_run`).  The initializers that are called are
those of the files exactly if all of them are the same (`setsUp_iff`).
-/

namespace Yorha.Fs

open Yorha.Lib Yorha.Str Yorha.Util Yorha.Heap

variable {δ : Type} {fs fs' : FileSystem} {k k' : Kernel δ} {filename : CString}
  {filenames : List CString}

/-! ## Files in `/dev` -/

/-- A file of this name is in `/dev`, with the inode `e`. -/
structure InDev (fs : FileSystem) (filename : CString) (e : Nat) : Prop where
  no_slash : slash ∉ filename.chars
  short : filename.chars.length < nameBytes
  found : ∃ d : Nat, seekDirectory fs devPrefix.chars = .ok (d : Int) ∧
    searchDir fs d filename.chars = .ok (e : Int)

theorem InDev.of_table {e : Nat} (h : InDev fs filename e) (t : FileDescriptorTable) :
    InDev { fs with globalFdTable := t } filename e := by
  obtain ⟨d, hseek, hsearch⟩ := h.found
  refine ⟨h.no_slash, h.short, d, ?_, hsearch⟩
  rwa [seekDirectory_table]

/-- The path of a system file is cut behind `"/dev/"`. -/
theorem parsePath_systemPath (h : slash ∉ filename.chars) :
    (parsePath (systemPath filename)).1.chars = devPrefix.chars ∧
      fileName (systemPath filename) = filename.chars := by
  have hchars : (systemPath filename).chars = ofText "/dev" ++ slash :: filename.chars := rfl
  have hlast : lastSlash (systemPath filename).chars 0 0 = 4 := by
    rw [hchars, lastSlash_append h]
    rfl
  rw [fileName, parsePath, hlast]
  exact ⟨rfl, rfl⟩

/-- What a directory holds for the number of an inode has 32 bits. -/
theorem scanEntries_lt {buf : Bytes} {name : List UInt8} {n file e : Nat}
    (h : scanEntries buf name n file = .ok (some e)) : e < 2 ^ 32 := by
  induction n generalizing file with
  | zero => cases h
  | succ n ih =>
      rw [scanEntries] at h
      split at h
      · simp only [bind_eq_ok] at h
        obtain ⟨order, -, h⟩ := h
        split at h
        · cases h
          exact Bytes.word_lt _
        · exact ih h
      · cases h

/-- The number of an inode that a search returns. -/
theorem toUint32_of_searchDir {d e : Nat} {name : Name}
    (h : searchDir fs d name = .ok (e : Int)) : toUint32 (e : Int) = e := by
  simp only [searchDir, bind_eq_ok] at h
  obtain ⟨inode, -, h⟩ := h
  split at h
  · simp only [bind_eq_ok] at h
    obtain ⟨r, hscan, h⟩ := h
    cases r with
    | none =>
        have hr : (-1 : Int) = e := Except.ok.inj h
        omega
    | some n =>
        have hn : toInt32 n = e := Except.ok.inj h
        have hlt := scanEntries_lt hscan
        refine toUint32_of_lt ?_
        rw [toInt32] at hn
        split at hn
        · omega
        · omega
  · cases h

/-! ## Free descriptors -/

/-- The descriptors that are free. -/
def FileDescriptorTable.free (t : FileDescriptorTable) : Finset Nat :=
  (Finset.range descriptorCount).filter fun fd ↦ t.marked fd = false

theorem FileDescriptorTable.mem_free {t : FileDescriptorTable} {fd : Nat} :
    fd ∈ t.free ↔ fd < descriptorCount ∧ t.marked fd = false := by
  rw [free, Finset.mem_filter, Finset.mem_range]

/-- Opening a file takes one of them. -/
theorem Opened.free_eq {t t' : FileDescriptorTable} {fd i : Nat} {name : Name}
    (h : Opened t t' fd i name) : t'.free = t.free.erase fd := by
  ext n
  rw [Finset.mem_erase, FileDescriptorTable.mem_free, FileDescriptorTable.mem_free, h.marked]
  constructor
  · rintro ⟨hn, hm⟩
    split at hm
    · cases hm
    · rename_i hne
      exact ⟨hne, hn, hm⟩
  · rintro ⟨hne, hn, hm⟩
    rw [if_neg hne]
    exact ⟨hn, hm⟩

theorem Opened.card_free {t t' : FileDescriptorTable} {fd i : Nat} {name : Name}
    (h : Opened t t' fd i name) : t'.free.card + 1 = t.free.card := by
  have hmem : fd ∈ t.free := FileDescriptorTable.mem_free.mpr ⟨h.lt, h.free⟩
  rw [h.free_eq]
  exact Finset.card_erase_add_one hmem

/-! ## Opening the files -/

/-- What the loop of `open_system_files` needs: the heap has room for the paths, the files are in
`/dev`, and there are descriptors for all of them. -/
structure CanOpenAll (k : Kernel δ) (filenames : List CString) : Prop where
  heap : ∃ live, HeapInv k.heap.allocator live
  room : ∀ filename ∈ filenames, ∃ r, Path k.heap (systemPath filename) = .ok r
  present : ∀ filename ∈ filenames, ∃ e, InDev k.fs filename e
  free : filenames.length ≤ k.fs.globalFdTable.free.card

/-- The file of this name got the descriptor, which was free. -/
def GotFd (fs fs' : FileSystem) (filename : CString) (fd : Nat) : Prop :=
  fs.globalFdTable.marked fd = false ∧ ∃ e, InDev fs filename e ∧ fs'.Names fd e

/-- The files were opened once each, every one with a descriptor of its own, and nothing else
changed. -/
structure OpenedAll (fs fs' : FileSystem) (filenames : List CString) (fds : List Nat) : Prop where
  table : ∃ t, fs' = { fs with globalFdTable := t }
  got : List.Forall₂ (GotFd fs fs') filenames fds
  nodup : fds.Nodup
  others : ∀ fd ∉ fds, fs'.globalFdTable.marked fd = fs.globalFdTable.marked fd ∧
    fs'.globalFdTable.entry fd = fs.globalFdTable.entry fd

/-- **Opening the first of them**. -/
theorem CanOpenAll.openFile (h : CanOpenAll k (filename :: filenames)) :
    ∃ (fd e : Nat) (t : FileDescriptorTable) (k' : Kernel δ),
      openFile k (systemPath filename) = .ok ((fd : Int), k') ∧ InDev k.fs filename e ∧
      Opened k.fs.globalFdTable t fd e filename.chars ∧
      k'.fs = { k.fs with globalFdTable := t } ∧ CanOpenAll k' filenames := by
  obtain ⟨live, hinv⟩ := h.heap
  have hroom := List.forall_mem_cons.mp h.room
  have hpresent := List.forall_mem_cons.mp h.present
  obtain ⟨e, hat⟩ := hpresent.1
  obtain ⟨d, hseek, hsearch⟩ := hat.found
  obtain ⟨hdir, hname⟩ := parsePath_systemPath hat.no_slash
  have hcard := h.free
  rw [List.length_cons] at hcard
  obtain ⟨n, hn⟩ : k.fs.globalFdTable.free.Nonempty := Finset.card_pos.mp (by omega)
  rw [FileDescriptorTable.mem_free] at hn
  rw [← hdir] at hseek
  rw [← hname] at hsearch
  have hne : (e : Int) ≠ -1 := by omega
  have hshort : (fileName (systemPath filename)).length < nameBytes := by
    rw [hname]
    exact hat.short
  obtain ⟨fd, k', hopen⟩ :=
    openFile_of_found hinv hroom.1 hseek hsearch hne hshort hn.1 hn.2
  obtain ⟨t, ht, d', hseek', r, hsearch', hcase⟩ := openFile_ok hopen
  obtain rfl : d = d' := Int.ofNat_inj.mp (Except.ok.inj (hseek.symm.trans hseek'))
  obtain rfl : (e : Int) = r := Except.ok.inj (hsearch.symm.trans hsearch')
  obtain ⟨halike, hkeeps⟩ := openFile_heap hinv hopen
  rcases hcase with ⟨hneg, -, -⟩ | ⟨-, m, hm, hopened⟩
  · exact absurd hneg (by omega)
  · obtain rfl : fd = m := Int.ofNat_inj.mp hm
    rw [toUint32_of_searchDir hsearch, hname] at hopened
    refine ⟨fd, e, t, k', hopen, hat, hopened, ht, ⟨live, hkeeps.inv⟩, fun f hf ↦ ?_,
      fun f hf ↦ ?_, ?_⟩
    · obtain ⟨⟨parsedPath, heap⟩, hpath⟩ := hroom.2 f hf
      obtain ⟨heap', hpath'⟩ := Path_alike halike hpath
      exact ⟨_, hpath'⟩
    · obtain ⟨e', hat'⟩ := hpresent.2 f hf
      rw [ht]
      exact ⟨e', hat'.of_table t⟩
    · have hfree := hopened.card_free
      rw [ht]
      change filenames.length ≤ t.free.card
      omega

theorem OpenedAll.nil (fs : FileSystem) : OpenedAll fs fs [] [] where
  table := ⟨fs.globalFdTable, rfl⟩
  got := .nil
  nodup := List.nodup_nil
  others := fun _ _ ↦ ⟨rfl, rfl⟩

theorem OpenedAll.free {fds : List Nat} (h : OpenedAll fs fs' filenames fds) :
    ∀ fd ∈ fds, fs.globalFdTable.marked fd = false := by
  have hgot := h.got
  clear h
  induction hgot with
  | nil => exact fun _ hfd ↦ absurd hfd List.not_mem_nil
  | cons hgot _ ih => exact List.forall_mem_cons.mpr ⟨hgot.1, ih⟩

/-- **One file more**, that was opened before the others. -/
theorem OpenedAll.cons {fds : List Nat} {fd e : Nat} {t : FileDescriptorTable}
    (hat : InDev fs filename e) (hopened : Opened fs.globalFdTable t fd e filename.chars)
    (h : OpenedAll { fs with globalFdTable := t } fs' filenames fds) :
    OpenedAll fs fs' (filename :: filenames) (fd :: fds) := by
  have hmarked : t.marked fd = true := by
    rw [hopened.marked, if_pos rfl]
  have hnew : fd ∉ fds := by
    intro hmem
    have hfree : t.marked fd = false := h.free fd hmem
    rw [hmarked] at hfree
    cases hfree
  have hold : ∀ n, n ≠ fd → t.marked n = fs.globalFdTable.marked n ∧
      t.entry n = fs.globalFdTable.entry n := by
    intro n hn
    rw [hopened.marked, hopened.entry, if_neg hn, if_neg hn]
    exact ⟨rfl, rfl⟩
  refine ⟨?_, .cons ⟨hopened.free, e, hat, hopened.lt, ?_, ?_⟩ (h.got.imp ?_),
    List.nodup_cons.mpr ⟨hnew, h.nodup⟩, fun n hn ↦ ?_⟩
  · obtain ⟨t', rfl⟩ := h.table
    exact ⟨t', rfl⟩
  · exact (h.others fd hnew).1.trans hmarked
  · rw [(h.others fd hnew).2]
    change (t.entry fd).inodeNum = e
    rw [hopened.entry, if_pos rfl]
  · rintro f n ⟨hfree, e', hat', hnames⟩
    have hfree' : t.marked n = false := hfree
    have hne : n ≠ fd := by
      rintro rfl
      rw [hmarked] at hfree'
      cases hfree'
    exact ⟨(hold n hne).1.symm.trans hfree', e', hat'.of_table fs.globalFdTable, hnames⟩
  · rw [List.mem_cons, not_or] at hn
    have hrest := h.others n hn.2
    exact ⟨hrest.1.trans (hold n hn.1).1, hrest.2.trans (hold n hn.1).2⟩

/-! ## Noting the calls of initializers -/

/-- The initializers that were called, with the descriptors that they got. -/
abbrev InitCalls (δ : Type) := List ((Int → δ → Except Stop δ) × Int)

/-- A system file whose initializer notes that it is called. -/
def noted (file : SpecialFile δ) : SpecialFile (δ × InitCalls δ) where
  filename := file.filename
  handler := fun read fd buf count dev ↦ do
    let (n, buf, dev') ← file.handler read fd buf count dev.1
    .ok (n, buf, dev', dev.2)
  initializationFunc := fun fd dev ↦ do
    let dev' ← file.initializationFunc fd dev.1
    .ok (dev', dev.2 ++ [(file.initializationFunc, fd)])
  fd := file.fd

/-- The kernel whose system files note the calls, after these. -/
def Kernel.noting (k : Kernel δ) (calls : InitCalls δ) : Kernel (δ × InitCalls δ) where
  fs := k.fs
  heap := k.heap
  systemFiles := k.systemFiles.map noted
  dev := (k.dev, calls)

/-- `open` calls no initializer. -/
theorem openFile_noting {path : CString} {v : Int} (h : openFile k path = .ok (v, k'))
    (calls : InitCalls δ) : openFile (k.noting calls) path = .ok (v, k'.noting calls) := by
  simp only [openFile, bind_eq_ok, Prod.exists] at h ⊢
  obtain ⟨parsedPath, heap, hpath, d, hseek, r, hsearch, h⟩ := h
  refine ⟨parsedPath, heap, hpath, d, hseek, r, hsearch, ?_⟩
  split at h
  · rename_i hr
    rw [if_pos hr]
    simp only [bind_eq_ok] at h ⊢
    obtain ⟨heap', hfree, h⟩ := h
    cases h
    exact ⟨heap', hfree, rfl⟩
  · rename_i hr
    rw [if_neg hr]
    simp only [bind_eq_ok, Prod.exists] at h ⊢
    obtain ⟨fd, t, halloc, heap', hfree, h⟩ := h
    cases h
    exact ⟨v, t, halloc, heap', hfree, rfl⟩

/-- `init` was called with each of the descriptors. -/
def callsOf (init : Int → δ → Except Stop δ) (fds : List Nat) : InitCalls δ :=
  fds.map fun fd ↦ (init, (fd : Int))

/-- An entry of the table gets its descriptor. -/
def setFd (file : SpecialFile δ) (fd : Nat) : SpecialFile δ := { file with fd := (fd : Int) }

section

variable {files done : List (SpecialFile δ)} {init : Int → δ → Except Stop δ}

/-- `system_files->initialization_func` is `init`. -/
def FirstInit (files : List (SpecialFile δ)) (init : Int → δ → Except Stop δ) : Prop :=
  ∃ file, files.head? = some file ∧ file.initializationFunc = init

theorem FirstInit.initializeFirst_eq (h : FirstInit files init) (fd : Int) (dev : δ) :
    initializeFirst files fd dev = init fd dev := by
  obtain ⟨file, hhead, rfl⟩ := h
  rw [initializeFirst, hhead]

theorem FirstInit.initializeFirst_noted (h : FirstInit files init) {fd : Int} {dev dev' : δ}
    (hdev : init fd dev = .ok dev') (calls : InitCalls δ) :
    initializeFirst (files.map noted) fd (dev, calls) = .ok (dev', calls ++ [(init, fd)]) := by
  obtain ⟨file, hhead, rfl⟩ := h
  have hnoted : (files.map noted).head? = some (noted file) := by
    rw [List.head?_map, hhead]
    rfl
  rw [initializeFirst, hnoted]
  change (file.initializationFunc fd dev >>= _) = _
  rw [hdev]
  rfl

theorem FirstInit.setFd {file : SpecialFile δ} (h : FirstInit (done ++ file :: files) init)
    (fd : Nat) : FirstInit (done ++ setFd file fd :: files) init := by
  cases done with
  | nil =>
      obtain ⟨first, hhead, rfl⟩ := h
      cases hhead
      exact ⟨_, rfl, rfl⟩
  | cons first done => exact h

theorem modify_append_cons {α : Type} (f : α → α) (l l' : List α) (x : α) :
    (l ++ x :: l').modify l.length f = l ++ f x :: l' := by
  induction l with
  | nil => rfl
  | cons y l ih => exact congrArg (y :: ·) ih

theorem map_noted_modify (l : List (SpecialFile δ)) (i fd : Nat) :
    (l.map noted).modify i (fun file ↦ setFd file fd) =
      (l.modify i fun file ↦ setFd file fd).map noted := by
  induction l generalizing i with
  | nil => rw [List.map_nil, List.modify_nil, List.modify_nil, List.map_nil]
  | cons file l ih =>
      cases i with
      | zero => rfl
      | succ i => exact congrArg (noted file :: ·) (ih i)

section

variable {file : SpecialFile δ} {fd i : Nat} {dev : δ}
  (hopen : openFile k (systemPath file.filename) = .ok ((fd : Int), k'))

include hopen

/-- **One round** of `open_system_files`. -/
theorem openEach_cons (hset : k'.systemFiles.modify i (fun file ↦ setFd file fd) = done)
    (hinit : initializeFirst done fd k'.dev = .ok dev) : openEach (file :: files) i k =
      openEach files (i + 1) { k' with systemFiles := done, dev := dev } := by
  have hne : ¬ (fd : Int) = -1 := by omega
  have hset' : k'.systemFiles.modify i (fun file ↦ { file with fd := (fd : Int) }) = done := hset
  rw [openEach, show devPrefix.append file.filename = systemPath file.filename from rfl, hopen]
  simp only [ok_bind, if_neg hne, hset', hinit]

/-- The same round, when the calls are noted. -/
theorem openEach_cons_noted (hset : k'.systemFiles.modify i (fun file ↦ setFd file fd) = done)
    (hfirst : FirstInit done init) (hdev : init fd k'.dev = .ok dev) (calls : InitCalls δ) :
    openEach ((file :: files).map noted) i (k.noting calls) = openEach (files.map noted) (i + 1)
      (Kernel.noting { k' with systemFiles := done, dev := dev }
        (calls ++ [(init, (fd : Int))])) := by
  have hset' : (k'.noting calls).systemFiles.modify i (fun file ↦ setFd file fd) =
      done.map noted := by
    rw [← hset]
    exact map_noted_modify k'.systemFiles i fd
  have hopen' : openFile (k.noting calls) (systemPath (noted file).filename) =
      .ok ((fd : Int), k'.noting calls) := openFile_noting hopen calls
  exact openEach_cons hopen' hset' (hfirst.initializeFirst_noted hdev calls)

end

/-- **The loop of `open_system_files`** opens its files, stores their descriptors in their entries
and calls the initializer of the first entry with each of them. -/
theorem openEach_run (hk : k.systemFiles = done ++ files)
    (hfirst : k.systemFiles ≠ [] → FirstInit k.systemFiles init)
    (hinit : ∀ fd dev, ∃ dev', init fd dev = .ok dev')
    (hcan : CanOpenAll k (files.map (·.filename))) : ∃ (k' : Kernel δ) (fds : List Nat),
      openEach files done.length k = .ok k' ∧
      OpenedAll k.fs k'.fs (files.map (·.filename)) fds ∧
      k'.systemFiles = done ++ List.zipWith setFd files fds ∧
      ∀ calls, openEach (files.map noted) done.length (k.noting calls) =
        .ok (k'.noting (calls ++ callsOf init fds)) := by
  induction files generalizing k done with
  | nil =>
      refine ⟨k, [], rfl, .nil k.fs, hk, fun calls ↦ ?_⟩
      have hnil : callsOf init [] = [] := rfl
      rw [hnil, List.append_nil]
      rfl
  | cons file files ih =>
      obtain ⟨fd, e, t, k₁, hopen, hat, hopened, ht, hrest⟩ := hcan.openFile
      obtain ⟨dev, hdev⟩ := hinit fd k₁.dev
      have hset : k₁.systemFiles.modify done.length (fun file ↦ setFd file fd) =
          done ++ [setFd file fd] ++ files := by
        rw [openFile_systemFiles hopen, hk, modify_append_cons, List.append_assoc]
        rfl
      have hfirst' : FirstInit (done ++ [setFd file fd] ++ files) init := by
        rw [List.append_assoc]
        rw [hk] at hfirst
        exact (hfirst (List.append_ne_nil_of_right_ne_nil _ (List.cons_ne_nil _ _))).setFd fd
      have hinit' := (hfirst'.initializeFirst_eq _ _).trans hdev
      obtain ⟨k', fds, hrun, hall, hfiles, hcalls⟩ := ih
        (k := { k₁ with systemFiles := done ++ [setFd file fd] ++ files, dev := dev })
        rfl (fun _ ↦ hfirst') ⟨hrest.heap, hrest.room, hrest.present, hrest.free⟩
      rw [List.length_append] at hrun hcalls
      refine ⟨k', fd :: fds, (openEach_cons hopen hset hinit').trans hrun, .cons hat hopened ?_, ?_,
        fun calls ↦ ?_⟩
      · rw [← ht]
        exact hall
      · rw [hfiles, List.append_assoc]
        rfl
      · have hcons : calls ++ callsOf init (fd :: fds) =
            calls ++ [(init, (fd : Int))] ++ callsOf init fds := by
          rw [List.append_assoc]
          rfl
        rw [hcons]
        exact (openEach_cons_noted hopen hset hfirst' hdev calls).trans (hcalls _)

end

/-! ## What the set-up needs -/

/-- What `open_system_files` needs: it can open its files, and the initializers return. -/
structure CanSetUp (k : Kernel δ) : Prop where
  files : CanOpenAll k (k.systemFiles.map (·.filename))
  initializes : ∀ file ∈ k.systemFiles, ∀ fd dev, ∃ dev', file.initializationFunc fd dev = .ok dev'

/-- In a kernel that opens special files there is what `open_system_files` needs. -/
theorem CanOpen.canSetUp {used : Nat} (h : CanOpen k used)
    (hused : used + k.systemFiles.length ≤ descriptorCount)
    (hname : ∀ file ∈ k.systemFiles, SystemName file.filename)
    (hslash : ∀ file ∈ k.systemFiles, slash ∉ file.filename.chars)
    (hat : ∀ file ∈ k.systemFiles, SpecialAt k.fs (systemPath file.filename)) : CanSetUp k := by
  refine ⟨⟨?_, ?_, ?_, ?_⟩, h.initializes⟩
  · obtain ⟨bottom, live, -, hinv⟩ := h.heap
    exact ⟨live, hinv⟩
  · rw [List.forall_mem_map]
    exact fun file hfile ↦ h.room (hname file hfile)
  · rw [List.forall_mem_map]
    intro file hfile
    obtain ⟨hdir, hfilename⟩ := parsePath_systemPath (hslash file hfile)
    obtain ⟨d, e, hlead, -, -, he⟩ := h.sound.leads_dev (hname file hfile) (hat file hfile)
    have hseek := h.sound.seekDirectory_systemPath (hname file hfile) hlead
    rw [hdir] at hseek
    rw [hfilename] at he
    exact ⟨e, hslash file hfile, h.sound.length_lt_of_lookup hlead.live he, d, hseek,
      h.sound.searchDir_of_lookup hlead.live file.filename.nonzero he⟩
  · have hsub : Finset.Ico used descriptorCount ⊆ k.fs.globalFdTable.free := by
      intro fd hfd
      rw [Finset.mem_Ico] at hfd
      exact FileDescriptorTable.mem_free.mpr ⟨hfd.2, h.free fd hfd.1⟩
    have hcard := Finset.card_le_card hsub
    rw [Nat.card_Ico] at hcard
    rw [List.length_map]
    omega

/-- The kernel of a boot from a disk that a shutdown left, when it comes to its system files. -/
def mounted (k₀ : Kernel δ) (disk : Disk) : Kernel δ :=
  { k₀ with fs := mountTables (FileSystem.zero disk) }

/-- **In the next boot** there is what `open_system_files` needs. -/
theorem RemountInv.canSetUp {files : List (SpecialFile δ)} (htable : SystemTable files)
    (hslash : ∀ file ∈ files, slash ∉ file.filename.chars) (h : RemountInv files k)
    (k₀ : Kernel δ) (hheap : ∃ bottom, k₀.heap.allocator = AllocArray.initial bottom)
    (hfiles : k₀.systemFiles = files) (env : Surroundings) :
    CanSetUp (mounted k₀ (syncMetadata k.fs env).disk) := by
  obtain ⟨k₁, hk₁⟩ := shutdown_of_validFd h.mountable.fds env
  have hdisk : k₁.fs.disk = (syncMetadata k.fs env).disk := by
    obtain ⟨t, rfl⟩ := shutdown_ok hk₁
    rfl
  have hzero : ({ k₀ with fs := FileSystem.zero k₁.fs.disk } : Kernel δ).fs =
      FileSystem.zero k₁.fs.disk := rfl
  obtain ⟨hcan, -, hat⟩ := h.canOpen htable hk₁ hzero hheap hfiles
  subst hfiles
  have hused : 0 + k₀.systemFiles.length ≤ descriptorCount := by
    rw [Nat.zero_add]
    exact htable.length_le
  rw [mounted, ← hdisk]
  exact hcan.canSetUp hused htable.name hslash hat

/-- The two terminals, whose initializers do nothing. -/
theorem systemTable_terminals : SystemTable terminalBoot.systemFiles where
  name := by
    refine List.forall_mem_cons.mpr ⟨?_, List.forall_mem_singleton.mpr ?_⟩
    · exact ⟨by decide, by decide, by decide, by decide⟩
    · exact ⟨by decide, by decide, by decide, by decide⟩
  closed := List.forall_mem_cons.mpr ⟨rfl, List.forall_mem_singleton.mpr rfl⟩
  initializes := List.forall_mem_cons.mpr
    ⟨fun _ dev ↦ ⟨dev, rfl⟩, List.forall_mem_singleton.mpr fun _ dev ↦ ⟨dev, rfl⟩⟩
  length_le := by decide

/-! ## The set-up -/

/-- The calls of the initializers of the files, each with the descriptor of its file. -/
def ownCalls (files : List (SpecialFile δ)) (fds : List Nat) : InitCalls δ :=
  List.zipWith (fun file (fd : Nat) ↦ (file.initializationFunc, (fd : Int))) files fds

/-- `open_system_files` opens each of its files once, stores in the entry of each its own
descriptor, and calls the initializer of each with that descriptor, exactly once. -/
def SetsUp (k : Kernel δ) : Prop :=
  ∃ (k' : Kernel δ) (fds : List Nat) (calls : InitCalls δ),
    openSystemFiles k = .ok k' ∧
    openSystemFiles (k.noting []) = .ok (k'.noting calls) ∧
    OpenedAll k.fs k'.fs (k.systemFiles.map (·.filename)) fds ∧
    k'.systemFiles = List.zipWith setFd k.systemFiles fds ∧
    calls.Perm (ownCalls k.systemFiles fds)

/-- All files have the same initializer. -/
def SameInit (files : List (SpecialFile δ)) : Prop :=
  ∀ file ∈ files, ∀ file' ∈ files, file.initializationFunc = file'.initializationFunc

/-- **What `open_system_files` does**: everything but for the initializers, of which it calls the
first. -/
theorem CanSetUp.run (h : CanSetUp k) :
    ∃ (init : Int → δ → Except Stop δ) (k' : Kernel δ) (fds : List Nat),
      (k.systemFiles ≠ [] → FirstInit k.systemFiles init) ∧
      openSystemFiles k = .ok k' ∧
      openSystemFiles (k.noting []) = .ok (k'.noting (callsOf init fds)) ∧
      OpenedAll k.fs k'.fs (k.systemFiles.map (·.filename)) fds ∧
      k'.systemFiles = List.zipWith setFd k.systemFiles fds := by
  obtain ⟨init, hfirst, hinit⟩ : ∃ init : Int → δ → Except Stop δ,
      (k.systemFiles ≠ [] → FirstInit k.systemFiles init) ∧
      ∀ fd dev, ∃ dev', init fd dev = .ok dev' := by
    cases hfiles : k.systemFiles with
    | nil => exact ⟨fun _ dev ↦ .ok dev, fun hne ↦ absurd rfl hne, fun _ dev ↦ ⟨dev, rfl⟩⟩
    | cons first files =>
        have hmem : first ∈ k.systemFiles := by
          rw [hfiles]
          exact List.mem_cons_self
        exact ⟨first.initializationFunc, fun _ ↦ ⟨first, rfl, rfl⟩, h.initializes first hmem⟩
  have hnil : k.systemFiles = [] ++ k.systemFiles := rfl
  obtain ⟨k', fds, hrun, hall, hfiles, hcalls⟩ := openEach_run hnil hfirst hinit h.files
  exact ⟨init, k', fds, hfirst, hrun, hcalls [], hall, hfiles⟩

section

variable {files : List (SpecialFile δ)} {fds : List Nat} {init : Int → δ → Except Stop δ}

/-- Each file has a call of its own. -/
theorem exists_mem_ownCalls (hlen : files.length = fds.length) {file : SpecialFile δ}
    (hfile : file ∈ files) : ∃ fd, (file.initializationFunc, fd) ∈ ownCalls files fds := by
  induction files generalizing fds with
  | nil => exact absurd hfile List.not_mem_nil
  | cons file' files ih =>
      cases fds with
      | nil => cases hlen
      | cons fd fds =>
          rcases List.mem_cons.mp hfile with rfl | hfile
          · exact ⟨fd, List.mem_cons_self⟩
          · obtain ⟨fd', hmem⟩ := ih (Nat.succ.inj hlen) hfile
            exact ⟨fd', List.mem_cons_of_mem _ hmem⟩

/-- If all initializers are one, their calls are the calls of that one. -/
theorem ownCalls_eq (hlen : files.length = fds.length)
    (h : ∀ file ∈ files, file.initializationFunc = init) :
    ownCalls files fds = callsOf init fds := by
  induction files generalizing fds with
  | nil =>
      cases fds with
      | nil => rfl
      | cons fd fds => cases hlen
  | cons file files ih =>
      cases fds with
      | nil => cases hlen
      | cons fd fds =>
          rw [List.forall_mem_cons] at h
          have hrest := ih (Nat.succ.inj hlen) h.2
          rw [ownCalls, List.zipWith_cons_cons, h.1]
          exact congrArg ((init, (fd : Int)) :: ·) hrest

theorem OpenedAll.length_eq (h : OpenedAll fs fs' (files.map (·.filename)) fds) :
    files.length = fds.length := by
  have hlen := h.got.length_eq
  rwa [List.length_map] at hlen

end

/-- If the files are set up, each initializer is the one that was called. -/
theorem CanSetUp.sameInit (h : CanSetUp k) (hset : SetsUp k) : SameInit k.systemFiles := by
  obtain ⟨init, k', fds, -, -, hnoted, -, -⟩ := h.run
  obtain ⟨k'', fds', calls, -, hnoted', hall', -, hperm⟩ := hset
  have hcalls : calls = callsOf init fds :=
    congrArg (fun k ↦ k.dev.2) (Except.ok.inj (hnoted'.symm.trans hnoted))
  have hinit : ∀ file ∈ k.systemFiles, file.initializationFunc = init := by
    intro file hfile
    obtain ⟨fd, hown⟩ := exists_mem_ownCalls hall'.length_eq hfile
    have hcalled := hperm.mem_iff.mpr hown
    rw [hcalls] at hcalled
    obtain ⟨n, -, hn⟩ := List.mem_map.mp hcalled
    exact (congrArg Prod.fst hn).symm
  exact fun file hfile file' hfile' ↦ (hinit file hfile).trans (hinit file' hfile').symm

/-- Files that have the same initializer are set up. -/
theorem CanSetUp.setsUp (h : CanSetUp k) (hsame : SameInit k.systemFiles) : SetsUp k := by
  obtain ⟨init, k', fds, hfirst, hrun, hnoted, hall, hfiles⟩ := h.run
  have hinit : ∀ file ∈ k.systemFiles, file.initializationFunc = init := by
    intro file hfile
    obtain ⟨first, hhead, rfl⟩ := hfirst (List.ne_nil_of_mem hfile)
    exact hsame file hfile first (List.mem_of_mem_head? hhead)
  refine ⟨k', fds, callsOf init fds, hrun, hnoted, hall, hfiles, ?_⟩
  rw [ownCalls_eq hall.length_eq hinit]

/-- **The system files are set up** exactly if all of them have the same initializer: for every
table of files that are in `/dev`, and as many free descriptors as files, whichever they are. -/
theorem setsUp_iff (k : Kernel δ) (h : CanSetUp k) : SetsUp k ↔ SameInit k.systemFiles :=
  ⟨h.sameInit, h.setsUp⟩

/-- The two terminals are set up in the boot after the one that formatted the disk. -/
theorem setsUp_terminals : SetsUp (mounted terminalBoot (syncMetadata terminalKernel.fs
    ⟨fun _ ↦ 0, fun _ ↦ 0, none, fun _ ↦ 0⟩).disk) := by
  have hslash : ∀ file ∈ terminalBoot.systemFiles, slash ∉ file.filename.chars := by decide
  have hinv := formattedWith_terminalKernel.remountInv systemTable_terminals
  have hcan := hinv.canSetUp systemTable_terminals hslash terminalBoot ⟨_, rfl⟩ rfl
    ⟨fun _ ↦ 0, fun _ ↦ 0, none, fun _ ↦ 0⟩
  have hidle : ∀ file ∈ terminalBoot.systemFiles,
      file.initializationFunc = fun _ dev ↦ .ok dev :=
    List.forall_mem_cons.mpr ⟨rfl, List.forall_mem_singleton.mpr rfl⟩
  refine (setsUp_iff _ hcan).mpr fun file hfile file' hfile' ↦ ?_
  exact (hidle file hfile).trans (hidle file' hfile').symm

end Yorha.Fs
