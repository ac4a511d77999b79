import Yorha.Fs.Integrity

/-!
# What a path is looked up in

`seek_directory` follows a path by looking each of its names up in the block of the inode that
the names before it led to.  `pathNames` cuts a path at its slashes, `FileSystem.follow` folds
the lookups over the names, and `seek_directory` is that fold (`seekDirectory_eq_follow`), as
long as the blocks that are read hold at most 113 entries and what is found is in the table.

The type of an inode is looked at when the path has ended, and nowhere before.  The bytes of a
normal file are entries to a path that goes on behind it: every inode on the way to a directory
is a directory exactly when no file's bytes lead back to one (`traversesDirs_iff`).
-/

namespace Yorha.Fs

open Yorha.Lib Yorha.Str Yorha.Util

/-! ## The names of a path -/

/-- A list without its last element, if that is a slash. -/
def trimSlash (path : List UInt8) : List UInt8 :=
  if path.getLast? = some slash then path.dropLast else path

/-- The components of an absolute path; one slash at its end is ignored. -/
def pathNames (path : List UInt8) : List Name :=
  if path.tail = [] then [] else (trimSlash path.tail).splitOn slash

theorem trimSlash_cons {c : UInt8} {path : List UInt8} (h : path ≠ []) :
    trimSlash (c :: path) = c :: trimSlash path := by
  obtain ⟨c', path', rfl⟩ := List.exists_cons_of_ne_nil h
  rw [trimSlash, trimSlash, List.getLast?_cons_cons, List.dropLast_cons_cons]
  split
  · rfl
  · rfl

@[simp] theorem trimSlash_append (path : List UInt8) : trimSlash (path ++ [slash]) = path := by
  rw [trimSlash, List.getLast?_concat, if_pos rfl, List.dropLast_concat]

theorem trimSlash_of_ne {path : List UInt8} (h : path.getLast? ≠ some slash) :
    trimSlash path = path := if_neg h

/-- The names that the loop looks up are the pieces between the slashes. -/
theorem components_eq_splitOn {path : List UInt8} (h : path ≠ []) (nextDir : Name) :
    components path nextDir = ((trimSlash path).splitOn slash).modifyHead (nextDir ++ ·) := by
  induction path generalizing nextDir with
  | nil => exact absurd rfl h
  | cons c path ih =>
      rw [components]
      by_cases hlast : path = []
      · subst hlast
        rw [if_pos (.inr rfl), components]
        by_cases hc : c = slash
        · subst hc
          rw [if_pos rfl, show trimSlash [slash] = [] from trimSlash_append [], List.splitOn_nil,
            List.modifyHead_cons, List.append_nil]
        · have htrim : trimSlash [c] = [c] := trimSlash_of_ne fun h ↦ hc (Option.some.inj h)
          have hmem : slash ∉ [c] := fun hmem ↦ hc (List.mem_singleton.mp hmem).symm
          rw [if_neg hc, htrim, List.splitOn_eq_singleton hmem, List.modifyHead_cons]
      · rw [trimSlash_cons hlast, List.splitOn_cons_eq_if_modifyHead]
        by_cases hc : c = slash
        · rw [if_pos (.inl hc), if_pos hc, if_pos (beq_iff_eq.mpr hc), List.modifyHead_cons,
            List.append_nil, ih hlast]
          congr 1
          obtain ⟨name, names, hnames⟩ :=
            List.exists_cons_of_ne_nil (List.splitOn_ne_nil slash (trimSlash path))
          rw [hnames]
          rfl
        · rw [if_neg (fun hor ↦ hor.elim hc hlast), if_neg (mt beq_iff_eq.mp hc), ih hlast,
            List.modifyHead_modifyHead]
          congr 1
          funext name
          exact List.append_assoc _ _ _

/-- **The names that `seek_directory` looks up are the components of the path.** -/
theorem components_eq_pathNames (path : List UInt8) : components path.tail [] = pathNames path := by
  rw [pathNames]
  split
  · rename_i hnil
    rw [hnil]
    rfl
  · rename_i hne
    rw [components_eq_splitOn hne]
    obtain ⟨name, names, hnames⟩ :=
      List.exists_cons_of_ne_nil (List.splitOn_ne_nil slash (trimSlash path.tail))
    rw [hnames]
    rfl

/-- A slash more at the end changes no name. -/
theorem pathNames_append {path : List UInt8} (habs : path.head? = some slash)
    (h : path.getLast? ≠ some slash) : pathNames (path ++ [slash]) = pathNames path := by
  obtain ⟨rest, rfl⟩ : ∃ rest, path = slash :: rest := by
    cases path with
    | nil => cases habs
    | cons c rest => exact ⟨rest, by rw [Option.some.inj habs]⟩
  have hrest : rest ≠ [] := by
    rintro rfl
    exact h rfl
  have hlast : rest.getLast? ≠ some slash := by
    obtain ⟨c, rest', rfl⟩ := List.exists_cons_of_ne_nil hrest
    rwa [List.getLast?_cons_cons] at h
  have happend : rest ++ [slash] ≠ [] := fun hnil ↦ hrest (List.append_eq_nil_iff.mp hnil).1
  rw [List.cons_append, pathNames, pathNames, List.tail_cons, List.tail_cons, if_neg happend,
    if_neg hrest, trimSlash_append, trimSlash_of_ne hlast]

theorem zero_notMem_pathNames (path : CString) : ∀ name ∈ pathNames path.chars, 0 ∉ name := by
  rw [← components_eq_pathNames]
  exact zero_notMem_components (fun h ↦ path.nonzero (List.mem_of_mem_tail h)) List.not_mem_nil

/-! ## The fold -/

namespace FileSystem

/-- Look up a list of names from the inode `i` on, each in the block of the inode before. -/
def follow (fs : FileSystem) (names : List Name) (i : Nat) : Option Nat :=
  names.foldlM (fun i name ↦ (fs.entries i).lookup name) i

/-- What is read to look up the names is well formed: each block holds at most 113 entries,
and an inode number that is found is one of the table. -/
def WellFormedAlong (fs : FileSystem) : List Name → Nat → Prop
  | [], _ => True
  | name :: names, i => fs.files i ≤ dirFileCountMax ∧
      ∀ next ∈ (fs.entries i).lookup name, next < inodeCount ∧ fs.WellFormedAlong names next

/-- The inode if it is a directory, else -1. -/
def directoryAt (fs : FileSystem) : Option Nat → Int
  | some d => if fs.IsDir d then d else -1
  | none => -1

theorem follow_cons (fs : FileSystem) (name : Name) (names : List Name) (i : Nat) :
    fs.follow (name :: names) i = ((fs.entries i).lookup name).bind (fs.follow names) := rfl

variable {fs : FileSystem} {names : List Name} {i : Nat}

/-- Blocks of at most 113 entries, with numbers of the table, are all that is needed. -/
theorem wellFormedAlong_of_blocks (hfiles : ∀ i < inodeCount, fs.files i ≤ dirFileCountMax)
    (hentries : ∀ i < inodeCount, ∀ entry ∈ fs.entries i, entry.2 < inodeCount)
    (hi : i < inodeCount) : fs.WellFormedAlong names i := by
  induction names generalizing i with
  | nil => trivial
  | cons name names ih =>
      refine ⟨hfiles i hi, fun next hnext ↦ ?_⟩
      obtain ⟨k, hk⟩ := Forest.getElem?_of_lookup hnext
      have hlt := hentries i hi _ (List.mem_of_getElem? hk)
      exact ⟨hlt, ih hlt⟩

/-- **A walk is a fold of lookups.** -/
theorem walk_eq_follow (hi : i < inodeCount) (hnames : ∀ name ∈ names, 0 ∉ name)
    (hshort : ∀ name ∈ names, name.length < nameBytes) (hwell : fs.WellFormedAlong names i) :
    fs.walk names i = .ok (fs.directoryAt (fs.follow names i)) := by
  have hread : fs.readInode i = .ok (fs.inode i) := readInode_eq_ok.mpr ⟨hi, rfl⟩
  induction names generalizing i with
  | nil =>
      rw [walk, hread, ok_bind, toInt32_of_lt (lt_trans hi (by decide))]
      rfl
  | cons name names ih =>
      rw [List.forall_mem_cons] at hnames hshort
      obtain ⟨hfiles, hnext⟩ := hwell
      have hscan := scanEntries_short (fs.block i) hshort.1 hnames.1 (fs.files i) 0
        (by rwa [Nat.zero_add])
      change scanEntries _ _ _ 0 = .ok ((fs.entries i).lookup name) at hscan
      rw [walk, if_pos hshort.1, hread, ok_bind, follow_cons]
      change (scanEntries (fs.block i) name (fs.files i) 0 >>= _) = _
      rw [hscan, ok_bind]
      cases hl : (fs.entries i).lookup name with
      | none => rfl
      | some next =>
          obtain ⟨hlt, hwell⟩ := hnext next hl
          have hint : toInt32 next ≠ -1 := by
            rw [toInt32_of_lt (lt_trans hlt (by decide))]
            omega
          exact (if_neg hint).trans (ih hlt hnames.2 hshort.2 hwell
            (readInode_eq_ok.mpr ⟨hlt, rfl⟩))

theorem directoryAt_eq_natCast {o : Option Nat} {d : Nat} :
    fs.directoryAt o = d ↔ o = some d ∧ fs.IsDir d := by
  cases o with
  | none => exact ⟨fun h ↦ absurd h (by rw [directoryAt]; omega), fun h ↦ (nomatch h.1)⟩
  | some e =>
      rw [directoryAt]
      split
      · rename_i hdir
        constructor
        · intro h
          obtain rfl := Int.ofNat.inj h
          exact ⟨rfl, hdir⟩
        · rintro ⟨he, -⟩
          rw [Option.some.inj he]
      · rename_i hdir
        refine ⟨fun h ↦ absurd h (by omega), ?_⟩
        rintro ⟨he, hd⟩
        rw [Option.some.inj he] at hdir
        exact absurd hd hdir

theorem directoryAt_eq_neg_one {o : Option Nat} :
    fs.directoryAt o = -1 ↔ o = none ∨ ∃ e, o = some e ∧ ¬ fs.IsDir e := by
  cases o with
  | none => exact ⟨fun _ ↦ .inl rfl, fun _ ↦ rfl⟩
  | some e =>
      rw [directoryAt]
      split
      · rename_i hdir
        refine ⟨fun h ↦ absurd h (by omega), ?_⟩
        rintro (h | ⟨e', he, hno⟩)
        · cases h
        · rw [← Option.some.inj he] at hno
          exact absurd hdir hno
      · rename_i hdir
        exact ⟨fun _ ↦ .inr ⟨e, rfl, hdir⟩, fun _ ↦ rfl⟩

end FileSystem

/-- **Path walk.**  `seek_directory` folds the lookup of the first match over the components of
an absolute path, from inode 0 on; it returns the inode this leads to if that is a directory,
-1 if a component is not found or the last inode is no directory, and the same with a slash
more at the end. -/
theorem seekDirectory_eq_follow (fs : FileSystem) (path : CString)
    (habs : path.chars.head? = some slash)
    (hshort : ∀ name ∈ pathNames path.chars, name.length < nameBytes)
    (hwell : fs.WellFormedAlong (pathNames path.chars) 0) :
    ∃ r, seekDirectory fs path.chars = .ok r ∧
      (∀ d : Nat, r = d ↔ fs.follow (pathNames path.chars) 0 = some d ∧ fs.IsDir d) ∧
      (r = -1 ↔ fs.follow (pathNames path.chars) 0 = none ∨
        ∃ e, fs.follow (pathNames path.chars) 0 = some e ∧ ¬ fs.IsDir e) ∧
      (path.chars.getLast? ≠ some slash →
        seekDirectory fs (path.chars ++ [slash]) = .ok r) := by
  have hwalk := FileSystem.walk_eq_follow (by decide) (zero_notMem_pathNames path) hshort hwell
  refine ⟨fs.directoryAt (fs.follow (pathNames path.chars) 0), ?_,
    fun _ ↦ FileSystem.directoryAt_eq_natCast, FileSystem.directoryAt_eq_neg_one, fun hlast ↦ ?_⟩
  · rw [seekDirectory_eq_walk fs habs, components_eq_pathNames]
    exact hwalk
  · have habs' : (path.chars ++ [slash]).head? = some slash := by
      rw [List.head?_append, habs]
      rfl
    rw [seekDirectory_eq_walk fs habs', components_eq_pathNames, pathNames_append habs hlast]
    exact hwalk

/-- A formatted disk has four files, and no inode behind theirs has a size. -/
theorem size_terminalKernel {i : Nat} (hi : 4 ≤ i) : (terminalKernel.fs.inode i).size = 0 := by
  have hall : ∀ inode ∈ terminalKernel.fs.globalInodeTable.toList.drop 4, inode.size = 0 := by
    decide +kernel
  rw [FileSystem.inode]
  cases hget : terminalKernel.fs.globalInodeTable[i]? with
  | none => rfl
  | some inode =>
      refine hall inode (List.mem_iff_getElem?.mpr ⟨i - 4, ?_⟩)
      rw [List.getElem?_drop, Nat.add_sub_cancel' hi, ← Vector.getElem?_toList] at *
      exact hget

theorem seekDirectory_dev :
    seekDirectory terminalKernel.fs devPath.chars = .ok ((1 : Nat) : Int) := by
  have hwell : terminalKernel.fs.WellFormedAlong (pathNames devPath.chars) 0 := by
    have hempty : ∀ i, 4 ≤ i → terminalKernel.fs.files i = 0 := fun i hi ↦ by
      rw [FileSystem.files, size_terminalKernel hi]
      rfl
    refine FileSystem.wellFormedAlong_of_blocks (fun i _ ↦ ?_) (fun i _ ↦ ?_) (by decide)
    · by_cases hi : i < 4
      · revert i
        decide +kernel
      · rw [hempty i (Nat.le_of_not_lt hi)]
        exact Nat.zero_le _
    · by_cases hi : i < 4
      · revert i
        decide +kernel
      · rw [FileSystem.entries, hempty i (Nat.le_of_not_lt hi)]
        exact List.forall_mem_nil _
  obtain ⟨r, hr, hfound, -⟩ :=
    seekDirectory_eq_follow terminalKernel.fs devPath rfl (by decide) hwell
  rw [hr, (hfound 1).mpr (by decide +kernel)]

/-! ## The inodes on the way -/

namespace FileSystem

/-- Look up a list of names as `walk` does, and list the inodes that this comes to. -/
def walkVisits (fs : FileSystem) : List Name → Nat → Except Stop (Int × List Nat)
  | [], currentInodeNum => do
      let inode ← fs.readInode currentInodeNum
      .ok (if inode.fileType = fileTypeDir then toInt32 currentInodeNum else -1,
        [currentInodeNum])
  | name :: names, currentInodeNum =>
      if name.length < nameBytes then do
        let dirInode ← fs.readInode currentInodeNum
        let buf := ataReadBlock fs.disk dirInode.dataBlockStart
        match ← scanEntries buf name (dirInode.size / entryBytes) 0 with
        | some fileInodeNumber =>
            if toInt32 fileInodeNumber = -1 then .ok (-1, [currentInodeNum])
            else do
              let (r, visited) ← fs.walkVisits names fileInodeNumber
              .ok (r, currentInodeNum :: visited)
        | none => .ok (-1, [currentInodeNum])
      else .error .fault

/-- `walkVisits` returns what `walk` does. -/
theorem walkVisits_fst (fs : FileSystem) (names : List Name) (i : Nat) :
    (fs.walkVisits names i).map Prod.fst = fs.walk names i := by
  induction names generalizing i with
  | nil =>
      rw [walkVisits, walk]
      cases fs.readInode i with
      | error e => rfl
      | ok inode => rfl
  | cons name names ih =>
      rw [walkVisits, walk]
      split
      · cases fs.readInode i with
        | error e => rfl
        | ok inode =>
            simp only [ok_bind]
            cases scanEntries (ataReadBlock fs.disk inode.dataBlockStart) name
                (inode.size / entryBytes) 0 with
            | error e => rfl
            | ok o =>
                simp only [ok_bind]
                cases o with
                | none => rfl
                | some next =>
                    simp only []
                    split
                    · rfl
                    · rw [← ih next]
                      cases fs.walkVisits names next with
                      | error e => rfl
                      | ok r => rfl
      · rfl

/-- A name leads from an inode to another: the first entry of this name that lies in the block
of the one has the number of the other. -/
def Next (fs : FileSystem) (i e : Nat) : Prop :=
  i < inodeCount ∧ e < inodeCount ∧ ∃ name : Name, name.length < nameBytes ∧ 0 ∉ name ∧
    slash ∉ name ∧ (entriesOf (fs.block i) (min (fs.files i) dirFileCountMax)).lookup name = some e

/-- Names lead from an inode to another. -/
def Reaches (fs : FileSystem) : Nat → Nat → Prop := Relation.ReflTransGen fs.Next

end FileSystem

/-- `seek_directory`, with the inodes it comes to. -/
def seekVisits (fs : FileSystem) (dirPath : List UInt8) : Except Stop (Int × List Nat) :=
  if dirPath.head? = some slash then fs.walkVisits (pathNames dirPath) 0 else .ok (-1, [])

/-- It returns what `seek_directory` does. -/
theorem seekVisits_fst (fs : FileSystem) (dirPath : List UInt8) :
    (seekVisits fs dirPath).map Prod.fst = seekDirectory fs dirPath := by
  rw [seekVisits]
  split
  · rename_i habs
    rw [seekDirectory_eq_walk fs habs, components_eq_pathNames, FileSystem.walkVisits_fst]
  · rename_i hrel
    cases dirPath with
    | nil => rfl
    | cons c dirPath => exact (if_neg fun hc ↦ hrel (congrArg some hc)).symm

/-- Where `seek_directory` succeeds, all the inodes on the way are directories. -/
def TraversesDirs (fs : FileSystem) : Prop :=
  ∀ (path : CString) (n : Int) (visited : List Nat), seekVisits fs path.chars = .ok (n, visited) →
    0 ≤ n → ∀ i ∈ visited, fs.IsDir i

/-- Names that lead through an inode to a directory lead through directories. -/
def DirsLeadToDirs (fs : FileSystem) : Prop :=
  ∀ f d, fs.Reaches 0 f → fs.Reaches f d → fs.IsDir d → fs.IsDir f

section

variable {fs : FileSystem} {names : List Name} {i f d : Nat} {r : Int} {visited : List Nat}

theorem FileSystem.Reaches.lt (h : fs.Reaches 0 i) : i < inodeCount := by
  cases h with
  | refl => decide
  | tail _ h => exact h.2.1

/-- What a walk looks up leads from one inode to the next. -/
theorem FileSystem.next_of_scan {name : Name} {o : Nat} (hi : i < inodeCount) (ho : o < inodeCount)
    (hshort : name.length < nameBytes) (hzero : 0 ∉ name) (hslash : slash ∉ name)
    (hscan : scanEntries (fs.block i) name (fs.files i) 0 = .ok (some o)) : fs.Next i o :=
  ⟨hi, ho, name, hshort, hzero, hslash,
    (scanEntries_some_iff hshort hzero (Nat.zero_le _)).mp hscan⟩

/-- The end of a walk, and its beginning. -/
theorem FileSystem.walkVisits_cons_ok {name : Name}
    (h : fs.walkVisits (name :: names) i = .ok (r, visited)) (hr : 0 ≤ r) :
    i < inodeCount ∧ name.length < nameBytes ∧ ∃ e rest,
      scanEntries (fs.block i) name (fs.files i) 0 = .ok (some e) ∧
      fs.walkVisits names e = .ok (r, rest) ∧ visited = i :: rest := by
  rw [walkVisits] at h
  split at h
  · rename_i hshort
    simp only [bind_eq_ok, FileSystem.readInode_eq_ok] at h
    obtain ⟨inode, ⟨hi, rfl⟩, o, hscan, h⟩ := h
    refine ⟨hi, hshort, ?_⟩
    cases o with
    | none =>
        cases h
        omega
    | some e =>
        simp only [] at h
        split at h
        · cases h
          omega
        · obtain ⟨⟨r', rest⟩, hrest, h⟩ := bind_eq_ok.mp h
          cases h
          exact ⟨e, rest, hscan, hrest, rfl⟩
  · cases h

/-- The inodes of a walk that ends at a directory lead to it. -/
theorem FileSystem.reaches_of_walkVisits (hnames : ∀ name ∈ names, 0 ∉ name ∧ slash ∉ name)
    (h : fs.walkVisits names i = .ok (r, visited)) (hr : 0 ≤ r) :
    i < inodeCount ∧ ∃ d : Nat, fs.IsDir d ∧ fs.Reaches i d ∧
      ∀ f ∈ visited, fs.Reaches i f ∧ fs.Reaches f d := by
  induction names generalizing i visited with
  | nil =>
      simp only [walkVisits, bind_eq_ok, FileSystem.readInode_eq_ok] at h
      obtain ⟨inode, ⟨hi, rfl⟩, h⟩ := h
      cases h
      split at hr
      · rename_i hdir
        refine ⟨hi, i, hdir, .refl, fun f hf ↦ ?_⟩
        rw [List.mem_singleton.mp hf]
        exact ⟨.refl, .refl⟩
      · omega
  | cons name names ih =>
      rw [List.forall_mem_cons] at hnames
      obtain ⟨hi, hshort, e, rest, hscan, hrest, rfl⟩ := walkVisits_cons_ok h hr
      obtain ⟨he, d, hdir, hed, hall⟩ := ih hnames.2 hrest
      have hnext := next_of_scan hi he hshort hnames.1.1 hnames.1.2 hscan
      refine ⟨hi, d, hdir, .head hnext hed, List.forall_mem_cons.mpr
        ⟨⟨.refl, .head hnext hed⟩, fun f hf ↦ ?_⟩⟩
      exact ⟨.head hnext (hall f hf).1, (hall f hf).2⟩

/-- A step in front of a walk. -/
theorem FileSystem.Next.walkVisits {e : Nat} (h : fs.Next i e)
    (hwalk : fs.walkVisits names e = .ok (r, visited)) :
    ∃ name, (0 ∉ name ∧ slash ∉ name) ∧
      fs.walkVisits (name :: names) i = .ok (r, i :: visited) := by
  obtain ⟨hi, he, name, hshort, hzero, hslash, hlookup⟩ := h
  have hscan : scanEntries (fs.block i) name (fs.files i) 0 = .ok (some e) :=
    (scanEntries_some_iff hshort hzero (Nat.zero_le _)).mpr hlookup
  have hread : fs.readInode i = .ok (fs.inode i) := readInode_eq_ok.mpr ⟨hi, rfl⟩
  have hint : toInt32 e ≠ -1 := by
    rw [toInt32_of_lt (lt_trans he (by decide))]
    omega
  refine ⟨name, ⟨hzero, hslash⟩, ?_⟩
  rw [FileSystem.walkVisits, if_pos hshort, hread, ok_bind]
  change (scanEntries (fs.block i) name (fs.files i) 0 >>= _) = _
  rw [hscan, ok_bind]
  simp only [if_neg hint, hwalk, ok_bind]

/-- Steps in front of a walk. -/
theorem FileSystem.Reaches.walkVisits (h : fs.Reaches i f)
    (hnames : ∀ name ∈ names, 0 ∉ name ∧ slash ∉ name)
    (hwalk : fs.walkVisits names f = .ok (r, visited)) :
    ∃ names' before, (∀ name ∈ names', 0 ∉ name ∧ slash ∉ name) ∧
      fs.walkVisits names' i = .ok (r, before ++ visited) := by
  induction h using Relation.ReflTransGen.head_induction_on with
  | refl => exact ⟨names, [], hnames, hwalk⟩
  | @head i e hnext _ ih =>
      obtain ⟨names', before, hall, hrest⟩ := ih
      obtain ⟨name, hname, hfirst⟩ := hnext.walkVisits hrest
      exact ⟨name :: names', i :: before, List.forall_mem_cons.mpr ⟨hname, hall⟩, hfirst⟩

/-- The walk that does not move. -/
theorem FileSystem.walkVisits_nil (hd : d < inodeCount) (hdir : fs.IsDir d) :
    fs.walkVisits [] d = .ok ((d : Int), [d]) := by
  have hread : fs.readInode d = .ok (fs.inode d) := readInode_eq_ok.mpr ⟨hd, rfl⟩
  rw [walkVisits, hread, ok_bind, toInt32_of_lt (lt_trans hd (by decide)),
    if_pos (show (fs.inode d).fileType = fileTypeDir from hdir)]

/-- The absolute path of a list of names. -/
def slashed (names : List Name) : List UInt8 := slash :: names.flatMap fun name ↦ name ++ [slash]

/-- A name is collected up to its slash. -/
theorem components_append_slash {name : Name} (h : slash ∉ name) (path : List UInt8)
    (nextDir : Name) :
    components (name ++ slash :: path) nextDir = (nextDir ++ name) :: components path [] := by
  induction name generalizing nextDir with
  | nil => rw [List.nil_append, components, if_pos (.inl rfl), if_pos rfl, List.append_nil]
  | cons c name ih =>
      rw [List.mem_cons, not_or] at h
      have hlast : ¬ (c = slash ∨ name ++ slash :: path = []) := by
        rintro (hc | hnil)
        · exact h.1 hc.symm
        · exact List.cons_ne_nil _ _ (List.append_eq_nil_iff.mp hnil).2
      rw [List.cons_append, components, if_neg hlast, ih h.2, List.append_assoc]
      rfl

/-- The path of a list of names has these names. -/
theorem pathNames_slashed (h : ∀ name ∈ names, slash ∉ name) : pathNames (slashed names) = names := by
  rw [← components_eq_pathNames, slashed, List.tail_cons]
  induction names with
  | nil => rfl
  | cons name names ih =>
      rw [List.forall_mem_cons] at h
      rw [List.flatMap_cons, List.append_assoc, List.singleton_append,
        components_append_slash h.1, ih h.2, List.nil_append]

theorem zero_notMem_slashed (h : ∀ name ∈ names, 0 ∉ name) : 0 ∉ slashed names := by
  rw [slashed, List.mem_cons, not_or, List.mem_flatMap]
  refine ⟨by decide, ?_⟩
  rintro ⟨name, hname, hmem⟩
  rcases List.mem_append.mp hmem with hmem | hmem
  · exact h name hname hmem
  · exact absurd (List.mem_singleton.mp hmem) (by decide)

theorem slash_notMem_components (dirPath : List UInt8) {nextDir : Name}
    (hnext : slash ∉ nextDir) : ∀ name ∈ components dirPath nextDir, slash ∉ name := by
  induction dirPath generalizing nextDir with
  | nil => exact fun name hname ↦ absurd hname List.not_mem_nil
  | cons c dirPath ih =>
      have happend : c ≠ slash → slash ∉ nextDir ++ [c] := by
        intro hc
        rw [List.mem_append, List.mem_singleton, not_or]
        exact ⟨hnext, Ne.symm hc⟩
      intro name hname
      rw [components] at hname
      split at hname
      · rcases List.mem_cons.mp hname with rfl | hname
        · split
          · exact hnext
          · rename_i hc
            exact happend hc
        · exact ih List.not_mem_nil name hname
      · rename_i hlast
        exact ih (happend fun hc ↦ hlast (.inl hc)) name hname

/-- The names of a path have no slash. -/
theorem slash_notMem_pathNames (path : List UInt8) : ∀ name ∈ pathNames path, slash ∉ name := by
  rw [← components_eq_pathNames]
  exact slash_notMem_components path.tail List.not_mem_nil

/-- A walk comes to where it starts. -/
theorem FileSystem.mem_walkVisits (h : fs.walkVisits names i = .ok (r, visited)) (hr : 0 ≤ r) :
    i ∈ visited := by
  cases names with
  | nil =>
      simp only [walkVisits, bind_eq_ok] at h
      obtain ⟨inode, -, h⟩ := h
      cases h
      exact List.mem_singleton.mpr rfl
  | cons name names =>
      obtain ⟨-, -, e, rest, -, -, rfl⟩ := walkVisits_cons_ok h hr
      exact List.mem_cons_self

/-- `seek_directory` walks along the path that a list of names makes. -/
theorem seekVisits_slashed (h : ∀ name ∈ names, slash ∉ name) :
    seekVisits fs (slashed names) = fs.walkVisits names 0 := by
  rw [seekVisits, if_pos (show (slashed names).head? = some slash from rfl), pathNames_slashed h]

/-- **Only directories are traversed, exactly when no other file's bytes lead to a directory.** -/
theorem traversesDirs_iff (fs : FileSystem) : TraversesDirs fs ↔ DirsLeadToDirs fs := by
  constructor
  · intro h f d hf hd hdir
    have hlt : d < inodeCount := FileSystem.Reaches.lt (hf.trans hd)
    -- the path that the steps to the file and then to the directory spell
    obtain ⟨names, before, hnames, hlast⟩ := hd.walkVisits
      (fun _ hname ↦ absurd hname List.not_mem_nil) (FileSystem.walkVisits_nil hlt hdir)
    have hmem := FileSystem.mem_walkVisits hlast (Int.natCast_nonneg d)
    obtain ⟨names', before', hnames', hwalk⟩ := hf.walkVisits hnames hlast
    rw [← seekVisits_slashed fun name hname ↦ (hnames' name hname).2] at hwalk
    exact h ⟨slashed names', zero_notMem_slashed fun name hname ↦ (hnames' name hname).1⟩ _ _
      hwalk (Int.natCast_nonneg d) f (List.mem_append_right _ hmem)
  · intro h path n visited hseek hn f hf
    rw [seekVisits] at hseek
    split at hseek
    · have hnames : ∀ name ∈ pathNames path.chars, 0 ∉ name ∧ slash ∉ name := fun name hname ↦
        ⟨zero_notMem_pathNames path name hname, slash_notMem_pathNames _ name hname⟩
      obtain ⟨-, d, hdir, -, hall⟩ := FileSystem.reaches_of_walkVisits hnames hseek hn
      exact h f d (hall f hf).1 (hall f hf).2 hdir
    · cases hseek
      omega

/-- A program that writes an entry of the root, named `x`, to a normal file. -/
def decoyCalls : List FsCall :=
  [.create (.literal "/f") fun _ ↦ 0,
    .write 2 (Function.update (fun _ ↦ 0) 0 120) entryBytes]

/-- **A path can go through a normal file**: the file's bytes lead back to the root. -/
theorem decoyCalls_traverse : Formatted terminalKernel ∧
    ∃ k, runCalls FsCall.exec (fun _ _ ↦ True) decoyCalls terminalKernel = some k ∧
      seekVisits k.fs (ofText "/f/x") = .ok (((0 : Nat) : Int), [0, 4, 0]) ∧ ¬ k.fs.IsDir 4 ∧
      ¬ TraversesDirs k.fs := by
  obtain ⟨k, hk, hcheck⟩ := (Option.any_eq_true _ _).mp
    (show (runCalls FsCall.exec (fun _ _ ↦ True) decoyCalls terminalKernel).any (fun k ↦
      decide (seekVisits k.fs (ofText "/f/x") = .ok (((0 : Nat) : Int), [0, 4, 0]) ∧
        ¬ k.fs.IsDir 4)) = true by decide +kernel)
  obtain ⟨hseek, hdir⟩ := of_decide_eq_true hcheck
  refine ⟨formatted_terminalKernel, k, hk, hseek, hdir, fun h ↦ hdir ?_⟩
  exact h ⟨ofText "/f/x", by decide⟩ _ _ hseek le_rfl 4 (by decide)

end

end Yorha.Fs
