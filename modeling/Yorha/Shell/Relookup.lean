import Yorha.Fs.Names
import Yorha.Lib.Lines
import Yorha.Shell.Listing

/-!
# Looking listed paths up

A line of `str_list_dir` is the path followed by the name, with nothing in between.  If the path
ends with a slash, the line is the path of the entry.  If it does not, then the line is cut inside
the last name of the path, and looked up in the directory above; the entry is not there, because a
file is in one directory only.

So in every state that calls keeping the tree lead to, the lines resolve to their entries exactly
if there are none, or the path ends with a slash (`listingResolves_iff_of_reaches`).
-/

namespace Yorha.Shell

open Yorha.Lib Yorha.Str Yorha.Util
open Yorha.Fs hiding read write

variable {δ : Type}

/-- Each line that is listed for the directory `d`, looked up, yields the inode number of its
entry. -/
def ListingResolves (fs : FileSystem) (path : List UInt8) (d : Nat) : Prop :=
  ∃ names, dirListed fs d = .ok names ∧ ∀ file (h : file < names.length),
    lookupPath fs (path ++ names[file]) = .ok (entryInodeNum (fs.block d) file : Int)

section

variable {fs fs' : FileSystem} {c : FsCall} {path name : List UInt8} {names : List Name}
  {i d e file n : Nat}

/-! ## Names without slashes -/

/-- No name in a live directory has a slash. -/
def PlainNames (fs : FileSystem) : Prop :=
  ∀ d, fs.Live d → ∀ entry ∈ fs.children d, slash ∉ entry.1

/-- New names come from behind the last slash of a path. -/
theorem PlainNames.step (h : PlainNames fs) (hs : Sound fs) (htree : TreeEffect fs fs' c) :
    PlainNames fs' := by
  intro j hj entry hmem
  cases htree with
  | same hsame =>
      have hj := (hsame.live_iff j).mp hj
      rw [hsame.children_eq hj] at hmem
      exact h j hj entry hmem
  | @created path _ _ _ d i b hc hd =>
      rcases (hc.live_iff j).mp hj with rfl | hj
      · rw [hc.children_self hd] at hmem
        cases hmem
      · by_cases hjd : j = d
        · rw [hjd, hc.children_parent hs hd, List.mem_append, List.mem_singleton] at hmem
          rcases hmem with hmem | rfl
          · exact h d hd entry hmem
          · exact slash_notMem_fileName path
        · rw [hc.children_eq hs hd hj hjd] at hmem
          exact h j hj entry hmem
  | @removed path _ d e hr hd _ _ =>
      have hj := ((hr.live_iff j).mp hj).2
      by_cases hjd : j = d
      · obtain ⟨n, -, -, -, -, hchildren⟩ := hr.parent_eq hs hd
        rw [hjd, hchildren] at hmem
        exact h d hd entry (List.mem_of_mem_eraseIdx hmem)
      · rw [hr.children_eq hs hd hj hjd] at hmem
        exact h j hj entry hmem

theorem plainNames_of_formatted {k : Kernel δ} (h : Formatted k) : PlainNames k.fs := by
  refine (h.invariant (I := fun k ↦ Quiet k.fs ∧ PlainNames k.fs) ?_ (fun _ _ hI ↦ hI)
    (fun hb _ ↦ ⟨hb.quiet, fun d hd entry hmem ↦ ?_⟩)).2
  · rintro k k' c v ⟨hq, hplain⟩ hc hx
    have he := exec_ok hx
    have hkeep : KeepsTree k.fs c := hq.keepsTree (hc.keepsQuiet _)
    exact ⟨he.quiet hq (hc.keepsQuiet _), hplain.step hq.sound (he.treeEffect hq.sound hkeep)⟩
  · rw [hb.children_live hd] at hmem
    cases hmem

/-! ## Cutting a line -/

/-- A name behind a slash is what is looked up. -/
theorem lookupPath_append (fs : FileSystem) (h : slash ∉ name) (path : List UInt8) :
    lookupPath fs (path ++ slash :: name) = (do
      let dirInodeNum ← seekDirectory fs (path ++ [slash])
      searchDir fs (toUint32 dirInodeNum) name) := by
  have hlast : lastSlash (path ++ slash :: name) 0 0 + 1 = (path ++ [slash]).length := by
    rw [lastSlash_append h, Nat.zero_add, List.length_append]
    rfl
  have hcut : path ++ slash :: name = (path ++ [slash]) ++ name := by
    rw [List.append_assoc]
    rfl
  rw [lookupPath, hlast, hcut, List.take_left, List.drop_left]

theorem getLast?_ne_slash (h : slash ∉ name) (path : List UInt8) (hne : name ≠ []) :
    (path ++ slash :: name).getLast? ≠ some slash := by
  intro hlast
  rw [List.getLast?_append_of_ne_nil _ (List.cons_ne_nil _ _), List.getLast?_cons_of_ne_nil hne]
    at hlast
  exact h (List.mem_of_getLast? hlast)

/-- The name behind the last slash comes last. -/
theorem pathNames_append_name (h : slash ∉ name) (hne : name ≠ []) (path : List UInt8) :
    pathNames (path ++ slash :: name) = pathNames (path ++ [slash]) ++ [name] := by
  have hname : name.splitOn slash = [name] := List.splitOn_eq_singleton h
  cases path with
  | nil =>
      have hlast : name.getLast? ≠ some slash := fun hlast ↦ h (List.mem_of_getLast? hlast)
      rw [List.nil_append, pathNames, List.tail_cons, if_neg hne, trimSlash_of_ne hlast, hname]
      rfl
  | cons c path =>
      have hbehind : path ++ slash :: name ≠ [] :=
        List.append_ne_nil_of_right_ne_nil _ (List.cons_ne_nil _ _)
      have hbehind' : path ++ [slash] ≠ [] :=
        List.append_ne_nil_of_right_ne_nil _ (List.cons_ne_nil _ _)
      rw [List.cons_append, List.cons_append, pathNames, pathNames, List.tail_cons, List.tail_cons,
        if_neg hbehind, if_neg hbehind', trimSlash_append,
        trimSlash_of_ne (getLast?_ne_slash h path hne), List.splitOn_append_cons_self, hname]

/-! ## Sound file systems -/

/-- A live directory's names are those of its children. -/
theorem dirListed_eq (hs : Sound fs) (hd : fs.Live d) (hdir : fs.IsDir d) :
    dirListed fs d = .ok ((fs.children d).map Prod.fst) := by
  have hlisted : ∀ n file, file + n = fs.files d →
      listedNames (fs.block d) n file = .ok ((entriesFrom (fs.block d) file n).map Prod.fst) := by
    intro n
    induction n with
    | zero => exact fun _ _ ↦ rfl
    | succ n ih =>
        intro file hn
        have hle := hs.files_le hd hdir
        obtain ⟨i, hi, hz⟩ := hs.names hd hdir file (by omega)
        have hroom : nameBytes ≤ blockBytes - entryBytes * file := by
          change fs.files d ≤ 113 at hle
          change 32 ≤ 4096 - 36 * file
          omega
        have hstring := isString_stringAt ⟨i, hi, hz⟩
        have hshort := length_stringAt_lt ⟨i, hi, hz⟩
        have hname : readString (entryName (fs.block d) file) (blockBytes - entryBytes * file) =
            .ok (stringAt (entryName (fs.block d) file) nameBytes) :=
          readString_eq_ok.mpr ⟨hshort.trans_le hroom, zero_notMem_stringAt _ _, hstring⟩
        rw [listedNames, if_pos (by omega), hname, ok_bind, ih (file + 1) (by omega), ok_bind,
          entriesFrom_succ]
        rfl
  rw [FileSystem.children_of_isDir hdir]
  exact hlisted _ 0 (Nat.zero_add _)

/-- A child's name and number are those of its entry. -/
theorem child_eq (hdir : fs.IsDir d) (h : (fs.children d)[file]? = some (name, i)) :
    (name, i) = entryAt (fs.block d) file := by
  rw [FileSystem.children_of_isDir hdir, FileSystem.entries, getElem?_entriesOf] at h
  split at h
  · exact (Option.some.inj h).symm
  · cases h

theorem zero_notMem_child (hdir : fs.IsDir d) (h : (fs.children d)[file]? = some (name, i)) :
    0 ∉ name := by
  rw [show name = (entryAt (fs.block d) file).1 from congrArg Prod.fst (child_eq hdir h)]
  exact zero_notMem_stringAt _ _

/-- A line for each child of a live directory. -/
theorem listingResolves_iff_children (hs : Sound fs) (hd : fs.Live d) (hdir : fs.IsDir d) :
    ListingResolves fs path d ↔ ∀ (file : Nat) (name : Name) (i : Nat),
      (fs.children d)[file]? = some (name, i) → lookupPath fs (path ++ name) = .ok (i : Int) := by
  constructor
  · rintro ⟨names, hnames, hall⟩ file name i h
    rw [dirListed_eq hs hd hdir] at hnames
    cases hnames
    obtain ⟨hlt, hget⟩ := List.getElem?_eq_some_iff.mp h
    have hnum : i = entryInodeNum (fs.block d) file := congrArg Prod.snd (child_eq hdir h)
    have hline := hall file (by rwa [List.length_map])
    rw [List.getElem_map, hget, ← hnum] at hline
    exact hline
  · intro hall
    refine ⟨_, dirListed_eq hs hd hdir, fun file hlt ↦ ?_⟩
    rw [List.length_map] at hlt
    have h : (fs.children d)[file]? = some ((fs.children d)[file].1, (fs.children d)[file].2) :=
      List.getElem?_eq_getElem hlt
    have hnum : (fs.children d)[file].2 = entryInodeNum (fs.block d) file :=
      congrArg Prod.snd (child_eq hdir h)
    rw [List.getElem_map, ← hnum]
    exact hall _ _ _ h

/-- What a name behind a slash is looked up in. -/
theorem lookupPath_of_seek (hs : Sound fs) (hd : fs.Live d) (hdir : fs.IsDir d)
    (hseek : seekDirectory fs (path ++ [slash]) = .ok (d : Int)) (hslash : slash ∉ name)
    (hzero : 0 ∉ name) :
    lookupPath fs (path ++ slash :: name) = .ok (Fs.found ((fs.children d).lookup name)) := by
  rw [lookupPath_append fs hslash, hseek, ok_bind, toUint32_inode (hs.lt hd)]
  exact hs.searchDir_eq hd hdir hzero

/-- The directory that an absolute path leads to. -/
theorem seekDirectory_of_leads (hs : Sound fs) (habs : path.head? = some slash)
    (hzero : ∀ name ∈ pathNames path, 0 ∉ name) (h : Leads fs (pathNames path) d) :
    seekDirectory fs path = .ok (d : Int) := by
  rw [seekDirectory_eq_walk fs habs, components_eq_pathNames]
  exact hs.walk_eq_ok hs.root_live hzero h.short h.resolve h.dir

/-- A path that is cut inside its last name leads to another file: the entry is in one directory
only. -/
theorem lookupPath_ne (hs : Sound fs) (hplain : PlainNames fs) {tail : List UInt8}
    (habs : (path ++ slash :: tail).head? = some slash) (htail : slash ∉ tail) (hne : tail ≠ [])
    (hzero : 0 ∉ path ++ slash :: tail) (hd : Leads fs (pathNames (path ++ slash :: tail)) d)
    (hentry : (fs.children d)[file]? = some (name, i)) :
    lookupPath fs (path ++ slash :: tail ++ name) ≠ .ok (i : Int) := by
  have hnames : ∀ name ∈ pathNames (path ++ slash :: tail), 0 ∉ name :=
    zero_notMem_pathNames ⟨path ++ slash :: tail, hzero⟩
  have hshort := hd.short
  have hres := hd.resolve
  rw [pathNames_append_name htail hne] at hnames hshort hres
  rw [List.forall_mem_append] at hnames hshort
  rw [Forest.resolve_concat, Option.bind_eq_some_iff] at hres
  obtain ⟨e, hres, hup⟩ := hres
  have he : fs.Live e := hs.forest.resolve_live hs.root_live hres
  have hedir : fs.IsDir e := FileSystem.isDir_of_lookup hup
  have habs' : (path ++ [slash]).head? = some slash := by
    cases path with
    | nil => rfl
    | cons c path => exact habs
  have hseek := seekDirectory_of_leads hs habs' hnames.1 ⟨he, hedir, hres, hshort.1⟩
  have hline : path ++ slash :: tail ++ name = path ++ slash :: (tail ++ name) := by
    rw [List.append_assoc]
    rfl
  have hplain' : slash ∉ tail ++ name := by
    rw [List.mem_append, not_or]
    exact ⟨htail, hplain d hd.live _ (List.mem_of_getElem? hentry)⟩
  have hzero' : 0 ∉ tail ++ name := by
    rw [List.mem_append, not_or]
    refine ⟨fun hmem ↦ hzero ?_, ?_⟩
    · exact List.mem_append_right _ (List.mem_cons_of_mem _ hmem)
    · exact zero_notMem_child hd.dir hentry
  rw [hline, lookupPath_of_seek hs he hedir hseek hplain' hzero']
  intro hfound
  cases hl : (fs.children e).lookup (tail ++ name) with
  | none =>
      rw [hl] at hfound
      exact absurd (Except.ok.inj hfound) (by rw [Fs.found]; omega)
  | some i' =>
      rw [hl] at hfound
      obtain rfl : i' = i := Int.ofNat.inj (Except.ok.inj hfound)
      -- the same child of two directories
      obtain ⟨k, hk⟩ := Forest.getElem?_of_lookup hl
      obtain ⟨rfl, rfl⟩ := hs.forest.once he hd.live hk hentry
      rw [hk] at hentry
      have hname : tail ++ name = name := congrArg Prod.fst (Option.some.inj hentry)
      exact hne (List.append_left_eq_self.mp hname)

/-- **The lines resolve exactly if there are none, or the path ends with a slash.** -/
theorem listingResolves_iff_of_sound (hs : Sound fs) (hplain : PlainNames fs) {p : CString}
    (hsafe : fs.WalksDirs (pathNames p.chars) 0)
    (hseek : seekDirectory fs p.chars = .ok (d : Int)) :
    ListingResolves fs p.chars d ↔ p.chars.getLast? = some slash ∨ fs.files d = 0 := by
  have habs : p.chars.head? = some slash := by
    by_contra hrel
    rw [seekDirectory_of_head_ne fs hrel] at hseek
    exact absurd (Except.ok.inj hseek) (by omega)
  have hd : Leads fs (pathNames p.chars) d := by
    have hwalk := hseek
    rw [seekDirectory_eq_walk fs habs, components_eq_pathNames] at hwalk
    rcases hs.walk_ok hs.root_live (zero_notMem_pathNames p) hsafe hwalk with
      hneg | ⟨d', hd', hd, hdir, hres, hshort⟩
    · exact absurd hneg (by omega)
    · obtain rfl := Int.ofNat.inj hd'
      exact ⟨hd, hdir, hres, hshort⟩
  rw [listingResolves_iff_children hs hd.live hd.dir]
  constructor
  · intro hall
    by_contra hnot
    rw [not_or] at hnot
    obtain ⟨hlast, hfiles⟩ := hnot
    -- the first entry, and the path cut behind its last slash
    obtain ⟨⟨name, i⟩, hentry⟩ : ∃ entry, (fs.children d)[0]? = some entry := by
      rw [FileSystem.children_of_isDir hd.dir, FileSystem.entries, getElem?_entriesOf,
        if_pos (Nat.pos_of_ne_zero hfiles)]
      exact ⟨_, rfl⟩
    have hcount : 1 ≤ p.chars.count slash :=
      List.count_pos_iff.mpr (List.mem_of_mem_head? habs)
    obtain ⟨path, tail, hcut, htail⟩ := exists_lastLines Nat.one_pos hcount
    have hne : tail ≠ [] := by
      rintro rfl
      rw [hcut, List.getLast?_concat] at hlast
      exact hlast rfl
    have hline := hall 0 name i hentry
    have hzero := p.nonzero
    rw [hcut] at habs hd hline hzero
    exact lookupPath_ne hs hplain habs (List.count_eq_zero.mp (Nat.succ.inj htail)) hne hzero hd
      hentry hline
  · rintro (hlast | hfiles) file name i hentry
    · have hcut : p.chars = p.chars.dropLast ++ [slash] :=
        (List.dropLast_append_getLast? _ hlast).symm
      have hline : p.chars ++ name = p.chars.dropLast ++ slash :: name := by
        rw [hcut, List.append_assoc, List.dropLast_concat]
        rfl
      rw [hcut] at hseek
      have hlookup : (fs.children d).lookup name = some i :=
        (hs.forest.lookup_eq_some hd.live).mpr (List.mem_of_getElem? hentry)
      rw [hline, lookupPath_of_seek hs hd.live hd.dir hseek
        (hplain d hd.live _ (List.mem_of_getElem? hentry)) (zero_notMem_child hd.dir hentry),
        hlookup]
      rfl
    · rw [FileSystem.children_of_isDir hd.dir, FileSystem.entries_of_files_eq_zero hfiles] at hentry
      cases hentry

end

/-! ## Runs -/

/-- What is kept. -/
structure ListingInv (fs : FileSystem) : Prop where
  sound : Sound fs
  plain : PlainNames fs

/-- **Step.**  A call that keeps the tree keeps slashes out of names. -/
theorem ListingInv.step {fs fs' : FileSystem} {c : FsCall} (h : ListingInv fs)
    (hc : KeepsTree fs c) (he : Effect fs fs' c) : ListingInv fs' :=
  have htree := he.treeEffect h.sound hc
  ⟨htree.sound h.sound, h.plain.step h.sound htree⟩

/-- **When listed paths resolve.**  In every state that calls keeping the tree lead to from a
formatted disk, and for every path that leads to a directory through directories. -/
theorem listingResolves_iff_of_reaches {k₀ k : Kernel δ} (h₀ : Formatted k₀)
    (h : Reaches FsCall.exec (fun k c ↦ KeepsTree k.fs c) k₀ k) {path : CString} {d : Nat}
    (hsafe : k.fs.WalksDirs (pathNames path.chars) 0)
    (hseek : seekDirectory k.fs path.chars = .ok (d : Int)) :
    ListingResolves k.fs path.chars d ↔ path.chars.getLast? = some slash ∨ k.fs.files d = 0 := by
  have hstart : ListingInv k₀.fs := ⟨h₀.quiet.sound, plainNames_of_formatted h₀⟩
  have hinv : ListingInv k.fs := by
    refine Reaches.invariant (I := fun k ↦ ListingInv k.fs) h hstart ?_
    intro k c v k' hI hc hx
    exact hI.step hc (exec_ok hx)
  exact listingResolves_iff_of_sound hinv.sound hinv.plain hsafe hseek

/-- The special files, after a directory was made. -/
theorem listingResolves_dev : ∃ k,
    runCalls FsCall.exec (fun k c ↦ KeepsTree k.fs c) copyCalls terminalKernel = some k ∧
      ListingResolves k.fs devPrefix.chars 1 := by
  obtain ⟨k, hk, hcheck⟩ := (Option.any_eq_true _ _).mp
    (show (runCalls FsCall.exec (fun k c ↦ KeepsTree k.fs c) copyCalls terminalKernel).any (fun k ↦
      decide (k.fs.WalksDirs (pathNames devPrefix.chars) 0 ∧
        seekDirectory k.fs devPrefix.chars = .ok ((1 : Nat) : Int))) = true by decide +kernel)
  obtain ⟨hsafe, hseek⟩ := of_decide_eq_true hcheck
  exact ⟨k, hk, (listingResolves_iff_of_reaches formatted_terminalKernel (reaches_of_runCalls hk)
    hsafe hseek).mpr (.inl rfl)⟩

/-- **The lines of `/dev` do not resolve**: the first is `/devtty`, which is looked up in the
root. -/
theorem dev_lines_lost : Formatted terminalKernel ∧
    seekDirectory terminalKernel.fs devPath.chars = .ok ((1 : Nat) : Int) ∧
    lookupPath terminalKernel.fs (ofText "/devtty") = .ok (-1) ∧
    ¬ ListingResolves terminalKernel.fs devPath.chars 1 := by
  have hlookup : lookupPath terminalKernel.fs (ofText "/devtty") = .ok (-1) := by decide +kernel
  have hlisted : dirListed terminalKernel.fs 1 = .ok [ofText "tty", ofText "ttyS"] := by
    decide +kernel
  refine ⟨formatted_terminalKernel, by decide +kernel, hlookup, ?_⟩
  rintro ⟨names, hnames, hall⟩
  rw [hlisted] at hnames
  cases hnames
  have hline := hall 0 (by decide)
  have htext : devPath.chars ++ ofText "tty" = ofText "/devtty" := rfl
  rw [List.getElem_cons_zero, htext, hlookup] at hline
  exact absurd (Except.ok.inj hline) (by omega)

end Yorha.Shell
