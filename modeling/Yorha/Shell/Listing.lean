import Mathlib.Algebra.GroupWithZero.Nat
import Yorha.Fs.Names
import Yorha.Fs.Traverse
import Yorha.Fs.Unresolved
import Yorha.Shell.Redirect

/-!
# Listings

`str_list_dir` and `list_dir` both write the names of a directory's entries, each behind the
path they were given.  The first puts the lines into a block with room for 32 bytes an entry,
which suffices exactly if the lines are short enough (`listingFits_iff`).

The second lists the directory that the path up to its last slash leads to, ends each line with
a newline, and puts no zero byte behind the last one: what is behind it is what the buffer held
before (`listersAgree_iff`).
-/

namespace Yorha.Shell

open Yorha.Lib Yorha.Str Yorha.Util Yorha.Heap
open Yorha.Fs hiding read write

variable {δ : Type}

/-! ## The names that are listed -/

/-- The names of `n` more entries from number `file` on, each read up to its zero byte. -/
def listedNames (buf : Bytes) : Nat → Nat → Except Stop (List Name)
  | 0, _ => .ok []
  | n + 1, file =>
      if file < dirFileCountMax then do
        let name ← readString (entryName buf file) (blockBytes - entryBytes * file)
        let names ← listedNames buf n (file + 1)
        .ok (name :: names)
      else .error .fault

/-- The names of a directory's entries. -/
def dirListed (fs : FileSystem) (d : Nat) : Except Stop (List Name) :=
  listedNames (fs.block d) (fs.files d) 0

/-- The lines of a listing, each with a newline behind it. -/
def lines (path : List UInt8) (names : List Name) : List UInt8 :=
  names.flatMap fun name ↦ path ++ name ++ ofText "\n"

/-- The lines of a listing, with newlines between them. -/
def separated (path : List UInt8) (names : List Name) : List UInt8 :=
  (ofText "\n").intercalate (names.map (path ++ ·))

section

variable {fs : FileSystem} {buf : Bytes} {path : List UInt8} {names : List Name} {n file d : Nat}

/-- Behind the first line, each has a newline in front. -/
theorem separated_cons (path : List UInt8) (name : Name) (names : List Name) :
    separated path (name :: names) =
      path ++ name ++ names.flatMap fun name ↦ ofText "\n" ++ path ++ name := by
  induction names generalizing name with
  | nil =>
      rw [separated, List.map_cons, List.map_nil, List.intercalate_singleton, List.flatMap_nil,
        List.append_nil]
  | cons next names ih =>
      have hih := ih next
      rw [separated, List.map_cons] at hih
      rw [separated, List.map_cons, List.map_cons, List.intercalate_cons_cons, hih,
        List.flatMap_cons]
      simp only [List.append_assoc]

/-- There are as many names as entries. -/
theorem length_listedNames (h : listedNames buf n file = .ok names) : names.length = n := by
  induction n generalizing file names with
  | zero =>
      cases h
      rfl
  | succ n ih =>
      rw [listedNames] at h
      split at h
      · simp only [bind_eq_ok] at h
        obtain ⟨name, -, rest, hrest, h⟩ := h
        cases h
        rw [List.length_cons, ih hrest]
      · cases h

theorem zero_notMem_listedNames (h : listedNames buf n file = .ok names) :
    ∀ name ∈ names, 0 ∉ name := by
  induction n generalizing file names with
  | zero =>
      cases h
      exact List.forall_mem_nil _
  | succ n ih =>
      rw [listedNames] at h
      split at h
      · simp only [bind_eq_ok] at h
        obtain ⟨name, hname, rest, hrest, h⟩ := h
        cases h
        exact List.forall_mem_cons.mpr ⟨(readString_eq_ok.mp hname).2.1, ih hrest⟩
      · cases h

theorem zero_notMem_lines (hpath : 0 ∉ path) (h : ∀ name ∈ names, 0 ∉ name) :
    0 ∉ lines path names := by
  rw [lines, List.mem_flatMap]
  rintro ⟨name, hname, hmem⟩
  rw [List.mem_append, List.mem_append] at hmem
  rcases hmem with (hmem | hmem) | hmem
  · exact hpath hmem
  · exact h name hname hmem
  · exact absurd hmem (by decide)

/-- The loop of `str_list_dir` puts a newline before each line but the first. -/
theorem listEntries_eq (buf : Bytes) (path : List UInt8) (n file : Nat) :
    listEntries buf path n file = (listedNames buf n file).map fun names ↦
      if file = 0 then separated path names
      else names.flatMap fun name ↦ ofText "\n" ++ path ++ name := by
  induction n generalizing file with
  | zero =>
      rw [listEntries, listedNames, Except.map]
      split
      · rfl
      · rfl
  | succ n ih =>
      rw [listEntries, listedNames, ih]
      split
      · cases readString (entryName buf file) (blockBytes - entryBytes * file) with
        | error e => rfl
        | ok name =>
            cases listedNames buf n (file + 1) with
            | error e => rfl
            | ok names =>
                simp only [Except.map, ok_bind, if_neg (Nat.succ_ne_zero file)]
                congr 1
                split
                · rw [separated_cons, List.nil_append]
                · rw [List.flatMap_cons]
      · rfl

/-- What `str_list_dir` writes. -/
theorem listEntries_zero (buf : Bytes) (path : List UInt8) (n : Nat) :
    listEntries buf path n 0 = (listedNames buf n 0).map (separated path) :=
  (listEntries_eq buf path n 0).trans (congrArg (Except.map · _) (funext fun _ ↦ if_pos rfl))

/-! ## Does it fit? -/

theorem length_separated (path : List UInt8) (names : List Name) :
    (separated path names).length = names.length * path.length + (names.map List.length).sum +
      (names.length - 1) := by
  cases names with
  | nil => simp [separated]
  | cons name names =>
      rw [separated_cons]
      have hrest : (names.flatMap fun name ↦ ofText "\n" ++ path ++ name).length =
          names.length * path.length + (names.map List.length).sum + names.length := by
        induction names with
        | nil => simp
        | cons next names ih =>
            rw [List.flatMap_cons, List.length_append, ih, List.length_cons, List.map_cons,
              List.sum_cons, Nat.succ_mul, List.length_append, List.length_append]
            have hnewline : (ofText "\n").length = 1 := rfl
            omega
      rw [List.length_append, List.length_append, hrest, List.length_cons, List.map_cons,
        List.sum_cons, Nat.succ_mul]
      omega

variable {k : Kernel δ} {p : CString} {base : Nat} {a : AllocArray}

/-- What `seek_directory` returned can be read. -/
theorem readInode_of_seek (h : seekDirectory fs path = .ok (d : Int)) :
    fs.readInode (toUint32 d) = .ok (fs.inode d) := by
  rcases seekDirectory_ok_range h with hneg | ⟨d', hd', hlt, -⟩
  · omega
  · obtain rfl := Int.ofNat.inj hd'
    rw [toUint32_inode hlt]
    exact FileSystem.readInode_eq_ok.mpr ⟨hlt, rfl⟩

/-- A directory is listed. -/
theorem listing_eq (h : seekDirectory fs path = .ok (d : Int)) :
    listing fs path = (dirListed fs d).map (separated path) := by
  rw [listing, h, ok_bind, if_neg (by omega), readInode_of_seek h, ok_bind]
  exact listEntries_zero _ _ _

/-- `str_list_dir` writes the listing of the directory `d`, with its zero byte, inside the block
at `base` that it allocated for it. -/
def ListingFits (k : Kernel δ) (path : CString) (d base : Nat) : Prop :=
  ∃ text k', strListDir k path = .ok (some base, k') ∧ listing k.fs path.chars = .ok text ∧
    (k'.heap.mem.drop base).IsString text ∧ text.length + 1 ≤ k.fs.files d * 32 + 1

/-- The path once for each of the directory's `n` entries, their names, and a newline between
two of them are at most `32 * n` bytes. -/
def LinesShort (fs : FileSystem) (path : CString) (d : Nat) : Prop :=
  ∃ names, dirListed fs d = .ok names ∧
    names.length * path.chars.length + (names.map List.length).sum + (names.length - 1) ≤
      names.length * 32

end

/-- **When a listing fits.** -/
theorem listingFits_iff {k : Kernel δ} {path : CString} {d base : Nat} {a : AllocArray}
    (hseek : seekDirectory k.fs path.chars = .ok (d : Int))
    (hmalloc : kmalloc k.heap.allocator (k.fs.files d * 32 + 1) = .ok (base, a)) :
    ListingFits k path d base ↔ LinesShort k.fs path d := by
  have hlisting := listing_eq hseek
  have hlist : strListDir k path = (do
      let text ← (dirListed k.fs d).map (separated path.chars)
      if text.length < k.fs.files d * 32 + 1 then
        .ok (some base, { k with heap := ⟨a, strcpy k.heap.mem base text⟩ })
      else .error .fault) := by
    rw [strListDir, hseek, ok_bind, if_neg (by omega), readInode_of_seek hseek, ok_bind]
    change (kmalloc k.heap.allocator (k.fs.files d * 32 + 1) >>= _) = _
    rw [hmalloc, ok_bind, dirListed, ← listEntries_zero]
    rfl
  constructor
  · rintro ⟨text, k', -, hlisted, -, hlen⟩
    rw [hlisting] at hlisted
    cases hnames : dirListed k.fs d with
    | error e =>
        rw [hnames] at hlisted
        cases hlisted
    | ok names =>
        rw [hnames] at hlisted
        cases hlisted
        refine ⟨names, hnames, ?_⟩
        rw [length_separated, ← length_listedNames hnames] at hlen
        exact Nat.le_of_succ_le_succ hlen
  · rintro ⟨names, hnames, hlen⟩
    have hfits : (separated path.chars names).length ≤ k.fs.files d * 32 := by
      rwa [length_separated, ← length_listedNames hnames]
    rw [hnames] at hlist hlisting
    simp only [Except.map, ok_bind, if_pos (Nat.lt_succ_of_le hfits)] at hlist
    exact ⟨_, _, hlist, hlisting, isString_strcpy _ _ _, Nat.succ_le_succ hfits⟩

/-- The two special files are listed. -/
theorem listingFits_dev : ∃ base, ListingFits terminalKernel devPrefix 1 base := by
  obtain ⟨⟨base, a⟩, hmalloc⟩ := Option.isSome_iff_exists.mp
    (show (kmalloc terminalKernel.heap.allocator
      (terminalKernel.fs.files 1 * 32 + 1)).toOption.isSome = true by decide +kernel)
  have hseek : seekDirectory terminalKernel.fs devPrefix.chars = .ok ((1 : Nat) : Int) := by
    decide +kernel
  exact ⟨base, (listingFits_iff hseek (toOption_eq_some.mp hmalloc)).mpr
    ⟨[ofText "tty", ofText "ttyS"], by decide +kernel, by decide⟩⟩

/-- The path of a directory with a name of 31 bytes. -/
def longPath : CString := ⟨slash :: List.replicate 31 97 ++ [slash], by decide⟩

/-- Making the directory, and a file `x` in it. -/
def longCalls : List FsCall :=
  [.mkdir ⟨slash :: List.replicate 31 97, by decide⟩ fun _ ↦ 0,
    .create ⟨longPath.chars ++ ofText "x", by decide⟩ fun _ ↦ 0]

/-- **One entry overruns the block**: the line has 34 bytes, and there is room for 32. -/
theorem long_listing_overruns : Formatted terminalKernel ∧
    ∃ k base a, runCalls FsCall.exec (fun _ _ ↦ True) longCalls terminalKernel = some k ∧
      seekDirectory k.fs longPath.chars = .ok ((4 : Nat) : Int) ∧ k.fs.files 4 = 1 ∧
      kmalloc k.heap.allocator (k.fs.files 4 * 32 + 1) = .ok (base, a) ∧
      listing k.fs longPath.chars = .ok (longPath.chars ++ ofText "x") ∧
      ¬ ListingFits k longPath 4 base := by
  obtain ⟨k, hk, hcheck⟩ := (Option.any_eq_true _ _).mp
    (show (runCalls FsCall.exec (fun _ _ ↦ True) longCalls terminalKernel).any (fun k ↦
      decide (seekDirectory k.fs longPath.chars = .ok ((4 : Nat) : Int) ∧ k.fs.files 4 = 1 ∧
        (kmalloc k.heap.allocator (k.fs.files 4 * 32 + 1)).toOption.isSome = true ∧
        listing k.fs longPath.chars = .ok (longPath.chars ++ ofText "x") ∧
        stop (strListDir k longPath) = some .fault)) = true by decide +kernel)
  obtain ⟨hseek, hfiles, hmalloc, hlisting, hstop⟩ := of_decide_eq_true hcheck
  obtain ⟨⟨base, a⟩, hmalloc⟩ := Option.isSome_iff_exists.mp hmalloc
  refine ⟨formatted_terminalKernel, k, base, a, hk, hseek, hfiles, toOption_eq_some.mp hmalloc,
    hlisting, ?_⟩
  rintro ⟨text, k', hlist, -⟩
  rw [hlist] at hstop
  cases hstop

/-! ## The other lister -/

section

variable {fs : FileSystem} {buf : Bytes} {path : List UInt8} {p : CString} {n file pos d e : Nat}

/-- **The loop of `list_dir`** writes the lines from `pos` on, and leaves the rest of the buffer
as it is. -/
theorem listDirLoop_eq (dirBuf : Bytes) (path : List UInt8) (n file : Nat) (buf : Bytes)
    (pos : Nat) : listDirLoop dirBuf path n file buf pos =
      (listedNames dirBuf n file).map fun names ↦ buf.splice pos (lines path names) := by
  induction n generalizing file buf pos with
  | zero =>
      have hnil : buf.splice pos [] = buf := funext fun i ↦ Bytes.splice_of_notMem (by simp)
      exact congrArg Except.ok hnil.symm
  | succ n ih =>
      rw [listDirLoop, listedNames]
      split
      · cases readString (entryName dirBuf file) (blockBytes - entryBytes * file) with
        | error e => rfl
        | ok name =>
            have hline : Function.update (strcpy (strcpy buf pos path) (pos + path.length) name)
                (pos + path.length + name.length) 10 =
                  buf.splice pos (path ++ name ++ ofText "\n") := by
              rw [strcpy_append, Nat.add_assoc, ← List.length_append, update_strcpy]
              rfl
            have hlen : pos + path.length + name.length + 1 =
                pos + (path ++ name ++ ofText "\n").length := by
              have hnewline : (ofText "\n").length = 1 := rfl
              rw [List.length_append, List.length_append, hnewline]
              omega
            simp only [ok_bind]
            rw [hline, ih, hlen]
            cases listedNames dirBuf n (file + 1) with
            | error e => rfl
            | ok names =>
                exact congrArg Except.ok (Bytes.splice_append _ _ _ _)
      · rfl

/-- A path that ends with a slash is its own directory part. -/
theorem parsePath_of_getLast? (h : p.chars.getLast? = some slash) :
    (parsePath p).1.chars = p.chars ∧ fileName p = [] := by
  obtain ⟨path, hpath⟩ : ∃ path, p.chars = path ++ slash :: [] :=
    ⟨_, (List.dropLast_append_getLast? _ h).symm⟩
  have hlast : lastSlash p.chars 0 0 + 1 = p.chars.length := by
    rw [hpath, lastSlash_append List.not_mem_nil, List.length_append, Nat.zero_add]
    rfl
  constructor
  · change p.chars.take (lastSlash p.chars 0 0 + 1) = _
    rw [hlast, List.take_length]
  · change p.chars.drop (lastSlash p.chars 0 0 + 1) = _
    rw [hlast, List.drop_length]

/-- `list_dir` lists the directory that the path up to its last slash leads to. -/
theorem listDir_eq (hne : p.chars ≠ []) (hshort : (fileName p).length < nameBytes)
    (hseek : seekDirectory fs (parsePath p).1.chars = .ok (e : Int)) :
    listDir fs p buf = (dirListed fs e).map fun names ↦ buf.splice 0 (lines p.chars names) := by
  have hparse : p.chars ≠ [] ∧ (parsePath p).2.chars.length < nameBytes := ⟨hne, hshort⟩
  rw [listDir]
  simp only []
  rw [if_pos hparse, hseek, ok_bind, readInode_of_seek hseek, ok_bind]
  exact listDirLoop_eq _ _ _ _ _ _

/-- What `list_dir` can return. -/
theorem listDir_ok {buf' : Bytes} (h : listDir fs p buf = .ok buf') :
    (fileName p).length < nameBytes ∧ ∃ e : Nat,
      seekDirectory fs (parsePath p).1.chars = .ok (e : Int) := by
  simp only [listDir] at h
  split at h
  · rename_i hparse
    simp only [bind_eq_ok] at h
    obtain ⟨r, hseek, inode, hinode, -⟩ := h
    refine ⟨hparse.2, ?_⟩
    rcases seekDirectory_ok_range hseek with rfl | ⟨e, rfl, -, -⟩
    · rw [readInode_minusOne] at hinode
      cases hinode
    · exact ⟨e, hseek⟩
  · cases h

end

/-- `list_dir` leaves in the buffer the names of the directory `d`, each behind the path and with
a newline behind it, and a zero byte. -/
def ListersAgree (fs : FileSystem) (path : CString) (d : Nat) (buf : Bytes) : Prop :=
  ∃ names buf', dirListed fs d = .ok names ∧ listDir fs path buf = .ok buf' ∧
    buf'.IsString (lines path.chars names)

/-- What `list_dir` writes, and what the buffer holds behind it up to a zero byte, are the lines.
A path that ends with a slash is its own directory part.  Of another, the part behind the last
slash has at most 31 bytes, and what is in front leads to the directory that is listed. -/
def ListsAlike (fs : FileSystem) (path : CString) (d : Nat) (buf : Bytes) : Prop :=
  ∃ names, dirListed fs d = .ok names ∧
    if path.chars.getLast? = some slash then buf (lines path.chars names).length = 0
    else (fileName path).length < nameBytes ∧ ∃ (e : Nat) (listed : List Name) (rest : List UInt8),
      seekDirectory fs (parsePath path).1.chars = .ok (e : Int) ∧ dirListed fs e = .ok listed ∧
      lines path.chars names = lines path.chars listed ++ rest ∧
      (buf.drop (lines path.chars listed).length).IsString rest

/-- What `list_dir` leaves is a text that begins with the lines of the directory it reads, and
goes on with what was behind them before. -/
theorem listDir_isString_iff {fs : FileSystem} {path : CString} {buf : Bytes} {e : Nat}
    {listed names : List Name} (hne : path.chars ≠ []) (hshort : (fileName path).length < nameBytes)
    (hparent : seekDirectory fs (parsePath path).1.chars = .ok (e : Int))
    (hlisted : dirListed fs e = .ok listed) :
    (∃ buf', listDir fs path buf = .ok buf' ∧ buf'.IsString (lines path.chars names)) ↔
      ∃ rest, lines path.chars names = lines path.chars listed ++ rest ∧
        (buf.drop (lines path.chars listed).length).IsString rest := by
  have hlist : listDir fs path buf = .ok (buf.splice 0 (lines path.chars listed)) := by
    rw [listDir_eq hne hshort hparent, hlisted]
    rfl
  rw [← Bytes.isString_splice_zero
    (zero_notMem_lines path.nonzero (zero_notMem_listedNames hlisted))]
  constructor
  · rintro ⟨buf', hbuf, hstr⟩
    obtain rfl := Except.ok.inj (hlist.symm.trans hbuf)
    exact hstr
  · exact fun hstr ↦ ⟨_, hlist, hstr⟩

/-- **When the listers agree.** -/
theorem listersAgree_iff {fs : FileSystem} {path : CString} {d : Nat} (buf : Bytes)
    (hseek : seekDirectory fs path.chars = .ok (d : Int)) :
    ListersAgree fs path d buf ↔ ListsAlike fs path d buf := by
  have hne : path.chars ≠ [] := by
    intro hnil
    rw [hnil] at hseek
    cases hseek
  refine exists_congr fun names ↦ ?_
  rw [exists_and_left]
  refine and_congr_right fun hnames ↦ ?_
  split
  · rename_i hslash
    obtain ⟨hdir, hname⟩ := parsePath_of_getLast? hslash
    rw [listDir_isString_iff hne (by rw [hname]; decide) (hdir ▸ hseek) hnames]
    constructor
    · rintro ⟨rest, hrest, hstr⟩
      rw [List.self_eq_append_right.mp hrest] at hstr
      exact Bytes.isString_nil.mp hstr
    · exact fun hzero ↦ ⟨[], (List.append_nil _).symm, Bytes.isString_nil.mpr hzero⟩
  · constructor
    · rintro ⟨buf', hlist, hstr⟩
      obtain ⟨hshort, e, hparent⟩ := listDir_ok hlist
      refine ⟨hshort, e, ?_⟩
      have hlist' := hlist
      rw [listDir_eq hne hshort hparent] at hlist'
      cases hlisted : dirListed fs e with
      | error stop =>
          rw [hlisted] at hlist'
          cases hlist'
      | ok listed =>
          obtain ⟨rest, hrest⟩ :=
            (listDir_isString_iff hne hshort hparent hlisted).mp ⟨buf', hlist, hstr⟩
          exact ⟨listed, rest, hparent, rfl, hrest⟩
    · rintro ⟨hshort, e, listed, rest, hparent, hlisted, hrest⟩
      exact (listDir_isString_iff hne hshort hparent hlisted).mpr ⟨rest, hrest⟩

/-- The special files, listed to a buffer of zeros. -/
theorem listersAgree_dev : ListersAgree terminalKernel.fs devPrefix 1 fun _ ↦ 0 := by
  have hseek : seekDirectory terminalKernel.fs devPrefix.chars = .ok ((1 : Nat) : Int) := by
    decide +kernel
  exact (listersAgree_iff _ hseek).mpr ⟨[ofText "tty", ofText "ttyS"], by decide +kernel, rfl⟩

/-- **`list_dir` ends no string, and lists the directory above** if there is no slash at the end
of the path: with `/dev/` and a buffer of `A`s, an `A` is behind the last newline, and with
`/dev`, the root is listed. -/
theorem listers_disagree : Formatted terminalKernel ∧
    seekDirectory terminalKernel.fs devPrefix.chars = .ok ((1 : Nat) : Int) ∧
    seekDirectory terminalKernel.fs devPath.chars = .ok ((1 : Nat) : Int) ∧
    ¬ ListersAgree terminalKernel.fs devPrefix 1 (fun _ ↦ 65) ∧
    ¬ ListersAgree terminalKernel.fs devPath 1 fun _ ↦ 0 := by
  have hnames : dirListed terminalKernel.fs 1 = .ok [ofText "tty", ofText "ttyS"] := by
    decide +kernel
  refine ⟨formatted_terminalKernel, by decide +kernel, by decide +kernel, ?_, ?_⟩
  · rintro ⟨names, buf, hlisted, hlist, hstr⟩
    rw [hnames] at hlisted
    cases hlisted
    have hbyte :
        (listDir terminalKernel.fs devPrefix fun _ ↦ 65).toOption.map (· 19) = some 65 := by
      decide +kernel
    rw [hlist] at hbyte
    have hbyte : buf 19 = 65 := Option.some.inj hbyte
    have hzero : buf 19 = 0 := hstr.2
    rw [hbyte] at hzero
    exact absurd hzero (by decide)
  · rintro ⟨names, buf, hlisted, hlist, hstr⟩
    rw [hnames] at hlisted
    cases hlisted
    -- the root's entry is `dev`, and the directory's first is `tty`
    have hbyte : (listDir terminalKernel.fs devPath fun _ ↦ 0).toOption.map (· 4) = some 100 := by
      decide +kernel
    rw [hlist] at hbyte
    have hbyte : buf 4 = 100 := Option.some.inj hbyte
    have htty : buf 4 = 116 := hstr.1 4 (by decide)
    rw [hbyte] at htty
    exact absurd htty (by decide)

end Yorha.Shell
