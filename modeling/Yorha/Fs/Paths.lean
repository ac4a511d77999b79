import Yorha.Fs.Names

/-!
# Cutting a path in memory

`parse_path` and `Path` have the same text: the path is copied to `dir_path`, what is behind its
last slash is copied from there to `filename`, and a terminator is stored over its first character
in `dir_path`.  Here both are translated with their pointers, and remember each address that they
store to.

Of a path that begins with a slash both make the two parts that `parsePath` says, which are the
only ones that a path can be cut into behind a slash such that none is in the second
(`path_splits`).
-/

namespace Yorha.Fs

open Yorha.Lib Yorha.Str Yorha.Heap

/-! ## The code -/

/-- Memory, and the addresses that were stored to. -/
structure Traced where
  mem : Bytes
  written : List Nat

namespace Traced

/-- `*addr = c`. -/
def store (s : Traced) (addr : Nat) (c : UInt8) : Traced :=
  ⟨Function.update s.mem addr c, s.written ++ [addr]⟩

/-- `strcpy`, from a string of which `limit` bytes may be read. -/
def strcpy : Nat → Traced → Nat → Nat → Except Stop Traced
  | 0, _, _, _ => .error .fault
  | limit + 1, s, ptr, source =>
      if s.mem source ≠ 0 then
        strcpy limit (s.store ptr (s.mem source)) (ptr + 1) (source + 1)
      else .ok (s.store ptr 0)

end Traced

/-- `strlen`, of a string of which `limit` bytes may be read. -/
def strlenAt (mem : Bytes) (str : Nat) : Nat → Nat → Except Stop Nat
  | 0, _ => .error .fault
  | limit + 1, len => if mem (str + len) ≠ 0 then strlenAt mem str limit (len + 1) else .ok len

/-- The loop that looks for the last slash. -/
def lastSlashAt (mem : Bytes) (path : Nat) : Nat → Nat → Nat → Except Stop Nat
  | 0, _, _ => .error .fault
  | limit + 1, i, lastSlash =>
      if mem (path + i) ≠ 0 then
        lastSlashAt mem path limit (i + 1) (if mem (path + i) = slash then i else lastSlash)
      else .ok lastSlash

/-- `parse_path`. -/
def parsePathAt (limit : Nat) (s : Traced) (path dirPath filename : Nat) :
    Except Stop Traced := do
  let s ← s.strcpy limit dirPath path
  let lastSlash ← lastSlashAt s.mem path limit 0 0
  let s ← s.strcpy limit filename (dirPath + lastSlash + 1)
  .ok (s.store (dirPath + lastSlash + 1) 0)

/-- `Path`, with the pointers to the two parts. -/
def PathAt (limit : Nat) (a : AllocArray) (s : Traced) (path : Nat) :
    Except Stop ((Nat × Nat) × AllocArray × Traced) := do
  let len ← strlenAt s.mem path limit 0
  let pathLength := len + 1
  let (dirPath, a) ← kmalloc a pathLength
  let (filename, a) ← kmalloc a pathLength
  let s ← s.strcpy limit dirPath path
  let lastSlash ← lastSlashAt s.mem path limit 0 0
  let s ← s.strcpy limit filename (dirPath + lastSlash + 1)
  .ok ((dirPath, filename), a, s.store (dirPath + lastSlash + 1) 0)

/-! ## Loops over a string -/

section

variable {mem : Bytes} {str limit i last : Nat} {chars : List UInt8}

theorem strlenAt_eq (h : (mem.drop (str + i)).IsString chars) (hzero : 0 ∉ chars)
    (hlimit : chars.length < limit) : strlenAt mem str limit i = .ok (i + chars.length) := by
  induction chars generalizing limit i with
  | nil =>
      obtain ⟨limit, rfl⟩ : ∃ n, limit = n + 1 := ⟨limit - 1, by omega⟩
      have hend : mem (str + i) = 0 := Bytes.isString_nil.mp h
      rw [strlenAt, if_neg (not_not.mpr hend)]
      rfl
  | cons c chars ih =>
      rw [List.length_cons] at hlimit
      rw [List.mem_cons, not_or] at hzero
      obtain ⟨limit, rfl⟩ : ∃ n, limit = n + 1 := ⟨limit - 1, by omega⟩
      obtain ⟨hhead, htail⟩ := Bytes.isString_cons.mp h
      have hc : mem (str + i) = c := hhead
      rw [Bytes.drop_drop, Nat.add_assoc] at htail
      rw [strlenAt, hc, if_pos (Ne.symm hzero.1), ih htail hzero.2 (by omega), List.length_cons,
        Nat.add_right_comm, Nat.add_assoc]

theorem lastSlashAt_eq (h : (mem.drop (str + i)).IsString chars) (hzero : 0 ∉ chars)
    (hlimit : chars.length < limit) :
    lastSlashAt mem str limit i last = .ok (lastSlash chars i last) := by
  induction chars generalizing limit i last with
  | nil =>
      obtain ⟨limit, rfl⟩ : ∃ n, limit = n + 1 := ⟨limit - 1, by omega⟩
      have hend : mem (str + i) = 0 := Bytes.isString_nil.mp h
      rw [lastSlashAt, if_neg (not_not.mpr hend)]
      rfl
  | cons c chars ih =>
      rw [List.length_cons] at hlimit
      rw [List.mem_cons, not_or] at hzero
      obtain ⟨limit, rfl⟩ : ∃ n, limit = n + 1 := ⟨limit - 1, by omega⟩
      obtain ⟨hhead, htail⟩ := Bytes.isString_cons.mp h
      have hc : mem (str + i) = c := hhead
      rw [Bytes.drop_drop, Nat.add_assoc] at htail
      rw [lastSlashAt, hc, if_pos (Ne.symm hzero.1), ih htail hzero.2 (by omega), lastSlash]

/-- Two ranges have no address in common. -/
def Apart (p m q n : Nat) : Prop := ∀ addr, p ≤ addr → addr < p + m → ¬ (q ≤ addr ∧ addr < q + n)

/-- **`strcpy` copies a string that it does not write over.** -/
theorem Traced.strcpy_eq {s : Traced} {dst src : Nat} (h : (s.mem.drop src).IsString chars)
    (hzero : 0 ∉ chars) (hlimit : chars.length < limit)
    (hapart : Apart src (chars.length + 1) dst (chars.length + 1)) :
    s.strcpy limit dst src = .ok ⟨Str.strcpy s.mem dst chars,
      s.written ++ List.range' dst (chars.length + 1)⟩ := by
  induction chars generalizing limit s dst src with
  | nil =>
      obtain ⟨limit, rfl⟩ : ∃ n, limit = n + 1 := ⟨limit - 1, by omega⟩
      have hend : s.mem src = 0 := Bytes.isString_nil.mp h
      rw [Traced.strcpy, if_neg (not_not.mpr hend), Traced.store, Bytes.update_eq_splice]
      rfl
  | cons c chars ih =>
      rw [List.length_cons] at hlimit hapart ⊢
      rw [List.mem_cons, not_or] at hzero
      obtain ⟨limit, rfl⟩ : ∃ n, limit = n + 1 := ⟨limit - 1, by omega⟩
      obtain ⟨hhead, htail⟩ := Bytes.isString_cons.mp h
      have hc : s.mem src = c := hhead
      rw [Bytes.drop_drop] at htail
      -- the byte that is stored lies in front of the rest of the copy, and not in the source
      have hrest : ((s.store dst c).mem.drop (src + 1)).IsString chars := by
        refine htail.congr fun i hi ↦ Function.update_of_ne (fun heq ↦ ?_) _ _
        exact hapart (src + 1 + i) (by omega) (by omega) (by omega)
      have hapart' : Apart (src + 1) (chars.length + 1) (dst + 1) (chars.length + 1) :=
        fun addr h₁ h₂ h₃ ↦ hapart addr (by omega) (by omega) (by omega)
      rw [Traced.strcpy, hc, if_pos (Ne.symm hzero.1), ih hrest hzero.2 (by omega) hapart']
      have hmem : Str.strcpy (s.store dst c).mem (dst + 1) chars =
          Str.strcpy s.mem dst (c :: chars) := by
        rw [Str.strcpy, Str.strcpy, Traced.store, Bytes.update_eq_splice]
        exact Bytes.splice_append s.mem dst [c] (chars ++ [0])
      have hwritten : (s.store dst c).written ++ List.range' (dst + 1) (chars.length + 1) =
          s.written ++ List.range' dst (chars.length + 1 + 1) := by
        rw [Traced.store, List.append_assoc]
        rfl
      rw [hmem, hwritten]

end

/-! ## The two parts -/

/-- The path in two parts, the first of which ends with the last slash. -/
structure PathSplit (path : CString) (dirPath filename : List UInt8) : Prop where
  append : dirPath ++ filename = path.chars
  dir_slash : dirPath.getLast? = some slash
  file_slash : slash ∉ filename

section

variable {path : CString} {dirPath filename : List UInt8}

/-- What is cut off behind the last slash. -/
theorem parsePath_of_append {dir file : List UInt8} (h : path.chars = dir ++ slash :: file)
    (hfile : slash ∉ file) :
    (parsePath path).1.chars = dir ++ [slash] ∧ (parsePath path).2.chars = file := by
  have hlast : lastSlash path.chars 0 0 + 1 = (dir ++ [slash]).length := by
    rw [h, lastSlash_append hfile, Nat.zero_add, List.length_append]
    rfl
  have hchars : path.chars = (dir ++ [slash]) ++ file := by
    rw [h, List.append_assoc]
    rfl
  constructor
  · change path.chars.take (lastSlash path.chars 0 0 + 1) = _
    rw [hlast, hchars, List.take_left]
  · change path.chars.drop (lastSlash path.chars 0 0 + 1) = _
    rw [hlast, hchars, List.drop_left]

/-- There is one way to cut a path behind its last slash. -/
theorem PathSplit.unique (h : PathSplit path dirPath filename) :
    dirPath = (parsePath path).1.chars ∧ filename = (parsePath path).2.chars := by
  obtain ⟨dir, hdir⟩ : ∃ dir, dirPath = dir ++ [slash] :=
    ⟨_, (List.dropLast_append_getLast? _ h.dir_slash).symm⟩
  have hchars : path.chars = dir ++ slash :: filename := by
    rw [← h.append, hdir, List.append_assoc]
    rfl
  obtain ⟨h₁, h₂⟩ := parsePath_of_append hchars h.file_slash
  exact ⟨hdir.trans h₁.symm, h₂.symm⟩

/-- The last slash of a path. -/
theorem exists_lastSlash (h : slash ∈ path.chars) :
    ∃ dir file, path.chars = dir ++ slash :: file ∧ slash ∉ file := by
  obtain ⟨file, dir, hreverse, hfile⟩ :=
    List.eq_append_cons_of_mem (List.mem_reverse.mpr h)
  refine ⟨dir.reverse, file.reverse, ?_, mt List.mem_reverse.mp hfile⟩
  rw [← List.reverse_reverse path.chars, hreverse, List.reverse_append, List.reverse_cons,
    List.append_assoc]
  rfl

/-- The two parts, where there is a slash. -/
theorem pathSplit_parsePath (h : slash ∈ path.chars) :
    PathSplit path (parsePath path).1.chars (parsePath path).2.chars := by
  obtain ⟨dir, file, hchars, hfile⟩ := exists_lastSlash h
  obtain ⟨h₁, h₂⟩ := parsePath_of_append hchars hfile
  rw [h₁, h₂]
  exact ⟨by rw [hchars, List.append_assoc]; rfl, List.getLast?_concat, hfile⟩

/-- The path up to its last slash. -/
theorem length_dirPath (h : slash ∈ path.chars) :
    (parsePath path).1.chars.length = lastSlash path.chars 0 0 + 1 := by
  obtain ⟨dir, file, hchars, hfile⟩ := exists_lastSlash h
  rw [(parsePath_of_append hchars hfile).1, hchars, lastSlash_append hfile, Nat.zero_add,
    List.length_append]
  rfl

/-- Memory and the addresses stored to, when the path was cut. -/
def cut (s : Traced) (path : CString) (dirPath filename : Nat) : Traced where
  mem := Function.update (strcpy (strcpy s.mem dirPath path.chars) filename
    (parsePath path).2.chars) (dirPath + (parsePath path).1.chars.length) 0
  written := s.written ++ List.range' dirPath (path.chars.length + 1) ++
    List.range' filename ((parsePath path).2.chars.length + 1) ++
    [dirPath + (parsePath path).1.chars.length]

/-- **The text of both functions** cuts a path that has a slash. -/
theorem cut_eq {limit p dirPath filename : Nat} {s : Traced} (hslash : slash ∈ path.chars)
    (hlimit : path.chars.length < limit) (hpath : (s.mem.drop p).IsString path.chars)
    (hsource : Apart p (path.chars.length + 1) dirPath (path.chars.length + 1))
    (hparts : Apart dirPath (path.chars.length + 1) filename
      ((parsePath path).2.chars.length + 1)) :
    parsePathAt limit s p dirPath filename = .ok (cut s path dirPath filename) := by
  have hlen := length_dirPath hslash
  have happend := (pathSplit_parsePath hslash).append
  have htotal : (parsePath path).1.chars.length + (parsePath path).2.chars.length =
      path.chars.length := by
    rw [← List.length_append, happend]
  -- the source is as it was when the path is scanned
  have hkept : ((strcpy s.mem dirPath path.chars).drop p).IsString path.chars := by
    refine hpath.congr fun i hi ↦ Bytes.splice_of_notMem ?_
    rw [List.length_append, List.length_singleton]
    exact hsource (p + i) (by omega) (by omega)
  -- what is behind the slash is the name, in the copy too
  have htail : ((strcpy s.mem dirPath path.chars).drop
      (dirPath + lastSlash path.chars 0 0 + 1)).IsString (parsePath path).2.chars := by
    have hcopy := isString_strcpy s.mem dirPath path.chars
    rw [← happend, Bytes.isString_append, Bytes.drop_drop, happend, hlen] at hcopy
    exact hcopy.2
  have hapart : Apart (dirPath + lastSlash path.chars 0 0 + 1)
      ((parsePath path).2.chars.length + 1) filename ((parsePath path).2.chars.length + 1) :=
    fun addr h₁ h₂ ↦ hparts addr (by omega) (by omega)
  rw [parsePathAt, Traced.strcpy_eq hpath path.nonzero hlimit hsource]
  simp only [ok_bind]
  rw [lastSlashAt_eq (i := 0) hkept path.nonzero hlimit]
  simp only [ok_bind]
  rw [Traced.strcpy_eq htail (parsePath path).2.nonzero (by omega) hapart]
  rw [ok_bind, Traced.store, cut, hlen, Nat.add_assoc]

/-- What is left in memory when the path was cut: the two parts. -/
theorem isString_cut {dirPath filename : Nat} {s : Traced} (hslash : slash ∈ path.chars)
    (hparts : Apart dirPath (path.chars.length + 1) filename
      ((parsePath path).2.chars.length + 1)) :
    ((cut s path dirPath filename).mem.drop dirPath).IsString (parsePath path).1.chars ∧
      ((cut s path dirPath filename).mem.drop filename).IsString (parsePath path).2.chars := by
  have happend := (pathSplit_parsePath hslash).append
  have htotal : (parsePath path).1.chars.length + (parsePath path).2.chars.length =
      path.chars.length := by
    rw [← List.length_append, happend]
  constructor
  · have hcopy := isString_strcpy s.mem dirPath path.chars
    refine ⟨fun i hi ↦ ?_, ?_⟩
    · have hne : dirPath + i ≠ dirPath + (parsePath path).1.chars.length := by omega
      have hout : ¬ (filename ≤ dirPath + i ∧
          dirPath + i < filename + ((parsePath path).2.chars ++ [0]).length) := by
        rw [List.length_append, List.length_singleton]
        exact hparts (dirPath + i) (by omega) (by omega)
      refine (Function.update_of_ne hne _ _).trans ((Bytes.splice_of_notMem hout).trans
        ((hcopy.1 i (by omega)).trans ?_))
      rw [List.getElem_of_eq happend.symm, List.getElem_append_left hi]
    · exact Function.update_self ..
  · have hname := isString_strcpy (strcpy s.mem dirPath path.chars) filename
      (parsePath path).2.chars
    refine hname.congr fun i hi ↦ Function.update_of_ne (fun heq ↦ ?_) _ _
    exact hparts (filename + i) (by omega) (by omega) (by omega)

/-! ## Both functions -/

/-- The heap does not hand out this byte: it is outside, or in a live block. -/
def Taken (a : AllocArray) (live : LiveBlocks) (addr : Nat) : Prop :=
  addr < a.bottom ∨ a.bottom + scannedBits ≤ addr ∨
    ∃ q n, live q = some n ∧ q ≤ addr ∧ addr < q + n

/-- `parse_path` leaves the two parts, in arrays that do not overlap. -/
def ParsePathGives (path : CString) (dir file : List UInt8) : Prop :=
  ∀ (limit p dirPath filename : Nat) (s : Traced), path.chars.length < limit →
    (s.mem.drop p).IsString path.chars →
    Apart p (path.chars.length + 1) dirPath (path.chars.length + 1) →
    Apart dirPath (path.chars.length + 1) filename (file.length + 1) →
    ∃ s', parsePathAt limit s p dirPath filename = .ok s' ∧
      (s'.mem.drop dirPath).IsString dir ∧ (s'.mem.drop filename).IsString file

/-- Where the heap has two blocks for it, `Path` leaves the two parts there, and stores to these
blocks only. -/
def PathGives (path : CString) (dir file : List UInt8) : Prop :=
  ∀ (limit p dirPath filename : Nat) (a a₁ a₂ : AllocArray) (live : LiveBlocks) (s : Traced),
    path.chars.length < limit → HeapInv a live → (s.mem.drop p).IsString path.chars →
    (∀ i ≤ path.chars.length, Taken a live (p + i)) →
    kmalloc a (path.chars.length + 1) = .ok (dirPath, a₁) →
    kmalloc a₁ (path.chars.length + 1) = .ok (filename, a₂) →
    ∃ s' stored, PathAt limit a s p = .ok ((dirPath, filename), a₂, s') ∧
      (s'.mem.drop dirPath).IsString dir ∧ (s'.mem.drop filename).IsString file ∧
      s'.written = s.written ++ stored ∧
      ∀ addr ∈ stored, (dirPath ≤ addr ∧ addr < dirPath + (path.chars.length + 1)) ∨
        (filename ≤ addr ∧ addr < filename + (path.chars.length + 1))

theorem parsePathGives (hslash : slash ∈ path.chars) :
    ParsePathGives path (parsePath path).1.chars (parsePath path).2.chars := by
  intro limit p dirPath filename s hlimit hpath hsource hparts
  obtain ⟨hdir, hfile⟩ := isString_cut (s := s) hslash hparts
  exact ⟨_, cut_eq hslash hlimit hpath hsource hparts, hdir, hfile⟩

/-- **`Path` does what `parse_path` does**, in two new blocks. -/
theorem PathAt_of_parsePathAt {limit p len dirPath filename : Nat} {a a₁ a₂ : AllocArray}
    {s s' : Traced} (hlen : strlenAt s.mem p limit 0 = .ok len)
    (hm₁ : kmalloc a (len + 1) = .ok (dirPath, a₁))
    (hm₂ : kmalloc a₁ (len + 1) = .ok (filename, a₂))
    (h : parsePathAt limit s p dirPath filename = .ok s') :
    PathAt limit a s p = .ok ((dirPath, filename), a₂, s') := by
  obtain ⟨s₁, hcopy, h⟩ := bind_eq_ok.mp h
  obtain ⟨last, hlast, h⟩ := bind_eq_ok.mp h
  obtain ⟨s₂, hname, h⟩ := bind_eq_ok.mp h
  cases h
  rw [PathAt, hlen]
  simp only [ok_bind, hm₁, hm₂, hcopy, hlast, hname]

/-- The function of the file system leaves this memory. -/
theorem Path_eq_cut {dirPath filename : Nat} {a a₁ a₂ : AllocArray} {s : Traced}
    (hslash : slash ∈ path.chars)
    (hm₁ : kmalloc a (path.chars.length + 1) = .ok (dirPath, a₁))
    (hm₂ : kmalloc a₁ (path.chars.length + 1) = .ok (filename, a₂)) :
    Path ⟨a, s.mem⟩ path =
      .ok (⟨dirPath, filename, (parsePath path).1, (parsePath path).2⟩,
        ⟨a₂, (cut s path dirPath filename).mem⟩) := by
  rw [Path]
  simp only [hm₁, hm₂, ok_bind, if_neg (List.ne_nil_of_mem hslash), cut]

/-- A new block has no byte that is taken. -/
theorem Taken.notMem {a a' : AllocArray} {live : LiveBlocks} {size p addr : Nat}
    (h : Taken a live addr) (hinv : HeapInv a live) (hsize : 0 < size)
    (hm : kmalloc a size = .ok (p, a')) : ¬ (p ≤ addr ∧ addr < p + size) := by
  rintro ⟨hle, hlt⟩
  obtain ⟨slot, start, ha, rfl⟩ := kmalloc_ok hsize hm
  have hin := ha.fit.inside
  rcases h with hbelow | habove | ⟨q, n, hq, hqle, hqlt⟩
  · omega
  · omega
  · obtain ⟨i, hi, hbase, hlen⟩ := (hinv.live q n).mp hq
    have hb := hinv.base hi
    exact ha.separate hinv hi (k := addr - a.bottom) (by omega) (by omega)
      ⟨by omega, by omega⟩

/-- The two blocks of `Path`. -/
theorem apart_kmalloc {a a₁ a₂ : AllocArray} {live : LiveBlocks} {size p q : Nat}
    (hinv : HeapInv a live) (hsize : 0 < size) (hp : kmalloc a size = .ok (p, a₁))
    (hq : kmalloc a₁ size = .ok (q, a₂)) : Apart p size q size := by
  intro addr h₁ h₂
  have htaken : Taken a₁ (Function.update live p (some size)) addr :=
    .inr (.inr ⟨p, size, Function.update_self .., h₁, h₂⟩)
  exact htaken.notMem (hinv.kmalloc hsize hp) hsize hq

theorem pathGives (hslash : slash ∈ path.chars) :
    PathGives path (parsePath path).1.chars (parsePath path).2.chars := by
  intro limit p dirPath filename a a₁ a₂ live s hlimit hinv hpath htaken hm₁ hm₂
  have hpos : 0 < path.chars.length + 1 := Nat.succ_pos _
  have htotal : (parsePath path).1.chars.length + (parsePath path).2.chars.length =
      path.chars.length := by
    rw [← List.length_append, (pathSplit_parsePath hslash).append]
  have hdirlen := length_dirPath hslash
  have hsource : Apart p (path.chars.length + 1) dirPath (path.chars.length + 1) := by
    intro addr h₁ h₂
    have hbyte := htaken (addr - p) (by omega)
    rw [Nat.add_sub_cancel' h₁] at hbyte
    exact hbyte.notMem hinv hpos hm₁
  have hblocks := apart_kmalloc hinv hpos hm₁ hm₂
  have hparts : Apart dirPath (path.chars.length + 1) filename
      ((parsePath path).2.chars.length + 1) := fun addr h₁ h₂ h₃ ↦
    hblocks addr h₁ h₂ ⟨h₃.1, by omega⟩
  have hcut := cut_eq hslash hlimit hpath hsource hparts
  obtain ⟨hdir, hfile⟩ := isString_cut (s := s) hslash hparts
  refine ⟨cut s path dirPath filename, List.range' dirPath (path.chars.length + 1) ++
    List.range' filename ((parsePath path).2.chars.length + 1) ++
    [dirPath + (parsePath path).1.chars.length], ?_, hdir, hfile, ?_, ?_⟩
  · have hlen := strlenAt_eq (i := 0) hpath path.nonzero hlimit
    rw [Nat.zero_add] at hlen
    exact PathAt_of_parsePathAt hlen hm₁ hm₂ hcut
  · rw [cut, List.append_assoc, List.append_assoc, List.append_assoc]
  · intro addr haddr
    rw [List.mem_append, List.mem_append, List.mem_range'_1, List.mem_range'_1,
      List.mem_singleton] at haddr
    rcases haddr with (h | h) | rfl
    · exact .inl h
    · exact .inr ⟨h.1, by omega⟩
    · exact .inl ⟨by omega, by omega⟩

/-- **A path that begins with a slash is cut behind its last one** by both functions, and in no
other way; `Path` stores to its two blocks only. -/
theorem path_splits (path : CString) (h : path.chars.head? = some slash) :
    ∃ dir file, PathSplit path dir file ∧
      (∀ dir' file', PathSplit path dir' file' → dir' = dir ∧ file' = file) ∧
      ParsePathGives path dir file ∧ PathGives path dir file := by
  have hslash := List.mem_of_mem_head? h
  exact ⟨_, _, pathSplit_parsePath hslash, fun _ _ hsplit ↦ hsplit.unique,
    parsePathGives hslash, pathGives hslash⟩

/-- `/dev/tty` at address 4096, and a heap that is empty. -/
theorem path_splits_tty :
    PathSplit (.literal "/dev/tty") (ofText "/dev/") (ofText "tty") ∧
    ∃ a s', PathAt 100 (AllocArray.initial 0x400000)
        ⟨strcpy (fun _ ↦ 0) 0x1000 (CString.literal "/dev/tty").chars, []⟩ 0x1000 =
          .ok ((0x400000, 0x40000C), a, s') ∧
      (s'.mem.drop 0x400000).IsString (ofText "/dev/") ∧
      (s'.mem.drop 0x40000C).IsString (ofText "tty") := by
  obtain ⟨dir, file, -, hunique, -, hgives⟩ := path_splits (.literal "/dev/tty") (by decide)
  have htty : PathSplit (.literal "/dev/tty") (ofText "/dev/") (ofText "tty") :=
    ⟨by decide, by decide, by decide⟩
  obtain ⟨rfl, rfl⟩ := hunique _ _ htty
  have hlen : (CString.literal "/dev/tty").chars.length = 8 := by decide
  have hblocks : (do
      let (p, a) ← kmalloc (AllocArray.initial 0x400000) 9
      let (q, _) ← kmalloc a 9
      Except.ok (p, q) : Except Stop (Nat × Nat)) = .ok (0x400000, 0x40000C) := by
    decide +kernel
  obtain ⟨⟨p, a₁⟩, hm₁, hblocks⟩ := bind_eq_ok.mp hblocks
  obtain ⟨⟨q, a₂⟩, hm₂, hblocks⟩ := bind_eq_ok.mp hblocks
  cases hblocks
  have htaken : ∀ i ≤ (CString.literal "/dev/tty").chars.length,
      Taken (AllocArray.initial 0x400000) (fun _ ↦ none) (0x1000 + i) := by
    intro i hi
    rw [hlen] at hi
    left
    change 0x1000 + i < 0x400000
    omega
  obtain ⟨s', _, hpath, hdir, hfile, -⟩ := hgives 100 0x1000 0x400000 0x40000C
    (AllocArray.initial 0x400000) a₁ a₂ (fun _ ↦ none)
    ⟨strcpy (fun _ ↦ 0) 0x1000 (CString.literal "/dev/tty").chars, []⟩ (by rw [hlen]; decide)
    (HeapInv.initial 0x400000) (isString_strcpy _ _ _) htaken
    (by rw [hlen]; exact hm₁) (by rw [hlen]; exact hm₂)
  exact ⟨htty, a₂, s', hpath, hdir, hfile⟩

end

end Yorha.Fs
