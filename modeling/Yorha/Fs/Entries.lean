import Yorha.Fs.Dir

/-!
# The entries of a directory block

What a directory block says is a list of names and inode numbers.  On blocks whose
names are terminated, the loops of `fs.c` are list operations: the search for a name
is `List.lookup`, the search for an inode number is `List.findIdx?`, linking appends
an entry and unlinking erases one.
-/

namespace Yorha.Fs

open Yorha.Lib Yorha.Str

/-- A name: the bytes before the terminator. -/
abbrev Name := List UInt8

/-! ## Names -/

/-- The string in an array of `limit` bytes; all of them if none is the terminator. -/
def stringAt (m : Bytes) : Nat → Name
  | 0 => []
  | limit + 1 => if m 0 = 0 then [] else m 0 :: stringAt (m.drop 1) limit

/-- The array of a name holds a terminator. -/
def Terminated (m : Bytes) : Prop := ∃ i < nameBytes, m i = 0

theorem zero_notMem_stringAt (m : Bytes) (limit : Nat) : 0 ∉ stringAt m limit := by
  induction limit generalizing m with
  | zero => exact List.not_mem_nil
  | succ limit ih =>
      rw [stringAt]
      split
      · exact List.not_mem_nil
      · rename_i hne
        rw [List.mem_cons, not_or]
        exact ⟨Ne.symm hne, ih _⟩

/-- An array with a terminator holds the string read from it. -/
theorem isString_stringAt {m : Bytes} {limit : Nat} (h : ∃ i < limit, m i = 0) :
    m.IsString (stringAt m limit) := by
  induction limit generalizing m with
  | zero =>
      obtain ⟨i, hi, -⟩ := h
      exact absurd hi (Nat.not_lt_zero i)
  | succ limit ih =>
      obtain ⟨i, hi, hz⟩ := h
      rw [stringAt]
      split
      · rename_i h₀
        exact Bytes.isString_nil.mpr h₀
      · rename_i h₀
        cases i with
        | zero => exact absurd hz h₀
        | succ i =>
            refine Bytes.isString_cons.mpr ⟨rfl, ih ⟨i, Nat.lt_of_succ_lt_succ hi, ?_⟩⟩
            rw [Bytes.drop_apply, Nat.add_comm]
            exact hz

/-- A terminated array holds one string, the one read from it. -/
theorem isString_iff_stringAt {m : Bytes} {s : Name} (h : Terminated m) (hs : 0 ∉ s) :
    m.IsString s ↔ stringAt m nameBytes = s := by
  have hm := isString_stringAt h
  constructor
  · exact fun h' ↦ hm.unique h' (zero_notMem_stringAt _ _) hs
  · rintro rfl
    exact hm

/-- An array from which a shorter string is read is terminated. -/
theorem terminated_of_stringAt {m : Bytes} {limit : Nat} (h : (stringAt m limit).length < limit) :
    ∃ i < limit, m i = 0 := by
  induction limit generalizing m with
  | zero => exact absurd h (Nat.not_lt_zero _)
  | succ limit ih =>
      rw [stringAt] at h
      split at h
      · rename_i h₀
        exact ⟨0, Nat.succ_pos _, h₀⟩
      · rw [List.length_cons, Nat.succ_lt_succ_iff] at h
        obtain ⟨i, hi, hz⟩ := ih h
        rw [Bytes.drop_apply, Nat.add_comm] at hz
        exact ⟨i + 1, Nat.succ_lt_succ hi, hz⟩

/-- Whatever the array holds, a short string is there if it is read from it. -/
theorem isString_iff_of_length_lt {m : Bytes} {s : Name} (h : s.length < nameBytes)
    (hs : 0 ∉ s) : m.IsString s ↔ stringAt m nameBytes = s := by
  constructor
  · intro hm
    exact (isString_iff_stringAt ⟨s.length, h, hm.2⟩ hs).mp hm
  · rintro rfl
    exact isString_stringAt (terminated_of_stringAt h)

/-- The array that a short string was copied to is terminated. -/
theorem terminated_of_isString {m : Bytes} {s : Name} (h : m.IsString s)
    (hs : s.length < nameBytes) : Terminated m := ⟨s.length, hs, h.2⟩

theorem stringAt_congr {m m' : Bytes} {limit : Nat} (h : ∀ i < limit, m' i = m i) :
    stringAt m' limit = stringAt m limit := by
  induction limit generalizing m m' with
  | zero => rfl
  | succ limit ih =>
      rw [stringAt, stringAt, h 0 (Nat.succ_pos _)]
      rw [ih fun i hi ↦ ?_]
      rw [Bytes.drop_apply, Bytes.drop_apply, Nat.add_comm]
      exact h (i + 1) (Nat.succ_lt_succ hi)

/-! ## Entries -/

/-- Entry number `file` of a block. -/
def entryAt (buf : Bytes) (file : Nat) : Name × Nat :=
  (stringAt (entryName buf file) nameBytes, entryInodeNum buf file)

/-- `n` entries of a block, from number `file` on. -/
def entriesFrom (buf : Bytes) (file n : Nat) : List (Name × Nat) :=
  (List.range' file n).map (entryAt buf)

/-- The first `n` entries of a block. -/
def entriesOf (buf : Bytes) (n : Nat) : List (Name × Nat) := entriesFrom buf 0 n

/-- The first `n` names of a block are terminated. -/
def NamesTerminated (buf : Bytes) (n : Nat) : Prop :=
  ∀ file < n, Terminated (entryName buf file)

theorem entriesFrom_succ (buf : Bytes) (file n : Nat) :
    entriesFrom buf file (n + 1) = entryAt buf file :: entriesFrom buf (file + 1) n := by
  rw [entriesFrom, List.range'_succ, List.map_cons, entriesFrom]

@[simp] theorem length_entriesOf (buf : Bytes) (n : Nat) : (entriesOf buf n).length = n := by
  rw [entriesOf, entriesFrom, List.length_map, List.length_range']

theorem getElem?_entriesOf (buf : Bytes) (n file : Nat) :
    (entriesOf buf n)[file]? = if file < n then some (entryAt buf file) else none := by
  rw [entriesOf, entriesFrom, List.getElem?_map]
  split
  · rename_i h
    rw [List.getElem?_range' h]
    simp
  · rename_i h
    rw [List.getElem?_eq_none (by simpa using h)]
    rfl

/-- Entries whose 36 bytes agree are the same. -/
theorem entryAt_congr {buf buf' : Bytes} {file file' : Nat}
    (h : ∀ i < entryBytes, buf' (entryBytes * file' + i) = buf (entryBytes * file + i)) :
    entryAt buf' file' = entryAt buf file := by
  have hname : stringAt (entryName buf' file') nameBytes =
      stringAt (entryName buf file) nameBytes :=
    stringAt_congr fun i hi ↦ h i (lt_trans hi (by decide))
  have hnum : entryInodeNum buf' file' = entryInodeNum buf file := by
    refine Bytes.word_congr fun i hi ↦ ?_
    rw [Bytes.drop_apply, Bytes.drop_apply, Nat.add_assoc, Nat.add_assoc]
    exact h _ (Nat.add_lt_add_left hi nameBytes)
  rw [entryAt, entryAt, hname, hnum]

theorem terminated_congr {buf buf' : Bytes} {file file' : Nat}
    (h : ∀ i < entryBytes, buf' (entryBytes * file' + i) = buf (entryBytes * file + i))
    (ht : Terminated (entryName buf file)) : Terminated (entryName buf' file') := by
  obtain ⟨i, hi, hz⟩ := ht
  exact ⟨i, hi, (h i (lt_trans hi (by decide))).trans hz⟩

/-! ## The search for a name -/

/-- On terminated names the search looks the name up. -/
theorem scanEntries_eq_lookup {buf : Bytes} {name : Name} (hname : 0 ∉ name) (n file : Nat)
    (hmax : file + n ≤ dirFileCountMax)
    (hterm : ∀ f, file ≤ f → f < file + n → Terminated (entryName buf f)) :
    scanEntries buf name n file = .ok ((entriesFrom buf file n).lookup name) := by
  induction n generalizing file with
  | zero => rfl
  | succ n ih =>
      have hlt : file < dirFileCountMax := by omega
      have ht := hterm file le_rfl (by omega)
      have hroom : nameBytes ≤ blockBytes - entryBytes * file := by
        have hmax' : file < 113 := hlt
        change 32 ≤ 4096 - 36 * file
        omega
      have hz : ∃ i < blockBytes - entryBytes * file, entryName buf file i = 0 := by
        obtain ⟨i, hi, hz⟩ := ht
        exact ⟨i, lt_of_lt_of_le hi hroom, hz⟩
      rw [scanEntries, if_pos hlt, strcmpWithin_eq_ok hz, ok_bind, entriesFrom_succ,
        List.lookup_cons]
      have hcmp : strcmp (entryName buf file) name = 0 ↔ (entryAt buf file).1 = name :=
        (strcmp_eq_zero hname _).trans (isString_iff_stringAt ht hname)
      by_cases heq : (entryAt buf file).1 = name
      · rw [if_pos (hcmp.mpr heq)]
        have hbeq : (name == (entryAt buf file).1) = true := by simpa using heq.symm
        simp only [hbeq]
        rfl
      · rw [if_neg (fun h ↦ heq (hcmp.mp h)), ih (file + 1) (by omega)
          (fun f h₁ h₂ ↦ hterm f (by omega) (by omega))]
        have hbeq : (name == (entryAt buf file).1) = false := by
          simpa using fun h ↦ heq h.symm
        simp only [hbeq]

/-- **The search for a name in a directory block is a lookup.** -/
theorem scanEntries_eq {buf : Bytes} {name : Name} (hname : 0 ∉ name) {n : Nat}
    (hmax : n ≤ dirFileCountMax) (hterm : NamesTerminated buf n) :
    scanEntries buf name n 0 = .ok ((entriesOf buf n).lookup name) := by
  refine scanEntries_eq_lookup hname n 0 (by omega) fun f _ hf ↦ hterm f (by omega)

/-- One comparison with a short name, whatever the block holds. -/
theorem strcmpWithin_entryName (buf : Bytes) {name : Name} (hshort : name.length < nameBytes)
    (hname : 0 ∉ name) {file : Nat} (hfile : file < dirFileCountMax) :
    ∃ order, strcmpWithin (blockBytes - entryBytes * file) (entryName buf file) name = .ok order ∧
      (order = 0 ↔ (entryAt buf file).1 = name) := by
  have hroom : name.length < blockBytes - entryBytes * file := by
    have hfile' : file < 113 := hfile
    have hshort' : name.length < 32 := hshort
    change name.length < 4096 - 36 * file
    omega
  refine ⟨_, strcmpWithin_of_length_lt hroom _, ?_⟩
  exact (strcmp_eq_zero hname _).trans (isString_iff_of_length_lt hshort hname)

/-- **The search for a short name is a lookup**, whatever the block holds. -/
theorem scanEntries_short (buf : Bytes) {name : Name} (hshort : name.length < nameBytes)
    (hname : 0 ∉ name) (n file : Nat) (hmax : file + n ≤ dirFileCountMax) :
    scanEntries buf name n file = .ok ((entriesFrom buf file n).lookup name) := by
  induction n generalizing file with
  | zero => rfl
  | succ n ih =>
      have hlt : file < dirFileCountMax := by omega
      obtain ⟨order, horder, hcmp⟩ := strcmpWithin_entryName buf hshort hname hlt
      rw [scanEntries, if_pos hlt, horder, ok_bind, entriesFrom_succ, List.lookup_cons]
      by_cases heq : (entryAt buf file).1 = name
      · have hbeq : (name == (entryAt buf file).1) = true := by simpa using heq.symm
        rw [if_pos (hcmp.mpr heq), hbeq]
        rfl
      · have hbeq : (name == (entryAt buf file).1) = false := by
          simpa using fun h ↦ heq h.symm
        rw [if_neg (fun h ↦ heq (hcmp.mp h)), hbeq]
        exact ih (file + 1) (by omega)

/-- What the search for a short name finds is the first match among the entries that lie in the
block, however many there are. -/
theorem scanEntries_some_iff {buf : Bytes} {name : Name} (hshort : name.length < nameBytes)
    (hname : 0 ∉ name) {n file e : Nat} (hfile : file ≤ dirFileCountMax) :
    scanEntries buf name n file = .ok (some e) ↔
      (entriesFrom buf file (min n (dirFileCountMax - file))).lookup name = some e := by
  induction n generalizing file with
  | zero =>
      rw [Nat.zero_min]
      exact ⟨fun h ↦ (nomatch h), fun h ↦ (nomatch h)⟩
  | succ n ih =>
      rw [scanEntries]
      split
      · rename_i hlt
        obtain ⟨order, horder, hcmp⟩ := strcmpWithin_entryName buf hshort hname hlt
        have hmin : min (n + 1) (dirFileCountMax - file) =
            min n (dirFileCountMax - (file + 1)) + 1 := by omega
        rw [horder, ok_bind, hmin, entriesFrom_succ, List.lookup_cons]
        by_cases heq : (entryAt buf file).1 = name
        · have hbeq : (name == (entryAt buf file).1) = true := by simpa using heq.symm
          rw [if_pos (hcmp.mpr heq), hbeq]
          exact ⟨fun h ↦ Except.ok.inj h, fun h ↦ congrArg Except.ok h⟩
        · have hbeq : (name == (entryAt buf file).1) = false := by
            simpa using fun h ↦ heq h.symm
          rw [if_neg (fun h ↦ heq (hcmp.mp h)), hbeq]
          exact ih (by omega)
      · rename_i hge
        have hmin : min (n + 1) (dirFileCountMax - file) = 0 := by omega
        rw [hmin]
        exact ⟨fun h ↦ (nomatch h), fun h ↦ (nomatch h)⟩

/-! ## The search for an inode -/

/-- **The search for an inode number is a search in the list of entries.** -/
theorem findEntry_ok {buf : Bytes} {inodeNum n entry : Nat} {o : Option Nat}
    (h : findEntry buf inodeNum n entry = .ok o) :
    o = ((entriesFrom buf entry n).findIdx? (fun e ↦ e.2 = inodeNum)).map (entry + ·) := by
  induction n generalizing entry with
  | zero =>
      cases h
      rfl
  | succ n ih =>
      rw [findEntry] at h
      split at h
      · rw [entriesFrom_succ, List.findIdx?_cons]
        split at h
        · rename_i heq
          have hdec : decide ((entryAt buf entry).2 = inodeNum) = true := decide_eq_true heq
          cases h
          rw [if_pos hdec]
          rfl
        · rename_i hne
          have hdec : ¬ decide ((entryAt buf entry).2 = inodeNum) = true :=
            fun h ↦ hne (of_decide_eq_true h)
          rw [if_neg hdec, ih h, Option.map_map]
          congr 1
          funext j
          change entry + 1 + j = entry + (j + 1)
          omega
      · cases h

/-! ## Linking -/

/-- The block with an entry written at place `n`. -/
def linkEntry (buf : Bytes) (n : Nat) (name : Name) (inodeNum : Nat) : Bytes :=
  strcpy (buf.splice (entryBytes * n + nameBytes) (Bytes.ofWord inodeNum)) (entryBytes * n) name

/-- Writing an entry leaves the other entries' bytes alone. -/
theorem linkEntry_of_ne (buf : Bytes) {n file : Nat} {name : Name} (inodeNum : Nat)
    (hname : name.length < nameBytes) (hne : file ≠ n) {i : Nat} (hi : i < entryBytes) :
    linkEntry buf n name inodeNum (entryBytes * file + i) = buf (entryBytes * file + i) := by
  have hi' : i < 36 := hi
  have hname' : name.length < 32 := hname
  rw [linkEntry, strcpy, Bytes.splice_of_notMem, Bytes.splice_of_notMem]
  · simp only [entryBytes, nameBytes, Bytes.length_ofWord]
    omega
  · simp only [entryBytes, List.length_append, List.length_singleton]
    omega

/-- The entry written holds the name. -/
theorem isString_linkEntry (buf : Bytes) (n : Nat) (name : Name) (inodeNum : Nat) :
    (entryName (linkEntry buf n name inodeNum) n).IsString name := isString_strcpy _ _ _

/-- The entry written is the one asked for. -/
theorem entryAt_linkEntry (buf : Bytes) (n : Nat) {name : Name} {inodeNum : Nat}
    (hname : name.length < nameBytes) (hzero : 0 ∉ name) (hnum : inodeNum < 2 ^ 32) :
    entryAt (linkEntry buf n name inodeNum) n = (name, inodeNum) := by
  have hstr := isString_linkEntry buf n name inodeNum
  have hword : entryInodeNum (linkEntry buf n name inodeNum) n = inodeNum := by
    refine Eq.trans (Bytes.word_congr fun i hi ↦ ?_)
      (Bytes.word_splice buf (entryBytes * n + nameBytes) inodeNum hnum)
    have hname' : name.length < 32 := hname
    refine Bytes.splice_of_notMem ?_
    simp only [entryBytes, nameBytes, List.length_append, List.length_singleton]
    omega
  rw [entryAt, hword,
    (isString_iff_stringAt (terminated_of_isString hstr hname) hzero).mp hstr]

/-- **Linking appends an entry.** -/
theorem entriesOf_linkEntry (buf : Bytes) (n : Nat) {name : Name} {inodeNum : Nat}
    (hname : name.length < nameBytes) (hzero : 0 ∉ name) (hnum : inodeNum < 2 ^ 32) :
    entriesOf (linkEntry buf n name inodeNum) (n + 1) =
      entriesOf buf n ++ [(name, inodeNum)] := by
  rw [entriesOf, entriesFrom, List.range'_concat, List.map_append]
  congr 1
  · refine List.map_congr_left fun file hfile ↦ entryAt_congr fun i hi ↦ ?_
    have hlt : file < n := by simpa using hfile
    exact linkEntry_of_ne buf inodeNum hname (Nat.ne_of_lt hlt) hi
  · rw [List.map_singleton, Nat.one_mul, Nat.zero_add, entryAt_linkEntry buf n hname hzero hnum]

/-- Linking keeps the names terminated. -/
theorem namesTerminated_linkEntry {buf : Bytes} {n : Nat} {name : Name} (inodeNum : Nat)
    (hname : name.length < nameBytes) (hterm : NamesTerminated buf n) :
    NamesTerminated (linkEntry buf n name inodeNum) (n + 1) := by
  intro file hfile
  by_cases heq : file = n
  · subst heq
    exact terminated_of_isString (isString_linkEntry buf file name inodeNum) hname
  · exact terminated_congr (fun i hi ↦ linkEntry_of_ne buf inodeNum hname heq hi)
      (hterm file (by omega))

/-! ## Unlinking -/

/-- Every entry from the first moved one on has the bytes of the next one. -/
theorem moveEntries_apply {past buf buf' : Bytes} {n entry : Nat}
    (h : moveEntries past n entry buf = .ok buf') {i : Nat} (hi : i + entryBytes < blockBytes) :
    buf' i = if entryBytes * entry ≤ i ∧ i < entryBytes * (entry + n) then buf (i + entryBytes)
      else buf i := by
  have hb : entryBytes = 36 := rfl
  rw [hb] at hi ⊢
  induction n generalizing entry buf with
  | zero =>
      cases h
      rw [if_neg (by omega)]
  | succ n ih =>
      rw [moveEntries] at h
      split at h
      · rw [ih h]
        simp only [moveEntry, hb]
        split
        · rename_i hin
          rw [if_neg (by omega), if_pos (by omega)]
        · rename_i hout
          by_cases hin : 36 * entry ≤ i ∧ i < 36 * entry + 36
          · rw [if_pos hin, if_pos (by omega)]
          · rw [if_neg hin, if_neg (by omega)]
      · cases h

/-- The moves succeed in a block of at most 113 entries. -/
theorem moveEntries_eq_ok (past buf : Bytes) {n : Nat} (entry : Nat)
    (hmax : entry + n ≤ dirFileCountMax) :
    ∃ buf', moveEntries past n entry buf = .ok buf' := by
  induction n generalizing entry buf with
  | zero => exact ⟨buf, rfl⟩
  | succ n ih =>
      obtain ⟨buf', h⟩ := ih (moveEntry past buf entry) (entry + 1) (by omega)
      refine ⟨buf', ?_⟩
      rw [moveEntries, if_pos (by omega), h]

section

variable {past buf buf' : Bytes} {n entry : Nat}

/-- After the moves, an entry has the bytes of itself or of the next one. -/
theorem moveEntries_entry (hmax : n ≤ dirFileCountMax)
    (h : moveEntries past (n - entry) entry buf = .ok buf') {file : Nat} (hfile : file + 1 < n)
    {i : Nat} (hi : i < entryBytes) :
    buf' (entryBytes * file + i) =
      buf (entryBytes * (if file < entry then file else file + 1) + i) := by
  have hi' : i < 36 := hi
  have hmax' : n ≤ 113 := hmax
  have hb : entryBytes = 36 := rfl
  rw [moveEntries_apply h (by rw [hb]; change _ < 4096; omega)]
  rw [hb]
  by_cases hlt : file < entry
  · rw [if_pos hlt, if_neg (by omega)]
  · rw [if_neg hlt, if_pos (by omega)]
    congr 1
    omega

/-- **Unlinking erases an entry.** -/
theorem entriesOf_moveEntries (hmax : n ≤ dirFileCountMax) (hentry : entry < n)
    (h : moveEntries past (n - entry) entry buf = .ok buf') :
    entriesOf buf' (n - 1) = (entriesOf buf n).eraseIdx entry := by
  refine List.ext_getElem? fun file ↦ ?_
  rw [List.getElem?_eraseIdx, getElem?_entriesOf, getElem?_entriesOf, getElem?_entriesOf]
  by_cases hfile : file + 1 < n
  · rw [if_pos (by omega), entryAt_congr fun i hi ↦ moveEntries_entry hmax h hfile hi]
    split
    · rw [if_pos (by omega)]
    · rfl
  · rw [if_neg (by omega), if_neg hfile]
    split
    · rw [if_neg (by omega)]
    · rfl

/-- Unlinking keeps the names terminated. -/
theorem namesTerminated_moveEntries (hmax : n ≤ dirFileCountMax)
    (h : moveEntries past (n - entry) entry buf = .ok buf') (hterm : NamesTerminated buf n) :
    NamesTerminated buf' (n - 1) := by
  intro file hfile
  refine terminated_congr (fun i hi ↦ moveEntries_entry hmax h (by omega) hi) (hterm _ ?_)
  split
  · omega
  · omega

end

end Yorha.Fs
