import Yorha.Fs.Basic

/-!
# The descriptor table

`allocate_file_descriptor` hands `global_fd_table.bitmap` to `alloc_bitrange` with the
capacity of a disk bitmap.  The bitmap is one word, and the words behind it are those
of the entries, so the model has the table as one array of words: the bitmap, then 14
words for each entry, laid out as on the i386.

While a descriptor is free, the search ends in the first word.  Otherwise it goes on
through the entries, sets a bit there, and the code uses the number of that bit as an
index into the 32 entries.
-/

namespace Yorha.Fs

open Yorha.Lib Yorha.Str Yorha.Util

/-! ## The table as an array of words -/

/-- The words of a descriptor entry. -/
def descriptorWords : Nat := 14

/-- Word `w` of an entry: eight of name, the inode number, two for each cursor, and
the index. -/
def FileDescriptorEntry.word (e : FileDescriptorEntry) (w : Nat) : Word :=
  if w < 8 then BitVec.ofNat 32 (e.name.drop (4 * w)).word
  else match w with
    | 8 => BitVec.ofNat 32 e.inodeNum
    | 9 => BitVec.ofNat 32 e.readPos
    | 10 => BitVec.ofNat 32 (e.readPos / 2 ^ 32)
    | 11 => BitVec.ofNat 32 e.writePos
    | 12 => BitVec.ofNat 32 (e.writePos / 2 ^ 32)
    | _ => BitVec.ofNat 32 e.index

/-- Overwrite word `w` of an entry. -/
def FileDescriptorEntry.setWord (e : FileDescriptorEntry) (w : Nat) (v : Word) :
    FileDescriptorEntry :=
  if w < 8 then { e with name := e.name.splice (4 * w) (Bytes.ofWord v.toNat) }
  else match w with
    | 8 => { e with inodeNum := v.toNat }
    | 9 => { e with readPos := e.readPos / 2 ^ 32 * 2 ^ 32 + v.toNat }
    | 10 => { e with readPos := v.toNat * 2 ^ 32 + e.readPos % 2 ^ 32 }
    | 11 => { e with writePos := e.writePos / 2 ^ 32 * 2 ^ 32 + v.toNat }
    | 12 => { e with writePos := v.toNat * 2 ^ 32 + e.writePos % 2 ^ 32 }
    | _ => { e with index := v.toNat }

instance : WordArray FileDescriptorTable where
  size := 1 + descriptorWords * descriptorCount
  get t i :=
    if i = 0 then t.bitmap
    else (t.entry ((i - 1) / descriptorWords)).word ((i - 1) % descriptorWords)
  set t i w :=
    if i = 0 then { t with bitmap := w }
    else
      let fd := (i - 1) / descriptorWords
      t.setEntry fd ((t.entry fd).setWord ((i - 1) % descriptorWords) w)

/-- The bits of the first word are the marks of the descriptors. -/
theorem bit_table (t : FileDescriptorTable) {fd : Nat} (h : fd < descriptorCount) :
    WordArray.bit t fd = t.marked fd := by
  have hword : fd / 32 = 0 := Nat.div_eq_of_lt h
  have hbit : fd % 32 = fd := Nat.mod_eq_of_lt h
  rw [WordArray.bit, hword, hbit]
  rfl

/-! ## Allocating a descriptor -/

/-- Opens a descriptor for an inode. -/
def allocateFileDescriptor (t : FileDescriptorTable) (fileInodeNum : Nat)
    (filename : List UInt8) : Except Stop (Int × FileDescriptorTable) := do
  let (fdRange, t) ← allocBitrange t bitmapCapacity 1 false
  if fdRange.length = 0 then .ok (-1, t)
  else if filename.length < nameBytes ∧ fdRange.start < descriptorCount then
    let fileDescriptor : FileDescriptorEntry :=
      { name := strcpy (fun _ ↦ 0) 0 filename, inodeNum := fileInodeNum,
        readPos := 0, writePos := 0, index := fdRange.start }
    .ok (toInt32 fdRange.start, t.setEntry fdRange.start fileDescriptor)
  else .error .fault

/-- `t'` is `t` with the free descriptor `fd` opened on an inode. -/
structure Opened (t t' : FileDescriptorTable) (fd inodeNum : Nat) (name : List UInt8) :
    Prop where
  lt : fd < descriptorCount
  name_lt : name.length < nameBytes
  free : t.marked fd = false
  first : ∀ fd' < fd, t.marked fd' = true
  marked : ∀ fd', t'.marked fd' = if fd' = fd then true else t.marked fd'
  entry : ∀ fd', t'.entry fd' =
    if fd' = fd then
      { name := strcpy (fun _ ↦ 0) 0 name, inodeNum := inodeNum, readPos := 0, writePos := 0,
        index := fd }
    else t.entry fd'

/-- Tables with the same marks and entries are the same. -/
theorem FileDescriptorTable.ext_entry {t t' : FileDescriptorTable}
    (hmarked : ∀ fd, t.marked fd = t'.marked fd) (hentry : ∀ fd, t.entry fd = t'.entry fd) :
    t = t' := by
  obtain ⟨bitmap, entries⟩ := t
  obtain ⟨bitmap', entries'⟩ := t'
  congr 1
  · exact BitVec.eq_of_getMsbD_eq fun i _ ↦ hmarked i
  · ext i hi
    have h := hentry i
    rw [FileDescriptorTable.entry, FileDescriptorTable.entry, Vector.getElem?_eq_getElem hi,
      Vector.getElem?_eq_getElem hi] at h
    exact h

/-- Which descriptor is opened depends on the table only. -/
theorem Opened.unique {t t₁ t₂ : FileDescriptorTable} {fd fd' inodeNum : Nat}
    {name : List UInt8} (h : Opened t t₁ fd inodeNum name) (h' : Opened t t₂ fd' inodeNum name) :
    fd = fd' ∧ t₁ = t₂ := by
  obtain rfl : fd = fd' := by
    rcases Nat.lt_trichotomy fd fd' with hlt | heq | hlt
    · exact absurd (h'.first fd hlt) (by simp [h.free])
    · exact heq
    · exact absurd (h.first fd' hlt) (by simp [h'.free])
  refine ⟨rfl, FileDescriptorTable.ext_entry (fun n ↦ ?_) (fun n ↦ ?_)⟩
  · rw [h.marked, h'.marked]
  · rw [h.entry, h'.entry]

/-- Reading a word of a name and storing it back changes nothing. -/
theorem splice_word (m : Bytes) (off : Nat) :
    m.splice off (Bytes.ofWord (m.drop off).word) = m := by
  funext i
  by_cases h : off ≤ i ∧ i < off + 4
  · obtain ⟨j, rfl⟩ : ∃ j, i = off + j := ⟨i - off, by omega⟩
    have hj : j < 4 := by omega
    rw [Bytes.splice_add (by rwa [Bytes.length_ofWord])]
    have h₀ := (m off).toNat_lt
    have h₁ := (m (off + 1)).toNat_lt
    have h₂ := (m (off + 2)).toNat_lt
    have h₃ := (m (off + 3)).toNat_lt
    rw [← UInt8.toNat_inj]
    rcases j with _ | _ | _ | _ | j
    · simp [Bytes.ofWord, Bytes.word]
    · simp [Bytes.ofWord, Bytes.word]
      omega
    · simp [Bytes.ofWord, Bytes.word]
      omega
    · simp [Bytes.ofWord, Bytes.word]
      omega
    · omega
  · exact Bytes.splice_of_notMem (by rwa [Bytes.length_ofWord])

/-- Storing the first word of an entry's name back changes nothing. -/
theorem setWord_word_zero (e : FileDescriptorEntry) : e.setWord 0 (e.word 0) = e := by
  have hword : (BitVec.ofNat 32 (e.name.drop 0).word).toNat = (e.name.drop 0).word := by
    rw [BitVec.toNat_ofNat, Nat.mod_eq_of_lt (Bytes.word_lt _)]
  simp only [FileDescriptorEntry.setWord, FileDescriptorEntry.word, Nat.zero_lt_succ, if_true,
    Nat.mul_zero, hword, splice_word]

theorem setEntry_entry (t : FileDescriptorTable) {fd : Nat} (h : fd < descriptorCount) :
    t.setEntry fd (t.entry fd) = t := by
  have hget : t.entry fd = t.entries[fd] := by
    rw [FileDescriptorTable.entry, Vector.getElem?_eq_getElem h, Option.getD_some]
  have hset : t.entries.setIfInBounds fd t.entries[fd] = t.entries := by
    ext i hi
    rw [Vector.getElem_setIfInBounds hi]
    split
    · rename_i heq
      subst heq
      rfl
    · rfl
  rw [FileDescriptorTable.setEntry, hget, hset]

/-- An empty mask changes nothing. -/
theorem applyMask_zero (v : Bool) (w : Word) : applyMask v 0 w = w := by
  cases v with
  | true => exact BitVec.or_zero
  | false =>
      change w &&& ~~~0#32 = w
      rw [BitVec.not_zero, BitVec.and_allOnes]

/-- Changing one bit of the first word leaves the entries alone.  For the last bit the
loop also visits the second word, with an empty mask. -/
theorem applyBitrange_table (t : FileDescriptorTable) {fd : Nat} (h : fd < descriptorCount)
    (v : Bool) : ∃ w : Word, applyBitrange t ⟨fd, 1⟩ v = .ok { t with bitmap := w } ∧
      ∀ fd', fd' < 32 → w.getMsbD fd' = if fd' = fd then v else t.bitmap.getMsbD fd' := by
  have h32 : fd < 32 := h
  by_cases hlast : fd = 31
  · subst hlast
    refine ⟨applyMask v (firstMask 31) t.bitmap, ?_, fun fd' hfd' ↦ ?_⟩
    · have hwords : applyBitrange t ⟨31, 1⟩ v =
          .ok (({ t with bitmap := applyMask v (firstMask 31) t.bitmap }).setEntry 0
            ((t.entry 0).setWord 0 (applyMask v 0 ((t.entry 0).word 0)))) := rfl
      rw [hwords, applyMask_zero, setWord_word_zero]
      exact congrArg Except.ok
        (setEntry_entry { t with bitmap := applyMask v (firstMask 31) t.bitmap } (by decide))
    · rw [applyMask_getMsbD _ _ _ hfd', firstMask_getMsbD (by decide) hfd']
      refine if_congr ?_ rfl rfl
      rw [decide_eq_true_eq]
      omega
  · refine ⟨applyMask v (firstMask fd ^^^ maskFrom (fd + 1)) t.bitmap, ?_, fun fd' hfd' ↦ ?_⟩
    · have hstart : fd / 32 = 0 := by omega
      have hend : (fd + 1) % 2 ^ 32 / 32 = 0 := by omega
      have hbit : (fd + 1) % 2 ^ 32 % 32 = fd + 1 := by omega
      have hne : ¬ (1 = 0 ∧ fd = 0) := by omega
      simp only [applyBitrange, hstart, hend, hbit, Nat.mod_eq_of_lt h32, applyFuel, applyWords,
        Nat.zero_mod, le_refl, if_true, if_neg hne]
      rfl
    · rw [applyMask_getMsbD _ _ _ hfd', innerMask_getMsbD (by omega) (by omega) hfd']
      refine if_congr ?_ rfl rfl
      rw [decide_eq_true_eq]
      omega

/-- A descriptor whose bit does not fit a request for one bit is in use. -/
theorem marked_of_not_clear {t : FileDescriptorTable} {fd : Nat} (h : fd < descriptorCount)
    (hno : ¬ WordArray.Clear t fd 1) : t.marked fd = true := by
  rw [← bit_table t h]
  by_contra hclear
  refine hno fun k h₁ h₂ ↦ ?_
  obtain rfl : k = fd := by omega
  exact Bool.eq_false_iff.mpr hclear

/-- Where the search for a free bit ends: at the first free descriptor, which it marks;
or, if there is none, nowhere or past the first word. -/
theorem allocBitrange_table (t : FileDescriptorTable) :
    (∃ (fd : Nat) (w : Word), fd < descriptorCount ∧ t.marked fd = false ∧
      (∀ fd' < fd, t.marked fd' = true) ∧
      allocBitrange t bitmapCapacity 1 false = .ok (⟨fd, 1⟩, { t with bitmap := w }) ∧
      ∀ fd' < 32, w.getMsbD fd' = if fd' = fd then true else t.bitmap.getMsbD fd') ∨
    ((∀ fd < descriptorCount, t.marked fd = true) ∧
      ∀ {r t'}, allocBitrange t bitmapCapacity 1 false = .ok (r, t') →
        r.length = 1 ∧ descriptorCount ≤ r.start) := by
  rcases allocBitrange_cases t bitmapCapacity false Nat.one_pos with
    ⟨⟨fd, length⟩, hfit, rfl, he⟩ | ⟨hle, -, -⟩ | ⟨-, hno, he⟩
  · by_cases hfd : fd < descriptorCount
    · obtain ⟨w, hw, hbits⟩ := applyBitrange_table t hfd true
      refine .inl ⟨fd, w, hfd, ?_, fun fd' hlt ↦ ?_, ?_, hbits⟩
      · rw [← bit_table t hfd]
        exact hfit.clear fd le_rfl (Nat.lt_succ_self fd)
      · exact marked_of_not_clear (lt_trans hlt hfd) (hfit.least fd' hlt (fun h ↦ nomatch h))
      · rw [he, hw, ok_bind]
    · have hge : descriptorCount ≤ fd := Nat.le_of_not_lt hfd
      refine .inr ⟨fun fd' hlt ↦ ?_, fun {r t'} h ↦ ?_⟩
      · exact marked_of_not_clear hlt
          (hfit.least fd' (lt_of_lt_of_le hlt hge) (fun h ↦ nomatch h))
      · rw [he, bind_eq_ok] at h
        obtain ⟨u, -, hr⟩ := h
        cases hr
        exact ⟨rfl, hge⟩
  · exact absurd hle (by decide)
  · refine .inr ⟨fun fd hlt ↦ marked_of_not_clear hlt fun hclear ↦ ?_, fun {r t'} h ↦ ?_⟩
    · have hin : fd + 1 ≤ 32 * WordArray.size FileDescriptorTable :=
        le_trans (Nat.succ_le_of_lt hlt) (by decide)
      exact hno fd ⟨fun h ↦ (nomatch h), hin, hclear⟩
    · rw [he] at h
      cases h

/-- What a returning `allocate_file_descriptor` did. -/
theorem allocateFileDescriptor_ok {t t' : FileDescriptorTable} {inodeNum : Nat}
    {name : List UInt8} {v : Int} (h : allocateFileDescriptor t inodeNum name = .ok (v, t')) :
    ∃ fd : Nat, v = fd ∧ Opened t t' fd inodeNum name := by
  simp only [allocateFileDescriptor, bind_eq_ok, Prod.exists] at h
  obtain ⟨r, u, halloc, h⟩ := h
  rcases allocBitrange_table t with ⟨fd, w, hfd, hfree, hfirst, he, hbits⟩ | ⟨-, hpast⟩
  · rw [he] at halloc
    cases halloc
    rw [if_neg Nat.one_ne_zero] at h
    split at h
    · rename_i hlt
      cases h
      refine ⟨fd, toInt32_of_lt (lt_trans hfd (by decide)), hfd, hlt.1, hfree, hfirst,
        fun fd' ↦ ?_, fun fd' ↦ FileDescriptorTable.entry_setEntry _ hfd _ fd'⟩
      by_cases hfd' : fd' < 32
      · exact hbits fd' hfd'
      · have hne : fd' ≠ fd := fun heq ↦ hfd' (heq ▸ hfd)
        simp [FileDescriptorTable.marked, BitVec.getMsbD, hfd', hne]
    · cases h
  · obtain ⟨hlen, hge⟩ := hpast halloc
    rw [if_neg (by omega), if_neg (fun hlt ↦ absurd hlt.2 (Nat.not_lt.mpr hge))] at h
    cases h

/-- With a descriptor free, `allocate_file_descriptor` returns. -/
theorem allocateFileDescriptor_of_free {t : FileDescriptorTable} {fd : Nat}
    (hfd : fd < descriptorCount) (hfree : t.marked fd = false) (inodeNum : Nat)
    {name : List UInt8} (hname : name.length < nameBytes) :
    ∃ (v : Int) (t' : FileDescriptorTable),
      allocateFileDescriptor t inodeNum name = .ok (v, t') := by
  rcases allocBitrange_table t with ⟨fd', w, hlt, -, -, he, -⟩ | ⟨hall, -⟩
  · obtain ⟨⟨v, t'⟩, hr⟩ : ∃ r, allocateFileDescriptor t inodeNum name = .ok r := by
      simp only [allocateFileDescriptor, he, ok_bind, if_neg Nat.one_ne_zero,
        if_pos (And.intro hname hlt)]
      exact ⟨_, rfl⟩
    exact ⟨v, t', hr⟩
  · rw [hall fd hfd] at hfree
    cases hfree

/-! ## Closing a descriptor -/

/-- `t'` is `t` with the descriptor `fd` closed. -/
structure Closed (t t' : FileDescriptorTable) (fd : Nat) : Prop where
  marked : ∀ fd', t'.marked fd' = if fd' = fd then false else t.marked fd'
  entry : ∀ fd', t'.entry fd' = t.entry fd'

/-- Clearing the bit of a descriptor of the table closes it. -/
theorem deallocBitrange_table (t : FileDescriptorTable) {fd : Nat} (h : fd < descriptorCount) :
    ∃ t', deallocBitrange t ⟨fd, 1⟩ = .ok t' ∧ Closed t t' fd := by
  obtain ⟨w, hw, hbits⟩ := applyBitrange_table t h false
  refine ⟨{ t with bitmap := w }, hw, fun fd' ↦ ?_, fun fd' ↦ rfl⟩
  by_cases hfd' : fd' < 32
  · exact hbits fd' hfd'
  · have hne : fd' ≠ fd := fun heq ↦ hfd' (heq ▸ h)
    simp [FileDescriptorTable.marked, BitVec.getMsbD, hfd', hne]

/-- Closing -1, which is what a failed call returned, clears nothing: the last word of
the range comes before the first. -/
theorem deallocBitrange_minusOne (t : FileDescriptorTable) :
    deallocBitrange t ⟨toUint32 (-1), 1⟩ = .ok t := rfl

end Yorha.Fs
