import Yorha.Heap.Leak
import Yorha.Heap.Page

/-!
# The fields of a string

What `string_split` is for, said without its loop: the positions at which a string is cut
(`IsCut`), and the pieces between them (`fields`).  `stringSplit_fields` says that the code
makes a list of these, each in a block of its own, unless the heap runs out.
-/

namespace Yorha.Heap

open Yorha.Lib Yorha.Str Yorha.Util

/-- The string is cut at position `i`: a delimiter is there that ends a word. -/
def IsCut (delim : UInt8) (reserveQuotes : Bool) (s : List UInt8) (i : Nat) : Prop :=
  s[i]? = some delim ∧ EndsWord delim reserveQuotes (s.take i)

instance (delim : UInt8) (reserveQuotes : Bool) (before : List UInt8) :
    Decidable (EndsWord delim reserveQuotes before) :=
  inferInstanceAs (Decidable (_ → _))

instance (delim : UInt8) (reserveQuotes : Bool) (s : List UInt8) (i : Nat) :
    Decidable (IsCut delim reserveQuotes s i) :=
  inferInstanceAs (Decidable (_ ∧ _))

/-- The characters of the string between the cuts. -/
def pieces (delim : UInt8) (reserveQuotes : Bool) (s : List UInt8) : List (List UInt8) :=
  (s.zipIdx.splitOnP fun p ↦ decide (IsCut delim reserveQuotes s p.2)).map (·.map Prod.fst)

/-- The fields of a string: none, if it is empty. -/
def fields (delim : UInt8) (reserveQuotes : Bool) (s : List UInt8) : List (List UInt8) :=
  if s = [] then [] else pieces delim reserveQuotes s

/-- The list on the heap has these fields, each with a terminator in a block of its own that was
not live before.  Blocks that were are as before. -/
structure Separated (h h' : KernelHeap) (live live' : LiveBlocks) (sl : StringList)
    (words : List (List UInt8)) : Prop where
  inv : HeapInv h'.allocator live'
  frame : Frame h h' live live' fun _ ↦ False
  len : sl.len = words.length
  list : words ≠ [] → sl.len ≤ sl.capacity ∧ live sl.contents = none ∧
    live' sl.contents = some (stringBytes * sl.capacity)
  stored : ∀ i word, words[i]? = some word → live (sl.string h' i).contents = none ∧
    Stored h' live' 1 (sl.string h' i) (word ++ [0])
  apart : ∀ i < words.length, (sl.string h' i).contents ≠ sl.contents ∧
    ∀ j < words.length, (sl.string h' i).contents = (sl.string h' j).contents → i = j

section

variable {delim : UInt8} {reserveQuotes : Bool}

/-! ## Pieces -/

/-- The state of the loop behind these characters. -/
def insideQuotes (before : List UInt8) : Bool := decide (before.count quote % 2 = 1)

theorem insideQuotes_append (before : List UInt8) (c : UInt8) :
    insideQuotes (before ++ [c]) =
      if c = quote then !insideQuotes before else insideQuotes before := by
  rw [insideQuotes, List.count_append, List.count_singleton]
  by_cases hc : c = quote
  · subst hc
    rw [if_pos (beq_self_eq_true quote), if_pos rfl, insideQuotes, ← decide_not]
    exact decide_eq_decide.mpr (by omega)
  · rw [if_neg (mt beq_iff_eq.mp hc), if_neg hc]
    rfl

/-- What the loop asks about a character is whether the string is cut there. -/
theorem isCut_iff (before rest : List UInt8) (c : UInt8) :
    IsCut delim reserveQuotes (before ++ c :: rest) before.length ↔
      c = delim ∧ (!insideQuotes (before ++ [c]) || !reserveQuotes) = true := by
  rw [IsCut, List.getElem?_append_right le_rfl, Nat.sub_self, List.getElem?_cons_zero,
    Option.some_inj, List.take_left]
  refine and_congr_right fun hc ↦ ?_
  subst hc
  rw [EndsWord, insideQuotes]
  cases reserveQuotes with
  | false => exact ⟨fun _ ↦ Bool.or_true _, fun _ h ↦ absurd h Bool.false_ne_true⟩
  | true =>
      rw [Bool.not_true, Bool.or_false, ← decide_not, decide_eq_true_iff]
      constructor
      · intro h
        have := h rfl
        omega
      · intro h _
        omega

/-- **The words are the pieces.**  The loop has read `before`. -/
theorem splitWords_eq_pieces (before rest : List UInt8) :
    splitWords delim reserveQuotes (insideQuotes before) rest =
      ((rest.zipIdx before.length).splitOnP fun p ↦
        decide (IsCut delim reserveQuotes (before ++ rest) p.2)).map (·.map Prod.fst) := by
  induction rest generalizing before with
  | nil => rfl
  | cons c rest ih =>
      have hstate := insideQuotes_append before c
      have hcut : IsCut delim reserveQuotes (before ++ c :: rest) before.length ↔ _ :=
        isCut_iff before rest c
      have hih := ih (before ++ [c])
      rw [List.append_assoc, List.singleton_append, List.length_append,
        List.length_singleton] at hih
      rw [splitWords, List.zipIdx_cons, List.splitOnP_cons_eq_if_modifyHead, ← hstate, hih]
      simp only [decide_eq_true_iff]
      split
      · rename_i hdelim
        rw [if_pos (hcut.mpr hdelim)]
        rfl
      · rename_i hother
        rw [if_neg (mt hcut.mp hother)]
        generalize List.splitOnP _ _ = parts
        cases parts with
        | nil => rfl
        | cons part parts => rfl

theorem splitWords_eq (delim : UInt8) (reserveQuotes : Bool) (s : List UInt8) :
    splitWords delim reserveQuotes false s = pieces delim reserveQuotes s :=
  splitWords_eq_pieces [] s

/-- **Join.**  The words, with delimiters between them, are the string. -/
theorem intercalate_splitWords (inString : Bool) (s : List UInt8) :
    [delim].intercalate (splitWords delim reserveQuotes inString s) = s := by
  induction s generalizing inString with
  | nil => exact List.intercalate_singleton
  | cons c s ih =>
      rw [splitWords]
      generalize (if c = quote then !inString else inString) = inString'
      have hs := ih inString'
      obtain ⟨word, words, hwords⟩ :=
        List.exists_cons_of_ne_nil (splitWords_ne_nil delim reserveQuotes inString' s)
      rw [hwords] at hs ⊢
      split
      · rename_i hdelim
        rw [List.intercalate_cons_cons, hs, ← hdelim.1]
        rfl
      · rw [List.modifyHead_cons]
        cases words with
        | nil =>
            rw [List.intercalate_singleton] at hs ⊢
            rw [hs]
        | cons next words =>
            rw [List.intercalate_cons_cons] at hs ⊢
            rw [← hs]
            rfl

theorem intercalate_fields (s : List UInt8) :
    [delim].intercalate (fields delim reserveQuotes s) = s := by
  rw [fields]
  split
  · rename_i hnil
    rw [hnil]
    rfl
  · rw [← splitWords_eq]
    exact intercalate_splitWords false s

/-- A field has no characters but those of the string. -/
theorem mem_of_mem_fields {s word : List UInt8} {c : UInt8}
    (hw : word ∈ fields delim reserveQuotes s) (hc : c ∈ word) : c ∈ s := by
  rw [fields] at hw
  split at hw
  · exact absurd hw List.not_mem_nil
  · rw [← splitWords_eq] at hw
    exact mem_of_mem_splitWords hw hc

/-! ## Running out -/

variable {h h' h₀ : KernelHeap} {live live' live₀ : LiveBlocks} {sl : StringList}
  {curr s : Buffer} {placed : List (HeapString × List UInt8)} {chars bytes c : List UInt8}
  {size : Nat} {e : Stop}

/-- `kmalloc` only stops because something is full. -/
theorem kmalloc_runsOut {a : AllocArray} (hact : a.active = true) (hsize : 0 < size)
    (h : kmalloc a size = .error e) : RunsOut e := by
  rcases kmalloc_cases hact hsize with ⟨start, a', hm, -⟩ | ⟨msg, hm, -, hfull⟩
  · rw [hm] at h
    cases h
  · rw [hm] at h
    cases h
    exact hfull

theorem kcalloc_runsOut {num : Nat} (hact : h.allocator.active = true)
    (hsize : 0 < num * size) (hlt : num * size < 2 ^ 32)
    (hk : kcalloc h num size = .error e) : RunsOut e := by
  have hassert : assertActive h.allocator = .ok () := assertActive_eq_ok.mpr hact
  simp only [kcalloc, hassert, ok_bind, Nat.mod_eq_of_lt hlt] at hk
  rcases bind_eq_error.mp hk with hm | ⟨v, -, hv⟩
  · exact kmalloc_runsOut hact hsize hm
  · cases hv

/-- A live block can be moved, unless something is full. -/
theorem HeapInv.krealloc_runsOut {p n : Nat} (hinv : HeapInv h.allocator live)
    (hp : live p = some n) (hsize : 0 < size) (hk : Heap.krealloc h p size = .error e) :
    RunsOut e := by
  cases hm : Heap.kmalloc h.allocator size with
  | ok v =>
      obtain ⟨h', hk', -, -⟩ := hinv.krealloc hp hsize hm
      rw [hk'] at hk
      cases hk
  | error e' =>
      have hassert : assertActive h.allocator = .ok () := assertActive_eq_ok.mpr hinv.active
      simp only [Heap.krealloc, hassert, ok_bind, hm, error_bind] at hk
      cases hk
      exact kmalloc_runsOut hinv.active hsize hm

/-- **`APPEND` returns**, unless something is full. -/
theorem append_runsOut (hinv : HeapInv h.allocator live) (hsize : c.length = size)
    (hc : 0 < size) (hlt : 2 * size < 2 ^ 32) (hs : Holds h live size s bytes)
    (ha : append h s c = .error e) : RunsOut e := by
  subst hsize
  rw [append] at ha
  split at ha
  · rcases bind_eq_error.mp ha with hk | ⟨v, -, hv⟩
    · exact kcalloc_runsOut hinv.active (Nat.mul_pos Nat.two_pos hc) hlt hk
    · cases hv
  · rename_i hcap
    have hstored : Stored h live c.length s bytes := hs.resolve_left fun hnone ↦ hcap hnone.1
    split at ha
    · rcases bind_eq_error.mp ha with hk | ⟨v, -, hv⟩
      · have hle : c.length * s.capacity ≤ scannedBits := hinv.length_le hstored.block
        have hbound : c.length * s.capacity * 2 < 2 ^ 32 :=
          lt_of_le_of_lt (Nat.mul_le_mul_right 2 hle) (by decide)
        rw [Nat.mod_eq_of_lt hbound] at hk
        exact hinv.krealloc_runsOut hstored.block
          (Nat.mul_pos (Nat.mul_pos hc hstored.pos) Nat.two_pos) hk
      · cases hv
    · cases ha

theorem Splitting.push_runsOut {char : UInt8}
    (hs : Splitting h₀ live₀ h live sl curr placed chars)
    (ha : append h curr [char] = .error e) : RunsOut e :=
  append_runsOut hs.inv List.length_singleton Nat.one_pos (by decide) hs.holds ha

theorem Splitting.endWord_runsOut (hs : Splitting h₀ live₀ h live sl curr placed chars)
    (ha : append h sl curr.bytes = .error e) : RunsOut e :=
  append_runsOut hs.inv curr.length_bytes (by decide) (by decide) hs.words.list ha

/-- The loop of `string_split` reaches the end of the string, unless something is full. -/
theorem Splitting.loop_runsOut {inString : Bool} {s : List UInt8}
    (hs : Splitting h₀ live₀ h live sl curr placed chars)
    (hl : splitLoop delim reserveQuotes s inString sl curr h = .error e) : RunsOut e := by
  induction s generalizing h live sl curr placed chars inString with
  | nil => cases hl
  | cons char s ih =>
      rw [splitLoop] at hl
      generalize (if char = quote then !inString else inString) = inString' at hl
      split at hl
      · rcases bind_eq_error.mp hl with ha | ⟨⟨curr₁, h₁⟩, ha, hl⟩
        · exact hs.push_runsOut ha
        obtain ⟨-, hcap, live₁, hs₁⟩ := hs.push ha
        rcases bind_eq_error.mp hl with ha | ⟨⟨sl₂, h₂⟩, ha, hl⟩
        · exact hs₁.endWord_runsOut ha
        obtain ⟨live₂, hs₂⟩ := hs₁.endWord hcap ha
        exact ih hs₂ hl
      · rcases bind_eq_error.mp hl with ha | ⟨⟨curr₁, h₁⟩, ha, hl⟩
        · exact hs.push_runsOut ha
        obtain ⟨-, -, live₁, hs₁⟩ := hs.push ha
        exact ih hs₁ hl

/-- **`string_split` returns**, unless something is full. -/
theorem stringSplit_runsOut {s : List UInt8} (hinv : HeapInv h.allocator live)
    (hs : stringSplit h s delim reserveQuotes = .error e) : RunsOut e := by
  have hstart := splitting_start hinv
  rw [stringSplit] at hs
  rcases bind_eq_error.mp hs with hl | ⟨⟨sl₁, curr₁, h₁⟩, hl, hs⟩
  · exact hstart.loop_runsOut hl
  obtain ⟨-, words₁, chars₁, ⟨live₁, placed₁, hs₁, -⟩, -⟩ :=
    (splitting_rule h live).loop ⟨live, [], hstart, rfl⟩ hl
  simp only at hs
  split at hs
  · rcases bind_eq_error.mp hs with ha | ⟨⟨curr₂, h₂⟩, ha, hs⟩
    · exact hs₁.push_runsOut ha
    obtain ⟨-, -, live₂, hs₂⟩ := hs₁.push ha
    exact hs₂.endWord_runsOut hs
  · cases hs

/-! ## The list -/

/-- What a split leaves, as it is read back from the list. -/
theorem Split.separated (hsp : Split h h' live live' sl placed)
    (ht : Tight live live' sl .zero placed) (hne : placed ≠ [])
    (hbottom : h.allocator.bottom + scannedBits < 2 ^ 32) :
    Separated h h' live live' sl (placed.map Prod.snd) where
  inv := hsp.inv
  frame := hsp.frame
  len := by rw [hsp.words.len_eq hne, List.length_map]
  list := by
    intro _
    have hlist := hsp.words.stored_list hne
    exact ⟨hlist.len_le, hsp.live_eq_none (.inl ⟨hlist.pos, rfl⟩), hlist.block⟩
  stored := by
    intro i word hword
    obtain ⟨p, hp, rfl⟩ := List.getElem?_map.symm.trans hword |> Option.map_eq_some_iff.mp
    obtain ⟨hi, rfl⟩ := List.getElem?_eq_some_iff.mp hp
    rw [hsp.words.string_eq hsp.inv (hsp.frame.bottom ▸ hbottom) hi]
    exact ⟨hsp.live_eq_none (.inr ⟨_, List.getElem_mem hi, rfl⟩),
      hsp.words.stored _ (List.getElem_mem hi)⟩
  apart := by
    intro i hi
    rw [List.length_map] at hi
    have hread : ∀ {j} (hj : j < placed.length), sl.string h' j = placed[j].1 := fun hj ↦
      hsp.words.string_eq hsp.inv (hsp.frame.bottom ▸ hbottom) hj
    refine ⟨fun heq ↦ ?_, fun j hj heq ↦ ?_⟩
    · rw [hread hi] at heq
      exact hsp.words.apart _ (List.getElem_mem hi) ⟨(hsp.words.stored_list hne).pos, heq⟩
    · rw [List.length_map] at hj
      rw [hread hi, hread hj] at heq
      have hlen := placed.length_map fun p ↦ p.1.contents
      have hget : (placed.map fun p ↦ p.1.contents)[i] = (placed.map fun p ↦ p.1.contents)[j] := by
        rw [List.getElem_map, List.getElem_map]
        exact heq
      exact ht.distinct.getElem_inj_iff.mp hget

end

/-- **`string_split` is the reference.**  It makes a list of the fields of the string, which is
empty for the empty string; the fields have no terminator in them, and with delimiters between
them they are the string.  If it does not return, the heap has run out. -/
theorem stringSplit_fields {h : KernelHeap} {live : LiveBlocks}
    (hinv : HeapInv h.allocator live) (hbottom : h.allocator.bottom + scannedBits < 2 ^ 32)
    (s : CString) (delim : UInt8) (reserveQuotes : Bool) :
    ((∃ e, stringSplit h s.chars delim reserveQuotes = .error e ∧ RunsOut e) ∨
      ∃ sl h' live', stringSplit h s.chars delim reserveQuotes = .ok (sl, h') ∧
        Separated h h' live live' sl (fields delim reserveQuotes s.chars) ∧
        (s.chars = [] → sl = .zero ∧ h' = h)) ∧
    (∀ word ∈ fields delim reserveQuotes s.chars, 0 ∉ word) ∧
    [delim].intercalate (fields delim reserveQuotes s.chars) = s.chars := by
  refine ⟨?_, fun word hw hzero ↦ s.nonzero (mem_of_mem_fields hw hzero), intercalate_fields _⟩
  cases hs : stringSplit h s.chars delim reserveQuotes with
  | error e => exact .inl ⟨e, rfl, stringSplit_runsOut hinv hs⟩
  | ok v =>
      obtain ⟨sl, h'⟩ := v
      refine .inr ?_
      by_cases hne : s.chars = []
      · rw [hne] at hs ⊢
        cases hs
        exact ⟨_, _, live, rfl, ⟨hinv, Frame.refl h live _, rfl, fun hnil ↦ absurd rfl hnil,
          fun i word hword ↦ (by cases hword), fun i hi ↦ absurd hi (Nat.not_lt_zero i)⟩,
          fun _ ↦ ⟨rfl, rfl⟩⟩
      · obtain ⟨live', placed, hsp, ht, hwords⟩ := stringSplit_tight hinv hne hs
        have hplaced : placed ≠ [] := by
          rintro rfl
          exact splitWords_ne_nil _ _ _ _ hwords.symm
        refine ⟨sl, h', live', rfl, ?_, fun hnil ↦ absurd hnil hne⟩
        rw [fields, if_neg hne, ← splitWords_eq, ← hwords]
        exact hsp.separated ht hplaced hbottom

/-- `test_string_split`: the two words of a greeting, in a heap that is empty. -/
theorem stringSplit_greeting : ∃ sl h' live', stringSplit
      (HeapState.initial 0x400000 fun _ ↦ 0).heap (ofText "Hello World") 32 false = .ok (sl, h') ∧
    Separated (HeapState.initial 0x400000 fun _ ↦ 0).heap h' (fun _ ↦ none) live' sl
      [ofText "Hello", ofText "World"] := by
  have hreturns : (stringSplit (HeapState.initial 0x400000 fun _ ↦ 0).heap
      (ofText "Hello World") 32 false).toOption.isSome = true := by decide +kernel
  obtain ⟨hsplit, -, -⟩ := stringSplit_fields
    (h := (HeapState.initial 0x400000 fun _ ↦ 0).heap) (HeapInv.initial 0x400000) (by decide)
    ⟨ofText "Hello World", by decide⟩ 32 false
  rcases hsplit with ⟨e, he, -⟩ | ⟨sl, h', live', hs, hseparated, -⟩
  · simp only [he] at hreturns
    cases hreturns
  · have hfields : fields 32 false (ofText "Hello World") =
        [ofText "Hello", ofText "World"] := by decide +kernel
    exact ⟨sl, h', live', hs, hfields ▸ hseparated⟩

end Yorha.Heap
