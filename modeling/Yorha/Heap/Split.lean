import Yorha.Heap.Buffer

/-!
# Splitting a string

`string_split`, which cuts a string into words on the heap, and `free_string_list`, which is
meant to give them back.

`splitWords` is the same cut on lists of characters.  `stringSplit_ok` says that the code
computes it: the list on the heap has these words, each in a block of its own, and other
blocks are as before.

`free_string_list` gives the first word back as often as there are words, and the others
never.  A block given back again is harmless as long as nothing is allocated in between
(`Dead`), so all that this loses is the blocks of the other words.
-/

namespace Yorha.Heap

open Yorha.Lib Yorha.Str Yorha.Util

/-! ## The code -/

/-- The character `"`. -/
def quote : UInt8 := 34

/-- The loop of `string_split`, on the rest of the string. -/
def splitLoop (delim : UInt8) (reserveQuotes : Bool) :
    List UInt8 → Bool → StringList → HeapString → KernelHeap →
      Except Stop (StringList × HeapString × KernelHeap)
  | [], _, sl, curr, h => .ok (sl, curr, h)
  | c :: s, inString, sl, curr, h => do
      let inString := if c = quote then !inString else inString
      if c = delim ∧ (!inString || !reserveQuotes) = true then do
        let (curr, h) ← append h curr [0]
        let (sl, h) ← append h sl curr.bytes
        splitLoop delim reserveQuotes s inString sl { curr with capacity := 0 } h
      else do
        let (curr, h) ← append h curr [c]
        splitLoop delim reserveQuotes s inString sl curr h

/-- Cuts a string at the delimiters, outside quotes if these are reserved. -/
def stringSplit (h : KernelHeap) (s : List UInt8) (delim : UInt8) (reserveQuotes : Bool) :
    Except Stop (StringList × KernelHeap) := do
  let (sl, curr, h) ← splitLoop delim reserveQuotes s false .zero .zero h
  if curr.len > 0 then do
    let (curr, h) ← append h curr [0]
    append h sl curr.bytes
  else .ok (sl, h)

/-- The loop of `free_string_list`, which does not move on in the list. -/
def freeStrings (sl : StringList) : Nat → KernelHeap → Except Stop KernelHeap
  | 0, h => .ok h
  | i + 1, h => do
      let allocator ← kfree h.allocator (sl.string h 0).contents
      freeStrings sl i ⟨allocator, h.mem⟩

/-- Gives back the first word, once for each word, and the list. -/
def freeStringList (h : KernelHeap) (sl : StringList) : Except Stop KernelHeap := do
  let h ← freeStrings sl sl.len h
  let allocator ← kfree h.allocator sl.contents
  .ok ⟨allocator, h.mem⟩

/-- Gives a string back. -/
def freeString (h : KernelHeap) (s : HeapString) : Except Stop KernelHeap := do
  let allocator ← kfree h.allocator s.contents
  .ok ⟨allocator, h.mem⟩

/-! ## Words -/

/-- The words of the rest of a string. -/
def splitWords (delim : UInt8) (reserveQuotes : Bool) : Bool → List UInt8 → List (List UInt8)
  | _, [] => [[]]
  | inString, c :: s =>
      let inString := if c = quote then !inString else inString
      if c = delim ∧ (!inString || !reserveQuotes) = true then
        [] :: splitWords delim reserveQuotes inString s
      else (splitWords delim reserveQuotes inString s).modifyHead (c :: ·)

/-- A list on the heap has these strings, whose characters are these words. -/
structure Words (h : KernelHeap) (live : LiveBlocks) (sl : StringList)
    (placed : List (HeapString × List UInt8)) : Prop where
  list : Holds h live stringBytes sl (placed.flatMap fun p ↦ p.1.bytes)
  stored : ∀ p ∈ placed, Stored h live 1 p.1 (p.2 ++ [0])
  apart : ∀ p ∈ placed, ¬ sl.Owns p.1.contents

/-- What the loop of `string_split` keeps: the list so far, the word that is built, and the
blocks there were, all apart from each other. -/
structure Splitting (h₀ : KernelHeap) (live₀ : LiveBlocks) (h : KernelHeap) (live : LiveBlocks)
    (sl : StringList) (curr : HeapString) (placed : List (HeapString × List UInt8))
    (chars : List UInt8) : Prop where
  inv : HeapInv h.allocator live
  frame : Frame h₀ h live₀ live fun _ ↦ False
  words : Words h live sl placed
  holds : Holds h live 1 curr chars
  wordApart : ∀ p ∈ placed, ¬ curr.Owns p.1.contents
  listApart : ∀ {p}, sl.Owns p → ¬ curr.Owns p
  old : ∀ {p n}, live₀ p = some n → ¬ sl.Owns p ∧ ¬ curr.Owns p
  oldWords : ∀ {p n}, live₀ p = some n → ∀ q ∈ placed, p ≠ q.1.contents

/-- What a split leaves: a list of words, in blocks that were not live. -/
structure Split (h h' : KernelHeap) (live live' : LiveBlocks) (sl : StringList)
    (placed : List (HeapString × List UInt8)) : Prop where
  inv : HeapInv h'.allocator live'
  frame : Frame h h' live live' fun _ ↦ False
  words : Words h' live' sl placed
  old : ∀ {p n}, live p = some n → ¬ sl.Owns p
  oldWords : ∀ {p n}, live p = some n → ∀ q ∈ placed, p ≠ q.1.contents

section

variable {h h' h₀ : KernelHeap} {live live' live₀ : LiveBlocks} {own : Nat → Prop}
  {sl sl' : StringList} {curr curr' : HeapString} {placed : List (HeapString × List UInt8)}
  {chars : List UInt8} {c : UInt8}

theorem not_owns_zero (p : Nat) : ¬ Buffer.zero.Owns p := fun hown ↦ Nat.lt_irrefl 0 hown.1

theorem splitting_start (hinv : HeapInv h.allocator live) :
    Splitting h live h live .zero .zero [] [] where
  inv := hinv
  frame := Frame.refl h live _
  words := ⟨holds_zero h live _, fun _ hp ↦ (nomatch hp), fun _ hp ↦ (nomatch hp)⟩
  holds := holds_zero h live _
  wordApart := fun _ hp ↦ nomatch hp
  listApart := fun hown ↦ absurd hown (not_owns_zero _)
  old := fun _ ↦ ⟨not_owns_zero _, not_owns_zero _⟩
  oldWords := fun _ _ hq ↦ nomatch hq

/-- The words stay while others work on their blocks. -/
theorem Words.frame (hw : Words h live sl placed) (hf : Frame h h' live live' own)
    (hlist : ∀ {p}, sl.Owns p → ¬ own p) (hword : ∀ p ∈ placed, ¬ own p.1.contents) :
    Words h' live' sl placed where
  list := hw.list.frame hf hlist
  stored := fun p hp ↦ (hw.stored p hp).frame hf (hword p hp)
  apart := hw.apart

/-- One more character of the word. -/
theorem Splitting.push (hs : Splitting h₀ live₀ h live sl curr placed chars)
    (ha : append h curr [c] = .ok (curr', h')) : 0 < curr'.len ∧ 0 < curr'.capacity ∧ ∃ live',
      Splitting h₀ live₀ h' live' sl curr' placed (chars ++ [c]) := by
  obtain ⟨live', happ⟩ := append_ok hs.inv List.length_singleton Nat.one_pos (by decide) hs.holds ha
  have hlen : (chars ++ [c]).length = 1 * curr'.len := happ.stored.length
  rw [List.length_append, List.length_singleton, Nat.one_mul] at hlen
  refine ⟨hlen ▸ Nat.succ_pos _, happ.stored.pos, live', happ.inv, ?_, ?_, .inr happ.stored,
    ?_, ?_, ?_, hs.oldWords⟩
  · exact hs.frame.trans happ.frame fun hp _ ↦ (hs.old hp).2
  · exact hs.words.frame happ.frame hs.listApart hs.wordApart
  · intro p hp hown
    exact happ.fresh (hs.words.stored p hp).block (hs.wordApart p hp) hown.2
  · intro p hsl hown
    have hblock := (hs.words.list.resolve_left fun hnone ↦ hsl.1.ne' hnone.1).block
    rw [← hsl.2] at hblock
    exact happ.fresh hblock (hs.listApart hsl) hown.2
  · intro p n hp
    refine ⟨(hs.old hp).1, fun hown ↦ ?_⟩
    exact happ.fresh (hs.frame.kept hp not_false) (hs.old hp).2 hown.2

/-- The end of a word: it becomes a string of the list. -/
theorem Splitting.endWord {chars : List UInt8}
    (hs : Splitting h₀ live₀ h live sl curr placed (chars ++ [0])) (hcap : 0 < curr.capacity)
    (ha : append h sl curr.bytes = .ok (sl', h')) : ∃ live',
      Splitting h₀ live₀ h' live' sl' { curr with capacity := 0 } (placed ++ [(curr, chars)])
        [] := by
  have hstored : Stored h live 1 curr (chars ++ [0]) :=
    hs.holds.resolve_left fun hnone ↦ hcap.ne' hnone.1
  have hcurr : ¬ sl.Owns curr.contents := fun hown ↦ hs.listApart hown ⟨hcap, rfl⟩
  obtain ⟨live', happ⟩ := append_ok hs.inv curr.length_bytes (by decide) (by decide)
    hs.words.list ha
  have hnone : ∀ p, ¬ ({ curr with capacity := 0 } : Buffer).Owns p :=
    fun p hown ↦ Nat.lt_irrefl 0 hown.1
  refine ⟨live', happ.inv, ?_, ⟨?_, ?_, ?_⟩, .inl ⟨rfl, rfl⟩, fun p _ ↦ hnone _,
    fun _ ↦ hnone _, ?_, ?_⟩
  · exact hs.frame.trans happ.frame fun hp _ ↦ (hs.old hp).1
  · rw [List.flatMap_append]
    exact .inr happ.stored
  · intro p hp
    rcases List.mem_append.mp hp with hp | hp
    · exact (hs.words.stored p hp).frame happ.frame (hs.words.apart p hp)
    · obtain rfl := List.mem_singleton.mp hp
      exact hstored.frame happ.frame hcurr
  · intro p hp hown
    rcases List.mem_append.mp hp with hp | hp
    · exact happ.fresh (hs.words.stored p hp).block (hs.words.apart p hp) hown.2
    · obtain rfl := List.mem_singleton.mp hp
      exact happ.fresh hstored.block hcurr hown.2
  · intro p n hp
    refine ⟨fun hown ↦ ?_, hnone p⟩
    exact happ.fresh (hs.frame.kept hp not_false) (hs.old hp).1 hown.2
  · intro p n hp q hq
    rcases List.mem_append.mp hq with hq | hq
    · exact hs.oldWords hp q hq
    · obtain rfl := List.mem_singleton.mp hq
      exact fun heq ↦ (hs.old hp).2 ⟨hcap, heq⟩

end

/-! ## The loop -/

/-- A relation between the heap, the list, the word that is built, the words so far and the
characters of the next one, that the two steps of `string_split` keep. -/
structure SplitRule
    (I : KernelHeap → StringList → HeapString → List (List UInt8) → List UInt8 → Prop) : Prop where
  push : ∀ {h h' : KernelHeap} {sl : StringList} {curr curr' : HeapString}
    {words : List (List UInt8)} {chars : List UInt8} {c : UInt8}, I h sl curr words chars →
    append h curr [c] = .ok (curr', h') →
    0 < curr'.len ∧ 0 < curr'.capacity ∧ I h' sl curr' words (chars ++ [c])
  endWord : ∀ {h h' : KernelHeap} {sl sl' : StringList} {curr : HeapString}
    {words : List (List UInt8)} {chars : List UInt8}, I h sl curr words (chars ++ [0]) →
    0 < curr.capacity → append h sl curr.bytes = .ok (sl', h') →
    I h' sl' { curr with capacity := 0 } (words ++ [chars]) []

section

variable {I : KernelHeap → StringList → HeapString → List (List UInt8) → List UInt8 → Prop}
  {h h' : KernelHeap} {sl sl' : StringList} {curr curr' : HeapString}
  {words : List (List UInt8)} {chars : List UInt8}

/-- **The loop of `string_split`** builds the words of the rest of the string; the first of
them is already begun. -/
theorem SplitRule.loop (hI : SplitRule I) {delim : UInt8} {reserveQuotes inString : Bool}
    {s : List UInt8} (hs : I h sl curr words chars)
    (hl : splitLoop delim reserveQuotes s inString sl curr h = .ok (sl', curr', h')) :
    (s ≠ [] ∨ 0 < curr.len → 0 < curr'.len) ∧ ∃ words' chars',
      I h' sl' curr' words' chars' ∧ words' ++ [chars'] = words ++
        (splitWords delim reserveQuotes inString s).modifyHead (chars ++ ·) := by
  induction s generalizing h sl curr words chars inString with
  | nil =>
      cases hl
      refine ⟨fun hor ↦ hor.resolve_left fun hne ↦ hne rfl, words, chars, hs, ?_⟩
      rw [splitWords, List.modifyHead_cons, List.append_nil]
  | cons c s ih =>
      rw [splitLoop] at hl
      rw [splitWords]
      generalize (if c = quote then !inString else inString) = inString' at hl ⊢
      split at hl
      · -- a delimiter: the word ends, and the next one begins
        rename_i hdelim
        simp only [bind_eq_ok, Prod.exists] at hl
        obtain ⟨curr₁, h₁, ha₁, sl₂, h₂, ha₂, hl⟩ := hl
        obtain ⟨hlen₁, hcap₁, hs₁⟩ := hI.push hs ha₁
        obtain ⟨hlen, words', chars', hs', hwords⟩ := ih (hI.endWord hs₁ hcap₁ ha₂) hl
        refine ⟨fun _ ↦ hlen (.inr hlen₁), words', chars', hs', ?_⟩
        rw [hwords, if_pos hdelim, List.append_assoc, List.modifyHead_cons, List.append_nil]
        change _ ++ ([chars] ++ List.modifyHead id _) = _
        rw [List.modifyHead_id]
        rfl
      · rename_i hother
        simp only [bind_eq_ok, Prod.exists] at hl
        obtain ⟨curr₁, h₁, ha₁, hl⟩ := hl
        obtain ⟨hlen₁, -, hs₁⟩ := hI.push hs ha₁
        obtain ⟨hlen, words', chars', hs', hwords⟩ := ih hs₁ hl
        refine ⟨fun _ ↦ hlen (.inr hlen₁), words', chars', hs', ?_⟩
        rw [hwords, if_neg hother, List.modifyHead_modifyHead]
        congr 2
        funext word
        exact List.append_assoc chars [c] word

/-- **`string_split`** of a string that is not empty makes a list of its words, and builds no
other. -/
theorem SplitRule.stringSplit (hI : SplitRule I) {delim : UInt8} {reserveQuotes : Bool}
    {s : List UInt8} (hstart : I h .zero .zero [] []) (hne : s ≠ [])
    (hs : stringSplit h s delim reserveQuotes = .ok (sl, h')) :
    ∃ curr : HeapString,
      I h' sl { curr with capacity := 0 } (splitWords delim reserveQuotes false s) [] := by
  simp only [Heap.stringSplit, bind_eq_ok, Prod.exists] at hs
  obtain ⟨sl₁, curr₁, h₁, hloop, hs⟩ := hs
  obtain ⟨hlen, words₁, chars₁, hs₁, hwords⟩ := hI.loop hstart hloop
  rw [if_pos (hlen (.inl hne))] at hs
  simp only [bind_eq_ok, Prod.exists] at hs
  obtain ⟨curr₂, h₂, ha₂, ha₃⟩ := hs
  obtain ⟨-, hcap, hs₂⟩ := hI.push hs₁ ha₂
  have heq : words₁ ++ [chars₁] = splitWords delim reserveQuotes false s := by
    rw [hwords]
    change List.modifyHead id _ = _
    exact congrFun List.modifyHead_id _
  rw [← heq]
  exact ⟨curr₂, hI.endWord hs₂ hcap ha₃⟩

end

section

variable {h h' h₀ : KernelHeap} {live live' live₀ : LiveBlocks} {sl : StringList}
  {placed : List (HeapString × List UInt8)}

/-- The two steps keep `Splitting`. -/
theorem splitting_rule (h₀ : KernelHeap) (live₀ : LiveBlocks) :
    SplitRule fun h sl curr words chars ↦ ∃ live placed,
      Splitting h₀ live₀ h live sl curr placed chars ∧ placed.map Prod.snd = words where
  push := by
    rintro h h' sl curr curr' words chars c ⟨live, placed, hs, hwords⟩ ha
    obtain ⟨hlen, hcap, live', hs'⟩ := hs.push ha
    exact ⟨hlen, hcap, live', placed, hs', hwords⟩
  endWord := by
    rintro h h' sl sl' curr words chars ⟨live, placed, hs, hwords⟩ hcap ha
    obtain ⟨live', hs'⟩ := hs.endWord hcap ha
    exact ⟨live', _, hs', by rw [List.map_append, hwords]; rfl⟩

/-- **What `string_split` makes of a string**: a list of its words. -/
theorem stringSplit_ok {delim : UInt8} {reserveQuotes : Bool} {s : List UInt8}
    (hinv : HeapInv h.allocator live) (hne : s ≠ [])
    (hs : stringSplit h s delim reserveQuotes = .ok (sl, h')) : ∃ live' placed,
      Split h h' live live' sl placed ∧
      placed.map Prod.snd = splitWords delim reserveQuotes false s := by
  obtain ⟨curr, live', placed, hs', hwords⟩ := (splitting_rule h live).stringSplit
    ⟨live, [], splitting_start hinv, rfl⟩ hne hs
  exact ⟨live', placed, ⟨hs'.inv, hs'.frame, hs'.words, fun hp ↦ (hs'.old hp).1, hs'.oldWords⟩,
    hwords⟩

/-- There is a word before every delimiter and behind the last. -/
theorem splitWords_ne_nil (delim : UInt8) (reserveQuotes inString : Bool) (s : List UInt8) :
    splitWords delim reserveQuotes inString s ≠ [] := by
  induction s generalizing inString with
  | nil => exact List.cons_ne_nil _ _
  | cons c s ih =>
      rw [splitWords]
      generalize (if c = quote then !inString else inString) = inString'
      split
      · exact List.cons_ne_nil _ _
      · intro hnil
        exact ih _ (List.modifyHead_eq_nil_iff.mp hnil)

/-- A word has no characters but those of the string. -/
theorem mem_of_mem_splitWords {delim : UInt8} {reserveQuotes inString : Bool} {s word : List UInt8}
    {c : UInt8} (hw : word ∈ splitWords delim reserveQuotes inString s) (hc : c ∈ word) :
    c ∈ s := by
  induction s generalizing inString word with
  | nil =>
      obtain rfl := List.mem_singleton.mp hw
      exact hc
  | cons d s ih =>
      rw [splitWords] at hw
      generalize (if d = quote then !inString else inString) = inString' at hw
      rw [List.mem_cons]
      split at hw
      · rcases List.mem_cons.mp hw with rfl | hw
        · exact absurd hc List.not_mem_nil
        · exact .inr (ih hw hc)
      · obtain ⟨first, words, hwords⟩ :=
          List.exists_cons_of_ne_nil (splitWords_ne_nil delim reserveQuotes inString' s)
        rw [hwords, List.modifyHead_cons, List.mem_cons] at hw
        rcases hw with rfl | hw
        · rcases List.mem_cons.mp hc with hc | hc
          · exact .inl hc
          · exact .inr (ih (hwords ▸ List.mem_cons_self) hc)
        · exact .inr (ih (hwords ▸ List.mem_cons_of_mem _ hw) hc)

/-- Without quotes, every delimiter ends a word. -/
theorem splitWords_eq_splitOn {delim : UInt8} {reserveQuotes : Bool} {s : List UInt8}
    (h : quote ∉ s) : splitWords delim reserveQuotes false s = s.splitOn delim := by
  induction s with
  | nil => rfl
  | cons c s ih =>
      rw [List.mem_cons, not_or] at h
      rw [splitWords, if_neg (Ne.symm h.1), ih h.2, List.splitOn_cons_eq_if_modifyHead]
      refine if_congr ?_ rfl rfl
      rw [beq_iff_eq]
      exact and_iff_left rfl

/-- Words that are put together with delimiters have no other characters. -/
theorem mem_of_mem_intercalate {delim c : UInt8} {words : List (List UInt8)}
    (h : c ∈ [delim].intercalate words) : c = delim ∨ ∃ word ∈ words, c ∈ word := by
  induction words with
  | nil => exact absurd h List.not_mem_nil
  | cons word words ih =>
      cases words with
      | nil =>
          rw [List.intercalate_singleton] at h
          exact .inr ⟨word, List.mem_singleton_self _, h⟩
      | cons next words =>
          rw [List.intercalate_cons_cons, List.append_assoc, List.mem_append,
            List.mem_append] at h
          rcases h with h | h | h
          · exact .inr ⟨word, List.mem_cons_self, h⟩
          · exact .inl (List.mem_singleton.mp h)
          · refine (ih h).imp_right fun ⟨w, hw, hc⟩ ↦ ?_
            exact ⟨w, List.mem_cons_of_mem _ hw, hc⟩

/-- **Round trip.**  A line that is put together from unquoted words is split into these. -/
theorem splitWords_intercalate {delim : UInt8} {reserveQuotes : Bool} (hdelim : delim ≠ quote)
    {words : List (List UInt8)} (hne : words ≠ [])
    (h : ∀ word ∈ words, delim ∉ word ∧ quote ∉ word) :
    splitWords delim reserveQuotes false ([delim].intercalate words) = words := by
  rw [splitWords_eq_splitOn, List.splitOn_intercalate _ (fun word hw ↦ (h word hw).1) hne]
  intro hmem
  rcases mem_of_mem_intercalate hmem with heq | ⟨word, hw, hc⟩
  · exact hdelim heq.symm
  · exact (h word hw).2 hc

/-! ## Reading the list -/

/-- A string takes twelve bytes of a list. -/
theorem length_flatMap_bytes (placed : List (HeapString × List UInt8)) :
    (placed.flatMap fun p ↦ p.1.bytes).length = stringBytes * placed.length := by
  induction placed with
  | nil => rfl
  | cons p placed ih =>
      rw [List.flatMap_cons, List.length_append, ih, Buffer.length_bytes, List.length_cons,
        Nat.mul_succ, Nat.add_comm]

/-- A list on the heap with a word in it has a block. -/
theorem Words.stored_list (hw : Words h live sl placed) (hne : placed ≠ []) :
    Stored h live stringBytes sl (placed.flatMap fun p ↦ p.1.bytes) := by
  rcases hw.list with ⟨-, hnil⟩ | hstored
  · have hlen := length_flatMap_bytes placed
    rw [hnil, List.length_nil] at hlen
    exact absurd hlen (Nat.mul_pos (by decide) (List.length_pos_of_ne_nil hne)).ne
  · exact hstored

/-- The length of a list on the heap is the number of its words. -/
theorem Words.len_eq (hw : Words h live sl placed) (hne : placed ≠ []) :
    sl.len = placed.length := by
  have hlen := (hw.stored_list hne).length
  rw [length_flatMap_bytes] at hlen
  exact (Nat.eq_of_mul_eq_mul_left (by decide) hlen).symm

/-- The numbers in the strings of a list, one after the other. -/
theorem getD_flatMap_fields (placed : List (HeapString × List UInt8)) {i k : Nat} (hk : k < 3)
    (hi : i < placed.length) :
    (placed.flatMap fun p ↦ [p.1.len, p.1.capacity, p.1.contents]).getD (3 * i + k) 0 =
      [placed[i].1.len, placed[i].1.capacity, placed[i].1.contents].getD k 0 := by
  induction placed generalizing i with
  | nil => exact absurd hi (Nat.not_lt_zero _)
  | cons p placed ih =>
      rw [List.flatMap_cons, List.getD_eq_getElem?_getD]
      cases i with
      | zero =>
          rw [List.getElem?_append_left (by simpa using hk), ← List.getD_eq_getElem?_getD,
            Nat.mul_zero, Nat.zero_add]
          rfl
      | succ i =>
          rw [List.getElem?_append_right (by simp; omega), ← List.getD_eq_getElem?_getD]
          have hoff : 3 * (i + 1) + k - [p.1.len, p.1.capacity, p.1.contents].length =
              3 * i + k := by
            simp only [List.length_cons, List.length_nil]
            omega
          rw [hoff]
          exact ih (Nat.lt_of_succ_lt_succ hi)

/-- The numbers of a string are those of its block, which lies in the address space. -/
theorem Stored.fields_lt {size : Nat} {s : Buffer} {bytes : List UInt8}
    (hinv : HeapInv h.allocator live) (hbottom : h.allocator.bottom + scannedBits < 2 ^ 32)
    (hsize : 0 < size) (hs : Stored h live size s bytes) :
    s.len < 2 ^ 32 ∧ s.capacity < 2 ^ 32 ∧ s.contents < 2 ^ 32 := by
  obtain ⟨-, hin⟩ := hinv.block_le hs.block
  have hcap : s.capacity ≤ size * s.capacity := Nat.le_mul_of_pos_left _ hsize
  have hlen := hs.len_le
  omega

/-- **What is read back from a list** is the string that was put there. -/
theorem Words.string_eq (hinv : HeapInv h.allocator live)
    (hbottom : h.allocator.bottom + scannedBits < 2 ^ 32) (hw : Words h live sl placed) {i : Nat}
    (hi : i < placed.length) : sl.string h i = placed[i].1 := by
  have hlist := hw.stored_list (List.ne_nil_of_length_pos (Nat.zero_lt_of_lt hi))
  have hbytes : (placed.flatMap fun p ↦ p.1.bytes) =
      (placed.flatMap fun p ↦ [p.1.len, p.1.capacity, p.1.contents]).flatMap Bytes.ofWord :=
    List.flatMap_assoc.symm
  have hword : ∀ k < 3, (h.mem.drop (sl.contents + stringBytes * i + 4 * k)).word =
      [placed[i].1.len, placed[i].1.capacity, placed[i].1.contents].getD k 0 % 2 ^ 32 := by
    intro k hk
    rw [← getD_flatMap_fields placed hk hi, ← Bytes.word_ofList_flatMap, ← hbytes]
    apply Bytes.word_congr
    intro j hj
    have hin : stringBytes * i + 4 * k + j < (placed.flatMap fun p ↦ p.1.bytes).length := by
      rw [length_flatMap_bytes]
      change 12 * i + 4 * k + j < 12 * placed.length
      omega
    have hoff : 4 * (3 * i + k) + j = stringBytes * i + 4 * k + j := by
      change _ = 12 * i + 4 * k + j
      omega
    rw [Bytes.drop_apply, Bytes.drop_apply, hoff, ← Bytes.eq_ofList hlist.mem hin,
      Bytes.drop_apply]
    congr 1
    omega
  obtain ⟨hlen, hcap, hcontents⟩ :=
    (hw.stored _ (List.getElem_mem hi)).fields_lt hinv hbottom Nat.one_pos
  have h₀ := hword 0 (by decide)
  have h₁ := hword 1 (by decide)
  have h₂ := hword 2 (by decide)
  rw [List.getD_cons_zero, Nat.mod_eq_of_lt hlen] at h₀
  rw [List.getD_cons_succ, List.getD_cons_zero, Nat.mod_eq_of_lt hcap] at h₁
  rw [List.getD_cons_succ, List.getD_cons_succ, List.getD_cons_zero,
    Nat.mod_eq_of_lt hcontents] at h₂
  rw [StringList.string, stringAt]
  exact (Buffer.mk.injEq ..).mpr ⟨h₀, h₁, h₂⟩

end

/-! ## Giving back twice -/

/-- An entry whose block was given back: the search for `p` still finds it. -/
structure Dead (a : AllocArray) (p slot : Nat) : Prop where
  first : a.firstEntry (fun e ↦ e.basePtr == p) = some slot
  unused : (a.entry slot).utilized = false
  nonempty : 0 < (a.entry slot).range.length
  inside : (a.entry slot).range.start + (a.entry slot).range.length ≤ scannedBits
  clear : WordArray.Clear a.bitmap (a.entry slot).range.start (a.entry slot).range.length

section

variable {a a' : AllocArray} {h h' : KernelHeap} {live : LiveBlocks} {sl : StringList}
  {p n slot : Nat}

/-- The invariant depends on the bits and the entries only. -/
theorem HeapInv.congr (hinv : HeapInv a live) (hbottom : a'.bottom = a.bottom)
    (hactive : a'.active = a.active)
    (hbits : ∀ k, WordArray.bit a'.bitmap k = WordArray.bit a.bitmap k)
    (hentry : ∀ i, a'.entry i = a.entry i) : HeapInv a' live where
  active := hactive.trans hinv.active
  base := by
    intro i hi
    rw [hentry] at hi ⊢
    rw [hbottom]
    exact hinv.base hi
  nonempty := by
    intro i hi
    rw [hentry] at hi ⊢
    exact hinv.nonempty hi
  inside := by
    intro i hi
    rw [hentry] at hi ⊢
    exact hinv.inside hi
  aligned := by
    intro i hi
    rw [hentry] at hi ⊢
    exact hinv.aligned hi
  disjoint := by
    intro i j k hi hj
    rw [hentry] at hi hj
    rw [hentry, hentry]
    exact hinv.disjoint hi hj
  bits := by
    intro k
    simp only [hbits, hentry]
    exact hinv.bits k
  first := by
    intro i j hi hj
    rw [hentry] at hi
    rw [hentry, hentry]
    exact hinv.first hi hj
  live := by
    intro q m
    simp only [hentry]
    exact hinv.live q m

/-- What `kfree` of a live pointer leaves behind. -/
theorem HeapInv.kfree_live (hinv : HeapInv a live) (hp : live p = some n) :
    ∃ a', Heap.kfree a p = .ok a' ∧ a'.bottom = a.bottom ∧
      HeapInv a' (Function.update live p none) ∧ ∃ slot, Dead a' p slot := by
  obtain ⟨a', slot, hk, hr, hslot, hbase, hrange⟩ := hinv.kfree_eq_ok hp
  have hself : a'.entry slot = { a.entry slot with utilized := false } := by
    rw [hr.entry, if_pos rfl]
  refine ⟨a', hk, hr.bottom, hbase ▸ hinv.released hr hslot, slot, ?_, ?_, ?_, ?_, ?_⟩
  · rw [AllocArray.firstEntry_eq_some]
    refine ⟨utilized_lt hslot, ?_, fun j hj ↦ ?_⟩
    · rw [hr.basePtr_eq, hbase]
      exact beq_self_eq_true p
    · rw [hr.basePtr_eq, ← hbase]
      exact beq_eq_false_iff_ne.mpr (hinv.first hslot hj)
  · rw [hself]
  · rw [hself]
    exact hinv.nonempty hslot
  · rw [hself]
    exact hinv.inside hslot
  · rw [hself]
    exact fun k h₁ h₂ ↦ hr.bits.eq_of_mem h₁ h₂

/-- **Giving a block back again changes nothing**, as long as nobody has its bytes. -/
theorem HeapInv.kfree_dead (hinv : HeapInv a live) (hd : Dead a p slot) :
    ∃ a', Heap.kfree a p = .ok a' ∧ a'.bottom = a.bottom ∧ HeapInv a' live ∧ Dead a' p slot := by
  have hslot : slot < maxAllocations := (AllocArray.firstEntry_eq_some.mp hd.first).1
  obtain ⟨a', hrel, hr⟩ := releaseEntry_eq_ok hslot hd.nonempty hd.inside
  have hact : assertActive a = .ok () := assertActive_eq_ok.mpr hinv.active
  have hk : Heap.kfree a p = .ok a' := by
    simp only [Heap.kfree, hact, ok_bind, hd.first, hrel]
  have hentry : ∀ i, a'.entry i = a.entry i := by
    intro i
    rw [hr.entry]
    split
    · rename_i heq
      subst heq
      rw [← hd.unused]
    · rfl
  have hbits : ∀ k, WordArray.bit a'.bitmap k = WordArray.bit a.bitmap k := by
    intro k
    rw [hr.bits k]
    split
    · rename_i hin
      exact (hd.clear k hin.1 hin.2).symm
    · rfl
  refine ⟨a', hk, hr.bottom, hinv.congr hr.bottom hr.active hbits hentry, ?_, ?_, ?_, ?_, ?_⟩
  · rw [AllocArray.firstEntry_eq_some]
    simp only [hentry]
    exact AllocArray.firstEntry_eq_some.mp hd.first
  · rw [hentry]
    exact hd.unused
  · rw [hentry]
    exact hd.nonempty
  · rw [hentry]
    exact hd.inside
  · rw [hentry]
    intro k h₁ h₂
    rw [hbits]
    exact hd.clear k h₁ h₂

/-- The loop of `free_string_list` on a word that was given back already. -/
theorem HeapInv.freeStrings_dead (i : Nat) (hinv : HeapInv h.allocator live)
    (hd : Dead h.allocator (sl.string h 0).contents slot) : ∃ h', freeStrings sl i h = .ok h' ∧
      h'.allocator.bottom = h.allocator.bottom ∧ h'.mem = h.mem ∧ HeapInv h'.allocator live := by
  induction i generalizing h with
  | zero => exact ⟨h, rfl, rfl, rfl, hinv⟩
  | succ i ih =>
      obtain ⟨a, hk, hbottom, hinv₁, hd₁⟩ := hinv.kfree_dead hd
      obtain ⟨h', hf, hbottom', hmem, hinv'⟩ := ih (h := ⟨a, h.mem⟩) hinv₁ hd₁
      refine ⟨h', ?_, hbottom'.trans hbottom, hmem, hinv'⟩
      rw [freeStrings, hk, ok_bind]
      exact hf

/-- **`free_string_list`** of a list that was split gives back two blocks, the first word and
the list. -/
theorem Words.freeStringList_eq_ok {placed : List (HeapString × List UInt8)}
    (hinv : HeapInv h.allocator live) (hbottom : h.allocator.bottom + scannedBits < 2 ^ 32)
    (hw : Words h live sl placed) (hpos : 0 < placed.length) :
    ∃ h', freeStringList h sl = .ok h' ∧ h'.allocator.bottom = h.allocator.bottom ∧
      h'.mem = h.mem ∧ HeapInv h'.allocator
        (Function.update (Function.update live placed[0].1.contents none) sl.contents none) := by
  have hne := List.ne_nil_of_length_pos hpos
  have hlist := hw.stored_list hne
  have hfirst := hw.string_eq hinv hbottom hpos
  have hmem : placed[0] ∈ placed := List.getElem_mem hpos
  have hword := (hw.stored _ hmem).block
  have hapart : sl.contents ≠ placed[0].1.contents :=
    fun heq ↦ hw.apart _ hmem ⟨hlist.pos, heq.symm⟩
  obtain ⟨i, hi⟩ := Nat.exists_eq_succ_of_ne_zero hpos.ne'
  obtain ⟨a, hk, hbottom₁, hinv₁, slot, hd⟩ := hinv.kfree_live hword
  rw [← hfirst] at hk hd
  obtain ⟨h₂, hloop, hbottom₂, hmem₂, hinv₂⟩ :=
    HeapInv.freeStrings_dead (h := ⟨a, h.mem⟩) i hinv₁ hd
  have hlive : Function.update live placed[0].1.contents none sl.contents =
      some (stringBytes * sl.capacity) := by
    rw [Function.update_of_ne hapart]
    exact hlist.block
  obtain ⟨a', hk', hbottom₃, hinv₃, -⟩ := hinv₂.kfree_live hlive
  refine ⟨⟨a', h₂.mem⟩, ?_, (hbottom₃.trans hbottom₂).trans hbottom₁, hmem₂, hinv₃⟩
  rw [freeStringList, hw.len_eq hne, hi, freeStrings, hk, ok_bind, hloop, ok_bind, hk', ok_bind]

/-- Giving back a list that was split leaves all blocks but those of its words and its own. -/
theorem Words.freeStringList_ok {placed : List (HeapString × List UInt8)}
    (hinv : HeapInv h.allocator live) (hbottom : h.allocator.bottom + scannedBits < 2 ^ 32)
    (hw : Words h live sl placed) (hne : placed ≠ []) (hf : freeStringList h sl = .ok h') :
    ∃ live', HeapInv h'.allocator live' ∧
      Frame h h' live live' fun p ↦ p = sl.contents ∨ ∃ q ∈ placed, p = q.1.contents := by
  have hpos := List.length_pos_of_ne_nil hne
  obtain ⟨h₁, hf₁, hbottom₁, hmem₁, hinv₁⟩ := hw.freeStringList_eq_ok hinv hbottom hpos
  rw [hf] at hf₁
  cases hf₁
  refine ⟨_, hinv₁, ⟨fun {p n} hp hno ↦ ?_, fun _ _ _ ↦ congrFun hmem₁ _, hbottom₁⟩⟩
  rw [not_or] at hno
  rw [Function.update_of_ne hno.1, Function.update_of_ne]
  · exact hp
  · exact fun heq ↦ hno.2 ⟨_, List.getElem_mem hpos, heq⟩

end

end Yorha.Heap
