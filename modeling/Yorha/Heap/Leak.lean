import Yorha.Heap.Split

/-!
# What a split costs

`string_split` followed by `free_string_list`, as the shell does it for every command.

`Tight` says that the blocks a split leaves are those that were there before, the one of the
list and one for each word.  The first word and the list are given back, so the blocks of the
other words are lost (`Split.freeStringList_live`), and the heap is as before if and only if
there is one word, which means that no delimiter in the string ends a word
(`stringSplit_conserves_iff`).
-/

namespace Yorha.Heap

open Yorha.Lib Yorha.Str Yorha.Util

/-! ## Delimiters that end a word -/

/-- The characters before a delimiter leave it outside quotes, if quotes are reserved.  A
delimiter that is a quote itself counts. -/
def EndsWord (delim : UInt8) (reserveQuotes : Bool) (before : List UInt8) : Prop :=
  reserveQuotes = true → (before ++ [delim]).count quote % 2 = 0

/-- Some delimiter of the string ends a word. -/
def HasDelimiter (delim : UInt8) (reserveQuotes : Bool) (s : List UInt8) : Prop :=
  ∃ before after, s = before ++ delim :: after ∧ EndsWord delim reserveQuotes before

/-! ## Live entries -/

/-- The entries of the table that are in use. -/
def AllocArray.liveEntries (a : AllocArray) : Set AllocEntry :=
  {e | e.utilized = true ∧ ∃ i, a.entry i = e}

/-- The pointers that `free_string_list` passes to `kfree`, in order. -/
def freedPointers (h : KernelHeap) (sl : StringList) : List Nat :=
  List.replicate sl.len (sl.string h 0).contents ++ [sl.contents]

/-- `kfree` of each pointer in turn. -/
def kfreeAll : List Nat → KernelHeap → Except Stop KernelHeap
  | [], h => .ok h
  | p :: ps, h => do
      let allocator ← kfree h.allocator p
      kfreeAll ps ⟨allocator, h.mem⟩

/-- `free_string_list` makes the heap as it was at `h`, before the list was split off it, and
gives each block that was taken back exactly once. -/
structure Conserves (h h₁ : KernelHeap) (sl : StringList) : Prop where
  returns : ∃ h₂, freeStringList h₁ sl = .ok h₂ ∧
    h₂.allocator.bitmap = h.allocator.bitmap ∧
    h₂.allocator.liveEntries = h.allocator.liveEntries
  once : ∀ e ∈ h₁.allocator.liveEntries, e ∉ h.allocator.liveEntries →
    (freedPointers h₁ sl).count e.basePtr = 1

section

variable {a a' : AllocArray} {h h' h₀ h₁ : KernelHeap} {live live' live₀ : LiveBlocks}
  {sl sl' : StringList} {curr curr' : HeapString} {placed : List (HeapString × List UInt8)}
  {chars : List UInt8} {c : UInt8} {delim : UInt8} {reserveQuotes : Bool} {s : List UInt8}

theorem kfreeAll_append (ps qs : List Nat) (h : KernelHeap) :
    kfreeAll (ps ++ qs) h = kfreeAll ps h >>= kfreeAll qs := by
  induction ps generalizing h with
  | nil => rfl
  | cons p ps ih =>
      rw [List.cons_append, kfreeAll, kfreeAll, bind_assoc]
      refine bind_congr fun a ↦ ?_
      exact ih _

theorem freeStrings_eq_kfreeAll (sl : StringList) (i : Nat) (h : KernelHeap) :
    freeStrings sl i h = kfreeAll (List.replicate i (sl.string h 0).contents) h := by
  induction i generalizing h with
  | zero => rfl
  | succ i ih =>
      rw [freeStrings, List.replicate_succ, kfreeAll]
      refine bind_congr fun a ↦ ?_
      exact ih _

/-- `free_string_list` is `kfree` of these pointers. -/
theorem freeStringList_eq_kfreeAll (h : KernelHeap) (sl : StringList) :
    freeStringList h sl = kfreeAll (freedPointers h sl) h := by
  rw [freeStringList, freedPointers, kfreeAll_append, freeStrings_eq_kfreeAll]
  rfl

/-- The tables determine what is live. -/
theorem HeapInv.live_unique (hinv : HeapInv a live) (hinv' : HeapInv a live') : live = live' := by
  funext p
  ext n
  rw [hinv.live, hinv'.live]

/-- The entries in use are the live blocks. -/
theorem HeapInv.mem_liveEntries (hinv : HeapInv a live) (e : AllocEntry) :
    e ∈ a.liveEntries ↔ live e.basePtr = some e.range.length ∧
      e.basePtr = a.bottom + e.range.start ∧ e.utilized = true := by
  constructor
  · rintro ⟨hu, i, rfl⟩
    exact ⟨(hinv.live _ _).mpr ⟨i, hu, rfl, rfl⟩, hinv.base hu, hu⟩
  · rintro ⟨hlive, hbase, hu⟩
    obtain ⟨i, hi, hp, hn⟩ := (hinv.live _ _).mp hlive
    have hstart : (a.entry i).range.start = e.range.start := by
      have hb := hinv.base hi
      rw [hp, hbase] at hb
      exact (Nat.add_left_cancel hb).symm
    obtain ⟨basePtr, ⟨start, length⟩, utilized⟩ := e
    refine ⟨hu, i, ?_⟩
    cases hentry : a.entry i with
    | mk basePtr' range' utilized' =>
        rw [hentry] at hi hp hn hstart
        obtain ⟨start', length'⟩ := range'
        simp only at hi hp hn hstart hu
        rw [hi, hp, hn, hstart, hu]

/-- Heaps with the same live blocks in the same place have the same bitmap and the same
entries in use. -/
theorem HeapInv.tables_eq (hinv : HeapInv a live) (hinv' : HeapInv a' live)
    (hbottom : a'.bottom = a.bottom) :
    a'.bitmap = a.bitmap ∧ a'.liveEntries = a.liveEntries := by
  constructor
  · refine vector_ext_bit fun k ↦ Bool.eq_iff_iff.mpr ?_
    have hblocks := (HeapInv.blocksInOrder (s := ⟨⟨a, fun _ ↦ 0⟩, live⟩) hinv).bits k
    have hblocks' := (HeapInv.blocksInOrder (s := ⟨⟨a', fun _ ↦ 0⟩, live⟩) hinv').bits k
    simp only [hbottom] at hblocks'
    exact hblocks'.trans hblocks.symm
  · ext e
    rw [hinv.mem_liveEntries, hinv'.mem_liveEntries, hbottom]

/-! ## Number of words -/

/-- A quote before the rest of the string, seen from inside a string or outside. -/
theorem count_quote_cons (c : UInt8) (rest : List UInt8) (inString : Bool) :
    ((c :: rest).count quote + inString.toNat) % 2 =
      (rest.count quote + (if c = quote then !inString else inString).toNat) % 2 := by
  rw [List.count_cons]
  by_cases hc : c = quote
  · rw [if_pos (beq_iff_eq.mpr hc), if_pos hc]
    cases inString with
    | false => rfl
    | true => exact Nat.add_mod_right _ 2
  · rw [if_neg (mt beq_iff_eq.mp hc), if_neg hc, Nat.add_zero]

/-- There are several words if and only if a delimiter ends one. -/
theorem one_lt_length_splitWords (delim : UInt8) (reserveQuotes inString : Bool)
    (s : List UInt8) : 1 < (splitWords delim reserveQuotes inString s).length ↔
      ∃ before after, s = before ++ delim :: after ∧
        (reserveQuotes = true → ((before ++ [delim]).count quote + inString.toNat) % 2 = 0) := by
  induction s generalizing inString with
  | nil =>
      refine ⟨fun hlt ↦ absurd hlt (Nat.lt_irrefl 1), ?_⟩
      rintro ⟨before, after, heq, -⟩
      exact absurd heq.symm (List.append_ne_nil_of_right_ne_nil _ (List.cons_ne_nil _ _))
  | cons c s ih =>
      have hcount := fun rest ↦ count_quote_cons c rest inString
      rw [splitWords]
      generalize (if c = quote then !inString else inString) = inString' at hcount ⊢
      split
      · -- the first character is a delimiter that ends a word
        rename_i hdelim
        obtain ⟨rfl, hout⟩ := hdelim
        have hpos := List.length_pos_of_ne_nil
          (splitWords_ne_nil c reserveQuotes inString' s)
        refine ⟨fun _ ↦ ⟨[], s, rfl, fun hreserve ↦ ?_⟩, fun _ ↦ Nat.succ_lt_succ hpos⟩
        rw [List.nil_append, hcount]
        rw [hreserve, Bool.not_true, Bool.or_false, Bool.not_eq_true'] at hout
        rw [hout]
        rfl
      · rename_i hother
        rw [List.length_modifyHead, ih]
        constructor
        · rintro ⟨before, after, rfl, heven⟩
          refine ⟨c :: before, after, rfl, fun hreserve ↦ ?_⟩
          rw [List.cons_append, hcount]
          exact heven hreserve
        · rintro ⟨before, after, heq, heven⟩
          cases before with
          | nil =>
              -- the first character would have ended a word
              obtain ⟨rfl, rfl⟩ := List.cons.inj heq
              rw [List.nil_append, hcount] at heven
              refine absurd ⟨rfl, ?_⟩ hother
              cases reserveQuotes with
              | false => exact Bool.or_true _
              | true =>
                  cases inString' with
                  | false => rfl
                  | true => exact absurd (heven rfl) (by decide)
          | cons d before =>
              obtain ⟨rfl, rfl⟩ := List.cons.inj heq
              refine ⟨before, after, rfl, fun hreserve ↦ ?_⟩
              rw [← hcount]
              exact heven hreserve

theorem hasDelimiter_iff (delim : UInt8) (reserveQuotes : Bool) (s : List UInt8) :
    HasDelimiter delim reserveQuotes s ↔ 1 < (splitWords delim reserveQuotes false s).length :=
  (one_lt_length_splitWords delim reserveQuotes false s).symm

/-! ## Where the blocks go -/

/-- What `APPEND` does to the live blocks. -/
theorem append_live {bytes bytes' : List UInt8} {size : Nat} (hinv : HeapInv h.allocator live)
    (hinv' : HeapInv h'.allocator live') (hsize : bytes.length = size) (hc : 0 < size)
    (hlt : 2 * size < 2 ^ 32) (hs : Holds h live size curr bytes')
    (ha : append h curr bytes = .ok (curr', h')) : BlockMoved live live' curr curr' := by
  obtain ⟨live'', happended, hmoved⟩ := append_spec hinv hsize hc hlt hs ha
  obtain rfl := HeapInv.live_unique hinv' happended.inv
  exact hmoved

/-- Only the list, the word that is built and the words so far have blocks that were not live,
each one of its own. -/
structure Tight (live₀ live : LiveBlocks) (sl : StringList) (curr : HeapString)
    (placed : List (HeapString × List UInt8)) : Prop where
  only : ∀ p, live p ≠ live₀ p → sl.Owns p ∨ curr.Owns p ∨ ∃ q ∈ placed, p = q.1.contents
  distinct : (placed.map fun p ↦ p.1.contents).Nodup

/-- One more character of the word. -/
theorem Tight.push (ht : Tight live₀ live sl curr placed)
    (hs : Splitting h₀ live₀ h live sl curr placed chars)
    (hs' : Splitting h₀ live₀ h' live' sl curr' placed (chars ++ [c]))
    (ha : append h curr [c] = .ok (curr', h')) : Tight live₀ live' sl curr' placed where
  only := by
    intro p hp
    rcases append_live hs.inv hs'.inv List.length_singleton Nat.one_pos (by decide) hs.holds ha p
      with hown | ⟨hown, hnone⟩ | ⟨hno, heq⟩
    · exact .inr (.inl hown)
    · -- the block that was given up had not been live
      have hold : live₀ p = none := Option.eq_none_iff_forall_ne_some.mpr
        fun n hn ↦ (hs.old hn).2 hown
      exact absurd (hnone.trans hold.symm) hp
    · rw [heq] at hp
      rcases ht.only p hp with hsl | hown | hword
      · exact .inl hsl
      · exact absurd hown hno
      · exact .inr (.inr hword)
  distinct := ht.distinct

/-- The end of a word. -/
theorem Tight.endWord (ht : Tight live₀ live sl curr placed)
    (hs : Splitting h₀ live₀ h live sl curr placed (chars ++ [0])) (hcap : 0 < curr.capacity)
    (hs' : Splitting h₀ live₀ h' live' sl' { curr with capacity := 0 } (placed ++ [(curr, chars)])
      [])
    (ha : append h sl curr.bytes = .ok (sl', h')) :
    Tight live₀ live' sl' { curr with capacity := 0 } (placed ++ [(curr, chars)]) where
  only := by
    intro p hp
    rcases append_live hs.inv hs'.inv curr.length_bytes (by decide) (by decide) hs.words.list ha p
      with hown | ⟨hown, hnone⟩ | ⟨hno, heq⟩
    · exact .inl hown
    · have hold : live₀ p = none := Option.eq_none_iff_forall_ne_some.mpr
        fun n hn ↦ (hs.old hn).1 hown
      exact absurd (hnone.trans hold.symm) hp
    · rw [heq] at hp
      rcases ht.only p hp with hsl | hown | ⟨q, hq, hword⟩
      · exact absurd hsl hno
      · exact .inr (.inr ⟨_, List.mem_append_right _ (List.mem_singleton.mpr rfl), hown.2⟩)
      · exact .inr (.inr ⟨q, List.mem_append_left _ hq, hword⟩)
  distinct := by
    rw [List.map_append, List.map_singleton, List.nodup_append]
    refine ⟨ht.distinct, List.nodup_singleton _, ?_⟩
    rintro _ hmem _ hlast rfl
    obtain ⟨q, hq, heq⟩ := List.mem_map.mp hmem
    exact hs.wordApart q hq ⟨hcap, heq.trans (List.mem_singleton.mp hlast)⟩

/-- The two steps of `string_split` keep `Tight`. -/
theorem tight_rule (h₀ : KernelHeap) (live₀ : LiveBlocks) :
    SplitRule fun h sl curr words chars ↦ ∃ live placed,
      Splitting h₀ live₀ h live sl curr placed chars ∧ Tight live₀ live sl curr placed ∧
      placed.map Prod.snd = words where
  push := by
    rintro h h' sl curr curr' words chars c ⟨live, placed, hs, ht, hwords⟩ ha
    obtain ⟨hlen, hcap, live', hs'⟩ := hs.push ha
    exact ⟨hlen, hcap, live', placed, hs', ht.push hs hs' ha, hwords⟩
  endWord := by
    rintro h h' sl sl' curr words chars ⟨live, placed, hs, ht, hwords⟩ hcap ha
    obtain ⟨live', hs'⟩ := hs.endWord hcap ha
    exact ⟨live', _, hs', ht.endWord hs hcap hs' ha, by rw [List.map_append, hwords]; rfl⟩

/-- A split leaves no block but that of the list and one for each word. -/
theorem stringSplit_tight (hinv : HeapInv h.allocator live) (hne : s ≠ [])
    (hs : stringSplit h s delim reserveQuotes = .ok (sl, h')) : ∃ live' placed,
      Split h h' live live' sl placed ∧ Tight live live' sl .zero placed ∧
      placed.map Prod.snd = splitWords delim reserveQuotes false s := by
  obtain ⟨curr, live', placed, hs', ht, hwords⟩ := (tight_rule h live).stringSplit
    ⟨live, [], splitting_start hinv, ⟨fun p hp ↦ absurd rfl hp, List.nodup_nil⟩, rfl⟩ hne hs
  refine ⟨live', placed, ⟨hs'.inv, hs'.frame, hs'.words, fun hp ↦ (hs'.old hp).1, hs'.oldWords⟩,
    ⟨fun p hp ↦ ?_, ht.distinct⟩, hwords⟩
  rcases ht.only p hp with hsl | hown | hword
  · exact .inl hsl
  · exact absurd hown.1 (Nat.lt_irrefl 0)
  · exact .inr (.inr hword)

/-! ## Giving the words back -/

/-- A block of a word or of the list was not live before. -/
theorem Split.live_eq_none (hsp : Split h h' live live' sl placed) {p : Nat}
    (hp : sl.Owns p ∨ ∃ q ∈ placed, p = q.1.contents) : live p = none := by
  refine Option.eq_none_iff_forall_ne_some.mpr fun n hn ↦ ?_
  rcases hp with hown | ⟨q, hq, heq⟩
  · exact hsp.old hn hown
  · exact hsp.oldWords hn q hq heq

/-- **What is lost**: after `string_split` and `free_string_list`, the blocks of the words but
the first are still live, and others are as before. -/
theorem Split.freeStringList_live {word : HeapString × List UInt8}
    {words : List (HeapString × List UInt8)} (hsp : Split h h' live live' sl (word :: words))
    (ht : Tight live live' sl .zero (word :: words))
    (hbottom : h.allocator.bottom + scannedBits < 2 ^ 32) :
    ∃ h₂ live₂, freeStringList h' sl = .ok h₂ ∧ HeapInv h₂.allocator live₂ ∧
      h₂.allocator.bottom = h.allocator.bottom ∧
      (∀ q ∈ words, live₂ q.1.contents = some q.1.capacity) ∧
      ∀ p, (∀ q ∈ words, p ≠ q.1.contents) → live₂ p = live p := by
  rw [← hsp.frame.bottom] at hbottom
  obtain ⟨h₂, hf, hbottom₂, -, hinv₂⟩ :=
    hsp.words.freeStringList_eq_ok hsp.inv hbottom (Nat.succ_pos words.length)
  have hlist := hsp.words.stored_list (List.cons_ne_nil word words)
  have hdistinct := List.nodup_cons.mp ht.distinct
  refine ⟨h₂, _, hf, hinv₂, hbottom₂.trans hsp.frame.bottom, fun q hq ↦ ?_, fun p hp ↦ ?_⟩
  · have hmem : q ∈ word :: words := List.mem_cons_of_mem _ hq
    have hblock := (hsp.words.stored q hmem).block
    rw [Nat.one_mul] at hblock
    rw [Function.update_of_ne fun heq ↦ hsp.words.apart q hmem ⟨hlist.pos, heq⟩]
    refine (Function.update_of_ne (fun heq ↦ ?_) _ _).trans hblock
    exact hdistinct.1 (List.mem_map.mpr ⟨q, hq, heq⟩)
  · by_cases hsl : p = sl.contents
    · subst hsl
      rw [Function.update_self, hsp.live_eq_none (.inl ⟨hlist.pos, rfl⟩)]
    rw [Function.update_of_ne hsl]
    by_cases hword : p = word.1.contents
    · subst hword
      rw [hsp.live_eq_none (.inr ⟨word, List.mem_cons_self, rfl⟩)]
      exact Function.update_self _ _ _
    · refine (Function.update_of_ne hword _ _).trans (by_contra fun hne ↦ ?_)
      rcases ht.only p hne with hown | hown | ⟨q, hq, heq⟩
      · exact hsl hown.2
      · exact not_owns_zero p hown
      · rcases List.mem_cons.mp hq with rfl | hq
        · exact hword heq
        · exact hp q hq heq

/-- A split into one word is undone. -/
theorem Split.conserves {word : HeapString × List UInt8} (hinv : HeapInv h.allocator live)
    (hsp : Split h h' live live' sl [word]) (ht : Tight live live' sl .zero [word])
    (hbottom : h.allocator.bottom + scannedBits < 2 ^ 32) : Conserves h h' sl where
  returns := by
    obtain ⟨h₂, live₂, hf, hinv₂, hbottom₂, -, hrest⟩ := hsp.freeStringList_live ht hbottom
    have heq : live₂ = live := funext fun p ↦ hrest p fun q hq ↦ absurd hq List.not_mem_nil
    rw [heq] at hinv₂
    exact ⟨h₂, hf, hinv.tables_eq hinv₂ hbottom₂⟩
  once := by
    intro e he hold
    rw [hsp.inv.mem_liveEntries] at he
    rw [hinv.mem_liveEntries, ← hsp.frame.bottom] at hold
    obtain ⟨hlive, hrest⟩ := he
    have hne : live' e.basePtr ≠ live e.basePtr := fun heq ↦ hold ⟨heq ▸ hlive, hrest⟩
    have hlist := hsp.words.stored_list (List.cons_ne_nil word [])
    have hapart : word.1.contents ≠ sl.contents := fun heq ↦
      hsp.words.apart word List.mem_cons_self ⟨hlist.pos, heq⟩
    have hstring := hsp.words.string_eq hsp.inv (hsp.frame.bottom ▸ hbottom) Nat.one_pos
    have hfreed : freedPointers h' sl = [word.1.contents, sl.contents] := by
      rw [freedPointers, hsp.words.len_eq (List.cons_ne_nil word []), hstring]
      rfl
    rw [hfreed]
    rcases ht.only _ hne with hown | hown | ⟨q, hq, heq⟩
    · rw [hown.2, List.count_cons_of_ne hapart, List.count_singleton_self]
    · exact absurd hown (not_owns_zero _)
    · obtain rfl := List.mem_singleton.mp hq
      rw [heq, List.count_cons_self, List.count_singleton, if_neg (by simpa using hapart.symm)]

/-- A split into several words is not. -/
theorem Split.not_conserves {word word' : HeapString × List UInt8}
    {words : List (HeapString × List UInt8)} (hinv : HeapInv h.allocator live)
    (hsp : Split h h' live live' sl (word :: word' :: words))
    (ht : Tight live live' sl .zero (word :: word' :: words))
    (hbottom : h.allocator.bottom + scannedBits < 2 ^ 32) : ¬ Conserves h h' sl := by
  rintro ⟨⟨h₃, hf₃, -, hentries⟩, -⟩
  obtain ⟨h₂, live₂, hf₂, hinv₂, -, hlost, -⟩ := hsp.freeStringList_live ht hbottom
  rw [hf₃] at hf₂
  cases hf₂
  -- the entry of the second word
  obtain ⟨i, hi, hbase, hlen⟩ := (hinv₂.live _ _).mp (hlost word' List.mem_cons_self)
  have hmem : h₃.allocator.entry i ∈ h₃.allocator.liveEntries := ⟨hi, i, rfl⟩
  rw [hentries, hinv.mem_liveEntries, hbase] at hmem
  have hnone := hsp.live_eq_none (.inr ⟨word', List.mem_cons_of_mem _ List.mem_cons_self, rfl⟩)
  rw [hmem.1] at hnone
  cases hnone

/-- **When a split is undone**: for every string that is not empty and every heap that it fits
in, `string_split` and `free_string_list` leave the heap as it was, with each block given
back once, if and only if no delimiter in the string ends a word. -/
theorem stringSplit_conserves_iff (hinv : HeapInv h.allocator live)
    (hbottom : h.allocator.bottom + scannedBits < 2 ^ 32) (hne : s ≠ [])
    (hs : stringSplit h s delim reserveQuotes = .ok (sl, h')) :
    Conserves h h' sl ↔ ¬ HasDelimiter delim reserveQuotes s := by
  obtain ⟨live', placed, hsp, ht, hwords⟩ := stringSplit_tight hinv hne hs
  have hlen := congrArg List.length hwords
  rw [List.length_map] at hlen
  rw [hasDelimiter_iff, ← hlen]
  rcases placed with _ | ⟨word, _ | ⟨word', words⟩⟩
  · have hpos := List.length_pos_of_ne_nil (splitWords_ne_nil delim reserveQuotes false s)
    exact absurd hlen hpos.ne
  · exact ⟨fun _ ↦ Nat.lt_irrefl 1, fun _ ↦ hsp.conserves hinv ht hbottom⟩
  · refine ⟨fun hc ↦ absurd hc (hsp.not_conserves hinv ht hbottom), fun hno ↦ ?_⟩
    exact absurd (Nat.succ_lt_succ (Nat.succ_pos words.length)) hno

end

/-- Command lines of up to two words fit in a heap that is empty. -/
theorem stringSplit_returns {s : List UInt8} (hs : s ∈ [[108, 115], [108, 115, 32, 97]]) :
    ∃ sl h', stringSplit (HeapState.initial 0x400000 fun _ ↦ 0).heap s 32 true = .ok (sl, h') := by
  have hcheck : ∀ s ∈ ([[108, 115], [108, 115, 32, 97]] : List (List UInt8)),
      (stringSplit (HeapState.initial 0x400000 fun _ ↦ 0).heap s 32 true).toOption.isSome =
        true := by
    decide +kernel
  obtain ⟨⟨sl, h'⟩, hr⟩ := Option.isSome_iff_exists.mp (hcheck s hs)
  exact ⟨sl, h', toOption_eq_some.mp hr⟩

/-- The one word `ls`. -/
theorem stringSplit_conserves_word : ∃ sl h', stringSplit
    (HeapState.initial 0x400000 fun _ ↦ 0).heap [108, 115] 32 true = .ok (sl, h') ∧
    Conserves (HeapState.initial 0x400000 fun _ ↦ 0).heap h' sl := by
  obtain ⟨sl, h', hs⟩ := stringSplit_returns (List.mem_cons_self (l := [[108, 115, 32, 97]]))
  refine ⟨sl, h', hs, ?_⟩
  refine (stringSplit_conserves_iff (HeapInv.initial 0x400000) (by decide) (by decide) hs).mpr ?_
  rw [hasDelimiter_iff]
  decide

/-- **Two words are not undone**: after `ls a` the block of the `a` is lost. -/
theorem stringSplit_leaks : ∃ sl h', stringSplit
    (HeapState.initial 0x400000 fun _ ↦ 0).heap [108, 115, 32, 97] 32 true = .ok (sl, h') ∧
    ¬ Conserves (HeapState.initial 0x400000 fun _ ↦ 0).heap h' sl := by
  obtain ⟨sl, h', hs⟩ := stringSplit_returns (s := [108, 115, 32, 97])
    (List.mem_cons_of_mem _ List.mem_cons_self)
  refine ⟨sl, h', hs, ?_⟩
  have hinv : HeapInv (HeapState.initial 0x400000 fun _ ↦ 0).heap.allocator fun _ ↦ none :=
    HeapInv.initial 0x400000
  obtain ⟨live', placed, hsp, ht, hwords⟩ := stringSplit_tight hinv (by decide) hs
  have hlen := congrArg List.length hwords
  rcases placed with _ | ⟨word, _ | ⟨word', words⟩⟩
  · cases hlen
  · cases hlen
  · exact hsp.not_conserves hinv ht (by decide)

end Yorha.Heap
