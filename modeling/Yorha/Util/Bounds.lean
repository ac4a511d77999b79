import Yorha.Util.AllocSpec

/-!
# The ends of a bitmap

What `apply_bitrange` and `alloc_bitrange` promise for a bitmap of which the words, or the
bits, are given.

In the middle of a bitmap both keep their promises: an update changes the bits of its range
and no others (`applyBitrange_exact`), and the allocator is a first fit in the window it
scans (`allocBitrange_firstFit`).  They break them at the end.  The end of a range is
exclusive, and the loop of `apply_bitrange` visits the word it lies in, so a range that ends
where the bitmap ends takes it one word too far; and it counts words with 16 bits, so it
never gets to word 65536 (`applyBitrange_returns_iff`).  `alloc_bitrange` divides its
capacity, which is a number of bits, by the bytes of a word, so it goes on past the end
until something fits (`allocBitrange_respects_iff`).
-/

universe u

namespace Yorha.Util

open Yorha.Lib

variable {σ : Type u} [WordArray σ]

/-! ## The word loop -/

section

variable {set : Bool} {startWord startBit endWord endBit fuel w : Nat} {s s' : σ}

/-- The loop of a range with several words never ends when the last is word 65535 or one
behind it: no value of the counter is greater. -/
theorem applyWords_ne_ok (hne : startWord ≠ endWord) (hend : 65535 ≤ endWord) (hw : w < 2 ^ 16) :
    applyWords set startWord startBit endWord endBit fuel w s ≠ .ok s' := by
  induction fuel generalizing w s with
  | zero => exact fun h ↦ nomatch h
  | succ fuel ih =>
      have hle : w ≤ endWord := le_trans (Nat.le_of_lt_succ hw) hend
      rw [applyWords, if_pos hle, if_neg hne]
      intro h
      rw [bind_eq_ok] at h
      obtain ⟨s₁, -, h⟩ := h
      exact ih (Nat.mod_lt _ (Nat.two_pow_pos 16)) h

/-- The loop visits no word behind the last one of the range. -/
theorem applyWords_ne_fault (hsize : min endWord 65535 < WordArray.size σ) (hw : w < 2 ^ 16) :
    applyWords set startWord startBit endWord endBit fuel w s ≠ .error .fault := by
  induction fuel generalizing w s with
  | zero => exact fun h ↦ nomatch h
  | succ fuel ih =>
      rw [applyWords]
      split
      · rename_i hle
        have hin : w < WordArray.size σ :=
          lt_of_le_of_lt (le_min hle (Nat.le_of_lt_succ hw)) hsize
        split
        · rw [updateWord_eq hin]
          exact ok_ne_error
        · simp only [updateWord_eq hin, ok_bind]
          exact ih (Nat.mod_lt _ (Nat.two_pow_pos 16))
      · exact ok_ne_error

end

/-! ## Updates -/

/-- A range that was allocated was clear, and has been set. -/
theorem allocBitrange_range {s s' : σ} {capacity count : Nat} {wordAlign : Bool}
    {range : BitRange} (h : allocBitrange s capacity count wordAlign = .ok (range, s'))
    (hlen : 0 < range.length) :
    WordArray.Clear s range.start range.length ∧ applyBitrange s range true = .ok s' := by
  rcases Nat.eq_zero_or_pos count with rfl | hc
  · exact absurd (scanWords_zero_length h) hlen.ne'
  · rcases allocBitrange_cases s capacity wordAlign hc with
      ⟨r, hfit, rfl, he⟩ | ⟨-, -, he⟩ | ⟨-, -, he⟩
    · rw [he, bind_eq_ok] at h
      obtain ⟨t, happly, hr⟩ := h
      cases hr
      exact ⟨hfit.clear, happly⟩
    · rw [he] at h
      cases h
      exact absurd hlen (Nat.lt_irrefl 0)
    · rw [he] at h
      cases h

/-- **`apply_bitrange` is exact.**  For every bitmap, it makes the bits of a range equal to
`set` and changes no other, if the word that the range ends in is one of the bitmap and not
word 65535 or one behind it.  So to deallocate a range that was allocated restores the
bitmap. -/
theorem applyBitrange_exact {n : Nat} (bitmap : Vector Word n) :
    (∀ (range : BitRange) (set : Bool), 0 < range.length →
      (range.start + range.length) / 32 < n → (range.start + range.length) / 32 < 65535 →
      ∃ bitmap', applyBitrange bitmap range set = .ok bitmap' ∧
        WordArray.Filled bitmap bitmap' range.start range.length set) ∧
    ∀ (capacity count : Nat) (wordAlign : Bool) (range : BitRange) (bitmap' : Vector Word n),
      allocBitrange bitmap capacity count wordAlign = .ok (range, bitmap') → 0 < range.length →
      (range.start + range.length) / 32 < n → (range.start + range.length) / 32 < 65535 →
      deallocBitrange bitmap' range = .ok bitmap := by
  refine ⟨fun range set hlen hin hstop ↦ applyBitrange_spec bitmap range set hlen hstop hin, ?_⟩
  intro capacity count wordAlign range bitmap' halloc hlen hin hstop
  obtain ⟨hclear, happly⟩ := allocBitrange_range halloc hlen
  obtain ⟨filled, hfilled, hfill⟩ := applyBitrange_spec bitmap range true hlen hstop hin
  rw [happly] at hfilled
  cases hfilled
  obtain ⟨emptied, hemptied, hempty⟩ := applyBitrange_spec bitmap' range false hlen hstop hin
  rw [deallocBitrange, hemptied, vector_ext_bit (hfill.undo hclear hempty)]

/-- Three bits across a word boundary, allocated and deallocated. -/
theorem applyBitrange_exact_empty :
    (∃ bitmap' : Vector Word 2, applyBitrange (Vector.replicate 2 0) ⟨31, 3⟩ true = .ok bitmap' ∧
      WordArray.Filled (Vector.replicate 2 0) bitmap' 31 3 true) ∧
    deallocBitrange (#v[0xE0000000, 0] : Vector Word 2) ⟨0, 3⟩ = .ok (Vector.replicate 2 0) :=
  ⟨(applyBitrange_exact (Vector.replicate 2 0)).1 ⟨31, 3⟩ true (by decide) (by decide) (by decide),
    (applyBitrange_exact (Vector.replicate 2 0)).2 4 3 false ⟨0, 3⟩ #v[0xE0000000, 0] rfl
      (by decide) (by decide) (by decide)⟩

/-- **When an update ends, inside the bitmap.**  For every bitmap of at most 262144 words, the
loop of `apply_bitrange` on a range of its bits ends, and visits only words of the bitmap,
if and only if the range and its end lie in one word, or the end lies before that of the
bitmap and in a word before 65535. -/
theorem applyBitrange_returns_iff {n : Nat} (hn : n ≤ 262144) (bitmap : Vector Word n)
    (range : BitRange) (set : Bool) (hlen : 0 < range.length)
    (hin : range.start + range.length ≤ 32 * n) :
    (∃ bitmap', applyBitrange bitmap range set = .ok bitmap') ↔
      range.start / 32 = (range.start + range.length) / 32 ∨
      (range.start + range.length < 32 * n ∧ (range.start + range.length) / 32 < 65535) := by
  obtain ⟨start, length⟩ := range
  simp only at hlen hin ⊢
  constructor
  · rintro ⟨bitmap', h⟩
    by_cases heq : start / 32 = (start + length) / 32
    · exact .inl heq
    right
    have hstop : (start + length) / 32 < 65535 := by
      by_contra hge
      rw [applyBitrange_eq bitmap hlen (by omega)] at h
      exact applyWords_ne_ok heq (Nat.le_of_not_lt hge) (Nat.mod_lt _ (Nat.two_pow_pos 16)) h
    refine ⟨lt_of_le_of_ne hin fun hend ↦ ?_, hstop⟩
    -- the word that the range ends in is the one behind the last
    have hsize : WordArray.size (Vector Word n) ≤ (start + length) / 32 := by
      rw [size_vector]
      omega
    have hlast : (start + length) / 32 < 65536 := lt_trans hstop (by decide)
    rw [applyBitrange_fault bitmap ⟨start, length⟩ set hlen hlast hsize] at h
    cases h
  · rintro (heq | ⟨hend, hstop⟩)
    · have hword : start / 32 % 2 ^ 16 ≤ (start + length) / 32 :=
        le_trans (Nat.mod_le _ _) heq.le
      have hsize : start / 32 % 2 ^ 16 < WordArray.size (Vector Word n) :=
        lt_of_le_of_lt (Nat.mod_le _ _) (by rw [size_vector]; omega)
      rw [applyBitrange_eq bitmap hlen (by omega), applyFuel, applyWords, if_pos hword,
        if_pos heq, updateWord_eq hsize]
      exact ⟨_, rfl⟩
    · have hsize : (start + length) / 32 < WordArray.size (Vector Word n) := by
        rw [size_vector]
        omega
      obtain ⟨bitmap', h, -⟩ :=
        applyBitrange_spec bitmap ⟨start, length⟩ set hlen hstop hsize
      exact ⟨bitmap', h⟩

/-- The bits of one word but the last. -/
theorem applyBitrange_returns_most :
    ∃ bitmap' : Vector Word 1, applyBitrange (Vector.replicate 1 0) ⟨0, 31⟩ true = .ok bitmap' :=
  (applyBitrange_returns_iff (by decide) (Vector.replicate 1 0) ⟨0, 31⟩ true (by decide)
    (by decide)).mpr (.inl rfl)

/-- **The last bit of a bitmap cannot be updated** without a word behind it: with a bitmap of
one word, as that of the descriptors is, the loop goes on to the next. -/
theorem applyBitrange_leaves_word : 0 < 1 ∧ 31 + 1 ≤ 32 * 1 ∧
    ¬ ∃ bitmap' : Vector Word 1, applyBitrange (Vector.replicate 1 0) ⟨31, 1⟩ true =
      .ok bitmap' := by
  refine ⟨by decide, by decide, ?_⟩
  rintro ⟨bitmap', h⟩
  have hfault : applyBitrange (Vector.replicate 1 (0 : Word)) ⟨31, 1⟩ true = .error .fault := rfl
  rw [hfault] at h
  cases h

/-! ## A single bit -/

/-- The update of a single bit stays inside the words of `σ`.  The counter of words takes bit
`u` for the bit `u % 2 ^ 21`, except that the last bit of a word belongs to a range of two
words. -/
def BitInside (σ : Type u) [WordArray σ] (u : Nat) : Prop :=
  if u % 32 = 31 then u + 1 < 32 * WordArray.size σ else u % 2 ^ 21 < 32 * WordArray.size σ

instance (u : Nat) : Decidable (BitInside σ u) := inferInstanceAs (Decidable (ite _ _ _))

section

variable {s s' : σ} {u : Nat} {set : Bool}

/-- The last bit of all: its range ends in word 0, before it starts. -/
theorem applyBitrange_last (s : σ) (set : Bool) :
    applyBitrange s ⟨2 ^ 32 - 1, 1⟩ set = .ok s := by
  have hword : ¬ (2 ^ 32 - 1) / 32 % 2 ^ 16 ≤ (2 ^ 32 - 1 + 1) % 2 ^ 32 / 32 := by decide
  rw [applyBitrange, if_neg (by decide), applyFuel]
  simp only [applyWords, if_neg hword]

/-- A bit that is not the last of its word: the word is found modulo 65536. -/
theorem applyBitrange_inner [LawfulWordArray σ] (hu : u < 2 ^ 32) (hbit : u % 32 ≠ 31)
    (hin : u % 2 ^ 21 < 32 * WordArray.size σ) :
    ∃ s', applyBitrange s ⟨u, 1⟩ set = .ok s' ∧ WordArray.Filled s s' (u % 2 ^ 21) 1 set := by
  have hend : (u + 1) / 32 = u / 32 := by omega
  have hpos : (u + 1) % 32 = u % 32 + 1 := by omega
  have hword : u / 32 % 2 ^ 16 ≤ u / 32 := Nat.mod_le _ _
  have hsize : u / 32 % 2 ^ 16 < WordArray.size σ := by omega
  rw [applyBitrange_eq s Nat.one_pos (by omega), applyFuel, hend, hpos]
  simp only [applyWords, if_pos hword, if_true, updateWord_eq hsize]
  refine ⟨_, rfl, fun b ↦ ?_⟩
  have hb : b % 32 < 32 := Nat.mod_lt _ (by decide)
  rw [bit_set_applyMask s hsize, innerMask_getMsbD (Nat.lt_succ_self _) (by omega) hb]
  refine if_congr ?_ rfl rfl
  rw [decide_eq_true_eq]
  omega

/-- Outside, the update does not return. -/
theorem applyBitrange_outside (hu : u + 1 < 2 ^ 32) (hout : ¬ BitInside σ u)
    (hsize : WordArray.size σ < 65535) : applyBitrange s ⟨u, 1⟩ set ≠ .ok s' := by
  rw [BitInside] at hout
  split at hout
  · rename_i hbit
    by_cases hend : (u + 1) / 32 < 65536
    · rw [applyBitrange_fault s ⟨u, 1⟩ set Nat.one_pos hend (by change _ ≤ (u + 1) / 32; omega)]
      exact fun h ↦ nomatch h
    · rw [applyBitrange_eq s Nat.one_pos hu]
      exact applyWords_ne_ok (by omega) (by omega) (Nat.mod_lt _ (Nat.two_pow_pos 16))
  · rename_i hbit
    have hend : (u + 1) / 32 = u / 32 := by omega
    have hword : u / 32 % 2 ^ 16 ≤ u / 32 := Nat.mod_le _ _
    have hno : ¬ u / 32 % 2 ^ 16 < WordArray.size σ := by omega
    rw [applyBitrange_eq s Nat.one_pos hu, applyFuel, hend]
    simp only [applyWords, if_pos hword, if_true, updateWord, if_neg hno]
    exact fun h ↦ nomatch h

/-- **The update of a single bit**, of any 32-bit number: the last number of all is ignored;
inside the array, the bit that the counter of words makes of it is set or cleared; outside, the
update does not return. -/
theorem applyBitrange_single [LawfulWordArray σ] (hu : u < 2 ^ 32)
    (hsize : WordArray.size σ < 65535) (s : σ) (set : Bool) :
    u = 2 ^ 32 - 1 ∧ applyBitrange s ⟨u, 1⟩ set = .ok s ∨
    BitInside σ u ∧ (∃ s', applyBitrange s ⟨u, 1⟩ set = .ok s' ∧
      WordArray.Filled s s' (u % 2 ^ 21) 1 set) ∨
    ¬ (u = 2 ^ 32 - 1 ∨ BitInside σ u) ∧ ∀ s', applyBitrange s ⟨u, 1⟩ set ≠ .ok s' := by
  by_cases hlast : u = 2 ^ 32 - 1
  · subst hlast
    exact .inl ⟨rfl, applyBitrange_last s set⟩
  · by_cases hin : BitInside σ u
    · refine .inr (.inl ⟨hin, ?_⟩)
      rw [BitInside] at hin
      split at hin
      · have hmod : u % 2 ^ 21 = u := Nat.mod_eq_of_lt (by omega)
        rw [hmod]
        exact applyBitrange_spec s ⟨u, 1⟩ set Nat.one_pos (by change (u + 1) / 32 < _; omega)
          (by change (u + 1) / 32 < _; omega)
      · rename_i hbit
        exact applyBitrange_inner hu hbit hin
    · exact .inr (.inr ⟨fun h ↦ h.elim hlast hin,
        fun s' ↦ applyBitrange_outside (by omega) hin hsize⟩)

end

/-! ## The allocator -/

/-- What a first fit answers to a request for `count` bits: the first range of them that
fits, which it sets; or a range of length 0, if none fits. -/
inductive FirstFitAnswer (s : σ) (window count : Nat) (align : Bool) :
    Except Stop (BitRange × σ) → Prop
  | found {a : Nat} {s' : σ} : FirstFit s window count align a →
      WordArray.Filled s s' a count true →
      FirstFitAnswer s window count align (.ok (⟨a, count⟩, s'))
  | full {range : BitRange} : (∀ a, ¬ Fits s window count align a) → range.length = 0 →
      FirstFitAnswer s window count align (.ok (range, s))

/-- **`alloc_bitrange` is a first fit** in the window of `capacity / 4` words, for every bitmap
that is longer. -/
theorem allocBitrange_firstFit [LawfulWordArray σ] (bitmap : σ) (capacity count : Nat)
    (wordAlign : Bool) (hc : 0 < count) (hsize : capacity / 4 < WordArray.size σ)
    (hcap : capacity / 4 < 65535) :
    FirstFitAnswer bitmap (32 * (capacity / 4)) count wordAlign
      (allocBitrange bitmap capacity count wordAlign) := by
  rcases allocBitrange_cases bitmap capacity wordAlign hc with
    ⟨⟨a, length⟩, hfit, hlen, he⟩ | ⟨-, hno, he⟩ | ⟨hlt, -, -⟩
  · obtain rfl : length = count := hlen
    rw [Nat.min_eq_right hsize.le] at hfit
    have hin : a + length ≤ 32 * (capacity / 4) := hfit.inside
    have hlast : (a + length) / 32 ≤ capacity / 4 := by omega
    obtain ⟨bitmap', happly, hfill⟩ := applyBitrange_spec bitmap ⟨a, length⟩ true hc
      (lt_of_le_of_lt hlast hcap) (lt_of_le_of_lt hlast hsize)
    rw [he, happly, ok_bind]
    exact .found hfit hfill
  · rw [he]
    exact .full hno rfl
  · exact absurd hlt (Nat.not_lt.mpr hsize.le)

/-- A bitmap of two words, of which one is scanned. -/
theorem allocBitrange_firstFit_two :
    FirstFitAnswer (#v[0xC0000000, 0] : Vector Word 2) 32 3 true
      (allocBitrange (#v[0xC0000000, 0] : Vector Word 2) 4 3 true) :=
  allocBitrange_firstFit (#v[0xC0000000, 0] : Vector Word 2) 4 3 true (by decide) (by decide)
    (by decide)

/-- A request did not leave a bitmap of `capacity` bits, and the range it got lies in it. -/
def RespectsCapacity (capacity : Nat) : Except Stop (BitRange × σ) → Prop
  | .ok (range, _) => range.start + range.length ≤ capacity
  | .error stop => stop ≠ .fault

/-- **When the capacity is respected.**  For every bitmap of `capacity` bits,
`alloc_bitrange` reads only its words and gets a range that lies in it, if and only if the
bits fit somewhere and end before the last of the bitmap.  In a bitmap of 2^21 bits or more
they may also end with it: then the update never ends. -/
theorem allocBitrange_respects_iff {n : Nat} (hn : 0 < n) (hlt : 32 * n < 2 ^ 32)
    (bitmap : Vector Word n) {count : Nat} (hc : 0 < count) (wordAlign : Bool) :
    RespectsCapacity (32 * n) (allocBitrange bitmap (32 * n) count wordAlign) ↔
      ∃ a, Fits bitmap (32 * n) count wordAlign a ∧ (a + count < 32 * n ∨ 2 ^ 21 ≤ 32 * n) := by
  have hwindow : min (WordArray.size (Vector Word n)) (32 * n / 4) = n := by
    rw [size_vector]
    omega
  rcases allocBitrange_cases bitmap (32 * n) wordAlign hc with
    ⟨⟨a, length⟩, hfit, hlen, he⟩ | ⟨hle, -, -⟩ | ⟨-, hno, he⟩
  · obtain rfl : length = count := hlen
    rw [hwindow] at hfit
    have hin : a + length ≤ 32 * n := hfit.inside
    have hiff : (∃ b, Fits bitmap (32 * n) length wordAlign b ∧
        (b + length < 32 * n ∨ 2 ^ 21 ≤ 32 * n)) ↔ a + length < 32 * n ∨ 2 ^ 21 ≤ 32 * n := by
      constructor
      · rintro ⟨b, hb, hend | hlarge⟩
        · exact .inl (lt_of_le_of_lt (Nat.add_le_add_right (hfit.le hb) _) hend)
        · exact .inr hlarge
      · exact fun h ↦ ⟨a, hfit.toFits, h⟩
    rw [he, hiff]
    constructor
    · intro hrespects
      by_contra hno
      rw [not_or, Nat.not_lt, Nat.not_le] at hno
      have hsize : WordArray.size (Vector Word n) ≤ (a + length) / 32 := by
        rw [size_vector]
        omega
      have hlast : (a + length) / 32 < 65536 := by omega
      rw [applyBitrange_fault bitmap ⟨a, length⟩ true hc hlast hsize] at hrespects
      exact hrespects rfl
    · intro hend
      have hne : applyBitrange bitmap ⟨a, length⟩ true ≠ .error .fault := by
        rw [applyBitrange_eq bitmap hc (by omega)]
        refine applyWords_ne_fault ?_ (Nat.mod_lt _ (Nat.two_pow_pos 16))
        rw [size_vector]
        omega
      cases happly : applyBitrange bitmap ⟨a, length⟩ true with
      | ok bitmap' => exact hin
      | error stop =>
          rw [happly] at hne
          exact fun heq ↦ hne (congrArg Except.error heq)
  · rw [size_vector] at hle
    omega
  · rw [size_vector] at hno
    rw [he]
    refine ⟨fun h ↦ absurd rfl h, ?_⟩
    rintro ⟨a, ha, -⟩
    exact absurd ha (hno a)

/-- Ten bits of an empty bitmap. -/
theorem allocBitrange_respects_empty :
    RespectsCapacity 64 (allocBitrange (Vector.replicate 2 (0 : Word)) 64 10 false) :=
  (allocBitrange_respects_iff (by decide) (by decide) (Vector.replicate 2 0) (by decide)
    false).mpr ⟨0, ⟨fun h ↦ (nomatch h), by decide, fun k _ _ ↦ bit_replicate_zero 2 k⟩,
      .inl (by decide)⟩

/-- **A full bitmap is left**: the scan goes on in the word behind it. -/
theorem allocBitrange_leaves_full : 0 < 64 ∧ 64 % 32 = 0 ∧
    ¬ RespectsCapacity 64
      (allocBitrange (#v[0xFFFFFFFF, 0xFFFFFFFF] : Vector Word 2) 64 1 false) := by
  refine ⟨by decide, rfl, ?_⟩
  have hfault : allocBitrange (#v[0xFFFFFFFF, 0xFFFFFFFF] : Vector Word 2) 64 1 false =
      .error .fault := rfl
  rw [hfault]
  exact fun h ↦ h rfl

end Yorha.Util
