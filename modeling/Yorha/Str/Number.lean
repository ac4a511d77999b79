import Mathlib.Data.Nat.Bitwise
import Yorha.Lib.Numeral
import Yorha.Str.Basic

/-!
# Numbers as text

The functions of `string.c` that write numbers into an array of characters, as the code computes
them.  A `CharArray` is such an array with the bytes behind it, and remembers up to where it was
used.

`int_to_string` computes with truncating division, so the digits of a negative number are
negative, and so are the differences to the character `0`: what it writes is the numeral of the
number exactly if it is not negative (`rendersDecimal_iff`).  `buff_to_binstring` does not move
on in the array that it writes, so of several words only the last one is left (`dumps_iff`).
-/

namespace Yorha.Str

open Yorha.Lib

/-! ## Arrays of characters -/

/-- An array, and the bytes behind it. -/
structure CharArray where
  size : Nat
  bytes : Bytes
  /-- One more than the highest index that was used. -/
  used : Nat := 0

namespace CharArray

/-- `a[i] = c`. -/
def store (a : CharArray) (i : Nat) (c : UInt8) : CharArray :=
  { a with bytes := Function.update a.bytes i c, used := max a.used (i + 1) }

/-- Characters stored from the start on. -/
def stores (a : CharArray) (l : List UInt8) : CharArray :=
  { a with bytes := a.bytes.splice 0 l, used := max a.used l.length }

/-- No index behind the array was used. -/
def Inside (a : CharArray) : Prop := a.used ≤ a.size

theorem stores_nil (a : CharArray) : a.stores [] = a := by
  rw [stores, Bytes.splice_nil, List.length_nil, Nat.max_eq_left (Nat.zero_le _)]

/-- Storing behind what was stored. -/
theorem store_stores (a : CharArray) (l : List UInt8) (c : UInt8) :
    (a.stores l).store l.length c = a.stores (l ++ [c]) := by
  have hbytes : Function.update (a.bytes.splice 0 l) l.length c = a.bytes.splice 0 (l ++ [c]) := by
    rw [Bytes.update_eq_splice, ← Bytes.splice_append, Nat.zero_add]
  have hused : max (max a.used l.length) (l.length + 1) = max a.used (l.length + 1) := by omega
  rw [store, stores, stores, hbytes, hused, List.length_append, List.length_singleton]

/-- Storing over what was stored. -/
theorem stores_stores (a : CharArray) {l l' : List UInt8} (h : l.length = l'.length) :
    (a.stores l).stores l' = a.stores l' := by
  have hused : max (max a.used l.length) l'.length = max a.used l'.length := by omega
  rw [stores, stores, stores, Bytes.splice_splice _ _ (Nat.le_of_eq h), hused]

theorem take_stores (a : CharArray) (l : List UInt8) : (a.stores l).bytes.take l.length = l := by
  have htake := Bytes.take_splice a.bytes 0 l
  rwa [Bytes.drop_zero] at htake

end CharArray

/-! ## Hexadecimal and binary digits -/

/-- `nib_to_hex`. -/
def nibToHex : List UInt8 := ofText "0123456789ABCDEF"

/-- `((uint32_t*)src)[word]`. -/
def wordAt (src : Bytes) (word : Nat) : Nat := (src.drop (4 * word)).word

/-- The inner loop of `buff_to_hexstring`, over the lowest `n` bytes of a word. -/
def hexBytes (w : Nat) : Nat → Nat × CharArray → Nat × CharArray
  | 0, s => s
  | byte + 1, (dst, a) =>
      let top := w >>> (byte * 8 + 4) &&& 0xF
      let bottom := w >>> (byte * 8) &&& 0xF
      let a := a.store dst (nibToHex.getD top 0)
      let a := a.store (dst + 1) (nibToHex.getD bottom 0)
      hexBytes w byte (dst + 2, a)

/-- The outer loop, over `n` more words from number `word` on. -/
def hexWords (src : Bytes) : Nat → Nat → Nat × CharArray → Nat × CharArray
  | 0, _, s => s
  | n + 1, word, s => hexWords src n (word + 1) (hexBytes (wordAt src word) 4 s)

/-- `buff_to_hexstring`. -/
def buffToHexstring (src : Bytes) (dst : CharArray) (count : Nat) : CharArray :=
  (hexWords src (count / 4) 0 (0, dst)).2

/-- The inner loop of `buff_to_binstring`, over the first `n` bits of a word. -/
def binBits (copy : Nat) (dst : CharArray) : Nat → CharArray
  | 0 => dst
  | bit + 1 =>
      (binBits copy dst bit).store bit (if copy &&& 1 <<< (31 - bit) ≠ 0 then 49 else 48)

/-- The outer loop, over `n` more words from number `word` on. -/
def binWords (src : Bytes) : Nat → Nat → CharArray → CharArray
  | 0, _, dst => dst
  | n + 1, word, dst => binWords src n (word + 1) (binBits (wordAt src word) dst 32)

/-- `buff_to_binstring`. -/
def buffToBinstring (src : Bytes) (dst : CharArray) (count : Nat) : CharArray :=
  binWords src (count / 4) 0 dst

/-! ## Decimal digits -/

/-- An integer converted to `char`. -/
def toChar (n : Int) : UInt8 := UInt8.ofNat (n % 2 ^ 8).toNat

/-- Every division leaves a smaller number. -/
theorem natAbs_tdiv_lt {value : Int} (h : value.tdiv 10 ≠ 0) :
    (value.tdiv 10).natAbs < value.natAbs := by
  have hpos : 0 < value.natAbs := by
    rw [Int.natAbs_pos]
    rintro rfl
    exact h rfl
  rw [Int.natAbs_tdiv]
  exact Nat.div_lt_self hpos (by decide)

/-- The loop of `intlen`. -/
def intlenLoop (i : Nat) (value : Int) : Nat :=
  if value.tdiv 10 = 0 then i + 1 else intlenLoop (i + 1) (value.tdiv 10)
termination_by value.natAbs
decreasing_by exact natAbs_tdiv_lt ‹_›

/-- `intlen`. -/
def intlen (value : Int) : Nat := intlenLoop (if value < 0 then 1 else 0) value

/-- The loop of `int_to_string`, which stores the digits from the last to the first. -/
def digitLoop (i : Nat) (value : Int) (buffer : CharArray) : CharArray :=
  let buffer := buffer.store (i - 1) (toChar (48 + value.tmod 10))
  if value.tdiv 10 = 0 then buffer else digitLoop (i - 1) (value.tdiv 10) buffer
termination_by value.natAbs
decreasing_by exact natAbs_tdiv_lt ‹_›

/-- `int_to_string`. -/
def intToString (value : Int) (buffer : CharArray) : CharArray :=
  let i := intlen value
  let buffer := if value < 0 then buffer.store 0 45 else buffer
  digitLoop i value (buffer.store i 0)

/-! ## Reading numbers -/

/-- The digit of a decimal numeral that a character is. -/
def decimalDigit (c : UInt8) : Option Nat := (ofText "0123456789").idxOf? c

/-- The digit of a hexadecimal numeral that a character is. -/
def hexDigit (c : UInt8) : Option Nat := nibToHex.idxOf? c

/-- The digit of a binary numeral that a character is. -/
def binDigit (c : UInt8) : Option Nat := (ofText "01").idxOf? c

/-- The number that a text of decimal digits stands for. -/
def parseNat (s : List UInt8) : Option Nat :=
  if s = [] then none else (Numeral.readDigits decimalDigit s).map (Numeral.value 10)

/-- The number that a text of decimal digits stands for, with or without a sign. -/
def parseInt : List UInt8 → Option Int
  | [] => none
  | c :: s => if c = 45 then (parseNat s).map fun n ↦ -n else (parseNat (c :: s)).map fun n ↦ n

/-- The text is the numeral of the number: it stands for it, and has no 0 in front. -/
structure IsNumeral (s : List UInt8) (value : Int) : Prop where
  parse : parseInt s = some value
  no_zero : (if s.head? = some 45 then s.tail else s).head? = some 48 → s = [48]

/-! ## What `int_to_string` writes -/

section

variable {sign : Int} {n i : Nat} {value : Int} {a : CharArray}

/-- The sign that a number is written with. -/
def signOf (value : Int) : Int := if value < 0 then -1 else 1

/-- The character for a digit of a number with this sign. -/
def digitChar (sign : Int) (d : Nat) : UInt8 := toChar (48 + sign * d)

/-- The digits that `int_to_string` writes for a number with this sign. -/
def digitText (sign : Int) (n : Nat) : List UInt8 :=
  (Numeral.shortest 10 n).map (digitChar sign)

/-- What `int_to_string` writes. -/
def numberText (value : Int) : List UInt8 :=
  (if value < 0 then [45] else []) ++ digitText (signOf value) value.natAbs

theorem signOf_eq (value : Int) : signOf value = 1 ∨ signOf value = -1 := by
  rw [signOf]
  split
  · exact .inr rfl
  · exact .inl rfl

theorem signOf_mul_natAbs (value : Int) : signOf value * (value.natAbs : Int) = value := by
  rw [signOf]
  split
  · omega
  · omega

theorem tdiv_sign (hs : sign = 1 ∨ sign = -1) (n : Nat) :
    (sign * n).tdiv 10 = sign * (n / 10 : Nat) := by
  rcases hs with rfl | rfl
  · rw [Int.one_mul, Int.one_mul]
    rfl
  · rw [Int.neg_one_mul, Int.neg_one_mul, Int.neg_tdiv]
    rfl

theorem tmod_sign (hs : sign = 1 ∨ sign = -1) (n : Nat) :
    (sign * n).tmod 10 = sign * (n % 10 : Nat) := by
  rcases hs with rfl | rfl
  · rw [Int.one_mul, Int.one_mul]
    rfl
  · rw [Int.neg_one_mul, Int.neg_one_mul, Int.neg_tmod]
    rfl

/-- The loops end behind the last digit. -/
theorem tdiv_sign_eq_zero (hs : sign = 1 ∨ sign = -1) : (sign * n).tdiv 10 = 0 ↔ n < 10 := by
  rw [tdiv_sign hs]
  rcases hs with rfl | rfl
  · rw [Int.one_mul]
    omega
  · rw [Int.neg_one_mul]
    omega

theorem digitText_of_lt (h : n < 10) : digitText sign n = [digitChar sign n] := by
  rw [digitText, Numeral.shortest_of_lt h, List.map_singleton]

theorem digitText_of_le (h : 10 ≤ n) :
    digitText sign n = digitText sign (n / 10) ++ [digitChar sign (n % 10)] := by
  rw [digitText, Numeral.shortest_of_le (by decide) h, List.map_append, List.map_singleton,
    digitText]

theorem digitText_ne_nil (sign : Int) (n : Nat) : digitText sign n ≠ [] := by
  rw [digitText, Ne, List.map_eq_nil_iff]
  exact Numeral.shortest_ne_nil 10 n

theorem intlenLoop_eq (hs : sign = 1 ∨ sign = -1) (n i : Nat) :
    intlenLoop i (sign * n) = i + (digitText sign n).length := by
  induction n using Nat.strongRecOn generalizing i with
  | ind n ih =>
      rw [intlenLoop]
      by_cases hn : n < 10
      · rw [if_pos ((tdiv_sign_eq_zero hs).mpr hn), digitText_of_lt hn]
        rfl
      · rw [if_neg (mt (tdiv_sign_eq_zero hs).mp hn), tdiv_sign hs, ih (n / 10) (by omega),
          digitText_of_le (Nat.le_of_not_lt hn), List.length_append, List.length_singleton]
        omega

/-- `intlen` is the length of the text. -/
theorem intlen_eq (value : Int) : intlen value = (numberText value).length := by
  have hloop := intlenLoop_eq (signOf_eq value) value.natAbs (if value < 0 then 1 else 0)
  rw [signOf_mul_natAbs] at hloop
  rw [intlen, hloop, numberText, List.length_append]
  split
  · rfl
  · rfl

/-- **The loop of `int_to_string`** stores the digits in front of index `i`. -/
theorem digitLoop_eq (hs : sign = 1 ∨ sign = -1) (a : CharArray)
    (hi : (digitText sign n).length ≤ i) : digitLoop i (sign * n) a =
      { a with
        bytes := a.bytes.splice (i - (digitText sign n).length) (digitText sign n)
        used := max a.used i } := by
  induction n using Nat.strongRecOn generalizing i a with
  | ind n ih =>
      rw [digitLoop, tmod_sign hs]
      have hpos : 0 < (digitText sign n).length :=
        List.length_pos_of_ne_nil (digitText_ne_nil sign n)
      have hused : max a.used (i - 1 + 1) = max a.used i := by
        rw [Nat.sub_add_cancel (by omega)]
      by_cases hn : n < 10
      · rw [if_pos ((tdiv_sign_eq_zero hs).mpr hn), Nat.mod_eq_of_lt hn, digitText_of_lt hn,
          CharArray.store, Bytes.update_eq_splice, hused]
        rfl
      · have hle : 10 ≤ n := Nat.le_of_not_lt hn
        have hlen : (digitText sign n).length = (digitText sign (n / 10)).length + 1 := by
          rw [digitText_of_le hle, List.length_append, List.length_singleton]
        have hlast : i - 1 = i - (digitText sign n).length + (digitText sign (n / 10)).length := by
          omega
        have hfirst : i - 1 - (digitText sign (n / 10)).length = i - (digitText sign n).length := by
          omega
        rw [if_neg (mt (tdiv_sign_eq_zero hs).mp hn), tdiv_sign hs,
          ih (n / 10) (by omega) _ (by omega), hfirst]
        simp only [CharArray.store]
        have hmax : max (max a.used (i - 1 + 1)) (i - 1) = max a.used i := by omega
        rw [hmax]
        congr 1
        rw [hlast, Bytes.splice_update, digitText_of_le hle, digitChar]

/-- **`int_to_string`** stores the text, and a terminator. -/
theorem intToString_eq (value : Int) (a : CharArray) :
    intToString value a = a.stores (numberText value ++ [0]) := by
  have hloop : ∀ a : CharArray, digitLoop (numberText value).length value a =
      { a with
        bytes := a.bytes.splice
          ((numberText value).length - (digitText (signOf value) value.natAbs).length)
          (digitText (signOf value) value.natAbs)
        used := max a.used (numberText value).length } := by
    intro a
    have hle : (digitText (signOf value) value.natAbs).length ≤ (numberText value).length := by
      rw [numberText, List.length_append]
      exact Nat.le_add_left _ _
    have h := digitLoop_eq (signOf_eq value) a hle
    rwa [signOf_mul_natAbs] at h
  rw [intToString, intlen_eq]
  simp only [hloop]
  rw [numberText]
  generalize digitText (signOf value) value.natAbs = digits
  split
  · -- the sign is at index 0, and the digits begin behind it
    have hend : ([45] ++ digits).length = 1 + digits.length := by
      rw [List.length_append, List.length_singleton]
    have hused : max (max (max a.used (0 + 1)) (1 + digits.length + 1)) (1 + digits.length) =
        max a.used (1 + digits.length + 1) := by omega
    have hall : ([45] ++ digits ++ [0]).length = 1 + digits.length + 1 := by
      rw [List.length_append, hend, List.length_singleton]
    rw [CharArray.stores, hall, hend, Nat.add_sub_cancel]
    simp only [CharArray.store, hused]
    rw [Bytes.splice_update, Bytes.update_eq_splice, List.append_assoc,
      ← Bytes.splice_append a.bytes 0 [45]]
    rfl
  · have hused : max (max a.used (digits.length + 1)) digits.length =
        max a.used (digits.length + 1) := by omega
    have hsplice := Bytes.splice_update a.bytes 0 0 digits
    rw [Nat.zero_add] at hsplice
    rw [CharArray.stores, List.nil_append, List.length_append, List.length_singleton,
      Nat.sub_self]
    simp only [CharArray.store, hused, hsplice]

/-! ### Decimal numerals -/

theorem decimalDigit_digitChar : ∀ d < 10, decimalDigit (digitChar 1 d) = some d := by decide

/-- The digits of a negative number are no digits. -/
theorem decimalDigit_digitChar_neg :
    ∀ d < 10, d ≠ 0 → decimalDigit (digitChar (-1) d) = none := by decide

theorem digitChar_ne_sign : ∀ d < 10, digitChar 1 d ≠ 45 := by decide

theorem digitChar_eq_zero : ∀ d < 10, digitChar 1 d = 48 → d = 0 := by decide

/-- The text of a number that is not negative. -/
theorem numberText_of_nonneg (h : 0 ≤ value) : numberText value = digitText 1 value.natAbs := by
  have hneg : ¬ value < 0 := by omega
  rw [numberText, signOf, if_neg hneg, if_neg hneg, List.nil_append]

/-- It is the numeral. -/
theorem isNumeral_numberText (h : 0 ≤ value) : IsNumeral (numberText value) value := by
  obtain ⟨n, rfl⟩ := Int.eq_ofNat_of_zero_le h
  have htext : numberText n = digitText 1 n := numberText_of_nonneg h
  obtain ⟨d, digits, hdigits⟩ := List.exists_cons_of_ne_nil (Numeral.shortest_ne_nil 10 n)
  have hd : d < 10 := Numeral.lt_of_mem_shortest (by decide) (hdigits ▸ List.mem_cons_self)
  have hcons : digitText 1 n = digitChar 1 d :: digits.map (digitChar 1) := by
    rw [digitText, hdigits, List.map_cons]
  have hread : parseNat (digitText 1 n) = some n := by
    have hall : ∀ d ∈ Numeral.shortest 10 n, decimalDigit (digitChar 1 d) = some d := fun d hd ↦
      decimalDigit_digitChar d (Numeral.lt_of_mem_shortest (by decide) hd)
    rw [parseNat, if_neg (digitText_ne_nil 1 n), digitText, Numeral.readDigits_map hall,
      Option.map_some, Numeral.value_shortest]
  rw [htext]
  constructor
  · rw [hcons, parseInt, if_neg (digitChar_ne_sign d hd), ← hcons, hread]
    rfl
  · have hsign : ¬ (digitText 1 n).head? = some 45 := by
      rw [hcons]
      exact fun heq ↦ digitChar_ne_sign d hd (Option.some.inj heq)
    rw [if_neg hsign, hcons]
    intro hzero
    have hd₀ : d = 0 := digitChar_eq_zero d hd (Option.some.inj hzero)
    have hn : n = 0 := by
      by_contra hn
      exact Numeral.head?_shortest_ne_zero hn (by rw [hdigits, hd₀]; rfl)
    subst hn
    cases hdigits
    rfl

/-- The text of a negative number stands for no number. -/
theorem parseInt_numberText (h : value < 0) : parseInt (numberText value) = none := by
  have hne : value.natAbs ≠ 0 := by omega
  obtain ⟨d, digits, hdigits⟩ :=
    List.exists_cons_of_ne_nil (Numeral.shortest_ne_nil 10 value.natAbs)
  have hd : d < 10 := Numeral.lt_of_mem_shortest (by decide) (hdigits ▸ List.mem_cons_self)
  have hd₀ : d ≠ 0 := by
    rintro rfl
    exact Numeral.head?_shortest_ne_zero (b := 10) hne (by rw [hdigits]; rfl)
  have hmem : digitChar (-1) d ∈ digitText (-1) value.natAbs := by
    rw [digitText, hdigits]
    exact List.mem_cons_self
  have hread : parseNat (digitText (-1) value.natAbs) = none := by
    rw [parseNat, if_neg (digitText_ne_nil _ _),
      Numeral.readDigits_eq_none hmem (decimalDigit_digitChar_neg d hd hd₀)]
    rfl
  have hcons : numberText value = 45 :: digitText (-1) value.natAbs := by
    rw [numberText, signOf, if_pos h, if_pos h]
    rfl
  rw [hcons, parseInt, if_pos rfl, hread]
  rfl

theorem digitChar_ne_nul : ∀ d < 10, digitChar 1 d ≠ 0 ∧ digitChar (-1) d ≠ 0 := by decide

theorem zero_notMem_numberText (value : Int) : 0 ∉ numberText value := by
  have hdigits : 0 ∉ digitText (signOf value) value.natAbs := by
    intro hmem
    obtain ⟨d, hd, hzero⟩ := List.mem_map.mp hmem
    have hne := digitChar_ne_nul d (Numeral.lt_of_mem_shortest (by decide) hd)
    rcases signOf_eq value with hs | hs
    · exact hne.1 (hs ▸ hzero)
    · exact hne.2 (hs ▸ hzero)
  rw [numberText, List.mem_append, not_or]
  refine ⟨?_, hdigits⟩
  split
  · decide
  · exact List.not_mem_nil

/-- The text of a 32-bit number has at most eleven characters. -/
theorem length_numberText_le (w : BitVec 32) : (numberText w.toInt).length ≤ 11 := by
  have hle : w.toInt.natAbs < 10 ^ 10 := by
    have hlt := w.toInt_lt
    have hle := w.le_toInt
    omega
  have hdigits : (digitText (signOf w.toInt) w.toInt.natAbs).length ≤ 10 := by
    rw [digitText, List.length_map]
    exact Numeral.length_shortest_le (by decide) hle
  rw [numberText, List.length_append]
  split
  · rw [List.length_singleton]
    omega
  · rw [List.length_nil]
    omega

/-- `int_to_string` writes `intlen` characters, which are the numeral of the number, and a
terminator. -/
def RendersDecimal (value : Int) : Prop :=
  ∀ buffer : CharArray, ∃ text, intToString value buffer = buffer.stores (text ++ [0]) ∧
    text.length = intlen value ∧ IsNumeral text value

/-- **`int_to_string` is right exactly for numbers that are not negative.** -/
theorem rendersDecimal_iff : RendersDecimal value ↔ 0 ≤ value := by
  constructor
  · intro h
    by_contra hneg
    obtain ⟨text, htext, hlen, hnumeral⟩ := h ⟨0, fun _ ↦ 0, 0⟩
    have hstored := CharArray.take_stores ⟨0, fun _ ↦ 0, 0⟩ (text ++ [0])
    have hwritten := CharArray.take_stores ⟨0, fun _ ↦ 0, 0⟩ (numberText value ++ [0])
    rw [← htext, List.length_append, hlen, intlen_eq, ← List.length_append] at hstored
    rw [← intToString_eq, hstored] at hwritten
    have hparse := hnumeral.parse
    rw [List.append_cancel_right hwritten, parseInt_numberText (by omega)] at hparse
    cases hparse
  · intro h buffer
    exact ⟨numberText value, intToString_eq value buffer, (intlen_eq value).symm,
      isNumeral_numberText h⟩

end

/-! ## What the dumps write -/

/-- The character for a hexadecimal digit. -/
def hexChar (d : Nat) : UInt8 := nibToHex.getD d 0

/-- The character for a binary digit. -/
def binChar (d : Nat) : UInt8 := (ofText "01").getD d 0

/-- The eight hexadecimal digits of a word. -/
def hexText (w : Nat) : List UInt8 := (Numeral.lastDigits 16 8 w).map hexChar

/-- The 32 binary digits of a word. -/
def binText (w : Nat) : List UInt8 := (Numeral.lastDigits 2 32 w).map binChar

/-- The words of a buffer. -/
def wordsOf (src : Bytes) (n : Nat) : List Nat := (List.range n).map (wordAt src)

section

variable {src : Bytes} {w n word : Nat}

@[simp] theorem length_wordsOf (src : Bytes) (n : Nat) : (wordsOf src n).length = n := by
  rw [wordsOf, List.length_map, List.length_range]

theorem wordsOf_succ (src : Bytes) (n : Nat) :
    wordsOf src (n + 1) = wordsOf src n ++ [wordAt src n] := by
  rw [wordsOf, List.range_succ, List.map_append, List.map_singleton, wordsOf]

theorem lt_of_mem_wordsOf (h : w ∈ wordsOf src n) : w < 2 ^ 32 := by
  obtain ⟨i, -, rfl⟩ := List.mem_map.mp h
  exact Bytes.word_lt _

@[simp] theorem length_hexText (w : Nat) : (hexText w).length = 8 := by
  rw [hexText, List.length_map, Numeral.length_lastDigits]

@[simp] theorem length_binText (w : Nat) : (binText w).length = 32 := by
  rw [binText, List.length_map, Numeral.length_lastDigits]

/-- A nibble is a hexadecimal digit. -/
theorem nibble_eq (w k : Nat) : w >>> k &&& 0xF = w / 2 ^ k % 16 := by
  rw [show (0xF : Nat) = 2 ^ 4 - 1 from rfl, Nat.and_two_pow_sub_one_eq_mod,
    Nat.shiftRight_eq_div_pow]

/-- A bit is a binary digit. -/
theorem bit_eq (w k : Nat) :
    (if w &&& 1 <<< k ≠ 0 then (49 : UInt8) else 48) = binChar (w / 2 ^ k % 2) := by
  have hand : w &&& 1 <<< k = 2 ^ k * (w / 2 ^ k % 2) := by
    rw [Nat.one_shiftLeft, Nat.and_two_pow, Nat.testBit_eq_decide_div_mod_eq]
    rcases Nat.mod_two_eq_zero_or_one (w / 2 ^ k) with h | h
    · rw [h]
      exact Nat.zero_mul _
    · rw [h, Nat.mul_one]
      exact Nat.one_mul _
  rw [hand]
  rcases Nat.mod_two_eq_zero_or_one (w / 2 ^ k) with h | h
  · rw [h, Nat.mul_zero, if_neg (by simp)]
    rfl
  · rw [h, Nat.mul_one, if_pos (Nat.ne_of_gt (Nat.two_pow_pos k))]
    rfl

/-- The inner loop of `buff_to_hexstring` stores two digits for each byte. -/
theorem hexBytes_eq (w n : Nat) (l : List UInt8) (a : CharArray) :
    hexBytes w n (l.length, a.stores l) =
      ((l ++ (Numeral.lastDigits 16 (2 * n) w).map hexChar).length,
        a.stores (l ++ (Numeral.lastDigits 16 (2 * n) w).map hexChar)) := by
  induction n generalizing l with
  | zero =>
      rw [hexBytes]
      simp only [Numeral.lastDigits, List.map_nil, List.append_nil]
  | succ n ih =>
      have hpow : ∀ k, (2 : Nat) ^ (4 * k) = 16 ^ k := fun k ↦ Nat.pow_mul 2 4 k
      have htop : w / 2 ^ (n * 8 + 4) % 16 = w / 16 ^ (2 * n + 1) % 16 := by
        rw [show n * 8 + 4 = 4 * (2 * n + 1) by omega, hpow]
      have hbottom : w / 2 ^ (n * 8) % 16 = w / 16 ^ (2 * n) % 16 := by
        rw [show n * 8 = 4 * (2 * n) by omega, hpow]
      have hdigits : Numeral.lastDigits 16 (2 * (n + 1)) w =
          w / 16 ^ (2 * n + 1) % 16 :: w / 16 ^ (2 * n) % 16 :: Numeral.lastDigits 16 (2 * n) w := by
        rw [show 2 * (n + 1) = 2 * n + 1 + 1 by omega, Numeral.lastDigits_succ,
          Numeral.lastDigits_succ]
      rw [hexBytes]
      simp only [nibble_eq, htop, hbottom]
      rw [hdigits, List.map_cons, List.map_cons]
      generalize w / 16 ^ (2 * n + 1) % 16 = top
      generalize w / 16 ^ (2 * n) % 16 = bottom
      have hone : (l ++ [hexChar top]).length = l.length + 1 := by
        rw [List.length_append, List.length_singleton]
      have htwo : (l ++ [hexChar top] ++ [hexChar bottom]).length = l.length + 2 := by
        rw [List.length_append, hone, List.length_singleton]
      have hstores : ((a.stores l).store l.length (hexChar top)).store (l.length + 1)
          (hexChar bottom) = a.stores (l ++ [hexChar top] ++ [hexChar bottom]) := by
        rw [CharArray.store_stores, ← hone, CharArray.store_stores]
      have hnext := ih (l ++ [hexChar top] ++ [hexChar bottom])
      rw [htwo, ← hstores, List.append_assoc, List.append_assoc] at hnext
      exact hnext

/-- `buff_to_hexstring` stores the digits of the words, one behind the other. -/
theorem hexWords_eq (src : Bytes) (n word : Nat) (a : CharArray) :
    hexWords src n word (((wordsOf src word).flatMap hexText).length,
        a.stores ((wordsOf src word).flatMap hexText)) =
      (((wordsOf src (word + n)).flatMap hexText).length,
        a.stores ((wordsOf src (word + n)).flatMap hexText)) := by
  induction n generalizing word with
  | zero => rfl
  | succ n ih =>
      have hnext : (wordsOf src word).flatMap hexText ++ hexText (wordAt src word) =
          (wordsOf src (word + 1)).flatMap hexText := by
        rw [wordsOf_succ, List.flatMap_append, List.flatMap_singleton]
      have hword := hexBytes_eq (wordAt src word) 4 ((wordsOf src word).flatMap hexText) a
      rw [show (Numeral.lastDigits 16 (2 * 4) (wordAt src word)).map hexChar =
        hexText (wordAt src word) from rfl, hnext] at hword
      rw [hexWords, hword, ih, Nat.add_right_comm, Nat.add_assoc]

/-- The inner loop of `buff_to_binstring` stores a digit for each bit. -/
theorem binBits_eq (a : CharArray) (h : n ≤ 32) :
    binBits w a n = a.stores ((binText w).take n) := by
  induction n with
  | zero => rw [binBits, List.take_zero, CharArray.stores_nil]
  | succ n ih =>
      have hlt : n < (binText w).length := by
        rw [length_binText]
        omega
      have hget : (binText w)[n] = binChar (w / 2 ^ (31 - n) % 2) := by
        simp only [binText, List.getElem_map, Numeral.getElem_lastDigits]
      have hlen : ((binText w).take n).length = n := List.length_take_of_le (Nat.le_of_lt hlt)
      have hstore := CharArray.store_stores a ((binText w).take n) (binText w)[n]
      rw [hlen] at hstore
      rw [binBits, ih (by omega), bit_eq, ← hget, hstore, List.take_append_getElem]

/-- `buff_to_binstring` stores the digits of every word at the start. -/
theorem binWords_eq (src : Bytes) (n : Nat) (a : CharArray) :
    binWords src (n + 1) word a = a.stores (binText (wordAt src (word + n))) := by
  induction n generalizing word a with
  | zero =>
      rw [binWords, binWords, binBits_eq a (Nat.le_refl 32),
        List.take_of_length_le (Nat.le_of_eq (length_binText _)), Nat.add_zero]
  | succ n ih =>
      have hlen : (binText (wordAt src word)).length =
          (binText (wordAt src (word + 1 + n))).length := by
        rw [length_binText, length_binText]
      rw [binWords, ih, binBits_eq a (Nat.le_refl 32),
        List.take_of_length_le (Nat.le_of_eq (length_binText _)), CharArray.stores_stores a hlen,
        Nat.add_right_comm, Nat.add_assoc]

/-- **`buff_to_hexstring`** writes the digits of all words. -/
theorem buffToHexstring_eq (src : Bytes) (dst : CharArray) (n : Nat) :
    buffToHexstring src dst (4 * n) = dst.stores ((wordsOf src n).flatMap hexText) := by
  have hwords := hexWords_eq src n 0 dst
  rw [show wordsOf src 0 = [] from rfl, List.flatMap_nil, CharArray.stores_nil, List.length_nil,
    Nat.zero_add] at hwords
  rw [buffToHexstring, Nat.mul_div_cancel_left n (by decide), hwords]

/-- **`buff_to_binstring`** leaves the digits of the last word. -/
theorem buffToBinstring_eq (src : Bytes) (dst : CharArray) (n : Nat) :
    buffToBinstring src dst (4 * (n + 1)) = dst.stores (binText (wordAt src n)) := by
  rw [buffToBinstring, Nat.mul_div_cancel_left (n + 1) (by decide), binWords_eq, Nat.zero_add]

/-- The digits of the only word of a buffer. -/
theorem buffToHexstring_one (src : Bytes) (dst : CharArray) :
    buffToHexstring src dst 4 = dst.stores (hexText src.word) := by
  have hone : wordsOf src 1 = [src.word] := rfl
  have hstores := buffToHexstring_eq src dst 1
  rwa [hone, List.flatMap_singleton] at hstores

theorem hexDigit_hexChar : ∀ d < 16, hexDigit (hexChar d) = some d := by decide

theorem binDigit_binChar : ∀ d < 2, binDigit (binChar d) = some d := by decide

theorem hexChar_ne_nul : ∀ d < 16, hexChar d ≠ 0 := by decide

theorem binChar_ne_nul : ∀ d < 2, binChar d ≠ 0 := by decide

theorem zero_notMem_hexText (w : Nat) : 0 ∉ hexText w := by
  intro hmem
  obtain ⟨d, hd, hzero⟩ := List.mem_map.mp hmem
  exact hexChar_ne_nul d (Numeral.lt_of_mem_lastDigits (by decide) hd) hzero

theorem zero_notMem_binText (w : Nat) : 0 ∉ binText w := by
  intro hmem
  obtain ⟨d, hd, hzero⟩ := List.mem_map.mp hmem
  exact binChar_ne_nul d (Numeral.lt_of_mem_lastDigits (by decide) hd) hzero

theorem length_flatMap_hexText (ws : List Nat) : (ws.flatMap hexText).length = 8 * ws.length := by
  induction ws with
  | nil => rfl
  | cons w ws ih =>
      rw [List.flatMap_cons, List.length_append, ih, length_hexText, List.length_cons]
      omega

theorem length_flatMap_binText (ws : List Nat) : (ws.flatMap binText).length = 32 * ws.length := by
  induction ws with
  | nil => rfl
  | cons w ws ih =>
      rw [List.flatMap_cons, List.length_append, ih, length_binText, List.length_cons]
      omega

/-- A dump of `n` words writes `k` digits for each, those of the words in order, and they can be
decoded. -/
def Dumps (dump : Bytes → CharArray → Nat → CharArray) (text : Nat → List UInt8)
    (undigit : UInt8 → Option Nat) (b k : Nat) (src : Bytes) (n : Nat) : Prop :=
  ∀ dst, dump src dst (4 * n) = dst.stores ((wordsOf src n).flatMap text) ∧
    ((wordsOf src n).flatMap text).length = k * n ∧
    Numeral.readNumbers undigit b k n ((dump src dst (4 * n)).bytes.take (k * n)) =
      some (wordsOf src n)

/-- `buff_to_hexstring` is right for every buffer. -/
theorem dumps_hex (src : Bytes) (n : Nat) :
    Dumps buffToHexstring hexText hexDigit 16 8 src n := by
  intro dst
  have hlen : ((wordsOf src n).flatMap hexText).length = 8 * n := by
    rw [length_flatMap_hexText, length_wordsOf]
  have hbound : ∀ w ∈ wordsOf src n, w < 16 ^ 8 := by
    intro w hw
    have hw := lt_of_mem_wordsOf hw
    omega
  have hread := Numeral.readNumbers_flatMap (by decide) hexDigit_hexChar hbound
  rw [length_wordsOf] at hread
  refine ⟨buffToHexstring_eq src dst n, hlen, ?_⟩
  rw [buffToHexstring_eq, ← hlen, CharArray.take_stores]
  exact hread

/-- `buff_to_binstring` is right for a single word. -/
theorem dumps_bin (h : n ≤ 1) : Dumps buffToBinstring binText binDigit 2 32 src n := by
  intro dst
  have hwritten : buffToBinstring src dst (4 * n) = dst.stores ((wordsOf src n).flatMap binText) := by
    rcases Nat.le_one_iff_eq_zero_or_eq_one.mp h with rfl | rfl
    · exact (CharArray.stores_nil dst).symm
    · have hone : wordsOf src 1 = [wordAt src 0] := rfl
      rw [buffToBinstring_eq src dst 0, hone, List.flatMap_singleton]
  have hlen : ((wordsOf src n).flatMap binText).length = 32 * n := by
    rw [length_flatMap_binText, length_wordsOf]
  have hbound : ∀ w ∈ wordsOf src n, w < 2 ^ 32 := fun _ hw ↦ lt_of_mem_wordsOf hw
  have hread := Numeral.readNumbers_flatMap (by decide) binDigit_binChar hbound
  rw [length_wordsOf] at hread
  refine ⟨hwritten, hlen, ?_⟩
  rw [hwritten, ← hlen, CharArray.take_stores]
  exact hread

/-- **Both dumps are right exactly for at most one word.** -/
theorem dumps_iff (src : Bytes) (n : Nat) :
    Dumps buffToHexstring hexText hexDigit 16 8 src n ∧
      Dumps buffToBinstring binText binDigit 2 32 src n ↔ n ≤ 1 := by
  constructor
  · rintro ⟨-, hbin⟩
    by_contra hn
    obtain ⟨n, rfl⟩ : ∃ m, n = m + 1 := ⟨n - 1, by omega⟩
    obtain ⟨hwritten, hlen, -⟩ := hbin ⟨0, fun _ ↦ 0, 0⟩
    rw [buffToBinstring_eq] at hwritten
    have hused := congrArg CharArray.used hwritten
    simp only [CharArray.stores, hlen, length_binText] at hused
    omega
  · exact fun h ↦ ⟨dumps_hex src n, dumps_bin h⟩

/-- The words 0 and 1: the digits of the second are written over those of the first. -/
theorem not_dumps_two : ¬ ∀ (src : Bytes) (n : Nat),
    Dumps buffToHexstring hexText hexDigit 16 8 src n ∧
      Dumps buffToBinstring binText binDigit 2 32 src n := by
  intro h
  obtain ⟨-, -, hread⟩ := (h (fun i ↦ if i = 4 then 1 else 0) 2).2 ⟨64, fun _ ↦ 0, 0⟩
  revert hread
  decide +kernel

end

end Yorha.Str
