import Yorha.Lib.Bytes
import Yorha.Lib.Exec

/-!
# The string and memory functions

The functions of `string.c` the rest is built on.  A function that works on
memory takes the memory and the addresses, and returns the memory it leaves; the
loops run in the order of the code.  A C string that is only read is the list of
its bytes, without the terminator.
-/

namespace Yorha.Str

open Yorha.Lib

/-- A C string: bytes of which none is the terminator. -/
structure CString where
  /-- The bytes before the terminator. -/
  chars : List UInt8
  /-- None of them ends the string. -/
  nonzero : 0 ∉ chars

/-- The bytes of a text, as the compiler stores a literal. -/
def ofText (s : String) : List UInt8 := s.toList.map fun c ↦ UInt8.ofNat c.toNat

namespace CString

/-- A literal: it ends at its first NUL. -/
def literal (s : String) : CString :=
  ⟨(ofText s).takeWhile (· ≠ 0), fun hzero ↦
    absurd (List.all_eq_true.mp List.all_takeWhile 0 hzero) (by decide)⟩

/-- The first `n` characters. -/
def take (s : CString) (n : Nat) : CString :=
  ⟨s.chars.take n, fun h ↦ s.nonzero (List.mem_of_mem_take h)⟩

/-- All but the first `n` characters. -/
def drop (s : CString) (n : Nat) : CString :=
  ⟨s.chars.drop n, fun h ↦ s.nonzero (List.mem_of_mem_drop h)⟩

/-- One string after the other. -/
def append (s t : CString) : CString :=
  ⟨s.chars ++ t.chars, fun h ↦ (List.mem_append.mp h).elim s.nonzero t.nonzero⟩

end CString

/-- Writes `val` into `count` bytes from `dst` on. -/
def memset (mem : Bytes) (dst : Nat) (val : UInt8) : Nat → Bytes
  | 0 => mem
  | byte + 1 => Function.update (memset mem dst val byte) (dst + byte) val

/-- The first loop of `memmove`, from the first byte to the last. -/
def copyForward (mem : Bytes) (d s : Nat) : Nat → Bytes
  | 0 => mem
  | i + 1 =>
      let mem := copyForward mem d s i
      Function.update mem (d + i) (mem (s + i))

/-- The second loop of `memmove`, from the last byte to the first. -/
def copyBackward (mem : Bytes) (d s : Nat) : Nat → Bytes
  | 0 => mem
  | i + 1 => copyBackward (Function.update mem (d + i) (mem (s + i))) d s i

/-- Copies `count` bytes between ranges that may overlap. -/
def memmove (mem : Bytes) (dst src count : Nat) : Bytes :=
  if dst < src then copyForward mem dst src count
  else if dst > src then copyBackward mem dst src count
  else mem

/-- The value of a `char`, which is signed. -/
def charValue (c : UInt8) : Int := if c.toNat < 128 then c.toNat else c.toNat - 256

/-- Compares the string behind `str1` with the C string `str2`. -/
def strcmp (str1 : Bytes) : List UInt8 → Int
  | [] => charValue (str1 0)
  | c :: str2 =>
      if str1 0 ≠ 0 ∧ str1 0 = c then strcmp (str1.drop 1) str2
      else charValue (str1 0) - charValue c

/-- `strcmp` on a string in an array of which `limit` bytes are left. -/
def strcmpWithin : Nat → Bytes → List UInt8 → Except Stop Int
  | 0, _, _ => .error .fault
  | _ + 1, str1, [] => .ok (charValue (str1 0))
  | limit + 1, str1, c :: str2 =>
      if str1 0 ≠ 0 ∧ str1 0 = c then strcmpWithin limit (str1.drop 1) str2
      else .ok (charValue (str1 0) - charValue c)

/-- The string in an array of which `limit` bytes are left. -/
def readString (str : Bytes) : Nat → Except Stop (List UInt8)
  | 0 => .error .fault
  | limit + 1 =>
      if str 0 = 0 then .ok []
      else do
        let rest ← readString (str.drop 1) limit
        .ok (str 0 :: rest)

/-- Copies a C string, with its terminator, to `destination`. -/
def strcpy (mem : Bytes) (destination : Nat) (source : List UInt8) : Bytes :=
  mem.splice destination (source ++ [0])

theorem charValue_eq_zero {c : UInt8} : charValue c = 0 ↔ c = 0 := by
  have hc := c.toNat_lt
  rw [charValue, ← UInt8.toNat_inj]
  split <;> simp only [UInt8.toNat_zero] <;> omega

theorem charValue_inj {c d : UInt8} : charValue c = charValue d ↔ c = d := by
  have hc := c.toNat_lt
  have hd := d.toNat_lt
  rw [charValue, charValue, ← UInt8.toNat_inj]
  split <;> split <;> omega

/-- **`strcmp` is 0 exactly on equal strings**, when the second has no zero byte. -/
theorem strcmp_eq_zero {str2 : List UInt8} (h : 0 ∉ str2) (str1 : Bytes) :
    strcmp str1 str2 = 0 ↔ str1.IsString str2 := by
  induction str2 generalizing str1 with
  | nil => rw [strcmp, charValue_eq_zero, Bytes.isString_nil]
  | cons c str2 ih =>
      rw [List.mem_cons, not_or] at h
      rw [strcmp, Bytes.isString_cons, ← ih h.2]
      split
      · rename_i hc
        exact ⟨fun hrest ↦ ⟨hc.2, hrest⟩, fun hrest ↦ hrest.2⟩
      · rename_i hc
        have hne : str1 0 ≠ c := by
          rintro rfl
          exact hc ⟨Ne.symm h.1, rfl⟩
        constructor
        · intro heq
          exact absurd (charValue_inj.mp (Int.sub_eq_zero.mp heq)) hne
        · rintro ⟨heq, -⟩
          exact absurd heq hne

/-- Within an array that holds a terminator, `strcmp` stays inside. -/
theorem strcmpWithin_eq_ok {limit : Nat} {str1 : Bytes} (h : ∃ i < limit, str1 i = 0)
    (str2 : List UInt8) : strcmpWithin limit str1 str2 = .ok (strcmp str1 str2) := by
  induction str2 generalizing limit str1 with
  | nil =>
      obtain ⟨i, hi, -⟩ := h
      obtain ⟨limit, rfl⟩ : ∃ n, limit = n + 1 := ⟨limit - 1, by omega⟩
      rfl
  | cons c str2 ih =>
      obtain ⟨i, hi, hz⟩ := h
      obtain ⟨limit, rfl⟩ : ∃ n, limit = n + 1 := ⟨limit - 1, by omega⟩
      rw [strcmpWithin, strcmp]
      split
      · rename_i hc
        cases i with
        | zero => exact absurd hz hc.1
        | succ i =>
            refine ih ⟨i, by omega, ?_⟩
            rw [Bytes.drop_apply, Nat.add_comm]
            exact hz
      · rfl

/-- Against a string that is shorter than the array, `strcmp` stays inside. -/
theorem strcmpWithin_of_length_lt {limit : Nat} {str2 : List UInt8} (h : str2.length < limit)
    (str1 : Bytes) : strcmpWithin limit str1 str2 = .ok (strcmp str1 str2) := by
  induction str2 generalizing limit str1 with
  | nil =>
      obtain ⟨limit, rfl⟩ : ∃ n, limit = n + 1 := ⟨limit - 1, by omega⟩
      rfl
  | cons c str2 ih =>
      rw [List.length_cons] at h
      obtain ⟨limit, rfl⟩ : ∃ n, limit = n + 1 := ⟨limit - 1, by omega⟩
      rw [strcmpWithin, strcmp]
      split
      · exact ih (by omega) _
      · rfl

/-- A string that was compared with itself lies in the array. -/
theorem lt_of_strcmpWithin {limit : Nat} {str1 : Bytes} {str2 : List UInt8} {order : Int}
    (hstring : str1.IsString str2) (hzero : 0 ∉ str2)
    (h : strcmpWithin limit str1 str2 = .ok order) : str2.length < limit := by
  induction str2 generalizing limit str1 with
  | nil =>
      cases limit with
      | zero => cases h
      | succ limit => exact Nat.succ_pos limit
  | cons c str2 ih =>
      cases limit with
      | zero => cases h
      | succ limit =>
          obtain ⟨hc, hstring⟩ := Bytes.isString_cons.mp hstring
          rw [List.mem_cons, not_or] at hzero
          rw [strcmpWithin, if_pos ⟨hc ▸ Ne.symm hzero.1, hc⟩] at h
          exact Nat.succ_lt_succ (ih hstring hzero.2 h)

/-- What `readString` returns is the string there. -/
theorem readString_eq_ok {limit : Nat} {str : Bytes} {s : List UInt8} :
    readString str limit = .ok s ↔ s.length < limit ∧ 0 ∉ s ∧ str.IsString s := by
  induction limit generalizing str s with
  | zero => exact ⟨fun h ↦ (nomatch h), fun h ↦ absurd h.1 (Nat.not_lt_zero _)⟩
  | succ limit ih =>
      rw [readString]
      split
      · rename_i hz
        cases s with
        | nil => simp [Bytes.isString_nil, hz]
        | cons c s =>
            constructor
            · rintro ⟨⟩
            · rintro ⟨-, hs, hstr⟩
              have hc : str 0 = c := (Bytes.isString_cons.mp hstr).1
              exact absurd (List.mem_cons.mpr (.inl (hz.symm.trans hc))) hs
      · rename_i hz
        rw [bind_eq_ok]
        cases s with
        | nil =>
            constructor
            · rintro ⟨rest, -, ⟨⟩⟩
            · rintro ⟨-, -, hstr⟩
              exact absurd (Bytes.isString_nil.mp hstr) hz
        | cons c s =>
            rw [List.length_cons, Nat.succ_lt_succ_iff, List.mem_cons, not_or,
              Bytes.isString_cons]
            constructor
            · rintro ⟨rest, hrest, ⟨⟩⟩
              obtain ⟨hlen, hs, hstr⟩ := ih.mp hrest
              exact ⟨hlen, ⟨Ne.symm hz, hs⟩, rfl, hstr⟩
            · rintro ⟨hlen, ⟨-, hs⟩, rfl, hstr⟩
              exact ⟨s, ih.mpr ⟨hlen, hs, hstr⟩, rfl⟩

/-- A string copied into an array is the string there. -/
theorem isString_strcpy (mem : Bytes) (dst : Nat) (s : List UInt8) :
    ((strcpy mem dst s).drop dst).IsString s := Bytes.isString_splice mem dst s

/-- Copying a string over the end of another makes one string of both. -/
theorem strcpy_append (mem : Bytes) (dst : Nat) (s t : List UInt8) :
    strcpy (strcpy mem dst s) (dst + s.length) t = strcpy mem dst (s ++ t) := by
  have hle : [0].length ≤ (t ++ [0]).length := by
    rw [List.length_append]
    exact Nat.le_add_left 1 _
  calc strcpy (strcpy mem dst s) (dst + s.length) t
      = ((mem.splice dst s).splice (dst + s.length) [0]).splice (dst + s.length) (t ++ [0]) := by
        rw [strcpy, strcpy, Bytes.splice_append]
    _ = (mem.splice dst s).splice (dst + s.length) (t ++ [0]) := Bytes.splice_splice _ _ hle
    _ = strcpy mem dst (s ++ t) := by rw [Bytes.splice_append, strcpy, List.append_assoc]

/-- Storing a byte over the end of a string. -/
theorem update_strcpy (mem : Bytes) (dst : Nat) (s : List UInt8) (c : UInt8) :
    Function.update (strcpy mem dst s) (dst + s.length) c = mem.splice dst (s ++ [c]) := by
  have hle : [0].length ≤ [c].length := Nat.le_refl 1
  rw [Bytes.update_eq_splice, strcpy, ← Bytes.splice_append, Bytes.splice_splice _ _ hle,
    Bytes.splice_append]

/-- The forward loop moves a range to a lower address. -/
theorem copyForward_apply {mem : Bytes} {d s : Nat} (h : d < s) (count i : Nat) :
    copyForward mem d s count i =
      if d ≤ i ∧ i < d + count then mem (s + (i - d)) else mem i := by
  induction count generalizing i with
  | zero => rw [copyForward, if_neg (by omega)]
  | succ n ih =>
      rw [copyForward]
      by_cases hi : i = d + n
      · -- the byte read lies behind all the bytes written so far
        rw [hi, Function.update_self, ih, if_neg (by omega), if_pos (by omega),
          Nat.add_sub_cancel_left]
      · rw [Function.update_of_ne hi, ih]
        exact if_congr (by omega) rfl rfl

/-- The backward loop moves a range to a higher address. -/
theorem copyBackward_apply {mem : Bytes} {d s : Nat} (h : s < d) (count i : Nat) :
    copyBackward mem d s count i =
      if d ≤ i ∧ i < d + count then mem (s + (i - d)) else mem i := by
  induction count generalizing mem with
  | zero => rw [copyBackward, if_neg (by omega)]
  | succ n ih =>
      rw [copyBackward, ih]
      by_cases hi : i = d + n
      · rw [hi, if_neg (by omega), Function.update_self, if_pos (by omega),
          Nat.add_sub_cancel_left]
      · rw [Function.update_of_ne hi]
        by_cases hin : d ≤ i ∧ i < d + n
        · -- the byte read lies before all the bytes written so far
          rw [if_pos hin, if_pos (by omega), Function.update_of_ne (by omega)]
        · rw [if_neg hin, if_neg (by omega)]

/-- **`memmove` moves a range**, and changes nothing else, however the ranges lie. -/
theorem memmove_apply (mem : Bytes) (dst src count i : Nat) :
    memmove mem dst src count i =
      if dst ≤ i ∧ i < dst + count then mem (src + (i - dst)) else mem i := by
  rw [memmove]
  split
  · rename_i hlt
    exact copyForward_apply hlt count i
  · split
    · rename_i hgt
      exact copyBackward_apply hgt count i
    · obtain rfl : dst = src := by omega
      split
      · rename_i hin
        rw [Nat.add_sub_cancel' hin.1]
      · rfl

/-- **`memmove` is correct on ranges that overlap in any way**: its destination holds what was
in its source before, and no other byte changes. -/
theorem memmove_moves (mem : Bytes) (dst src count : Nat) :
    (∀ i < count, memmove mem dst src count (dst + i) = mem (src + i)) ∧
      ∀ addr, ¬ (dst ≤ addr ∧ addr < dst + count) →
        memmove mem dst src count addr = mem addr := by
  constructor
  · intro i hi
    rw [memmove_apply, if_pos (by omega), Nat.add_sub_cancel_left]
  · intro addr hout
    rw [memmove_apply, if_neg hout]

/-- `memset` changes the bytes of its range only. -/
theorem memset_apply (mem : Bytes) (dst : Nat) (val : UInt8) (count i : Nat) :
    memset mem dst val count i = if dst ≤ i ∧ i < dst + count then val else mem i := by
  induction count with
  | zero => rw [memset, if_neg (by omega)]
  | succ byte ih =>
      rw [memset]
      by_cases h : i = dst + byte
      · subst h
        rw [Function.update_self, if_pos (by omega)]
      · rw [Function.update_of_ne h, ih]
        exact if_congr (by omega) rfl rfl

end Yorha.Str
