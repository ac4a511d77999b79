import Mathlib.Algebra.Group.Nat.Defs
import Mathlib.Logic.Function.Basic

/-!
# Bytes behind a pointer

`Bytes` is memory as seen from a pointer: the byte at each offset.  An array is a
`Bytes` of which the code may use the offsets below the array's size; where that
bound matters it is checked by the code that indexes the array.

The file has what the rest needs of such memory: the bytes at its start as a list,
strings that end in a zero byte, and numbers stored in four bytes, least significant
first.
-/

namespace Yorha.Lib

/-- The byte at each offset from a pointer. -/
abbrev Bytes := Nat → UInt8

namespace Bytes

/-- The same memory, seen from a pointer `off` bytes further on. -/
def drop (m : Bytes) (off : Nat) : Bytes := fun i ↦ m (off + i)

@[simp] theorem drop_apply (m : Bytes) (off i : Nat) : m.drop off i = m (off + i) := rfl

theorem drop_zero (m : Bytes) : m.drop 0 = m := by
  funext i
  rw [drop_apply, Nat.zero_add]

/-- Overwrite the bytes from offset `off` on with those of `l`. -/
def splice (m : Bytes) (off : Nat) (l : List UInt8) : Bytes :=
  fun i ↦ if off ≤ i ∧ i < off + l.length then l.getD (i - off) 0 else m i

theorem splice_of_notMem {m : Bytes} {off i : Nat} {l : List UInt8}
    (h : ¬ (off ≤ i ∧ i < off + l.length)) : m.splice off l i = m i := if_neg h

theorem splice_nil (m : Bytes) (off : Nat) : m.splice off [] = m := by
  funext i
  exact splice_of_notMem (by rw [List.length_nil]; omega)

theorem splice_add {m : Bytes} {off j : Nat} {l : List UInt8} (h : j < l.length) :
    m.splice off l (off + j) = l[j] := by
  have hin : off ≤ off + j ∧ off + j < off + l.length := by omega
  simp [splice, hin, h]

/-- Writing on behind what was written writes both. -/
theorem splice_append (m : Bytes) (off : Nat) (l l' : List UInt8) :
    (m.splice off l).splice (off + l.length) l' = m.splice off (l ++ l') := by
  funext i
  simp only [splice, List.length_append]
  by_cases hl : off ≤ i ∧ i < off + l.length
  · rw [if_neg (by omega), if_pos hl, if_pos (by omega), List.getD_eq_getElem?_getD,
      List.getD_eq_getElem?_getD, List.getElem?_append_left (by omega)]
  · by_cases hl' : off + l.length ≤ i ∧ i < off + l.length + l'.length
    · rw [if_pos hl', if_pos (by omega), List.getD_eq_getElem?_getD, List.getD_eq_getElem?_getD,
        List.getElem?_append_right (by omega), Nat.sub_sub]
    · rw [if_neg hl', if_neg hl, if_neg (by omega)]

/-- What is written over is gone. -/
theorem splice_splice (m : Bytes) (off : Nat) {l l' : List UInt8} (h : l.length ≤ l'.length) :
    (m.splice off l).splice off l' = m.splice off l' := by
  funext i
  simp only [splice]
  by_cases hl' : off ≤ i ∧ i < off + l'.length
  · rw [if_pos hl', if_pos hl']
  · rw [if_neg hl', if_neg hl', if_neg (by omega)]

/-- Writing one byte. -/
theorem update_eq_splice (m : Bytes) (i : Nat) (c : UInt8) :
    Function.update m i c = m.splice i [c] := by
  funext j
  simp only [Function.update_apply, splice, List.length_singleton]
  by_cases hj : j = i
  · subst hj
    rw [if_pos rfl, if_pos (by omega), Nat.sub_self]
    rfl
  · rw [if_neg hj, if_neg (by omega)]

/-- Storing in front of what is stored. -/
theorem splice_update (m : Bytes) (i : Nat) (c : UInt8) (l : List UInt8) :
    splice (Function.update m (i + l.length) c) i l = m.splice i (l ++ [c]) := by
  funext j
  simp only [splice, List.length_append, List.length_singleton]
  by_cases hl : i ≤ j ∧ j < i + l.length
  · rw [if_pos hl, if_pos (by omega), List.getD_eq_getElem?_getD, List.getD_eq_getElem?_getD,
      List.getElem?_append_left (by omega)]
  · rw [if_neg hl]
    by_cases hj : j = i + l.length
    · subst hj
      rw [Function.update_self, if_pos (by omega), List.getD_eq_getElem?_getD,
        List.getElem?_append_right (by omega)]
      simp only [Nat.add_sub_cancel_left, Nat.sub_self, List.getElem?_cons_zero, Option.getD_some]
    · rw [Function.update_of_ne hj, if_neg (by omega)]

/-! ## The bytes at the start -/

/-- The first `n` bytes. -/
def take (m : Bytes) (n : Nat) : List UInt8 := (List.range n).map m

@[simp] theorem length_take (m : Bytes) (n : Nat) : (m.take n).length = n := by
  rw [take, List.length_map, List.length_range]

theorem take_congr {m m' : Bytes} {n : Nat} (h : ∀ i < n, m i = m' i) : m.take n = m'.take n :=
  List.map_congr_left fun i hi ↦ h i (List.mem_range.mp hi)

/-- The bytes at the start of the rest come next. -/
theorem take_add (m : Bytes) (n k : Nat) : m.take (n + k) = m.take n ++ (m.drop n).take k := by
  rw [take, List.range_add, List.map_append, List.map_map]
  rfl

theorem take_take (m : Bytes) (n k : Nat) : (m.take k).take n = m.take (min n k) := by
  rw [take, ← List.map_take, List.take_range, take]

/-- What was stored is there. -/
theorem take_splice (m : Bytes) (off : Nat) (l : List UInt8) :
    ((m.splice off l).drop off).take l.length = l := by
  apply List.ext_getElem (length_take _ _)
  intro i h₁ h₂
  simp only [take, List.getElem_map, List.getElem_range, drop_apply]
  exact splice_add h₂

/-! ## Strings -/

/-- The pointer leads to the string `s`: its bytes, then a zero byte. -/
def IsString (m : Bytes) (s : List UInt8) : Prop :=
  (∀ i (h : i < s.length), m i = s[i]) ∧ m s.length = 0

theorem isString_nil {m : Bytes} : m.IsString [] ↔ m 0 = 0 :=
  ⟨fun h ↦ h.2, fun h ↦ ⟨fun _ hi ↦ absurd hi (Nat.not_lt_zero _), h⟩⟩

theorem isString_cons {m : Bytes} {c : UInt8} {s : List UInt8} :
    m.IsString (c :: s) ↔ m 0 = c ∧ (m.drop 1).IsString s := by
  constructor
  · rintro ⟨hall, hend⟩
    refine ⟨hall 0 (Nat.succ_pos _), fun i hi ↦ ?_, ?_⟩
    · rw [drop_apply, Nat.add_comm]
      exact hall (i + 1) (Nat.succ_lt_succ hi)
    · rw [drop_apply, Nat.add_comm]
      exact hend
  · rintro ⟨h₀, hall, hend⟩
    refine ⟨fun i hi ↦ ?_, ?_⟩
    · cases i with
      | zero => exact h₀
      | succ i =>
          have h := hall i (Nat.lt_of_succ_lt_succ hi)
          rw [drop_apply, Nat.add_comm] at h
          exact h
    · rw [drop_apply, Nat.add_comm] at hend
      exact hend

/-- A string is at the pointer in two parts. -/
theorem isString_append {m : Bytes} {s t : List UInt8} :
    m.IsString (s ++ t) ↔ m.take s.length = s ∧ (m.drop s.length).IsString t := by
  constructor
  · rintro ⟨hall, hend⟩
    refine ⟨?_, fun i hi ↦ ?_, ?_⟩
    · apply List.ext_getElem (length_take _ _)
      intro i _ hi
      simp only [take, List.getElem_map, List.getElem_range]
      rw [hall i (by rw [List.length_append]; omega), List.getElem_append_left hi]
    · rw [drop_apply, hall _ (by rw [List.length_append]; omega),
        List.getElem_append_right (by omega)]
      simp only [Nat.add_sub_cancel_left]
    · rwa [drop_apply, ← List.length_append]
  · rintro ⟨htake, hall, hend⟩
    refine ⟨fun i hi ↦ ?_, ?_⟩
    · by_cases his : i < s.length
      · rw [List.getElem_append_left his]
        have hget := List.getElem_of_eq htake.symm his
        simpa only [take, List.getElem_map, List.getElem_range] using hget.symm
      · rw [List.getElem_append_right (Nat.le_of_not_lt his), ← hall, drop_apply,
          Nat.add_sub_cancel' (Nat.le_of_not_lt his)]
    · rw [List.length_append]
      exact hend

/-- Memory holds at most one string at a place. -/
theorem IsString.unique {m : Bytes} {s t : List UInt8} (hs : m.IsString s) (ht : m.IsString t)
    (hs₀ : 0 ∉ s) (ht₀ : 0 ∉ t) : s = t := by
  have hle : ∀ {s t : List UInt8}, m.IsString s → m.IsString t → 0 ∉ t →
      t.length ≤ s.length := by
    intro s t hs ht ht₀
    by_contra hlt
    have hlt : s.length < t.length := by omega
    have h := ht.1 s.length hlt
    rw [hs.2] at h
    exact ht₀ (h ▸ List.getElem_mem hlt)
  have hlen : s.length = t.length := Nat.le_antisymm (hle ht hs hs₀) (hle hs ht ht₀)
  apply List.ext_getElem hlen
  intro i h₁ h₂
  rw [← hs.1 i h₁, ht.1 i h₂]

/-- A string survives in memory that agrees on its bytes and its terminator. -/
theorem IsString.congr {m m' : Bytes} {s : List UInt8} (h : m.IsString s)
    (hm : ∀ i ≤ s.length, m' i = m i) : m'.IsString s :=
  ⟨fun i hi ↦ by rw [hm i (by omega), h.1 i hi], by rw [hm _ (Nat.le_refl _), h.2]⟩

/-- The bytes of a string. -/
theorem IsString.take_eq {m : Bytes} {s : List UInt8} (h : m.IsString s) :
    m.take s.length = s := by
  apply List.ext_getElem (length_take _ _)
  intro i _ hi
  simp only [take, List.getElem_map, List.getElem_range]
  exact h.1 i hi

/-- What a string copy leaves at the destination. -/
theorem isString_splice (m : Bytes) (off : Nat) (s : List UInt8) :
    ((m.splice off (s ++ [0])).drop off).IsString s := by
  constructor
  · intro i hi
    rw [drop_apply, splice_add (by simp; omega), List.getElem_append_left hi]
  · rw [drop_apply, splice_add (by simp)]
    simp

/-- Where bytes without a zero were written, the string there goes on behind them. -/
theorem isString_splice_zero {m : Bytes} {s t : List UInt8} (hs : 0 ∉ s) :
    (m.splice 0 s).IsString t ↔ ∃ rest, t = s ++ rest ∧ (m.drop s.length).IsString rest := by
  have htake := take_splice m 0 s
  rw [drop_zero] at htake
  have hdrop : (m.splice 0 s).drop s.length = m.drop s.length := by
    funext i
    exact splice_of_notMem (by omega)
  constructor
  · intro ht
    have hle : s.length ≤ t.length := by
      by_contra hlt
      have hend := ht.2
      rw [← Nat.zero_add t.length, splice_add (Nat.lt_of_not_le hlt)] at hend
      exact hs (hend ▸ List.getElem_mem _)
    have hprefix : s = t.take s.length := by
      rw [← ht.take_eq, take_take, Nat.min_eq_left hle, htake]
    obtain ⟨rest, rfl⟩ := List.prefix_iff_eq_take.mpr hprefix
    rw [isString_append, hdrop] at ht
    exact ⟨rest, rfl, ht.2⟩
  · rintro ⟨rest, rfl, hrest⟩
    exact isString_append.mpr ⟨htake, hdrop ▸ hrest⟩

/-! ## Numbers in four bytes -/

/-- The number stored in the first four bytes, least significant first. -/
def word (m : Bytes) : Nat :=
  (m 0).toNat + 2 ^ 8 * (m 1).toNat + 2 ^ 16 * (m 2).toNat + 2 ^ 24 * (m 3).toNat

/-- The four bytes of `n % 2 ^ 32`, least significant first. -/
def ofWord (n : Nat) : List UInt8 :=
  [UInt8.ofNat n, UInt8.ofNat (n / 2 ^ 8), UInt8.ofNat (n / 2 ^ 16), UInt8.ofNat (n / 2 ^ 24)]

@[simp] theorem length_ofWord (n : Nat) : (ofWord n).length = 4 := rfl

theorem word_lt (m : Bytes) : m.word < 2 ^ 32 := by
  have h₀ := (m 0).toNat_lt
  have h₁ := (m 1).toNat_lt
  have h₂ := (m 2).toNat_lt
  have h₃ := (m 3).toNat_lt
  unfold word
  omega

theorem word_congr {m m' : Bytes} (h : ∀ i < 4, m' i = m i) : m'.word = m.word := by
  unfold word
  rw [h 0 (by omega), h 1 (by omega), h 2 (by omega), h 3 (by omega)]

/-- A number reads back as stored. -/
theorem word_splice (m : Bytes) (off n : Nat) (h : n < 2 ^ 32) :
    ((m.splice off (ofWord n)).drop off).word = n := by
  have hb : ∀ i (hi : i < (ofWord n).length),
      (m.splice off (ofWord n)).drop off i = (ofWord n)[i] := fun i hi ↦ splice_add hi
  unfold word
  rw [hb 0 (by simp), hb 1 (by simp), hb 2 (by simp), hb 3 (by simp)]
  simp only [ofWord, List.getElem_cons_zero, List.getElem_cons_succ, UInt8.toNat_ofNat']
  omega

/-- A number that is stored elsewhere stays. -/
theorem word_splice_ne {m : Bytes} {off a n : Nat} (h : a + 4 ≤ off ∨ off + 4 ≤ a) :
    ((m.splice off (ofWord n)).drop a).word = (m.drop a).word :=
  word_congr fun _ _ ↦ splice_of_notMem (by rw [length_ofWord]; omega)

/-- Memory that starts with the bytes of `l`. -/
def ofList (l : List UInt8) : Bytes := fun i ↦ l.getD i 0

theorem ofList_of_lt {l : List UInt8} {i : Nat} (h : i < l.length) : ofList l i = l[i] := by
  rw [ofList, List.getD_eq_getElem?_getD, List.getElem?_eq_getElem h, Option.getD_some]

theorem take_ofList (l : List UInt8) : (ofList l).take l.length = l := by
  apply List.ext_getElem (length_take _ _)
  intro i _ hi
  rw [← ofList_of_lt hi]
  simp only [take, List.getElem_map, List.getElem_range]

/-- Memory whose first bytes are those of `l` agrees with it there. -/
theorem eq_ofList {m : Bytes} {l : List UInt8} (h : m.take l.length = l) {i : Nat}
    (hi : i < l.length) : m i = ofList l i := by
  have hget : (m.take l.length)[i]? = l[i]? := congrArg (·[i]?) h
  rw [take, List.getElem?_map, List.getElem?_range hi] at hget
  rw [ofList, List.getD_eq_getElem?_getD, ← hget]
  rfl

theorem drop_drop (m : Bytes) (n k : Nat) : (m.drop n).drop k = m.drop (n + k) := by
  funext i
  rw [drop_apply, drop_apply, drop_apply, Nat.add_assoc]

/-- The first byte comes first. -/
theorem take_drop_succ (m : Bytes) (i n : Nat) :
    (m.drop i).take (n + 1) = m i :: (m.drop (i + 1)).take n := by
  rw [Nat.add_comm n 1, take_add, drop_drop]
  rfl

/-- Behind a list comes what was appended to it. -/
theorem drop_ofList_append (l l' : List UInt8) :
    (ofList (l ++ l')).drop l.length = ofList l' := by
  funext i
  rw [drop_apply, ofList, ofList, List.getD_eq_getElem?_getD, List.getD_eq_getElem?_getD,
    List.getElem?_append_right (Nat.le_add_right _ _), Nat.add_sub_cancel_left]

/-- A number at the start of memory reads back as stored. -/
theorem word_ofList (n : Nat) (l : List UInt8) :
    (ofList (ofWord n ++ l)).word = n % 2 ^ 32 := by
  change (UInt8.ofNat n).toNat + 2 ^ 8 * (UInt8.ofNat (n / 2 ^ 8)).toNat +
    2 ^ 16 * (UInt8.ofNat (n / 2 ^ 16)).toNat + 2 ^ 24 * (UInt8.ofNat (n / 2 ^ 24)).toNat = _
  simp only [UInt8.toNat_ofNat']
  omega

/-- **Numbers stored one after the other** read back as stored. -/
theorem word_ofList_flatMap (ns : List Nat) (j : Nat) :
    ((ofList (ns.flatMap ofWord)).drop (4 * j)).word = ns.getD j 0 % 2 ^ 32 := by
  induction ns generalizing j with
  | nil => rfl
  | cons n ns ih =>
      rw [List.flatMap_cons]
      cases j with
      | zero =>
          rw [Nat.mul_zero, drop_zero, word_ofList]
          rfl
      | succ j =>
          have hoff : 4 * (j + 1) = (ofWord n).length + 4 * j := by
            rw [length_ofWord, Nat.mul_succ, Nat.add_comm]
          rw [hoff, ← drop_drop, drop_ofList_append, ih]
          rfl

end Bytes

end Yorha.Lib
