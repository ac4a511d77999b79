import Mathlib.Data.Vector.Basic

/-!
# Arrays of 32-bit words, read as arrays of bits

`WordArray` is anything that can be read and written word by word: a vector of
words, or a record that an allocator looks at as if it were one.  Bits are
numbered the way a bitmap of C words is: bit `k` is bit `31 - k % 32` of word
`k / 32`, so that each word is filled from its most significant end.
-/

universe u

namespace Yorha.Lib

/-- A 32-bit machine word. -/
abbrev Word := BitVec 32

/-- Values that can be accessed as an array of `size` words. -/
class WordArray (σ : Type u) where
  /-- How many words there are. -/
  size : Nat
  /-- The word at an index. -/
  get : σ → Nat → Word
  /-- Overwrite the word at an index. -/
  set : σ → Nat → Word → σ

/-- Reading after a write inside the array. -/
class LawfulWordArray (σ : Type u) [WordArray σ] : Prop where
  get_set : ∀ (s : σ) {i : Nat} (j : Nat) (w : Word), i < WordArray.size σ →
    WordArray.get (WordArray.set s i w) j = if i = j then w else WordArray.get s j

namespace WordArray

variable {σ : Type u} [WordArray σ]

/-- Bit `k` of the array. -/
def bit (s : σ) (k : Nat) : Bool := (get s (k / 32)).getMsbD (k % 32)

/-- The bits of `s'` are those of `s`, with `start .. start + length - 1`
made equal to `v`. -/
def Filled (s s' : σ) (start length : Nat) (v : Bool) : Prop :=
  ∀ k, bit s' k = if start ≤ k ∧ k < start + length then v else bit s k

theorem Filled.eq_of_mem {s s' : σ} {start length k : Nat} {v : Bool}
    (h : Filled s s' start length v) (h₁ : start ≤ k) (h₂ : k < start + length) :
    bit s' k = v := by
  rw [h k, if_pos ⟨h₁, h₂⟩]

theorem Filled.eq_of_notMem {s s' : σ} {start length k : Nat} {v : Bool}
    (h : Filled s s' start length v) (hk : ¬ (start ≤ k ∧ k < start + length)) :
    bit s' k = bit s k := by
  rw [h k, if_neg hk]

/-- Filling a single bit. -/
theorem Filled.single {s s' : σ} {start : Nat} {v : Bool}
    (h : Filled s s' start 1 v) (k : Nat) :
    bit s' k = if k = start then v else bit s k := by
  rw [h k]
  exact if_congr (by omega) rfl rfl

/-- Bits `start .. start + count - 1` are all clear. -/
def Clear (s : σ) (start count : Nat) : Prop :=
  ∀ k, start ≤ k → k < start + count → bit s k = false

/-- Filling a clear range and emptying it again restores every bit. -/
theorem Filled.undo {s s' s'' : σ} {start length : Nat} (hc : Clear s start length)
    (h : Filled s s' start length true) (h' : Filled s' s'' start length false) (k : Nat) :
    bit s'' k = bit s k := by
  by_cases hk : start ≤ k ∧ k < start + length
  · rw [h'.eq_of_mem hk.1 hk.2, hc k hk.1 hk.2]
  · rw [h'.eq_of_notMem hk, h.eq_of_notMem hk]

/-- Two clear ranges that are filled one after the other, and then emptied in the same order. -/
theorem Filled.undo_both {s s₁ s₂ s₃ s₄ : σ} {start length start' length' : Nat}
    (hc : Clear s start length) (h : Filled s s₁ start length true)
    (hc' : Clear s₁ start' length') (h' : Filled s₁ s₂ start' length' true)
    (hempty : Filled s₂ s₃ start length false) (hempty' : Filled s₃ s₄ start' length' false)
    (k : Nat) : bit s₄ k = bit s k := by
  by_cases hk' : start' ≤ k ∧ k < start' + length'
  · -- the bits of the second range were clear after the first was filled, and so before
    have hclear := hc' k hk'.1 hk'.2
    rw [hempty'.eq_of_mem hk'.1 hk'.2]
    by_cases hk : start ≤ k ∧ k < start + length
    · rw [h.eq_of_mem hk.1 hk.2] at hclear
      cases hclear
    · rw [← hclear, h.eq_of_notMem hk]
  · rw [hempty'.eq_of_notMem hk']
    by_cases hk : start ≤ k ∧ k < start + length
    · rw [hempty.eq_of_mem hk.1 hk.2, hc k hk.1 hk.2]
    · rw [hempty.eq_of_notMem hk, h'.eq_of_notMem hk', h.eq_of_notMem hk]

end WordArray

/-! ## Vectors of words -/

instance instWordArrayVector (n : Nat) : WordArray (Vector Word n) where
  size := n
  get v i := v[i]?.getD 0
  set v i w := v.setIfInBounds i w

@[simp] theorem size_vector (n : Nat) : WordArray.size (Vector Word n) = n := rfl

theorem get_vector {n : Nat} (v : Vector Word n) (i : Nat) :
    WordArray.get v i = v[i]?.getD 0 := rfl

instance instLawfulWordArrayVector (n : Nat) : LawfulWordArray (Vector Word n) where
  get_set := by
    intro v i j w hi
    change (v.setIfInBounds i w)[j]?.getD 0 = if i = j then w else v[j]?.getD 0
    rw [Vector.getElem?_setIfInBounds]
    by_cases h : i = j
    · have hi' : i < n := hi
      simp [h, h ▸ hi']
    · simp [h]

/-- Past the end of a vector every bit reads as clear. -/
theorem bit_vector_of_ge {n : Nat} (v : Vector Word n) {k : Nat} (h : 32 * n ≤ k) :
    WordArray.bit v k = false := by
  have hn : n ≤ k / 32 := by omega
  simp [WordArray.bit, get_vector, hn]

/-- Vectors with the same bits are the same. -/
theorem vector_ext_bit {n : Nat} {v v' : Vector Word n}
    (h : ∀ k, WordArray.bit v k = WordArray.bit v' k) : v = v' := by
  apply Vector.ext
  intro i hi
  apply BitVec.eq_of_getMsbD_eq
  intro j hj
  have hbit := h (32 * i + j)
  have hword : (32 * i + j) / 32 = i := by omega
  have hpos : (32 * i + j) % 32 = j := by omega
  simpa [WordArray.bit, get_vector, hword, hpos, hi] using hbit

@[simp] theorem bit_replicate_zero (n k : Nat) :
    WordArray.bit (Vector.replicate n (0 : Word)) k = false := by
  by_cases h : k / 32 < n
  · simp [WordArray.bit, get_vector, h]
  · exact bit_vector_of_ge _ (by omega)

end Yorha.Lib
