import Yorha.Lib.Exec
import Yorha.Lib.WordArray

/-!
# Bit ranges of a bitmap

The functions of `util.c` that set, clear and search the bits of a bitmap, as
the code computes them: word by word, with the `uint16_t` word counter and the
`int8_t` bit counter of the two loops.  The bitmap is any `WordArray`: the
allocator is handed a pointer and looks at the words behind it, whatever they
belong to.

Every word access is checked against the array's size.  An access past the end
is a `Stop.fault`.
-/

universe u

namespace Yorha.Util

open Yorha.Lib

/-- A range of bits in a bitmap, both fields `uint32_t`. -/
structure BitRange where
  start : Nat
  length : Nat
deriving DecidableEq, Repr

variable {σ : Type u} [WordArray σ]

/-- Read-modify-write of the word `bitmap[i]`. -/
def updateWord (bitmap : σ) (i : Nat) (f : Word → Word) : Except Stop σ :=
  if i < WordArray.size σ then .ok (WordArray.set bitmap i (f (WordArray.get bitmap i)))
  else .error .fault

/-- `bitmap[word] |= mask` or `bitmap[word] &= ~mask`. -/
def applyMask (set : Bool) (mask word : Word) : Word :=
  if set then word ||| mask else word &&& ~~~mask

/-- `(1 << (32 - bit)) - 1`: the bits from number `bit` on, counted from the left.
A shift count is taken modulo 32, as the i386 shifts do. -/
def maskFrom (bit : Nat) : Word := (1#32 <<< ((32 - bit) % 32)) - 1

/-- The bits from `start_bit` on, for the first word of a range. -/
def firstMask (startBit : Nat) : Word :=
  if startBit ≠ 0 then maskFrom startBit else BitVec.allOnes 32

/-- The bits before `end_bit`, for the last word of a range. -/
def lastMask (endBit : Nat) : Word := if endBit ≠ 0 then ~~~(maskFrom endBit) else 0

/-- The loop of `apply_bitrange`.  `word` is a `uint16_t` that is compared with
the `uint32_t` `end_word`, so the loop need not end. -/
def applyWords (set : Bool) (startWord startBit endWord endBit : Nat) :
    Nat → Nat → σ → Except Stop σ
  | 0, _, _ => .error .hang
  | fuel + 1, word, bitmap =>
      if word ≤ endWord then
        if startWord = endWord then
          updateWord bitmap word (applyMask set (firstMask startBit ^^^ maskFrom endBit))
        else do
          let coeff :=
            if word = startWord then firstMask startBit
            else if word = endWord then lastMask endBit
            else BitVec.allOnes 32
          let bitmap ← updateWord bitmap word (applyMask set coeff)
          applyWords set startWord startBit endWord endBit fuel ((word + 1) % 2 ^ 16) bitmap
      else .ok bitmap

/-- More iterations than `word` has values: a loop still running after them never
exits, because what it does next depends on `word` alone. -/
def applyFuel : Nat := 2 ^ 16 + 1

/-- Sets (`set = true`) or clears the bits of `range`. -/
def applyBitrange (bitmap : σ) (range : BitRange) (set : Bool) : Except Stop σ :=
  if range.length = 0 ∧ range.start = 0 then .ok bitmap
  else
    let startWord := range.start / 32
    let startBit := range.start % 32
    let endWord := (range.start + range.length) % 2 ^ 32 / 32
    let endBit := (range.start + range.length) % 2 ^ 32 % 32
    applyWords set startWord startBit endWord endBit applyFuel (startWord % 2 ^ 16) bitmap

/-- The inner loop of `alloc_bitrange` over the bits of word `i`, from `bit` down.
It returns the range found, or `curr_start` and `curr_length` at the end of the word. -/
def scanWord (word : Word) (i count : Nat) (wordAlign : Bool) :
    Nat → Nat → Nat → Nat → BitRange ⊕ (Nat × Nat)
  | 0, _, currStart, currLength => .inr (currStart, currLength)
  | fuel + 1, bit, currStart, currLength =>
      let hit := word.getLsbD bit
      -- a hit skips to the last bit of its group of four
      let bit := if hit && wordAlign then bit / 4 * 4 else bit
      let currStart :=
        if hit then (if bit ≠ 0 then i * 32 + (31 - (bit - 1)) else (i + 1) * 32) else currStart
      let currLength := if hit then 0 else currLength + 1
      if currLength = count then .inl ⟨currStart, currLength⟩
      else if bit = 0 then .inr (currStart, currLength)
      else scanWord word i count wordAlign fuel (bit - 1) currStart currLength

/-- The outer loop of `alloc_bitrange`, over `n` more words from word `i` on. -/
def scanWords (bitmap : σ) (count : Nat) (wordAlign : Bool) :
    Nat → Nat → Nat → Nat → Except Stop (BitRange × σ)
  | 0, _, _, _ => .ok (⟨0, 0⟩, bitmap)
  | n + 1, i, currStart, currLength =>
      if i < WordArray.size σ then
        match scanWord (WordArray.get bitmap i) i count wordAlign 32 31 currStart currLength with
        | .inl range => do
            let bitmap ← applyBitrange bitmap range true
            .ok (range, bitmap)
        | .inr (currStart, currLength) =>
            scanWords bitmap count wordAlign n (i + 1) currStart currLength
      else .error .fault

/-- Finds and sets `count` clear bits in a row.  The scan covers
`capacity / sizeof(uint32_t)` words; length 0 says that it found nothing. -/
def allocBitrange (bitmap : σ) (capacity count : Nat) (wordAlign : Bool) :
    Except Stop (BitRange × σ) :=
  scanWords bitmap count wordAlign (capacity / 4) 0 0 0

/-- Clears the bits of `range`. -/
def deallocBitrange (bitmap : σ) (range : BitRange) : Except Stop σ :=
  applyBitrange bitmap range false

end Yorha.Util
