import Yorha.Util.Bitrange

/-!
# What `apply_bitrange` does to the bits

For a range that is not empty, whose last word lies inside the array and below
`65535`, `apply_bitrange` makes exactly the bits of the range equal to `set`
(`applyBitrange_spec`).  The word one past the range is accessed as well when the
range ends on a word boundary, which is why the bound is on
`(start + length) / 32` and not on the last bit.
-/

universe u

namespace Yorha.Util

open Yorha.Lib

variable {σ : Type u} [WordArray σ]

/-! ## Masks, bit by bit -/

theorem maskFrom_bits : ∀ b : Fin 32, ∀ j : Fin 32, b.val ≠ 0 →
    (maskFrom b).getMsbD j = decide (b ≤ j) := by decide +kernel

theorem firstMask_getMsbD {b j : Nat} (hb : b < 32) (hj : j < 32) :
    (firstMask b).getMsbD j = decide (b ≤ j) := by
  by_cases h : b = 0
  · rw [firstMask, if_neg (by simp [h]), BitVec.getMsbD_allOnes]
    simp [h, hj]
  · simpa [firstMask, h] using maskFrom_bits ⟨b, hb⟩ ⟨j, hj⟩ h

theorem lastMask_getMsbD {b j : Nat} (hb : b < 32) (hj : j < 32) :
    (lastMask b).getMsbD j = decide (j < b) := by
  by_cases h : b = 0
  · simp [lastMask, h]
  · have hm := maskFrom_bits ⟨b, hb⟩ ⟨j, hj⟩ h
    simp only [lastMask, ne_eq, h, not_false_eq_true, ↓reduceIte, BitVec.getMsbD_not, hm, hj,
      decide_true, Bool.true_and, Fin.mk_le_mk]
    by_cases hjb : j < b
    · simp [hjb]
    · simp [hjb, Nat.le_of_not_lt hjb]

theorem innerMask_getMsbD {a b j : Nat} (hab : a < b) (hb : b < 32) (hj : j < 32) :
    (firstMask a ^^^ maskFrom b).getMsbD j = decide (a ≤ j ∧ j < b) := by
  have hm := maskFrom_bits ⟨b, hb⟩ ⟨j, hj⟩ (by simp; omega)
  simp only [BitVec.getMsbD_xor, firstMask_getMsbD (by omega : a < 32) hj, hm, Fin.mk_le_mk]
  by_cases h₁ : a ≤ j <;> by_cases h₂ : j < b <;> simp [h₁, h₂] <;> omega

theorem applyMask_getMsbD (set : Bool) (mask word : Word) {j : Nat} (hj : j < 32) :
    (applyMask set mask word).getMsbD j =
      if mask.getMsbD j then set else word.getMsbD j := by
  cases set <;> cases h : mask.getMsbD j <;> simp [applyMask, h, hj]

/-! ## One word -/

/-- The bits after one read-modify-write: those of the mask in word `i` become
`set`, no other bit changes. -/
theorem bit_set_applyMask [LawfulWordArray σ] (s : σ) {i : Nat} (hi : i < WordArray.size σ)
    (set : Bool) (mask : Word) (k : Nat) :
    WordArray.bit (WordArray.set s i (applyMask set mask (WordArray.get s i))) k =
      if k / 32 = i ∧ mask.getMsbD (k % 32) then set else WordArray.bit s k := by
  have hk : k % 32 < 32 := Nat.mod_lt _ (by omega)
  unfold WordArray.bit
  rw [LawfulWordArray.get_set s _ _ hi]
  by_cases h : i = k / 32
  · subst h
    rw [if_pos rfl, applyMask_getMsbD set mask _ hk]
    simp
  · rw [if_neg h, if_neg (fun hc ↦ h hc.1.symm)]

theorem updateWord_eq {s : σ} {i : Nat} (hi : i < WordArray.size σ) (f : Word → Word) :
    updateWord s i f = .ok (WordArray.set s i (f (WordArray.get s i))) := if_pos hi

/-! ## The word loop -/

section

variable [LawfulWordArray σ]

/-- The loop from word `w` on fills the part of `start .. stop - 1` that lies in
word `w` and after it.  Induction on the fuel; every iteration does one word. -/
theorem applyWords_spec (set : Bool) {start stop : Nat} (hlt : start / 32 < stop / 32)
    (hsize : stop / 32 < WordArray.size σ) (hstop : stop / 32 < 65535) (fuel w : Nat) (s : σ) (hw : start / 32 ≤ w)
    (hw' : w ≤ stop / 32 + 1) (hfuel : stop / 32 + 1 < fuel + w) :
    ∃ s', applyWords set (start / 32) (start % 32) (stop / 32) (stop % 32) fuel w s = .ok s' ∧
      ∀ k, WordArray.bit s' k =
        if start ≤ k ∧ 32 * w ≤ k ∧ k < stop then set else WordArray.bit s k := by
  induction fuel generalizing w s with
  | zero => omega
  | succ fuel ih =>
      by_cases hle : w ≤ stop / 32
      · -- the mask of word `w` selects the bits of the range that lie in it
        let mask : Word :=
          if w = start / 32 then firstMask (start % 32)
          else if w = stop / 32 then lastMask (stop % 32)
          else BitVec.allOnes 32
        have hmask : ∀ k, k / 32 = w →
            (mask.getMsbD (k % 32) = true ↔ start ≤ k ∧ k < stop) := by
          intro k hk
          have hk' : k % 32 < 32 := Nat.mod_lt _ (by omega)
          have hs : start % 32 < 32 := Nat.mod_lt _ (by omega)
          have he : stop % 32 < 32 := Nat.mod_lt _ (by omega)
          by_cases h₁ : w = start / 32
          · simp only [mask, if_pos h₁, firstMask_getMsbD hs hk', decide_eq_true_eq]
            omega
          · by_cases h₂ : w = stop / 32
            · simp only [mask, if_neg h₁, if_pos h₂, lastMask_getMsbD he hk', decide_eq_true_eq]
              omega
            · simp only [mask, if_neg h₁, if_neg h₂, BitVec.getMsbD_allOnes, decide_eq_true_eq]
              omega
        have hws : w < WordArray.size σ := by omega
        have hmod : (w + 1) % 2 ^ 16 = w + 1 := Nat.mod_eq_of_lt (by omega)
        obtain ⟨s', hs', hbits⟩ := ih (w + 1)
          (WordArray.set s w (applyMask set mask (WordArray.get s w)))
          (by omega) (by omega) (by omega)
        refine ⟨s', ?_, fun k ↦ ?_⟩
        · simp only [applyWords, if_pos hle, if_neg (Nat.ne_of_lt hlt), updateWord_eq hws,
            ok_bind, hmod]
          exact hs'
        · rw [hbits k, bit_set_applyMask s hws]
          by_cases hk : k / 32 = w
          · rw [if_neg (by omega)]
            exact if_congr (by rw [hmask k hk]; omega) rfl rfl
          · rw [if_neg (fun hc : k / 32 = w ∧ _ ↦ hk hc.1)]
            exact if_congr (by omega) rfl rfl
      · refine ⟨s, by simp only [applyWords, if_neg hle], fun k ↦ ?_⟩
        rw [if_neg (by omega)]

end

/-- On a range that ends in the address space, only the number of the first word may wrap
around. -/
theorem applyBitrange_eq (s : σ) {start length : Nat} {set : Bool} (hlen : 0 < length)
    (hlt : start + length < 2 ^ 32) :
    applyBitrange s ⟨start, length⟩ set =
      applyWords set (start / 32) (start % 32) ((start + length) / 32) ((start + length) % 32)
        applyFuel (start / 32 % 2 ^ 16) s := by
  have hmod : (start + length) % 2 ^ 32 = start + length := Nat.mod_eq_of_lt hlt
  have hne : ¬ (length = 0 ∧ start = 0) := fun h ↦ hlen.ne' h.1
  simp only [applyBitrange, hne, hmod, if_false]

/-- **Exact range update.** -/
theorem applyBitrange_spec [LawfulWordArray σ] (s : σ) (range : BitRange) (set : Bool)
    (hlen : 0 < range.length) (hstop : (range.start + range.length) / 32 < 65535)
    (hsize : (range.start + range.length) / 32 < WordArray.size σ) :
    ∃ s', applyBitrange s range set = .ok s' ∧
      WordArray.Filled s s' range.start range.length set := by
  obtain ⟨start, length⟩ := range
  simp only at hlen hstop hsize ⊢
  have hword : start / 32 % 2 ^ 16 = start / 32 := Nat.mod_eq_of_lt (by omega)
  rw [applyBitrange_eq s hlen (by omega), hword]
  by_cases heq : start / 32 = (start + length) / 32
  · -- the whole range lies in one word
    refine ⟨_, by simp only [applyFuel, applyWords, heq, le_refl, if_true]
                  exact updateWord_eq hsize _, fun k ↦ ?_⟩
    have hk : k % 32 < 32 := Nat.mod_lt _ (by omega)
    have he : (start + length) % 32 < 32 := Nat.mod_lt _ (by omega)
    rw [bit_set_applyMask s hsize, innerMask_getMsbD (by omega) he hk]
    exact if_congr (by simp only [decide_eq_true_eq]; omega) rfl rfl
  · obtain ⟨s', hs', hbits⟩ := applyWords_spec set
      (by omega : start / 32 < (start + length) / 32) hsize hstop applyFuel (start / 32) s
      le_rfl (by omega) (by unfold applyFuel; omega)
    refine ⟨s', hs', fun k ↦ ?_⟩
    rw [hbits k]
    exact if_congr (by omega) rfl rfl

/-- The loop faults on a range whose last word lies past the end of the array. -/
theorem applyWords_fault {set : Bool} {start stop : Nat} (hlt : start / 32 < stop / 32)
    (hsize : WordArray.size σ ≤ stop / 32) (hstop : stop / 32 < 65536) (fuel w : Nat) (s : σ)
    (hw : w ≤ stop / 32) (hfuel : stop / 32 + 1 < fuel + w) :
    applyWords set (start / 32) (start % 32) (stop / 32) (stop % 32) fuel w s =
      .error .fault := by
  induction fuel generalizing w s with
  | zero => omega
  | succ fuel ih =>
      by_cases hws : w < WordArray.size σ
      · have hmod : (w + 1) % 2 ^ 16 = w + 1 := Nat.mod_eq_of_lt (by omega)
        simp only [applyWords, if_pos hw, if_neg (Nat.ne_of_lt hlt), updateWord_eq hws, ok_bind,
          hmod]
        exact ih (w + 1) _ (by omega) (by omega)
      · simp only [applyWords, if_pos hw, if_neg (Nat.ne_of_lt hlt), updateWord, if_neg hws,
          error_bind]

/-- A range that ends in or before the word after the array's last, but not
inside the array, makes `apply_bitrange` fault. -/
theorem applyBitrange_fault (s : σ) (range : BitRange) (set : Bool)
    (hlen : 0 < range.length) (hstop : (range.start + range.length) / 32 < 65536)
    (hsize : WordArray.size σ ≤ (range.start + range.length) / 32) :
    applyBitrange s range set = .error .fault := by
  obtain ⟨start, length⟩ := range
  simp only at hlen hstop hsize ⊢
  have hword : start / 32 % 2 ^ 16 = start / 32 := Nat.mod_eq_of_lt (by omega)
  rw [applyBitrange_eq s hlen (by omega), hword]
  by_cases heq : start / 32 = (start + length) / 32
  · simp only [applyFuel, applyWords, heq, le_refl, if_true, updateWord,
      if_neg (Nat.not_lt.mpr hsize)]
  · exact applyWords_fault (by omega) hsize hstop _ _ s (by omega)
      (by unfold applyFuel; omega)

/-- The loop does not panic, whatever the range is. -/
theorem applyWords_ne_panic {set : Bool} {startWord startBit endWord endBit fuel w : Nat}
    {s : σ} {msg : String} :
    applyWords set startWord startBit endWord endBit fuel w s ≠ .error (.panic msg) := by
  have hupdate : ∀ {s : σ} {i : Nat} {f : Word → Word},
      updateWord s i f ≠ .error (.panic msg) := by
    intro s i f
    rw [updateWord]
    split
    · exact ok_ne_error
    · exact fun h ↦ nomatch h
  induction fuel generalizing w s with
  | zero => exact fun h ↦ nomatch h
  | succ fuel ih =>
      rw [applyWords]
      split
      · split
        · exact hupdate
        · intro h
          rcases bind_eq_error.mp h with h | ⟨s', -, h⟩
          · exact hupdate h
          · exact ih h
      · exact ok_ne_error

/-- Clearing a range does not panic. -/
theorem deallocBitrange_ne_panic {s : σ} {range : BitRange} {msg : String} :
    deallocBitrange s range ≠ .error (.panic msg) := by
  rw [deallocBitrange, applyBitrange]
  split
  · exact ok_ne_error
  · exact applyWords_ne_panic

/-- A call that returns has filled its range, and the range ends inside the array. -/
theorem applyBitrange_ok [LawfulWordArray σ] {s s' : σ} {range : BitRange} {set : Bool}
    (h : applyBitrange s range set = .ok s')
    (hlen : 0 < range.length) (hstop : (range.start + range.length) / 32 < 65535) :
    (range.start + range.length) / 32 < WordArray.size σ ∧
      WordArray.Filled s s' range.start range.length set := by
  by_cases hsize : (range.start + range.length) / 32 < WordArray.size σ
  · obtain ⟨t, ht, hf⟩ := applyBitrange_spec s range set hlen hstop hsize
    rw [ht] at h
    cases h
    exact ⟨hsize, hf⟩
  · rw [applyBitrange_fault s range set hlen (by omega) (Nat.le_of_not_lt hsize)] at h
    cases h

end Yorha.Util
