import Yorha.Util.ApplySpec

/-!
# `alloc_bitrange` is a first fit

`Fits s window count align a` says that bits `a .. a + count - 1` are clear, lie
below `window` and start at a multiple of four when `align` is set.  The scan
keeps `ScanInv`: the current run is clear and shorter than `count`, and no run
that starts before it fits.  So the start it returns is the least that fits.

The scanned window is `capacity / 4` words.  Where the array is shorter, the scan
reads past its end unless something fits before (`allocBitrange_cases`).
-/

universe u

namespace Yorha.Util

open Yorha.Lib

variable {σ : Type u} [WordArray σ]

/-- `count` bits from `a` on are clear, below `window`, and aligned. -/
structure Fits (s : σ) (window count : Nat) (align : Bool) (a : Nat) : Prop where
  aligned : align = true → 4 ∣ a
  inside : a + count ≤ window
  clear : WordArray.Clear s a count

/-- The first fit: a range that fits, with none that fits before it. -/
structure FirstFit (s : σ) (window count : Nat) (align : Bool) (a : Nat) : Prop
    extends Fits s window count align a where
  least : ∀ b < a, (align = true → 4 ∣ b) → ¬ WordArray.Clear s b count

theorem FirstFit.le {s : σ} {window count a b : Nat} {align : Bool}
    (h : FirstFit s window count align a) (hb : Fits s window count align b) : a ≤ b :=
  Nat.le_of_not_lt fun hlt ↦ h.least b hlt hb.aligned hb.clear

/-- A first fit in a window is one in every window that it lies in. -/
theorem FirstFit.of_inside {s : σ} {window window' count a : Nat} {align : Bool}
    (h : FirstFit s window count align a) (ha : a + count ≤ window') :
    FirstFit s window' count align a :=
  ⟨⟨h.aligned, ha, h.clear⟩, h.least⟩

/-! ## The scan -/

/-- What holds when the scan is about to look at bit `p`. -/
structure ScanInv (s : σ) (count : Nat) (align : Bool) (p start length : Nat) : Prop where
  pos : start + length = p
  clear : WordArray.Clear s start length
  short : length < count
  aligned : align = true → 4 ∣ start
  least : ∀ b < start, (align = true → 4 ∣ b) → ¬ WordArray.Clear s b count

/-- At the start of the scan. -/
theorem ScanInv.zero (s : σ) {count : Nat} (align : Bool) (hc : 0 < count) :
    ScanInv s count align 0 0 0 :=
  ⟨rfl, fun k h₁ h₂ ↦ absurd h₂ (by omega), hc, fun _ ↦ ⟨0, rfl⟩, fun b hb ↦ absurd hb (by omega)⟩

/-- A clear bit makes the run longer. -/
theorem ScanInv.miss {s : σ} {count p start length : Nat} {align : Bool}
    (h : ScanInv s count align p start length) (hbit : WordArray.bit s p = false)
    (hne : length + 1 ≠ count) : ScanInv s count align (p + 1) start (length + 1) where
  pos := by have := h.pos; omega
  clear := by
    intro k h₁ h₂
    by_cases hk : k = p
    · rw [hk, hbit]
    · exact h.clear k h₁ (by have := h.pos; omega)
  short := by have := h.short; omega
  aligned := h.aligned
  least := h.least

/-- A clear bit that completes the run: a first fit. -/
theorem ScanInv.found {s : σ} {count p start length window : Nat} {align : Bool}
    (h : ScanInv s count align p start length) (hbit : WordArray.bit s p = false)
    (heq : length + 1 = count) (hp : p < window) : FirstFit s window count align start where
  aligned := h.aligned
  inside := by have := h.pos; omega
  clear := by
    intro k h₁ h₂
    by_cases hk : k = p
    · rw [hk, hbit]
    · exact h.clear k h₁ (by have := h.pos; omega)
  least := h.least

/-- A set bit starts a new run at `q`: the next bit, or the next multiple of four. -/
theorem ScanInv.hit {s : σ} {count p start length q : Nat} {align : Bool}
    (h : ScanInv s count align p start length) (hbit : WordArray.bit s p = true)
    (hq : align = true → 4 ∣ q ∧ q ≤ p + 4) (hq' : align = false → q = p + 1) :
    ScanInv s count align q q 0 where
  pos := rfl
  clear := fun k h₁ h₂ ↦ absurd h₂ (by omega)
  short := by have := h.short; omega
  aligned := fun ha ↦ (hq ha).1
  least := by
    intro b hb halign hclear
    by_cases hbs : b < start
    · exact h.least b hbs halign hclear
    · -- the run from `b` would contain the set bit `p`
      have hpos := h.pos
      have hshort := h.short
      have hbp : b ≤ p := by
        cases align with
        | false => have := hq' rfl; omega
        | true =>
            obtain ⟨hdvd, hle⟩ := hq rfl
            obtain ⟨m, rfl⟩ := hdvd
            obtain ⟨n, rfl⟩ := halign rfl
            omega
      rw [hclear p hbp (by omega)] at hbit
      cases hbit

/-- Nothing fits before the end of the scan. -/
theorem ScanInv.not_fits {s : σ} {count p start length window a : Nat} {align : Bool}
    (h : ScanInv s count align p start length) (hw : window ≤ p) :
    ¬ Fits s window count align a := by
  intro hf
  by_cases ha : a < start
  · exact h.least a ha hf.aligned hf.clear
  · have := h.pos
    have := h.short
    have := hf.inside
    omega

/-- Bit `b` of a word, counted from its end. -/
theorem bit_getLsbD (s : σ) (i : Nat) {b : Nat} (hb : b < 32) :
    WordArray.bit s (i * 32 + (31 - b)) = (WordArray.get s i).getLsbD b := by
  have hd : (i * 32 + (31 - b)) / 32 = i := by omega
  have hm : (i * 32 + (31 - b)) % 32 = 31 - b := by omega
  have hsub : 32 - 1 - (31 - b) = b := by omega
  rw [WordArray.bit, hd, hm, BitVec.getMsbD_eq_getLsbD, hsub, decide_eq_true (by omega),
    Bool.true_and]

/-- The bit that the loop goes on after when bit `b` is a hit. -/
def hitBit (align : Bool) (b : Nat) : Nat := if align then b / 4 * 4 else b

theorem hitBit_le (align : Bool) (b : Nat) : hitBit align b ≤ b := by
  cases align with
  | false => exact Nat.le_refl b
  | true => exact Nat.div_mul_le_self b 4

theorem scanWord_miss {word : Word} {i count fuel b start length : Nat} {align : Bool}
    (hhit : word.getLsbD b = false) :
    scanWord word i count align (fuel + 1) b start length =
      if length + 1 = count then .inl ⟨start, length + 1⟩
      else if b = 0 then .inr (start, length + 1)
      else scanWord word i count align fuel (b - 1) start (length + 1) := by
  rw [scanWord]
  simp only [hhit, Bool.false_and, Bool.false_eq_true, if_false]

theorem scanWord_hit {word : Word} {i count fuel b start length : Nat} {align : Bool}
    (hhit : word.getLsbD b = true) (hb : b < 32) (hcount : 0 < count) :
    scanWord word i count align (fuel + 1) b start length =
      if hitBit align b = 0 then .inr (i * 32 + (32 - hitBit align b), 0)
      else scanWord word i count align fuel (hitBit align b - 1)
        (i * 32 + (32 - hitBit align b)) 0 := by
  have hle := hitBit_le align b
  have hstart : (if hitBit align b ≠ 0 then i * 32 + (31 - (hitBit align b - 1))
      else (i + 1) * 32) = i * 32 + (32 - hitBit align b) := by
    split
    · omega
    · omega
  rw [scanWord, ← hstart]
  simp only [hhit, Bool.true_and, if_true, if_neg hcount.ne]
  rfl

/-- Where a hit starts a new run. -/
theorem ScanInv.hit_bit {s : σ} {count i b start length : Nat} {align : Bool}
    (h : ScanInv s count align (i * 32 + (31 - b)) start length) (hb : b < 32)
    (hbit : WordArray.bit s (i * 32 + (31 - b)) = true) :
    ScanInv s count align (i * 32 + (32 - hitBit align b)) (i * 32 + (32 - hitBit align b)) 0 := by
  refine h.hit hbit ?_ ?_
  · rintro rfl
    change 4 ∣ i * 32 + (32 - b / 4 * 4) ∧ _ ≤ _
    rw [hitBit, if_pos rfl]
    omega
  · rintro rfl
    change i * 32 + (32 - b) = _
    omega

/-- The scan of one word, from bit `b` down: either a first fit that ends in this
word, or the invariant at the first bit of the next word. -/
theorem scanWord_spec {s : σ} {count i : Nat} {align : Bool} (window : Nat)
    (hw : i * 32 + 32 ≤ window) (fuel b start length : Nat) (hb : b < 32) (hfuel : b < fuel)
    (h : ScanInv s count align (i * 32 + (31 - b)) start length) :
    (∃ r, scanWord (WordArray.get s i) i count align fuel b start length = .inl r ∧
      r.length = count ∧ FirstFit s window count align r.start) ∨
    (∃ start' length', scanWord (WordArray.get s i) i count align fuel b start length =
      .inr (start', length') ∧ ScanInv s count align ((i + 1) * 32) start' length') := by
  induction fuel generalizing b start length with
  | zero => omega
  | succ fuel ih =>
      have hbit := bit_getLsbD s i hb
      cases hhit : (WordArray.get s i).getLsbD b with
      | false =>
          rw [hhit] at hbit
          rw [scanWord_miss hhit]
          by_cases hcount : length + 1 = count
          · rw [if_pos hcount]
            exact .inl ⟨⟨start, length + 1⟩, rfl, hcount, h.found hbit hcount (by omega)⟩
          · rw [if_neg hcount]
            have hnext := h.miss hbit hcount
            by_cases hb0 : b = 0
            · rw [if_pos hb0]
              have he : (i + 1) * 32 = i * 32 + (31 - b) + 1 := by omega
              exact .inr ⟨start, length + 1, rfl, he ▸ hnext⟩
            · rw [if_neg hb0]
              have he : i * 32 + (31 - b) + 1 = i * 32 + (31 - (b - 1)) := by omega
              rw [he] at hnext
              exact ih (b - 1) start (length + 1) (by omega) (by omega) hnext
      | true =>
          rw [hhit] at hbit
          have hnext := h.hit_bit hb hbit
          have hle := hitBit_le align b
          rw [scanWord_hit hhit hb (Nat.zero_lt_of_lt h.short)]
          by_cases hb0 : hitBit align b = 0
          · rw [if_pos hb0]
            have he : (i + 1) * 32 = i * 32 + (32 - hitBit align b) := by omega
            exact .inr ⟨_, 0, rfl, he ▸ hnext⟩
          · rw [if_neg hb0]
            have he : i * 32 + (31 - (hitBit align b - 1)) = i * 32 + (32 - hitBit align b) := by
              omega
            exact ih (hitBit align b - 1) _ 0 (by omega) (by omega) (he.symm ▸ hnext)

/-- The scan of the remaining words: a first fit inside both the window and the
array, which is then set; or nothing fits in the window; or nothing fits in the
array and the window is longer, so that the scan leaves the array. -/
theorem scanWords_cases {s : σ} {count : Nat} {align : Bool} (n i start length : Nat)
    (h : ScanInv s count align (i * 32) start length) (hi : i ≤ WordArray.size σ) :
    (∃ r, FirstFit s (32 * min (WordArray.size σ) (i + n)) count align r.start ∧
      r.length = count ∧ scanWords s count align n i start length =
        applyBitrange s r true >>= fun s' ↦ .ok (r, s')) ∨
    (i + n ≤ WordArray.size σ ∧ (∀ a, ¬ Fits s (32 * (i + n)) count align a) ∧
      scanWords s count align n i start length = .ok (⟨0, 0⟩, s)) ∨
    (WordArray.size σ < i + n ∧ (∀ a, ¬ Fits s (32 * WordArray.size σ) count align a) ∧
      scanWords s count align n i start length = .error .fault) := by
  induction n generalizing i start length with
  | zero =>
      exact .inr (.inl ⟨hi, fun a ↦ h.not_fits (by omega), rfl⟩)
  | succ n ih =>
      by_cases hlt : i < WordArray.size σ
      · have hp : ScanInv s count align (i * 32 + (31 - 31)) start length := by simpa using h
        rcases scanWord_spec (32 * min (WordArray.size σ) (i + (n + 1)))
          (by omega) 32 31 start length (by omega) (by omega) hp with
          ⟨r, hr, hlen, hf⟩ | ⟨start', length', hr, hinv⟩
        · refine .inl ⟨r, hf, hlen, ?_⟩
          rw [scanWords, if_pos hlt, hr]
        · have hstep : scanWords s count align (n + 1) i start length =
              scanWords s count align n (i + 1) start' length' := by
            rw [scanWords, if_pos hlt, hr]
          rw [hstep]
          have he : i + (n + 1) = i + 1 + n := by omega
          rw [he]
          exact ih (i + 1) start' length' hinv (by omega)
      · refine .inr (.inr ⟨by omega, fun a ↦ h.not_fits (by omega), ?_⟩)
        rw [scanWords, if_neg hlt]

/-! ## The call -/

/-- The three outcomes of `alloc_bitrange`. -/
theorem allocBitrange_cases (s : σ) (capacity : Nat) {count : Nat} (align : Bool)
    (hc : 0 < count) :
    (∃ r, FirstFit s (32 * min (WordArray.size σ) (capacity / 4)) count align r.start ∧
      r.length = count ∧ allocBitrange s capacity count align =
        applyBitrange s r true >>= fun s' ↦ .ok (r, s')) ∨
    (capacity / 4 ≤ WordArray.size σ ∧
      (∀ a, ¬ Fits s (32 * (capacity / 4)) count align a) ∧
      allocBitrange s capacity count align = .ok (⟨0, 0⟩, s)) ∨
    (WordArray.size σ < capacity / 4 ∧
      (∀ a, ¬ Fits s (32 * WordArray.size σ) count align a) ∧
      allocBitrange s capacity count align = .error .fault) := by
  have h := scanWords_cases (capacity / 4) 0 0 0
    (by simpa using ScanInv.zero s align hc) (Nat.zero_le _)
  simpa only [Nat.zero_add, allocBitrange] using h

/-- A call that returns either set a first fit, which ends before the last bit of the
array, or found that nothing fits and left the array alone. -/
theorem allocBitrange_ok [LawfulWordArray σ] {s s' : σ} {capacity count : Nat} {align : Bool}
    {r : BitRange} (hc : 0 < count) (hcap : capacity / 4 < 65535)
    (h : allocBitrange s capacity count align = .ok (r, s')) :
    (r.length = count ∧
      FirstFit s (32 * min (WordArray.size σ) (capacity / 4)) count align r.start ∧
      WordArray.Filled s s' r.start count true ∧
      (r.start + count) / 32 < WordArray.size σ) ∨
    (r = ⟨0, 0⟩ ∧ s' = s ∧ capacity / 4 ≤ WordArray.size σ ∧
      ∀ a, ¬ Fits s (32 * (capacity / 4)) count align a) := by
  rcases allocBitrange_cases s capacity align hc with
    ⟨r', hf, hlen, he⟩ | ⟨hsize, hno, he⟩ | ⟨_, _, he⟩
  · rw [he, bind_eq_ok] at h
    obtain ⟨t, ht, hr⟩ := h
    cases hr
    have hin := hf.inside
    obtain ⟨hend, hfill⟩ := applyBitrange_ok ht (by omega) (by rw [hlen]; omega)
    rw [hlen] at hfill hend
    exact .inl ⟨hlen, hf, hfill, hend⟩
  · rw [he] at h
    cases h
    exact .inr ⟨rfl, rfl, hsize, hno⟩
  · rw [he] at h
    cases h

/-- If something fits, and ends before the last bit of the array, the call
returns the first fit. -/
theorem allocBitrange_of_fits [LawfulWordArray σ] {s : σ} {capacity count a : Nat}
    {align : Bool} (hc : 0 < count) (hfit : Fits s (32 * (capacity / 4)) count align a)
    (hend : a + count < 32 * WordArray.size σ) (hstop : (a + count) / 32 < 65535) :
    ∃ r s', allocBitrange s capacity count align = .ok (r, s') ∧ r.length = count ∧
      FirstFit s (32 * (capacity / 4)) count align r.start ∧
      WordArray.Filled s s' r.start count true := by
  have hfit' : Fits s (32 * min (WordArray.size σ) (capacity / 4)) count align a :=
    ⟨hfit.aligned, by have := hfit.inside; omega, hfit.clear⟩
  rcases allocBitrange_cases s capacity align hc with
    ⟨r, hf, hlen, he⟩ | ⟨_, hno, _⟩ | ⟨_, hno, _⟩
  · have hle := hf.le hfit'
    have hin := hf.inside
    obtain ⟨s', hs', hfill⟩ := applyBitrange_spec s r true (by omega) (by rw [hlen]; omega)
      (by rw [hlen]; omega)
    rw [hlen] at hfill
    refine ⟨r, s', ?_, hlen, hf.of_inside (by omega), hfill⟩
    rw [he, hs', ok_bind]
  · exact absurd hfit (hno a)
  · exact absurd (⟨hfit.aligned, by omega, hfit.clear⟩ : Fits s _ count align a) (hno a)

/-! ## Requests for no bits -/

/-- A scan for no bits stops at the first set bit, with a range of length 0. -/
theorem scanWord_zero {word : Word} {i : Nat} {align : Bool} (fuel b start length : Nat)
    (hb : b < 32) {r : BitRange} (h : scanWord word i 0 align fuel b start length = .inl r) :
    r.length = 0 ∧ r.start ≤ (i + 1) * 32 := by
  induction fuel generalizing b start length with
  | zero => cases h
  | succ fuel ih =>
      cases hhit : word.getLsbD b with
      | false =>
          simp only [scanWord, hhit, Bool.false_and, if_false, Bool.false_eq_true,
            Nat.succ_ne_zero] at h
          split at h
          · cases h
          · exact ih (b - 1) start (length + 1) (by omega) h
      | true =>
          simp only [scanWord, hhit, if_true] at h
          cases h
          refine ⟨rfl, ?_⟩
          split <;> split <;> dsimp only <;> omega

theorem scanWords_zero_length {s s' : σ} {align : Bool} {n i start length : Nat} {r : BitRange}
    (h : scanWords s 0 align n i start length = .ok (r, s')) : r.length = 0 := by
  induction n generalizing i start length with
  | zero =>
      cases h
      rfl
  | succ n ih =>
      rw [scanWords] at h
      split at h
      · split at h
        · rename_i hw
          rw [bind_eq_ok] at h
          obtain ⟨t, -, hr⟩ := h
          cases hr
          exact (scanWord_zero 32 31 start length (by decide) hw).1
        · exact ih h
      · cases h

/-- A request for no bits is answered with length 0, when the window lies strictly
inside the array. -/
theorem scanWords_zero (s : σ) (align : Bool) (n i start length : Nat)
    (hin : i + n < WordArray.size σ) (hcap : i + n < 65535) :
    ∃ r s', scanWords s 0 align n i start length = .ok (r, s') ∧ r.length = 0 := by
  induction n generalizing i start length with
  | zero => exact ⟨⟨0, 0⟩, s, rfl, rfl⟩
  | succ n ih =>
      rw [scanWords, if_pos (by omega)]
      cases hw : scanWord (WordArray.get s i) i 0 align 32 31 start length with
      | inr p => exact ih (i + 1) p.1 p.2 (by omega) (by omega)
      | inl r =>
          obtain ⟨hlen, hstart⟩ := scanWord_zero 32 31 start length (by omega) hw
          have happly : ∃ s', applyBitrange s r true = .ok s' := by
            rw [applyBitrange]
            split
            · exact ⟨s, rfl⟩
            · have hmod : (r.start + r.length) % 2 ^ 32 = r.start := by
                rw [hlen]
                exact Nat.mod_eq_of_lt (by omega)
              have hword : r.start / 32 % 2 ^ 16 = r.start / 32 := Nat.mod_eq_of_lt (by omega)
              refine ⟨WordArray.set s (r.start / 32) (applyMask true
                (firstMask (r.start % 32) ^^^ maskFrom (r.start % 32))
                (WordArray.get s (r.start / 32))), ?_⟩
              simp only [hmod, hword, applyFuel, applyWords, le_refl, if_true]
              exact updateWord_eq (by omega) _
          obtain ⟨s', hs'⟩ := happly
          exact ⟨r, s', by simp only [hs', ok_bind], hlen⟩

theorem allocBitrange_zero (s : σ) (capacity : Nat) (align : Bool)
    (hin : capacity / 4 < WordArray.size σ) (hcap : capacity / 4 < 65535) :
    ∃ r s', allocBitrange s capacity 0 align = .ok (r, s') ∧ r.length = 0 :=
  scanWords_zero s align (capacity / 4) 0 0 0 (by omega) (by omega)

end Yorha.Util
