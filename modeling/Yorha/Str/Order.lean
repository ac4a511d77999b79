import Mathlib.Data.Int.Order.Basic
import Mathlib.Data.List.Lex
import Yorha.Str.Basic

/-!
# The order of strings

`strcmp` compares two arrays byte by byte until they differ or the first one ends.  On strings
it reads neither of them past its terminator, and the sign of what it returns is that of the
lexicographic order, for the values that a signed `char` has, with the terminator as a 0
(`strcmp_totalOrder`).
-/

namespace Yorha.Str

open Yorha.Lib

/-- `strcmp`, on arrays of which `limit1` and `limit2` bytes are left. -/
def strcmpArrays : Nat → Nat → Bytes → Bytes → Except Stop Int
  | limit1 + 1, limit2 + 1, str1, str2 =>
      if str1 0 ≠ 0 ∧ str1 0 = str2 0 then
        strcmpArrays limit1 limit2 (str1.drop 1) (str2.drop 1)
      else .ok (charValue (str1 0) - charValue (str2 0))
  | _, _, _, _ => .error .fault

/-- The values of a string's characters, and of its terminator. -/
def values (s : List UInt8) : List Int := (s ++ [0]).map charValue

/-- What `strcmp` returns for two strings. -/
def CString.cmp (s t : CString) : Int := strcmp (Bytes.ofList s.chars) t.chars

theorem values_cons (c : UInt8) (s : List UInt8) : values (c :: s) = charValue c :: values s :=
  rfl

/-- The bytes of a list lead to it as a string. -/
theorem isString_ofList (s : List UInt8) : (Bytes.ofList s).IsString s := by
  refine ⟨fun i hi ↦ Bytes.ofList_of_lt hi, ?_⟩
  rw [Bytes.ofList, List.getD_eq_getElem?_getD, List.getElem?_eq_none le_rfl]
  rfl

/-- The first difference decides. -/
theorem lex_cons_of_ne {a b : Int} {l l' : List Int} (h : a ≠ b) :
    List.Lex (· < ·) (a :: l) (b :: l') ↔ a < b := by
  constructor
  · rintro (_ | hlt | _)
    · exact hlt
    · exact absurd rfl h
  · exact fun hlt ↦ .rel hlt

/-! ## Strings -/

section

variable {str1 str2 : Bytes} {s t : List UInt8}

/-- `strcmp` depends on the first string only. -/
theorem strcmp_congr (h₁ : str1.IsString s) (h₂ : str2.IsString s) (hs : 0 ∉ s) :
    strcmp str1 t = strcmp str2 t := by
  induction t generalizing str1 str2 s with
  | nil =>
      cases s with
      | nil => rw [strcmp, strcmp, Bytes.isString_nil.mp h₁, Bytes.isString_nil.mp h₂]
      | cons c s =>
          rw [strcmp, strcmp, (Bytes.isString_cons.mp h₁).1, (Bytes.isString_cons.mp h₂).1]
  | cons d t ih =>
      cases s with
      | nil => rw [strcmp, strcmp, Bytes.isString_nil.mp h₁, Bytes.isString_nil.mp h₂,
          if_neg (fun h ↦ h.1 rfl), if_neg (fun h ↦ h.1 rfl)]
      | cons c s =>
          obtain ⟨hc₁, hs₁⟩ := Bytes.isString_cons.mp h₁
          obtain ⟨hc₂, hs₂⟩ := Bytes.isString_cons.mp h₂
          rw [strcmp, strcmp, hc₁, hc₂, ih hs₁ hs₂ fun h ↦ hs (List.mem_cons_of_mem c h)]

/-- **No byte past a terminator is read.**  In arrays that end with their strings, `strcmp`
stays inside. -/
theorem strcmpArrays_eq_ok (h₁ : str1.IsString s) (h₂ : str2.IsString t) (hs : 0 ∉ s)
    (ht : 0 ∉ t) :
    strcmpArrays (s.length + 1) (t.length + 1) str1 str2 = .ok (strcmp str1 t) := by
  induction t generalizing str1 str2 s with
  | nil =>
      have hend : str2 0 = 0 := Bytes.isString_nil.mp h₂
      have hstop : ¬ (str1 0 ≠ 0 ∧ str1 0 = 0) := fun h ↦ h.1 h.2
      rw [List.length_nil, strcmpArrays, hend, if_neg hstop, strcmp,
        charValue_eq_zero.mpr rfl, Int.sub_zero]
  | cons d t ih =>
      obtain ⟨hd, ht₂⟩ := Bytes.isString_cons.mp h₂
      rw [List.length_cons, strcmpArrays, strcmp, hd]
      split
      · rename_i hc
        cases s with
        | nil => exact absurd (Bytes.isString_nil.mp h₁) hc.1
        | cons c s =>
            obtain ⟨-, hs₁⟩ := Bytes.isString_cons.mp h₁
            exact ih hs₁ ht₂ (fun h ↦ hs (List.mem_cons_of_mem c h))
              fun h ↦ ht (List.mem_cons_of_mem d h)
      · rfl

/-- The sign of `strcmp` says which string comes first. -/
theorem strcmp_neg_iff (h : str1.IsString s) (hs : 0 ∉ s) (ht : 0 ∉ t) :
    strcmp str1 t < 0 ↔ List.Lex (· < ·) (values s) (values t) := by
  induction t generalizing str1 s with
  | nil =>
      cases s with
      | nil =>
          rw [strcmp, Bytes.isString_nil.mp h]
          decide
      | cons c s =>
          have hzero : charValue c ≠ charValue 0 := by
            rw [Ne, charValue_inj]
            rintro rfl
            exact hs List.mem_cons_self
          rw [strcmp, (Bytes.isString_cons.mp h).1, values_cons]
          exact (lex_cons_of_ne hzero).symm
  | cons d t ih =>
      have hd : charValue 0 ≠ charValue d := by
        rw [Ne, charValue_inj]
        rintro rfl
        exact ht List.mem_cons_self
      -- where the characters differ, their difference decides
      have hdiffer : ∀ {c : UInt8} {l l' : List Int}, charValue c ≠ charValue d →
          (charValue c - charValue d < 0 ↔
            List.Lex (· < ·) (charValue c :: l) (charValue d :: l')) := by
        intro c l l' hne
        rw [lex_cons_of_ne hne]
        omega
      rw [strcmp, values_cons]
      cases s with
      | nil =>
          rw [Bytes.isString_nil.mp h, if_neg (fun h ↦ h.1 rfl)]
          exact hdiffer hd
      | cons c s =>
          obtain ⟨hc, hs₁⟩ := Bytes.isString_cons.mp h
          rw [hc, values_cons]
          split
          · rename_i heq
            obtain ⟨-, rfl⟩ := heq
            rw [ih hs₁ (fun h ↦ hs (List.mem_cons_of_mem c h))
              fun h ↦ ht (List.mem_cons_of_mem c h), List.lex_cons_iff]
          · rename_i hne
            refine hdiffer fun heq ↦ hne ⟨?_, charValue_inj.mp heq⟩
            rintro rfl
            exact hs List.mem_cons_self

/-- Comparing the other way round gives the opposite number. -/
theorem strcmp_neg (h₁ : str1.IsString s) (h₂ : str2.IsString t) (hs : 0 ∉ s) (ht : 0 ∉ t) :
    strcmp str2 s = -strcmp str1 t := by
  induction t generalizing str1 str2 s with
  | nil =>
      rw [strcmp]
      cases s with
      | nil => rw [strcmp, Bytes.isString_nil.mp h₁, Bytes.isString_nil.mp h₂]; rfl
      | cons c s =>
          rw [strcmp, Bytes.isString_nil.mp h₂, if_neg (fun h ↦ h.1 rfl),
            (Bytes.isString_cons.mp h₁).1, charValue_eq_zero.mpr rfl, Int.zero_sub]
  | cons d t ih =>
      obtain ⟨hd, ht₂⟩ := Bytes.isString_cons.mp h₂
      cases s with
      | nil =>
          rw [strcmp, strcmp, Bytes.isString_nil.mp h₁, if_neg (fun h ↦ h.1 rfl), hd,
            charValue_eq_zero.mpr rfl, Int.zero_sub, Int.neg_neg]
      | cons c s =>
          obtain ⟨hc, hs₁⟩ := Bytes.isString_cons.mp h₁
          have hc₀ : c ≠ 0 := by
            rintro rfl
            exact hs List.mem_cons_self
          rw [strcmp, strcmp, hc, hd]
          by_cases heq : c = d
          · subst heq
            rw [if_pos ⟨hc₀, rfl⟩, if_pos ⟨hc₀, rfl⟩]
            exact ih hs₁ ht₂ (fun h ↦ hs (List.mem_cons_of_mem c h))
              fun h ↦ ht (List.mem_cons_of_mem c h)
          · rw [if_neg fun h ↦ heq h.2.symm, if_neg fun h ↦ heq h.2, Int.neg_sub]

end

/-! ## The order -/

/-- What it means that strings are compared as in a dictionary: the three strings stand for
any. -/
structure Compares (a b c : CString) : Prop where
  /-- No byte behind a terminator is read. -/
  inside : ∀ str1 str2 : Bytes, str1.IsString a.chars → str2.IsString b.chars →
    strcmpArrays (a.chars.length + 1) (b.chars.length + 1) str1 str2 = .ok (a.cmp b)
  eq_zero : a.cmp b = 0 ↔ a = b
  neg : b.cmp a = -a.cmp b
  trans : a.cmp b ≤ 0 → b.cmp c ≤ 0 → a.cmp c ≤ 0
  total : a.cmp b ≤ 0 ∨ b.cmp a ≤ 0
  lex : a.cmp b < 0 ↔ List.Lex (· < ·) (values a.chars) (values b.chars)

theorem cmp_neg_iff (a b : CString) :
    a.cmp b < 0 ↔ List.Lex (· < ·) (values a.chars) (values b.chars) :=
  strcmp_neg_iff (isString_ofList _) a.nonzero b.nonzero

theorem cmp_neg (a b : CString) : b.cmp a = -a.cmp b :=
  strcmp_neg (isString_ofList _) (isString_ofList _) a.nonzero b.nonzero

theorem cmp_eq_zero {a b : CString} : a.cmp b = 0 ↔ a = b := by
  rw [CString.cmp, strcmp_eq_zero b.nonzero]
  constructor
  · intro h
    have hchars := (isString_ofList a.chars).unique h a.nonzero b.nonzero
    obtain ⟨s, hs⟩ := a
    obtain ⟨t, ht⟩ := b
    cases hchars
    rfl
  · rintro rfl
    exact isString_ofList _

/-- A string that does not come after another does not have it in front. -/
theorem cmp_le_iff (a b : CString) :
    a.cmp b ≤ 0 ↔ ¬ List.Lex (· < ·) (values b.chars) (values a.chars) := by
  rw [← cmp_neg_iff, cmp_neg a b]
  omega

/-- **`strcmp` is a total order**, that of the dictionary, on strings: it reads no byte behind
a terminator, it is 0 on equal strings only, its sign is antisymmetric, and the order is
transitive, total and lexicographic for the values of a signed `char`. -/
theorem strcmp_totalOrder (a b c : CString) : Compares a b c where
  inside := by
    intro str1 str2 h₁ h₂
    rw [strcmpArrays_eq_ok h₁ h₂ a.nonzero b.nonzero, CString.cmp,
      strcmp_congr h₁ (isString_ofList _) a.nonzero]
  eq_zero := cmp_eq_zero
  neg := cmp_neg a b
  trans := by
    intro hab hbc
    rw [cmp_le_iff] at hab hbc ⊢
    exact fun hca ↦ (IsOrderConnected.conn _ (values b.chars) _ hca).elim hbc hab
  total := by
    rw [cmp_neg a b]
    omega
  lex := cmp_neg_iff a b

end Yorha.Str
