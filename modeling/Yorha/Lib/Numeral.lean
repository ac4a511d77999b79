import Mathlib.Data.Nat.Digits.Lemmas

/-!
# Numerals

Numbers as lists of digits, most significant first: all the digits up to a certain one
(`lastDigits`), or as many as are needed (`shortest`).  A numeral is read with a function that
says which digit a character stands for.
-/

universe u

namespace Yorha.Lib.Numeral

/-- The number that a list of digits stands for. -/
def value (b : Nat) (digits : List Nat) : Nat := Nat.ofDigits b digits.reverse

/-- The last `n` digits of a number. -/
def lastDigits (b : Nat) : Nat → Nat → List Nat
  | 0, _ => []
  | n + 1, v => lastDigits b n (v / b) ++ [v % b]

/-- The digits of a number, without leading zeros. -/
def shortest (b v : Nat) : List Nat := if v = 0 then [0] else (Nat.digits b v).reverse

variable {b n v d : Nat}

@[simp] theorem value_nil : value b [] = 0 := rfl

@[simp] theorem value_append_singleton (digits : List Nat) :
    value b (digits ++ [d]) = d + b * value b digits := by
  rw [value, List.reverse_append, List.reverse_singleton, List.singleton_append,
    Nat.ofDigits_cons]
  rfl

/-! ## A fixed number of digits -/

@[simp] theorem length_lastDigits (b n v : Nat) : (lastDigits b n v).length = n := by
  induction n generalizing v with
  | zero => rfl
  | succ n ih => rw [lastDigits, List.length_append, ih, List.length_singleton]

theorem lt_of_mem_lastDigits (hb : 0 < b) (h : d ∈ lastDigits b n v) : d < b := by
  induction n generalizing v with
  | zero => cases h
  | succ n ih =>
      rw [lastDigits, List.mem_append, List.mem_singleton] at h
      rcases h with h | rfl
      · exact ih h
      · exact Nat.mod_lt _ hb

/-- The first of the digits, and the others. -/
theorem lastDigits_succ (b n v : Nat) :
    lastDigits b (n + 1) v = v / b ^ n % b :: lastDigits b n v := by
  induction n generalizing v with
  | zero => rw [pow_zero, Nat.div_one]; rfl
  | succ n ih =>
      rw [lastDigits, ih, Nat.div_div_eq_div_mul, ← Nat.pow_succ']
      rfl

theorem getElem_lastDigits {i : Nat} (h : i < (lastDigits b n v).length) :
    (lastDigits b n v)[i] = v / b ^ (n - 1 - i) % b := by
  induction n generalizing i with
  | zero => cases h
  | succ n ih =>
      rw [List.getElem_of_eq (lastDigits_succ b n v)]
      cases i with
      | zero => rfl
      | succ i =>
          have hexp : n + 1 - 1 - (i + 1) = n - 1 - i := by omega
          rw [List.getElem_cons_succ, ih, hexp]

/-- Enough digits give the number back. -/
theorem value_lastDigits (h : v < b ^ n) : value b (lastDigits b n v) = v := by
  induction n generalizing v with
  | zero =>
      rw [pow_zero, Nat.lt_one_iff] at h
      rw [h]
      rfl
  | succ n ih =>
      rw [lastDigits, value_append_singleton, ih, Nat.mod_add_div]
      exact Nat.div_lt_of_lt_mul (by rwa [← Nat.pow_succ'])

/-! ## As many digits as are needed -/

theorem shortest_of_lt (h : v < b) : shortest b v = [v] := by
  rw [shortest]
  split
  · rename_i hv
    rw [hv]
  · rename_i hv
    rw [Nat.digits_of_lt b v hv h, List.reverse_singleton]

/-- The last digit comes behind those of the quotient. -/
theorem shortest_of_le (hb : 1 < b) (h : b ≤ v) :
    shortest b v = shortest b (v / b) ++ [v % b] := by
  have hv : v ≠ 0 := by omega
  have hq : v / b ≠ 0 := Nat.ne_of_gt (Nat.div_pos h (by omega))
  rw [shortest, shortest, if_neg hv, if_neg hq, Nat.digits_eq_cons_digits_div hb hv,
    List.reverse_cons]

theorem shortest_ne_nil (b v : Nat) : shortest b v ≠ [] := by
  rw [shortest]
  split
  · exact List.cons_ne_nil _ _
  · rename_i hv
    exact List.reverse_ne_nil_iff.mpr (Nat.digits_ne_nil_iff_ne_zero.mpr hv)

theorem length_shortest_le {k : Nat} (hk : 0 < k) (h : v < b ^ k) : (shortest b v).length ≤ k := by
  rw [shortest]
  split
  · exact hk
  · rename_i hv
    have hb : 1 < b := by
      by_contra hb
      have hle : b ^ k ≤ 1 ^ k := Nat.pow_le_pow_left (by omega) k
      rw [Nat.one_pow] at hle
      omega
    rw [List.length_reverse, Nat.digits_length_le_iff hb]
    exact h

theorem value_shortest (b v : Nat) : value b (shortest b v) = v := by
  rw [shortest]
  split
  · rename_i hv
    rw [hv]
    exact Nat.ofDigits_singleton
  · rw [value, List.reverse_reverse, Nat.ofDigits_digits]

theorem lt_of_mem_shortest (hb : 1 < b) (h : d ∈ shortest b v) : d < b := by
  rw [shortest] at h
  split at h
  · rw [List.mem_singleton.mp h]
    omega
  · exact Nat.digits_lt_base hb (List.mem_reverse.mp h)

/-- Only the numeral of 0 begins with a 0. -/
theorem head?_shortest_ne_zero (h : v ≠ 0) : (shortest b v).head? ≠ some 0 := by
  have hne : Nat.digits b v ≠ [] := Nat.digits_ne_nil_iff_ne_zero.mpr h
  rw [shortest, if_neg h, List.head?_reverse, List.getLast?_eq_some_getLast hne]
  exact fun hzero ↦ Nat.getLast_digit_ne_zero b h (Option.some.inj hzero)

/-! ## Reading -/

section

variable {α : Type u} {digit : Nat → α} {undigit : α → Option Nat}

/-- The digits that the characters stand for, if each stands for one. -/
def readDigits (undigit : α → Option Nat) : List α → Option (List Nat)
  | [] => some []
  | c :: s => do
      let d ← undigit c
      let digits ← readDigits undigit s
      some (d :: digits)

/-- The numbers of `n` numerals of `k` digits each. -/
def readNumbers (undigit : α → Option Nat) (b k : Nat) : Nat → List α → Option (List Nat)
  | 0, _ => some []
  | n + 1, s => do
      let digits ← readDigits undigit (s.take k)
      let vs ← readNumbers undigit b k n (s.drop k)
      some (value b digits :: vs)

theorem readDigits_map {digits : List Nat} (h : ∀ d ∈ digits, undigit (digit d) = some d) :
    readDigits undigit (digits.map digit) = some digits := by
  induction digits with
  | nil => rfl
  | cons d digits ih =>
      rw [List.forall_mem_cons] at h
      rw [List.map_cons, readDigits, h.1, ih h.2]
      rfl

/-- A character that stands for no digit. -/
theorem readDigits_eq_none {s : List α} {c : α} (hc : c ∈ s) (h : undigit c = none) :
    readDigits undigit s = none := by
  induction s with
  | nil => cases hc
  | cons c' s ih =>
      rw [readDigits]
      rcases List.mem_cons.mp hc with rfl | hc
      · rw [h]
        rfl
      · rw [ih hc]
        cases undigit c' <;> rfl

/-- **Numerals of one length, written one after the other, are read back.** -/
theorem readNumbers_flatMap {k : Nat} {vs : List Nat} (hb : 0 < b)
    (hdigit : ∀ d < b, undigit (digit d) = some d) (hvs : ∀ v ∈ vs, v < b ^ k) :
    readNumbers undigit b k vs.length
      (vs.flatMap fun v ↦ (lastDigits b k v).map digit) = some vs := by
  induction vs with
  | nil => rfl
  | cons v vs ih =>
      rw [List.forall_mem_cons] at hvs
      have hlen : ((lastDigits b k v).map digit).length = k := by
        rw [List.length_map, length_lastDigits]
      rw [List.flatMap_cons, List.length_cons, readNumbers, List.take_left' hlen,
        List.drop_left' hlen, readDigits_map fun d hd ↦ hdigit d (lt_of_mem_lastDigits hb hd),
        ih hvs.2]
      simp only [Option.bind_eq_bind, Option.bind_some, value_lastDigits hvs.1]

end

end Yorha.Lib.Numeral
