import Mathlib.Logic.Function.Basic

/-!
# A record in a circle

A sequence is written to `n` slots in a circle, so that each element is in the slot of its
number modulo `n` until the one `n` places later replaces it.  What the slots hold is the last
`n` elements (`Recent`); they are read back in two stretches, up to the last slot and on from
the first (`Recent.read`).
-/

universe u

namespace Yorha.Lib

variable {α : Type u} {n : Nat} {slots : Nat → α} {t : List α}

/-- The slots hold the last `n` elements of a sequence. -/
def Recent (n : Nat) (slots : Nat → α) (t : List α) : Prop :=
  ∀ i (h : i < t.length), t.length ≤ i + n → slots (i % n) = t[i]

theorem recent_nil (n : Nat) (slots : Nat → α) : Recent n slots [] :=
  fun _ h ↦ absurd h (Nat.not_lt_zero _)

/-- Numbers less than `n` apart have slots of their own. -/
theorem mod_ne_of_lt {i j : Nat} (hlt : i < j) (hle : j < i + n) : i % n ≠ j % n := by
  intro heq
  have hdvd : n ∣ j - i := Nat.dvd_of_mod_eq_zero (Nat.sub_mod_eq_zero_of_mod_eq heq.symm)
  exact absurd (Nat.le_of_dvd (Nat.sub_pos_of_lt hlt) hdvd) (by omega)

/-- One element more. -/
theorem Recent.push (h : Recent n slots t) (a : α) :
    Recent n (Function.update slots (t.length % n) a) (t ++ [a]) := by
  intro i hi hn
  rw [List.length_append, List.length_singleton] at hi hn
  rcases Nat.lt_or_eq_of_le (Nat.le_of_lt_succ hi) with hlt | rfl
  · rw [Function.update_of_ne (mod_ne_of_lt hlt (by omega)), List.getElem_append_left hlt]
    exact h i hlt (by omega)
  · rw [Function.update_self, List.getElem_append_right (Nat.le_refl _)]
    exact (List.getElem_singleton _).symm

/-- **Reading back.**  A stretch of slots that does not go past the last one holds the elements
with the numbers from its start on, if all of them are still there. -/
theorem Recent.read (h : Recent n slots t) {i d : Nat} (hd : i + d ≤ t.length)
    (hn : t.length ≤ i + n) (hend : i % n + d ≤ n) :
    ((List.range d).map fun j ↦ slots (i % n + j)) = (t.drop i).take d := by
  have hlen : ((t.drop i).take d).length = d := by
    rw [List.length_take, List.length_drop]
    omega
  apply List.ext_getElem
  · rw [List.length_map, List.length_range, hlen]
  · intro j hj hj'
    rw [hlen] at hj'
    have hslot : (i + j) % n = i % n + j := by
      rw [← Nat.mod_add_mod, Nat.mod_eq_of_lt]
      exact Nat.lt_of_lt_of_le (Nat.add_lt_add_left hj' _) hend
    rw [List.getElem_map, List.getElem_range, List.getElem_take, List.getElem_drop, ← hslot]
    exact h (i + j) (by omega) (by omega)

end Yorha.Lib
