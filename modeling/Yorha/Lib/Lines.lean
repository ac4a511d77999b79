import Mathlib.Data.List.Basic

/-!
# The last lines of a text

A text is cut into lines by a separator: there is one line more than there are separators, and
the last one may be empty.  `lastLines n` is what is left of a text when only its last `n`
lines are kept.

Where a text is cut in two, the second part is its last `n` lines in two cases only
(`eq_lastLines_iff`): there is nothing before it and it has fewer than `n` separators, or a
separator is before it and it has exactly `n - 1`.
-/

universe u

namespace Yorha.Lib

variable {α : Type u} [DecidableEq α] {sep : α} {n : Nat} {t u v : List α}

/-- The text that the last `n` lines make, or all lines if there are fewer. -/
def lastLines (sep : α) (n : Nat) (t : List α) : List α :=
  [sep].intercalate ((t.splitOn sep).drop ((t.splitOn sep).length - n))

/-- There is one line more than there are separators. -/
theorem length_splitOn (sep : α) (t : List α) : (t.splitOn sep).length = t.count sep + 1 := by
  induction t with
  | nil => rfl
  | cons a t ih =>
      rw [List.splitOn_cons_eq_if_modifyHead, List.count_cons]
      split
      · rw [List.length_cons, ih]
      · rw [List.length_modifyHead, ih, Nat.add_zero]

/-- A text of at most `n` lines is kept. -/
theorem lastLines_of_count_lt (h : t.count sep < n) : lastLines sep n t = t := by
  have hdrop : (t.splitOn sep).length - n = 0 := by
    rw [length_splitOn]
    exact Nat.sub_eq_zero_of_le h
  rw [lastLines, hdrop, List.drop_zero, List.intercalate_splitOn]

/-- Behind a separator are the last lines. -/
theorem lastLines_append (h : v.count sep + 1 = n) : lastLines sep n (u ++ sep :: v) = v := by
  have hdrop : (u.splitOn sep ++ v.splitOn sep).length - n = (u.splitOn sep).length := by
    rw [List.length_append, length_splitOn sep v, h, Nat.add_sub_cancel]
  rw [lastLines, List.splitOn_append_cons_self, hdrop, List.drop_left, List.intercalate_splitOn]

/-- A text with `n` separators or more is cut at one of them. -/
theorem exists_lastLines (hn : 0 < n) (h : n ≤ t.count sep) :
    ∃ u v, t = u ++ sep :: v ∧ v.count sep + 1 = n := by
  induction t with
  | nil => exact absurd (Nat.lt_of_lt_of_le hn h) (Nat.lt_irrefl 0)
  | cons a t ih =>
      by_cases ht : n ≤ t.count sep
      · obtain ⟨u, v, rfl, hv⟩ := ih ht
        exact ⟨a :: u, v, rfl, hv⟩
      · rw [List.count_cons] at h
        split at h
        · rename_i ha
          obtain rfl := beq_iff_eq.mp ha
          exact ⟨[], t, rfl, by omega⟩
        · exact absurd h ht

/-- A text of more than `n` lines is cut to `n` lines. -/
theorem count_lastLines (hn : 0 < n) (h : n ≤ t.count sep) :
    (lastLines sep n t).count sep + 1 = n := by
  obtain ⟨u, v, rfl, hv⟩ := exists_lastLines hn h
  rw [lastLines_append hv]
  exact hv

/-- **Where the last lines start**: at the start of the text, or behind a separator. -/
theorem eq_lastLines_iff (hn : 0 < n) : v = lastLines sep n (u ++ v) ↔
    u = [] ∧ v.count sep < n ∨ u.getLast? = some sep ∧ v.count sep + 1 = n := by
  constructor
  · intro heq
    by_cases hcount : (u ++ v).count sep < n
    · rw [lastLines_of_count_lt hcount, List.self_eq_append_left] at heq
      subst heq
      exact .inl ⟨rfl, hcount⟩
    · obtain ⟨u', v', hcut, hv'⟩ := exists_lastLines hn (Nat.le_of_not_lt hcount)
      rw [hcut, lastLines_append hv'] at heq
      subst heq
      have hu : u = u' ++ [sep] := by
        rw [← List.append_left_inj v, hcut, List.append_assoc]
        rfl
      exact .inr ⟨List.getLast?_eq_some_iff.mpr ⟨u', hu⟩, hv'⟩
  · rintro (⟨rfl, hcount⟩ | ⟨hlast, hcount⟩)
    · exact (lastLines_of_count_lt hcount).symm
    · obtain ⟨u', rfl⟩ := List.getLast?_eq_some_iff.mp hlast
      rw [List.append_assoc]
      exact (lastLines_append hcount).symm

end Yorha.Lib
