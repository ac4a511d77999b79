import Mathlib.Data.List.Induction

/-!
# Line editing

What a user means who types characters: one of them erases the last character of the line,
one ends the line, and the others belong to it.  Lines that are empty when they end do not
count.
-/

universe u

namespace Yorha.Lib

variable {α : Type u}

/-- The lines that have ended, and the one that is typed. -/
structure Editor (α : Type u) where
  lines : List (List α)
  line : List α

namespace Editor

/-- Nothing has been typed. -/
def empty : Editor α := ⟨[], []⟩

variable [DecidableEq α] (erase enter : α)

/-- One character. -/
def type (e : Editor α) (c : α) : Editor α :=
  if c = erase then { e with line := e.line.dropLast }
  else if c = enter then
    if e.line = [] then e else ⟨e.lines ++ [e.line], []⟩
  else { e with line := e.line ++ [c] }

/-- What a sequence of characters makes. -/
def typed (cs : List α) : Editor α := cs.foldl (type erase enter) empty

variable {erase enter}

theorem typed_append (cs : List α) (c : α) :
    typed erase enter (cs ++ [c]) = (typed erase enter cs).type erase enter c := by
  rw [typed, List.foldl_append]
  rfl

/-- A line has no characters but those typed. -/
theorem mem_of_mem_line {cs : List α} {c : α} (h : c ∈ (typed erase enter cs).line) : c ∈ cs := by
  induction cs using List.reverseRecOn with
  | nil => exact h
  | append_singleton cs d ih =>
      rw [typed_append, type] at h
      rw [List.mem_append]
      split at h
      · exact .inl (ih (List.dropLast_subset _ h))
      · split at h
        · split at h
          · exact .inl (ih h)
          · exact absurd h List.not_mem_nil
        · rcases List.mem_append.mp h with h | h
          · exact .inl (ih h)
          · exact .inr h

end Editor

end Yorha.Lib
