import Mathlib.Data.List.FinRange
import Mathlib.Data.Fintype.Card

/-!
# Requests of a fixed priority

Lines that wait for service, line 0 before line 1 and so on, and the lines that are being
served.  A line is granted service if it waits, is not masked, and neither it nor a line before
it is being served.  The end of a service is that of the first line being served; whoever ends
it need not say which one it is.

Where at most one line is being served, ending its service leaves none, so that every line that
waits can be granted service again.
-/

namespace Yorha.Lib

/-- The first element that satisfies one test or another that agrees with it on the list. -/
theorem find?_congr {α : Type} {l : List α} {p q : α → Bool} (h : ∀ a ∈ l, p a = q a) :
    l.find? p = l.find? q := by
  induction l with
  | nil => rfl
  | cons a l ih =>
      rw [List.find?_cons, List.find?_cons, h a List.mem_cons_self,
        ih fun b hb ↦ h b (List.mem_cons_of_mem a hb)]

/-- The state of `n` lines. -/
structure Arbiter (n : Nat) where
  pending : Fin n → Bool
  masked : Fin n → Bool
  inService : Fin n → Bool

namespace Arbiter

variable {n : Nat} {a : Arbiter n} {i j : Fin n}

/-- The line that would be granted service. -/
def request (a : Arbiter n) : Option (Fin n) :=
  (List.finRange n).find? fun i ↦ a.pending i && !a.masked i &&
    (List.finRange n).all fun j ↦ !(a.inService j && decide (j ≤ i))

/-- A line waits for service. -/
def raise (a : Arbiter n) (i : Fin n) : Arbiter n :=
  { a with pending := Function.update a.pending i true }

/-- The service of a line begins. -/
def serve (a : Arbiter n) (i : Fin n) : Arbiter n :=
  { a with
    pending := Function.update a.pending i false
    inService := Function.update a.inService i true }

/-- The first line being served. -/
def serving (a : Arbiter n) : Option (Fin n) := (List.finRange n).find? a.inService

/-- The service of the first line being served ends. -/
def finish (a : Arbiter n) : Arbiter n :=
  match a.serving with
  | some i => { a with inService := Function.update a.inService i false }
  | none => a

/-- No line is being served. -/
def Quiet (a : Arbiter n) : Prop := ∀ i, a.inService i = false

/-- At most one line is being served. -/
def Single (a : Arbiter n) : Prop := ∀ i j, a.inService i = true → a.inService j = true → i = j

/-- No line is masked. -/
def Open (a : Arbiter n) : Prop := ∀ i, a.masked i = false

theorem Quiet.single (h : a.Quiet) : a.Single := fun i _ hi _ ↦ by
  rw [h i] at hi
  cases hi

theorem Quiet.serve (h : a.Quiet) (i : Fin n) : (a.serve i).Single := by
  have hone : ∀ j, (a.serve i).inService j = true → j = i := by
    intro j hj
    by_contra hne
    change Function.update a.inService i true j = true at hj
    rw [Function.update_of_ne hne, h j] at hj
    cases hj
  intro j k hj hk
  rw [hone j hj, hone k hk]

/-- **The end of the only service.** -/
theorem Single.finish (h : a.Single) : a.finish.Quiet := by
  rw [Arbiter.finish]
  cases hs : a.serving with
  | none =>
      intro i
      have hi := List.find?_eq_none.mp hs i (List.mem_finRange i)
      exact Bool.eq_false_iff.mpr hi
  | some i =>
      have hi : a.inService i = true := List.find?_some hs
      intro j
      change Function.update a.inService i false j = false
      by_cases hj : j = i
      · rw [hj, Function.update_self]
      · rw [Function.update_of_ne hj]
        exact Bool.eq_false_iff.mpr fun h' ↦ hj (h j i h' hi)

@[simp] theorem finish_pending (a : Arbiter n) : a.finish.pending = a.pending := by
  rw [finish]
  split
  · rfl
  · rfl

@[simp] theorem finish_masked (a : Arbiter n) : a.finish.masked = a.masked := by
  rw [finish]
  split
  · rfl
  · rfl

/-- Where nothing is masked or being served, the first line that waits is granted service. -/
theorem request_eq (hquiet : a.Quiet) (hopen : a.Open) :
    a.request = (List.finRange n).find? a.pending := by
  have hnone : ∀ i : Fin n,
      ((List.finRange n).all fun j ↦ !(a.inService j && decide (j ≤ i))) = true := by
    intro i
    exact List.all_eq_true.mpr fun j _ ↦ by rw [hquiet j]; rfl
  rw [request]
  congr 1
  funext i
  rw [hopen i, hnone i, Bool.not_false, Bool.and_true, Bool.and_true]

end Arbiter

end Yorha.Lib
