import Yorha.Lib.Exec

/-!
# Calls that keep a log

`Logged ι ε α` is a call that may stop, with a log of what it did.  The log is meaningful even
for a call that does not return: what was done before it stopped was done.

`result` forgets the log, and commutes with sequencing.  So a program that logs what it does is
compared with the program itself by rewriting.  `All p` says that every entry of a log satisfies
`p`; of a sequence it says so of both parts, and of the second only for what the first returns.
-/

universe u v w

namespace Yorha.Lib

/-- A call that may stop, with the entries that it has logged up to its return or stop. -/
structure Logged (ι : Type w) (ε : Type v) (α : Type u) where
  /-- The entries, the first first. -/
  log : List ι
  /-- What the call returns. -/
  result : Except ε α

namespace Logged

variable {ι : Type w} {ε : Type v} {α β : Type u} {p : ι → Prop}

/-- A call that logs nothing. -/
def lift (x : Except ε α) : Logged ι ε α := ⟨[], x⟩

/-- A call before which an entry is logged. -/
def note (i : ι) (x : Except ε α) : Logged ι ε α := ⟨[i], x⟩

/-- Where the first call stops, the second logs nothing. -/
instance instMonad : Monad (Logged ι ε) where
  pure a := ⟨[], .ok a⟩
  bind x f :=
    ⟨x.log ++ x.result.toOption.elim [] fun a ↦ (f a).log, x.result >>= fun a ↦ (f a).result⟩

/-! ## Results -/

@[simp] theorem result_pure (a : α) : (pure a : Logged ι ε α).result = .ok a := rfl

@[simp] theorem result_lift (x : Except ε α) : (lift x : Logged ι ε α).result = x := rfl

@[simp] theorem result_note (i : ι) (x : Except ε α) : (note i x).result = x := rfl

/-- The result of a sequence is the sequence of the results. -/
@[simp] theorem result_bind (x : Logged ι ε α) (f : α → Logged ι ε β) :
    (x >>= f).result = x.result >>= fun a ↦ (f a).result := rfl

@[simp] theorem result_ite {c : Prop} [Decidable c] (x y : Logged ι ε α) :
    (if c then x else y).result = if c then x.result else y.result := apply_ite ..

/-! ## Logs -/

/-- Every entry of the log satisfies `p`. -/
def All (p : ι → Prop) (x : Logged ι ε α) : Prop := ∀ i ∈ x.log, p i

@[simp] theorem all_pure (a : α) : (pure a : Logged ι ε α).All p := List.forall_mem_nil p

@[simp] theorem all_lift (x : Except ε α) : (lift x : Logged ι ε α).All p := List.forall_mem_nil p

@[simp] theorem all_note {i : ι} {x : Except ε α} : (note i x).All p ↔ p i :=
  List.forall_mem_singleton

/-- **Sequencing.**  The second call logs only if the first returns. -/
@[simp] theorem all_bind {x : Logged ι ε α} {f : α → Logged ι ε β} :
    (x >>= f).All p ↔ x.All p ∧ ∀ a, x.result = .ok a → (f a).All p := by
  change (∀ i ∈ x.log ++ _, p i) ↔ _
  rw [List.forall_mem_append]
  refine and_congr_right fun _ ↦ ?_
  cases x.result with
  | ok a =>
      constructor
      · rintro h b ⟨⟩
        exact h
      · exact fun h ↦ h a rfl
  | error e => exact ⟨fun _ b hb ↦ absurd hb.symm ok_ne_error, fun _ ↦ List.forall_mem_nil p⟩

end Logged

end Yorha.Lib
