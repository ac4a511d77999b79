import Mathlib.Logic.Relation

/-!
# Calls that may stop, and the states a sequence of calls reaches

A call of a C program either returns, with a value and the state it leaves, or
stops for one of three reasons: it halts the machine deliberately, it accesses
memory outside every object it may access, or it loops forever.  `Except Stop`
is the monad of such calls, with the state passed explicitly.

`Reaches step ok` relates a state to the ones a sequence of *returning* calls
leads to, when every call satisfies `ok` in the state it is made in.  A call
that stops has no successor: after a fault nothing is known, and after a halt or
in a loop nothing more happens.
-/

universe u v

namespace Yorha.Lib

/-- Why a call does not return. -/
inductive Stop where
  /-- The program halts the machine. -/
  | panic (msg : String)
  /-- An access outside the objects the code may access. -/
  | fault
  /-- A loop that never exits. -/
  | hang
deriving DecidableEq, Repr

/-! ## Sequencing -/

section

variable {ε : Type v} {α β : Type u}

/-- A sequence of two computations returns exactly when both do. -/
theorem bind_eq_ok {x : Except ε α} {f : α → Except ε β} {b : β} :
    (x >>= f) = .ok b ↔ ∃ a, x = .ok a ∧ f a = .ok b := by
  cases x with
  | error e => exact ⟨fun h ↦ (nomatch h), fun ⟨_, h, _⟩ ↦ (nomatch h)⟩
  | ok a => exact ⟨fun h ↦ ⟨a, rfl, h⟩, fun ⟨_, h, h'⟩ ↦ by cases h; exact h'⟩

/-- It stops where one of them does. -/
theorem bind_eq_error {x : Except ε α} {f : α → Except ε β} {e : ε} :
    (x >>= f) = .error e ↔ x = .error e ∨ ∃ a, x = .ok a ∧ f a = .error e := by
  cases x with
  | error e' =>
      exact ⟨fun h ↦ .inl (congrArg Except.error (Except.error.inj h)), fun h ↦ h.elim
        (fun h ↦ congrArg Except.error (Except.error.inj h)) fun ⟨_, h, _⟩ ↦ (nomatch h)⟩
  | ok a =>
      exact ⟨fun h ↦ .inr ⟨a, rfl, h⟩, fun h ↦ h.elim (fun h ↦ (nomatch h))
        fun ⟨_, h, h'⟩ ↦ by cases h; exact h'⟩

@[simp] theorem ok_bind (a : α) (f : α → Except ε β) :
    ((Except.ok a : Except ε α) >>= f) = f a := rfl

@[simp] theorem error_bind (e : ε) (f : α → Except ε β) :
    ((Except.error e : Except ε α) >>= f) = .error e := rfl

@[simp] theorem pure_eq_ok {a b : α} : (pure a : Except ε α) = .ok b ↔ a = b :=
  ⟨fun h ↦ by cases h; rfl, fun h ↦ by cases h; rfl⟩

theorem ok_ne_error {a : α} {e : ε} : (Except.ok a : Except ε α) ≠ .error e :=
  fun h ↦ nomatch h

/-- The value that a call returns, without the state it leaves. -/
def value {σ : Type u} : Except ε (α × σ) → Option α
  | .ok (a, _) => some a
  | .error _ => none

theorem value_eq_some {σ : Type u} {x : Except ε (α × σ)} {a : α} :
    value x = some a ↔ ∃ s, x = .ok (a, s) := by
  constructor
  · intro h
    match x with
    | .ok (_, s) =>
        cases h
        exact ⟨s, rfl⟩
  · rintro ⟨s, rfl⟩
    rfl

theorem toOption_eq_some {x : Except ε α} {a : α} : x.toOption = some a ↔ x = .ok a := by
  cases x with
  | ok b => exact ⟨fun h ↦ congrArg Except.ok (Option.some.inj h), fun h ↦ by cases h; rfl⟩
  | error e => exact ⟨fun h ↦ (nomatch h), fun h ↦ (nomatch h)⟩

theorem isSome_toOption {x : Except ε α} : x.toOption.isSome = true ↔ ∃ a, x = .ok a :=
  Option.isSome_iff_exists.trans (exists_congr fun _ ↦ toOption_eq_some)

/-- Why a call does not return, if it does not. -/
def stop : Except ε α → Option ε
  | .ok _ => none
  | .error e => some e

theorem stop_eq_some {x : Except ε α} {e : ε} : stop x = some e ↔ x = .error e := by
  cases x with
  | ok a => exact ⟨fun h ↦ (nomatch h), fun h ↦ (nomatch h)⟩
  | error e' => exact ⟨fun h ↦ congrArg Except.error (Option.some.inj h), fun h ↦
      congrArg some (Except.error.inj h)⟩

end

/-! ## Enough fuel -/

section

variable {ε : Type v} {α β : Type u} {f : Nat → Except ε α} {a : α}

/-- With enough fuel, the computation returns `a`. -/
def Returns (f : Nat → Except ε α) (a : α) : Prop := ∃ n, ∀ fuel ≥ n, f fuel = .ok a

theorem returns_ok (a : α) : Returns (fun _ ↦ (.ok a : Except ε α)) a := ⟨0, fun _ _ ↦ rfl⟩

theorem Returns.unique {b : α} (h : Returns f a) (h' : Returns f b) : a = b := by
  obtain ⟨n, h⟩ := h
  obtain ⟨m, h'⟩ := h'
  have ha := h (max n m) (Nat.le_max_left n m)
  rw [h' (max n m) (Nat.le_max_right n m)] at ha
  cases ha
  rfl

/-- A computation that returns whenever another one does. -/
theorem Returns.imp {g : Nat → Except ε β} {b : β} (h : Returns f a)
    (himp : ∀ fuel, f fuel = .ok a → g fuel = .ok b) : Returns g b := by
  obtain ⟨n, h⟩ := h
  exact ⟨n, fun fuel hfuel ↦ himp fuel (h fuel hfuel)⟩

/-- What returns with one more step of fuel returns. -/
theorem Returns.succ (h : Returns (fun fuel ↦ f (fuel + 1)) a) : Returns f a := by
  obtain ⟨n, h⟩ := h
  refine ⟨n + 1, fun fuel hfuel ↦ ?_⟩
  cases fuel with
  | zero => exact absurd hfuel (Nat.not_succ_le_zero n)
  | succ fuel => exact h fuel (Nat.le_of_succ_le_succ hfuel)

/-- A sequence of two computations that both return. -/
theorem Returns.bind {g : Nat → α → Except ε β} {b : β} (hf : Returns f a)
    (hg : Returns (fun fuel ↦ g fuel a) b) : Returns (fun fuel ↦ f fuel >>= g fuel) b := by
  obtain ⟨n, hf⟩ := hf
  obtain ⟨m, hg⟩ := hg
  refine ⟨max n m, fun fuel hfuel ↦ ?_⟩
  change (f fuel >>= g fuel) = .ok b
  rw [hf fuel (Nat.le_trans (Nat.le_max_left n m) hfuel), ok_bind]
  exact hg fuel (Nat.le_trans (Nat.le_max_right n m) hfuel)

end

/-! ## Runs -/

section

variable {σ : Type u} {κ ρ : Type v} {step : σ → κ → Except Stop (ρ × σ)}
  {ok : σ → κ → Prop} {s t r : σ}

/-- One returning call that satisfies `ok` in the state it is made in. -/
def Call (step : σ → κ → Except Stop (ρ × σ)) (ok : σ → κ → Prop) (s t : σ) : Prop :=
  ∃ c v, ok s c ∧ step s c = .ok (v, t)

/-- `t` is reached from `s` by a sequence of returning calls, each satisfying
`ok` in the state it is made in. -/
def Reaches (step : σ → κ → Except Stop (ρ × σ)) (ok : σ → κ → Prop) : σ → σ → Prop :=
  Relation.ReflTransGen (Call step ok)

theorem Reaches.refl (s : σ) : Reaches step ok s s := Relation.ReflTransGen.refl

theorem Reaches.tail (h : Reaches step ok s t) {c : κ} {v : ρ} (hc : ok t c)
    (hr : step t c = .ok (v, r)) : Reaches step ok s r :=
  Relation.ReflTransGen.tail h ⟨c, v, hc, hr⟩

theorem Reaches.trans (h : Reaches step ok s t) (h' : Reaches step ok t r) :
    Reaches step ok s r := Relation.ReflTransGen.trans h h'

/-- A run whose calls satisfy more. -/
theorem Reaches.mono {ok' : σ → κ → Prop} (h : Reaches step ok s t)
    (hok : ∀ s c, ok s c → ok' s c) : Reaches step ok' s t := by
  induction h with
  | refl => exact Reaches.refl s
  | tail _ hc ih =>
      obtain ⟨c, v, hc, hr⟩ := hc
      exact ih.tail (hok _ c hc) hr

/-- **The invariant rule.**  What holds at the start and is preserved by every
admitted call holds in every state reached. -/
theorem Reaches.invariant {I : σ → Prop} (h : Reaches step ok s t) (hs : I s)
    (hstep : ∀ {s c v t}, I s → ok s c → step s c = .ok (v, t) → I t) : I t := by
  induction h with
  | refl => exact hs
  | tail _ hc ih =>
      obtain ⟨c, v, hok, hr⟩ := hc
      exact hstep ih hok hr

/-- Make calls one after another, as long as `ok` admits them and they return. -/
def runCalls (step : σ → κ → Except Stop (ρ × σ)) (ok : σ → κ → Prop)
    [∀ s c, Decidable (ok s c)] : List κ → σ → Option σ
  | [], s => some s
  | c :: calls, s =>
      if ok s c then
        match step s c with
        | .ok (_, t) => runCalls step ok calls t
        | .error _ => none
      else none

/-- A list of calls, and one more. -/
theorem runCalls_concat [∀ s c, Decidable (ok s c)] {calls : List κ} {c : κ} {v : ρ}
    (h : runCalls step ok calls s = some t) (hc : ok t c) (hr : step t c = .ok (v, r)) :
    runCalls step ok (calls ++ [c]) s = some r := by
  induction calls generalizing s with
  | nil =>
      cases h
      rw [List.nil_append, runCalls, if_pos hc, hr]
      rfl
  | cons c' calls ih =>
      rw [List.cons_append, runCalls]
      rw [runCalls] at h
      split at h
      · rename_i hok
        split at h
        · rw [if_pos hok]
          exact ih h
        · cases h
      · cases h

/-- Where a list of calls ends is reached. -/
theorem reaches_of_runCalls [∀ s c, Decidable (ok s c)] {calls : List κ}
    (h : runCalls step ok calls s = some t) : Reaches step ok s t := by
  induction calls generalizing s with
  | nil =>
      cases h
      exact Reaches.refl _
  | cons c calls ih =>
      rw [runCalls] at h
      split at h
      · rename_i hok
        split at h
        · rename_i v u hu
          exact ((Reaches.refl s).tail hok hu).trans (ih h)
        · cases h
      · cases h

end

end Yorha.Lib
