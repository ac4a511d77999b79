import Mathlib.Logic.Basic

/-!
# Slots whose entries stay behind

A table has an entry in every slot, and some of its slots are in use.  An entry is put into a
slot that is not in use (`Slots.Put`).  When it is dropped, its slot is no longer in use, but the
entry stays there (`Slots.Dropped`).

A search for a key that does not look at what is in use may meet entries that were dropped.  It
finds the one in use as long as no entry before that one has its key (`Slots.Leads`).
-/

universe u v

namespace Yorha.Lib

/-- A table of entries, some of them in use. -/
structure Slots (ε : Type u) where
  entry : Nat → ε
  Used : Nat → Prop

namespace Slots

/-- At most one entry in use satisfies `P`. -/
def AtMostOne {ε : Type u} (T : Slots ε) (P : ε → Prop) : Prop :=
  ∀ i j, T.Used i → T.Used j → P (T.entry i) → P (T.entry j) → i = j

/-- No entry before one in use has its key. -/
def Leads {ε : Type u} {κ : Type v} (T : Slots ε) (key : ε → κ) : Prop :=
  ∀ i j, T.Used i → j < i → key (T.entry j) ≠ key (T.entry i)

/-- `T'` is `T` with `e` put into a slot that was not in use. -/
structure Put {ε : Type u} (T T' : Slots ε) (slot : Nat) (e : ε) : Prop where
  free : ¬ T.Used slot
  entry_self : T'.entry slot = e
  entry_of_ne : ∀ {i}, slot ≠ i → T'.entry i = T.entry i
  used_iff : ∀ i, T'.Used i ↔ slot = i ∨ T.Used i

/-- `T'` is `T` with the entry of a slot dropped. -/
structure Dropped {ε : Type u} (T T' : Slots ε) (slot : Nat) : Prop where
  entry_of_ne : ∀ {i}, slot ≠ i → T'.entry i = T.entry i
  used_iff : ∀ i, T'.Used i ↔ slot ≠ i ∧ T.Used i

variable {ε : Type u} {κ : Type v} {T T' : Slots ε} {slot i j : Nat} {e : ε} {P : ε → Prop}
variable {key : ε → κ}

/-- Two entries in use have different keys. -/
theorem Leads.inj (h : T.Leads key) (hi : T.Used i) (hj : T.Used j)
    (heq : key (T.entry i) = key (T.entry j)) : i = j := by
  rcases Nat.lt_trichotomy i j with hlt | rfl | hlt
  · exact absurd heq (h j i hj hlt)
  · rfl
  · exact absurd heq.symm (h i j hi hlt)

/-! ## Putting -/

theorem Put.ne_slot (h : T.Put T' slot e) (hi : T.Used i) : slot ≠ i := by
  rintro rfl
  exact h.free hi

/-- What holds of the new entry and of those in use before holds of all in use. -/
theorem Put.forall_used (h : T.Put T' slot e) (hnew : P e)
    (hold : ∀ {i}, T.Used i → P (T.entry i)) (hi : T'.Used i) : P (T'.entry i) := by
  rcases (h.used_iff i).mp hi with rfl | hi
  · rw [h.entry_self]
    exact hnew
  · rw [h.entry_of_ne (h.ne_slot hi)]
    exact hold hi

/-- Something holds of an entry in use if and only if it holds of the new one or of one in use
before. -/
theorem Put.exists_used (h : T.Put T' slot e) (P : ε → Prop) :
    (∃ i, T'.Used i ∧ P (T'.entry i)) ↔ P e ∨ ∃ i, T.Used i ∧ P (T.entry i) := by
  constructor
  · rintro ⟨i, hi, hP⟩
    rcases (h.used_iff i).mp hi with rfl | hi
    · rw [h.entry_self] at hP
      exact .inl hP
    · rw [h.entry_of_ne (h.ne_slot hi)] at hP
      exact .inr ⟨i, hi, hP⟩
  · rintro (hP | ⟨i, hi, hP⟩)
    · exact ⟨slot, (h.used_iff slot).mpr (.inl rfl), h.entry_self.symm ▸ hP⟩
    · refine ⟨i, (h.used_iff i).mpr (.inr hi), ?_⟩
      rw [h.entry_of_ne (h.ne_slot hi)]
      exact hP

theorem Put.atMostOne (h : T.Put T' slot e) (hP : T.AtMostOne P)
    (hfresh : P e → ∀ {i}, T.Used i → ¬ P (T.entry i)) : T'.AtMostOne P := by
  intro i j hi hj
  rcases (h.used_iff i).mp hi with rfl | hi
  · rcases (h.used_iff j).mp hj with rfl | hj
    · exact fun _ _ ↦ rfl
    · rw [h.entry_self, h.entry_of_ne (h.ne_slot hj)]
      exact fun hnew hold ↦ absurd hold (hfresh hnew hj)
  · rw [h.entry_of_ne (h.ne_slot hi)]
    rcases (h.used_iff j).mp hj with rfl | hj
    · rw [h.entry_self]
      exact fun hold hnew ↦ absurd hold (hfresh hnew hi)
    · rw [h.entry_of_ne (h.ne_slot hj)]
      exact hP i j hi hj

/-- A key that neither the entries before the new one nor those in use have. -/
theorem Put.leads (h : T.Put T' slot e) (hkey : T.Leads key)
    (hbefore : ∀ j < slot, key (T.entry j) ≠ key e)
    (hfresh : ∀ {i}, T.Used i → key (T.entry i) ≠ key e) : T'.Leads key := by
  intro i j hi hji
  rcases (h.used_iff i).mp hi with rfl | hi
  · rw [h.entry_self, h.entry_of_ne (Nat.ne_of_gt hji)]
    exact hbefore j hji
  · rw [h.entry_of_ne (h.ne_slot hi)]
    by_cases hj : slot = j
    · subst hj
      rw [h.entry_self]
      exact (hfresh hi).symm
    · rw [h.entry_of_ne hj]
      exact hkey i j hi hji

/-! ## Dropping -/

/-- What holds of the entries in use before holds of those in use afterwards. -/
theorem Dropped.forall_used (h : T.Dropped T' slot) (hold : ∀ {i}, T.Used i → P (T.entry i))
    (hi : T'.Used i) : P (T'.entry i) := by
  obtain ⟨hne, hi⟩ := (h.used_iff i).mp hi
  rw [h.entry_of_ne hne]
  exact hold hi

/-- Something holds of an entry in use if and only if it holds of one in use before other than
the dropped one. -/
theorem Dropped.exists_used (h : T.Dropped T' slot) (P : ε → Prop) :
    (∃ i, T'.Used i ∧ P (T'.entry i)) ↔ ∃ i, slot ≠ i ∧ T.Used i ∧ P (T.entry i) := by
  constructor
  · rintro ⟨i, hi, hP⟩
    obtain ⟨hne, hi⟩ := (h.used_iff i).mp hi
    rw [h.entry_of_ne hne] at hP
    exact ⟨i, hne, hi, hP⟩
  · rintro ⟨i, hne, hi, hP⟩
    refine ⟨i, (h.used_iff i).mpr ⟨hne, hi⟩, ?_⟩
    rw [h.entry_of_ne hne]
    exact hP

/-- What does not hold of the dropped entry holds of as many as before. -/
theorem Dropped.exists_used_of_not (h : T.Dropped T' slot) (P : ε → Prop)
    (hslot : ¬ P (T.entry slot)) :
    (∃ i, T'.Used i ∧ P (T'.entry i)) ↔ ∃ i, T.Used i ∧ P (T.entry i) := by
  rw [h.exists_used]
  constructor
  · rintro ⟨i, -, hi⟩
    exact ⟨i, hi⟩
  · rintro ⟨i, hi, hP⟩
    refine ⟨i, ?_, hi, hP⟩
    rintro rfl
    exact hslot hP

/-- What held of the dropped entry alone holds of none. -/
theorem Dropped.not_exists_used (h : T.Dropped T' slot) (hP : T.AtMostOne P)
    (hused : T.Used slot) (hslot : P (T.entry slot)) : ¬ ∃ i, T'.Used i ∧ P (T'.entry i) := by
  rw [h.exists_used]
  rintro ⟨i, hne, hi, hPi⟩
  exact hne (hP slot i hused hi hslot hPi)

theorem Dropped.atMostOne (h : T.Dropped T' slot) (hP : T.AtMostOne P) : T'.AtMostOne P := by
  intro i j hi hj
  obtain ⟨hne, hi⟩ := (h.used_iff i).mp hi
  obtain ⟨hne', hj⟩ := (h.used_iff j).mp hj
  rw [h.entry_of_ne hne, h.entry_of_ne hne']
  exact hP i j hi hj

/-- The keys stay in the table, also that of the dropped entry. -/
theorem Dropped.key_eq (h : T.Dropped T' slot) (key : ε → κ)
    (hslot : key (T'.entry slot) = key (T.entry slot)) (i : Nat) : key (T'.entry i) = key (T.entry i) := by
  by_cases hi : slot = i
  · exact hi ▸ hslot
  · rw [h.entry_of_ne hi]

theorem Dropped.leads (h : T.Dropped T' slot) (hkey : T.Leads key)
    (hslot : key (T'.entry slot) = key (T.entry slot)) : T'.Leads key := by
  intro i j hi hji
  rw [h.key_eq key hslot i, h.key_eq key hslot j]
  exact hkey i j ((h.used_iff i).mp hi).2 hji

/-- Two entries that are put and then dropped leave as much in use as before. -/
theorem used_iff_of_undo {T₁ T₂ T₃ T₄ : Slots ε} {slot₁ slot₂ : Nat} {e₁ e₂ : ε}
    (h₁ : T.Put T₁ slot₁ e₁) (h₂ : T₁.Put T₂ slot₂ e₂) (h₃ : T₂.Dropped T₃ slot₁)
    (h₄ : T₃.Dropped T₄ slot₂) (i : Nat) : T₄.Used i ↔ T.Used i := by
  rw [h₄.used_iff, h₃.used_iff, h₂.used_iff, h₁.used_iff]
  constructor
  · rintro ⟨hne₂, hne₁, h | h | h⟩
    · exact absurd h hne₂
    · exact absurd h hne₁
    · exact h
  · intro h
    exact ⟨h₂.ne_slot ((h₁.used_iff i).mpr (.inr h)), h₁.ne_slot h, .inr (.inr h)⟩

end Slots

end Yorha.Lib
