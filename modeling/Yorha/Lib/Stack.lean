import Yorha.Lib.Bytes

/-!
# Words on a stack

A stack that grows down in memory: the words at an address, the one at the address on top.
`Holds` says what they are.  What is pushed comes in front of them, and they stay as long as
nothing writes between the address and the end of the last one.
-/

namespace Yorha.Lib

/-- From address `sp` on, memory has the words `ws`, one behind the other. -/
def Holds (m : Bytes) (sp : Nat) (ws : List Nat) : Prop :=
  ∀ i (h : i < ws.length), (m.drop (sp + 4 * i)).word = ws[i]

section

variable {m m' : Bytes} {sp w : Nat} {ws ws' : List Nat}

theorem holds_nil : Holds m sp [] := fun _ h ↦ absurd h (Nat.not_lt_zero _)

/-- The top of the stack, and what is under it. -/
theorem holds_cons : Holds m sp (w :: ws) ↔ (m.drop sp).word = w ∧ Holds m (sp + 4) ws := by
  constructor
  · intro h
    refine ⟨h 0 (Nat.succ_pos _), fun i hi ↦ ?_⟩
    have hword := h (i + 1) (Nat.succ_lt_succ hi)
    rw [Nat.mul_succ, Nat.add_comm (4 * i), ← Nat.add_assoc] at hword
    exact hword
  · rintro ⟨htop, hrest⟩ i hi
    cases i with
    | zero => exact htop
    | succ i =>
        rw [Nat.mul_succ, Nat.add_comm (4 * i), ← Nat.add_assoc]
        exact hrest i (Nat.lt_of_succ_lt_succ hi)

/-- The words stay where memory stays. -/
theorem Holds.congr (h : Holds m sp ws)
    (hm : ∀ a, sp ≤ a → a < sp + 4 * ws.length → m' a = m a) : Holds m' sp ws := by
  intro i hi
  rw [← h i hi]
  apply Bytes.word_congr
  intro b hb
  exact hm _ (by omega) (by omega)

/-- **What is pushed** is on top of what was there. -/
theorem Holds.push (h : Holds m (sp + 4) ws) (hw : w < 2 ^ 32) :
    Holds (m.splice sp (Bytes.ofWord w)) sp (w :: ws) := by
  refine holds_cons.mpr ⟨Bytes.word_splice m sp w hw, h.congr fun a ha _ ↦ ?_⟩
  exact Bytes.splice_of_notMem (by rw [Bytes.length_ofWord]; omega)

/-- Two groups of words, one under the other. -/
theorem holds_append :
    Holds m sp (ws ++ ws') ↔ Holds m sp ws ∧ Holds m (sp + 4 * ws.length) ws' := by
  induction ws generalizing sp with
  | nil => exact ⟨fun h ↦ ⟨holds_nil, h⟩, fun h ↦ h.2⟩
  | cons w ws ih =>
      have hoff : sp + 4 * (w :: ws).length = sp + 4 + 4 * ws.length := by
        rw [List.length_cons]
        omega
      rw [List.cons_append, holds_cons, ih, holds_cons, hoff, and_assoc]

/-- There are always some words. -/
theorem exists_holds (m : Bytes) (sp n : Nat) : ∃ ws, ws.length = n ∧ Holds m sp ws := by
  refine ⟨(List.range n).map fun i ↦ (m.drop (sp + 4 * i)).word, ?_, fun i hi ↦ ?_⟩
  · rw [List.length_map, List.length_range]
  · rw [List.getElem_map, List.getElem_range]

end

end Yorha.Lib
