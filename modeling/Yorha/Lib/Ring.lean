import Mathlib.Logic.Function.Basic

/-!
# Ring buffers

A ring buffer keeps a queue in `n` slots.  `inIndex` is the slot that is filled next,
`outIndex` the one that is emptied next, and the queue is empty if the two are equal.  So
that they are not equal when it is full, one slot is never used, and at most `n - 1`
elements are queued.

`queue` is what the buffer means, oldest element first.  `push` appends to it unless the
buffer is full, and `pop` takes its head.
-/

universe u

namespace Yorha.Lib

/-- Slots used in a circle. -/
structure Ring (α : Type u) where
  slots : Nat → α
  inIndex : Nat
  outIndex : Nat

namespace Ring

variable {α : Type u} {n : Nat} {r : Ring α}

/-- Put an element into the next slot, unless the buffer would look empty then. -/
def push (n : Nat) (r : Ring α) (a : α) : Ring α :=
  let next := (r.inIndex + 1) % n
  if next ≠ r.outIndex then
    { r with slots := Function.update r.slots r.inIndex a, inIndex := next }
  else r

/-- Take the element that is queued for longest. -/
def pop (n : Nat) (r : Ring α) : Option (α × Ring α) :=
  if r.outIndex = r.inIndex then none
  else some (r.slots r.outIndex, { r with outIndex := (r.outIndex + 1) % n })

/-- The indices are those of slots. -/
structure Valid (n : Nat) (r : Ring α) : Prop where
  in_lt : r.inIndex < n
  out_lt : r.outIndex < n

/-- How many elements are queued. -/
def count (n : Nat) (r : Ring α) : Nat :=
  if r.outIndex ≤ r.inIndex then r.inIndex - r.outIndex else r.inIndex + n - r.outIndex

/-- The slot of the element that is `k` places behind the oldest. -/
def slot (n : Nat) (r : Ring α) (k : Nat) : Nat :=
  if r.outIndex + k < n then r.outIndex + k else r.outIndex + k - n

/-- The elements that are queued, oldest first. -/
def queue (n : Nat) (r : Ring α) : List α :=
  (List.range (r.count n)).map fun k ↦ r.slots (r.slot n k)

@[simp] theorem length_queue (n : Nat) (r : Ring α) : (r.queue n).length = r.count n := by
  rw [queue, List.length_map, List.length_range]

/-! ## Where the indices are -/

section

variable (h : r.Valid n)

include h

theorem Valid.count_lt : r.count n < n := by
  have := h.in_lt
  have := h.out_lt
  rw [count]
  split
  · omega
  · omega

/-- The slot behind the queue is the one that is filled next. -/
theorem Valid.slot_count : r.slot n (r.count n) = r.inIndex := by
  have := h.in_lt
  have := h.out_lt
  rw [slot, count]
  split
  · split
    · omega
    · omega
  · split
    · omega
    · omega

/-- Distinct places of the queue are distinct slots. -/
theorem Valid.slot_ne {j k : Nat} (hjk : j < k) (hk : k < n) : r.slot n j ≠ r.slot n k := by
  have := h.out_lt
  rw [slot, slot]
  split
  · split
    · omega
    · omega
  · split
    · omega
    · omega

/-- The next index. -/
theorem Valid.succ_mod {i : Nat} (hi : i < n) :
    (i + 1) % n = if i + 1 < n then i + 1 else 0 := by
  split
  · rename_i hlt
    exact Nat.mod_eq_of_lt hlt
  · rename_i hge
    obtain rfl : i + 1 = n := by omega
    exact Nat.mod_self _

/-- The buffer is full if one slot is left. -/
theorem Valid.full_iff : (r.inIndex + 1) % n = r.outIndex ↔ r.count n + 1 = n := by
  have := h.in_lt
  have := h.out_lt
  rw [h.succ_mod h.in_lt, count]
  split
  · split
    · omega
    · omega
  · split
    · omega
    · omega

end

/-! ## Pushing -/

/-- A full buffer stays as it is. -/
theorem Valid.push_of_full (h : r.Valid n) (hfull : r.count n + 1 = n) (a : α) :
    r.push n a = r := by
  rw [push]
  exact if_neg (not_not.mpr (h.full_iff.mpr hfull))

theorem Valid.push_eq (h : r.Valid n) (hroom : r.count n + 1 ≠ n) (a : α) : r.push n a =
    { r with slots := Function.update r.slots r.inIndex a, inIndex := (r.inIndex + 1) % n } := by
  rw [push]
  exact if_pos (mt h.full_iff.mp hroom)

theorem Valid.push (h : r.Valid n) (a : α) : (r.push n a).Valid n := by
  by_cases hfull : r.count n + 1 = n
  · rw [h.push_of_full hfull]
    exact h
  · rw [h.push_eq hfull]
    exact ⟨Nat.mod_lt _ (Nat.zero_lt_of_lt h.in_lt), h.out_lt⟩

/-- **Pushing appends to the queue.** -/
theorem Valid.queue_push (h : r.Valid n) (hroom : r.count n + 1 ≠ n) (a : α) :
    (r.push n a).queue n = r.queue n ++ [a] := by
  have hlt := h.count_lt
  have hin := h.in_lt
  have hout := h.out_lt
  have hcount : (r.push n a).count n = r.count n + 1 := by
    have hne := mt h.full_iff.mp hroom
    rw [h.succ_mod hin] at hne
    rw [h.push_eq hroom, count, count, h.succ_mod hin]
    simp only
    grind
  have hslots : ∀ k, k < r.count n → (r.push n a).slots ((r.push n a).slot n k) =
      r.slots (r.slot n k) := by
    intro k hk
    rw [h.push_eq hroom]
    refine Function.update_of_ne ?_ _ _
    rw [← h.slot_count]
    exact h.slot_ne hk hlt
  have hlast : (r.push n a).slots ((r.push n a).slot n (r.count n)) = a := by
    rw [h.push_eq hroom]
    change Function.update r.slots r.inIndex a (r.slot n (r.count n)) = a
    rw [h.slot_count, Function.update_self]
  rw [queue, hcount, List.range_succ, List.map_append, List.map_singleton, hlast, queue]
  congr 1
  apply List.map_congr_left
  intro k hk
  exact hslots k (List.mem_range.mp hk)

/-! ## Popping -/

/-- **Popping takes the head of the queue.** -/
theorem Valid.of_pop {a : α} {r' : Ring α} (h : r.Valid n) (hp : r.pop n = some (a, r')) :
    r'.Valid n ∧ r.queue n = a :: r'.queue n := by
  have hin := h.in_lt
  have hout := h.out_lt
  rw [pop] at hp
  split at hp
  · cases hp
  · rename_i hne
    cases hp
    refine ⟨⟨hin, Nat.mod_lt _ (Nat.zero_lt_of_lt hin)⟩, ?_⟩
    have hcount : r.count n = count n { r with outIndex := (r.outIndex + 1) % n } + 1 := by
      rw [count, count, h.succ_mod hout]
      simp only
      grind
    have hslot : ∀ k, k + 1 < n →
        r.slot n (k + 1) = slot n { r with outIndex := (r.outIndex + 1) % n } k := by
      intro k hk
      rw [slot, slot, h.succ_mod hout]
      simp only
      grind
    have hlt := h.count_lt
    rw [queue, hcount, List.range_succ_eq_map, List.map_cons, List.map_map, queue]
    congr 1
    · rw [slot, Nat.add_zero, if_pos hout]
    · apply List.map_congr_left
      intro k hk
      have hk := List.mem_range.mp hk
      exact congrArg r.slots (hslot k (by omega))

end Ring

end Yorha.Lib
