import Yorha.Heap.Page

/-!
# Asking again

What `kmalloc` hands out depends on nothing but which bits are set and which entries are
in use: two heaps that are `Alike` answer alike.  And a heap that handed out two blocks
and got them back is like the heap before.  So a program that asks for the same two blocks
again gets the same pointers, although the entries it frees keep their old contents.
-/

namespace Yorha.Heap

open Yorha.Lib Yorha.Str Yorha.Util

/-- The same bits are set, and the same entries are in use. -/
structure Alike (a a' : AllocArray) : Prop where
  bottom : a'.bottom = a.bottom
  active : a'.active = a.active
  bits : ∀ k, WordArray.bit a'.bitmap k = WordArray.bit a.bitmap k
  utilized : ∀ i, (a'.entry i).utilized = true ↔ (a.entry i).utilized = true

/-- Heaps like a heap are alike. -/
theorem Alike.trans {a a' a'' : AllocArray} (h : Alike a a') (h' : Alike a' a'') :
    Alike a a'' where
  bottom := h'.bottom.trans h.bottom
  active := h'.active.trans h.active
  bits := fun k ↦ (h'.bits k).trans (h.bits k)
  utilized := fun i ↦ (h'.utilized i).trans (h.utilized i)

section

variable {a a' a₁ a₂ a₃ a₄ : AllocArray} {live : LiveBlocks} {size m n p q : Nat}

/-- What fits in one array fits in an array with the same bits. -/
theorem firstFit_congr {σ : Type} [WordArray σ] {s s' : σ} {window count start : Nat}
    {align : Bool} (hbits : ∀ k, WordArray.bit s' k = WordArray.bit s k)
    (h : FirstFit s window count align start) : FirstFit s' window count align start where
  aligned := h.aligned
  inside := h.inside
  clear := by
    intro k h₁ h₂
    rw [hbits]
    exact h.clear k h₁ h₂
  least := by
    intro b hb hal hclear
    apply h.least b hb hal
    intro k h₁ h₂
    rw [← hbits]
    exact hclear k h₁ h₂

/-- Alike heaps allocate in the same entry. -/
theorem Allocated.slot_eq {slot slot' start start' : Nat} {b b' : AllocArray}
    (h : Alike a a') (ha : Allocated a b size slot start)
    (ha' : Allocated a' b' size slot' start') : slot' = slot := by
  rcases Nat.lt_trichotomy slot' slot with hlt | heq | hlt
  · have hused := (h.utilized slot').mpr (ha.before slot' hlt)
    rw [ha'.free] at hused
    cases hused
  · exact heq
  · have hused := (h.utilized slot).mp (ha'.before slot hlt)
    rw [ha.free] at hused
    cases hused

/-- **Alike heaps answer alike.** -/
theorem Alike.kmalloc (h : Alike a a') (hm : kmalloc a size = .ok (p, a₁)) :
    ∃ a₁', kmalloc a' size = .ok (p, a₁') ∧ Alike a₁ a₁' := by
  have hsize := kmalloc_pos hm
  obtain ⟨slot, start, ha, rfl⟩ := kmalloc_ok hsize hm
  have hact : a'.active = true := by
    rw [h.active]
    simp only [Heap.kmalloc, bind_eq_ok] at hm
    obtain ⟨⟨⟩, hact, -⟩ := hm
    exact assertActive_eq_ok.mp hact
  have hfit := firstFit_congr h.bits ha.fit
  rcases kmalloc_cases hact hsize with ⟨first, a₁', hm', hfit', -⟩ | ⟨-, -, hno | hfull, -⟩
  · have hfirst : first = start := le_antisymm (hfit'.le hfit.toFits) (hfit.le hfit'.toFits)
    rw [h.bottom, hfirst] at hm'
    refine ⟨a₁', hm', ?_⟩
    obtain ⟨slot', start', ha', hp⟩ := kmalloc_ok hsize hm'
    obtain rfl := ha.slot_eq h ha'
    rw [h.bottom] at hp
    obtain rfl : start = start' := Nat.add_left_cancel hp
    refine ⟨?_, ha'.active.trans ha.active.symm, fun k ↦ ?_, fun i ↦ ?_⟩
    · rw [ha'.bottom, ha.bottom, h.bottom]
    · rw [ha'.bits k, ha.bits k, h.bits k]
    · calc (a₁'.entry i).utilized = true
        _ ↔ slot' = i ∨ (a'.entry i).utilized = true := ha'.put.used_iff i
        _ ↔ slot' = i ∨ (a.entry i).utilized = true := or_congr_right (h.utilized i)
        _ ↔ (a₁.entry i).utilized = true := (ha.put.used_iff i).symm
  · exact absurd hfit.toFits (hno start)
  · have hused := (h.utilized slot).mp (hfull slot ha.slot_lt)
    rw [ha.free] at hused
    cases hused

/-- **Two blocks handed out and given back.**  Both can be given back, and leave a heap
like the one before. -/
theorem HeapInv.alike_of_undo (hinv : HeapInv a live) (hm : Heap.kmalloc a m = .ok (p, a₁))
    (hn : Heap.kmalloc a₁ n = .ok (q, a₂)) :
    ∃ a₃ a₄, Heap.kfree a₂ p = .ok a₃ ∧ Heap.kfree a₃ q = .ok a₄ ∧ Alike a a₄ ∧
      HeapInv a₄ live := by
  have hinv₁ := hinv.kmalloc (kmalloc_pos hm) hm
  have hinv₂ := hinv₁.kmalloc (kmalloc_pos hn) hn
  have hp : live p = none := hinv.kmalloc_fresh (kmalloc_pos hm) hm
  have hq : Function.update live p (some m) q = none := hinv₁.kmalloc_fresh (kmalloc_pos hn) hn
  have hne : p ≠ q := by
    rintro rfl
    rw [Function.update_self] at hq
    cases hq
  rw [Function.update_of_ne hne.symm] at hq
  obtain ⟨slot₁, start₁, ha₁, hp₁⟩ := kmalloc_ok (kmalloc_pos hm) hm
  obtain ⟨slot₂, start₂, ha₂, hq₂⟩ := kmalloc_ok (kmalloc_pos hn) hn
  -- the first block is given back
  have hlive₁ : Function.update (Function.update live p (some m)) q (some n) p = some m := by
    rw [Function.update_of_ne hne, Function.update_self]
  obtain ⟨a₃, slot₃, hfree₁, hr₁, hused₁, hbase₁, hrange₁⟩ := hinv₂.kfree_eq_ok hlive₁
  have hinv₃ := hinv₂.released hr₁ hused₁
  rw [hbase₁] at hinv₃
  have hslot₁ : slot₃ = slot₁ := by
    have hused : (a₁.entry slot₁).utilized = true := (ha₁.put.used_iff slot₁).mpr (.inl rfl)
    refine hinv₂.leads.inj hused₁ ((ha₂.put.used_iff slot₁).mpr (.inr hused)) ?_
    rw [hbase₁, ha₂.put.entry_of_ne (ha₂.put.ne_slot hused), ha₁.put.entry_self, hp₁]
  -- and then the second
  have hlive₂ : Function.update (Function.update (Function.update live p (some m)) q (some n))
      p none q = some n := by
    rw [Function.update_of_ne hne.symm, Function.update_self]
  obtain ⟨a₄, slot₄, hfree₂, hr₂, hused₂, hbase₂, hrange₂⟩ := hinv₃.kfree_eq_ok hlive₂
  have hinv₄ := hinv₃.released hr₂ hused₂
  rw [hbase₂] at hinv₄
  have hslot₂ : slot₄ = slot₂ := by
    have hused : (a₂.entry slot₂).utilized = true := (ha₂.put.used_iff slot₂).mpr (.inl rfl)
    refine hinv₂.leads.inj ((hr₁.dropped.used_iff slot₄).mp hused₂).2 hused ?_
    rw [← hr₁.basePtr_eq, hbase₂, ha₂.put.entry_self, hq₂]
  subst hslot₁ hslot₂
  refine ⟨a₃, a₄, hfree₁, hfree₂, ⟨?_, ?_, fun k ↦ ?_, fun i ↦ ?_⟩, ?_⟩
  · rw [hr₂.bottom, hr₁.bottom, ha₂.bottom, ha₁.bottom]
  · rw [hr₂.active, hr₁.active, ha₂.active, hinv.active]
  · have hbits₁ := hr₁.bits
    have hbits₂ := hr₂.bits
    rw [hrange₁, ha₂.bottom, ha₁.bottom, hp₁, Nat.add_sub_cancel_left] at hbits₁
    rw [hrange₂, hr₁.bottom, ha₂.bottom, hq₂, Nat.add_sub_cancel_left] at hbits₂
    exact WordArray.Filled.undo_both ha₁.fit.clear ha₁.bits ha₂.fit.clear ha₂.bits hbits₁ hbits₂ k
  · exact Slots.used_iff_of_undo ha₁.put ha₂.put hr₁.dropped hr₂.dropped i
  · have hlive : Function.update (Function.update (Function.update (Function.update live p
        (some m)) q (some n)) p none) q none = live := by
      have hp' : Function.update live p none = live := Function.update_eq_self_iff.mpr hp.symm
      rw [Function.update_comm hne, Function.update_idem, Function.update_comm hne.symm,
        Function.update_idem, hp', Function.update_eq_self_iff.mpr hq.symm]
    rwa [hlive] at hinv₄

end

/-! ## A heap that nobody has used -/

/-- A request that fits is answered, while the table has a free entry. -/
theorem kmalloc_returns {a : AllocArray} {size start i : Nat} (hact : a.active = true)
    (hsize : 0 < size) (hfit : Fits a.bitmap scannedBits size true start)
    (hi : i < maxAllocations) (hfree : (a.entry i).utilized = false) :
    ∃ p a', kmalloc a size = .ok (p, a') := by
  rcases kmalloc_cases hact hsize with ⟨first, a', hm, -, -⟩ | ⟨-, -, hno | hfull, -⟩
  · exact ⟨_, a', hm⟩
  · exact absurd hfit (hno start)
  · rw [hfull i hi] at hfree
    cases hfree

/-- A new heap has room for two small blocks. -/
theorem kmalloc_initial (bottom : Nat) {m n : Nat} (hm : 0 < m) (hm' : m ≤ 64) (hn : 0 < n)
    (hn' : n ≤ 64) : ∃ p a q a', kmalloc (AllocArray.initial bottom) m = .ok (p, a) ∧
      kmalloc a n = .ok (q, a') := by
  have hclear : ∀ k, WordArray.bit (AllocArray.initial bottom).bitmap k = false :=
    bit_replicate_zero _
  have hfit : Fits (AllocArray.initial bottom).bitmap scannedBits m true 0 :=
    ⟨fun _ ↦ ⟨0, rfl⟩, by change 0 + m ≤ 8192; omega, fun k _ _ ↦ hclear k⟩
  have hunused : ∀ i, ((AllocArray.initial bottom).entry i).utilized = false := by
    intro i
    rw [initial_entry]
  obtain ⟨p, a, hp⟩ := kmalloc_returns rfl hm hfit (by decide) (hunused 0)
  obtain ⟨slot, start, ha, -⟩ := kmalloc_ok hm hp
  -- the first block lies at the start, and the second fits behind it
  have hstart : start = 0 := Nat.le_zero.mp (ha.fit.le hfit)
  have hfit' : Fits a.bitmap scannedBits n true 64 := by
    refine ⟨fun _ ↦ ⟨16, rfl⟩, by change 64 + n ≤ 8192; omega, fun k h₁ _ ↦ ?_⟩
    rw [ha.bits.eq_of_notMem (by omega), hclear]
  have hfree : (a.entry (slot + 1)).utilized = false := by
    rw [ha.entry, if_neg (by omega)]
    exact hunused _
  have hslot : slot = 0 := by
    by_contra hne
    have := ha.before 0 (Nat.pos_of_ne_zero hne)
    rw [hunused] at this
    cases this
  obtain ⟨q, a', hq⟩ := kmalloc_returns ha.active hn hfit' (by rw [hslot]; decide) hfree
  exact ⟨p, a, q, a', hp, hq⟩

end Yorha.Heap
