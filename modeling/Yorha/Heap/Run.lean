import Yorha.Heap.Invariant

/-!
# Runs of the heap

Every proper call keeps `HeapInv` (`HeapInv.step`), so it holds in every state that
a sequence of them reaches (`HeapInv.of_reaches`).  `BlocksInOrder` says what that
means to a caller who knows only the calls made so far.
-/

namespace Yorha.Heap

open Yorha.Lib Yorha.Str Yorha.Util

section

variable {a a' : AllocArray} {live : LiveBlocks} {h h' : KernelHeap} {p q n size : Nat}

/-- A returning `kmalloc` keeps the invariant. -/
theorem HeapInv.kmalloc (hinv : HeapInv a live) (hsize : 0 < size)
    (hm : kmalloc a size = .ok (p, a')) : HeapInv a' (Function.update live p (some size)) := by
  obtain ⟨slot, start, ha, rfl⟩ := kmalloc_ok hsize hm
  exact hinv.allocated ha hsize

/-- A returning `kmalloc` returns no pointer that is live already. -/
theorem HeapInv.kmalloc_fresh (hinv : HeapInv a live) (hsize : 0 < size)
    (hm : Heap.kmalloc a size = .ok (p, a')) : live p = none := by
  obtain ⟨slot, start, ha, rfl⟩ := kmalloc_ok hsize hm
  by_contra hne
  obtain ⟨n, hn⟩ := Option.ne_none_iff_exists'.mp hne
  obtain ⟨i, hi, hb, -⟩ := (hinv.live _ _).mp hn
  exact ha.base_ne hinv hsize hi hb

/-- `kfree` of a live pointer returns and keeps the invariant. -/
theorem HeapInv.kfree (hinv : HeapInv a live) (hp : live p = some n) :
    ∃ a', Heap.kfree a p = .ok a' ∧ a'.bottom = a.bottom ∧
      WordArray.Filled a.bitmap a'.bitmap (p - a.bottom) n false ∧
      HeapInv a' (Function.update live p none) := by
  obtain ⟨a', slot, hf, hr, hslot, rfl, hrange⟩ := hinv.kfree_eq_ok hp
  have hbits := hr.bits
  rw [hrange] at hbits
  exact ⟨a', hf, hr.bottom, hbits, hinv.released hr hslot⟩

/-- `krealloc` of a live pointer returns what `kmalloc` returns, having released
exactly the old block, and keeps the invariant. -/
theorem HeapInv.krealloc (hinv : HeapInv h.allocator live) (hp : live p = some n)
    (hsize : 0 < size) (hm : Heap.kmalloc h.allocator size = .ok (q, a')) :
    ∃ h', Heap.krealloc h p size = .ok (q, h') ∧
      WordArray.Filled a'.bitmap h'.allocator.bitmap (p - h.allocator.bottom) n false ∧
      HeapInv h'.allocator (Function.update (Function.update live p none) q (some size)) := by
  have hfresh := hinv.kmalloc_fresh hsize hm
  have hne : p ≠ q := by
    rintro rfl
    rw [hfresh] at hp
    cases hp
  have hinv' := hinv.kmalloc hsize hm
  have hp' : Function.update live q (some size) p = some n := by
    rw [Function.update_of_ne hne, hp]
  obtain ⟨slot, start, ha, -⟩ := kmalloc_ok hsize hm
  obtain ⟨i, hi, rfl, rfl⟩ := (hinv'.live p n).mp hp'
  obtain ⟨a'', ha'', hr⟩ := releaseEntry_eq_ok (utilized_lt hi) (hinv'.nonempty hi)
    (hinv'.inside hi)
  have hact : assertActive h.allocator = .ok () := assertActive_eq_ok.mpr hinv.active
  refine ⟨⟨a'', memmove h.mem q (a'.entry i).basePtr (a'.entry i).range.length⟩, ?_, ?_, ?_⟩
  · simp only [Heap.krealloc, hact, ok_bind, hm, hinv'.firstEntry_eq hi, ha'']
  · have hbits := hr.bits
    have hstart : (a'.entry i).range.start = (a'.entry i).basePtr - h.allocator.bottom := by
      rw [hinv'.base hi, ha.bottom, Nat.add_sub_cancel_left]
    rwa [hstart] at hbits
  · have hrel := hinv'.released hr hi
    rwa [Function.update_comm hne.symm] at hrel

end

/-- **Step.**  Every proper call that returns keeps the invariant. -/
theorem HeapInv.step {s s' : HeapState} {c : HeapCall} {v : Nat}
    (hinv : HeapInv s.heap.allocator s.live) (hc : HeapCall.Proper s c)
    (hstep : HeapCall.exec s c = .ok (v, s')) : HeapInv s'.heap.allocator s'.live := by
  cases c with
  | kmalloc size =>
      simp only [HeapCall.exec, bind_eq_ok] at hstep
      obtain ⟨⟨p, a'⟩, hm, hs⟩ := hstep
      cases hs
      exact hinv.kmalloc hc hm
  | kcalloc num size =>
      simp only [HeapCall.exec, kcalloc, bind_eq_ok] at hstep
      obtain ⟨⟨p, h'⟩, ⟨⟨⟩, -, ⟨q, a'⟩, hm, hh⟩, hs⟩ := hstep
      cases hh
      cases hs
      exact hinv.kmalloc hc hm
  | krealloc ptr newSize =>
      obtain ⟨hlive, hsize⟩ := hc
      obtain ⟨n, hn⟩ := Option.ne_none_iff_exists'.mp hlive
      simp only [HeapCall.exec, bind_eq_ok] at hstep
      obtain ⟨⟨q, h'⟩, hr, hs⟩ := hstep
      cases hs
      have hm : ∃ a', Heap.kmalloc s.heap.allocator newSize = .ok (q, a') := by
        simp only [Heap.krealloc, bind_eq_ok] at hr
        obtain ⟨⟨⟩, -, ⟨q', a'⟩, hm, hr⟩ := hr
        split at hr
        · simp only [bind_eq_ok] at hr
          obtain ⟨a'', -, hr⟩ := hr
          cases hr
          exact ⟨a', hm⟩
        · cases hr
      obtain ⟨a', hm⟩ := hm
      obtain ⟨h'', hr', -, hinv'⟩ := hinv.krealloc hn hsize hm
      rw [hr] at hr'
      cases hr'
      exact hinv'
  | kfree ptr =>
      obtain ⟨n, hn⟩ := Option.ne_none_iff_exists'.mp hc
      simp only [HeapCall.exec, bind_eq_ok] at hstep
      obtain ⟨a', hf, hs⟩ := hstep
      cases hs
      obtain ⟨a'', hf', -, -, hinv'⟩ := hinv.kfree hn
      rw [hf] at hf'
      cases hf'
      exact hinv'

/-- **Run.**  The invariant holds in every state reached. -/
theorem HeapInv.of_reaches {bottom : Nat} {mem : Bytes} {s : HeapState}
    (h : Reaches HeapCall.exec HeapCall.Proper (HeapState.initial bottom mem) s) :
    HeapInv s.heap.allocator s.live :=
  Reaches.invariant (I := fun s ↦ HeapInv s.heap.allocator s.live) h (HeapInv.initial bottom)
    HeapInv.step

/-- What the live blocks, as the calls made so far say they are, look like in the
bitmap, and what giving one of them back does to it. -/
structure BlocksInOrder (s : HeapState) : Prop where
  disjoint : ∀ {p q m n k}, s.live p = some m → s.live q = some n → p ≠ q →
    p - s.heap.allocator.bottom ≤ k → k < p - s.heap.allocator.bottom + m →
    ¬ (q - s.heap.allocator.bottom ≤ k ∧ k < q - s.heap.allocator.bottom + n)
  aligned : ∀ {p n}, s.live p = some n →
    s.heap.allocator.bottom ≤ p ∧ 4 ∣ p - s.heap.allocator.bottom
  bits : ∀ k, WordArray.bit s.heap.allocator.bitmap k = true ↔ ∃ p n, s.live p = some n ∧
    p - s.heap.allocator.bottom ≤ k ∧ k < p - s.heap.allocator.bottom + n
  kfree : ∀ {p n}, s.live p = some n → ∃ a', Heap.kfree s.heap.allocator p = .ok a' ∧
    WordArray.Filled s.heap.allocator.bitmap a'.bitmap (p - s.heap.allocator.bottom) n false
  krealloc : ∀ {p q n size a'}, s.live p = some n → 0 < size →
    Heap.kmalloc s.heap.allocator size = .ok (q, a') →
    ∃ h', Heap.krealloc s.heap p size = .ok (q, h') ∧
      WordArray.Filled a'.bitmap h'.allocator.bitmap (p - s.heap.allocator.bottom) n false

/-- The range of a live block, in terms of its pointer and size. -/
theorem HeapInv.live_entry {a : AllocArray} {live : LiveBlocks} (h : HeapInv a live) {p n : Nat}
    (hp : live p = some n) : ∃ i, (a.entry i).utilized = true ∧
      (a.entry i).range = ⟨p - a.bottom, n⟩ ∧ a.bottom ≤ p := by
  obtain ⟨i, hi, rfl, rfl⟩ := (h.live p n).mp hp
  have hb := h.base hi
  refine ⟨i, hi, ?_, by omega⟩
  rw [hb, Nat.add_sub_cancel_left]

theorem HeapInv.blocksInOrder {s : HeapState} (h : HeapInv s.heap.allocator s.live) :
    BlocksInOrder s where
  disjoint := by
    intro p q m n k hp hq hne h₁ h₂ h₃
    obtain ⟨i, hi, hri, hbi⟩ := h.live_entry hp
    obtain ⟨j, hj, hrj, hbj⟩ := h.live_entry hq
    have hij := h.disjoint hi hj (k := k) (by rw [hri]; exact h₁) (by rw [hri]; exact h₂)
      (by rw [hrj]; exact h₃.1) (by rw [hrj]; exact h₃.2)
    subst hij
    rw [hri] at hrj
    injection hrj with hstart
    exact hne (by omega)
  aligned := by
    intro p n hp
    obtain ⟨i, hi, hr, hb⟩ := h.live_entry hp
    have hdvd := h.aligned hi
    rw [hr] at hdvd
    exact ⟨hb, hdvd⟩
  bits := by
    intro k
    rw [h.bits k]
    constructor
    · rintro ⟨i, hi, h₁, h₂⟩
      have hb := h.base hi
      refine ⟨_, _, (h.live _ _).mpr ⟨i, hi, rfl, rfl⟩, ?_, ?_⟩
      · omega
      · omega
    · rintro ⟨p, n, hp, h₁, h₂⟩
      obtain ⟨i, hi, hr, -⟩ := h.live_entry hp
      refine ⟨i, hi, ?_⟩
      rw [hr]
      exact ⟨h₁, h₂⟩
  kfree := by
    intro p n hp
    obtain ⟨a', hf, -, hbits, -⟩ := h.kfree hp
    exact ⟨a', hf, hbits⟩
  krealloc := by
    intro p q n size a' hp hsize hm
    obtain ⟨h', hr, hbits, -⟩ := h.krealloc hp hsize hm
    exact ⟨h', hr, hbits⟩

/-- **The heap invariant, as callers see it.**  After every sequence of proper calls,
the live blocks are disjoint, aligned and exactly what the bitmap marks, and giving
one of them back releases exactly its own range. -/
theorem blocksInOrder_of_reaches {bottom : Nat} {mem : Bytes} {s : HeapState}
    (h : Reaches HeapCall.exec HeapCall.Proper (HeapState.initial bottom mem) s) :
    BlocksInOrder s :=
  (HeapInv.of_reaches h).blocksInOrder

/-- Three blocks, of which the first is given back, and the second grows.  The entry that it had
is left over, with its address. -/
theorem blocksInOrder_after_calls : ∃ s, runCalls HeapCall.exec HeapCall.Proper
      [.kmalloc 4, .kmalloc 8, .kmalloc 4, .kfree 0x400000, .krealloc 0x400004 16]
      (HeapState.initial 0x400000 fun _ ↦ 0) = some s ∧
    s.live 0x40000c = some 4 ∧ s.live 0x400010 = some 16 ∧ s.live 0x400004 = none ∧
    (s.heap.allocator.entry 1).basePtr = 0x400004 ∧ BlocksInOrder s := by
  obtain ⟨s, hs, hcheck⟩ := (Option.any_eq_true _ _).mp
    (show (runCalls HeapCall.exec HeapCall.Proper
      [.kmalloc 4, .kmalloc 8, .kmalloc 4, .kfree 0x400000, .krealloc 0x400004 16]
      (HeapState.initial 0x400000 fun _ ↦ 0)).any (fun s ↦
        decide (s.live 0x40000c = some 4 ∧ s.live 0x400010 = some 16 ∧ s.live 0x400004 = none ∧
          (s.heap.allocator.entry 1).basePtr = 0x400004)) = true by decide +kernel)
  obtain ⟨hneighbour, hgrown, hdead, hstale⟩ := of_decide_eq_true hcheck
  exact ⟨s, hs, hneighbour, hgrown, hdead, hstale,
    blocksInOrder_of_reaches (reaches_of_runCalls hs)⟩

end Yorha.Heap
