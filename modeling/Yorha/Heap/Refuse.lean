import Yorha.Heap.Page

/-!
# Giving back what is not live

`kfree` is meant to panic for a pointer that is not the base of a live block.  It looks for an
entry with the pointer, and an entry keeps its pointer when its block is given back, until it
gets another one.  So a pointer is refused exactly if the table has forgotten it
(`refuses_iff_of_reaches`).  One that the table remembers is given back again, whoever has its
bytes by then.
-/

namespace Yorha.Heap

open Yorha.Lib Yorha.Str Yorha.Util

/-- `kfree` panics.  Nothing happens after that, so the bitmap is left as it was. -/
def Refuses (a : AllocArray) (p : Nat) : Prop := ∃ msg, kfree a p = .error (.panic msg)

/-- No entry of the table has the pointer, in use or not. -/
def Forgotten (a : AllocArray) (p : Nat) : Prop := ∀ i < maxAllocations, (a.entry i).basePtr ≠ p

instance (a : AllocArray) (p : Nat) : Decidable (Forgotten a p) :=
  inferInstanceAs (Decidable (∀ i < maxAllocations, _))

/-- Giving the pointer back clears no bit of another block that is live. -/
def KeepsOthers (s : HeapState) (p : Nat) : Prop :=
  ∀ a', kfree s.heap.allocator p = .ok a' → ∀ {q n k}, s.live q = some n → q ≠ p →
    q - s.heap.allocator.bottom ≤ k → k < q - s.heap.allocator.bottom + n →
    WordArray.bit a'.bitmap k = true

/-- What is given back is live, or the table has forgotten it. -/
def HeapCall.Careful (s : HeapState) : HeapCall → Prop
  | .kfree ptr => s.live ptr ≠ none ∨ Forgotten s.heap.allocator ptr
  | .krealloc ptr _ => s.live ptr ≠ none
  | _ => True

instance (s : HeapState) (c : HeapCall) : Decidable (c.Careful s) :=
  match c with
  | .kfree ptr => inferInstanceAs (Decidable (s.live ptr ≠ none ∨ Forgotten s.heap.allocator ptr))
  | .krealloc ptr _ => inferInstanceAs (Decidable (s.live ptr ≠ none))
  | .kmalloc _ | .kcalloc _ _ => .isTrue trivial

section

variable {a a' : AllocArray} {s t : HeapState} {c : HeapCall} {p v : Nat}

/-! ## Panics -/

/-- **`kfree` refuses what the table has forgotten**, and nothing else. -/
theorem refuses_iff (hact : a.active = true) : Refuses a p ↔ Forgotten a p := by
  have hassert : assertActive a = .ok () := assertActive_eq_ok.mpr hact
  constructor
  · rintro ⟨msg, h⟩ i hi hbase
    cases hfirst : a.firstEntry (fun e ↦ e.basePtr == p) with
    | none =>
        have hne := AllocArray.firstEntry_eq_none.mp hfirst i hi
        exact beq_eq_false_iff_ne.mp hne hbase
    | some entry =>
        simp only [kfree, hassert, ok_bind, hfirst, releaseEntry] at h
        cases hrange : deallocBitrange a.bitmap (a.entry entry).range with
        | error e =>
            rw [hrange, error_bind] at h
            cases h
            exact deallocBitrange_ne_panic hrange
        | ok bitmap =>
            rw [hrange, ok_bind] at h
            cases h
  · intro h
    have hnone : a.firstEntry (fun e ↦ e.basePtr == p) = none :=
      AllocArray.firstEntry_eq_none.mpr fun i hi ↦ beq_eq_false_iff_ne.mpr (h i hi)
    exact ⟨"Couldn't free ptr", by simp only [kfree, hassert, ok_bind, hnone]⟩

/-- An allocator that answered is active. -/
theorem kmalloc_active {size : Nat} (h : kmalloc a size = .ok (p, a')) : a'.active = true := by
  obtain ⟨slot, start, ha, -⟩ := kmalloc_ok (kmalloc_pos h) h
  exact ha.active

theorem releaseEntry_active {i : Nat} (h : releaseEntry a i = .ok a') :
    a'.active = a.active := by
  simp only [releaseEntry, bind_eq_ok] at h
  obtain ⟨bitmap, -, h⟩ := h
  cases h
  rfl

/-- Whatever is called, the allocator stays active. -/
theorem HeapCall.exec_active (h : c.exec s = .ok (v, t)) : t.heap.allocator.active = true := by
  cases c with
  | kmalloc size =>
      simp only [HeapCall.exec, bind_eq_ok] at h
      obtain ⟨⟨p, a'⟩, hm, h⟩ := h
      cases h
      exact kmalloc_active hm
  | kcalloc num size =>
      simp only [HeapCall.exec, Heap.kcalloc, bind_eq_ok] at h
      obtain ⟨⟨p, h'⟩, ⟨⟨⟩, -, ⟨q, a'⟩, hm, hh⟩, h⟩ := h
      cases hh
      cases h
      exact kmalloc_active hm
  | krealloc ptr newSize =>
      simp only [HeapCall.exec, Heap.krealloc, bind_eq_ok] at h
      obtain ⟨⟨p, h'⟩, ⟨⟨⟩, -, ⟨q, a'⟩, hm, hh⟩, h⟩ := h
      cases h
      split at hh
      · simp only [bind_eq_ok] at hh
        obtain ⟨a'', hr, hh⟩ := hh
        cases hh
        exact (releaseEntry_active hr).trans (kmalloc_active hm)
      · cases hh
  | kfree ptr =>
      simp only [HeapCall.exec, Heap.kfree, bind_eq_ok] at h
      obtain ⟨a', ⟨⟨⟩, hact, hf⟩, h⟩ := h
      cases h
      split at hf
      · exact (releaseEntry_active hf).trans (assertActive_eq_ok.mp hact)
      · cases hf

/-! ## Careful calls -/

/-- A careful call that returns gives back live pointers only. -/
theorem HeapCall.Careful.givesLive (hact : s.heap.allocator.active = true) (hc : c.Careful s)
    (h : c.exec s = .ok (v, t)) : c.GivesLive s := by
  cases c with
  | kmalloc size => trivial
  | kcalloc num size => trivial
  | krealloc ptr newSize => exact hc
  | kfree ptr =>
      refine hc.resolve_right fun hforgotten ↦ ?_
      obtain ⟨msg, hpanic⟩ := (refuses_iff hact).mpr hforgotten
      simp only [HeapCall.exec, hpanic, error_bind] at h
      cases h

/-- Giving back what is live, or forgotten, keeps the other blocks. -/
theorem HeapInv.keepsOthers (hinv : HeapInv s.heap.allocator s.live)
    (hc : HeapCall.Careful s (.kfree p)) : KeepsOthers s p := by
  intro a' hfree q n k hq hne h₁ h₂
  rcases hc with hlive | hforgotten
  · obtain ⟨m, hm⟩ := Option.ne_none_iff_exists'.mp hlive
    obtain ⟨a'', hfree', -, hbits, -⟩ := hinv.kfree hm
    rw [hfree] at hfree'
    cases hfree'
    rw [hbits.eq_of_notMem (hinv.blocksInOrder.disjoint hq hm hne h₁ h₂)]
    exact (hinv.blocksInOrder.bits k).mpr ⟨q, n, hq, h₁, h₂⟩
  · obtain ⟨msg, hpanic⟩ := (refuses_iff hinv.active).mpr hforgotten
    rw [hfree] at hpanic
    cases hpanic

end

/-- **What `kfree` refuses.**  After any calls, a pointer that is not live is refused if and only
if no entry of the table has it.  And in a run in which what is given back is live or forgotten,
no call clears bits of another live block. -/
theorem refuses_iff_of_reaches {bottom : Nat} {mem : Bytes} {s : HeapState} :
    (Reaches HeapCall.exec (fun _ _ ↦ True) (HeapState.initial bottom mem) s →
      ∀ p, s.live p = none → (Refuses s.heap.allocator p ↔ Forgotten s.heap.allocator p)) ∧
    (Reaches HeapCall.exec HeapCall.Careful (HeapState.initial bottom mem) s →
      ∀ p, HeapCall.Careful s (.kfree p) → KeepsOthers s p) := by
  constructor
  · intro h p _
    exact refuses_iff (h.invariant (I := fun s ↦ s.heap.allocator.active = true) rfl
      fun _ _ hstep ↦ HeapCall.exec_active hstep)
  · intro h p hc
    have hinv : HeapInv s.heap.allocator s.live :=
      h.invariant (I := fun s ↦ HeapInv s.heap.allocator s.live) (HeapInv.initial bottom)
        fun hinv hc hstep ↦ hinv.step ((hc.givesLive hinv.active hstep).proper hstep) hstep
    exact hinv.keepsOthers hc

/-- A pointer into the middle of a block is refused, and the block itself can be given back: its
neighbour keeps its bits. -/
theorem refuses_after_kmalloc : ∃ s,
    runCalls HeapCall.exec HeapCall.Careful [.kmalloc 8, .kmalloc 4]
      (HeapState.initial 0x400000 fun _ ↦ 0) = some s ∧
    s.live 0x400008 = some 4 ∧ Refuses s.heap.allocator 0x400004 ∧ KeepsOthers s 0x400000 := by
  obtain ⟨s, hs, hcheck⟩ := (Option.any_eq_true _ _).mp
    (show (runCalls HeapCall.exec HeapCall.Careful [.kmalloc 8, .kmalloc 4]
      (HeapState.initial 0x400000 fun _ ↦ 0)).any (fun s ↦
        decide (s.live 0x400008 = some 4 ∧ s.live 0x400004 = none ∧
          Forgotten s.heap.allocator 0x400004 ∧ s.live 0x400000 ≠ none)) = true by
      decide +kernel)
  obtain ⟨hneighbour, hdead, hforgotten, hlive⟩ := of_decide_eq_true hcheck
  have hreach := reaches_of_runCalls hs
  exact ⟨s, hs, hneighbour,
    (refuses_iff_of_reaches.1 (hreach.mono fun _ _ _ ↦ trivial) _ hdead).mpr hforgotten,
    refuses_iff_of_reaches.2 hreach _ (.inl hlive)⟩

/-- Two blocks that are given back, and a third that gets the bytes of both. -/
def repeatedCalls : List HeapCall :=
  [.kmalloc 4, .kmalloc 4, .kfree 0x400000, .kfree 0x400004, .kmalloc 8]

/-- **A second `kfree` is not refused**: it clears half of the third block. -/
theorem repeated_kfree_clears : ∃ s, runCalls HeapCall.exec HeapCall.Careful repeatedCalls
      (HeapState.initial 0x400000 fun _ ↦ 0) = some s ∧
    s.live 0x400004 = none ∧ ¬ Refuses s.heap.allocator 0x400004 ∧
    ¬ KeepsOthers s 0x400004 := by
  obtain ⟨s, hs, hcheck⟩ := (Option.any_eq_true _ _).mp
    (show (runCalls HeapCall.exec HeapCall.Careful repeatedCalls
      (HeapState.initial 0x400000 fun _ ↦ 0)).any (fun s ↦
        decide (s.live 0x400004 = none ∧ s.live 0x400000 = some 8 ∧
          s.heap.allocator.bottom = 0x400000) &&
        (kfree s.heap.allocator 0x400004).toOption.any fun a' ↦
          !WordArray.bit a'.bitmap 4) = true by decide +kernel)
  obtain ⟨hcheck, hfree⟩ := Bool.and_eq_true_iff.mp hcheck
  obtain ⟨hdead, hlive, hbottom⟩ := of_decide_eq_true hcheck
  obtain ⟨a', hfree, hbit⟩ := (Option.any_eq_true _ _).mp hfree
  have hfree : kfree s.heap.allocator 0x400004 = .ok a' := toOption_eq_some.mp hfree
  refine ⟨s, hs, hdead, fun ⟨msg, hpanic⟩ ↦ ?_, fun h ↦ ?_⟩
  · rw [hfree] at hpanic
    cases hpanic
  · -- the third block's fifth byte has lost its bit
    have hkept := h a' hfree hlive (k := 4) (by decide) (by omega) (by omega)
    rw [hkept] at hbit
    cases hbit

end Yorha.Heap
