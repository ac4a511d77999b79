import Yorha.Heap.Buffer
import Yorha.Heap.Replay

/-!
# Moving a block

`krealloc` gets a new block, gives the old one back, and copies.  It copies as many bytes as the
old block has.  A block that grows, or keeps its size, is moved with its contents, and nothing
else changes.  For one that shrinks the copy goes on behind the new block, where another block
may be, or the end of the page (`reallocates_iff`).
-/

namespace Yorha.Heap

open Yorha.Lib Yorha.Str Yorha.Util

/-- A copy: where it goes, where it comes from, and how many bytes there are. -/
structure Copy where
  dst : Nat
  src : Nat
  count : Nat

/-- The arguments that `krealloc` calls `memmove` with. -/
def kreallocCopy (h : KernelHeap) (ptr newSize : Nat) : Except Stop Copy := do
  assertActive h.allocator
  let (newPtr, allocator) ← kmalloc h.allocator newSize
  match allocator.firstEntry (fun e ↦ e.basePtr == ptr) with
  | some entry => .ok ⟨newPtr, ptr, (allocator.entry entry).range.length⟩
  | none => .error (.panic "Couldn't realloc ptr")

/-- What is read, and what is written, is on the page from `bottom` on. -/
def Copy.InPage (bottom : Nat) (c : Copy) : Prop :=
  (bottom ≤ c.src ∧ c.src + c.count ≤ bottom + kernelHeapSize) ∧
    bottom ≤ c.dst ∧ c.dst + c.count ≤ bottom + kernelHeapSize

/-- `kmalloc` has a place for the block, and an entry. -/
structure HasRoom (a : AllocArray) (size : Nat) : Prop where
  fits : ∃ start, Fits a.bitmap scannedBits size true start
  unused : ∃ i < maxAllocations, (a.entry i).utilized = false

/-- What `krealloc` is for: the block at `p` is moved to one of `newSize` bytes, with the bytes
that both have, and other blocks are as before. -/
structure Reallocates (s : HeapState) (p newSize q : Nat) (t : HeapState) : Prop where
  returns : HeapCall.exec s (.krealloc p newSize) = .ok (q, t)
  block : t.live q = some newSize
  inv : HeapInv t.heap.allocator t.live
  copied : ∀ {n i}, s.live p = some n → i < min n newSize → t.heap.mem (q + i) = s.heap.mem (p + i)
  frame : Frame s.heap t.heap s.live t.live (· = p)
  inPage : ∀ {c}, kreallocCopy s.heap p newSize = .ok c → c.InPage s.heap.allocator.bottom

/-- As many bytes as the old block has are on the page, from it on and from the first place for
the new block on; and behind the new block, as far as these go, the bytes of other blocks are
already what is copied there. -/
def Spares (s : HeapState) (p newSize : Nat) : Prop :=
  ∀ n start, s.live p = some n →
    FirstFit s.heap.allocator.bitmap scannedBits newSize true start →
    p + n ≤ s.heap.allocator.bottom + kernelHeapSize ∧ start + n ≤ kernelHeapSize ∧
    ∀ {r m i k}, s.live r = some m → r ≠ p → i < m → newSize ≤ k → k < n →
      r + i = s.heap.allocator.bottom + start + k → s.heap.mem (r + i) = s.heap.mem (p + k)

section

variable {h h' : KernelHeap} {s t : HeapState} {p q n newSize : Nat}

/-- The copy comes from the old block, and has its length. -/
theorem HeapInv.kreallocCopy_eq {live : LiveBlocks} {a : AllocArray}
    (hinv : HeapInv h.allocator live) (hp : live p = some n) (hsize : 0 < newSize)
    (hm : Heap.kmalloc h.allocator newSize = .ok (q, a)) :
    kreallocCopy h p newSize = .ok ⟨q, p, n⟩ := by
  have hact : assertActive h.allocator = .ok () := assertActive_eq_ok.mpr hinv.active
  have hinv' := hinv.kmalloc hsize hm
  have hp' : Function.update live q (some newSize) p = some n := by
    rw [Function.update_of_ne (ne_of_fresh (hinv.kmalloc_fresh hsize hm) hp)]
    exact hp
  obtain ⟨i, hi, rfl, rfl⟩ := (hinv'.live p n).mp hp'
  simp only [kreallocCopy, hact, ok_bind, hm, hinv'.firstEntry_eq hi]

/-- A call that has room returns, from the first place that is large enough. -/
theorem HeapInv.exec_krealloc (hinv : HeapInv s.heap.allocator s.live) (hp : s.live p = some n)
    (hsize : 0 < newSize) (hroom : HasRoom s.heap.allocator newSize) :
    ∃ start t, FirstFit s.heap.allocator.bitmap scannedBits newSize true start ∧
      HeapCall.exec s (.krealloc p newSize) = .ok (s.heap.allocator.bottom + start, t) ∧
      kreallocCopy s.heap p newSize = .ok ⟨s.heap.allocator.bottom + start, p, n⟩ ∧
      t.live = Function.update (Function.update s.live p none)
        (s.heap.allocator.bottom + start) (some newSize) := by
  obtain ⟨start₀, hfit⟩ := hroom.fits
  obtain ⟨i, hi, hfree⟩ := hroom.unused
  obtain ⟨q, a, hm⟩ := kmalloc_returns hinv.active hsize hfit hi hfree
  obtain ⟨slot, start, ha, rfl⟩ := kmalloc_ok hsize hm
  obtain ⟨h', hk, -, -⟩ := hinv.krealloc hp hsize hm
  refine ⟨start, ⟨h', Function.update (Function.update s.live p none)
    (s.heap.allocator.bottom + start) (some newSize)⟩, ha.fit, ?_,
    hinv.kreallocCopy_eq hp hsize hm, rfl⟩
  simp only [HeapCall.exec, hk, ok_bind]

/-- The first place for a block is the only one. -/
theorem firstFit_unique {a b : Nat} {bitmap : Vector Word kernelBitmapCapacity}
    (ha : FirstFit bitmap scannedBits newSize true a)
    (hb : FirstFit bitmap scannedBits newSize true b) : a = b :=
  le_antisymm (ha.le hb.toFits) (hb.le ha.toFits)

/-- What the heap is after `krealloc`. -/
theorem HeapInv.krealloc_mem (hinv : HeapInv s.heap.allocator s.live) (hp : s.live p = some n)
    (hsize : 0 < newSize) (hk : HeapCall.exec s (.krealloc p newSize) = .ok (q, t)) :
    s.live q = none ∧ HeapInv t.heap.allocator t.live ∧
      t.heap.allocator.bottom = s.heap.allocator.bottom ∧
      t.heap.mem = memmove s.heap.mem q p n := by
  simp only [HeapCall.exec, bind_eq_ok] at hk
  obtain ⟨⟨q', h'⟩, hk, ht⟩ := hk
  cases ht
  exact hinv.krealloc_copies hp hsize hk

/-- **What `krealloc` does** to a live block, where there is room. -/
theorem HeapInv.reallocates_iff (hinv : HeapInv s.heap.allocator s.live) (hp : s.live p ≠ none)
    (hsize : 0 < newSize) (hroom : HasRoom s.heap.allocator newSize) :
    (∃ q t, Reallocates s p newSize q t) ↔ Spares s p newSize := by
  obtain ⟨n, hn⟩ := Option.ne_none_iff_exists'.mp hp
  obtain ⟨start, t, hfit, hexec, hcopy, hlive⟩ := hinv.exec_krealloc hn hsize hroom
  obtain ⟨hfresh, hinv', hbottom, hmem⟩ := hinv.krealloc_mem hn hsize hexec
  constructor
  · rintro ⟨q, t', hr⟩ n' start' hn' hfit'
    obtain rfl := firstFit_unique hfit hfit'
    obtain rfl : n = n' := Option.some.inj (hn.symm.trans hn')
    have hret := hr.returns
    rw [hexec] at hret
    cases hret
    obtain ⟨⟨-, hsrc⟩, -, hdst⟩ := hr.inPage hcopy
    change s.heap.allocator.bottom + start + n ≤ _ at hdst
    refine ⟨hsrc, by omega, fun {r m i k} hrm hne hi hk₁ hk₂ heq ↦ ?_⟩
    -- the other block's byte is as before, and it is the byte that was copied there
    rw [← hr.frame.same hrm hne hi, hmem, memmove_apply, if_pos (by omega)]
    congr 1
    omega
  · intro hspares
    obtain ⟨hsrc, hdst, hbytes⟩ := hspares n start hn hfit
    have hkept : ∀ {r m}, s.live r = some m → r ≠ p → t.live r = some m := by
      intro r m hr hne
      rw [hlive, Function.update_of_ne (ne_of_fresh hfresh hr), Function.update_of_ne hne]
      exact hr
    have hblock : t.live (s.heap.allocator.bottom + start) = some newSize := by
      rw [hlive, Function.update_self]
    refine ⟨_, t, hexec, hblock, hinv', fun {n' i} hn' hi ↦ ?_,
      ⟨fun hr hne ↦ hkept hr hne, fun {r m i} hr hne hi ↦ ?_, hbottom⟩, fun {c} hc ↦ ?_⟩
    · obtain rfl : n = n' := Option.some.inj (hn.symm.trans hn')
      rw [hmem, memmove_apply, if_pos (by omega)]
      congr 1
      omega
    · rw [hmem, memmove_apply]
      split
      · rename_i hin
        -- the new block and the other one have no byte in common, so the byte lies behind
        have hbehind : s.heap.allocator.bottom + start + newSize ≤ r + i := by
          by_contra hlt
          refine hinv'.apart (h := t.heap) hblock (hkept hr hne) (ne_of_fresh hfresh hr).symm
            hin.1 (by omega) ⟨Nat.le_add_right r i, by omega⟩
        have hsame := hbytes hr hne hi (k := r + i - (s.heap.allocator.bottom + start))
          (by omega) (by omega) (by omega)
        exact hsame.symm
      · rfl
    · rw [hcopy] at hc
      cases hc
      have hle := (hinv.block_le hn).1
      refine ⟨⟨hle, hsrc⟩, Nat.le_add_right _ _, ?_⟩
      change s.heap.allocator.bottom + start + n ≤ _
      omega

/-- Bits that are clear, counted from the first of them. -/
theorem clear_of_forall {bitmap : Vector Word kernelBitmapCapacity} {start count : Nat}
    (h : ∀ k < count, WordArray.bit bitmap (start + k) = false) :
    WordArray.Clear bitmap start count := by
  intro k h₁ h₂
  have hk := h (k - start) (by omega)
  rwa [Nat.add_sub_of_le h₁] at hk

/-- A block that does not shrink is spared where there is page enough. -/
theorem spares_of_le {n : Nat} (hn : s.live p = some n) (hle : n ≤ newSize)
    (hsrc : p + n ≤ s.heap.allocator.bottom + kernelHeapSize)
    (hfit : ∃ start, Fits s.heap.allocator.bitmap kernelHeapSize newSize true start) :
    Spares s p newSize := by
  intro n' start hn' hfirst
  obtain rfl : n = n' := Option.some.inj (hn.symm.trans hn')
  obtain ⟨start', hfit⟩ := hfit
  have hfirst_le := hfirst.le ⟨hfit.aligned, le_trans hfit.inside (by decide), hfit.clear⟩
  have hinside := hfit.inside
  exact ⟨hsrc, by omega, fun {r m i k} _ _ _ hk₁ hk₂ _ ↦ absurd hk₁ (by omega)⟩

end

/-- **The contract of `krealloc`.**  After any proper calls, and whatever the blocks' contents
are, a live block is moved as it should be if and only if the copy spares what is behind the new
block. -/
theorem reallocates_iff_of_reaches {bottom : Nat} {mem : Bytes} {s : HeapState}
    (h : Reaches HeapCall.exec HeapCall.Proper (HeapState.initial bottom mem) s)
    (contents : Bytes) {p newSize : Nat} (hp : s.live p ≠ none) (hsize : 0 < newSize)
    (hroom : HasRoom s.heap.allocator newSize) :
    (∃ q t, Reallocates ⟨⟨s.heap.allocator, contents⟩, s.live⟩ p newSize q t) ↔
      Spares ⟨⟨s.heap.allocator, contents⟩, s.live⟩ p newSize := by
  have hinv := HeapInv.of_reaches h
  exact HeapInv.reallocates_iff (s := ⟨⟨s.heap.allocator, contents⟩, s.live⟩) hinv hp hsize hroom

/-- A block of three bytes that grows to eight, and one of four behind it. -/
theorem grown_reallocates : ∃ s, runCalls HeapCall.exec HeapCall.Proper [.kmalloc 3, .kmalloc 4]
      (HeapState.initial 0x400000 fun _ ↦ 0) = some s ∧ s.live 0x400004 = some 4 ∧
    ∃ q t, Reallocates ⟨⟨s.heap.allocator, fun a ↦ UInt8.ofNat a⟩, s.live⟩ 0x400000 8 q t := by
  obtain ⟨s, hs, hcheck⟩ := (Option.any_eq_true _ _).mp
    (show (runCalls HeapCall.exec HeapCall.Proper [.kmalloc 3, .kmalloc 4]
      (HeapState.initial 0x400000 fun _ ↦ 0)).any (fun s ↦
        decide (s.live 0x400000 = some 3 ∧ s.live 0x400004 = some 4 ∧
          s.heap.allocator.bottom = 0x400000 ∧ (s.heap.allocator.entry 2).utilized = false ∧
          ∀ k < 8, WordArray.bit s.heap.allocator.bitmap (8 + k) = false)) = true by
      decide +kernel)
  obtain ⟨hlive, hneighbour, hbottom, hunused, hclear⟩ := of_decide_eq_true hcheck
  have hfit : Fits s.heap.allocator.bitmap kernelHeapSize 8 true 8 :=
    ⟨fun _ ↦ ⟨2, rfl⟩, by decide, clear_of_forall hclear⟩
  refine ⟨s, hs, hneighbour, (reallocates_iff_of_reaches (reaches_of_runCalls hs) _ ?_ (by decide)
    ⟨⟨8, hfit.aligned, by decide, hfit.clear⟩, 2, by decide, hunused⟩).mpr ?_⟩
  · rw [hlive]
    exact Option.some_ne_none 3
  · refine spares_of_le (n := 3) hlive (by decide) ?_ ⟨8, hfit⟩
    change 0x400000 + 3 ≤ s.heap.allocator.bottom + kernelHeapSize
    rw [hbottom]
    decide

/-- Three blocks, the first of which is given back. -/
def shrinkCalls : List HeapCall := [.kmalloc 4, .kmalloc 4, .kmalloc 8, .kfree 0x400000]

/-- **A block that shrinks runs over its new neighbour**: the third block moves to the place of
the first, and its second half over the second. -/
theorem shrinking_overruns : ∃ s, runCalls HeapCall.exec HeapCall.Proper shrinkCalls
      (HeapState.initial 0x400000 fun _ ↦ 0) = some s ∧
    s.live 0x400008 = some 8 ∧ HasRoom s.heap.allocator 4 ∧
    ¬ ∃ q t, Reallocates ⟨⟨s.heap.allocator, fun a ↦ UInt8.ofNat a⟩, s.live⟩ 0x400008 4 q t := by
  obtain ⟨s, hs, hcheck⟩ := (Option.any_eq_true _ _).mp
    (show (runCalls HeapCall.exec HeapCall.Proper shrinkCalls
      (HeapState.initial 0x400000 fun _ ↦ 0)).any (fun s ↦
        decide (s.live 0x400008 = some 8 ∧ s.live 0x400004 = some 4 ∧
          s.heap.allocator.bottom = 0x400000 ∧ (s.heap.allocator.entry 3).utilized = false ∧
          ∀ k < 4, WordArray.bit s.heap.allocator.bitmap (0 + k) = false)) = true by
      decide +kernel)
  obtain ⟨hlive, hnext, hbottom, hunused, hclear⟩ := of_decide_eq_true hcheck
  have hfit : FirstFit s.heap.allocator.bitmap scannedBits 4 true 0 :=
    ⟨⟨fun _ ↦ ⟨0, rfl⟩, by decide, clear_of_forall hclear⟩,
      fun b hb ↦ absurd hb (Nat.not_lt_zero b)⟩
  have hroom : HasRoom s.heap.allocator 4 := ⟨⟨0, hfit.toFits⟩, 3, by decide, hunused⟩
  have hinv := HeapInv.of_reaches (reaches_of_runCalls hs)
  refine ⟨s, hs, hlive, hroom, fun hreallocates ↦ ?_⟩
  have hspares := (HeapInv.reallocates_iff
    (s := ⟨⟨s.heap.allocator, fun a ↦ UInt8.ofNat a⟩, s.live⟩) hinv
    (by rw [hlive]; exact Option.some_ne_none 8) (by decide) hroom).mp hreallocates
  -- the first byte of the second block becomes the fifth of the third
  have hbyte : UInt8.ofNat 0x400004 = UInt8.ofNat 0x40000c :=
    (hspares 8 0 hlive hfit).2.2 hnext (i := 0) (k := 4) (by decide) (by decide) (by decide)
      (by decide) (by rw [hbottom])
  exact absurd hbyte (by decide)

end Yorha.Heap
