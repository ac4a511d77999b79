import Yorha.Heap.Basic
import Yorha.Lib.Slots
import Yorha.Util.AllocSpec

/-!
# The heap invariant

`HeapState` pairs the heap with what the history of calls says: which pointers were
handed out and not given back, and with what size.  `HeapInv` ties the two together
and to the bitmap, and holds in every state reached by proper calls.

The search of `kfree` and `krealloc` takes the first entry whose `base_ptr` is the
pointer, whether or not it is in use.  It finds the block's own entry because of
`HeapInv.first`: no entry before a live one, live or stale, carries its base.  When
an entry is written, all entries before it are in use, by other blocks; and while
it is live none of them can be given its base again, because its bytes are taken.
-/

namespace Yorha.Heap

open Yorha.Lib Yorha.Str Yorha.Util

/-! ## What a call does -/

/-- The bits that `kmalloc` scans: `KERNEL_BITMAP_CAPACITY / 4` words of them. -/
def scannedBits : Nat := 32 * (kernelBitmapCapacity / 4)

/-- `a'` is `a` with `size` bytes from offset `start` on allocated in entry `slot`. -/
structure Allocated (a a' : AllocArray) (size slot start : Nat) : Prop where
  slot_lt : slot < maxAllocations
  free : (a.entry slot).utilized = false
  before : ∀ j < slot, (a.entry j).utilized = true
  fit : FirstFit a.bitmap scannedBits size true start
  bits : WordArray.Filled a.bitmap a'.bitmap start size true
  entry : ∀ j, a'.entry j =
    if slot = j then ⟨a.bottom + start, ⟨start, size⟩, true⟩ else a.entry j
  bottom : a'.bottom = a.bottom
  active : a'.active = true

/-- `a'` is `a` with the block of entry `slot` released. -/
structure Released (a a' : AllocArray) (slot : Nat) : Prop where
  bits : WordArray.Filled a.bitmap a'.bitmap (a.entry slot).range.start
    (a.entry slot).range.length false
  entry : ∀ j, a'.entry j =
    if slot = j then { a.entry slot with utilized := false } else a.entry j
  bottom : a'.bottom = a.bottom
  active : a'.active = a.active

theorem assertActive_eq_ok {a : AllocArray} : assertActive a = .ok () ↔ a.active = true := by
  rw [assertActive]
  split <;> simp_all

/-- Every returning `kmalloc` allocated what it was asked for. -/
theorem kmalloc_ok {a a' : AllocArray} {size p : Nat} (hsize : 0 < size)
    (h : kmalloc a size = .ok (p, a')) :
    ∃ slot start, Allocated a a' size slot start ∧ p = a.bottom + start := by
  simp only [kmalloc, bind_eq_ok] at h
  obtain ⟨⟨⟩, hact, ⟨allocation, bitmap⟩, halloc, h⟩ := h
  rw [assertActive_eq_ok] at hact
  rcases allocBitrange_ok hsize (by decide) halloc with ⟨hlen, hfit, hbits, -⟩ | ⟨rfl, -, -, -⟩
  · have hne : ¬ allocation.length = 0 := by omega
    simp only [if_neg hne] at h
    cases hslot : a.firstEntry (fun e ↦ !e.utilized) with
    | none =>
        rw [hslot] at h
        cases h
    | some slot =>
        rw [hslot] at h
        cases h
        obtain ⟨hlt, hfree, hbefore⟩ := AllocArray.firstEntry_eq_some.mp hslot
        have hentry := entry_setIfInBounds a bitmap hlt
          ⟨a.bottom + allocation.start, allocation, true⟩
        have hrange : allocation = ⟨allocation.start, size⟩ := by rw [← hlen]
        refine ⟨slot, allocation.start, ⟨hlt, by simpa using hfree, fun j hj ↦ ?_, hfit, hbits,
          fun j ↦ ?_, rfl, hact⟩, rfl⟩
        · simpa using hbefore j hj
        · rw [hentry j, ← hrange]
  · simp at h

/-- Releasing an entry whose range lies inside the bitmap succeeds. -/
theorem releaseEntry_eq_ok {a : AllocArray} {slot : Nat} (hslot : slot < maxAllocations)
    (hlen : 0 < (a.entry slot).range.length)
    (hend : (a.entry slot).range.start + (a.entry slot).range.length ≤ scannedBits) :
    ∃ a', releaseEntry a slot = .ok a' ∧ Released a a' slot := by
  have hend' : (a.entry slot).range.start + (a.entry slot).range.length ≤ 8192 := hend
  obtain ⟨bitmap, hb, hbits⟩ := applyBitrange_spec a.bitmap (a.entry slot).range false hlen
    (by omega) (by change _ < 1024; omega)
  have hr : releaseEntry a slot = .ok { a with
      bitmap := bitmap,
      entries := a.entries.setIfInBounds slot { a.entry slot with utilized := false } } := by
    simp only [releaseEntry, deallocBitrange, hb, ok_bind]
  exact ⟨_, hr, hbits, entry_setIfInBounds a bitmap hslot _, rfl, rfl⟩

/-! ## Calls with their history -/

/-- The size of each block handed out and not given back, by its address. -/
abbrev LiveBlocks := Nat → Option Nat

/-- The heap, and what the calls made so far say about it. -/
structure HeapState where
  heap : KernelHeap
  live : LiveBlocks

/-- The heap after `initialize_allocator`, before any call. -/
def HeapState.initial (bottom : Nat) (mem : Bytes) : HeapState where
  heap := ⟨AllocArray.initial bottom, mem⟩
  live := fun _ ↦ none

/-- A call of the heap's interface. -/
inductive HeapCall where
  | kmalloc (size : Nat)
  | kcalloc (num size : Nat)
  | krealloc (ptr newSize : Nat)
  | kfree (ptr : Nat)

/-- Make a call.  The value is the pointer returned, 0 for `kfree`. -/
def HeapCall.exec (s : HeapState) : HeapCall → Except Stop (Nat × HeapState)
  | .kmalloc size => do
      let (p, allocator) ← Heap.kmalloc s.heap.allocator size
      .ok (p, ⟨⟨allocator, s.heap.mem⟩, Function.update s.live p (some size)⟩)
  | .kcalloc num size => do
      let (p, heap) ← Heap.kcalloc s.heap num size
      .ok (p, ⟨heap, Function.update s.live p (some (num * size % 2 ^ 32))⟩)
  | .krealloc ptr newSize => do
      let (p, heap) ← Heap.krealloc s.heap ptr newSize
      .ok (p, ⟨heap, Function.update (Function.update s.live ptr none) p (some newSize)⟩)
  | .kfree ptr => do
      let allocator ← Heap.kfree s.heap.allocator ptr
      .ok (0, ⟨⟨allocator, s.heap.mem⟩, Function.update s.live ptr none⟩)

/-- Sizes are not zero, and only live pointers are given back. -/
def HeapCall.Proper (s : HeapState) : HeapCall → Prop
  | .kmalloc size => 0 < size
  | .kcalloc num size => 0 < num * size % 2 ^ 32
  | .krealloc ptr newSize => s.live ptr ≠ none ∧ 0 < newSize
  | .kfree ptr => s.live ptr ≠ none

instance (s : HeapState) (c : HeapCall) : Decidable (c.Proper s) :=
  match c with
  | .kmalloc size => inferInstanceAs (Decidable (0 < size))
  | .kcalloc num size => inferInstanceAs (Decidable (0 < num * size % 2 ^ 32))
  | .krealloc ptr newSize => inferInstanceAs (Decidable (s.live ptr ≠ none ∧ 0 < newSize))
  | .kfree ptr => inferInstanceAs (Decidable (s.live ptr ≠ none))

/-! ## The invariant -/

/-- The allocator's tables agree with the live blocks. -/
structure HeapInv (a : AllocArray) (live : LiveBlocks) : Prop where
  active : a.active = true
  base : ∀ {i}, (a.entry i).utilized = true →
    (a.entry i).basePtr = a.bottom + (a.entry i).range.start
  nonempty : ∀ {i}, (a.entry i).utilized = true → 0 < (a.entry i).range.length
  inside : ∀ {i}, (a.entry i).utilized = true →
    (a.entry i).range.start + (a.entry i).range.length ≤ scannedBits
  aligned : ∀ {i}, (a.entry i).utilized = true → 4 ∣ (a.entry i).range.start
  disjoint : ∀ {i j k}, (a.entry i).utilized = true → (a.entry j).utilized = true →
    (a.entry i).range.start ≤ k → k < (a.entry i).range.start + (a.entry i).range.length →
    (a.entry j).range.start ≤ k → k < (a.entry j).range.start + (a.entry j).range.length →
    i = j
  bits : ∀ k, WordArray.bit a.bitmap k = true ↔ ∃ i, (a.entry i).utilized = true ∧
    (a.entry i).range.start ≤ k ∧ k < (a.entry i).range.start + (a.entry i).range.length
  first : ∀ {i j}, (a.entry i).utilized = true → j < i →
    (a.entry j).basePtr ≠ (a.entry i).basePtr
  live : ∀ p n, live p = some n ↔ ∃ i, (a.entry i).utilized = true ∧
    (a.entry i).basePtr = p ∧ (a.entry i).range.length = n

theorem utilized_lt {a : AllocArray} {i : Nat} (h : (a.entry i).utilized = true) :
    i < maxAllocations := by
  by_contra hi
  rw [AllocArray.entry, Vector.getElem?_eq_none (Nat.le_of_not_lt hi)] at h
  cases h

/-- The table as slots. -/
abbrev AllocArray.slots (a : AllocArray) : Slots AllocEntry :=
  ⟨a.entry, fun i ↦ (a.entry i).utilized = true⟩

/-- Byte `k` belongs to the entry. -/
abbrev AllocEntry.Covers (e : AllocEntry) (k : Nat) : Prop :=
  e.range.start ≤ k ∧ k < e.range.start + e.range.length

/-- The invariant holds of the initial heap. -/
theorem HeapInv.initial (bottom : Nat) : HeapInv (AllocArray.initial bottom) fun _ ↦ none where
  active := rfl
  base := fun h ↦ by simp at h
  nonempty := fun h ↦ by simp at h
  inside := fun h ↦ by simp at h
  aligned := fun h ↦ by simp at h
  disjoint := fun h ↦ by simp at h
  bits := by
    intro k
    have hbit : WordArray.bit (AllocArray.initial bottom).bitmap k = false :=
      bit_replicate_zero _ k
    simp [hbit]
  first := fun h ↦ by simp at h
  live := fun p n ↦ by simp

section

variable {a a' : AllocArray} {live : LiveBlocks} {size slot start p n : Nat}

theorem HeapInv.leads (h : HeapInv a live) : a.slots.Leads AllocEntry.basePtr :=
  fun _ _ ↦ h.first

/-- Each byte belongs to one block. -/
theorem HeapInv.atMostOne (h : HeapInv a live) (k : Nat) : a.slots.AtMostOne (·.Covers k) :=
  fun _ _ hi hj hki hkj ↦ h.disjoint hi hj hki.1 hki.2 hkj.1 hkj.2

/-- A new block overlaps no block in use. -/
theorem Allocated.separate (h : HeapInv a live) (ha : Allocated a a' size slot start)
    {i k : Nat} (hi : (a.entry i).utilized = true) (h₁ : (a.entry i).range.start ≤ k)
    (h₂ : k < (a.entry i).range.start + (a.entry i).range.length) :
    ¬ (start ≤ k ∧ k < start + size) := by
  rintro ⟨h₃, h₄⟩
  have hset : WordArray.bit a.bitmap k = true := (h.bits k).mpr ⟨i, hi, h₁, h₂⟩
  rw [ha.fit.clear k h₃ h₄] at hset
  cases hset

theorem Allocated.put (ha : Allocated a a' size slot start) :
    a.slots.Put a'.slots slot ⟨a.bottom + start, ⟨start, size⟩, true⟩ where
  free := Bool.eq_false_iff.mp ha.free
  entry_self := by
    change a'.entry slot = _
    rw [ha.entry slot, if_pos rfl]
  entry_of_ne := by
    intro i hi
    change a'.entry i = a.entry i
    rw [ha.entry i, if_neg hi]
  used_iff := by
    intro i
    change (a'.entry i).utilized = true ↔ slot = i ∨ (a.entry i).utilized = true
    rw [ha.entry i]
    by_cases h : slot = i
    · simp [h]
    · simp [h]

/-- The base of a new block is not the base of any block in use. -/
theorem Allocated.base_ne (h : HeapInv a live) (ha : Allocated a a' size slot start)
    (hsize : 0 < size) {i : Nat} (hi : (a.entry i).utilized = true) :
    (a.entry i).basePtr ≠ a.bottom + start := by
  intro he
  have hb := h.base hi
  have hn := h.nonempty hi
  exact ha.separate h hi (k := start) (by omega) (by omega) ⟨by omega, by omega⟩

/-- **Allocation keeps the invariant.** -/
theorem HeapInv.allocated (h : HeapInv a live) (ha : Allocated a a' size slot start)
    (hsize : 0 < size) :
    HeapInv a' (Function.update live (a.bottom + start) (some size)) where
  active := ha.active
  base := by
    rw [ha.bottom]
    exact ha.put.forall_used (P := fun e ↦ e.basePtr = a.bottom + e.range.start) rfl h.base
  nonempty := ha.put.forall_used (P := fun e ↦ 0 < e.range.length) hsize h.nonempty
  inside := ha.put.forall_used (P := fun e ↦ e.range.start + e.range.length ≤ scannedBits)
    ha.fit.inside h.inside
  aligned := ha.put.forall_used (P := fun e ↦ 4 ∣ e.range.start) (ha.fit.aligned rfl) h.aligned
  disjoint := by
    intro i j k hi hj h₁ h₂ h₃ h₄
    refine ha.put.atMostOne (h.atMostOne k) (fun hnew i hi hk ↦ ?_) i j hi hj ⟨h₁, h₂⟩ ⟨h₃, h₄⟩
    exact ha.separate h hi hk.1 hk.2 hnew
  bits := by
    intro k
    refine Iff.trans ?_ (ha.put.exists_used (·.Covers k)).symm
    by_cases hk : start ≤ k ∧ k < start + size
    · rw [ha.bits.eq_of_mem hk.1 hk.2]
      exact ⟨fun _ ↦ .inl hk, fun _ ↦ rfl⟩
    · rw [ha.bits.eq_of_notMem hk, h.bits k]
      exact (or_iff_right hk).symm
  first := by
    -- the entries before the new one are all in use, by other blocks
    intro i j
    exact ha.put.leads h.leads (fun j hj ↦ ha.base_ne h hsize (ha.before j hj))
      (ha.base_ne h hsize) i j
  live := by
    intro p n
    refine Iff.trans ?_ (ha.put.exists_used fun e ↦ e.basePtr = p ∧ e.range.length = n).symm
    by_cases hp : p = a.bottom + start
    · subst hp
      rw [Function.update_self, Option.some_inj]
      constructor
      · exact fun hsize ↦ .inl ⟨rfl, hsize⟩
      · rintro (⟨-, hlength⟩ | ⟨i, hi, hbase, -⟩)
        · exact hlength
        · exact absurd hbase (ha.base_ne h hsize hi)
    · rw [Function.update_of_ne hp, h.live p n]
      exact (or_iff_right fun hnew ↦ hp hnew.1.symm).symm

theorem Released.dropped (hr : Released a a' slot) : a.slots.Dropped a'.slots slot where
  entry_of_ne := by
    intro i hi
    change a'.entry i = a.entry i
    rw [hr.entry i, if_neg hi]
  used_iff := by
    intro i
    change (a'.entry i).utilized = true ↔ slot ≠ i ∧ (a.entry i).utilized = true
    rw [hr.entry i]
    by_cases h : slot = i
    · simp [h]
    · simp [h]

theorem Released.basePtr_slot (hr : Released a a' slot) :
    (a'.entry slot).basePtr = (a.entry slot).basePtr := by
  rw [hr.entry slot, if_pos rfl]

/-- Bases stay in the table, also that of the released block. -/
theorem Released.basePtr_eq (hr : Released a a' slot) (i : Nat) :
    (a'.entry i).basePtr = (a.entry i).basePtr :=
  hr.dropped.key_eq AllocEntry.basePtr hr.basePtr_slot i

/-- **Release keeps the invariant.** -/
theorem HeapInv.released (h : HeapInv a live) (hr : Released a a' slot)
    (hslot : (a.entry slot).utilized = true) :
    HeapInv a' (Function.update live (a.entry slot).basePtr none) where
  active := hr.active.trans h.active
  base := by
    rw [hr.bottom]
    exact hr.dropped.forall_used (P := fun e ↦ e.basePtr = a.bottom + e.range.start) h.base
  nonempty := hr.dropped.forall_used (P := fun e ↦ 0 < e.range.length) h.nonempty
  inside := hr.dropped.forall_used (P := fun e ↦ e.range.start + e.range.length ≤ scannedBits)
    h.inside
  aligned := hr.dropped.forall_used (P := fun e ↦ 4 ∣ e.range.start) h.aligned
  disjoint := by
    intro i j k hi hj h₁ h₂ h₃ h₄
    exact hr.dropped.atMostOne (h.atMostOne k) i j hi hj ⟨h₁, h₂⟩ ⟨h₃, h₄⟩
  bits := by
    intro k
    by_cases hk : (a.entry slot).Covers k
    · rw [hr.bits.eq_of_mem hk.1 hk.2]
      exact iff_of_false Bool.false_ne_true
        (hr.dropped.not_exists_used (h.atMostOne k) hslot hk)
    · rw [hr.bits.eq_of_notMem hk, h.bits k]
      exact (hr.dropped.exists_used_of_not (·.Covers k) hk).symm
  first := by
    intro i j
    exact hr.dropped.leads h.leads hr.basePtr_slot i j
  live := by
    intro p n
    by_cases hp : p = (a.entry slot).basePtr
    · subst hp
      rw [Function.update_self]
      refine iff_of_false (Option.some_ne_none n).symm fun hex ↦ ?_
      obtain ⟨i, hne, hi, hbase, -⟩ := (hr.dropped.exists_used fun e ↦
        e.basePtr = (a.entry slot).basePtr ∧ e.range.length = n).mp hex
      exact hne (h.leads.inj hslot hi hbase.symm)
    · rw [Function.update_of_ne hp, h.live p n]
      exact (hr.dropped.exists_used_of_not (fun e ↦ e.basePtr = p ∧ e.range.length = n)
        fun hslot ↦ hp hslot.1.symm).symm

/-- The search by base pointer finds the entry of a live block. -/
theorem HeapInv.firstEntry_eq (h : HeapInv a live) (hslot : (a.entry slot).utilized = true) :
    a.firstEntry (fun e ↦ e.basePtr == (a.entry slot).basePtr) = some slot := by
  rw [AllocArray.firstEntry_eq_some]
  refine ⟨utilized_lt hslot, by simp, fun j hj ↦ ?_⟩
  simpa using h.first hslot hj

/-- **`kfree` of a live pointer** returns, having released exactly its block. -/
theorem HeapInv.kfree_eq_ok (h : HeapInv a live) (hp : live p = some n) :
    ∃ a' slot, kfree a p = .ok a' ∧ Released a a' slot ∧ (a.entry slot).utilized = true ∧
      (a.entry slot).basePtr = p ∧ (a.entry slot).range = ⟨p - a.bottom, n⟩ := by
  obtain ⟨slot, hslot, rfl, rfl⟩ := (h.live p n).mp hp
  obtain ⟨a', ha', hr⟩ := releaseEntry_eq_ok (utilized_lt hslot) (h.nonempty hslot)
    (h.inside hslot)
  refine ⟨a', slot, ?_, hr, hslot, rfl, ?_⟩
  · have hact : assertActive a = .ok () := assertActive_eq_ok.mpr h.active
    simp only [kfree, hact, ok_bind, h.firstEntry_eq hslot]
    exact ha'
  · rw [h.base hslot, Nat.add_sub_cancel_left]

end

end Yorha.Heap
