import Yorha.Str.Basic
import Yorha.Util.Bitrange

/-!
# The kernel heap

The allocator of `alloc.c`: a bitmap with one bit for each byte of the heap, and a
table of at most `MAX_ALLOCATIONS` entries that remembers the range of each block.
A freed entry keeps its `base_ptr` and `range`; only `utilized` is cleared.

Addresses are numbers.  `KernelHeap` adds the memory the blocks lie in to the
allocator's own tables.
-/

namespace Yorha.Heap

open Yorha.Lib Yorha.Str Yorha.Util

/-- `KERNEL_HEAP_SIZE`: the bytes of the one page mapped for the heap. -/
def kernelHeapSize : Nat := 0x1000

/-- `MAX_ALLOCATIONS`. -/
def maxAllocations : Nat := 256

/-- `KERNEL_BITMAP_CAPACITY`: the words of the bitmap, and the capacity passed on. -/
def kernelBitmapCapacity : Nat := kernelHeapSize / 4

/-- One row of the table of allocations. -/
structure AllocEntry where
  basePtr : Nat := 0
  range : BitRange := ⟨0, 0⟩
  utilized : Bool := false
deriving DecidableEq, Repr

/-- The allocator's tables. -/
structure AllocArray where
  bottom : Nat
  entries : Vector AllocEntry maxAllocations
  bitmap : Vector Word kernelBitmapCapacity
  active : Bool

/-- `entries[i]`. -/
def AllocArray.entry (a : AllocArray) (i : Nat) : AllocEntry := a.entries[i]?.getD {}

/-- The index of the first entry that satisfies `p`. -/
def AllocArray.firstEntry (a : AllocArray) (p : AllocEntry → Bool) : Option Nat :=
  a.entries.toList.findIdx? p

/-- The allocator as `initialize_allocator` leaves it, on the page at `bottom`. -/
def AllocArray.initial (bottom : Nat) : AllocArray where
  bottom := bottom
  entries := Vector.replicate maxAllocations {}
  bitmap := Vector.replicate kernelBitmapCapacity 0
  active := true

/-- `ASSERT(allocator.active, ..)`. -/
def assertActive (a : AllocArray) : Except Stop Unit :=
  if a.active then .ok () else .error (.panic "allocator must be initialized first")

/-- Hands out `size` bytes. -/
def kmalloc (a : AllocArray) (size : Nat) : Except Stop (Nat × AllocArray) := do
  assertActive a
  let (allocation, bitmap) ← allocBitrange a.bitmap kernelBitmapCapacity size true
  if allocation.length = 0 then .error (.panic "Insufficient space in heap")
  else
    let newEntry : AllocEntry := ⟨a.bottom + allocation.start, allocation, true⟩
    match a.firstEntry (fun e ↦ !e.utilized) with
    | some entry => .ok (newEntry.basePtr,
        { a with bitmap := bitmap, entries := a.entries.setIfInBounds entry newEntry })
    | none => .error (.panic "Maximum allocations reached")

/-- Marks entry `i` unused and releases its range: the body of the loop of `kfree`. -/
def releaseEntry (a : AllocArray) (i : Nat) : Except Stop AllocArray := do
  let e := a.entry i
  let bitmap ← deallocBitrange a.bitmap e.range
  .ok { a with bitmap := bitmap,
               entries := a.entries.setIfInBounds i { e with utilized := false } }

/-- Gives back the block at `ptr`.  The search does not look at `utilized`. -/
def kfree (a : AllocArray) (ptr : Nat) : Except Stop AllocArray := do
  assertActive a
  match a.firstEntry (fun e ↦ e.basePtr == ptr) with
  | some entry => releaseEntry a entry
  | none => .error (.panic "Couldn't free ptr")

/-- The allocator and the memory its blocks lie in. -/
structure KernelHeap where
  allocator : AllocArray
  mem : Bytes

/-- Hands out `num * size` zeroed bytes; the product is a `size_t`. -/
def kcalloc (h : KernelHeap) (num size : Nat) : Except Stop (Nat × KernelHeap) := do
  assertActive h.allocator
  let (ptr, allocator) ← kmalloc h.allocator (num * size % 2 ^ 32)
  .ok (ptr, ⟨allocator, memset h.mem ptr 0 (num * size % 2 ^ 32)⟩)

/-- Moves the block at `ptr` to a new one of `new_size` bytes.  It copies as many
bytes as the old block had. -/
def krealloc (h : KernelHeap) (ptr newSize : Nat) : Except Stop (Nat × KernelHeap) := do
  assertActive h.allocator
  let (newPtr, allocator) ← kmalloc h.allocator newSize
  match allocator.firstEntry (fun e ↦ e.basePtr == ptr) with
  | some entry =>
      let length := (allocator.entry entry).range.length
      let allocator ← releaseEntry allocator entry
      .ok (newPtr, ⟨allocator, memmove h.mem newPtr ptr length⟩)
  | none => .error (.panic "Couldn't realloc ptr")

/-! ## The table of entries -/

/-- What `firstEntry` finds is the first entry that satisfies the test. -/
theorem AllocArray.firstEntry_eq_some {a : AllocArray} {p : AllocEntry → Bool} {i : Nat} :
    a.firstEntry p = some i ↔
      i < maxAllocations ∧ p (a.entry i) = true ∧ ∀ j < i, p (a.entry j) = false := by
  have hget : ∀ {j} (hj : j < maxAllocations), a.entries[j] = a.entry j := by
    intro j hj
    simp [AllocArray.entry, hj]
  rw [AllocArray.firstEntry, List.findIdx?_eq_some_iff_getElem]
  constructor
  · rintro ⟨hi, hp, hno⟩
    have hi' : i < maxAllocations := by simpa using hi
    refine ⟨hi', ?_, fun j hj ↦ ?_⟩
    · rw [← hget hi']
      simpa using hp
    · have := hno j hj
      rw [← hget (by omega)]
      simpa using this
  · rintro ⟨hi, hp, hno⟩
    refine ⟨by simpa using hi, ?_, fun j hj ↦ ?_⟩
    · rw [← hget hi] at hp
      simpa using hp
    · have := hno j hj
      rw [← hget (by omega)] at this
      simpa using this

theorem AllocArray.firstEntry_eq_none {a : AllocArray} {p : AllocEntry → Bool} :
    a.firstEntry p = none ↔ ∀ i < maxAllocations, p (a.entry i) = false := by
  rw [AllocArray.firstEntry, List.findIdx?_eq_none_iff]
  constructor
  · intro h i hi
    have := h a.entries[i] (by simp)
    simpa [AllocArray.entry, hi] using this
  · intro h e he
    obtain ⟨i, hi, rfl⟩ := List.mem_iff_getElem.mp he
    have hi' : i < maxAllocations := by simpa using hi
    have := h i hi'
    simpa [AllocArray.entry, hi'] using this

/-- Reading the table after one entry has been overwritten. -/
theorem entry_setIfInBounds (a : AllocArray) (bitmap : Vector Word kernelBitmapCapacity)
    {i : Nat} (hi : i < maxAllocations) (e : AllocEntry) (j : Nat) :
    AllocArray.entry { a with bitmap := bitmap, entries := a.entries.setIfInBounds i e } j =
      if i = j then e else a.entry j := by
  simp only [AllocArray.entry, Vector.getElem?_setIfInBounds]
  by_cases h : i = j
  · subst h
    simp [hi]
  · simp [h]

@[simp] theorem initial_entry (bottom i : Nat) : (AllocArray.initial bottom).entry i = {} := by
  simp only [AllocArray.entry, AllocArray.initial, Vector.getElem?_replicate]
  split <;> rfl

end Yorha.Heap
