import Yorha.Heap.Basic

/-!
# The page allocator

The allocator of physical pages of `alloc.c`.  It has the same table of entries as the
kernel heap, and a bitmap with one bit for each page of `VM_MEMORY`.

The first entry is the kernel's, which owns the first 1024 pages.  The address of a page is
computed in 32 bits.
-/

namespace Yorha.Page

open Yorha.Lib Yorha.Util Yorha.Heap

/-- `PAGE_SIZE`. -/
def pageSize : Nat := 4096

/-- `PAGE_BITMAP_CAPACITY`, from the 1024 MB of `VM_MEMORY`: the words of the bitmap, and the
capacity passed on. -/
def pageBitmapCapacity : Nat := 2 ^ 30 / pageSize

/-- The pages that the kernel owns from the start. -/
def kernelPages : Nat := 1024

/-- The allocator's tables. -/
structure PageArray where
  bottom : Nat
  entries : Vector AllocEntry maxAllocations
  bitmap : Vector Word pageBitmapCapacity
  active : Bool

/-- `{0}`. -/
def PageArray.zero : PageArray where
  bottom := 0
  entries := Vector.replicate maxAllocations {}
  bitmap := Vector.replicate pageBitmapCapacity 0
  active := false

/-- The table of entries, as that of a heap. -/
def PageArray.table (a : PageArray) : AllocArray where
  bottom := a.bottom
  entries := a.entries
  bitmap := Vector.replicate kernelBitmapCapacity 0
  active := a.active

/-- `entries[i]`. -/
def PageArray.entry (a : PageArray) (i : Nat) : AllocEntry := a.entries[i]?.getD {}

/-- The index of the first entry that satisfies `p`. -/
def PageArray.firstEntry (a : PageArray) (p : AllocEntry → Bool) : Option Nat :=
  a.entries.toList.findIdx? p

/-- `ASSERT(page_allocator.active, ..)`. -/
def assertPagesActive (a : PageArray) : Except Stop Unit :=
  if a.active then .ok () else .error (.panic "allocator must be initialized first")

/-- Hands out a page. -/
def allocatePage (a : PageArray) : Except Stop (Nat × PageArray) := do
  assertPagesActive a
  let (allocation, bitmap) ← allocBitrange a.bitmap pageBitmapCapacity 1 false
  if allocation.length = 0 then
    .error (.panic "Insufficient space in memory for page allocation")
  else
    let basePtr := (a.bottom + allocation.start * pageSize % 2 ^ 32) % 2 ^ 32
    let newEntry : AllocEntry := ⟨basePtr, allocation, true⟩
    match a.firstEntry (fun e ↦ !e.utilized) with
    | some entry => .ok (newEntry.basePtr,
        { a with bitmap := bitmap, entries := a.entries.setIfInBounds entry newEntry })
    | none => .error (.panic "Maximum allocations reached")

/-- Gives back the page at `ptr`.  The search does not look at `utilized`. -/
def freePage (a : PageArray) (ptr : Nat) : Except Stop PageArray := do
  assertPagesActive a
  match a.firstEntry (fun e ↦ e.basePtr == ptr) with
  | some entry => do
      let e := a.entry entry
      let bitmap ← deallocBitrange a.bitmap e.range
      .ok { a with bitmap := bitmap,
                   entries := a.entries.setIfInBounds entry { e with utilized := false } }
  | none => .error (.panic "Couldn't free ptr")

/-- The first part of `initialize_allocator`: the kernel gets its pages and the first
entry. -/
def claimKernel (a : PageArray) : Except Stop PageArray := do
  let a := { a with bottom := 0, active := true }
  let (kernelRange, bitmap) ← allocBitrange a.bitmap pageBitmapCapacity kernelPages false
  if ¬ (kernelRange.length = kernelPages ∧ kernelRange.start = 0) then
    .error (.panic "Should be the same")
  else if (a.entry 0).utilized then .error (.panic "Shouldn't be currently utilized")
  else .ok { a with bitmap := bitmap,
                    entries := a.entries.setIfInBounds 0 ⟨a.bottom, kernelRange, true⟩ }

/-! ## The table of entries -/

/-- What `firstEntry` finds is the first entry that satisfies the test. -/
theorem PageArray.firstEntry_eq_some {a : PageArray} {p : AllocEntry → Bool} {i : Nat} :
    a.firstEntry p = some i ↔
      i < maxAllocations ∧ p (a.entry i) = true ∧ ∀ j < i, p (a.entry j) = false :=
  AllocArray.firstEntry_eq_some (a := a.table)

/-- Reading the table after one entry has been overwritten. -/
theorem PageArray.entry_setIfInBounds (a : PageArray) (bitmap : Vector Word pageBitmapCapacity)
    {i : Nat} (hi : i < maxAllocations) (e : AllocEntry) (j : Nat) :
    PageArray.entry { a with bitmap := bitmap, entries := a.entries.setIfInBounds i e } j =
      if i = j then e else a.entry j :=
  Heap.entry_setIfInBounds a.table (Vector.replicate kernelBitmapCapacity 0) hi e j

theorem PageArray.utilized_lt {a : PageArray} {i : Nat} (h : (a.entry i).utilized = true) :
    i < maxAllocations := by
  by_contra hi
  rw [PageArray.entry, Vector.getElem?_eq_none (Nat.le_of_not_lt hi)] at h
  cases h

@[simp] theorem zero_entry (i : Nat) : PageArray.zero.entry i = {} := by
  rw [PageArray.entry, PageArray.zero, Vector.getElem?_replicate]
  split
  · rfl
  · rfl

end Yorha.Page
