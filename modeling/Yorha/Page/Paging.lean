import Mathlib.Data.Nat.Bitwise
import Yorha.Page.Basic

/-!
# Paging

The page directory and the page tables of `paging.c`, in physical memory, and the two
functions that work on them.

The processor translates every address that the code uses (`translate`), also those by which
it reaches the tables: the last entry of the directory is the directory itself, so the tables
are pages like any other.  Large pages are not turned on.  The processor keeps translations
that it has made until `cr3` is loaded, but never that an entry was absent, and entries are
only ever made present here; so a translation is made from what the memory has.

The data of the allocator is kept apart from the memory.
-/

namespace Yorha.Page

open Yorha.Lib Yorha.Util Yorha.Heap

/-! ## The processor -/

/-- `PAGE_PRESENT`. -/
def pagePresent : Nat := 0x1

/-- `PAGE_WRITE`. -/
def pageWrite : Nat := 0x2

/-- `PAGE_USER`. -/
def pageUser : Nat := 0x4

/-- The bits of an entry that are the address of a frame. -/
def frameMask : Nat := 0xFFFFF000

/-- Physical memory, the register that has the address of the directory, and the data of the
page allocator. -/
structure Machine where
  mem : Bytes
  cr3 : Nat
  pages : PageArray

/-- The directory. -/
def Machine.dir (m : Machine) : Nat := m.cr3 &&& frameMask

/-- The word at a physical address. -/
def Machine.word (m : Machine) (addr : Nat) : Nat := (m.mem.drop addr).word

/-- The entry does not allow the access. -/
def denies (entry : Nat) (write : Bool) : Bool :=
  entry &&& pagePresent == 0 || (write && entry &&& pageWrite == 0)

/-- The physical address that the processor uses for an address. -/
def translate (m : Machine) (addr : Nat) (write : Bool) : Except Stop Nat :=
  let pde := m.word (m.dir + 4 * (addr >>> 22))
  if denies pde write then .error .fault
  else
    let pte := m.word ((pde &&& frameMask) + 4 * (addr >>> 12 &&& 0x3FF))
    if denies pte write then .error .fault
    else .ok ((pte &&& frameMask) + (addr &&& 0xFFF))

/-- Read a word. -/
def readWord (m : Machine) (addr : Nat) : Except Stop Nat := do
  let phys ← translate m addr false
  .ok (m.word phys)

/-- Write a word. -/
def writeWord (m : Machine) (addr word : Nat) : Except Stop Machine := do
  let phys ← translate m addr true
  .ok { m with mem := m.mem.splice phys (Bytes.ofWord word) }

/-- Write a byte. -/
def writeByte (m : Machine) (addr : Nat) (val : UInt8) : Except Stop Machine := do
  let phys ← translate m addr true
  .ok { m with mem := m.mem.splice phys [val] }

/-- `memset`, byte by byte. -/
def memset (m : Machine) (dst : Nat) (val : UInt8) : Nat → Except Stop Machine
  | 0 => .ok m
  | byte + 1 => do
      let m ← memset m dst val byte
      writeByte m (dst + byte) val

/-! ## The code -/

/-- `pd`: where the directory is found, by its own last entry. -/
def pageDirectory : Nat := 0xFFFFF000

/-- `pt`: where the table of a directory entry is found. -/
def pageTable (pdindex : Nat) : Nat := 0xFFC00000 + 4 * (0x400 * pdindex)

/-- `sizeof(page_table_t)`. -/
def pageTableBytes : Nat := 4096

/-- Takes a page for a table. -/
def createPageTable (m : Machine) : Except Stop (Nat × Machine) := do
  let (pageTable, pages) ← allocatePage m.pages
  .ok (pageTable, { m with pages := pages })

/-- Loads `cr3` with the last entry of the directory. -/
def loadCr3 (m : Machine) : Except Stop Machine := do
  let dir ← readWord m (pageDirectory + 4 * 0x3FF)
  .ok { m with cr3 := dir }

/-- The first part of `map_page`: the directory entry gets a table, if it has none.  The value
is whether it has one then. -/
def ensureTable (m : Machine) (pdindex flags : Nat) : Except Stop (Bool × Machine) := do
  let pde ← readWord m (pageDirectory + 4 * pdindex)
  if pde &&& pagePresent = 0 then do
    let (newTable, m) ← createPageTable m
    if newTable = 0 then .ok (false, m)
    else do
      let m ← writeWord m (pageDirectory + 4 * pdindex)
        ((newTable &&& frameMask) ||| flags ||| pagePresent)
      let m ← loadCr3 m
      -- the new table is cleared where the directory shows it
      let m ← memset m (pageTable pdindex) 0 pageTableBytes
      .ok (true, m)
  else .ok (true, m)

/-- Maps the page at `virtualaddr` to the frame at `physaddr`. -/
def mapPage (m : Machine) (physaddr virtualaddr flags : Nat) : Except Stop (Int × Machine) := do
  let pdindex := virtualaddr >>> 22
  let ptindex := virtualaddr >>> 12 &&& 0x3FF
  let (done, m) ← ensureTable m pdindex flags
  if done = false then .ok (-1, m)
  else do
    let pte ← readWord m (pageTable pdindex + 4 * ptindex)
    if pte &&& pagePresent ≠ 0 then .error (.panic "Page already exists")
    else do
      let m ← writeWord m (pageTable pdindex + 4 * ptindex)
        (physaddr ||| (flags &&& 0xFFF) ||| pagePresent)
      let m ← loadCr3 m
      .ok (0, m)

/-- The physical address of an address, as the code finds it in the tables. -/
def getPhysaddr (m : Machine) (virtualaddr : Nat) : Except Stop Nat := do
  let pdindex := virtualaddr >>> 22
  let ptindex := virtualaddr >>> 12 &&& 0x3FF
  let pde ← readWord m (pageDirectory + 4 * pdindex)
  if pde &&& pagePresent = 0 then .error (.panic "Page table not present")
  else do
    let pte ← readWord m (pageTable pdindex + 4 * ptindex)
    if pte &&& pagePresent = 0 then .error (.panic "Page not present")
    else .ok ((pte &&& frameMask) + (virtualaddr &&& 0xFFF))

/-! ## Entries -/

/-- Whether an entry is in use. -/
def IsPresent (entry : Nat) : Prop := entry &&& pagePresent ≠ 0

/-- Whether an entry allows writing. -/
def IsWritable (entry : Nat) : Prop := entry &&& pageWrite ≠ 0

/-- The frame that an entry leads to. -/
def frame (entry : Nat) : Nat := entry &&& frameMask

instance (entry : Nat) : Decidable (IsPresent entry) := inferInstanceAs (Decidable (_ ≠ _))

instance (entry : Nat) : Decidable (IsWritable entry) := inferInstanceAs (Decidable (_ ≠ _))

theorem frame_eq {entry : Nat} (h : entry < 2 ^ 32) : frame entry = 4096 * (entry / 4096) := by
  apply Nat.eq_of_testBit_eq
  intro i
  have hmask : frameMask = 2 ^ 12 * (2 ^ 20 - 1) := rfl
  have hpage : (4096 : Nat) = 2 ^ 12 := rfl
  rw [frame, hpage, Nat.testBit_and, hmask, Nat.testBit_two_pow_mul, Nat.testBit_two_pow_mul,
    Nat.testBit_two_pow_sub_one, Nat.testBit_div_two_pow]
  by_cases hi : 12 ≤ i
  · rw [decide_eq_true hi, Bool.true_and, Bool.true_and, Nat.sub_add_cancel hi]
    by_cases hj : i - 12 < 20
    · rw [decide_eq_true hj, Bool.and_true]
    · have hbit : entry.testBit i = false := by
        apply Nat.testBit_lt_two_pow
        exact lt_of_lt_of_le h (Nat.pow_le_pow_right (by decide) (by omega))
      rw [hbit, Bool.false_and]
  · rw [decide_eq_false hi, Bool.false_and, Bool.false_and, Bool.and_false]

/-- The low bits of an entry. -/
theorem and_low {k : Nat} (hk : k < 2 ^ 12) (entry : Nat) :
    entry &&& k = entry % 2 ^ 12 &&& k := by
  have h : entry &&& k < 2 ^ 12 := lt_of_le_of_lt Nat.and_le_right hk
  rw [← Nat.mod_eq_of_lt h, Nat.and_mod_two_pow, Nat.mod_eq_of_lt hk]

/-- An entry that was put together from a frame and flags. -/
theorem entry_eq {addr flags : Nat} (haddr : 4096 ∣ addr) (hflags : flags < 8) :
    addr ||| flags ||| pagePresent = addr + (flags ||| pagePresent) ∧
      flags ||| pagePresent < 8 := by
  have hlow : flags ||| pagePresent < 2 ^ 3 := Nat.or_lt_two_pow hflags (by decide)
  obtain ⟨k, rfl⟩ := haddr
  refine ⟨?_, hlow⟩
  rw [Nat.or_assoc]
  have hlt : flags ||| pagePresent < 2 ^ 12 := lt_trans hlow (by decide)
  exact (Nat.two_pow_add_eq_or_of_lt hlt k).symm

end Yorha.Page
