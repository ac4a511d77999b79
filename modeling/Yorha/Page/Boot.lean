import Yorha.Page.Loading

/-!
# From the bootloader to the heap

The first instructions of the kernel: `_start` fills a page table for the kernel's pages, enters it
in the directory, turns paging on, goes on in the upper half of the addresses and takes the lower
half away again.  Then `main` calls `initialize_allocator`, which maps a page for the heap with the
directory that is there now.

The loop that fills the table counts down `ecx`, which `_start` does not set.  So how far it comes
depends on what the bootloader left there: exactly the pages of `Layout.Maps` get an entry
(`bootStart_translate`), and the kernel gets to `main` if the directory is on one of them
(`bootStart_returns_iff`).
-/

namespace Yorha.Page

open Yorha.Lib Yorha.Util Yorha.Heap

/-! ## The code -/

/-- `_kernel_start`. -/
def kernelStart : Nat := 0x200000

/-- The addresses of the upper half. -/
def upperHalf : Nat := 0xC0000000

/-- Where the linker puts what `_start` uses, as physical addresses.  The sections are in the
order of `linker.ld`, and all of the kernel has an entry in `boot_page_table1`. -/
structure Layout where
  /-- The last instructions of `_start` in the lower half. -/
  lower : Nat
  /-- Its label `4`, in the upper half. -/
  upper : Nat
  /-- The instruction behind `call main`. -/
  behindCall : Nat
  stackTop : Nat
  /-- `boot_page_directory`; `boot_page_table1` is behind it. -/
  directory : Nat
  kernelEnd : Nat
  lower_mem : kernelStart ≤ lower ∧ lower < kernelStart + pageSize
  upper_mem : kernelStart ≤ upper ∧ upper < behindCall
  behindCall_lt : behindCall < stackTop - 4
  stack_dvd : 4 ∣ stackTop
  stack_le : stackTop ≤ directory
  directory_dvd : pageSize ∣ directory
  le_end : directory + 2 * pageSize ≤ kernelEnd
  end_le : kernelEnd ≤ 0x3FF000

/-- `boot_page_table1`. -/
def Layout.table1 (l : Layout) : Nat := l.directory + pageSize

/-- The registers of the loop, and memory. -/
structure BootLoop where
  esi : Word
  edi : Word
  ecx : Word
  mem : Bytes

/-- The code at `2`, up to the `loop`. -/
def BootLoop.next (b : BootLoop) : BootLoop :=
  { b with esi := b.esi + 4096, edi := b.edi + 4, ecx := b.ecx - 1 }

/-- The code at `1`, unless it leaves the loop. -/
def BootLoop.round (l : Layout) (b : BootLoop) : Option BootLoop :=
  if b.esi.slt (BitVec.ofNat 32 kernelStart) then some b.next
  else if b.esi.slt (BitVec.ofNat 32 l.kernelEnd) then
    let edx := b.esi ||| 3
    some { b with mem := b.mem.splice b.edi.toNat (Bytes.ofWord edx.toNat) }.next
  else none

/-- The loop. -/
def mapKernel (l : Layout) : Nat → BootLoop → Except Stop BootLoop
  | 0, _ => .error .hang
  | fuel + 1, b =>
      match b.round l with
      | none => .ok b
      | some b => if b.ecx = 0 then .ok b else mapKernel l fuel b

/-- The entries that are written behind the loop. -/
def Layout.enter (l : Layout) (mem : Bytes) : Bytes :=
  let mem := mem.splice (l.table1 + 4 * 1023) (Bytes.ofWord (0x000B8000 ||| 0x003))
  let mem := mem.splice (l.directory + 4 * 0) (Bytes.ofWord (l.table1 + 0x003))
  let mem := mem.splice (l.directory + 4 * 768) (Bytes.ofWord (l.table1 + 0x003))
  mem.splice (l.directory + 4 * 1023) (Bytes.ofWord (l.directory + 0x3))

/-- `_start`, up to the first instruction of `main`.  What is in `ecx`, the bootloader left
there. -/
def bootStart (l : Layout) (fuel : Nat) (ecx : Word) (m : Machine) : Except Stop Machine := do
  let b ← mapKernel l fuel
    { esi := 0, edi := BitVec.ofNat 32 l.table1, ecx := ecx, mem := m.mem }
  let m := { m with mem := l.enter b.mem, cr3 := l.directory }
  -- paging is on: the jump is read in the lower half, and what is behind it in the upper one
  let _ ← translate m l.lower false
  let _ ← translate m (upperHalf + l.upper) false
  let m ← writeWord m (upperHalf + l.directory) 0
  -- `call main`
  writeWord m (upperHalf + l.stackTop - 4) (upperHalf + l.behindCall)

/-! ## The loop -/

/-- The pages up to the end of the kernel. -/
def Layout.pages (l : Layout) : Nat := (l.kernelEnd + 4095) / 4096

/-- How often the loop comes around, or would, if it did not have to stop at the end. -/
def Layout.rounds (l : Layout) (ecx : Word) : Nat :=
  if ecx = 0 then l.pages else min l.pages ecx.toNat

/-- The pages that get an entry. -/
def Layout.Maps (l : Layout) (ecx : Word) (k : Nat) : Prop :=
  512 ≤ k ∧ 4096 * k < l.kernelEnd ∧ (ecx = 0 ∨ k < ecx.toNat)

instance (l : Layout) (ecx : Word) (k : Nat) : Decidable (l.Maps ecx k) :=
  inferInstanceAs (Decidable (_ ∧ _ ∧ (_ ∨ _)))

/-- The first `n` entries are filled, as far as they are the kernel's, and nothing else. -/
structure TableFilled (l : Layout) (mem mem' : Bytes) (n : Nat) : Prop where
  entry : ∀ k < n, 512 ≤ k → (mem'.drop (l.table1 + 4 * k)).word = 4096 * k + 3
  rest : ∀ a, ¬ (l.table1 + 4 * 512 ≤ a ∧ a < l.table1 + 4 * n) → mem' a = mem a

/-- The loop has come around `i` times. -/
structure LoopInv (l : Layout) (ecx : Word) (mem : Bytes) (i : Nat) (b : BootLoop) : Prop where
  esi : b.esi = BitVec.ofNat 32 (4096 * i)
  edi : b.edi = BitVec.ofNat 32 (l.table1 + 4 * i)
  ecx : b.ecx = ecx - BitVec.ofNat 32 i
  filled : TableFilled l mem b.mem i

section

variable {l : Layout} {ecx : Word} {mem mem' : Bytes} {i k n fuel : Nat} {b : BootLoop}

theorem Layout.bounds (l : Layout) : kernelStart < l.directory ∧ l.table1 < 0x3FF000 ∧
    l.pages ≤ 1023 ∧ 512 < l.pages := by
  have hupper := l.upper_mem
  have hbehind := l.behindCall_lt
  have hstack := l.stack_le
  have hle := l.le_end
  have hend := l.end_le
  rw [pageSize] at hle
  rw [kernelStart] at hupper
  rw [Layout.pages, Layout.table1, kernelStart, pageSize]
  omega

theorem maps_iff : l.Maps ecx k ↔ 512 ≤ k ∧ k < l.rounds ecx := by
  have hpages : 4096 * k < l.kernelEnd ↔ k < l.pages := by
    rw [Layout.pages]
    omega
  rw [Layout.Maps, Layout.rounds, hpages]
  by_cases hzero : ecx = 0
  · rw [if_pos hzero, and_iff_left (Or.inl hzero)]
  · rw [if_neg hzero, or_iff_right hzero, lt_min_iff]

/-- Addresses of the lower half are positive also as signed numbers. -/
theorem slt_ofNat {x y : Nat} (hx : x < 2 ^ 31) (hy : y < 2 ^ 31) :
    (BitVec.ofNat 32 x).slt (BitVec.ofNat 32 y) = decide (x < y) := by
  have hint : ∀ {z : Nat}, z < 2 ^ 31 → (BitVec.ofNat 32 z).toInt = z := by
    intro z hz
    rw [BitVec.toInt_eq_toNat_of_lt (by rw [BitVec.toNat_ofNat]; omega), BitVec.toNat_ofNat,
      Nat.mod_eq_of_lt (by omega)]
  rw [BitVec.slt, hint hx, hint hy]
  exact decide_eq_decide.mpr Int.ofNat_lt

theorem toNat_entry (hk : k < 1024) : (BitVec.ofNat 32 (4096 * k) ||| 3).toNat = 4096 * k + 3 := by
  have hthree : (3 : Word).toNat = 2 ||| pagePresent := rfl
  rw [BitVec.toNat_or, BitVec.toNat_ofNat, Nat.mod_eq_of_lt (by omega), hthree, ← Nat.or_assoc,
    (entry_eq ⟨k, rfl⟩ (by decide)).1]
  rfl

/-- A round for a page in front of the kernel. -/
theorem TableFilled.skip (h : TableFilled l mem mem' i) (hi : i < 512) :
    TableFilled l mem mem' (i + 1) where
  entry k hk hge := absurd hk (by omega)
  rest a ha := h.rest a (by omega)

/-- A round for one of the kernel's pages. -/
theorem TableFilled.store (h : TableFilled l mem mem' i) (hge : 512 ≤ i) (hi : i < 1024) :
    TableFilled l mem (mem'.splice (l.table1 + 4 * i) (Bytes.ofWord (4096 * i + 3))) (i + 1) where
  entry k hk hk512 := by
    rcases Nat.lt_succ_iff_lt_or_eq.mp hk with hlt | rfl
    · rw [← h.entry k hlt hk512]
      apply Bytes.word_congr
      intro c hc
      exact Bytes.splice_of_notMem (by rw [Bytes.length_ofWord]; omega)
    · exact Bytes.word_splice _ _ _ (by omega)
  rest a ha := by
    rw [Bytes.splice_of_notMem (by rw [Bytes.length_ofWord]; omega)]
    exact h.rest a (by omega)

/-- What is added to a register in a round. -/
theorem ofNat_next (base step i : Nat) : BitVec.ofNat 32 (base + step * i) + BitVec.ofNat 32 step =
    BitVec.ofNat 32 (base + step * (i + 1)) := by
  rw [Nat.mul_succ, ← Nat.add_assoc, BitVec.ofNat_add _ step]

/-- The registers after a round. -/
theorem LoopInv.next {b' : BootLoop} (h : LoopInv l ecx mem i b) (hesi : b'.esi = b.esi)
    (hedi : b'.edi = b.edi) (hecx : b'.ecx = b.ecx) (hfilled : TableFilled l mem b'.mem (i + 1)) :
    LoopInv l ecx mem (i + 1) b'.next where
  esi := by
    have hstep := ofNat_next 0 4096 i
    rw [Nat.zero_add, Nat.zero_add] at hstep
    rw [BootLoop.next, hesi, h.esi]
    exact hstep
  edi := by
    rw [BootLoop.next, hedi, h.edi]
    exact ofNat_next l.table1 4 i
  ecx := by
    rw [BootLoop.next, hecx, h.ecx, BitVec.ofNat_add]
    exact BitVec.sub_sub _ _ _
  filled := by
    rw [BootLoop.next]
    exact hfilled

/-- What a round does before the end of the kernel. -/
theorem LoopInv.round (h : LoopInv l ecx mem i b) (hi : i < l.pages) :
    ∃ b', b.round l = some b' ∧ LoopInv l ecx mem (i + 1) b' := by
  obtain ⟨-, htable, hpages, -⟩ := l.bounds
  have hend := l.end_le
  have hlt : 4096 * i < l.kernelEnd := by
    rw [Layout.pages] at hi
    omega
  have hedi : b.edi.toNat = l.table1 + 4 * i := by
    rw [h.edi, BitVec.toNat_ofNat, Nat.mod_eq_of_lt (by omega)]
  rw [BootLoop.round, h.esi, slt_ofNat (by omega) (by decide), slt_ofNat (by omega) (by omega),
    decide_eq_true hlt]
  by_cases hstart : 4096 * i < kernelStart
  · rw [decide_eq_true hstart, if_pos rfl]
    refine ⟨_, rfl, h.next rfl rfl rfl (h.filled.skip ?_)⟩
    rw [kernelStart] at hstart
    omega
  · have hedx := toNat_entry (k := i) (by omega)
    rw [decide_eq_false hstart, if_neg Bool.false_ne_true, if_pos rfl, hedi]
    simp only [hedx]
    refine ⟨_, rfl, h.next h.esi.symm rfl rfl (h.filled.store ?_ (by omega))⟩
    rw [kernelStart] at hstart
    omega

/-- At the end of the kernel the loop is left. -/
theorem LoopInv.round_eq_none (h : LoopInv l ecx mem i b) (hi : i = l.pages) :
    b.round l = none := by
  obtain ⟨-, htable, hpages, hpages'⟩ := l.bounds
  have hend := l.end_le
  have hge : ¬ 4096 * i < l.kernelEnd := by
    rw [hi, Layout.pages]
    omega
  have hstart : ¬ 4096 * i < kernelStart := by
    rw [kernelStart]
    omega
  rw [BootLoop.round, h.esi, slt_ofNat (by omega) (by decide), slt_ofNat (by omega) (by omega),
    decide_eq_false hge, decide_eq_false hstart]
  rfl

/-- **The loop**, by induction on the rounds that are left. -/
theorem LoopInv.mapKernel (h : LoopInv l ecx mem i b) (hn : i + n = l.rounds ecx)
    (hcount : i < l.pages → ecx = 0 ∨ i < ecx.toNat) :
    ∃ b', (∀ fuel > n, Page.mapKernel l fuel b = .ok b') ∧
      TableFilled l mem b'.mem (l.rounds ecx) := by
  have hle : l.rounds ecx ≤ l.pages := by
    rw [Layout.rounds]
    split
    · exact Nat.le_refl _
    · exact Nat.min_le_left _ _
  have hecx : ecx ≠ 0 → l.rounds ecx ≤ ecx.toNat := by
    intro hne
    rw [Layout.rounds, if_neg hne]
    exact Nat.min_le_right _ _
  induction n generalizing i b with
  | zero =>
      -- the count did not stop the loop before, so this is the end of the kernel
      have hi : i = l.pages := by
        refine Nat.le_antisymm ((Nat.add_zero i ▸ hn).le.trans hle) (Nat.le_of_not_lt fun hlt ↦ ?_)
        rw [Layout.rounds] at hn
        rcases hcount hlt with hzero | hmore
        · rw [if_pos hzero] at hn
          omega
        · split at hn
          · omega
          · omega
      have hfilled : TableFilled l mem b.mem (l.rounds ecx) := hn ▸ h.filled
      refine ⟨b, fun fuel hfuel ↦ ?_, hfilled⟩
      obtain ⟨fuel, rfl⟩ := Nat.exists_eq_succ_of_ne_zero (Nat.ne_of_gt hfuel)
      rw [Page.mapKernel, h.round_eq_none hi]
  | succ n ih =>
      obtain ⟨b', hround, h'⟩ := h.round (by omega)
      obtain ⟨-, -, hpages, -⟩ := l.bounds
      have hstop : b'.ecx = 0 ↔ ecx ≠ 0 ∧ i + 1 = ecx.toNat := by
        rw [h'.ecx]
        constructor
        · intro hzero
          have hsame : ecx.toNat = i + 1 := by bv_omega
          exact ⟨fun hne ↦ by bv_omega, hsame.symm⟩
        · rintro ⟨-, hsame⟩
          bv_omega
      have hstep : ∀ fuel, Page.mapKernel l (fuel + 1) b =
          if b'.ecx = 0 then .ok b' else Page.mapKernel l fuel b' := by
        intro fuel
        rw [Page.mapKernel, hround]
      by_cases hzero : b'.ecx = 0
      · obtain ⟨hne, hsame⟩ := hstop.mp hzero
        have hrounds : i + 1 = l.rounds ecx := by
          have hle' := hecx hne
          omega
        refine ⟨b', fun fuel hfuel ↦ ?_, hrounds ▸ h'.filled⟩
        obtain ⟨fuel, rfl⟩ := Nat.exists_eq_succ_of_ne_zero (Nat.ne_of_gt (Nat.zero_lt_of_lt hfuel))
        exact (hstep fuel).trans (if_pos hzero)
      · have hmore : i + 1 < l.pages → ecx = 0 ∨ i + 1 < ecx.toNat := by
          intro _
          by_cases hne : ecx = 0
          · exact .inl hne
          · right
            have hle' := hecx hne
            have hnot : i + 1 ≠ ecx.toNat := fun hsame ↦ hzero (hstop.mpr ⟨hne, hsame⟩)
            omega
        obtain ⟨b'', hrest, hfilled⟩ := ih h' (by omega) hmore
        refine ⟨b'', fun fuel hfuel ↦ ?_, hfilled⟩
        obtain ⟨fuel, rfl⟩ := Nat.exists_eq_succ_of_ne_zero (Nat.ne_of_gt (Nat.zero_lt_of_lt hfuel))
        exact ((hstep fuel).trans (if_neg hzero)).trans (hrest fuel (Nat.lt_of_succ_lt_succ hfuel))

/-! ## The tables -/

/-- The pages of `.boot_pages` are zero, as the bootloader has cleared them. -/
def Layout.Cleared (l : Layout) (mem : Bytes) : Prop :=
  ∀ a, l.directory ≤ a → a < l.directory + 2 * pageSize → mem a = 0

/-- The directory's entries; what its first one is, changes. -/
def Layout.pde (l : Layout) (first i : Nat) : Nat :=
  if i = 0 then first
  else if i = 768 then l.table1 + 3
  else if i = 1023 then l.directory + 3
  else 0

/-- The table's entries: the kernel's pages, and the picture of the screen. -/
def Layout.pte (l : Layout) (ecx : Word) (k : Nat) : Nat :=
  if k = 1023 then 0xB8003 else if l.Maps ecx k then 4096 * k + 3 else 0

/-- The directory and the table as `_start` leaves them. -/
structure BootTables (l : Layout) (ecx : Word) (first : Nat) (m : Machine) : Prop where
  cr3 : m.cr3 = l.directory
  pde : ∀ i < 1024, m.pde i = l.pde first i
  pte : ∀ k < 1024, m.word (l.table1 + 4 * k) = l.pte ecx k

theorem Layout.cleared_word (hzero : l.Cleared mem) {a : Nat} (hge : l.directory ≤ a)
    (hlt : a + 4 ≤ l.directory + 2 * pageSize) : (mem.drop a).word = 0 := by
  have hbyte : ∀ c < 4, (mem.drop a) c = 0 := fun c hc ↦ hzero _ (by omega) (by omega)
  rw [Bytes.word, hbyte 0 (by decide), hbyte 1 (by decide), hbyte 2 (by decide),
    hbyte 3 (by decide)]
  rfl

/-- A frame with the flags that `_start` gives it. -/
theorem entry_three {a : Nat} (ha : 4096 ∣ a) (hlt : a < 2 ^ 32) :
    IsPresent (a + 3) ∧ IsWritable (a + 3) ∧ frame (a + 3) = a := by
  obtain ⟨heq, -⟩ := entry_eq ha (by decide : 2 < 8)
  obtain ⟨-, hframe, hpresent, hwritable⟩ := entry_facts ha hlt (by decide : 2 < 8) (by decide)
  rw [heq] at hframe hpresent hwritable
  exact ⟨hpresent, hwritable, hframe⟩

theorem Layout.table1_dvd (l : Layout) : 4096 ∣ l.table1 :=
  (Nat.dvd_add_right l.directory_dvd).mpr (dvd_refl _)

theorem Layout.dir_eq (l : Layout) : l.directory &&& frameMask = l.directory := by
  have hdvd := l.directory_dvd
  have hbounds := l.bounds
  rw [pageSize] at hdvd
  rw [Layout.table1] at hbounds
  have hframe : frame l.directory = 4096 * (l.directory / 4096) := frame_eq (by omega)
  change frame l.directory = _
  omega

/-- What the entries are when paging is turned on. -/
theorem TableFilled.bootTables {m : Machine} (h : TableFilled l m.mem mem (l.rounds ecx))
    (hzero : l.Cleared m.mem) :
    BootTables l ecx (l.table1 + 3) { m with mem := l.enter mem, cr3 := l.directory } := by
  have hbounds := l.bounds
  have htable : l.table1 = l.directory + 4096 := rfl
  have hdvd := l.directory_dvd
  refine ⟨rfl, fun i hi ↦ ?_, fun k hk ↦ ?_⟩
  · -- the loop has not touched the directory
    have hword : (mem.drop (l.directory + 4 * i)).word = 0 := by
      rw [← Layout.cleared_word hzero (a := l.directory + 4 * i) (by omega)
        (by rw [pageSize]; omega)]
      exact Bytes.word_congr fun c hc ↦ h.rest _ (by omega)
    change ((l.enter mem).drop ((l.directory &&& frameMask) + 4 * i)).word = _
    rw [l.dir_eq, Layout.enter, Layout.pde]
    by_cases hlast : i = 1023
    · subst hlast
      rw [Bytes.word_splice _ _ _ (by omega), if_neg (by decide), if_neg (by decide), if_pos rfl]
    rw [Bytes.word_splice_ne (by omega)]
    by_cases hupper : i = 768
    · subst hupper
      rw [Bytes.word_splice _ _ _ (by omega), if_neg (by decide), if_pos rfl]
    rw [Bytes.word_splice_ne (by omega)]
    by_cases hfirst : i = 0
    · subst hfirst
      rw [Bytes.word_splice _ _ _ (by omega), if_pos rfl]
    rw [Bytes.word_splice_ne (by omega), Bytes.word_splice_ne (by omega), hword, if_neg hfirst,
      if_neg hupper, if_neg hlast]
  · change ((l.enter mem).drop (l.table1 + 4 * k)).word = _
    rw [Layout.enter, Layout.pte, Bytes.word_splice_ne (by omega),
      Bytes.word_splice_ne (by omega), Bytes.word_splice_ne (by omega)]
    by_cases hlast : k = 1023
    · subst hlast
      rw [Bytes.word_splice _ _ _ (by decide), if_pos rfl]
      rfl
    rw [Bytes.word_splice_ne (by omega), if_neg hlast]
    by_cases hmaps : l.Maps ecx k
    · rw [if_pos hmaps]
      obtain ⟨hge, hlt⟩ := maps_iff.mp hmaps
      exact h.entry k hlt hge
    · rw [if_neg hmaps, ← Layout.cleared_word hzero (a := l.table1 + 4 * k) (by omega)
        (by rw [pageSize]; omega)]
      refine Bytes.word_congr fun c hc ↦ h.rest _ fun hin ↦ hmaps (maps_iff.mpr ?_)
      omega

/-! ## Addresses -/

/-- Where an address in the 4 MiB of the table leads. -/
def Layout.window (l : Layout) (ecx : Word) (a : Nat) : Option Nat :=
  if 0x3FF000 ≤ a then some (0xB8000 + (a - 0x3FF000))
  else if l.Maps ecx (a / 4096) then some a
  else none

/-- Where the addresses of `main` lead: the kernel and the screen in the upper half, and the
tables at the end. -/
def Layout.space (l : Layout) (ecx : Word) (v : Nat) : Option Nat :=
  if upperHalf ≤ v ∧ v < upperHalf + 0x400000 then l.window ecx (v - upperHalf)
  else if v < 0xFFC00000 then none
  else if v / 4096 % 1024 = 768 then some (l.table1 + v % 4096)
  else if v / 4096 % 1024 = 1023 then some (l.directory + v % 4096)
  else none

section

variable {m : Machine} {first v : Nat}

theorem denies_zero (write : Bool) : denies 0 write = true := by
  rw [denies, Nat.zero_and]
  rfl

/-- The indices of an address. -/
theorem indices_eq (v : Nat) : v >>> 22 = v / 4096 / 1024 ∧ v >>> 12 &&& 0x3FF = v / 4096 % 1024 ∧
    v &&& 0xFFF = v % 4096 := by
  have hten : (0x3FF : Nat) = 2 ^ 10 - 1 := rfl
  have htwelve : (0xFFF : Nat) = 2 ^ 12 - 1 := rfl
  rw [hten, htwelve, Nat.and_two_pow_sub_one_eq_mod, Nat.and_two_pow_sub_one_eq_mod,
    Nat.shiftRight_eq_div_pow, Nat.shiftRight_eq_div_pow]
  omega

/-- The addresses that the directory leads to the table. -/
theorem BootTables.translate_window (h : BootTables l ecx first m) {a i : Nat} (hi : i < 1024)
    (hpde : l.pde first i = l.table1 + 3) (ha : a < 0x400000) (write : Bool) :
    (translate m (0x400000 * i + a) write).toOption = l.window ecx a := by
  obtain ⟨-, htable, -⟩ := l.bounds
  obtain ⟨h₁, h₂, h₃⟩ := indices_eq (0x400000 * i + a)
  have hi' : (0x400000 * i + a) / 4096 / 1024 = i := by omega
  have hk : (0x400000 * i + a) / 4096 % 1024 = a / 4096 := by omega
  have ho : (0x400000 * i + a) % 4096 = a % 4096 := by omega
  obtain ⟨hpresent, hwritable, hframe⟩ := entry_three l.table1_dvd (by omega : l.table1 < 2 ^ 32)
  have hpte : m.pte i (a / 4096) = l.pte ecx (a / 4096) := by
    rw [Machine.pte, h.pde i hi, hpde, hframe]
    exact h.pte _ (by omega)
  rw [translate_eq, h₁, h₂, h₃, hi', hk, ho, h.pde i hi, hpde,
    denies_eq_false hpresent hwritable, hpte, Layout.pte, Layout.window]
  by_cases hlast : 0x3FF000 ≤ a
  · have hdenies : denies 0xB8003 write = false := denies_eq_false (by decide) (by decide) write
    have hvga : frame 0xB8003 = 0xB8000 := by decide
    rw [if_pos (by omega : a / 4096 = 1023), if_pos hlast, hdenies, hvga]
    exact congrArg some (by omega)
  · rw [if_neg (by omega : ¬ a / 4096 = 1023), if_neg hlast]
    by_cases hmaps : l.Maps ecx (a / 4096)
    · obtain ⟨hp, hw, hf⟩ := entry_three ⟨a / 4096, rfl⟩ (by omega : 4096 * (a / 4096) < 2 ^ 32)
      rw [if_pos hmaps, if_pos hmaps, denies_eq_false hp hw, hf]
      exact congrArg some (by omega)
    · rw [if_neg hmaps, if_neg hmaps, denies_zero]
      rfl

/-- The addresses of the tables. -/
theorem BootTables.translate_tables (h : BootTables l ecx 0 m) {k o : Nat} (hk : k < 1024)
    (ho : o < 4096) (write : Bool) :
    (translate m (0xFFC00000 + 4096 * k + o) write).toOption =
      if k = 768 then some (l.table1 + o)
      else if k = 1023 then some (l.directory + o)
      else none := by
  have hbounds := l.bounds
  have htable : l.table1 = l.directory + 4096 := rfl
  obtain ⟨h₁, h₂, h₃⟩ := indices_eq (0xFFC00000 + 4096 * k + o)
  have hi' : (0xFFC00000 + 4096 * k + o) / 4096 / 1024 = 1023 := by omega
  have hk' : (0xFFC00000 + 4096 * k + o) / 4096 % 1024 = k := by omega
  have ho' : (0xFFC00000 + 4096 * k + o) % 4096 = o := by omega
  have hself : l.pde 0 1023 = l.directory + 3 := rfl
  obtain ⟨hpresent, hwritable, hframe⟩ :=
    entry_three l.directory_dvd (by omega : l.directory < 2 ^ 32)
  have hpte : m.pte 1023 k = l.pde 0 k := by
    rw [Machine.pte, h.pde 1023 (by decide), hself, hframe]
    have hdir : m.dir = l.directory := by
      rw [Machine.dir, h.cr3]
      exact l.dir_eq
    have hentry := h.pde k hk
    rw [Machine.pde, hdir] at hentry
    exact hentry
  rw [translate_eq, h₁, h₂, h₃, hi', hk', ho', h.pde 1023 (by decide), hself,
    denies_eq_false hpresent hwritable, hpte, Layout.pde]
  by_cases hupper : k = 768
  · obtain ⟨hp, hw, hf⟩ := entry_three l.table1_dvd (by omega : l.table1 < 2 ^ 32)
    rw [if_pos hupper, if_neg (by omega : ¬ k = 0), if_pos hupper, denies_eq_false hp hw, hf]
    rfl
  · rw [if_neg hupper, if_neg hupper]
    by_cases hlast : k = 1023
    · rw [if_pos hlast, if_neg (by omega : ¬ k = 0), if_pos hlast,
        denies_eq_false hpresent hwritable, hframe]
      rfl
    · rw [if_neg hlast, if_neg hlast, ite_self, denies_zero]
      rfl

/-- **The addresses of `main`.** -/
theorem BootTables.translate (h : BootTables l ecx 0 m) (hv : v < 2 ^ 32) (write : Bool) :
    (Page.translate m v write).toOption = l.space ecx v := by
  rw [Layout.space]
  by_cases hupper : upperHalf ≤ v ∧ v < upperHalf + 0x400000
  · rw [if_pos hupper]
    rw [upperHalf] at hupper ⊢
    have hsplit : v = 0x400000 * 768 + (v - 0xC0000000) := by omega
    have hwindow := h.translate_window (i := 768) (by decide) rfl
      (by omega : v - 0xC0000000 < 0x400000) write
    rw [← hsplit] at hwindow
    exact hwindow
  · rw [if_neg hupper]
    rw [upperHalf] at hupper
    by_cases htables : v < 0xFFC00000
    · -- no other entry of the directory is present
      obtain ⟨h₁, -, -⟩ := indices_eq v
      have hpde : m.pde (v >>> 22) = 0 := by
        rw [h₁, h.pde _ (by omega), Layout.pde]
        split
        · rfl
        · rw [if_neg (by omega), if_neg (by omega)]
      rw [if_pos htables, translate_eq, hpde, denies_zero]
      rfl
    · rw [if_neg htables]
      have hsplit : v = 0xFFC00000 + 4096 * (v / 4096 % 1024) + v % 4096 := by omega
      have hspace := h.translate_tables (Nat.mod_lt (v / 4096) (by decide : 1024 > 0))
        (Nat.mod_lt v (by decide : 4096 > 0)) write
      rw [← hsplit] at hspace
      exact hspace

end

/-! ## The way to `main` -/

section

variable {m m' : Machine} {first v : Nat} {write : Bool}

theorem BootTables.congr {first' : Nat} (h : BootTables l ecx first m) (hcr3 : m'.cr3 = m.cr3)
    (hpde : ∀ i < 1024, m'.word (l.directory + 4 * i) =
      if i = 0 then first' else m.word (l.directory + 4 * i))
    (hpte : ∀ k < 1024, m'.word (l.table1 + 4 * k) = m.word (l.table1 + 4 * k)) :
    BootTables l ecx first' m' := by
  have hdir : m.dir = l.directory := by
    rw [Machine.dir, h.cr3]
    exact l.dir_eq
  have hdir' : m'.dir = l.directory := by
    rw [Machine.dir, hcr3]
    exact hdir
  refine ⟨hcr3.trans h.cr3, fun i hi ↦ ?_, fun k hk ↦ (hpte k hk).trans (h.pte k hk)⟩
  have hentry := h.pde i hi
  rw [Machine.pde, hdir, Layout.pde] at hentry
  rw [Machine.pde, hdir', hpde i hi, Layout.pde]
  by_cases hfirst : i = 0
  · rw [if_pos hfirst, if_pos hfirst]
  · rw [if_neg hfirst] at hentry
    rw [if_neg hfirst, if_neg hfirst]
    exact hentry

/-- The lower half is taken away. -/
theorem BootTables.unmap (h : BootTables l ecx first m) : BootTables l ecx 0
    { m with mem := m.mem.splice l.directory (Bytes.ofWord 0) } := by
  have htable : l.table1 = l.directory + 4096 := rfl
  refine h.congr rfl (fun i hi ↦ ?_) fun k hk ↦ Bytes.word_splice_ne (by omega)
  by_cases hfirst : i = 0
  · subst hfirst
    rw [if_pos rfl]
    exact Bytes.word_splice _ _ _ (by decide)
  · rw [if_neg hfirst]
    exact Bytes.word_splice_ne (by omega)

/-- A word on the stack. -/
theorem BootTables.push (h : BootTables l ecx 0 m) (w : Nat) : BootTables l ecx 0
    { m with mem := m.mem.splice (l.stackTop - 4) (Bytes.ofWord w) } := by
  have htable : l.table1 = l.directory + 4096 := rfl
  have hstack := l.stack_le
  have hupper := l.upper_mem
  have hbehind := l.behindCall_lt
  have hdir : m.dir = l.directory := by
    rw [Machine.dir, h.cr3]
    exact l.dir_eq
  refine h.congr rfl (fun i hi ↦ ?_) fun k hk ↦ Bytes.word_splice_ne (by omega)
  have hsame : ((m.mem.splice (l.stackTop - 4) (Bytes.ofWord w)).drop (l.directory + 4 * i)).word =
      (m.mem.drop (l.directory + 4 * i)).word := Bytes.word_splice_ne (by omega)
  by_cases hfirst : i = 0
  · subst hfirst
    have hentry := h.pde 0 hi
    rw [Machine.pde, hdir] at hentry
    rw [if_pos rfl]
    exact hsame.trans hentry
  · rw [if_neg hfirst]
    exact hsame

/-- An access that finds no page faults. -/
theorem translate_of_none (h : (Page.translate m v write).toOption = none) :
    Page.translate m v write = .error .fault := by
  rw [translate_eq] at h ⊢
  split
  · rfl
  · rename_i hpde
    rw [if_neg hpde] at h
    split
    · rfl
    · rename_i hpte
      rw [if_neg hpte] at h
      cases h

/-- The pages up to one that has an entry have one. -/
theorem Layout.Maps.of_le (h : l.Maps ecx n) (hk : 512 ≤ k) (hkn : k ≤ n) : l.Maps ecx k := by
  obtain ⟨-, hend, hecx⟩ := h
  exact ⟨hk, by omega, hecx.imp_right fun h ↦ lt_of_le_of_lt hkn h⟩

/-- What is between the start of the kernel and its directory, is mapped if the directory is. -/
theorem Layout.window_eq (hmaps : l.Maps ecx (l.directory / 4096)) {a : Nat}
    (hge : kernelStart ≤ a) (hle : a < l.directory + 4096) : l.window ecx a = some a := by
  have hbounds := l.bounds
  have htable : l.table1 = l.directory + 4096 := rfl
  have hdvd := l.directory_dvd
  rw [pageSize] at hdvd
  rw [kernelStart] at hge
  rw [Layout.window, if_neg (by omega), if_pos (hmaps.of_le (by omega) (by omega))]

/-- The same, through an entry of the directory. -/
theorem BootTables.reach (h : BootTables l ecx first m) (hmaps : l.Maps ecx (l.directory / 4096))
    {a i : Nat} (hi : i < 1024) (hpde : l.pde first i = l.table1 + 3) (hge : kernelStart ≤ a)
    (hle : a < l.directory + 4096) (write : Bool) :
    Page.translate m (0x400000 * i + a) write = .ok a := by
  have hbounds := l.bounds
  have htable : l.table1 = l.directory + 4096 := rfl
  exact toOption_eq_some.mp ((h.translate_window hi hpde (by omega) write).trans
    (Layout.window_eq hmaps hge hle))

/-- Everything that does not hold a table or the word that `call main` pushes. -/
def Layout.Untouched (l : Layout) (a : Nat) : Prop :=
  ¬ (l.directory ≤ a ∧ a < l.directory + 2 * pageSize) ∧ ¬ (l.stackTop - 4 ≤ a ∧ a < l.stackTop)

/-- The loop stays below the entry of the screen. -/
theorem Layout.rounds_le (l : Layout) (ecx : Word) : l.rounds ecx ≤ 1023 := by
  obtain ⟨-, -, hpages, -⟩ := l.bounds
  rw [Layout.rounds]
  split
  · exact hpages
  · exact (Nat.min_le_left _ _).trans hpages

theorem TableFilled.enter_eq {mem' : Bytes} (h : TableFilled l mem mem' (l.rounds ecx)) {a : Nat}
    (ha : l.Untouched a) : l.enter mem' a = mem a := by
  have htable : l.table1 = l.directory + 4096 := rfl
  have hrounds := l.rounds_le ecx
  have hout := ha.1
  rw [pageSize] at hout
  rw [Layout.enter]
  repeat rw [Bytes.splice_of_notMem (by rw [Bytes.length_ofWord]; omega)]
  exact h.rest a (by omega)

/-- The loop, for the state that the bootloader leaves. -/
theorem mapKernel_start (l : Layout) (ecx : Word) (mem : Bytes) :
    ∃ b, (∀ fuel ≥ 1024, Page.mapKernel l fuel
        { esi := 0, edi := BitVec.ofNat 32 l.table1, ecx := ecx, mem := mem } = .ok b) ∧
      TableFilled l mem b.mem (l.rounds ecx) := by
  have hrounds := l.rounds_le ecx
  have hstart : LoopInv l ecx mem 0
      { esi := 0, edi := BitVec.ofNat 32 l.table1, ecx := ecx, mem := mem } :=
    ⟨rfl, rfl, (BitVec.sub_zero ecx).symm, ⟨fun k hk ↦ absurd hk (Nat.not_lt_zero k),
      fun _ _ ↦ rfl⟩⟩
  have hcount : 0 < l.pages → ecx = 0 ∨ 0 < ecx.toNat := by
    intro _
    by_cases hzero : ecx = 0
    · exact .inl hzero
    · right
      bv_omega
  obtain ⟨b, hloop, hfilled⟩ := hstart.mapKernel (Nat.zero_add _) hcount
  exact ⟨b, fun fuel hfuel ↦ hloop fuel (by omega), hfilled⟩

/-- **`_start` gets to `main`** if the directory has its entry, with the addresses of
`Layout.space`. -/
theorem bootStart_ok (hzero : l.Cleared m.mem) (hmaps : l.Maps ecx (l.directory / 4096)) :
    ∃ m', Returns (fun fuel ↦ bootStart l fuel ecx m) m' ∧ BootTables l ecx 0 m' ∧
      m'.pages = m.pages ∧ ∀ a, l.Untouched a → m'.mem a = m.mem a := by
  obtain ⟨b, hloop, hfilled⟩ := mapKernel_start l ecx m.mem
  have htables := hfilled.bootTables (m := m) hzero
  have hlowerMem := l.lower_mem
  have hupperMem := l.upper_mem
  have hbehind := l.behindCall_lt
  have hstack := l.stack_le
  have hbounds := l.bounds
  have hdvd := l.directory_dvd
  rw [pageSize] at hlowerMem hdvd
  rw [kernelStart] at hlowerMem hupperMem hbounds
  -- the fetches, and the two stores
  have hlower := htables.reach hmaps (i := 0) (by decide) rfl hlowerMem.1
    (by omega) false
  have hupper := htables.reach hmaps (i := 768) (by decide) rfl hupperMem.1 (by omega) false
  have hdir := htables.reach hmaps (i := 768) (by decide) rfl (Nat.le_of_lt hbounds.1)
    (Nat.lt_add_of_pos_right (by decide)) true
  have hcall := htables.unmap.reach hmaps (i := 768) (by decide) rfl
    (a := l.stackTop - 4) (by rw [kernelStart]; omega) (by omega) true
  have hpush := htables.unmap.push (upperHalf + l.behindCall)
  have hhigh : ∀ a, upperHalf + a = 0x400000 * 768 + a := fun _ ↦ rfl
  have hstackHigh : 0x400000 * 768 + l.stackTop - 4 = 0x400000 * 768 + (l.stackTop - 4) := by
    omega
  rw [Nat.mul_zero, Nat.zero_add] at hlower
  refine ⟨_, ⟨1024, fun fuel hfuel ↦ ?_⟩, hpush, rfl, fun a ha ↦ ?_⟩
  · change bootStart l fuel ecx m = _
    rw [bootStart, hloop fuel hfuel, ok_bind]
    simp only [hlower, ok_bind, hhigh, hupper, writeWord, hdir, hstackHigh]
    exact congrArg (· >>= _) hcall
  · change ((l.enter b.mem).splice l.directory (Bytes.ofWord 0)).splice (l.stackTop - 4) _ a = _
    have hout := ha.1
    have hout' := ha.2
    rw [pageSize] at hout
    rw [Bytes.splice_of_notMem (by rw [Bytes.length_ofWord]; omega),
      Bytes.splice_of_notMem (by rw [Bytes.length_ofWord]; omega)]
    exact hfilled.enter_eq ha

/-- It does not, if the directory has none. -/
theorem bootStart_faults (hzero : l.Cleared m.mem) (hmaps : ¬ l.Maps ecx (l.directory / 4096))
    {fuel : Nat} (hfuel : 1024 ≤ fuel) : bootStart l fuel ecx m = .error .fault := by
  obtain ⟨b, hloop, hfilled⟩ := mapKernel_start l ecx m.mem
  have htables := hfilled.bootTables (m := m) hzero
  have hbounds := l.bounds
  have htable : l.table1 = l.directory + 4096 := rfl
  have hdir : Page.translate { m with mem := l.enter b.mem, cr3 := l.directory }
      (upperHalf + l.directory) true = .error .fault := by
    refine translate_of_none ((htables.translate_window (i := 768) (by decide) rfl
      (by omega) true).trans ?_)
    rw [Layout.window, if_neg (by omega), if_neg hmaps]
  have hcases : ∀ (m : Machine) v write, (∃ p, Page.translate m v write = .ok p) ∨
      Page.translate m v write = .error .fault := by
    intro m v write
    cases hv : (Page.translate m v write).toOption with
    | none => exact .inr (translate_of_none hv)
    | some p => exact .inl ⟨p, toOption_eq_some.mp hv⟩
  rw [bootStart, hloop fuel hfuel, ok_bind]
  have hfetch := hcases { m with mem := l.enter b.mem, cr3 := l.directory }
  rcases hfetch l.lower false with ⟨p, hlower⟩ | hlower
  · rcases hfetch (upperHalf + l.upper) false with ⟨p', hupper⟩ | hupper
    · simp only [hlower, ok_bind, hupper, writeWord, hdir, error_bind]
    · simp only [hlower, ok_bind, hupper, error_bind]
  · simp only [hlower, error_bind]

end

/-! ## The heap's page -/

section

variable {m m' : Machine} {a a' : PageArray} {live : List Nat} {p : Nat}

/-- **The first free page** is handed out: those before it are live. -/
theorem PageInv.allocatePage_first (h : PageInv a live)
    (hok : Page.allocatePage a = .ok (p, a')) {k : Nat} (hge : kernelPages ≤ k)
    (hlt : k * pageSize < p) : k * pageSize ∈ live := by
  simp only [Page.allocatePage, bind_eq_ok, Prod.exists] at hok
  obtain ⟨⟨⟩, -, range, bitmap, halloc, hok⟩ := hok
  have haddr := h.address_lt halloc
  rcases h.allocBitrange_ok halloc with rfl | ⟨start, window, rfl, hfit, -⟩
  · rw [if_pos rfl] at hok
    cases hok
  rw [if_neg Nat.one_ne_zero, h.bottom, Nat.zero_add, Nat.mod_mod, Nat.mod_eq_of_lt haddr] at hok
  have hp : p = start * pageSize := by
    split at hok
    · exact (congrArg Prod.fst (Except.ok.inj hok)).symm
    · cases hok
  have hks : k < start := by
    rw [hp] at hlt
    exact Nat.lt_of_mul_lt_mul_right hlt
  -- the scan did not stop at page `k`
  have hset : WordArray.bit a.bitmap k = true := by
    by_contra hclear
    refine hfit.least k hks Bool.noConfusion fun j h₁ h₂ ↦ ?_
    obtain rfl : j = k := Nat.le_antisymm (Nat.le_of_lt_succ h₂) h₁
    exact Bool.not_eq_true _ ▸ hclear
  rcases (h.bits k).mp hset with hkernel | ⟨i, hi, rfl⟩
  · exact absurd hkernel (Nat.not_lt.mpr hge)
  · exact (h.mem_live _).mpr ⟨i, hi, h.base hi⟩

/-- The tables of `_start` satisfy what `map_page` relies on. -/
theorem BootTables.selfMapped (h : BootTables l ecx 0 m) : SelfMapped m := by
  have hbounds := l.bounds
  have htable : l.table1 = l.directory + 4096 := rfl
  obtain ⟨hp₁, hw₁, hf₁⟩ := entry_three l.table1_dvd (by omega : l.table1 < 2 ^ 32)
  obtain ⟨hp₂, hw₂, hf₂⟩ := entry_three l.directory_dvd (by omega : l.directory < 2 ^ 32)
  have hdir : m.dir = l.directory := by
    rw [Machine.dir, h.cr3]
    exact l.dir_eq
  have hlast : m.pde 1023 = l.directory + 3 := h.pde 1023 (by decide)
  -- two entries are present
  have hentry : ∀ i < 1024, IsPresent (m.pde i) →
      i = 768 ∧ m.pde i = l.table1 + 3 ∨ i = 1023 := by
    intro i hi hp
    rw [h.pde i hi, Layout.pde] at hp ⊢
    by_cases hupper : i = 768
    · subst hupper
      exact .inl ⟨rfl, rfl⟩
    · by_cases hself : i = 1023
      · exact .inr hself
      · rw [if_neg hupper, if_neg hself, ite_self] at hp
        exact absurd rfl hp
  refine ⟨?_, hlast ▸ hp₂, ?_, fun {i} hi hp ↦ ?_, fun {i} hi hp ↦ ?_,
    fun {i j} hi hj hpi hpj _ ↦ ?_⟩
  · rw [h.cr3]
    omega
  · rw [hlast, hf₂, hdir]
  · rcases hentry i hi hp with ⟨-, heq⟩ | rfl
    · exact heq ▸ hw₁
    · exact hlast ▸ hw₂
  · rcases hentry i (by omega) hp with ⟨-, heq⟩ | rfl
    · rw [heq, hf₁, hdir]
      omega
    · omega
  · rcases hentry i (by omega) hpi with ⟨rfl, -⟩ | rfl
    · rcases hentry j (by omega) hpj with ⟨rfl, -⟩ | rfl
      · rfl
      · omega
    · omega

/-- The next page of an allocator whose live pages are the first `n`. -/
theorem PageInv.allocatePage_next (h : PageInv a live) {n : Nat} (hn : n < 2)
    (hlive : ∀ q, q ∈ live ↔ ∃ k < n, q = (kernelPages + k) * pageSize) :
    ∃ a', Page.allocatePage a = .ok ((kernelPages + n) * pageSize, a') ∧
      PageInv a' ((kernelPages + n) * pageSize :: live) := by
  obtain ⟨slot, hslot, hfree⟩ := h.exists_free (p := kernelPages * pageSize) fun q hq ↦ by
    obtain ⟨k, hk, rfl⟩ := (hlive q).mp hq
    obtain rfl : k = 0 := by omega
    rfl
  obtain ⟨p, a', hok⟩ := h.allocatePage_returns hslot hfree
  have hinv := h.allocatePage hok
  obtain ⟨⟨k, rfl⟩, hge, -⟩ := hinv.isPoolPage List.mem_cons_self
  have hfirst := fun {j} ↦ h.allocatePage_first (k := j) hok
  have hnew : pageSize * k ∉ live := (List.nodup_cons.mp hinv.nodup).1
  -- not in front of the first free page, and not behind it
  have hk : k = kernelPages + n := by
    rw [pageSize, kernelPages] at *
    by_contra hne
    rcases Nat.lt_or_gt_of_ne hne with hlt | hgt
    · exact hnew ((hlive _).mpr ⟨k - 1024, by omega, by omega⟩)
    · obtain ⟨j, hj, heq⟩ := (hlive _).mp (hfirst (j := 1024 + n) (by omega) (by omega))
      omega
  have hp : pageSize * k = (kernelPages + n) * pageSize := by rw [hk, Nat.mul_comm]
  rw [hp] at hok hinv
  exact ⟨a', hok, hinv⟩

/-- **`initialize_allocator` in `main`.**  It returns, and maps the page behind the kernel's for
the heap; the other addresses stay. -/
theorem BootTables.initializeAllocator (h : BootTables l ecx 0 m) (hpages : m.pages = .zero)
    (kernel : AllocArray) : ∃ m', Page.initializeAllocator kernel m =
        .ok ({ kernel with bottom := 0x400000, active := true }, m') ∧
      (∀ o < 4096, ∀ write, Page.translate m' (0x400000 + o) write = .ok (0x400000 + o)) ∧
      ∀ v, v >>> 22 < 1023 → v / 4096 ≠ 0x400 → ∀ write,
        (Page.translate m' v write).toOption = l.space ecx v := by
  obtain ⟨a₀, hclaim⟩ := claimKernel_returns
  obtain ⟨a₁, hheap, hinv₁⟩ := (claimKernel_inv hclaim).allocatePage_next (n := 0) (by decide)
    fun q ↦ ⟨fun hq ↦ absurd hq List.not_mem_nil, fun ⟨k, hk, _⟩ ↦ absurd hk (Nat.not_lt_zero k)⟩
  obtain ⟨a₂, htable, -⟩ := hinv₁.allocatePage_next (n := 1) (by decide) fun q ↦ by
    rw [List.mem_singleton]
    constructor
    · rintro rfl
      exact ⟨0, Nat.one_pos, rfl⟩
    · rintro ⟨k, hk, rfl⟩
      obtain rfl : k = 0 := by omega
      rfl
  have hbounds := l.bounds
  have htable1 : l.table1 = l.directory + 4096 := rfl
  have h₁ : BootTables l ecx 0 { m with pages := a₁ } := ⟨h.cr3, h.pde, h.pte⟩
  have hm := h₁.selfMapped
  have hv : (0x400000 : Nat) >>> 22 = 1 := by decide
  have hpde : Machine.pde { m with pages := a₁ } (0x400000 >>> 22) = 0 := h₁.pde 1 (by decide)
  have hframe : ¬ IsPresent (Machine.pde { m with pages := a₁ } (0x400000 >>> 22)) →
      ∃ addr pages, Page.allocatePage a₁ = .ok (addr, pages) ∧
        Unused { m with pages := a₁ } addr := by
    have hdir : Machine.dir { m with pages := a₁ } = l.directory := by
      rw [Machine.dir, h₁.cr3]
      exact l.dir_eq
    refine fun _ ↦ ⟨_, a₂, htable, by decide, by decide, by decide, ?_, fun {i} hi hp ↦ ?_⟩
    · rw [hdir, kernelPages, pageSize]
      omega
    · rw [h₁.pde i (by omega), Layout.pde] at hp ⊢
      by_cases hupper : i = 768
      · subst hupper
        obtain ⟨-, -, hf⟩ := entry_three l.table1_dvd (by omega : l.table1 < 2 ^ 32)
        rw [if_neg (by decide), if_pos rfl, hf, kernelPages, pageSize]
        omega
      · rw [if_neg hupper, if_neg (by omega : ¬ i = 1023), ite_self] at hp
        exact absurd rfl hp
  have hnew : ¬ ∃ phys, getPhysaddr { m with pages := a₁ } 0x400000 = .ok phys := by
    rintro ⟨phys, hphys⟩
    have hfound := hm.getPhysaddr (v := 0x400000) (by decide)
    rw [hphys, Machine.lookup, hpde, if_neg fun h ↦ h.1 rfl] at hfound
    cases hfound
  obtain ⟨m', hmap, hheapPage, hother⟩ := mapPage_maps hm (by decide : 4096 ∣ 0x400000)
    (by decide) (by decide : 4096 ∣ 0x400000) (by decide) hnew (by decide : 6 < 8) (by decide)
    hframe
  refine ⟨m', ?_, fun o ho ↦ (hheapPage o ho).2, fun v hv hne write ↦ ?_⟩
  · have hclaim' : claimKernel m.pages = .ok a₀ := hpages ▸ hclaim
    have haddr : (kernelPages + 0) * pageSize = 0x400000 := rfl
    rw [haddr] at hheap
    simp only [Page.initializeAllocator, hclaim', ok_bind, hheap]
    exact congrArg (· >>= _) hmap
  · rw [((hother v hv hne).2 write)]
    refine h₁.translate ?_ write
    rw [Nat.shiftRight_eq_div_pow] at hv
    omega

end

/-! ## Every boot -/

/-- The directory has its entry if the count comes as far. -/
theorem maps_directory : l.Maps ecx (l.directory / 4096) ↔
    ecx = 0 ∨ l.directory / 4096 < ecx.toNat := by
  have hbounds := l.bounds
  have hle := l.le_end
  rw [kernelStart] at hbounds
  rw [pageSize] at hle
  exact ⟨fun h ↦ h.2.2, fun h ↦ ⟨by omega, by omega, h⟩⟩

/-- All of the kernel has its place in the upper half. -/
def Layout.Complete (l : Layout) (ecx : Word) : Prop :=
  ∀ a, kernelStart ≤ a → a < l.kernelEnd → l.space ecx (upperHalf + a) = some a

theorem complete_iff : l.Complete ecx ↔ ecx = 0 ∨ l.pages ≤ ecx.toNat := by
  have hend := l.end_le
  obtain ⟨hstart, -, -, hpages⟩ := l.bounds
  have hle := l.le_end
  have hspace : ∀ {a}, a < l.kernelEnd →
      l.space ecx (upperHalf + a) = if l.Maps ecx (a / 4096) then some a else none := by
    intro a ha
    rw [Layout.space, if_pos ⟨Nat.le_add_right _ _, by omega⟩, Nat.add_sub_cancel_left,
      Layout.window, if_neg (by omega)]
  constructor
  · intro h
    have hlast := h (l.kernelEnd - 1) (by omega) (by omega)
    rw [hspace (by omega)] at hlast
    split at hlast
    · rename_i hmaps
      refine hmaps.2.2.imp_right fun hlt ↦ ?_
      rw [Layout.pages]
      omega
    · cases hlast
  · intro h a hge hlt
    rw [kernelStart] at hge
    have hecx : ecx = 0 ∨ a / 4096 < ecx.toNat := h.imp_right fun hall ↦ by
      rw [Layout.pages] at hall
      omega
    rw [hspace hlt, if_pos ⟨by omega, by omega, hecx⟩]

end

/-- **`_start`, for every count that the bootloader left in `ecx`.**  For every layout of the
kernel below 4 MiB and every memory with cleared tables: it gets to `main` exactly if the count is
zero or reaches the directory.  Then all addresses lead where `Layout.space` says, which is all of
the kernel, in the upper half only, exactly if the count is zero or reaches its end. -/
theorem bootStart_translate (l : Layout) (ecx : Word) {m : Machine} (hzero : l.Cleared m.mem) :
    ((∃ m', Returns (fun fuel ↦ bootStart l fuel ecx m) m') ↔
      ecx = 0 ∨ l.directory / 4096 < ecx.toNat) ∧
    (∀ m', Returns (fun fuel ↦ bootStart l fuel ecx m) m' → ∀ v < 2 ^ 32, ∀ write,
      (translate m' v write).toOption = l.space ecx v) ∧
    (l.Complete ecx ↔ ecx = 0 ∨ l.pages ≤ ecx.toNat) := by
  have hstops : ∀ {m'}, Returns (fun fuel ↦ bootStart l fuel ecx m) m' →
      l.Maps ecx (l.directory / 4096) := by
    rintro m' ⟨n, hret⟩
    by_contra hmaps
    have hfault := bootStart_faults hzero hmaps (Nat.le_max_right n 1024)
    exact ok_ne_error ((hret _ (Nat.le_max_left n 1024)).symm.trans hfault)
  refine ⟨⟨fun ⟨m', hret⟩ ↦ maps_directory.mp (hstops hret), fun hecx ↦ ?_⟩,
    fun m' hret v hv write ↦ ?_, complete_iff⟩
  · obtain ⟨m', hret, -⟩ := bootStart_ok hzero (maps_directory.mpr hecx)
    exact ⟨m', hret⟩
  · obtain ⟨m'', hret', htables, -⟩ := bootStart_ok hzero (hstops hret)
    obtain rfl := hret.unique hret'
    exact htables.translate hv write

/-- **From the bootloader to the heap.**  Where the count reaches the directory, and the boot tables
and those of the pages are cleared, `_start` gets to `main` and changes nothing but the boot tables
and the word that its call pushes.  There `initialize_allocator` returns: the heap's page is the
first one behind the kernel's, mapped to itself, and all addresses outside it lead where they led
before. -/
theorem boot_heap (l : Layout) {ecx : Word} {m : Machine} (hzero : l.Cleared m.mem)
    (hpages : m.pages = .zero) (hecx : ecx = 0 ∨ l.directory / 4096 < ecx.toNat)
    (kernel : AllocArray) : ∃ m₁ m₂, Returns (fun fuel ↦ bootStart l fuel ecx m) m₁ ∧
      (∀ a, l.Untouched a → m₁.mem a = m.mem a) ∧
      initializeAllocator kernel m₁ =
        .ok ({ kernel with bottom := 0x400000, active := true }, m₂) ∧
      (∀ o < 4096, ∀ write, translate m₂ (0x400000 + o) write = .ok (0x400000 + o)) ∧
      ∀ v, v >>> 22 < 1023 → v / 4096 ≠ 0x400 → ∀ write,
        (translate m₂ v write).toOption = l.space ecx v := by
  obtain ⟨m₁, hret, htables, hkept, hmem⟩ := bootStart_ok hzero (maps_directory.mpr hecx)
  obtain ⟨m₂, hok, hheap, hother⟩ := htables.initializeAllocator (hkept.trans hpages) kernel
  exact ⟨m₁, m₂, hret, hmem, hok, hheap, hother⟩

/-- A kernel of 80 KiB. -/
def smallKernel : Layout where
  lower := 0x200060
  upper := 0x201000
  behindCall := 0x20101A
  stackTop := 0x20C000
  directory := 0x212000
  kernelEnd := 0x214000
  lower_mem := by decide
  upper_mem := by decide
  behindCall_lt := by decide
  stack_dvd := by decide
  stack_le := by decide
  directory_dvd := by decide
  le_end := by decide
  end_le := by decide

/-- Memory of zeros. -/
def zeroMachine : Machine := ⟨fun _ ↦ 0, 0, .zero⟩

/-- A count that reaches the directory, and not the table behind it. -/
theorem bootStart_translate_smallKernel :
    ((∃ m', Returns (fun fuel ↦ bootStart smallKernel fuel 0x213 zeroMachine) m') ↔
      (0x213 : Word) = 0 ∨ smallKernel.directory / 4096 < (0x213 : Word).toNat) ∧
    (∀ m', Returns (fun fuel ↦ bootStart smallKernel fuel 0x213 zeroMachine) m' →
      ∀ v < 2 ^ 32, ∀ write, (translate m' v write).toOption = smallKernel.space 0x213 v) ∧
    (smallKernel.Complete 0x213 ↔
      (0x213 : Word) = 0 ∨ smallKernel.pages ≤ (0x213 : Word).toNat) :=
  bootStart_translate smallKernel 0x213 (m := zeroMachine) fun _ _ _ ↦ rfl

theorem boot_heap_smallKernel : ∃ m₁ m₂,
    Returns (fun fuel ↦ bootStart smallKernel fuel 0 zeroMachine) m₁ ∧
      (∀ a, smallKernel.Untouched a → m₁.mem a = zeroMachine.mem a) ∧
      initializeAllocator (AllocArray.initial 0) m₁ =
        .ok ({ AllocArray.initial 0 with bottom := 0x400000, active := true }, m₂) ∧
      (∀ o < 4096, ∀ write, translate m₂ (0x400000 + o) write = .ok (0x400000 + o)) ∧
      ∀ v, v >>> 22 < 1023 → v / 4096 ≠ 0x400 → ∀ write,
        (translate m₂ v write).toOption = smallKernel.space 0 v :=
  boot_heap smallKernel (m := zeroMachine) (fun _ _ _ ↦ rfl) rfl (.inl rfl) (AllocArray.initial 0)

end Yorha.Page
