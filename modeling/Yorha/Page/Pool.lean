import Mathlib.Order.Interval.Finset.Nat
import Mathlib.Data.Finset.Card
import Yorha.Lib.Slots
import Yorha.Page.Mapping
import Yorha.Util.Bounds

/-!
# The pages that are handed out

`PageInv` ties the tables of the page allocator to the pages that were handed out and not
given back, and holds in every state that a run reaches from what `initialize_allocator`
leaves (`pagesInOrder_of_reaches`).

Nothing in the code bounds the address of a page, and the scan covers 2^21 pages, more than
32 bits have addresses for.  The bound comes from the table: the scan takes the first page
that is free, so all pages between the kernel's and that one are in use, and each has an entry
(`PageInv.start_le`).

As with the heap, the search of `free_page` may see entries that are no longer in use.  No
entry before a live one has its page, because all entries before it were in use, by other
pages, when it was written.
-/

namespace Yorha.Page

open Yorha.Lib Yorha.Util Yorha.Heap

/-! ## The code -/

/-- `initialize_allocator`: the kernel gets its pages, and the heap a page that is mapped. -/
def initializeAllocator (kernel : AllocArray) (m : Machine) :
    Except Stop (AllocArray × Machine) := do
  let pages ← claimKernel m.pages
  let (heap, pages) ← allocatePage pages
  let (result, m) ← mapPage { m with pages := pages } heap heap (pageWrite ||| pageUser)
  if result = -1 then .error (.panic "Couldn't allocate heap")
  else .ok ({ kernel with bottom := heap, active := true }, m)

/-! ## Calls with their history -/

/-- The pages in use, but for the kernel's. -/
def PageArray.livePages (a : PageArray) : List Nat :=
  ((List.range maxAllocations).filter fun i ↦ decide (0 < i) && (a.entry i).utilized).map
    fun i ↦ (a.entry i).basePtr

/-- The allocator, and the pages handed out and not given back. -/
structure PageState where
  pages : PageArray
  live : List Nat

/-- The state before the first call. -/
def PageState.start (a : PageArray) : PageState := ⟨a, a.livePages⟩

/-- A call of the allocator's interface. -/
inductive PageCall where
  | allocatePage
  | freePage (ptr : Nat)

/-- Make a call.  The value is the page returned, 0 for `free_page`. -/
def PageCall.exec (s : PageState) : PageCall → Except Stop (Nat × PageState)
  | .allocatePage => do
      let (p, pages) ← Page.allocatePage s.pages
      .ok (p, ⟨pages, p :: s.live⟩)
  | .freePage ptr => do
      let pages ← Page.freePage s.pages ptr
      .ok (0, ⟨pages, s.live.erase ptr⟩)

/-- Only live pages are given back. -/
def PageCall.Proper (s : PageState) : PageCall → Prop
  | .allocatePage => True
  | .freePage ptr => ptr ∈ s.live

/-! ## The invariant -/

/-- The entry of a page in use. -/
def PageArray.Used (a : PageArray) (i : Nat) : Prop := 0 < i ∧ (a.entry i).utilized = true

/-- The tables agree with the live pages. -/
structure PageInv (a : PageArray) (live : List Nat) : Prop where
  active : a.active = true
  bottom : a.bottom = 0
  kernel : a.entry 0 = ⟨0, ⟨0, kernelPages⟩, true⟩
  base : ∀ {i}, a.Used i → (a.entry i).basePtr = (a.entry i).range.start * pageSize
  length : ∀ {i}, a.Used i → (a.entry i).range.length = 1
  inside : ∀ {i}, a.Used i → kernelPages ≤ (a.entry i).range.start ∧
    (a.entry i).range.start < kernelPages + maxAllocations
  inj : ∀ {i j}, a.Used i → a.Used j →
    (a.entry i).range.start = (a.entry j).range.start → i = j
  bits : ∀ k, WordArray.bit a.bitmap k = true ↔
    k < kernelPages ∨ ∃ i, a.Used i ∧ (a.entry i).range.start = k
  first : ∀ {i j}, a.Used i → j < i → (a.entry j).basePtr ≠ (a.entry i).basePtr
  mem_live : ∀ p, p ∈ live ↔ ∃ i, a.Used i ∧ (a.entry i).basePtr = p
  nodup : live.Nodup

/-- `a'` is `a` with page `start` handed out in entry `slot`. -/
structure Taken (a a' : PageArray) (slot start : Nat) : Prop where
  pos : 0 < slot
  slot_lt : slot < maxAllocations
  free : (a.entry slot).utilized = false
  before : ∀ j < slot, (a.entry j).utilized = true
  clear : WordArray.bit a.bitmap start = false
  ge : kernelPages ≤ start
  lt : start < kernelPages + maxAllocations - 1
  bits : WordArray.Filled a.bitmap a'.bitmap start 1 true
  entry : ∀ j, a'.entry j =
    if slot = j then ⟨start * pageSize, ⟨start, 1⟩, true⟩ else a.entry j
  bottom : a'.bottom = a.bottom
  active : a'.active = a.active

/-- `a'` is `a` with the page of entry `slot` given back. -/
structure GivenBack (a a' : PageArray) (slot : Nat) : Prop where
  bits : WordArray.Filled a.bitmap a'.bitmap (a.entry slot).range.start 1 false
  entry : ∀ j, a'.entry j =
    if slot = j then { a.entry slot with utilized := false } else a.entry j
  bottom : a'.bottom = a.bottom
  active : a'.active = a.active

section

variable {a a' : PageArray} {live : List Nat} {slot start window p i : Nat}

/-- The table as slots, but for the kernel's. -/
abbrev PageArray.slots (a : PageArray) : Slots AllocEntry := ⟨a.entry, a.Used⟩

theorem PageArray.Used.lt (h : a.Used i) : i < maxAllocations := PageArray.utilized_lt h.2

theorem PageInv.leads (h : PageInv a live) : a.slots.Leads AllocEntry.basePtr :=
  fun _ _ ↦ h.first

/-- Each page belongs to one entry. -/
theorem PageInv.atMostOne (h : PageInv a live) (k : Nat) :
    a.slots.AtMostOne (·.range.start = k) :=
  fun _ _ hi hj hki hkj ↦ h.inj hi hj (hki.trans hkj.symm)

/-! ## Where the first free page is -/

/-- A free page is not the kernel's. -/
theorem PageInv.start_ge (h : PageInv a live) (hclear : WordArray.bit a.bitmap start = false) :
    kernelPages ≤ start := by
  by_contra hlt
  rw [(h.bits start).mpr (.inl (Nat.lt_of_not_le hlt))] at hclear
  cases hclear

/-- **The bound**: if all entries in use are among these, the first free page is at most that
many behind the kernel's. -/
theorem PageInv.start_le (h : PageInv a live) (hfit : FirstFit a.bitmap window 1 false start)
    {slots : Finset Nat} (hslots : ∀ {i}, a.Used i → i ∈ slots) :
    start ≤ kernelPages + slots.card := by
  -- all pages before it are in use, each by an entry
  have hsub : Finset.Ico kernelPages start ⊆ slots.image fun i ↦ (a.entry i).range.start := by
    intro k hk
    obtain ⟨hge, hlt⟩ := Finset.mem_Ico.mp hk
    have hset : WordArray.bit a.bitmap k = true := by
      by_contra hclear
      refine hfit.least k hlt Bool.noConfusion fun j h₁ h₂ ↦ ?_
      obtain rfl : j = k := Nat.le_antisymm (Nat.le_of_lt_succ h₂) h₁
      exact Bool.not_eq_true _ ▸ hclear
    rcases (h.bits k).mp hset with hkernel | ⟨i, hi, hik⟩
    · exact absurd hkernel (Nat.not_lt.mpr hge)
    · exact Finset.mem_image.mpr ⟨i, hslots hi, hik⟩
  have hcard := (Finset.card_le_card hsub).trans Finset.card_image_le
  rw [Nat.card_Ico] at hcard
  omega

/-- All entries but the kernel's. -/
def pageSlots : Finset Nat := (Finset.range maxAllocations).erase 0

theorem mem_pageSlots (h : a.Used i) : i ∈ pageSlots :=
  Finset.mem_erase.mpr ⟨h.1.ne', Finset.mem_range.mpr h.lt⟩

theorem card_pageSlots : pageSlots.card = maxAllocations - 1 := by
  rw [pageSlots, Finset.card_erase_of_mem (Finset.mem_range.mpr (by decide)), Finset.card_range]

/-- The address of a page that the scan finds fits in 32 bits. -/
theorem PageInv.start_lt (h : PageInv a live)
    (hfit : FirstFit a.bitmap window 1 false start) : start < kernelPages + maxAllocations := by
  have hle := h.start_le hfit mem_pageSlots
  rw [card_pageSlots] at hle
  exact lt_of_le_of_lt hle (by decide)

/-! ## What a call does -/

/-- What the scan finds. -/
theorem PageInv.allocBitrange_ok (h : PageInv a live) {range : BitRange}
    {bitmap : Vector Word pageBitmapCapacity}
    (hok : allocBitrange a.bitmap pageBitmapCapacity 1 false = .ok (range, bitmap)) :
    range = ⟨0, 0⟩ ∨ ∃ start window, range = ⟨start, 1⟩ ∧
      FirstFit a.bitmap window 1 false start ∧ WordArray.Filled a.bitmap bitmap start 1 true := by
  rcases allocBitrange_cases a.bitmap pageBitmapCapacity false Nat.one_pos with
    ⟨⟨start, length⟩, hfit, hlen, he⟩ | ⟨-, -, he⟩ | ⟨-, -, he⟩
  · obtain rfl : length = 1 := hlen
    rw [he, bind_eq_ok] at hok
    obtain ⟨bitmap', happly, hr⟩ := hok
    cases hr
    have hlt : start < kernelPages + maxAllocations := h.start_lt hfit
    have hstop : (start + 1) / 32 < 65535 := by
      rw [kernelPages, maxAllocations] at hlt
      omega
    exact .inr ⟨start, _, rfl, hfit, (Util.applyBitrange_ok happly Nat.one_pos hstop).2⟩
  · rw [he] at hok
    cases hok
    exact .inl rfl
  · rw [he] at hok
    cases hok

/-- **No overflow**: the address of what the scan finds is computed exactly. -/
theorem PageInv.address_lt (h : PageInv a live) {range : BitRange}
    {bitmap : Vector Word pageBitmapCapacity}
    (hok : allocBitrange a.bitmap pageBitmapCapacity 1 false = .ok (range, bitmap)) :
    range.start * pageSize < 2 ^ 32 := by
  rcases h.allocBitrange_ok hok with rfl | ⟨start, window, rfl, hfit, -⟩
  · decide
  · have hlt := h.start_lt hfit
    rw [kernelPages, maxAllocations] at hlt
    change start * 4096 < 2 ^ 32
    omega

/-- Every returning `allocate_page` handed out a page. -/
theorem PageInv.allocatePage_ok (h : PageInv a live) (hok : allocatePage a = .ok (p, a')) :
    ∃ slot start, Taken a a' slot start ∧ p = start * pageSize := by
  simp only [allocatePage, bind_eq_ok, Prod.exists] at hok
  obtain ⟨⟨⟩, -, range, bitmap, halloc, hok⟩ := hok
  have haddr := h.address_lt halloc
  rcases h.allocBitrange_ok halloc with rfl | ⟨start, window, rfl, hfit, hbits⟩
  · rw [if_pos rfl] at hok
    cases hok
  rw [if_neg Nat.one_ne_zero, h.bottom, Nat.zero_add, Nat.mod_mod, Nat.mod_eq_of_lt haddr] at hok
  cases hslot : a.firstEntry (fun e ↦ !e.utilized) with
  | none =>
      rw [hslot] at hok
      cases hok
  | some slot =>
      rw [hslot] at hok
      cases hok
      obtain ⟨hlt, hfree, hbefore⟩ := PageArray.firstEntry_eq_some.mp hslot
      have hfree' : (a.entry slot).utilized = false := (Bool.not_eq_true' _).mp hfree
      have hpos : 0 < slot := by
        rw [Nat.pos_iff_ne_zero]
        rintro rfl
        rw [h.kernel] at hfree'
        cases hfree'
      have hclear := hfit.clear start (Nat.le_refl _) (Nat.lt_succ_self _)
      -- the entry that is free does not count
      have hslots : ∀ {i}, a.Used i → i ∈ pageSlots.erase slot := by
        intro i hi
        refine Finset.mem_erase.mpr ⟨?_, mem_pageSlots hi⟩
        rintro rfl
        rw [hi.2] at hfree'
        cases hfree'
      have hle := h.start_le hfit hslots
      have hmem : slot ∈ pageSlots := Finset.mem_erase.mpr ⟨hpos.ne', Finset.mem_range.mpr hlt⟩
      rw [Finset.card_erase_of_mem hmem, card_pageSlots] at hle
      refine ⟨slot, start, ⟨hpos, hlt, hfree', fun j hj ↦ ?_, hclear, h.start_ge hclear, ?_, hbits,
        PageArray.entry_setIfInBounds a bitmap hlt _, h.bottom.symm, rfl⟩, rfl⟩
      · exact (Bool.not_eq_false' _).mp (hbefore j hj)
      · rw [kernelPages, maxAllocations] at hle ⊢
        omega

/-- `free_page` of a live page gives back that page. -/
theorem PageInv.freePage_eq_ok (h : PageInv a live) (hp : p ∈ live) : ∃ a' slot,
    freePage a p = .ok a' ∧ GivenBack a a' slot ∧ a.Used slot ∧ (a.entry slot).basePtr = p := by
  obtain ⟨slot, hslot, rfl⟩ := (h.mem_live p).mp hp
  have hlength := h.length hslot
  obtain ⟨-, hlt⟩ := h.inside hslot
  have hstop : ((a.entry slot).range.start + (a.entry slot).range.length) / 32 < 65535 := by
    rw [hlength]
    rw [kernelPages, maxAllocations] at hlt
    omega
  have hsize : ((a.entry slot).range.start + (a.entry slot).range.length) / 32 <
      WordArray.size (Vector Word pageBitmapCapacity) := by
    rw [size_vector]
    exact lt_trans hstop (by decide)
  obtain ⟨bitmap, hb, hbits⟩ := applyBitrange_spec a.bitmap (a.entry slot).range false
    (hlength ▸ Nat.one_pos) hstop hsize
  rw [hlength] at hbits
  have hfirst : a.firstEntry (fun e ↦ e.basePtr == (a.entry slot).basePtr) = some slot := by
    rw [PageArray.firstEntry_eq_some]
    refine ⟨hslot.lt, beq_self_eq_true _, fun j hj ↦ ?_⟩
    exact beq_eq_false_iff_ne.mpr (h.first hslot hj)
  have hfree : freePage a (a.entry slot).basePtr = .ok { a with
      bitmap := bitmap,
      entries := a.entries.setIfInBounds slot { a.entry slot with utilized := false } } := by
    rw [freePage, assertPagesActive, if_pos h.active, ok_bind, hfirst]
    simp only [deallocBitrange, hb, ok_bind]
  exact ⟨_, slot, hfree, ⟨hbits, PageArray.entry_setIfInBounds a bitmap hslot.lt _, rfl, rfl⟩,
    hslot, rfl⟩

/-! ## Handing out -/

theorem Taken.put (ht : Taken a a' slot start) :
    a.slots.Put a'.slots slot ⟨start * pageSize, ⟨start, 1⟩, true⟩ where
  free := fun hused ↦ Bool.eq_false_iff.mp ht.free hused.2
  entry_self := by
    change a'.entry slot = _
    rw [ht.entry, if_pos rfl]
  entry_of_ne := by
    intro i hi
    change a'.entry i = a.entry i
    rw [ht.entry, if_neg hi]
  used_iff := by
    intro i
    change a'.Used i ↔ slot = i ∨ a.Used i
    rw [PageArray.Used, PageArray.Used, ht.entry]
    by_cases h : slot = i
    · rw [if_pos h]
      exact ⟨fun _ ↦ .inl h, fun _ ↦ ⟨h ▸ ht.pos, rfl⟩⟩
    · rw [if_neg h]
      exact (or_iff_right h).symm

/-- A new page is none of those in use. -/
theorem Taken.start_ne (h : PageInv a live) (ht : Taken a a' slot start) {i : Nat}
    (hi : a.Used i) : (a.entry i).range.start ≠ start := by
  rintro rfl
  have hset := (h.bits _).mpr (.inr ⟨i, hi, rfl⟩)
  rw [ht.clear] at hset
  cases hset

theorem Taken.base_ne (h : PageInv a live) (ht : Taken a a' slot start) {i : Nat}
    (hi : a.Used i) : (a.entry i).basePtr ≠ start * pageSize := by
  rw [h.base hi]
  exact fun heq ↦ ht.start_ne h hi (Nat.eq_of_mul_eq_mul_right (by decide) heq)

/-- **Handing out a page keeps the invariant.** -/
theorem PageInv.taken (h : PageInv a live) (ht : Taken a a' slot start) :
    PageInv a' (start * pageSize :: live) where
  active := ht.active.trans h.active
  bottom := ht.bottom.trans h.bottom
  kernel := (ht.put.entry_of_ne ht.pos.ne').trans h.kernel
  base := ht.put.forall_used (P := fun e ↦ e.basePtr = e.range.start * pageSize) rfl h.base
  length := ht.put.forall_used (P := fun e ↦ e.range.length = 1) rfl h.length
  inside := ht.put.forall_used (P := fun e ↦ kernelPages ≤ e.range.start ∧
    e.range.start < kernelPages + maxAllocations) ⟨ht.ge, Nat.lt_of_lt_pred ht.lt⟩ h.inside
  inj := by
    intro i j hi hj heq
    refine ht.put.atMostOne (h.atMostOne _) (fun hnew i hi ↦ ?_) i j hi hj heq rfl
    exact hnew ▸ ht.start_ne h hi
  bits := by
    intro k
    refine Iff.trans ?_ (or_congr_right (ht.put.exists_used (·.range.start = k)).symm)
    by_cases hk : k = start
    · subst hk
      rw [ht.bits.eq_of_mem (Nat.le_refl _) (Nat.lt_succ_self _)]
      exact ⟨fun _ ↦ .inr (.inl rfl), fun _ ↦ rfl⟩
    · rw [ht.bits.eq_of_notMem (by omega), h.bits k]
      exact or_congr_right (or_iff_right fun heq ↦ hk heq.symm).symm
  first := by
    intro i j
    refine ht.put.leads h.leads (fun j hj ↦ ?_) (ht.base_ne h) i j
    -- the entries before the new one are all in use, by other pages
    rcases Nat.eq_zero_or_pos j with rfl | hpos
    · change (a.entry 0).basePtr ≠ start * pageSize
      rw [h.kernel]
      exact (Nat.mul_pos (lt_of_lt_of_le (by decide) ht.ge) (by decide)).ne
    · exact ht.base_ne h ⟨hpos, ht.before j hj⟩
  mem_live := by
    intro p
    rw [List.mem_cons, h.mem_live p]
    refine Iff.trans ?_ (ht.put.exists_used (·.basePtr = p)).symm
    exact or_congr_left eq_comm
  nodup := by
    refine List.nodup_cons.mpr ⟨fun hmem ↦ ?_, h.nodup⟩
    obtain ⟨i, hi, heq⟩ := (h.mem_live _).mp hmem
    exact ht.base_ne h hi heq

/-! ## Giving back -/

theorem GivenBack.dropped (hg : GivenBack a a' slot) : a.slots.Dropped a'.slots slot where
  entry_of_ne := by
    intro i hi
    change a'.entry i = a.entry i
    rw [hg.entry, if_neg hi]
  used_iff := by
    intro i
    change a'.Used i ↔ slot ≠ i ∧ a.Used i
    rw [PageArray.Used, PageArray.Used, hg.entry]
    by_cases h : slot = i
    · rw [if_pos h]
      exact ⟨fun hused ↦ Bool.noConfusion hused.2, fun hused ↦ absurd h hused.1⟩
    · rw [if_neg h]
      exact ⟨fun hused ↦ ⟨h, hused⟩, And.right⟩

theorem GivenBack.basePtr_slot (hg : GivenBack a a' slot) :
    (a'.entry slot).basePtr = (a.entry slot).basePtr := by
  rw [hg.entry, if_pos rfl]

/-- **Giving back a page keeps the invariant.** -/
theorem PageInv.givenBack (h : PageInv a live) (hg : GivenBack a a' slot) (hslot : a.Used slot) :
    PageInv a' (live.erase (a.entry slot).basePtr) where
  active := hg.active.trans h.active
  bottom := hg.bottom.trans h.bottom
  kernel := (hg.dropped.entry_of_ne hslot.1.ne').trans h.kernel
  base := hg.dropped.forall_used (P := fun e ↦ e.basePtr = e.range.start * pageSize) h.base
  length := hg.dropped.forall_used (P := fun e ↦ e.range.length = 1) h.length
  inside := hg.dropped.forall_used (P := fun e ↦ kernelPages ≤ e.range.start ∧
    e.range.start < kernelPages + maxAllocations) h.inside
  inj := by
    intro i j hi hj heq
    exact hg.dropped.atMostOne (h.atMostOne _) i j hi hj heq rfl
  bits := by
    intro k
    by_cases hk : (a.entry slot).range.start = k
    · subst hk
      rw [hg.bits.eq_of_mem (Nat.le_refl _) (Nat.lt_succ_self _)]
      refine iff_of_false Bool.false_ne_true (not_or.mpr ⟨?_, ?_⟩)
      · exact Nat.not_lt.mpr (h.inside hslot).1
      · exact hg.dropped.not_exists_used (h.atMostOne _) hslot rfl
    · rw [hg.bits.eq_of_notMem (by omega), h.bits k]
      exact or_congr_right (hg.dropped.exists_used_of_not (·.range.start = k) hk).symm
  first := by
    intro i j
    exact hg.dropped.leads h.leads hg.basePtr_slot i j
  mem_live := by
    intro p
    rw [h.nodup.mem_erase_iff, h.mem_live p]
    by_cases hp : (a.entry slot).basePtr = p
    · subst hp
      refine iff_of_false (fun hne ↦ hne.1 rfl) fun hex ↦ ?_
      obtain ⟨i, hne, hi, hbase⟩ := (hg.dropped.exists_used
        (·.basePtr = (a.entry slot).basePtr)).mp hex
      exact hne (h.leads.inj hslot hi hbase.symm)
    · refine (and_iff_right fun heq ↦ hp heq.symm).trans ?_
      exact (hg.dropped.exists_used_of_not (·.basePtr = p) hp).symm
  nodup := h.nodup.erase _

/-! ## Runs -/

/-- A returning `allocate_page` keeps the invariant. -/
theorem PageInv.allocatePage (h : PageInv a live) (hok : Page.allocatePage a = .ok (p, a')) :
    PageInv a' (p :: live) := by
  obtain ⟨slot, start, ht, rfl⟩ := h.allocatePage_ok hok
  exact h.taken ht

/-- **Step.** -/
theorem PageInv.step {s s' : PageState} {c : PageCall} {v : Nat} (h : PageInv s.pages s.live)
    (hc : PageCall.Proper s c) (hstep : PageCall.exec s c = .ok (v, s')) :
    PageInv s'.pages s'.live := by
  cases c with
  | allocatePage =>
      simp only [PageCall.exec, bind_eq_ok] at hstep
      obtain ⟨⟨p, a'⟩, hok, hs⟩ := hstep
      cases hs
      exact h.allocatePage hok
  | freePage ptr =>
      simp only [PageCall.exec, bind_eq_ok] at hstep
      obtain ⟨a', hok, hs⟩ := hstep
      cases hs
      obtain ⟨a'', slot, hok', hg, hslot, rfl⟩ := h.freePage_eq_ok hc
      rw [hok] at hok'
      cases hok'
      exact h.givenBack hg hslot

/-- The invariant holds of what the table says is live. -/
theorem PageInv.livePages (h : PageInv a live) : PageInv a a.livePages :=
  { h with
    mem_live := by
      intro p
      rw [PageArray.livePages, List.mem_map]
      refine exists_congr fun i ↦ and_congr_left fun _ ↦ ?_
      rw [List.mem_filter, List.mem_range, Bool.and_eq_true, decide_eq_true_eq]
      exact ⟨And.right, fun hi ↦ ⟨PageArray.Used.lt hi, hi⟩⟩
    nodup := by
      refine List.Nodup.map_on ?_ (List.nodup_range.filter _)
      intro i hi j hj heq
      rw [List.mem_filter, Bool.and_eq_true, decide_eq_true_eq] at hi hj
      exact h.leads.inj hi.2 hj.2 heq }

/-! ## The start -/

/-- Tables with the kernel's entry and bits, and no others. -/
theorem PageInv.of_kernel (hactive : a.active = true) (hbottom : a.bottom = 0)
    (hentry : ∀ j, a.entry j = if 0 = j then ⟨0, ⟨0, kernelPages⟩, true⟩ else {})
    (hbits : WordArray.Filled PageArray.zero.bitmap a.bitmap 0 kernelPages true) :
    PageInv a [] := by
  have hunused : ∀ {i}, ¬ a.Used i := by
    rintro i ⟨hpos, hused⟩
    rw [hentry, if_neg hpos.ne] at hused
    cases hused
  exact {
    active := hactive
    bottom := hbottom
    kernel := by rw [hentry, if_pos rfl]
    base := fun hi ↦ absurd hi hunused
    length := fun hi ↦ absurd hi hunused
    inside := fun hi ↦ absurd hi hunused
    inj := fun hi ↦ absurd hi hunused
    bits := by
      intro k
      by_cases hk : k < kernelPages
      · rw [hbits.eq_of_mem (Nat.zero_le k) (by omega)]
        exact ⟨fun _ ↦ .inl hk, fun _ ↦ rfl⟩
      · have hclear : WordArray.bit PageArray.zero.bitmap k = false := bit_replicate_zero _ k
        rw [hbits.eq_of_notMem (by omega), hclear]
        refine ⟨Bool.noConfusion, ?_⟩
        rintro (hlt | ⟨i, hi, -⟩)
        · exact absurd hlt hk
        · exact absurd hi hunused
    first := fun hi ↦ absurd hi hunused
    mem_live := fun p ↦ ⟨fun hp ↦ absurd hp List.not_mem_nil, fun ⟨_, hi, _⟩ ↦ absurd hi hunused⟩
    nodup := List.nodup_nil }

/-- After the first part of `initialize_allocator` no page is handed out. -/
theorem claimKernel_inv (hok : claimKernel .zero = .ok a) : PageInv a [] := by
  simp only [claimKernel, bind_eq_ok, Prod.exists] at hok
  obtain ⟨range, bitmap, halloc, hok⟩ := hok
  split at hok
  · cases hok
  rename_i hrange
  rw [not_not] at hrange
  obtain ⟨start, length⟩ := range
  obtain ⟨rfl, rfl⟩ : length = kernelPages ∧ start = 0 := hrange
  split at hok
  · cases hok
  cases hok
  have hlen : 0 < (⟨0, kernelPages⟩ : BitRange).length := by decide
  have happly := (allocBitrange_range halloc hlen).2
  refine PageInv.of_kernel rfl rfl (fun j ↦ ?_) (Util.applyBitrange_ok happly hlen (by decide)).2
  refine (PageArray.entry_setIfInBounds { PageArray.zero with bottom := 0, active := true } bitmap
    (by decide) ⟨0, ⟨0, kernelPages⟩, true⟩ j).trans ?_
  split
  · rfl
  · exact zero_entry j

section

variable {m m' : Machine}

theorem memset_pages {dst count : Nat} {val : UInt8} (h : memset m dst val count = .ok m') :
    m'.pages = m.pages := by
  induction count generalizing m' with
  | zero =>
      cases h
      rfl
  | succ count ih =>
      simp only [memset, writeByte, bind_eq_ok] at h
      obtain ⟨m₁, h₁, phys, -, h⟩ := h
      cases h
      have hpages : m₁.pages = m.pages := ih h₁
      exact hpages

/-- A table is at most one page. -/
theorem ensureTable_pages {pdindex flags : Nat} {done : Bool}
    (h : ensureTable m pdindex flags = .ok (done, m')) :
    m'.pages = m.pages ∨ ∃ p, allocatePage m.pages = .ok (p, m'.pages) := by
  simp only [ensureTable, createPageTable, bind_eq_ok] at h
  obtain ⟨pde, -, h⟩ := h
  split at h
  · simp only [bind_eq_ok, Prod.exists] at h
    obtain ⟨newTable, m₁, ⟨p, pages, halloc, hp⟩, h⟩ := h
    cases hp
    refine .inr ⟨newTable, halloc.trans ?_⟩
    split at h
    · cases h
      rfl
    · simp only [bind_eq_ok] at h
      obtain ⟨m₂, hw, m₃, hl, m₄, hs, h⟩ := h
      cases h
      rw [memset_pages hs, loadCr3_pages hl, writeWord_pages hw]
  · cases h
    exact .inl rfl

/-- What `map_page` does to the allocator: it takes at most one page. -/
theorem mapPage_pages {physaddr virtualaddr flags : Nat} {r : Int}
    (h : mapPage m physaddr virtualaddr flags = .ok (r, m')) :
    m'.pages = m.pages ∨ ∃ p, allocatePage m.pages = .ok (p, m'.pages) := by
  simp only [mapPage, bind_eq_ok, Prod.exists] at h
  obtain ⟨done, m₁, he, h⟩ := h
  split at h
  · cases h
    exact ensureTable_pages he
  · simp only [bind_eq_ok] at h
    obtain ⟨pte, -, h⟩ := h
    split at h
    · cases h
    · simp only [bind_eq_ok] at h
      obtain ⟨m₂, hw, m₃, hl, h⟩ := h
      cases h
      rw [loadCr3_pages hl, writeWord_pages hw]
      exact ensureTable_pages he

end

/-- What `initialize_allocator` hands out: a page for the heap, and one for a table if there is
none. -/
theorem initializeAllocator_live {kernel kernel' : AllocArray} {m m' : Machine}
    (hm : m.pages = .zero) (hok : initializeAllocator kernel m = .ok (kernel', m')) :
    ∃ live, PageInv m'.pages live ∧ live.length ≤ 2 := by
  simp only [initializeAllocator, bind_eq_ok, Prod.exists] at hok
  obtain ⟨pages, hclaim, heap, pages₁, halloc, r, m₁, hmap, hok⟩ := hok
  split at hok
  · cases hok
  cases hok
  rw [hm] at hclaim
  have hinv := (claimKernel_inv hclaim).allocatePage halloc
  rcases mapPage_pages hmap with heq | ⟨p, halloc'⟩
  · rw [heq]
    exact ⟨_, hinv, Nat.le_succ 1⟩
  · exact ⟨_, hinv.allocatePage halloc', le_rfl⟩

/-- **The start of every run**: what `initialize_allocator` leaves is in order. -/
theorem initializeAllocator_inv {kernel kernel' : AllocArray} {m m' : Machine}
    (hm : m.pages = .zero) (hok : initializeAllocator kernel m = .ok (kernel', m')) :
    PageInv m'.pages m'.pages.livePages :=
  let ⟨_, hinv, _⟩ := initializeAllocator_live hm hok
  hinv.livePages

end

/-! ## Calls that return -/

/-- The kernel gets its pages. -/
theorem claimKernel_returns : ∃ a, claimKernel .zero = .ok a := by
  have hfits : Fits PageArray.zero.bitmap (32 * (pageBitmapCapacity / 4)) kernelPages false 0 :=
    ⟨Bool.noConfusion, by decide, fun k _ _ ↦ bit_replicate_zero _ k⟩
  have hend : 0 + kernelPages < 32 * WordArray.size (Vector Word pageBitmapCapacity) := by
    rw [size_vector]
    decide
  obtain ⟨⟨start, length⟩, bitmap, halloc, hlen, hfirst, -⟩ :=
    allocBitrange_of_fits (by decide) hfits hend (by decide)
  obtain rfl : length = kernelPages := hlen
  obtain rfl : start = 0 := Nat.le_zero.mp (hfirst.le hfits)
  have hentry : ¬ (PageArray.entry { PageArray.zero with bottom := 0, active := true }
      0).utilized = true := by
    intro hused
    exact Bool.noConfusion ((congrArg AllocEntry.utilized (zero_entry 0)).symm.trans hused)
  have hclaim : claimKernel .zero = .ok {
      bottom := 0
      entries := PageArray.zero.entries.setIfInBounds 0 ⟨0, ⟨0, kernelPages⟩, true⟩
      bitmap := bitmap
      active := true } := by
    rw [claimKernel, halloc, ok_bind]
    exact (if_neg (not_not.mpr ⟨rfl, rfl⟩)).trans (if_neg hentry)
  exact ⟨_, hclaim⟩

/-- `allocate_page` returns as long as an entry is free. -/
theorem PageInv.allocatePage_returns {a : PageArray} {live : List Nat} (h : PageInv a live)
    {i : Nat} (hi : i < maxAllocations) (hfree : (a.entry i).utilized = false) :
    ∃ p a', Page.allocatePage a = .ok (p, a') := by
  -- a page behind all that can be in use
  have hclear : WordArray.bit a.bitmap 2048 = false := by
    rw [← Bool.not_eq_true, h.bits]
    rintro (hlt | ⟨j, hj, heq⟩)
    · exact absurd hlt (by decide)
    · have hin := (h.inside hj).2
      rw [heq] at hin
      exact absurd hin (by decide)
  have hfits : Fits a.bitmap (32 * (pageBitmapCapacity / 4)) 1 false 2048 := by
    refine ⟨Bool.noConfusion, by decide, fun k h₁ h₂ ↦ ?_⟩
    obtain rfl : k = 2048 := Nat.le_antisymm (Nat.le_of_lt_succ h₂) h₁
    exact hclear
  have hend : 2048 + 1 < 32 * WordArray.size (Vector Word pageBitmapCapacity) := by
    rw [size_vector]
    decide
  obtain ⟨range, bitmap, halloc, hlen, -, -⟩ :=
    allocBitrange_of_fits Nat.one_pos hfits hend (by decide)
  have hslot : ∃ slot, a.firstEntry (fun e ↦ !e.utilized) = some slot := by
    rw [← Option.ne_none_iff_exists']
    intro hnone
    have hused := AllocArray.firstEntry_eq_none (a := a.table).mp hnone i hi
    exact Bool.noConfusion (hfree.symm.trans ((Bool.not_eq_false' _).mp hused))
  obtain ⟨slot, hslot⟩ := hslot
  have halloc' : Page.allocatePage a = .ok ((a.bottom + range.start * pageSize % 2 ^ 32) % 2 ^ 32,
      { a with
        bitmap := bitmap
        entries := a.entries.setIfInBounds slot
          ⟨(a.bottom + range.start * pageSize % 2 ^ 32) % 2 ^ 32, range, true⟩ }) := by
    rw [Page.allocatePage, assertPagesActive, if_pos h.active, ok_bind, halloc, ok_bind]
    dsimp only
    rw [if_neg (hlen.trans_ne Nat.one_ne_zero), hslot]
  exact ⟨_, _, halloc'⟩

/-- With fewer pages handed out than there are entries, one of these is free. -/
theorem PageInv.exists_free_of_length {a : PageArray} {live : List Nat} (h : PageInv a live)
    (hlen : live.length < maxAllocations - 1) :
    ∃ slot < maxAllocations, (a.entry slot).utilized = false := by
  by_contra hfull
  have hused : ∀ i ∈ pageSlots, a.Used i := by
    intro i hi
    obtain ⟨hpos, hlt⟩ := Finset.mem_erase.mp hi
    refine ⟨Nat.pos_of_ne_zero hpos, ?_⟩
    rw [← Bool.not_eq_false]
    exact fun hfree ↦ hfull ⟨i, Finset.mem_range.mp hlt, hfree⟩
  have hcard : pageSlots.card ≤ live.toFinset.card := by
    refine Finset.card_le_card_of_injOn (fun i ↦ (a.entry i).basePtr) (fun i hi ↦ ?_)
      fun i hi j hj heq ↦ h.leads.inj (hused i hi) (hused j hj) heq
    exact List.mem_toFinset.mpr ((h.mem_live _).mpr ⟨i, hused i hi, rfl⟩)
  rw [card_pageSlots] at hcard
  exact absurd (hcard.trans (List.toFinset_card_le live)) (Nat.not_le.mpr hlen)

/-! ## What callers see -/

/-- An address that a page may have: aligned, behind the kernel's pages, and no more than the
table has entries behind them. -/
def IsPoolPage (p : Nat) : Prop :=
  pageSize ∣ p ∧ 0x400000 ≤ p ∧ p < 0x400000 + 256 * 4096

/-- The live pages, as the calls made so far say they are. -/
structure PagesInOrder (s : PageState) : Prop where
  addresses : ∀ p ∈ s.live, IsPoolPage p
  distinct : s.live.Nodup
  bits : ∀ k, kernelPages ≤ k →
    (WordArray.bit s.pages.bitmap k = true ↔ k * pageSize ∈ s.live)
  returned : ∀ {p a'}, allocatePage s.pages = .ok (p, a') → IsPoolPage p ∧ p ∉ s.live
  noOverflow : ∀ {range bitmap},
    allocBitrange s.pages.bitmap pageBitmapCapacity 1 false = .ok (range, bitmap) →
    range.start * pageSize < 2 ^ 32

section

variable {a : PageArray} {live : List Nat} {p : Nat}

theorem PageInv.isPoolPage (h : PageInv a live) (hp : p ∈ live) : IsPoolPage p := by
  obtain ⟨i, hi, rfl⟩ := (h.mem_live p).mp hp
  obtain ⟨hge, hlt⟩ := h.inside hi
  rw [h.base hi]
  refine ⟨Dvd.intro_left _ rfl, Nat.mul_le_mul_right pageSize hge, ?_⟩
  exact Nat.mul_lt_mul_of_pos_right hlt (by decide)

theorem PageInv.pagesInOrder {s : PageState} (h : PageInv s.pages s.live) : PagesInOrder s where
  addresses := fun _ hp ↦ h.isPoolPage hp
  distinct := h.nodup
  bits := by
    intro k hk
    rw [h.bits k, h.mem_live]
    constructor
    · rintro (hlt | ⟨i, hi, rfl⟩)
      · exact absurd hlt (Nat.not_lt.mpr hk)
      · exact ⟨i, hi, h.base hi⟩
    · rintro ⟨i, hi, heq⟩
      rw [h.base hi] at heq
      exact .inr ⟨i, hi, Nat.eq_of_mul_eq_mul_right (by decide) heq⟩
  returned := by
    intro p a' hok
    have h' := h.allocatePage hok
    exact ⟨h'.isPoolPage List.mem_cons_self, (List.nodup_cons.mp h'.nodup).1⟩
  noOverflow := h.address_lt

end

/-- **The page allocator, as callers see it.**  After `initialize_allocator` and every
sequence of calls that return, of which those of `free_page` are for live pages: the live pages
are distinct and exactly what the bitmap marks behind the kernel's, every page that is returned
lies in the 256 pages behind the kernel's, and no address overflows. -/
theorem pagesInOrder_of_reaches {kernel kernel' : AllocArray} {m m' : Machine} {s : PageState}
    (hm : m.pages = .zero) (hok : initializeAllocator kernel m = .ok (kernel', m'))
    (hs : Reaches PageCall.exec PageCall.Proper (PageState.start m'.pages) s) :
    PagesInOrder s :=
  (Reaches.invariant (I := fun s ↦ PageInv s.pages s.live) hs (initializeAllocator_inv hm hok)
    PageInv.step).pagesInOrder

/-- The allocator is initialized where the table of the heap's page is there already. -/
theorem initializeAllocator_returns (kernel : AllocArray) :
    ∃ kernel' m', initializeAllocator kernel twoTables = .ok (kernel', m') := by
  obtain ⟨a, hclaim⟩ := claimKernel_returns
  have hinv := claimKernel_inv hclaim
  have hfree : (a.entry 1).utilized = false := by
    rw [← Bool.not_eq_true]
    exact fun hused ↦ List.not_mem_nil ((hinv.mem_live _).mpr ⟨1, ⟨Nat.one_pos, hused⟩, rfl⟩)
  obtain ⟨heap, a', halloc⟩ := hinv.allocatePage_returns (by decide) hfree
  obtain ⟨hdvd, hge, hlt⟩ :=
    ((hinv.allocatePage halloc).isPoolPage List.mem_cons_self : IsPoolPage heap)
  have hm : SelfMapped { twoTables with pages := a' } :=
    twoTables_selfMapped.congr twoTables_selfMapped.cr3_lt rfl fun _ ↦ rfl
  have hindex : heap >>> 22 = 1 := by
    rw [Nat.shiftRight_eq_div_pow]
    omega
  have hempty : ∀ j < 1024, twoTables.lookup 1 j = none := by decide +kernel
  have hlook : Machine.lookup { twoTables with pages := a' } (heap >>> 22)
      (heap >>> 12 &&& 0x3FF) = none := by
    rw [hindex]
    exact hempty _ (Nat.lt_succ_of_le Nat.and_le_right)
  have hpresent : IsPresent (twoTables.pde (heap >>> 22)) := by
    rw [hindex]
    decide
  have hflags : pageWrite ||| pageUser < 8 := by decide
  obtain ⟨m', hmap, -⟩ := mapPage_ok hm (hindex ▸ by decide) hlook hdvd (by omega) hflags
    (by decide) fun hno ↦ absurd hpresent hno
  refine ⟨{ kernel with bottom := heap, active := true }, m', ?_⟩
  have hclaim' : claimKernel twoTables.pages = .ok a := hclaim
  simp only [initializeAllocator, hclaim', ok_bind, halloc, hmap]
  rfl

/-- Every page handed out is one of those that are live. -/
theorem PageInv.length_livePages {a : PageArray} {live : List Nat} (h : PageInv a live) :
    a.livePages.length = live.length := by
  refine List.Perm.length_eq ((List.perm_ext_iff_of_nodup h.livePages.nodup h.nodup).mpr ?_)
  exact fun p ↦ (h.livePages.mem_live p).trans (h.mem_live p).symm

/-- Handing out a page while few are. -/
theorem PageInv.exec_allocatePage {s : PageState} (h : PageInv s.pages s.live)
    (hlen : s.live.length < maxAllocations - 1) : ∃ p s',
      PageCall.exec s .allocatePage = .ok (p, s') ∧ PageInv s'.pages s'.live ∧
      s'.live = p :: s.live := by
  obtain ⟨slot, hslot, hfree⟩ := h.exists_free_of_length hlen
  obtain ⟨p, a', halloc⟩ := h.allocatePage_returns hslot hfree
  refine ⟨p, ⟨a', p :: s.live⟩, ?_, h.allocatePage halloc, rfl⟩
  rw [PageCall.exec, halloc]
  rfl

/-- After `initialize_allocator`, a page is handed out, given back, and handed out again. -/
theorem pagesInOrder_reused : ∃ kernel' m' p s₁ s₂ q s₃,
    initializeAllocator (AllocArray.initial 0) twoTables = .ok (kernel', m') ∧
    PageCall.exec (PageState.start m'.pages) .allocatePage = .ok (p, s₁) ∧
    PageCall.exec s₁ (.freePage p) = .ok (0, s₂) ∧
    PageCall.exec s₂ .allocatePage = .ok (q, s₃) ∧ PagesInOrder s₃ := by
  obtain ⟨kernel', m', hok⟩ := initializeAllocator_returns (AllocArray.initial 0)
  obtain ⟨live, hinv, hlen⟩ := initializeAllocator_live rfl hok
  have hstart : (PageState.start m'.pages).live.length < maxAllocations - 1 := by
    change m'.pages.livePages.length < _
    rw [hinv.length_livePages]
    exact lt_of_le_of_lt hlen (by decide)
  obtain ⟨p, s₁, hfirst, hinv₁, hlive₁⟩ :=
    PageInv.exec_allocatePage (initializeAllocator_inv rfl hok) hstart
  have hproper : PageCall.Proper s₁ (.freePage p) := by
    change p ∈ s₁.live
    rw [hlive₁]
    exact List.mem_cons_self
  obtain ⟨a', slot, hfree, -⟩ := hinv₁.freePage_eq_ok hproper
  have hgiven : PageCall.exec s₁ (.freePage p) = .ok (0, ⟨a', s₁.live.erase p⟩) := by
    rw [PageCall.exec, hfree]
    rfl
  have hinv₂ := hinv₁.step hproper hgiven
  have hlen₂ : (s₁.live.erase p).length < maxAllocations - 1 := by
    rw [hlive₁, List.erase_cons_head]
    exact hstart
  obtain ⟨q, s₃, hlast, -⟩ := PageInv.exec_allocatePage hinv₂ hlen₂
  refine ⟨kernel', m', p, s₁, _, q, s₃, hok, hfirst, hgiven, hlast,
    pagesInOrder_of_reaches rfl hok ?_⟩
  have hany {s : PageState} : PageCall.Proper s .allocatePage := trivial
  exact (((Reaches.refl _).tail hany hfirst).tail hproper hgiven).tail hany hlast

end Yorha.Page
