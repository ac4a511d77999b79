import Yorha.Heap.Run

/-!
# The heap's page

One page is mapped for the heap, `KERNEL_HEAP_SIZE` bytes from `bottom` on, and one
bit of the bitmap stands for one byte.  `kmalloc` scans twice as many bits: it passes
`KERNEL_BITMAP_CAPACITY`, the number of words of the bitmap, as the capacity, and a
quarter of that many words is scanned.  So a request that does not fit into the page
but fits into the second half of the scanned bits gets a pointer past the page, where
the code means to panic.

`PageRequest` says for which requests that does not happen.
-/

namespace Yorha.Heap

open Yorha.Lib Yorha.Str Yorha.Util

/-- The request fits into the page; or it fits nowhere that is scanned; or there is
no entry left for it. -/
def PageRequest (a : AllocArray) (size : Nat) : Prop :=
  (∃ start, Fits a.bitmap kernelHeapSize size true start) ∨
    (∀ start, ¬ Fits a.bitmap scannedBits size true start) ∨
    ∀ i < maxAllocations, (a.entry i).utilized = true

/-- The answer to a request for `size` bytes: a block wholly inside the page, or a
panic. -/
def InPageOrPanic {α : Type} (bottom size : Nat) : Except Stop (Nat × α) → Prop
  | .ok (p, _) => bottom ≤ p ∧ p + size ≤ bottom + kernelHeapSize
  | .error (.panic _) => True
  | .error _ => False

@[simp] theorem inPageOrPanic_ok {α : Type} {bottom size : Nat} {v : Nat × α} :
    InPageOrPanic bottom size (.ok v) ↔
      bottom ≤ v.1 ∧ v.1 + size ≤ bottom + kernelHeapSize := Iff.rfl

@[simp] theorem inPageOrPanic_error {α : Type} {bottom size : Nat} {e : Stop} :
    InPageOrPanic bottom size (.error e : Except Stop (Nat × α)) ↔ ∃ msg, e = .panic msg := by
  cases e with
  | panic msg => exact ⟨fun _ ↦ ⟨msg, rfl⟩, fun _ ↦ trivial⟩
  | fault => exact ⟨False.elim, fun ⟨_, h⟩ ↦ by cases h⟩
  | hang => exact ⟨False.elim, fun ⟨_, h⟩ ↦ by cases h⟩

/-- The number of bytes that a call requests. -/
def HeapCall.size : HeapCall → Option Nat
  | .kmalloc size => some size
  | .kcalloc num size => some (num * size % 2 ^ 32)
  | .krealloc _ newSize => some newSize
  | .kfree _ => none

/-- The pointers given back are live. -/
def HeapCall.GivesLive (s : HeapState) : HeapCall → Prop
  | .krealloc ptr _ | .kfree ptr => s.live ptr ≠ none
  | _ => True

/-- The call's answer, if it requests memory, is a block inside the page or a panic. -/
def HeapCall.Contained (s : HeapState) (c : HeapCall) : Prop :=
  ∀ size, c.size = some size → InPageOrPanic s.heap.allocator.bottom size (c.exec s)

/-- The call's request, if it makes one, is a `PageRequest`. -/
def HeapCall.RequestsPage (s : HeapState) (c : HeapCall) : Prop :=
  ∀ size, c.size = some size → PageRequest s.heap.allocator size

/-- `kmalloc` panics because the heap, or the table, is full. -/
def RunsOut (e : Stop) : Prop :=
  e = .panic "Insufficient space in heap" ∨ e = .panic "Maximum allocations reached"

/-- The outcomes of `kmalloc`: a first fit in the scanned bits, or a panic because
nothing fits or because the table is full. -/
theorem kmalloc_cases {a : AllocArray} {size : Nat} (hact : a.active = true)
    (hsize : 0 < size) :
    (∃ start a', kmalloc a size = .ok (a.bottom + start, a') ∧
      FirstFit a.bitmap scannedBits size true start ∧
      ¬ ∀ i < maxAllocations, (a.entry i).utilized = true) ∨
    (∃ msg, kmalloc a size = .error (.panic msg) ∧
      ((∀ start, ¬ Fits a.bitmap scannedBits size true start) ∨
        ∀ i < maxAllocations, (a.entry i).utilized = true) ∧ RunsOut (.panic msg)) := by
  have hassert : assertActive a = .ok () := assertActive_eq_ok.mpr hact
  rcases allocBitrange_cases a.bitmap kernelBitmapCapacity true hsize with
    ⟨r, hfit, hlen, he⟩ | ⟨-, hno, he⟩ | ⟨hlt, -, -⟩
  · have hfit : FirstFit a.bitmap scannedBits size true r.start := hfit
    have hin : r.start + size ≤ 8192 := hfit.inside
    obtain ⟨bitmap, hb, -⟩ := applyBitrange_spec a.bitmap r true (by omega)
      (by rw [hlen]; omega) (by rw [hlen]; change _ < 1024; omega)
    rw [hb, ok_bind] at he
    have hne : ¬ r.length = 0 := by omega
    cases hslot : a.firstEntry (fun e ↦ !e.utilized) with
    | none =>
        refine .inr ⟨"Maximum allocations reached", ?_, .inr fun i hi ↦ ?_, .inr rfl⟩
        · simp only [kmalloc, hassert, ok_bind, he, if_neg hne, hslot]
        · simpa using AllocArray.firstEntry_eq_none.mp hslot i hi
    | some slot =>
        obtain ⟨hlt, hfree, -⟩ := AllocArray.firstEntry_eq_some.mp hslot
        refine .inl ⟨r.start, { a with
          bitmap := bitmap,
          entries := a.entries.setIfInBounds slot ⟨a.bottom + r.start, r, true⟩ }, ?_, hfit,
          fun hall ↦ ?_⟩
        · simp only [kmalloc, hassert, ok_bind, he, if_neg hne, hslot]
        · rw [hall slot hlt] at hfree
          cases hfree
  · refine .inr ⟨"Insufficient space in heap", ?_, .inl hno, .inl rfl⟩
    simp only [kmalloc, hassert, ok_bind, he, if_true]
  · exact absurd hlt (by decide)

/-- A request for no bytes panics. -/
theorem kmalloc_zero {a : AllocArray} (hact : a.active = true) :
    ∃ msg, kmalloc a 0 = .error (.panic msg) := by
  have hassert : assertActive a = .ok () := assertActive_eq_ok.mpr hact
  obtain ⟨r, bitmap, he, hlen⟩ := allocBitrange_zero a.bitmap
    kernelBitmapCapacity true (by decide) (by decide)
  refine ⟨"Insufficient space in heap", ?_⟩
  simp only [kmalloc, hassert, ok_bind, he, hlen, if_true]

/-- Only a request for a positive number of bytes is answered. -/
theorem kmalloc_pos {a a' : AllocArray} {size p : Nat} (h : kmalloc a size = .ok (p, a')) :
    0 < size := by
  by_contra hsize
  obtain rfl : size = 0 := by omega
  have hact : a.active = true := by
    simp only [kmalloc, bind_eq_ok] at h
    obtain ⟨⟨⟩, hact, -⟩ := h
    exact assertActive_eq_ok.mp hact
  obtain ⟨msg, hm⟩ := kmalloc_zero hact
  rw [hm] at h
  cases h

/-- **`kmalloc` stays inside the page or panics exactly for page requests.** -/
theorem kmalloc_inPage_iff {a : AllocArray} (hact : a.active = true) (size : Nat) :
    InPageOrPanic a.bottom size (kmalloc a size) ↔ PageRequest a size := by
  by_cases hsize : 0 < size
  · rcases kmalloc_cases hact hsize with ⟨start, a', he, hfit, hfree⟩ | ⟨msg, he, hcase, -⟩
    · rw [he]
      constructor
      · rintro ⟨-, hin⟩
        exact .inl ⟨start, hfit.aligned, by omega, hfit.clear⟩
      · rintro (⟨b, hb⟩ | hno | hall)
        · have hin := hb.inside
          have hb' : Fits a.bitmap scannedBits size true b :=
            ⟨hb.aligned, le_trans hin (by decide), hb.clear⟩
          have hle := hfit.le hb'
          exact ⟨by omega, by omega⟩
        · exact absurd hfit.toFits (hno start)
        · exact absurd hall hfree
    · rw [he]
      exact ⟨fun _ ↦ .inr hcase, fun _ ↦ trivial⟩
  · obtain rfl : size = 0 := by omega
    obtain ⟨msg, he⟩ := kmalloc_zero hact
    rw [he]
    exact ⟨fun _ ↦ .inl ⟨0, fun _ ↦ ⟨0, rfl⟩, by omega, fun k h₁ h₂ ↦ absurd h₂ (by omega)⟩,
      fun _ ↦ trivial⟩

/-- What a call answers is what `kmalloc` answers to its request. -/
theorem HeapCall.inPage_exec_iff {s : HeapState} (hinv : HeapInv s.heap.allocator s.live)
    {c : HeapCall} (hc : c.GivesLive s) {size : Nat} (hsize : c.size = some size)
    (bottom : Nat) : InPageOrPanic bottom size (c.exec s) ↔
      InPageOrPanic bottom size (Heap.kmalloc s.heap.allocator size) := by
  have hassert : assertActive s.heap.allocator = .ok () := assertActive_eq_ok.mpr hinv.active
  cases c with
  | kfree ptr => cases hsize
  | kmalloc n =>
      cases hsize
      cases hm : Heap.kmalloc s.heap.allocator size with
      | error e => simp only [HeapCall.exec, hm, error_bind, inPageOrPanic_error]
      | ok v => simp only [HeapCall.exec, hm, ok_bind, inPageOrPanic_ok]
  | kcalloc num n =>
      cases hsize
      cases hm : Heap.kmalloc s.heap.allocator (num * n % 2 ^ 32) with
      | error e =>
          simp only [HeapCall.exec, Heap.kcalloc, hassert, ok_bind, hm, error_bind, inPageOrPanic_error]
      | ok v => simp only [HeapCall.exec, Heap.kcalloc, hassert, hm, ok_bind, inPageOrPanic_ok]
  | krealloc ptr n =>
      cases hsize
      cases hm : Heap.kmalloc s.heap.allocator size with
      | error e =>
          simp only [HeapCall.exec, Heap.krealloc, hassert, ok_bind, hm, error_bind,
            inPageOrPanic_error]
      | ok v =>
          obtain ⟨q, a'⟩ := v
          obtain ⟨m, hn⟩ := Option.ne_none_iff_exists'.mp hc
          obtain ⟨h', hr, -, -⟩ := hinv.krealloc hn (kmalloc_pos hm) hm
          simp only [HeapCall.exec, hr, ok_bind, inPageOrPanic_ok]

/-- Calls that return and give back live pointers only are proper. -/
theorem HeapCall.GivesLive.proper {s t : HeapState} {c : HeapCall} {v : Nat}
    (hc : c.GivesLive s) (hstep : c.exec s = .ok (v, t)) : c.Proper s := by
  cases c with
  | kfree ptr => exact hc
  | kmalloc size =>
      simp only [HeapCall.exec, bind_eq_ok] at hstep
      obtain ⟨⟨p, a'⟩, hm, -⟩ := hstep
      exact kmalloc_pos hm
  | kcalloc num size =>
      simp only [HeapCall.exec, Heap.kcalloc, bind_eq_ok] at hstep
      obtain ⟨-, ⟨⟨⟩, -, ⟨p, a'⟩, hm, -⟩, -⟩ := hstep
      exact kmalloc_pos hm
  | krealloc ptr newSize =>
      simp only [HeapCall.exec, Heap.krealloc, bind_eq_ok] at hstep
      obtain ⟨-, ⟨⟨⟩, -, ⟨p, a'⟩, hm, -⟩, -⟩ := hstep
      exact ⟨hc, kmalloc_pos hm⟩

/-! ## Runs -/

/-- A call leaves the heap where it is. -/
theorem HeapCall.exec_bottom {s t : HeapState} {c : HeapCall} {v : Nat}
    (h : c.exec s = .ok (v, t)) : t.heap.allocator.bottom = s.heap.allocator.bottom := by
  have hmalloc : ∀ {a a' : AllocArray} {size p : Nat}, Heap.kmalloc a size = .ok (p, a') →
      a'.bottom = a.bottom := by
    intro a a' size p hm
    obtain ⟨slot, start, ha, -⟩ := kmalloc_ok (kmalloc_pos hm) hm
    exact ha.bottom
  have hrelease : ∀ {a a' : AllocArray} {i : Nat}, releaseEntry a i = .ok a' →
      a'.bottom = a.bottom := by
    intro a a' i hr
    simp only [releaseEntry, bind_eq_ok] at hr
    obtain ⟨bitmap, -, hr⟩ := hr
    cases hr
    rfl
  cases c with
  | kmalloc size =>
      simp only [HeapCall.exec, bind_eq_ok] at h
      obtain ⟨⟨p, a'⟩, hm, h⟩ := h
      cases h
      exact hmalloc hm
  | kcalloc num size =>
      simp only [HeapCall.exec, Heap.kcalloc, bind_eq_ok] at h
      obtain ⟨⟨p, h'⟩, ⟨⟨⟩, -, ⟨q, a'⟩, hm, hh⟩, h⟩ := h
      cases hh
      cases h
      exact hmalloc hm
  | krealloc ptr newSize =>
      simp only [HeapCall.exec, Heap.krealloc, bind_eq_ok] at h
      obtain ⟨⟨p, h'⟩, ⟨⟨⟩, -, ⟨q, a'⟩, hm, hh⟩, h⟩ := h
      cases h
      split at hh
      · simp only [bind_eq_ok] at hh
        obtain ⟨a'', hr, hh⟩ := hh
        cases hh
        exact (hrelease hr).trans (hmalloc hm)
      · cases hh
  | kfree ptr =>
      simp only [HeapCall.exec, Heap.kfree, bind_eq_ok] at h
      obtain ⟨a', ⟨⟨⟩, -, hf⟩, h⟩ := h
      cases h
      split at hf
      · exact hrelease hf
      · cases hf

/-- The blocks live after a call: those live before, and the one returned. -/
theorem HeapCall.live_exec {s t : HeapState} {c : HeapCall} {v p n : Nat}
    (h : c.exec s = .ok (v, t)) (hp : t.live p = some n) :
    s.live p = some n ∨ (c.size = some n ∧ v = p) := by
  have hupdate : ∀ {live : LiveBlocks} {q size : Nat},
      Function.update live q (some size) p = some n →
      live p = some n ∨ (size = n ∧ q = p) := by
    intro live q size hl
    by_cases hq : p = q
    · subst hq
      rw [Function.update_self] at hl
      exact .inr ⟨Option.some.inj hl, rfl⟩
    · rw [Function.update_of_ne hq] at hl
      exact .inl hl
  have hnone : ∀ {ptr : Nat}, Function.update s.live ptr none p = some n →
      s.live p = some n := by
    intro ptr hl
    by_cases hq : p = ptr
    · subst hq
      rw [Function.update_self] at hl
      cases hl
    · rwa [Function.update_of_ne hq] at hl
  cases c with
  | kmalloc size =>
      simp only [HeapCall.exec, bind_eq_ok] at h
      obtain ⟨⟨q, a'⟩, -, h⟩ := h
      cases h
      exact (hupdate hp).imp_right (And.imp_left (congrArg some))
  | kcalloc num size =>
      simp only [HeapCall.exec, bind_eq_ok] at h
      obtain ⟨⟨q, h'⟩, -, h⟩ := h
      cases h
      exact (hupdate hp).imp_right (And.imp_left (congrArg some))
  | krealloc ptr newSize =>
      simp only [HeapCall.exec, bind_eq_ok] at h
      obtain ⟨⟨q, h'⟩, -, h⟩ := h
      cases h
      exact (hupdate hp).imp hnone (And.imp_left (congrArg some))
  | kfree ptr =>
      simp only [HeapCall.exec, bind_eq_ok] at h
      obtain ⟨a', -, h⟩ := h
      cases h
      exact .inl (hnone hp)

/-- A call's answer is contained exactly when it requests what the page can hold. -/
theorem HeapCall.contained_iff {s : HeapState} (hinv : HeapInv s.heap.allocator s.live)
    {c : HeapCall} (hc : c.GivesLive s) : c.Contained s ↔ c.RequestsPage s := by
  refine forall_congr' fun size ↦ forall_congr' fun hsize ↦ ?_
  rw [HeapCall.inPage_exec_iff hinv hc hsize]
  exact kmalloc_inPage_iff hinv.active size

/-- Runs that give back live pointers only keep the invariant. -/
theorem HeapInv.of_givesLive {bottom : Nat} {mem : Bytes} {s : HeapState}
    {ok : HeapState → HeapCall → Prop} (hok : ∀ {s c}, ok s c → HeapCall.GivesLive s c)
    (h : Reaches HeapCall.exec ok (HeapState.initial bottom mem) s) :
    HeapInv s.heap.allocator s.live :=
  Reaches.invariant (I := fun s ↦ HeapInv s.heap.allocator s.live) h (HeapInv.initial bottom)
    fun hinv hc hstep ↦ hinv.step ((hok hc).proper hstep) hstep

/-- **Containment.**  In every run, a call is answered with a block inside the page,
or a panic, exactly when what it requests fits into the page, or fits nowhere that is
scanned, or finds the table full.  So in a run of such calls every live block lies
inside the page. -/
theorem blocks_inPage_iff_requests (bottom : Nat) (mem : Bytes) :
    (∀ s, Reaches HeapCall.exec (fun s c ↦ HeapCall.GivesLive s c)
        (HeapState.initial bottom mem) s →
      ∀ c, HeapCall.GivesLive s c → (c.Contained s ↔ c.RequestsPage s)) ∧
    (∀ s, Reaches HeapCall.exec (fun s c ↦ HeapCall.GivesLive s c ∧ c.RequestsPage s)
        (HeapState.initial bottom mem) s →
      ∀ p n, s.live p = some n → bottom ≤ p ∧ p + n ≤ bottom + kernelHeapSize) := by
  refine ⟨fun s h c hc ↦ HeapCall.contained_iff (HeapInv.of_givesLive id h) hc,
    fun s h ↦ ?_⟩
  have hinv : HeapInv s.heap.allocator s.live ∧ s.heap.allocator.bottom = bottom ∧
      ∀ p n, s.live p = some n → bottom ≤ p ∧ p + n ≤ bottom + kernelHeapSize := by
    refine h.invariant (I := fun s ↦ HeapInv s.heap.allocator s.live ∧
      s.heap.allocator.bottom = bottom ∧
      ∀ p n, s.live p = some n → bottom ≤ p ∧ p + n ≤ bottom + kernelHeapSize)
      ⟨HeapInv.initial bottom, rfl, fun p n hp ↦ nomatch hp⟩ ?_
    rintro s c v t ⟨hinv, rfl, hin⟩ ⟨hc, hreq⟩ hstep
    refine ⟨hinv.step (hc.proper hstep) hstep, HeapCall.exec_bottom hstep, fun p n hp ↦ ?_⟩
    rcases HeapCall.live_exec hstep hp with hold | ⟨hsize, rfl⟩
    · exact hin p n hold
    · have hcont := (HeapCall.contained_iff hinv hc).mpr hreq n hsize
      rw [hstep] at hcont
      exact hcont
  exact hinv.2.2

/-- What is proper gives back live pointers only. -/
theorem HeapCall.Proper.givesLive {s : HeapState} {c : HeapCall} (hc : c.Proper s) :
    c.GivesLive s := by
  cases c with
  | kmalloc | kcalloc => trivial
  | krealloc ptr newSize => exact hc.1
  | kfree ptr => exact hc

/-- A heap with two blocks answers a request for three bytes from its page. -/
theorem kmalloc_3_inPage : ∃ s, runCalls HeapCall.exec HeapCall.Proper [.kmalloc 8, .kmalloc 5]
      (HeapState.initial 0x400000 fun _ ↦ 0) = some s ∧
    s.live 0x400000 = some 8 ∧ s.live 0x400008 = some 5 ∧ (HeapCall.kmalloc 3).Contained s := by
  obtain ⟨s, hs, hcheck⟩ := (Option.any_eq_true _ _).mp
    (show (runCalls HeapCall.exec HeapCall.Proper [.kmalloc 8, .kmalloc 5]
      (HeapState.initial 0x400000 fun _ ↦ 0)).any (fun s ↦
        decide (s.live 0x400000 = some 8 ∧ s.live 0x400008 = some 5 ∧
          ∀ k < 19, 16 ≤ k → WordArray.bit s.heap.allocator.bitmap k = false)) = true by
      decide +kernel)
  obtain ⟨hfirst, hsecond, hclear⟩ := of_decide_eq_true hcheck
  have hreach := (reaches_of_runCalls hs).mono fun _ _ ↦ HeapCall.Proper.givesLive
  refine ⟨s, hs, hfirst, hsecond,
    ((blocks_inPage_iff_requests 0x400000 fun _ ↦ 0).1 s hreach (.kmalloc 3) trivial).mpr ?_⟩
  intro size hsize
  cases hsize
  exact .inl ⟨16, fun _ ↦ ⟨4, rfl⟩, by decide, fun k h₁ h₂ ↦ hclear k h₂ h₁⟩

/-- A call that is answered with a block past the page is not contained. -/
theorem HeapCall.not_contained {s : HeapState} {c : HeapCall} {size p : Nat}
    (hsize : c.size = some size) (he : (c.exec s).map Prod.fst = .ok p)
    (hp : s.heap.allocator.bottom + kernelHeapSize < p + size) : ¬ c.Contained s := by
  intro h
  have hcont := h size hsize
  cases hr : c.exec s with
  | error e =>
      rw [hr] at he
      cases he
  | ok v =>
      rw [hr] at he hcont
      have hv : v.1 = p := Except.ok.inj he
      rw [inPageOrPanic_ok, hv] at hcont
      omega

/-- The fresh heap answers a request for one byte more than its page with a block
that leaves the page. -/
theorem kmalloc_4097_leaves_page : ∃ s c,
    Reaches HeapCall.exec (fun s c ↦ HeapCall.GivesLive s c)
      (HeapState.initial 0x400000 fun _ ↦ 0) s ∧
    HeapCall.GivesLive s c ∧ ¬ c.Contained s :=
  ⟨_, .kmalloc 4097, Reaches.refl _, trivial, HeapCall.not_contained (p := 0x400000) rfl
    (by decide +kernel) (by decide)⟩

end Yorha.Heap
