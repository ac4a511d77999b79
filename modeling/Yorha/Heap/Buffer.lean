import Yorha.Heap.Run

/-!
# Growing buffers

The `String` and the `StringList` of `alloc.h`: a length, a capacity, and a block on the
heap.  Both grow by the same macro, which doubles a full block; the elements are characters
in the one, and in the other strings, twelve bytes each.

A buffer with capacity 0 has no block.  Its length may be anything: `string_split` gives a
word away by setting the capacity of the `String` it was built in to 0.

`Holds` says that a buffer has given bytes, and `Frame` that blocks other than one's own are
as before.  `append_ok` is the specification of the macro in these terms.
-/

namespace Yorha.Heap

open Yorha.Lib Yorha.Str Yorha.Util

/-! ## The macro -/

/-- A `String` or a `StringList`. -/
structure Buffer where
  len : Nat
  capacity : Nat
  contents : Nat
deriving DecidableEq, Repr

/-- `{0}`. -/
def Buffer.zero : Buffer := ⟨0, 0, 0⟩

/-- The type `String`: a buffer of characters. -/
abbrev HeapString := Buffer

/-- The type `StringList`: a buffer of strings. -/
abbrev StringList := Buffer

/-- The bytes of a `String` in memory. -/
def Buffer.bytes (s : Buffer) : List UInt8 := [s.len, s.capacity, s.contents].flatMap Bytes.ofWord

/-- `sizeof(String)`. -/
def stringBytes : Nat := 12

@[simp] theorem Buffer.length_bytes (s : Buffer) : s.bytes.length = stringBytes := rfl

/-- The `String` at an address. -/
def stringAt (mem : Bytes) (ptr : Nat) : HeapString where
  len := (mem.drop ptr).word
  capacity := (mem.drop (ptr + 4)).word
  contents := (mem.drop (ptr + 8)).word

/-- `cmd.contents[i]`. -/
def StringList.string (h : KernelHeap) (cmd : StringList) (i : Nat) : HeapString :=
  stringAt h.mem (cmd.contents + stringBytes * i)

/-- Store the bytes `c` at an address. -/
def KernelHeap.store (h : KernelHeap) (ptr : Nat) (c : List UInt8) : KernelHeap :=
  { h with mem := h.mem.splice ptr c }

/-- `APPEND`, where `c` are the bytes of the element. -/
def append (h : KernelHeap) (s : Buffer) (c : List UInt8) :
    Except Stop (Buffer × KernelHeap) := do
  if s.capacity = 0 then do
    let (contents, h) ← kcalloc h 2 c.length
    .ok (⟨1, 2, contents⟩, h.store contents c)
  else if s.len = s.capacity then do
    let (contents, h) ← krealloc h s.contents (c.length * s.capacity * 2 % 2 ^ 32)
    .ok (⟨s.len + 1, s.capacity * 2, contents⟩, h.store (contents + c.length * s.len) c)
  else .ok ({ s with len := s.len + 1 }, h.store (s.contents + c.length * s.len) c)

/-! ## Blocks -/

/-- Blocks other than one's own are as before. -/
structure Frame (h h' : KernelHeap) (live live' : LiveBlocks) (own : Nat → Prop) : Prop where
  kept : ∀ {p n}, live p = some n → ¬ own p → live' p = some n
  same : ∀ {p n i}, live p = some n → ¬ own p → i < n → h'.mem (p + i) = h.mem (p + i)
  bottom : h'.allocator.bottom = h.allocator.bottom

section

variable {h h' h'' : KernelHeap} {live live' live'' : LiveBlocks} {own own' : Nat → Prop}
  {p q m n : Nat}

theorem Frame.refl (h : KernelHeap) (live : LiveBlocks) (own : Nat → Prop) :
    Frame h h live live own :=
  ⟨fun hp _ ↦ hp, fun _ _ _ ↦ rfl, rfl⟩

/-- What the second step may change was one's own before, or not live. -/
theorem Frame.trans (hf : Frame h h' live live' own) (hf' : Frame h' h'' live' live'' own')
    (hown : ∀ {p n}, live p = some n → ¬ own p → ¬ own' p) :
    Frame h h'' live live'' own where
  kept := fun hp hno ↦ hf'.kept (hf.kept hp hno) (hown hp hno)
  same := by
    intro p n i hp hno hi
    rw [hf'.same (hf.kept hp hno) (hown hp hno) hi, hf.same hp hno hi]
  bottom := hf'.bottom.trans hf.bottom

theorem Frame.mono (hf : Frame h h' live live' own) (himp : ∀ {p}, own p → own' p) :
    Frame h h' live live' own' where
  kept := fun hp hno ↦ hf.kept hp fun ho ↦ hno (himp ho)
  same := fun hp hno hi ↦ hf.same hp (fun ho ↦ hno (himp ho)) hi
  bottom := hf.bottom

/-- A call that gave back what it took: all blocks are as before. -/
structure Keeps (h h' : KernelHeap) (live : LiveBlocks) : Prop where
  inv : HeapInv h'.allocator live
  frame : Frame h h' live live fun _ ↦ False

theorem Keeps.refl (hinv : HeapInv h.allocator live) : Keeps h h live :=
  ⟨hinv, Frame.refl h live _⟩

theorem Keeps.trans (hk : Keeps h h' live) (hk' : Keeps h' h'' live) : Keeps h h'' live :=
  ⟨hk'.inv, hk.frame.trans hk'.frame fun _ _ ↦ not_false⟩

/-- Two live blocks have no byte in common. -/
theorem HeapInv.apart (hinv : HeapInv h.allocator live) (hp : live p = some m)
    (hq : live q = some n) (hne : p ≠ q) {a : Nat} (h₁ : p ≤ a) (h₂ : a < p + m) :
    ¬ (q ≤ a ∧ a < q + n) := by
  rintro ⟨h₃, h₄⟩
  have horder := HeapInv.blocksInOrder (s := ⟨h, live⟩) hinv
  have hbp : h.allocator.bottom ≤ p := (horder.aligned hp).1
  have hbq : h.allocator.bottom ≤ q := (horder.aligned hq).1
  refine horder.disjoint hp hq hne (k := a - h.allocator.bottom) ?_ ?_ ⟨?_, ?_⟩
  · exact Nat.sub_le_sub_right h₁ _
  · change _ < p - h.allocator.bottom + m
    omega
  · exact Nat.sub_le_sub_right h₃ _
  · change _ < q - h.allocator.bottom + n
    omega

/-- A live block lies in what the allocator scans. -/
theorem HeapInv.block_le (hinv : HeapInv h.allocator live) (hp : live p = some n) :
    h.allocator.bottom ≤ p ∧ p + n ≤ h.allocator.bottom + scannedBits := by
  obtain ⟨i, hi, hr, hb⟩ := hinv.live_entry hp
  have hin := hinv.inside hi
  rw [hr] at hin
  exact ⟨hb, by simp only at hin; omega⟩

/-- A live block is no larger than what the allocator scans. -/
theorem HeapInv.length_le (hinv : HeapInv h.allocator live) (hp : live p = some n) :
    n ≤ scannedBits := by
  obtain ⟨hle, hin⟩ := hinv.block_le hp
  omega

/-- Storing in a block leaves the others alone. -/
theorem HeapInv.frame_store (hinv : HeapInv h.allocator live) (hp : live p = some n) {off : Nat}
    {c : List UInt8} (hc : off + c.length ≤ n) :
    Frame h (h.store (p + off) c) live live (· = p) where
  kept := fun hq _ ↦ hq
  same := by
    intro q m i hq hne hi
    apply Bytes.splice_of_notMem
    rintro ⟨h₁, h₂⟩
    exact hinv.apart hp hq (Ne.symm hne) (a := q + i) (by omega) (by omega)
      ⟨Nat.le_add_right _ _, by omega⟩
  bottom := rfl

/-- What was not live is none of the live blocks. -/
theorem ne_of_fresh (hfresh : live q = none) (hp : live p = some n) : p ≠ q := by
  rintro rfl
  rw [hfresh] at hp
  cases hp

/-- `kcalloc` hands out a block that was not live. -/
theorem HeapInv.kcalloc_ok (hinv : HeapInv h.allocator live) {num size : Nat}
    (hsize : 0 < num * size) (hlt : num * size < 2 ^ 32) (hk : kcalloc h num size = .ok (p, h')) :
    live p = none ∧ HeapInv h'.allocator (Function.update live p (some (num * size))) ∧
      Frame h h' live (Function.update live p (some (num * size))) fun _ ↦ False := by
  simp only [kcalloc, bind_eq_ok, Prod.exists, Nat.mod_eq_of_lt hlt] at hk
  obtain ⟨⟨⟩, -, p', a, hm, hk⟩ := hk
  cases hk
  have hfresh := hinv.kmalloc_fresh hsize hm
  have hinv' := hinv.kmalloc hsize hm
  obtain ⟨slot, start, ha, -⟩ := kmalloc_ok hsize hm
  have hkept : ∀ {q n}, live q = some n →
      Function.update live p (some (num * size)) q = some n := by
    intro q n hq
    rw [Function.update_of_ne (ne_of_fresh hfresh hq)]
    exact hq
  refine ⟨hfresh, hinv', ⟨fun hq _ ↦ hkept hq, fun {q n i} hq _ hi ↦ ?_, ha.bottom⟩⟩
  -- the bytes that are cleared belong to the new block
  change memset h.mem p 0 (num * size) (q + i) = h.mem (q + i)
  rw [memset_apply, if_neg]
  rintro ⟨h₁, h₂⟩
  exact HeapInv.apart (h := ⟨a, h.mem⟩) hinv' (Function.update_self p _ live) (hkept hq)
    (ne_of_fresh hfresh hq).symm h₁ h₂ ⟨Nat.le_add_right _ _, Nat.add_lt_add_left hi q⟩

/-- `krealloc` copies as many bytes as the old block has, whatever the size of the new one. -/
theorem HeapInv.krealloc_copies (hinv : HeapInv h.allocator live) (hp : live p = some m)
    (hsize : 0 < n) (hk : Heap.krealloc h p n = .ok (q, h')) :
    live q = none ∧
      HeapInv h'.allocator (Function.update (Function.update live p none) q (some n)) ∧
      h'.allocator.bottom = h.allocator.bottom ∧ h'.mem = memmove h.mem q p m := by
  have hk' := hk
  simp only [Heap.krealloc, bind_eq_ok, Prod.exists] at hk
  obtain ⟨⟨⟩, -, q', a, hm, hk⟩ := hk
  split at hk
  · rename_i entry hentry
    simp only [bind_eq_ok] at hk
    obtain ⟨a', hrel, hk⟩ := hk
    cases hk
    have hfresh := hinv.kmalloc_fresh hsize hm
    have hinv₁ := hinv.kmalloc hsize hm
    have hbottom : a'.bottom = h.allocator.bottom := by
      obtain ⟨slot, start, ha, -⟩ := kmalloc_ok hsize hm
      simp only [releaseEntry, bind_eq_ok] at hrel
      obtain ⟨bitmap, -, hrel⟩ := hrel
      cases hrel
      exact ha.bottom
    obtain ⟨h₂, hk₂, -, hinv₂⟩ := hinv.krealloc hp hsize hm
    rw [hk₂] at hk'
    cases hk'
    -- the entry that the search finds is the one of the old block
    have hlen : (a.entry entry).range.length = m := by
      have hp₁ : Function.update live q (some n) p = some m := by
        rw [Function.update_of_ne (ne_of_fresh hfresh hp)]
        exact hp
      obtain ⟨i, hi, hbase, hlen⟩ := (hinv₁.live p m).mp hp₁
      have hfirst := hinv₁.firstEntry_eq hi
      rw [hbase, hentry] at hfirst
      rw [Option.some.inj hfirst]
      exact hlen
    refine ⟨hfresh, hinv₂, hbottom, ?_⟩
    rw [← hlen]
  · cases hk

/-- `krealloc` moves a block to a larger one that was not live, with its contents. -/
theorem HeapInv.krealloc_ok (hinv : HeapInv h.allocator live) (hp : live p = some m)
    (hsize : 0 < n) (hmn : m ≤ n) (hk : Heap.krealloc h p n = .ok (q, h')) :
    live q = none ∧
      HeapInv h'.allocator (Function.update (Function.update live p none) q (some n)) ∧
      Frame h h' live (Function.update (Function.update live p none) q (some n)) (· = p) ∧
      ∀ i < m, h'.mem (q + i) = h.mem (p + i) := by
  obtain ⟨hfresh, hinv', hbottom, hmem⟩ := hinv.krealloc_copies hp hsize hk
  have hkept : ∀ {r k}, live r = some k → r ≠ p →
      Function.update (Function.update live p none) q (some n) r = some k := by
    intro r k hr hrp
    rw [Function.update_of_ne (ne_of_fresh hfresh hr), Function.update_of_ne hrp]
    exact hr
  refine ⟨hfresh, hinv', ⟨fun hr hrp ↦ hkept hr hrp, fun {r k i} hr hrp hi ↦ ?_, hbottom⟩,
    fun i hi ↦ ?_⟩
  · rw [hmem, memmove_apply, if_neg]
    rintro ⟨h₁, h₂⟩
    exact hinv'.apart (Function.update_self q _ _) (hkept hr hrp) (ne_of_fresh hfresh hr).symm
      h₁ (by omega) ⟨Nat.le_add_right _ _, Nat.add_lt_add_left hi r⟩
  · rw [hmem, memmove_apply, if_pos ⟨Nat.le_add_right _ _, Nat.add_lt_add_left hi q⟩,
      Nat.add_sub_cancel_left]

end

/-! ## Contents -/

/-- The block of a buffer, and the bytes in it. -/
structure Stored (h : KernelHeap) (live : LiveBlocks) (size : Nat) (s : Buffer)
    (bytes : List UInt8) : Prop where
  pos : 0 < s.capacity
  block : live s.contents = some (size * s.capacity)
  length : bytes.length = size * s.len
  len_le : s.len ≤ s.capacity
  mem : (h.mem.drop s.contents).take bytes.length = bytes

/-- A buffer of elements of `size` bytes has these bytes. -/
def Holds (h : KernelHeap) (live : LiveBlocks) (size : Nat) (s : Buffer) (bytes : List UInt8) :
    Prop :=
  s.capacity = 0 ∧ bytes = [] ∨ Stored h live size s bytes

/-- The block at an address is the buffer's. -/
def Buffer.Owns (s : Buffer) (p : Nat) : Prop := 0 < s.capacity ∧ p = s.contents

/-- `s'` is `s` with `c` appended. -/
structure Appended (h h' : KernelHeap) (live live' : LiveBlocks) (size : Nat) (s s' : Buffer)
    (bytes c : List UInt8) : Prop where
  inv : HeapInv h'.allocator live'
  stored : Stored h' live' size s' (bytes ++ c)
  frame : Frame h h' live live' s.Owns
  fresh : ∀ {p n}, live p = some n → ¬ s.Owns p → p ≠ s'.contents

/-- `s'` has a block, perhaps instead of the one that `s` had, and no other block comes or
goes. -/
def BlockMoved (live live' : LiveBlocks) (s s' : Buffer) : Prop :=
  ∀ p, s'.Owns p ∨ (s.Owns p ∧ live' p = none) ∨ (¬ s.Owns p ∧ live' p = live p)

section

variable {h h' h₁ : KernelHeap} {live live' : LiveBlocks} {own : Nat → Prop} {s s' : Buffer}
  {size p : Nat} {bytes c : List UInt8}

theorem holds_zero (h : KernelHeap) (live : LiveBlocks) (size : Nat) :
    Holds h live size .zero [] := .inl ⟨rfl, rfl⟩

/-- A buffer keeps what it has while others work on their blocks. -/
theorem Stored.frame (hs : Stored h live size s bytes) (hf : Frame h h' live live' own)
    (hno : ¬ own s.contents) : Stored h' live' size s bytes where
  pos := hs.pos
  block := hf.kept hs.block hno
  length := hs.length
  len_le := hs.len_le
  mem := by
    conv_rhs => rw [← hs.mem]
    apply Bytes.take_congr
    intro i hi
    refine hf.same hs.block hno (lt_of_lt_of_le hi ?_)
    rw [hs.length]
    exact Nat.mul_le_mul_left _ hs.len_le

theorem Holds.frame (hs : Holds h live size s bytes) (hf : Frame h h' live live' own)
    (hno : ∀ {p}, s.Owns p → ¬ own p) : Holds h' live' size s bytes := by
  rcases hs with hnone | hstored
  · exact .inl hnone
  · exact .inr (hstored.frame hf (hno ⟨hstored.pos, rfl⟩))

/-- An element stored behind the others of a block that has room for it. -/
theorem stored_store {len capacity : Nat} (hblock : live p = some (c.length * capacity))
    (hlength : bytes.length = c.length * len) (hlt : len < capacity)
    (hmem : (h.mem.drop p).take bytes.length = bytes) :
    Stored (h.store (p + c.length * len) c) live c.length ⟨len + 1, capacity, p⟩ (bytes ++ c) where
  pos := Nat.lt_of_le_of_lt (Nat.zero_le _) hlt
  block := hblock
  length := by rw [List.length_append, hlength, Nat.mul_succ]
  len_le := hlt
  mem := by
    rw [List.length_append, Bytes.take_add]
    congr 1
    · conv_rhs => rw [← hmem]
      apply Bytes.take_congr
      intro i hi
      apply Bytes.splice_of_notMem
      rintro ⟨hle, -⟩
      have : c.length * len ≤ i := Nat.le_of_add_le_add_left hle
      omega
    · rw [Bytes.drop_drop, hlength]
      exact Bytes.take_splice _ _ _

/-- An element stored in a block that is the buffer's, or none of the others. -/
theorem appended_store {live₁ : LiveBlocks} {len capacity : Nat}
    (hinv : HeapInv h₁.allocator live₁) (hblock : live₁ p = some (c.length * capacity))
    (hlength : bytes.length = c.length * len) (hlt : len < capacity)
    (hmem : (h₁.mem.drop p).take bytes.length = bytes) (hf : Frame h h₁ live live₁ s.Owns)
    (hapart : ∀ {q n}, live q = some n → ¬ s.Owns q → q ≠ p) :
    Appended h (h₁.store (p + c.length * len) c) live live₁ c.length s ⟨len + 1, capacity, p⟩
      bytes c where
  inv := hinv
  stored := stored_store hblock hlength hlt hmem
  frame := by
    have hin : c.length * len + c.length ≤ c.length * capacity := by
      rw [← Nat.mul_succ]
      exact Nat.mul_le_mul_left c.length hlt
    exact hf.trans (hinv.frame_store hblock hin) hapart
  fresh := hapart

/-- The first element goes to a block of its own. -/
theorem appended_first (hinv : HeapInv h.allocator live) (hc : 0 < c.length)
    (hlt : 2 * c.length < 2 ^ 32) (hcap : s.capacity = 0)
    (hk : kcalloc h 2 c.length = .ok (p, h₁)) :
    ∃ live', Appended h (h₁.store p c) live live' c.length s ⟨1, 2, p⟩ [] c ∧
      BlockMoved live live' s ⟨1, 2, p⟩ := by
  obtain ⟨hfresh, hinv₁, hf⟩ := hinv.kcalloc_ok (Nat.mul_pos Nat.two_pos hc) hlt hk
  have hp : Function.update live p (some (2 * c.length)) p = some (c.length * 2) := by
    rw [Function.update_self, Nat.mul_comm]
  have hempty : ([] : List UInt8).length = c.length * 0 := rfl
  refine ⟨_, appended_store hinv₁ hp hempty Nat.two_pos rfl (hf.mono False.elim)
    fun hq _ ↦ ne_of_fresh hfresh hq, fun q ↦ ?_⟩
  by_cases hq : q = p
  · exact .inl ⟨Nat.two_pos, hq⟩
  · exact .inr (.inr ⟨fun hown ↦ hown.1.ne' hcap, Function.update_of_ne hq _ _⟩)

/-- Where the block is full, the elements move to one of twice the size. -/
theorem appended_grown (hinv : HeapInv h.allocator live) (hc : 0 < c.length)
    (hs : Stored h live c.length s bytes)
    (hk : krealloc h s.contents (c.length * (s.capacity * 2)) = .ok (p, h₁)) :
    ∃ live', Appended h (h₁.store (p + c.length * s.len) c) live live' c.length s
        ⟨s.len + 1, s.capacity * 2, p⟩ bytes c ∧
      BlockMoved live live' s ⟨s.len + 1, s.capacity * 2, p⟩ := by
  have howns : s.Owns s.contents := ⟨hs.pos, rfl⟩
  have hcap : 0 < s.capacity * 2 := Nat.mul_pos hs.pos Nat.two_pos
  have hroom : s.len < s.capacity * 2 := by
    have hle := hs.len_le
    omega
  have hgrow : c.length * s.capacity ≤ c.length * (s.capacity * 2) :=
    Nat.mul_le_mul_left _ (Nat.le_mul_of_pos_right _ Nat.two_pos)
  obtain ⟨hfresh, hinv₁, hf, hmoved⟩ := hinv.krealloc_ok hs.block (Nat.mul_pos hc hcap) hgrow hk
  have hmem : (h₁.mem.drop p).take bytes.length = bytes := by
    conv_rhs => rw [← hs.mem]
    apply Bytes.take_congr
    intro i hi
    refine hmoved i (lt_of_lt_of_le hi ?_)
    rw [hs.length]
    exact Nat.mul_le_mul_left _ hs.len_le
  have hp := Function.update_self p (some (c.length * (s.capacity * 2)))
    (Function.update live s.contents none)
  refine ⟨_, appended_store hinv₁ hp hs.length hroom hmem (hf.mono fun heq ↦ heq ▸ howns)
    fun hq _ ↦ ne_of_fresh hfresh hq, fun q ↦ ?_⟩
  by_cases hq : q = p
  · exact .inl ⟨hcap, hq⟩
  · rw [Function.update_of_ne hq]
    by_cases hold : q = s.contents
    · subst hold
      exact .inr (.inl ⟨howns, Function.update_self _ _ _⟩)
    · exact .inr (.inr ⟨fun hown ↦ hold hown.2, Function.update_of_ne hold _ _⟩)

/-- Where the block has room, it stays. -/
theorem appended_room (hinv : HeapInv h.allocator live) (hs : Stored h live c.length s bytes)
    (hroom : s.len < s.capacity) :
    Appended h (h.store (s.contents + c.length * s.len) c) live live c.length s
        { s with len := s.len + 1 } bytes c ∧
      BlockMoved live live s { s with len := s.len + 1 } := by
  refine ⟨appended_store hinv hs.block hs.length hroom hs.mem (Frame.refl h live _) ?_,
    fun q ↦ ?_⟩
  · rintro q n - hno rfl
    exact hno ⟨hs.pos, rfl⟩
  · by_cases hold : q = s.contents
    · exact .inl ⟨hs.pos, hold⟩
    · exact .inr (.inr ⟨fun hown ↦ hold hown.2, rfl⟩)

/-- **What `APPEND` does**: the buffer gets one more element, and other blocks are as
before. -/
theorem append_spec (hinv : HeapInv h.allocator live) (hsize : c.length = size) (hc : 0 < size)
    (hlt : 2 * size < 2 ^ 32) (hs : Holds h live size s bytes)
    (ha : append h s c = .ok (s', h')) :
    ∃ live', Appended h h' live live' size s s' bytes c ∧ BlockMoved live live' s s' := by
  subst hsize
  rw [append] at ha
  split at ha
  · -- there is no block yet
    rename_i hcap
    have hbytes : bytes = [] := by
      rcases hs with hnone | hstored
      · exact hnone.2
      · exact absurd hcap hstored.pos.ne'
    subst hbytes
    simp only [bind_eq_ok, Prod.exists] at ha
    obtain ⟨p, h₁, hk, ha⟩ := ha
    cases ha
    exact appended_first hinv hc hlt hcap hk
  · rename_i hcap
    have hstored : Stored h live c.length s bytes := hs.resolve_left fun hnone ↦ hcap hnone.1
    split at ha
    · -- the block is full
      have hle : c.length * s.capacity ≤ scannedBits := hinv.length_le hstored.block
      have hdouble : c.length * s.capacity * 2 % 2 ^ 32 = c.length * (s.capacity * 2) := by
        rw [Nat.mod_eq_of_lt, Nat.mul_assoc]
        exact lt_of_le_of_lt (Nat.mul_le_mul_right 2 hle) (by decide)
      rw [hdouble] at ha
      simp only [bind_eq_ok, Prod.exists] at ha
      obtain ⟨p, h₁, hk, ha⟩ := ha
      cases ha
      exact appended_grown hinv hc hstored hk
    · rename_i hroom
      cases ha
      exact ⟨live, appended_room hinv hstored (lt_of_le_of_ne hstored.len_le hroom)⟩

/-- The buffer after `APPEND`. -/
theorem append_ok (hinv : HeapInv h.allocator live) (hsize : c.length = size) (hc : 0 < size)
    (hlt : 2 * size < 2 ^ 32) (hs : Holds h live size s bytes)
    (ha : append h s c = .ok (s', h')) :
    ∃ live', Appended h h' live live' size s s' bytes c := by
  obtain ⟨live', happended, -⟩ := append_spec hinv hsize hc hlt hs ha
  exact ⟨live', happended⟩

end

end Yorha.Heap
