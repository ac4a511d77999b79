import Yorha.Lib.Bytes

/-!
# Descriptor tables

The two tables that `interrupts.c` gives to the processor: the segments (`gdt`) and the gates
(`idt`), entry by entry as the code packs them, and what the processor reads in the eight bytes
of an entry.

`segment_gdtSetGate` and `gate_idtSetGate` are the round trips, with every other entry of the
table as it was.  From them comes what the processor does with each of the 256 vectors when
`main` has installed everything (`deliver_install`).  Every gate is given the privilege of user
code, whatever flags `idt_set_gate` was called with.
-/

namespace Yorha.Cpu

open Yorha.Lib

/-! ## Entries of eight bytes -/

/-- The number in eight bytes, least significant first. -/
def quad (m : Bytes) : Nat := m.word + 2 ^ 32 * (m.drop 4).word

/-- The two bytes of a halfword, least significant first. -/
def halfBytes (n : Nat) : List UInt8 := [UInt8.ofNat n, UInt8.ofNat (n / 2 ^ 8)]

/-- The entries of a table, one after the other. -/
def tableBytes {α : Type} (bytes : α → List UInt8) (table : List α) : Bytes :=
  Bytes.ofList (table.flatMap bytes)

section

variable {α : Type} {bytes : α → List UInt8}

/-- Behind the entries before it, an entry is at the start. -/
theorem drop_tableBytes (hlen : ∀ a, (bytes a).length = 8) (table : List α) (i : Nat) :
    (tableBytes bytes table).drop (8 * i) = tableBytes bytes (table.drop i) := by
  induction table generalizing i with
  | nil =>
      funext k
      rw [List.drop_nil]
      rfl
  | cons a table ih =>
      cases i with
      | zero => exact Bytes.drop_zero _
      | succ i =>
          have hoff : 8 * (i + 1) = (bytes a).length + 8 * i := by
            rw [hlen, Nat.mul_succ, Nat.add_comm]
          rw [hoff, ← Bytes.drop_drop, tableBytes, List.flatMap_cons, Bytes.drop_ofList_append,
            List.drop_succ_cons]
          exact ih i

/-- The processor reads of an entry what its own eight bytes are. -/
theorem quad_tableBytes (hlen : ∀ a, (bytes a).length = 8) {table : List α} {i : Nat}
    (hi : i < table.length) :
    quad ((tableBytes bytes table).drop (8 * i)) = quad (Bytes.ofList (bytes table[i])) := by
  have hcons : table.drop i = table[i] :: table.drop (i + 1) := List.drop_eq_getElem_cons hi
  have hbyte : ∀ k < 8, tableBytes bytes (table.drop i) k = Bytes.ofList (bytes table[i]) k := by
    intro k hk
    rw [tableBytes, hcons, List.flatMap_cons, Bytes.ofList, Bytes.ofList,
      List.getD_eq_getElem?_getD, List.getD_eq_getElem?_getD,
      List.getElem?_append_left (by rw [hlen]; exact hk)]
  have hlow : (tableBytes bytes (table.drop i)).word = (Bytes.ofList (bytes table[i])).word :=
    Bytes.word_congr fun k hk ↦ hbyte k (by omega)
  have hhigh : ((tableBytes bytes (table.drop i)).drop 4).word =
      ((Bytes.ofList (bytes table[i])).drop 4).word :=
    Bytes.word_congr fun k hk ↦ hbyte (4 + k) (by omega)
  rw [drop_tableBytes hlen, quad, quad, hlow, hhigh]

end

/-! ## The segments -/

/-- `GDTEntry`. -/
structure GdtEntry where
  limitLow : UInt16
  baseLow : UInt16
  baseMiddle : UInt8
  access : UInt8
  granularity : UInt8
  baseHigh : UInt8

/-- The entry in memory; it is packed. -/
def GdtEntry.bytes (e : GdtEntry) : List UInt8 :=
  halfBytes e.limitLow.toNat ++ halfBytes e.baseLow.toNat ++
    [e.baseMiddle, e.access, e.granularity, e.baseHigh]

/-- `gdt`. -/
abbrev Gdt := Vector GdtEntry 6

/-- `gdt_set_gate`. -/
def gdtSetGate (gdt : Gdt) (num base limit : Nat) (access gran : UInt8) : Gdt :=
  gdt.setIfInBounds num
    { baseLow := UInt16.ofNat (base &&& 0xFFFF)
      baseMiddle := UInt8.ofNat (base >>> 16 &&& 0xFF)
      baseHigh := UInt8.ofNat (base >>> 24 &&& 0xFF)
      limitLow := UInt16.ofNat (limit &&& 0xFFFF)
      granularity := UInt8.ofNat (limit >>> 16 &&& 0x0F) ||| (gran &&& 0xF0)
      access := access }

/-- `GDTPtr` and `IDTPointer`, without the address. -/
structure TablePointer where
  limit : Nat

/-- `gdt_install`: the table, and `gp.limit`, which leaves out the last entry. -/
def gdtInstall (gdt : Gdt) : Gdt × TablePointer :=
  let gdt := gdtSetGate gdt 0 0 0 0 0
  let gdt := gdtSetGate gdt 1 0 0xFFFFFFFF 0x9A 0xCF
  let gdt := gdtSetGate gdt 2 0 0xFFFFFFFF 0x92 0xCF
  let gdt := gdtSetGate gdt 3 0 0xFFFFFFFF 0xFA 0xCF
  let gdt := gdtSetGate gdt 4 0 0xFFFFFFFF 0xF2 0xCF
  (gdt, ⟨8 * 5 - 1⟩)

/-- What the processor reads in a segment descriptor. -/
structure Segment where
  base : Nat
  limit : Nat
  access : Nat
  flags : Nat
deriving DecidableEq

/-- The fields of a segment descriptor. -/
def segmentOf (d : Nat) : Segment where
  base := d / 2 ^ 16 % 2 ^ 24 + 2 ^ 24 * (d / 2 ^ 56 % 2 ^ 8)
  limit := d % 2 ^ 16 + 2 ^ 16 * (d / 2 ^ 48 % 2 ^ 4)
  access := d / 2 ^ 40 % 2 ^ 8
  flags := d / 2 ^ 52 % 2 ^ 4

/-- Segment `i` of the table. -/
def Gdt.segment (gdt : Gdt) (i : Nat) : Segment :=
  segmentOf (quad ((tableBytes GdtEntry.bytes gdt.toList).drop (8 * i)))

/-! ## The gates -/

/-- `IDTEntry`. -/
structure IdtEntry where
  baseLow : UInt16
  sel : UInt16
  zero : UInt8
  flags : UInt8
  baseHigh : UInt16

/-- The entry in memory; it is packed. -/
def IdtEntry.bytes (e : IdtEntry) : List UInt8 :=
  halfBytes e.baseLow.toNat ++ halfBytes e.sel.toNat ++ [e.zero, e.flags] ++
    halfBytes e.baseHigh.toNat

/-- `idt`. -/
abbrev Idt := Vector IdtEntry 256

/-- `idt_set_gate`. -/
def idtSetGate (idt : Idt) (num base : Nat) (sel : UInt16) (flags : UInt8) : Idt :=
  idt.setIfInBounds (num % 2 ^ 8)
    { baseLow := UInt16.ofNat (base &&& 0xFFFF)
      baseHigh := UInt16.ofNat (base >>> 16 &&& 0xFFFF)
      sel := sel
      zero := 0
      flags := flags ||| 0x60 }

/-- `idt_install`: the table is cleared. -/
def idtInstall (_ : Idt) : Idt × TablePointer :=
  (Vector.replicate 256 ⟨0, 0, 0, 0, 0⟩, ⟨8 * 256 - 1⟩)

/-- The tables that the processor was given. -/
structure Tables where
  gdt : Gdt
  gp : TablePointer
  idt : Idt
  idtp : TablePointer

/-- The addresses of `isr0` to `isr31`, of `irq0` to `irq15`, and of `isr80`. -/
structure Stubs where
  isr : Nat → Nat
  irq : Nat → Nat
  isr80 : Nat

/-- `isrs_install`, one call of `idt_set_gate` after the other. -/
def isrsInstall (stubs : Stubs) (idt : Idt) : Idt :=
  (List.range 32).foldl (fun idt i ↦ idtSetGate idt i (stubs.isr i) 0x08 0x8E) idt

/-- The gates of `irq_install`. -/
def irqGates (stubs : Stubs) (idt : Idt) : Idt :=
  let idt := (List.range 16).foldl
    (fun idt i ↦ idtSetGate idt (32 + i) (stubs.irq i) 0x08 0x8E) idt
  idtSetGate idt 80 stubs.isr80 0x08 0x8E

/-- What `main` does with the tables before it turns interrupts on. -/
def install (stubs : Stubs) (gdt : Gdt) (idt : Idt) : Tables :=
  let (gdt, gp) := gdtInstall gdt
  let (idt, idtp) := idtInstall idt
  let idt := isrsInstall stubs idt
  let idt := irqGates stubs idt
  ⟨gdt, gp, idt, idtp⟩

/-- What the processor reads in a gate. -/
structure Gate where
  offset : Nat
  selector : Nat
  flags : Nat
deriving DecidableEq

/-- The fields of a gate. -/
def gateOf (d : Nat) : Gate where
  offset := d % 2 ^ 16 + 2 ^ 16 * (d / 2 ^ 48 % 2 ^ 16)
  selector := d / 2 ^ 16 % 2 ^ 16
  flags := d / 2 ^ 40 % 2 ^ 8

/-- Gate `i` of the table. -/
def Idt.gate (idt : Idt) (i : Nat) : Gate :=
  gateOf (quad ((tableBytes IdtEntry.bytes idt.toList).drop (8 * i)))

/-! ## The processor -/

/-- Bit `k` of a byte of flags. -/
def flagSet (flags k : Nat) : Bool := flags / 2 ^ k % 2 == 1

/-- The privilege level in the flags of a descriptor. -/
def privilege (flags : Nat) : Nat := flags / 2 ^ 5 % 4

/-- The gate is present and leads to a handler: an interrupt gate or a trap gate. -/
def Gate.usable (gate : Gate) : Bool :=
  flagSet gate.flags 7 && (gate.flags % 2 ^ 5 == 0x0E || gate.flags % 2 ^ 5 == 0x0F)

/-- The segment is present and has code. -/
def Segment.code (segment : Segment) : Bool :=
  flagSet segment.access 7 && flagSet segment.access 4 && flagSet segment.access 3

/-- Where the processor goes for vector `n`, if it does not fault, when code of privilege `cpl`
runs; `software` is whether an `int` instruction asked. -/
def Tables.deliver (t : Tables) (cpl : Fin 4) (software : Bool) (n : UInt8) : Option Nat :=
  let gate := t.idt.gate n.toNat
  let segment := t.gdt.segment (gate.selector / 8)
  if t.idtp.limit < 8 * n.toNat + 7 ∨ ¬ gate.usable then none
  else if software ∧ privilege gate.flags < cpl then none
  else if t.gp.limit < 8 * (gate.selector / 8) + 7 ∨ ¬ segment.code then none
  else if cpl < privilege segment.access then none
  else some ((segment.base + gate.offset) % 2 ^ 32)

/-! ## Round trips -/

section

variable {i j num base limit : Nat}

theorem length_gdtBytes (e : GdtEntry) : e.bytes.length = 8 := rfl

theorem length_idtBytes (e : IdtEntry) : e.bytes.length = 8 := rfl

theorem segment_eq (gdt : Gdt) (hi : i < 6) :
    gdt.segment i = segmentOf (quad (Bytes.ofList gdt[i].bytes)) := by
  rw [Gdt.segment, quad_tableBytes length_gdtBytes (by simpa using hi), Vector.getElem_toList]

theorem gate_eq (idt : Idt) (hi : i < 256) :
    idt.gate i = gateOf (quad (Bytes.ofList idt[i].bytes)) := by
  rw [Idt.gate, quad_tableBytes length_idtBytes (by simpa using hi), Vector.getElem_toList]

/-- The eight bytes of a segment descriptor as one number. -/
theorem quad_gdtBytes (e : GdtEntry) : quad (Bytes.ofList e.bytes) =
    e.limitLow.toNat + 2 ^ 16 * e.baseLow.toNat + 2 ^ 32 * e.baseMiddle.toNat +
      2 ^ 40 * e.access.toNat + 2 ^ 48 * e.granularity.toNat + 2 ^ 56 * e.baseHigh.toNat := by
  have h₁ := e.limitLow.toNat_lt
  have h₂ := e.baseLow.toNat_lt
  simp only [quad, Bytes.word, Bytes.drop, Bytes.ofList, GdtEntry.bytes, halfBytes,
    List.cons_append, List.nil_append, List.getD_cons_zero, List.getD_cons_succ,
    UInt8.toNat_ofNat', Nat.add_zero, Nat.reduceAdd]
  omega

/-- The eight bytes of a gate as one number. -/
theorem quad_idtBytes (e : IdtEntry) : quad (Bytes.ofList e.bytes) =
    e.baseLow.toNat + 2 ^ 16 * e.sel.toNat + 2 ^ 32 * e.zero.toNat + 2 ^ 40 * e.flags.toNat +
      2 ^ 48 * e.baseHigh.toNat := by
  have h₁ := e.baseLow.toNat_lt
  have h₂ := e.sel.toNat_lt
  have h₃ := e.baseHigh.toNat_lt
  simp only [quad, Bytes.word, Bytes.drop, Bytes.ofList, IdtEntry.bytes, halfBytes,
    List.cons_append, List.nil_append, List.getD_cons_zero, List.getD_cons_succ,
    UInt8.toNat_ofNat', Nat.add_zero, Nat.reduceAdd]
  omega

/-- Two nibbles in a byte. -/
theorem nibbles (gran : UInt8) (hi : i < 16) :
    (UInt8.ofNat i ||| (gran &&& 0xF0)).toNat = i + 16 * (gran.toNat / 16) := by
  have hgran : ∀ g < 256, g &&& 0xF0 = 2 ^ 4 * (g / 16) := by decide +kernel
  have hlow : (UInt8.ofNat i).toNat = i := by
    rw [UInt8.toNat_ofNat', Nat.mod_eq_of_lt (by omega)]
  have hhigh : (gran &&& 0xF0).toNat = 2 ^ 4 * (gran.toNat / 16) := by
    rw [UInt8.toNat_and]
    exact hgran _ gran.toNat_lt
  rw [UInt8.toNat_or, hlow, hhigh, Nat.or_comm, ← Nat.two_pow_add_eq_or_of_lt (by omega),
    Nat.add_comm]

/-- The fields of a segment descriptor that was put together from them. -/
theorem segmentOf_fields {low b m a g h : Nat} (hlow : low < 2 ^ 16) (hb : b < 2 ^ 16)
    (hm : m < 2 ^ 8) (ha : a < 2 ^ 8) (hg : g < 2 ^ 8) (hh : h < 2 ^ 8) :
    segmentOf (low + 2 ^ 16 * b + 2 ^ 32 * m + 2 ^ 40 * a + 2 ^ 48 * g + 2 ^ 56 * h) =
      ⟨b + 2 ^ 16 * m + 2 ^ 24 * h, low + 2 ^ 16 * (g % 2 ^ 4), a, g / 2 ^ 4⟩ := by
  rw [segmentOf, Segment.mk.injEq]
  refine ⟨?_, ?_, ?_, ?_⟩
  · omega
  · omega
  · omega
  · omega

/-- The fields of a gate that was put together from them. -/
theorem gateOf_fields {low sel flags high : Nat} (hlow : low < 2 ^ 16) (hsel : sel < 2 ^ 16)
    (hflags : flags < 2 ^ 8) (hhigh : high < 2 ^ 16) :
    gateOf (low + 2 ^ 16 * sel + 2 ^ 32 * 0 + 2 ^ 40 * flags + 2 ^ 48 * high) =
      ⟨low + 2 ^ 16 * high, sel, flags⟩ := by
  rw [gateOf, Gate.mk.injEq]
  refine ⟨?_, ?_, ?_⟩
  · omega
  · omega
  · omega

theorem and_ffff (n : Nat) : n &&& 0xFFFF = n % 2 ^ 16 := Nat.and_two_pow_sub_one_eq_mod n 16

theorem and_ff (n : Nat) : n &&& 0xFF = n % 2 ^ 8 := Nat.and_two_pow_sub_one_eq_mod n 8

/-- **The round trip of a segment**: for every base, limit and flags, the processor reads in
the entry the base, the low 20 bits of the limit, the access byte and the high half of the
granularity byte.  Every other segment is what it was. -/
theorem segment_gdtSetGate (gdt : Gdt) (base limit : Nat) (access gran : UInt8)
    (hnum : num < 6) (hj : j < 6) :
    (gdtSetGate gdt num base limit access gran).segment j =
      if j = num then ⟨base % 2 ^ 32, limit % 2 ^ 20, access.toNat, gran.toNat / 2 ^ 4⟩
      else gdt.segment j := by
  rw [segment_eq _ hj]
  by_cases hjn : j = num
  · subst hjn
    have hnibble : limit / 2 ^ 16 &&& 0x0F = limit / 2 ^ 16 % 2 ^ 4 :=
      Nat.and_two_pow_sub_one_eq_mod _ 4
    have hgran := nibbles gran (i := limit / 2 ^ 16 % 2 ^ 4) (by omega)
    have hgran' := gran.toNat_lt
    rw [if_pos rfl, quad_gdtBytes, segmentOf_fields (UInt16.toNat_lt _) (UInt16.toNat_lt _)
      (UInt8.toNat_lt _) (UInt8.toNat_lt _) (UInt8.toNat_lt _) (UInt8.toNat_lt _)]
    simp only [gdtSetGate, Vector.getElem_setIfInBounds_self, and_ffff, and_ff, hnibble, hgran,
      Nat.shiftRight_eq_div_pow, UInt8.toNat_ofNat', UInt16.toNat_ofNat', Segment.mk.injEq]
    refine ⟨?_, ?_, trivial, ?_⟩
    · omega
    · omega
    · omega
  · rw [if_neg hjn, segment_eq _ hj]
    simp only [gdtSetGate, Vector.getElem_setIfInBounds_ne hj (Ne.symm hjn)]

/-- **The round trip of a gate**: the processor reads the address and the selector, and flags
with the privilege of user code. -/
theorem gate_idtSetGate (idt : Idt) (base : Nat) (sel : UInt16) (flags : UInt8)
    (hnum : num < 256) (hj : j < 256) :
    (idtSetGate idt num base sel flags).gate j =
      if j = num then ⟨base % 2 ^ 32, sel.toNat, (flags ||| 0x60).toNat⟩ else idt.gate j := by
  have hmod : num % 2 ^ 8 = num := Nat.mod_eq_of_lt hnum
  rw [gate_eq _ hj]
  by_cases hjn : j = num
  · subst hjn
    have hzero : (0 : UInt8).toNat = 0 := rfl
    rw [if_pos rfl, quad_idtBytes]
    simp only [idtSetGate, hmod, Vector.getElem_setIfInBounds_self]
    rw [hzero, gateOf_fields (UInt16.toNat_lt _) (UInt16.toNat_lt _) (UInt8.toNat_lt _)
      (UInt16.toNat_lt _)]
    simp only [and_ffff, Nat.shiftRight_eq_div_pow, UInt16.toNat_ofNat', Gate.mk.injEq]
    refine ⟨?_, trivial, trivial⟩
    omega
  · rw [if_neg hjn, gate_eq _ hj]
    simp only [idtSetGate, hmod, Vector.getElem_setIfInBounds_ne hj (Ne.symm hjn)]

/-! ## Everything installed -/

/-- A run of calls of `idt_set_gate` for consecutive numbers. -/
theorem gate_foldl (idt : Idt) (base : Nat → Nat) (sel : UInt16) (flags : UInt8) (first : Nat)
    {n : Nat} (hn : first + n ≤ 256) (hj : j < 256) :
    Idt.gate ((List.range n).foldl
      (fun idt i ↦ idtSetGate idt (first + i) (base i) sel flags) idt) j =
      if first ≤ j ∧ j < first + n then
        ⟨base (j - first) % 2 ^ 32, sel.toNat, (flags ||| 0x60).toNat⟩
      else idt.gate j := by
  induction n with
  | zero =>
      rw [if_neg (by omega)]
      rfl
  | succ n ih =>
      rw [List.range_succ, List.foldl_append, List.foldl_cons, List.foldl_nil,
        gate_idtSetGate _ _ _ _ (by omega) hj, ih (by omega)]
      by_cases hjn : j = first + n
      · subst hjn
        rw [if_pos rfl, if_pos (by omega), Nat.add_sub_cancel_left]
      · rw [if_neg hjn]
        by_cases hin : first ≤ j ∧ j < first + n
        · rw [if_pos hin, if_pos (by omega)]
        · rw [if_neg hin, if_neg (by omega)]

/-- The gate of a stub. -/
def stubGate (addr : Nat) : Gate := ⟨addr % 2 ^ 32, 8, 0xEE⟩

/-- The stub that a vector is meant for. -/
def Stubs.address (stubs : Stubs) (n : Nat) : Option Nat :=
  if n < 32 then some (stubs.isr n)
  else if n < 48 then some (stubs.irq (n - 32))
  else if n = 80 then some stubs.isr80
  else none

theorem gate_replicate (hj : j < 256) :
    Idt.gate (Vector.replicate 256 ⟨0, 0, 0, 0, 0⟩) j = ⟨0, 0, 0⟩ := by
  rw [gate_eq _ hj, Vector.getElem_replicate]
  decide

/-- The gates that are installed. -/
theorem gate_install (stubs : Stubs) (gdt : Gdt) (idt : Idt) (hj : j < 256) :
    (install stubs gdt idt).idt.gate j =
      match stubs.address j with
      | some addr => stubGate addr
      | none => ⟨0, 0, 0⟩ := by
  have hisr := gate_foldl (Vector.replicate 256 ⟨0, 0, 0, 0, 0⟩) stubs.isr 0x08 0x8E 0
    (n := 32) (by omega) hj
  simp only [Nat.zero_add, Nat.zero_le, true_and, Nat.sub_zero] at hisr
  change (idtSetGate _ 80 stubs.isr80 0x08 0x8E).gate j = _
  rw [gate_idtSetGate _ _ _ _ (by decide) hj, gate_foldl _ _ _ _ _ (by decide) hj, isrsInstall,
    hisr, gate_replicate hj, Stubs.address]
  by_cases h80 : j = 80
  · subst h80
    rfl
  · by_cases h32 : j < 32
    · rw [if_neg h80, if_neg (by omega), if_pos h32, if_pos h32]
      rfl
    · by_cases h48 : j < 48
      · rw [if_neg h80, if_pos (by omega), if_neg h32, if_pos h48]
        rfl
      · rw [if_neg h80, if_neg (by omega), if_neg h32, if_neg h32, if_neg h48, if_neg h80]

/-- The code segment that is installed: the kernel's, of all addresses. -/
theorem segment_install (stubs : Stubs) (gdt : Gdt) (idt : Idt) :
    (install stubs gdt idt).gdt.segment 1 = ⟨0, 0xFFFFF, 0x9A, 0xC⟩ := by
  change (gdtSetGate (gdtSetGate (gdtSetGate (gdtSetGate _ 1 0 0xFFFFFFFF 0x9A 0xCF) 2 _ _ _ _)
    3 _ _ _ _) 4 _ _ _ _).segment 1 = _
  rw [segment_gdtSetGate _ _ _ _ _ (by decide) (by decide), if_neg (by decide),
    segment_gdtSetGate _ _ _ _ _ (by decide) (by decide), if_neg (by decide),
    segment_gdtSetGate _ _ _ _ _ (by decide) (by decide), if_neg (by decide),
    segment_gdtSetGate _ _ _ _ _ (by decide) (by decide), if_pos rfl]
  rfl

end

/-- **Every vector goes to its own stub.**  For every content that the tables had, all addresses
of the stubs, every privilege of the running code and every one of the 256 vectors: after what
`main` installs, the processor goes to the stub of the vector if it is below 48 or 80, and faults
otherwise.  It does so for an `int` instruction in user code as well as for a device.  That it takes
another stack when the privilege changes, from a task that the kernel does not set up, is not
modelled. -/
theorem deliver_install (stubs : Stubs) (gdt : Gdt) (idt : Idt) (cpl : Fin 4) (software : Bool)
    (n : UInt8) : (install stubs gdt idt).deliver cpl software n =
      (stubs.address n.toNat).map (· % 2 ^ 32) := by
  have hn := n.toNat_lt
  have hlimit : (install stubs gdt idt).idtp.limit = 2047 := rfl
  have hgp : (install stubs gdt idt).gp.limit = 39 := rfl
  have hcpl : (cpl : Nat) < 4 := cpl.isLt
  rw [Tables.deliver, gate_install stubs gdt idt hn]
  cases haddr : stubs.address n.toNat with
  | none => exact if_pos (.inr (by decide))
  | some addr =>
      have hflags : (stubGate addr).flags = 0xEE := rfl
      have hselector : (stubGate addr).selector = 8 := rfl
      have hoffset : (stubGate addr).offset = addr % 2 ^ 32 := rfl
      have husable : (stubGate addr).usable = true := by
        rw [Gate.usable, hflags]
        decide
      have huser : privilege 0xEE = 3 := by decide
      have hkernel : privilege 0x9A = 0 := by decide
      have hcode : Segment.code ⟨0, 0xFFFFF, 0x9A, 0xC⟩ = true := by decide
      simp only [hselector, hflags, hoffset, hlimit, hgp, husable, huser, hkernel, hcode,
        segment_install stubs gdt idt, not_true_eq_false, or_false]
      rw [if_neg (by omega), if_neg (by omega), if_neg (by omega), if_neg (by omega),
        Nat.zero_add, Nat.mod_mod]
      rfl

end Yorha.Cpu
