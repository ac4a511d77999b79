import Yorha.Lib.Arbiter

/-!
# The interrupt controllers

The two 8259 chips as the code programs them: the words of the initialization that `irq_remap`
writes to their ports, the masks, and the end of an interrupt.  The commands that the code never
sends, such as those that rotate priorities, are left out.

A chip is an `Arbiter` with the number of its first vector.  The request of the slave is a line
of the master, which line it is both chips are told by `irq_remap`.  The processor asks for the
vector of a request with an acknowledgement; where the request is gone by then, the master
answers with its last vector and serves nothing.
-/

namespace Yorha.Cpu

open Yorha.Lib

/-! ## The chips -/

/-- The word of the initialization that a chip expects next at its data port. -/
inductive Expects where
  | icw2 (cascaded icw4 : Bool)
  | icw3 (icw4 : Bool)
  | icw4
  | ready
deriving DecidableEq

/-- A chip. -/
structure Chip where
  lines : Arbiter 8
  base : UInt8
  cascade : UInt8
  autoEoi : Bool
  expects : Expects

/-- `PIC1_COMMAND`. -/
def pic1Command : Nat := 0x20

/-- `PIC1_DATA`. -/
def pic1Data : Nat := 0x21

/-- `PIC2_COMMAND`. -/
def pic2Command : Nat := 0xA0

/-- `PIC2_DATA`. -/
def pic2Data : Nat := 0xA1

/-- `PIC_EOI`. -/
def picEoi : UInt8 := 0x20

/-- `ICW1_INIT | ICW1_ICW4`. -/
def icw1InitIcw4 : UInt8 := 0x10 ||| 0x01

/-- `ICW4_8086`. -/
def icw4Mode8086 : UInt8 := 0x01

/-- Bit `i` of a byte. -/
def bitOf (v : UInt8) (i : Nat) : Bool := v.toNat.testBit i

/-- A byte written to the command port. -/
def Chip.command (c : Chip) (v : UInt8) : Chip :=
  if bitOf v 4 then
    -- the initialization begins
    { c with
      lines := ⟨fun _ ↦ false, fun _ ↦ false, fun _ ↦ false⟩
      autoEoi := false
      expects := .icw2 (!bitOf v 1) (bitOf v 0) }
  else if v = picEoi then { c with lines := c.lines.finish }
  else c

/-- A byte written to the data port. -/
def Chip.data (c : Chip) (v : UInt8) : Chip :=
  match c.expects with
  | .icw2 cascaded icw4 =>
      { c with
        base := v &&& 0xF8
        expects := if cascaded then .icw3 icw4 else if icw4 then .icw4 else .ready }
  | .icw3 icw4 => { c with cascade := v, expects := if icw4 then .icw4 else .ready }
  | .icw4 => { c with autoEoi := bitOf v 1, expects := .ready }
  | .ready => { c with lines := { c.lines with masked := fun i ↦ bitOf v i } }

/-- The service of a line begins, unless it ends by itself. -/
def Chip.serve (c : Chip) (i : Fin 8) : Chip :=
  if c.autoEoi then
    { c with lines := { c.lines with pending := Function.update c.lines.pending i false } }
  else { c with lines := c.lines.serve i }

/-- The two chips. -/
structure Pics where
  master : Chip
  slave : Chip

/-- A chip of which nothing was asked yet. -/
def Chip.zero : Chip := ⟨⟨fun _ ↦ false, fun _ ↦ false, fun _ ↦ false⟩, 0, 0, false, .ready⟩

namespace Pics

/-- A byte written to a port. -/
def outb (p : Pics) (port : Nat) (v : UInt8) : Pics :=
  if port = pic1Command then { p with master := p.master.command v }
  else if port = pic1Data then { p with master := p.master.data v }
  else if port = pic2Command then { p with slave := p.slave.command v }
  else if port = pic2Data then { p with slave := p.slave.data v }
  else p

/-- The lines of the master, among them the request of the slave. -/
def masterLines (p : Pics) : Arbiter 8 :=
  { p.master.lines with
    pending := fun i ↦
      if bitOf p.master.cascade i then p.slave.lines.request.isSome
      else p.master.lines.pending i }

/-- The processor's interrupt line. -/
def intr (p : Pics) : Bool := p.masterLines.request.isSome

/-- The vector of a line of a chip. -/
def vector (c : Chip) (i : Nat) : UInt8 := c.base + UInt8.ofNat i

/-- The processor acknowledges: the vector, and the chips when the service has begun. -/
def acknowledge (p : Pics) : UInt8 × Pics :=
  match p.masterLines.request with
  | none => (vector p.master 7, p)
  | some i =>
      let p := { p with master := p.master.serve i }
      if bitOf p.master.cascade i then
        match p.slave.lines.request with
        | none => (vector p.slave 7, p)
        | some j => (vector p.slave j, { p with slave := p.slave.serve j })
      else (vector p.master i, p)

/-- The service of a line begins, on both chips if it is the slave's. -/
def serve (p : Pics) (line : Fin 16) : Pics :=
  if h : line.val < 8 then { p with master := p.master.serve ⟨line, h⟩ }
  else { p with master := p.master.serve 2, slave := p.slave.serve ⟨line - 8, by omega⟩ }

/-- A device raises its line; the master has no device on the line that is the slave's. -/
def raise (p : Pics) (line : Fin 16) : Pics :=
  if h : line.val < 8 then
    if bitOf p.master.cascade line then p
    else { p with master := { p.master with lines := p.master.lines.raise ⟨line, h⟩ } }
  else { p with slave := { p.slave with
    lines := p.slave.lines.raise ⟨line - 8, by omega⟩ } }

/-- A device waits on the line. -/
def pending (p : Pics) (line : Fin 16) : Bool :=
  if h : line.val < 8 then
    !bitOf p.master.cascade line && p.master.lines.pending ⟨line, h⟩
  else p.slave.lines.pending ⟨line - 8, by omega⟩

end Pics

/-! ## The code -/

/-- `irq_remap`. -/
def irqRemap (offset1 offset2 : UInt8) (p : Pics) : Pics :=
  let p := p.outb pic1Command icw1InitIcw4
  let p := p.outb pic2Command icw1InitIcw4
  let p := p.outb pic1Data offset1
  let p := p.outb pic2Data offset2
  let p := p.outb pic1Data 4
  let p := p.outb pic2Data 2
  let p := p.outb pic1Data icw4Mode8086
  let p := p.outb pic2Data icw4Mode8086
  let p := p.outb pic1Data 0
  p.outb pic2Data 0

/-- `PIC_sendEOI`. -/
def picSendEoi (irq : Nat) (p : Pics) : Pics :=
  let p := if 8 ≤ irq then p.outb pic2Command picEoi else p
  p.outb pic1Command picEoi

/-! ## Chips that are set up -/

/-- A chip that `irq_remap` has set up. -/
structure Chip.SetUp (c : Chip) (base cascade : UInt8) : Prop where
  base : c.base = base
  cascade : c.cascade = cascade
  autoEoi : c.autoEoi = false
  expects : c.expects = .ready
  unmasked : c.lines.Open

/-- The chips that `irq_remap(0x20, 0x28)` has set up. -/
structure Pics.SetUp (p : Pics) : Prop where
  master : p.master.SetUp 0x20 4
  slave : p.slave.SetUp 0x28 2

/-- **`irq_remap`** sets up the chips, in whatever state it finds them: also in the middle of an
initialization. -/
theorem setUp_irqRemap (p : Pics) : (irqRemap 0x20 0x28 p).SetUp ∧
    (∀ line, (irqRemap 0x20 0x28 p).pending line = false) ∧
    (irqRemap 0x20 0x28 p).master.lines.Quiet ∧ (irqRemap 0x20 0x28 p).slave.lines.Quiet := by
  refine ⟨⟨⟨rfl, rfl, rfl, rfl, ?_⟩, ⟨rfl, rfl, rfl, rfl, ?_⟩⟩, fun line ↦ ?_, fun _ ↦ rfl,
    fun _ ↦ rfl⟩
  · intro i
    exact Nat.zero_testBit i
  · intro i
    exact Nat.zero_testBit i
  · rw [Pics.pending]
    split
    · exact Bool.and_false _
    · rfl

/-! ## Lines of both chips -/

/-- The line of the master with number `i`. -/
def low (i : Fin 8) : Fin 16 := ⟨i, by omega⟩

/-- The line of the slave with number `j`. -/
def high (j : Fin 8) : Fin 16 := ⟨8 + j, by omega⟩

/-- The lines that devices are on, in the order in which they are served. -/
def servedOrder : List (Fin 16) :=
  [low 0, low 1] ++ (List.finRange 8).map high ++ [low 3, low 4, low 5, low 6, low 7]

/-- The line that is served next. -/
def Pics.next (p : Pics) : Option (Fin 16) := servedOrder.find? p.pending

section

variable {p : Pics} {i j : Fin 8} {line line' : Fin 16}

theorem low_or_high (line : Fin 16) : (∃ i, line = low i) ∨ ∃ j, line = high j := by
  by_cases h : line.val < 8
  · exact .inl ⟨⟨line, h⟩, rfl⟩
  · exact .inr ⟨⟨line - 8, by omega⟩, Fin.ext (by simp only [high]; omega)⟩

theorem low_ne_high : low i ≠ high j := fun h ↦ by
  have hval := congrArg Fin.val h
  simp only [low, high] at hval
  omega

theorem low_inj : low i = low j ↔ i = j := by
  rw [Fin.ext_iff, Fin.ext_iff]
  rfl

theorem high_inj : high i = high j ↔ i = j := by
  rw [Fin.ext_iff, Fin.ext_iff]
  exact Nat.add_left_cancel_iff

theorem pending_low : p.pending (low i) = (!bitOf p.master.cascade i && p.master.lines.pending i) :=
  dif_pos i.isLt

theorem pending_high : p.pending (high j) = p.slave.lines.pending j := by
  have hnot : ¬ (high j).val < 8 := by
    simp only [high]
    omega
  rw [Pics.pending, dif_neg hnot]
  congr 1
  exact Fin.ext (by simp only [high]; omega)

theorem raise_low : p.raise (low i) = if bitOf p.master.cascade i then p
    else { p with master := { p.master with lines := p.master.lines.raise i } } := dif_pos i.isLt

theorem raise_high :
    p.raise (high j) = { p with slave := { p.slave with lines := p.slave.lines.raise j } } := by
  have hnot : ¬ (high j).val < 8 := by
    simp only [high]
    omega
  rw [Pics.raise, dif_neg hnot]
  have hsub : (⟨(high j).val - 8, by omega⟩ : Fin 8) = j := Fin.ext (by simp only [high]; omega)
  rw [hsub]

/-- The line of the master that is the slave's. -/
theorem Chip.SetUp.cascade_iff {c : Chip} (h : c.SetUp 0x20 4) (i : Fin 8) :
    bitOf c.cascade i = decide (i = 2) := by
  rw [h.cascade]
  revert i
  decide

/-- What a device's line is after a line was raised. -/
theorem pending_raise (line line' : Fin 16) (h : p.SetUp) :
    (p.raise line).pending line' = (p.pending line' || decide (line' = line ∧ line ≠ low 2)) := by
  have hcascade := h.master.cascade_iff
  rcases low_or_high line with ⟨i, rfl⟩ | ⟨j, rfl⟩
  · rw [raise_low, hcascade i]
    by_cases hi : i = 2
    · subst hi
      simp
    · rw [decide_eq_false hi, if_neg Bool.false_ne_true]
      have hlow : low i ≠ low 2 := fun h ↦ hi (low_inj.mp h)
      rcases low_or_high line' with ⟨i', rfl⟩ | ⟨j', rfl⟩
      · rw [pending_low, pending_low]
        change (!bitOf p.master.cascade i' && Function.update p.master.lines.pending i true i') = _
        by_cases heq : i' = i
        · subst heq
          rw [Function.update_self, hcascade i', decide_eq_false hi]
          simp [hlow]
        · have hne : low i' ≠ low i := fun h ↦ heq (low_inj.mp h)
          rw [Function.update_of_ne heq]
          simp [hne]
      · rw [pending_high, pending_high]
        simp [low_ne_high.symm]
  · rw [raise_high]
    rcases low_or_high line' with ⟨i', rfl⟩ | ⟨j', rfl⟩
    · rw [pending_low, pending_low]
      simp [low_ne_high]
    · rw [pending_high, pending_high]
      change Function.update p.slave.lines.pending j true j' = _
      by_cases heq : j' = j
      · subst heq
        rw [Function.update_self]
        simp [low_ne_high.symm]
      · have hne : high j' ≠ high j := fun h ↦ heq (high_inj.mp h)
        rw [Function.update_of_ne heq]
        simp [hne]

theorem setUp_raise (h : p.SetUp) : (p.raise line).SetUp := by
  rcases low_or_high line with ⟨i, rfl⟩ | ⟨j, rfl⟩
  · rw [raise_low]
    split
    · exact h
    · exact ⟨⟨h.master.base, h.master.cascade, h.master.autoEoi, h.master.expects,
        h.master.unmasked⟩, h.slave⟩
  · rw [raise_high]
    exact ⟨h.master, ⟨h.slave.base, h.slave.cascade, h.slave.autoEoi, h.slave.expects,
      h.slave.unmasked⟩⟩

/-- A line that is raised changes nothing in service. -/
theorem inService_raise : (p.raise line).master.lines.inService = p.master.lines.inService ∧
    (p.raise line).slave.lines.inService = p.slave.lines.inService := by
  rcases low_or_high line with ⟨i, rfl⟩ | ⟨j, rfl⟩
  · rw [raise_low]
    split
    · exact ⟨rfl, rfl⟩
    · exact ⟨rfl, rfl⟩
  · rw [raise_high]
    exact ⟨rfl, rfl⟩

/-! ## The end of an interrupt -/

theorem command_picEoi (c : Chip) : c.command picEoi = { c with lines := c.lines.finish } := rfl

theorem Chip.SetUp.finish {c : Chip} {base cascade : UInt8} (h : c.SetUp base cascade) :
    (c.command picEoi).SetUp base cascade where
  base := h.base
  cascade := h.cascade
  autoEoi := h.autoEoi
  expects := h.expects
  unmasked i := by
    rw [command_picEoi]
    change c.lines.finish.masked i = false
    rw [Arbiter.finish_masked]
    exact h.unmasked i

/-- Neither end of an interrupt changes what is pending. -/
theorem pending_eoi1 : (p.outb pic1Command picEoi).pending = p.pending := by
  funext line
  rcases low_or_high line with ⟨i, rfl⟩ | ⟨j, rfl⟩
  · rw [pending_low, pending_low]
    exact congrArg (!bitOf p.master.cascade i && ·) (congrFun (Arbiter.finish_pending _) i)
  · rw [pending_high, pending_high]
    rfl

theorem pending_eoi2 : (p.outb pic2Command picEoi).pending = p.pending := by
  funext line
  rcases low_or_high line with ⟨i, rfl⟩ | ⟨j, rfl⟩
  · rw [pending_low, pending_low]
    rfl
  · rw [pending_high, pending_high]
    exact congrFun (Arbiter.finish_pending _) j

/-! ## Acknowledgements -/

/-- The first line of the slave that waits. -/
theorem slave_request (h : p.SetUp) (hs : p.slave.lines.Quiet) :
    p.slave.lines.request = (List.finRange 8).find? p.slave.lines.pending :=
  Arbiter.request_eq hs h.slave.unmasked

/-- The first line of the master that waits, the slave among them. -/
theorem master_request (h : p.SetUp) (hm : p.master.lines.Quiet) :
    p.masterLines.request = (List.finRange 8).find? fun i ↦
      if i = 2 then p.slave.lines.request.isSome else p.master.lines.pending i := by
  have hquiet : p.masterLines.Quiet := hm
  have hopen : p.masterLines.Open := h.master.unmasked
  rw [Arbiter.request_eq hquiet hopen]
  congr 1
  funext i
  change (if bitOf p.master.cascade i then _ else _) = _
  rw [h.master.cascade_iff i]
  simp only [decide_eq_true_eq]

theorem serve_low : p.serve (low i) = { p with master := p.master.serve i } := dif_pos i.isLt

theorem serve_high : p.serve (high j) =
    { p with master := p.master.serve 2, slave := p.slave.serve j } := by
  have hnot : ¬ (high j).val < 8 := by
    simp only [high]
    omega
  rw [Pics.serve, dif_neg hnot]
  have hsub : (⟨(high j).val - 8, by omega⟩ : Fin 8) = j := Fin.ext (by simp only [high]; omega)
  rw [hsub]

theorem acknowledge_low (h : p.SetUp) (hi : i ≠ 2) (hreq : p.masterLines.request = some i) :
    p.acknowledge = (UInt8.ofNat (32 + i), p.serve (low i)) := by
  have hcascade : bitOf (p.master.serve i).cascade i = false := by
    rw [Chip.serve, h.master.autoEoi, if_neg Bool.false_ne_true]
    exact (h.master.cascade_iff i).trans (decide_eq_false hi)
  have hbase : (p.master.serve i).base = 0x20 := by
    rw [Chip.serve, h.master.autoEoi, if_neg Bool.false_ne_true]
    exact h.master.base
  have hvector : ∀ i : Fin 8, (0x20 : UInt8) + UInt8.ofNat i = UInt8.ofNat (32 + i) := by decide
  rw [Pics.acknowledge, hreq, serve_low]
  simp only [hcascade, Bool.false_eq_true, if_false, Pics.vector, hbase, hvector]

theorem acknowledge_high (h : p.SetUp) (hreq : p.masterLines.request = some 2)
    (hslave : p.slave.lines.request = some j) :
    p.acknowledge = (UInt8.ofNat (40 + j), p.serve (high j)) := by
  have hcascade : bitOf (p.master.serve 2).cascade (2 : Fin 8) = true := by
    rw [Chip.serve, h.master.autoEoi, if_neg Bool.false_ne_true]
    exact (h.master.cascade_iff 2).trans (decide_eq_true rfl)
  have hvector : ∀ j : Fin 8, (0x28 : UInt8) + UInt8.ofNat j = UInt8.ofNat (40 + j) := by decide
  rw [Pics.acknowledge, hreq, serve_high]
  simp only [hcascade, if_true, hslave, Pics.vector, h.slave.base, hvector]

/-- The next line, from the lines of the master before the slave's, those of the slave, and
those of the master behind. -/
theorem next_eq (h : p.SetUp) (hs : p.slave.lines.Quiet) :
    p.next = ((([0, 1] : List (Fin 8)).find? p.master.lines.pending).map low).or
      ((p.slave.lines.request.map high).or
        ((([3, 4, 5, 6, 7] : List (Fin 8)).find? p.master.lines.pending).map low)) := by
  have hlow : ∀ l : List (Fin 8), 2 ∉ l →
      (l.map low).find? p.pending = (l.find? p.master.lines.pending).map low := by
    intro l hl
    rw [List.find?_map]
    congr 1
    refine find?_congr fun i hi ↦ ?_
    have hi2 : i ≠ 2 := fun heq ↦ hl (heq ▸ hi)
    change p.pending (low i) = _
    rw [pending_low, h.master.cascade_iff, decide_eq_false hi2, Bool.not_false, Bool.true_and]
  have hhigh : ((List.finRange 8).map high).find? p.pending = p.slave.lines.request.map high := by
    rw [slave_request h hs, List.find?_map]
    congr 2
    funext j
    exact pending_high
  have horder : servedOrder = ([0, 1] : List (Fin 8)).map low ++
      ((List.finRange 8).map high ++ ([3, 4, 5, 6, 7] : List (Fin 8)).map low) := rfl
  rw [Pics.next, horder, List.find?_append, List.find?_append, hlow _ (by decide),
    hlow _ (by decide), hhigh]

/-- The request of the master, in the same way. -/
theorem request_split (h : p.SetUp) (hm : p.master.lines.Quiet) :
    p.masterLines.request = (([0, 1] : List (Fin 8)).find? p.master.lines.pending).or
      ((p.slave.lines.request.map fun _ ↦ (2 : Fin 8)).or
        (([3, 4, 5, 6, 7] : List (Fin 8)).find? p.master.lines.pending)) := by
  have hother : ∀ l : List (Fin 8), 2 ∉ l →
      (l.find? fun i ↦ if i = 2 then p.slave.lines.request.isSome
        else p.master.lines.pending i) = l.find? p.master.lines.pending := by
    intro l hl
    refine find?_congr fun i hi ↦ ?_
    have hi2 : i ≠ 2 := fun heq ↦ hl (heq ▸ hi)
    exact if_neg hi2
  have horder : List.finRange 8 = [0, 1] ++ ([2] ++ [3, 4, 5, 6, 7]) := by decide
  have hslave : (([2] : List (Fin 8)).find? fun i ↦ if i = 2 then p.slave.lines.request.isSome
      else p.master.lines.pending i) = p.slave.lines.request.map fun _ ↦ 2 := by
    cases hreq : p.slave.lines.request with
    | none => rfl
    | some j => rfl
  rw [master_request h hm, horder, List.find?_append, List.find?_append, hslave,
    hother _ (by decide), hother _ (by decide)]

/-- **The line that is granted service** is the first one that waits. -/
theorem acknowledge_eq (h : p.SetUp) (hm : p.master.lines.Quiet) (hs : p.slave.lines.Quiet) :
    p.acknowledge = match p.next with
      | none => (0x27, p)
      | some line => (UInt8.ofNat (32 + line), p.serve line) := by
  have hreq := request_split h hm
  rw [next_eq h hs]
  cases hfirst : ([0, 1] : List (Fin 8)).find? p.master.lines.pending with
  | some i =>
      rw [hfirst, Option.some_or] at hreq
      have hi : i ≠ 2 := fun heq ↦ by
        have hmem := List.mem_of_find?_eq_some hfirst
        rw [heq] at hmem
        exact absurd hmem (by decide)
      exact acknowledge_low h hi hreq
  | none =>
      rw [hfirst, Option.none_or] at hreq
      cases hslave : p.slave.lines.request with
      | some j =>
          rw [hslave, Option.map_some, Option.some_or] at hreq
          rw [acknowledge_high h hreq hslave]
          have hnum : 40 + (j : Nat) = 32 + (high j : Fin 16) := by
            simp only [high]
            omega
          rw [hnum]
          rfl
      | none =>
          rw [hslave, Option.map_none, Option.none_or] at hreq
          cases hlast : ([3, 4, 5, 6, 7] : List (Fin 8)).find? p.master.lines.pending with
          | some i =>
              rw [hlast] at hreq
              have hi : i ≠ 2 := fun heq ↦ by
                have hmem := List.mem_of_find?_eq_some hlast
                rw [heq] at hmem
                exact absurd hmem (by decide)
              exact acknowledge_low h hi hreq
          | none =>
              rw [hlast] at hreq
              rw [Pics.acknowledge, hreq]
              simp only [Option.map_none, Option.or_none, Pics.vector, h.master.base]
              rfl

/-- The processor's interrupt line, when nothing is in service. -/
theorem intr_eq (h : p.SetUp) (hm : p.master.lines.Quiet) (hs : p.slave.lines.Quiet) :
    p.intr = p.next.isSome := by
  rw [Pics.intr, request_split h hm, next_eq h hs]
  simp only [Option.isSome_or, Option.isSome_map]

/-! ## The service of a line -/

theorem serve_setUp (h : p.SetUp) : (p.serve line).SetUp := by
  have hserve : ∀ {c : Chip} {base cascade : UInt8} (i : Fin 8), c.SetUp base cascade →
      (c.serve i).SetUp base cascade := by
    intro c base cascade i hc
    rw [Chip.serve, if_neg (by rw [hc.autoEoi]; exact Bool.false_ne_true)]
    exact ⟨hc.base, hc.cascade, hc.autoEoi, hc.expects, hc.unmasked⟩
  rcases low_or_high line with ⟨i, rfl⟩ | ⟨j, rfl⟩
  · rw [serve_low]
    exact ⟨hserve i h.master, h.slave⟩
  · rw [serve_high]
    exact ⟨hserve 2 h.master, hserve j h.slave⟩

/-- A line that is served waits no longer, and is the only one in service. -/
theorem serve_quiet (line : Fin 16) (h : p.SetUp) (hm : p.master.lines.Quiet)
    (hs : p.slave.lines.Quiet) :
    (p.serve line).master.lines.Single ∧ (p.serve line).slave.lines.Single ∧
      (line.val < 8 → (p.serve line).slave.lines.Quiet) := by
  have hserve : ∀ {c : Chip} (i : Fin 8), c.autoEoi = false →
      (c.serve i).lines = c.lines.serve i := by
    intro c i hc
    rw [Chip.serve, hc, if_neg Bool.false_ne_true]
  rcases low_or_high line with ⟨i, rfl⟩ | ⟨j, rfl⟩
  · rw [serve_low]
    refine ⟨?_, hs.single, fun _ ↦ hs⟩
    rw [hserve i h.master.autoEoi]
    exact hm.serve i
  · rw [serve_high]
    refine ⟨?_, ?_, fun hlt ↦ ?_⟩
    · rw [hserve 2 h.master.autoEoi]
      exact hm.serve 2
    · rw [hserve j h.slave.autoEoi]
      exact hs.serve j
    · simp only [high] at hlt
      omega

theorem pending_serve (h : p.SetUp) :
    (p.serve line).pending = Function.update p.pending line false := by
  have hserve : ∀ {c : Chip} (i : Fin 8), c.autoEoi = false →
      (c.serve i).lines.pending = Function.update c.lines.pending i false ∧
        (c.serve i).cascade = c.cascade := by
    intro c i hc
    rw [Chip.serve, hc, if_neg Bool.false_ne_true]
    exact ⟨rfl, rfl⟩
  funext line'
  rcases low_or_high line with ⟨i, rfl⟩ | ⟨j, rfl⟩
  · obtain ⟨hpending, hcascade⟩ := hserve i h.master.autoEoi
    rw [serve_low]
    rcases low_or_high line' with ⟨i', rfl⟩ | ⟨j', rfl⟩
    · rw [pending_low, hpending, hcascade]
      by_cases heq : i' = i
      · rw [heq, Function.update_self, Function.update_self, Bool.and_false]
      · rw [Function.update_of_ne heq, Function.update_of_ne fun h ↦ heq (low_inj.mp h),
          pending_low]
    · rw [Function.update_of_ne low_ne_high.symm, pending_high, pending_high]
  · obtain ⟨hpending, hcascade⟩ := hserve j h.slave.autoEoi
    obtain ⟨hmaster, hcascade'⟩ := hserve 2 h.master.autoEoi
    rw [serve_high]
    rcases low_or_high line' with ⟨i', rfl⟩ | ⟨j', rfl⟩
    · rw [Function.update_of_ne low_ne_high, pending_low, pending_low, hmaster, hcascade',
        h.master.cascade_iff]
      by_cases heq : i' = 2
      · rw [decide_eq_true heq, Bool.not_true, Bool.false_and, Bool.false_and]
      · rw [Function.update_of_ne heq]
    · rw [pending_high, hpending]
      by_cases heq : j' = j
      · rw [heq, Function.update_self, Function.update_self]
      · rw [Function.update_of_ne heq, Function.update_of_ne fun h ↦ heq (high_inj.mp h),
          pending_high]

end

end Yorha.Cpu
