import Yorha.Lib.Exec
import Yorha.Lib.Stack
import Yorha.Lib.WordArray

/-!
# The interrupt stubs

The stubs of `boot.s` between the processor and the handlers, instruction by instruction: what
the processor pushes, what a stub pushes on top of it, the call of the handler with a pointer to
all this, and the way back.

`Saved` is what is on the stack.  The first half of a stub builds the `Registers` of
`interrupts.h`, field by field (`run_saveContext`), and the second half takes it apart again
(`Saved.restore`), so the code that was interrupted goes on with the registers it had
(`irqStub_transparent`), whatever the handler does to them.

A handler is compiled code, of which only the calling convention is known (`Abi`).  The
processor changes stacks when user code is interrupted; the kernel sets up no stack for this,
so the code that is interrupted here is its own.
-/

namespace Yorha.Cpu

open Yorha.Lib

/-! ## The processor -/

/-- The general registers. -/
inductive Reg where
  | eax | ecx | edx | ebx | esp | ebp | esi | edi
deriving DecidableEq

/-- The segment registers. -/
inductive Seg where
  | cs | ss | ds | es | fs | gs
deriving DecidableEq

/-- The state of the processor, and memory. -/
@[ext]
structure Machine where
  reg : Reg → Word
  seg : Seg → BitVec 16
  eip : Word
  eflags : Word
  mem : Bytes

namespace Machine

/-- Set a register. -/
def setReg (c : Machine) (r : Reg) (v : Word) : Machine :=
  { c with reg := Function.update c.reg r v }

/-- Set a segment register. -/
def setSeg (c : Machine) (s : Seg) (v : BitVec 16) : Machine :=
  { c with seg := Function.update c.seg s v }

/-- The address of the top of the stack. -/
def sp (c : Machine) : Nat := (c.reg .esp).toNat

/-- The word at an address. -/
def word (c : Machine) (addr : Nat) : Nat := (c.mem.drop addr).word

/-- Push a word. -/
def push (c : Machine) (v : Word) : Machine :=
  let sp := c.reg .esp - 4
  { c.setReg .esp sp with mem := c.mem.splice sp.toNat (Bytes.ofWord v.toNat) }

/-- The word on top of the stack. -/
def top (c : Machine) : Word := BitVec.ofNat 32 (c.word c.sp)

/-- Take a word off the stack. -/
def drop (c : Machine) : Machine := c.setReg .esp (c.reg .esp + 4)

end Machine

/-- The bits of the flags that an interrupt gate clears, interrupts among them. -/
def gateClears : Word := 0x34300

/-- The bit of the flags that allows interrupts. -/
def interruptFlag : Word := 0x200

/-- The processor enters a gate: it pushes the flags, the place where it was and, for some
vectors, an error code. -/
def Machine.enter (c : Machine) (offset : Word) (code : Option Word) : Machine :=
  let c' := ((c.push c.eflags).push ((c.seg .cs).setWidth 32)).push c.eip
  let c' := match code with
    | some code => c'.push code
    | none => c'
  { c'.setSeg .cs 0x08 with eip := offset, eflags := c.eflags &&& ~~~gateClears }

/-! ## The code -/

/-- A compiled handler, called with its arguments on the stack. -/
abbrev Handler := Machine → Except Stop Machine

/-- The instructions that the stubs are made of. -/
inductive Instr where
  | cli
  | pushImm (v : Word)
  | pushReg (r : Reg)
  | pushSeg (s : Seg)
  | pusha
  | movAx (v : BitVec 16)
  | movSegAx (s : Seg)
  | movEaxEsp
  | addEax (v : Word)
  | call
  | popReg (r : Reg)
  | popSeg (s : Seg)
  | popa
  | addEsp (v : Word)
  | iret

/-- The registers in the order in which `pusha` pushes them. -/
def pushaOrder : List Reg := [.eax, .ecx, .edx, .ebx, .esp, .ebp, .esi, .edi]

/-- Pop into a register. -/
def Machine.popReg (c : Machine) (r : Reg) : Machine := c.drop.setReg r c.top

/-- Pop into a segment register. -/
def Machine.popSeg (c : Machine) (s : Seg) : Machine := c.drop.setSeg s (c.top.setWidth 16)

/-- `popa` pops one register of `pusha`; the stack pointer is skipped. -/
def Machine.popaReg (c : Machine) (r : Reg) : Machine := if r = .esp then c.drop else c.popReg r

/-- One instruction, where `handler` is called. -/
def Instr.exec (handler : Handler) (c : Machine) : Instr → Except Stop Machine
  | .cli => .ok { c with eflags := c.eflags &&& ~~~interruptFlag }
  | .pushImm v => .ok (c.push v)
  | .pushReg r => .ok (c.push (c.reg r))
  | .pushSeg s => .ok (c.push ((c.seg s).setWidth 32))
  -- the stack pointer that is pushed is the one from before
  | .pusha => .ok (pushaOrder.foldl (fun c' r ↦ c'.push (c.reg r)) c)
  | .movAx v => .ok (c.setReg .eax ((c.reg .eax &&& 0xFFFF0000) ||| v.setWidth 32))
  | .movSegAx s => .ok (c.setSeg s ((c.reg .eax).setWidth 16))
  | .movEaxEsp => .ok (c.setReg .eax (c.reg .esp))
  | .addEax v => .ok (c.setReg .eax (c.reg .eax + v))
  | .call => handler c
  | .popReg r => .ok (c.popReg r)
  | .popSeg s => .ok (c.popSeg s)
  | .popa => .ok (pushaOrder.reverse.foldl Machine.popaReg c)
  | .addEsp v => .ok (c.setReg .esp (c.reg .esp + v))
  | .iret =>
      let eip := c.top
      let cs := c.drop.top.setWidth 16
      let eflags := c.drop.drop.top
      .ok { c.drop.drop.drop.setSeg .cs cs with eip := eip, eflags := eflags }

/-- A sequence of instructions. -/
def run (handler : Handler) : List Instr → Machine → Except Stop Machine
  | [], c => .ok c
  | i :: code, c => do
      let c ← i.exec handler c
      run handler code c

/-- What every stub does after its own number is on the stack: `pusha`, the segments, those of
the kernel, and a pointer to it all. -/
def saveContext : List Instr :=
  [.pusha, .pushSeg .ds, .pushSeg .es, .pushSeg .fs, .pushSeg .gs, .movAx 0x10, .movSegAx .ds,
    .movSegAx .es, .movSegAx .fs, .movSegAx .gs, .movEaxEsp, .pushReg .eax]

/-- The way back, when the arguments of the handler are off the stack. -/
def restoreContext : List Instr :=
  [.popSeg .gs, .popSeg .fs, .popSeg .es, .popSeg .ds, .popa, .addEsp 8, .iret]

/-- `isr_common_stub` and `irq_common_stub`, which differ in the handler. -/
def commonStub : List Instr := saveContext ++ [.call, .popReg .eax] ++ restoreContext

/-- `irq0` to `irq15`. -/
def irqStub (n : Nat) : List Instr :=
  [.cli, .pushImm 0, .pushImm (BitVec.ofNat 32 (32 + n))] ++ commonStub

/-- The exceptions whose stub does not push a zero in the place of the error code. -/
def stubsWithCode : List Nat := [8, 10, 11, 12, 13, 14]

/-- `isr0` to `isr31`. -/
def isrStub (n : Nat) : List Instr :=
  [.cli] ++ (if n ∈ stubsWithCode then [] else [.pushImm 0]) ++
    [.pushImm (BitVec.ofNat 32 n)] ++ commonStub

/-- `isr80` with `syscall_stub`: the handler gets two pointers. -/
def isr80Stub : List Instr :=
  [.cli, .pushReg .eax, .pushImm 80] ++ saveContext ++
    [.movEaxEsp, .addEax 72, .pushReg .eax, .call, .popReg .eax, .popReg .eax] ++ restoreContext

/-- `Registers`, in the order of its fields. -/
structure Registers where
  gs : Nat
  fs : Nat
  es : Nat
  ds : Nat
  edi : Nat
  esi : Nat
  ebp : Nat
  esp : Nat
  ebx : Nat
  edx : Nat
  ecx : Nat
  eax : Nat
  intNo : Nat
  errCode : Nat
  eip : Nat
  cs : Nat
  eflags : Nat
deriving DecidableEq

/-- The words of a `Registers`. -/
def Registers.words (r : Registers) : List Nat :=
  [r.gs, r.fs, r.es, r.ds, r.edi, r.esi, r.ebp, r.esp, r.ebx, r.edx, r.ecx, r.eax, r.intNo,
    r.errCode, r.eip, r.cs, r.eflags]

/-- `r->int_no`, in a handler whose first argument is `r`. -/
def Machine.intNo (c : Machine) : Nat := c.word (c.word c.sp + 4 * 12)

/-- `*arguments` and `r->err_code`, in a handler with the two arguments of `syscall_handler`. -/
def Machine.syscallArgs (c : Machine) : Nat × Nat :=
  (c.word (c.word c.sp), c.word (c.word (c.sp + 4) + 4 * 13))

/-- `exception_messages`. -/
def exceptionMessages : List String :=
  ["Division By Zero", "Debug", "Non Maskable Interrupt", "Breakpoint", "Into Detected Overflow",
    "Out of Bounds", "Invalid Opcode", "No Coprocessor", "Double Fault",
    "Coprocessor Segment Overrun", "Bad TSS", "Segment Not Present", "Stack Fault",
    "General Protection Fault", "Page Fault", "Unknown Interrupt", "Coprocessor Fault",
    "Alignment Check", "Machine Check"] ++ List.replicate 13 "Reserved"

/-- `isr_handler`: the text it prints before it loops is the reason of the halt.  What it prints
for a system call is left out. -/
def isrHandler : Handler := fun c ↦
  if c.intNo < 32 then
    .error (.panic (exceptionMessages.getD c.intNo "" ++ " Exception. System Halted!\n"))
  else .ok c

/-- `syscall`: the system call with number `i`, where the gate is at `offset`. -/
def syscall (handler : Handler) (offset i : Word) (c : Machine) : Except Stop Machine := do
  let c := ((c.push (c.reg .eax)).push 0).setReg .eax i
  let c ← run handler isr80Stub (c.enter offset none)
  .ok (c.popReg .eax)

/-- What is known of a handler with `args` arguments: it leaves the stack pointer and the
segments as they are, and what is on the stack above its arguments, 17 words. -/
structure Abi (args : Nat) (handler : Handler) : Prop where
  esp : ∀ {c c'}, handler c = .ok c' → c'.reg .esp = c.reg .esp
  seg : ∀ {c c'}, handler c = .ok c' → c'.seg = c.seg
  frame : ∀ {c c'}, handler c = .ok c' →
    ∀ a, c.sp + 4 * args ≤ a → a < c.sp + 4 * (args + 17) → c'.mem a = c.mem a

/-! ## What is on the stack -/

/-- Below `base`, the stack has the words `ws`. -/
structure Saved (c : Machine) (ws : List Nat) (base : Nat) : Prop where
  sp : c.sp + 4 * ws.length = base
  holds : Holds c.mem c.sp ws

section

variable {c c' : Machine} {ws : List Nat} {base w : Nat} {v : Word} {r : Reg} {s : Seg}

@[simp] theorem setReg_reg_self : (c.setReg r v).reg r = v := by
  simp only [Machine.setReg, Function.update_self]

@[simp] theorem setReg_reg_of_ne {r' : Reg} (h : r' ≠ r) : (c.setReg r v).reg r' = c.reg r' := by
  simp only [Machine.setReg, Function.update_of_ne h]

theorem setReg_setReg (c : Machine) (r : Reg) (v v' : Word) :
    (c.setReg r v).setReg r v' = c.setReg r v' := by
  rw [Machine.setReg, Machine.setReg, Machine.setReg, Function.update_idem]

@[simp] theorem push_esp : (c.push v).reg .esp = c.reg .esp - 4 := by
  change (c.setReg .esp (c.reg .esp - 4)).reg .esp = _
  exact setReg_reg_self

@[simp] theorem push_reg (h : r ≠ .esp) : (c.push v).reg r = c.reg r := setReg_reg_of_ne h

@[simp] theorem push_seg : (c.push v).seg = c.seg := rfl

@[simp] theorem push_eflags : (c.push v).eflags = c.eflags := rfl

@[simp] theorem push_eip : (c.push v).eip = c.eip := rfl

theorem Saved.congr (h : Saved c ws base) (hesp : c'.reg .esp = c.reg .esp)
    (hmem : c'.mem = c.mem) : Saved c' ws base := by
  have hsp : c'.sp = c.sp := congrArg BitVec.toNat hesp
  exact ⟨hsp ▸ h.sp, by rw [hsp, hmem]; exact h.holds⟩

/-- Push a word, where there is room. -/
theorem Saved.push (h : Saved c ws base) (hroom : 4 * (ws.length + 1) ≤ base) (v : Word) :
    Saved (c.push v) (v.toNat :: ws) base ∧ ∀ a ≥ base, (c.push v).mem a = c.mem a := by
  have hsp := h.sp
  have hlt : c.sp < 2 ^ 32 := (c.reg .esp).isLt
  have hbelow : (c.reg .esp - 4).toNat + 4 = c.sp := by
    change (c.reg .esp).toNat + _ = _ at hsp
    change _ = (c.reg .esp).toNat
    rw [BitVec.toNat_sub_of_le (by rw [BitVec.le_def]; change 4 ≤ _; omega)]
    change (c.reg .esp).toNat - 4 + 4 = _
    omega
  have hnew : (c.push v).sp = (c.reg .esp - 4).toNat := congrArg BitVec.toNat push_esp
  refine ⟨⟨?_, ?_⟩, fun a ha ↦ ?_⟩
  · rw [hnew, List.length_cons]
    omega
  · rw [hnew]
    exact Holds.push (hbelow ▸ h.holds) v.isLt
  · exact Bytes.splice_of_notMem (by rw [Bytes.length_ofWord]; omega)

/-- Pop a word. -/
theorem Saved.pop (h : Saved c (w :: ws) base) (hbase : base < 2 ^ 32) :
    c.top.toNat = w ∧ Saved c.drop ws base := by
  have hsp := h.sp
  rw [List.length_cons] at hsp
  obtain ⟨htop, hrest⟩ := holds_cons.mp h.holds
  have hdrop : c.drop.sp = c.sp + 4 := by
    have hnew : c.drop.sp = (c.reg .esp + 4).toNat := congrArg BitVec.toNat setReg_reg_self
    rw [hnew, BitVec.toNat_add]
    change ((c.reg .esp).toNat + 4) % 2 ^ 32 = (c.reg .esp).toNat + 4
    change (c.reg .esp).toNat + _ = _ at hsp
    exact Nat.mod_eq_of_lt (by omega)
  refine ⟨?_, ⟨?_, ?_⟩⟩
  · have hw : w < 2 ^ 32 := htop ▸ Bytes.word_lt _
    rw [Machine.top, Machine.word, htop, BitVec.toNat_ofNat, Nat.mod_eq_of_lt hw]
  · rw [hdrop]
    omega
  · rw [hdrop]
    exact hrest

/-! ## Into the handler -/

/-- Nothing but the stack below `base` has changed. -/
structure Pushed (c c' : Machine) (base : Nat) : Prop where
  reg : ∀ r ≠ .esp, c'.reg r = c.reg r
  seg : c'.seg = c.seg
  eip : c'.eip = c.eip
  eflags : c'.eflags = c.eflags
  mem : ∀ a ≥ base, c'.mem a = c.mem a

theorem Pushed.refl (c : Machine) (base : Nat) : Pushed c c base :=
  ⟨fun _ _ ↦ rfl, rfl, rfl, rfl, fun _ _ ↦ rfl⟩

theorem Pushed.push (h : Pushed c c' base) (hs : Saved c' ws base)
    (hroom : 4 * (ws.length + 1) ≤ base) (v : Word) : Pushed c (c'.push v) base where
  reg r hr := (push_reg hr).trans (h.reg r hr)
  seg := h.seg
  eip := h.eip
  eflags := h.eflags
  mem a ha := ((hs.push hroom v).2 a ha).trans (h.mem a ha)

/-- Push several words, the last one first on the list. -/
theorem Saved.pushAll (h : Saved c ws base) (vs : List Word)
    (hroom : 4 * (ws.length + vs.length) ≤ base) :
    Saved (vs.foldl Machine.push c) ((vs.map BitVec.toNat).reverse ++ ws) base ∧
      Pushed c (vs.foldl Machine.push c) base := by
  induction vs generalizing c ws with
  | nil => exact ⟨h, Pushed.refl c base⟩
  | cons v vs ih =>
      rw [List.length_cons] at hroom
      obtain ⟨hsaved, hmem⟩ := h.push (by omega) v
      obtain ⟨hall, hpushed⟩ := ih hsaved (by rw [List.length_cons]; omega)
      refine ⟨?_, ?_⟩
      · rw [List.map_cons, List.reverse_cons, List.append_assoc]
        exact hall
      · have hone := (Pushed.refl c base).push h (by omega) v
        exact ⟨fun r hr ↦ (hpushed.reg r hr).trans (hone.reg r hr), hpushed.seg, hpushed.eip,
          hpushed.eflags, fun a ha ↦ (hpushed.mem a ha).trans (hone.mem a ha)⟩

/-- The registers as `saveContext` pushes them. -/
def context (c : Machine) : List Nat :=
  [(c.seg .gs).toNat, (c.seg .fs).toNat, (c.seg .es).toNat, (c.seg .ds).toNat,
    (c.reg .edi).toNat, (c.reg .esi).toNat, (c.reg .ebp).toNat, (c.reg .esp).toNat,
    (c.reg .ebx).toNat, (c.reg .edx).toNat, (c.reg .ecx).toNat, (c.reg .eax).toNat]

/-- The segments that a handler runs with. -/
def kernelSegs (seg : Seg → BitVec 16) : Seg → BitVec 16
  | .cs => seg .cs
  | .ss => seg .ss
  | _ => 0x10

theorem kernelSegs_of_ne {seg : Seg → BitVec 16} (hcs : s ≠ .cs) (hss : s ≠ .ss) :
    kernelSegs seg s = 0x10 := by
  cases s with
  | cs => exact absurd rfl hcs
  | ss => exact absurd rfl hss
  | ds => rfl
  | es => rfl
  | fs => rfl
  | gs => rfl

/-- What `saveContext` leaves: a pointer on top of the context. -/
structure ContextSaved (c c' : Machine) (ws : List Nat) (base : Nat) : Prop where
  saved : Saved c' ((base - 4 * (ws.length + 12)) :: (context c ++ ws)) base
  seg : c'.seg = kernelSegs c.seg
  reg : ∀ r, r ≠ .esp → r ≠ .eax → c'.reg r = c.reg r
  eflags : c'.eflags = c.eflags
  mem : ∀ a ≥ base, c'.mem a = c.mem a

theorem run_cons (handler : Handler) (i : Instr) (code : List Instr) (c : Machine) :
    run handler (i :: code) c = i.exec handler c >>= run handler code := rfl

theorem run_append (handler : Handler) (code code' : List Instr) (c : Machine) :
    run handler (code ++ code') c = run handler code c >>= run handler code' := by
  induction code generalizing c with
  | nil => rfl
  | cons i code ih =>
      rw [List.cons_append, run, run]
      cases i.exec handler c with
      | error e => rfl
      | ok c => exact ih c

theorem toNat_setWidth (x : BitVec 16) : (x.setWidth 32).toNat = x.toNat := by
  rw [BitVec.toNat_setWidth, Nat.mod_eq_of_lt (lt_trans x.isLt (by decide))]

/-- The first instructions push the words of the context, each of a register from before. -/
theorem run_pushes (handler : Handler) (c : Machine) :
    run handler [.pusha, .pushSeg .ds, .pushSeg .es, .pushSeg .fs, .pushSeg .gs] c =
      .ok ((pushaOrder.map c.reg ++
        [Seg.ds, .es, .fs, .gs].map fun s ↦ (c.seg s).setWidth 32).foldl Machine.push c) := by
  simp only [run, Instr.exec, ok_bind, push_seg, List.map_cons, List.map_nil, List.cons_append,
    List.nil_append, List.foldl_cons, List.foldl_nil, pushaOrder]

/-- The other ones load the segments and the pointer. -/
theorem run_loads (handler : Handler) (c : Machine) :
    run handler [.movAx 0x10, .movSegAx .ds, .movSegAx .es, .movSegAx .fs, .movSegAx .gs,
      .movEaxEsp, .pushReg .eax] c =
      .ok (Machine.push { c with
        reg := Function.update c.reg .eax (c.reg .esp), seg := kernelSegs c.seg }
          (c.reg .esp)) := by
  have hax : ((c.reg .eax &&& 0xFFFF0000) ||| (0x10 : BitVec 16).setWidth 32).setWidth 16 =
      (0x10 : BitVec 16) := by
    rw [BitVec.setWidth_or, BitVec.setWidth_and]
    simp
  have hseg : Function.update (Function.update (Function.update (Function.update c.seg .ds 0x10)
      .es 0x10) .fs 0x10) .gs 0x10 = kernelSegs c.seg := by
    funext s
    cases s with
    | cs => rfl
    | ss => rfl
    | ds => rfl
    | es => rfl
    | fs => rfl
    | gs => rfl
  have hesp : Reg.esp ≠ Reg.eax := by decide
  simp only [run, Instr.exec, ok_bind, Machine.setReg, Machine.setSeg, Function.update_self, hax,
    hseg, Function.update_of_ne hesp, Function.update_idem]

/-- **The first half of a stub.** -/
theorem run_saveContext (handler : Handler) (h : Saved c ws base)
    (hroom : 4 * (ws.length + 13) ≤ base) :
    ∃ c', run handler saveContext c = .ok c' ∧ ContextSaved c c' ws base := by
  obtain ⟨hsaved, hpushed⟩ := h.pushAll (pushaOrder.map c.reg ++
    [Seg.ds, .es, .fs, .gs].map fun s ↦ (c.seg s).setWidth 32) (by
      rw [List.length_append, List.length_map, List.length_map]
      change 4 * (_ + 12) ≤ _
      omega)
  have hwords : (((pushaOrder.map c.reg ++ [Seg.ds, .es, .fs, .gs].map
      fun s ↦ (c.seg s).setWidth 32)).map BitVec.toNat).reverse = context c := by
    simp only [context, pushaOrder, List.map_cons, List.map_nil, List.cons_append,
      List.nil_append, List.reverse_cons, List.reverse_nil, toNat_setWidth]
  rw [hwords] at hsaved
  have hrun := run_pushes handler c
  generalize (pushaOrder.map c.reg ++ [Seg.ds, .es, .fs, .gs].map
    fun s ↦ (c.seg s).setWidth 32).foldl Machine.push c = p at hsaved hpushed hrun
  -- the kernel's segments, and the pointer
  let q : Machine := { p with
    reg := Function.update p.reg .eax (p.reg .esp), seg := kernelSegs p.seg }
  have hq : Saved q (context c ++ ws) base :=
    hsaved.congr (Function.update_of_ne (by decide : Reg.esp ≠ Reg.eax) (p.reg .esp) p.reg) rfl
  have hlen : (context c ++ ws).length = ws.length + 12 := by
    rw [List.length_append, Nat.add_comm]
    rfl
  have hsp : (p.reg .esp).toNat = base - 4 * (ws.length + 12) := by
    have hbase := hsaved.sp
    rw [hlen] at hbase
    change p.sp = _
    omega
  obtain ⟨hdone, hmem⟩ := hq.push (by rw [hlen]; omega) (p.reg .esp)
  refine ⟨q.push (p.reg .esp), ?_, ?_, ?_, fun r hesp heax ↦ ?_, ?_, fun a ha ↦ ?_⟩
  · change run handler ([.pusha, .pushSeg .ds, .pushSeg .es, .pushSeg .fs, .pushSeg .gs] ++
      [.movAx 0x10, .movSegAx .ds, .movSegAx .es, .movSegAx .fs, .movSegAx .gs, .movEaxEsp,
        .pushReg .eax]) c = _
    rw [run_append, hrun, ok_bind, run_loads]
  · rw [← hsp]
    exact hdone
  · exact congrArg kernelSegs hpushed.seg
  · rw [push_reg hesp]
    exact (Function.update_of_ne heax _ _).trans (hpushed.reg r hesp)
  · exact hpushed.eflags
  · exact (hmem a ha).trans (hpushed.mem a ha)

/-! ## Back from the handler -/

/-- Where a word that is popped goes. -/
inductive Dest where
  | reg (r : Reg)
  | seg (s : Seg)
  | skip
deriving DecidableEq

/-- Pop a word. -/
def Machine.popTo (c : Machine) : Dest → Machine
  | .reg r => c.popReg r
  | .seg s => c.popSeg s
  | .skip => c.drop

/-- The registers with a word in its place. -/
def storeReg (reg : Reg → Word) : Dest × Nat → Reg → Word
  | (.reg r, w) => Function.update reg r (BitVec.ofNat 32 w)
  | _ => reg

/-- The segments with a word in its place. -/
def storeSeg (seg : Seg → BitVec 16) : Dest × Nat → Seg → BitVec 16
  | (.seg s, w) => Function.update seg s (BitVec.ofNat 16 w)
  | _ => seg

/-- The machine after a run of pops. -/
structure Popped (c c' : Machine) (pops : List (Dest × Nat)) : Prop where
  reg : ∀ r ≠ .esp, c'.reg r = pops.foldl storeReg c.reg r
  seg : c'.seg = pops.foldl storeSeg c.seg
  mem : c'.mem = c.mem

/-- Pop a word where it belongs. -/
theorem Saved.popTo {d : Dest} (h : Saved c (w :: ws) base) (hbase : base < 2 ^ 32)
    (hd : d ≠ .reg .esp) : Saved (c.popTo d) ws base ∧ Popped c (c.popTo d) [(d, w)] := by
  obtain ⟨htop, hs⟩ := h.pop hbase
  have hdrop : ∀ r ≠ .esp, c.drop.reg r = c.reg r := fun r hr ↦ setReg_reg_of_ne hr
  have hw : BitVec.ofNat 32 w = c.top := by rw [← htop, BitVec.ofNat_toNat, BitVec.setWidth_eq]
  cases d with
  | reg r =>
      have hr : Reg.esp ≠ r := fun heq ↦ hd (congrArg Dest.reg heq.symm)
      refine ⟨hs.congr (setReg_reg_of_ne hr) rfl, fun r' hr' ↦ ?_, rfl, rfl⟩
      change Function.update c.drop.reg r c.top r' = Function.update c.reg r (BitVec.ofNat 32 w) r'
      rw [hw]
      by_cases heq : r' = r
      · rw [heq, Function.update_self, Function.update_self]
      · rw [Function.update_of_ne heq, Function.update_of_ne heq, hdrop r' hr']
  | seg s =>
      refine ⟨hs.congr rfl rfl, hdrop, ?_, rfl⟩
      have hword : c.top.setWidth 16 = BitVec.ofNat 16 w := by
        apply BitVec.eq_of_toNat_eq
        rw [BitVec.toNat_setWidth, BitVec.toNat_ofNat, htop]
      exact congrArg (Function.update c.seg s) hword
  | skip => exact ⟨hs, hdrop, rfl, rfl⟩

/-- Where the registers agree but for the stack pointer, they do after a store. -/
theorem storeReg_congr {reg reg' : Reg → Word} (h : ∀ r ≠ .esp, reg r = reg' r)
    (pops : List (Dest × Nat)) : ∀ r ≠ .esp, pops.foldl storeReg reg r =
      pops.foldl storeReg reg' r := by
  induction pops generalizing reg reg' with
  | nil => exact h
  | cons pop pops ih =>
      refine ih fun r hr ↦ ?_
      obtain ⟨d, w⟩ := pop
      cases d with
      | reg r' =>
          change Function.update reg r' _ r = Function.update reg' r' _ r
          by_cases heq : r = r'
          · rw [heq, Function.update_self, Function.update_self]
          · rw [Function.update_of_ne heq, Function.update_of_ne heq, h r hr]
      | seg s => exact h r hr
      | skip => exact h r hr

/-- Pop one word after the other. -/
theorem Saved.popAll (pops : List (Dest × Nat)) (ws : List Nat)
    (h : Saved c (pops.map Prod.snd ++ ws) base)
    (hbase : base < 2 ^ 32) (hesp : ∀ pop ∈ pops, pop.1 ≠ .reg .esp) :
    Saved ((pops.map Prod.fst).foldl Machine.popTo c) ws base ∧
      Popped c ((pops.map Prod.fst).foldl Machine.popTo c) pops := by
  induction pops generalizing c with
  | nil => exact ⟨h, fun _ _ ↦ rfl, rfl, rfl⟩
  | cons pop pops ih =>
      obtain ⟨hs, hone⟩ := Saved.popTo h hbase (hesp pop List.mem_cons_self)
      obtain ⟨hall, hpopped⟩ := ih hs fun pop hpop ↦ hesp pop (List.mem_cons_of_mem _ hpop)
      refine ⟨hall, fun r hr ↦ ?_, ?_, hpopped.mem.trans hone.mem⟩
      · exact (hpopped.reg r hr).trans (storeReg_congr hone.reg pops r hr)
      · rw [List.map_cons, List.foldl_cons, hpopped.seg, hone.seg]
        rfl

/-- The machine that goes on where `r` says, with the stack pointer at `base`. -/
def resumed (c : Machine) (r : Registers) (base : Nat) : Machine where
  reg
    | .eax => BitVec.ofNat 32 r.eax
    | .ecx => BitVec.ofNat 32 r.ecx
    | .edx => BitVec.ofNat 32 r.edx
    | .ebx => BitVec.ofNat 32 r.ebx
    | .esp => BitVec.ofNat 32 base
    | .ebp => BitVec.ofNat 32 r.ebp
    | .esi => BitVec.ofNat 32 r.esi
    | .edi => BitVec.ofNat 32 r.edi
  seg
    | .cs => BitVec.ofNat 16 r.cs
    | .ss => c.seg .ss
    | .ds => BitVec.ofNat 16 r.ds
    | .es => BitVec.ofNat 16 r.es
    | .fs => BitVec.ofNat 16 r.fs
    | .gs => BitVec.ofNat 16 r.gs
  eip := BitVec.ofNat 32 r.eip
  eflags := BitVec.ofNat 32 r.eflags
  mem := c.mem

/-- Where the words of a `Registers` below the interrupted code's go. -/
def Registers.pops (r : Registers) : List (Dest × Nat) :=
  [(.seg .gs, r.gs), (.seg .fs, r.fs), (.seg .es, r.es), (.seg .ds, r.ds), (.reg .edi, r.edi),
    (.reg .esi, r.esi), (.reg .ebp, r.ebp), (.skip, r.esp), (.reg .ebx, r.ebx), (.reg .edx, r.edx),
    (.reg .ecx, r.ecx), (.reg .eax, r.eax), (.skip, r.intNo), (.skip, r.errCode)]

/-- All pops of the second half but those of `iret`. -/
theorem run_restoreContext (handler : Handler) (r : Registers) (c : Machine) :
    run handler restoreContext c =
      run handler [.iret] ((r.pops.map Prod.fst).foldl Machine.popTo c) := by
  have hskip : ∀ c : Machine, c.setReg .esp (c.reg .esp + 8) = c.drop.drop := by
    intro c
    rw [Machine.drop, Machine.drop, setReg_reg_self, setReg_setReg, BitVec.add_assoc]
    rfl
  simp only [restoreContext, run, Instr.exec, ok_bind, hskip, pushaOrder, List.reverse_cons,
    List.reverse_nil, List.nil_append, List.cons_append, List.foldl_cons, List.foldl_nil,
    Machine.popaReg, Registers.pops, List.map_cons, List.map_nil, Machine.popTo, reduceCtorEq,
    if_false, if_true]

theorem Registers.pops_ne_esp (r : Registers) : ∀ pop ∈ r.pops, pop.1 ≠ .reg .esp := by
  intro pop hpop
  simp only [Registers.pops, List.mem_cons, List.not_mem_nil, or_false] at hpop
  rcases hpop with rfl | rfl | rfl | rfl | rfl | rfl | rfl | rfl | rfl | rfl | rfl | rfl | rfl | rfl
  all_goals exact fun h ↦ nomatch h

/-- **The second half of a stub**: with a `Registers` on the stack, the machine goes on as it
says. -/
theorem Saved.restore {r : Registers} (h : Saved c r.words base) (hbase : base < 2 ^ 32)
    (handler : Handler) : run handler restoreContext c = .ok (resumed c r base) := by
  obtain ⟨hs, hpopped⟩ := Saved.popAll r.pops [r.eip, r.cs, r.eflags] h hbase
    r.pops_ne_esp
  rw [run_restoreContext handler r]
  generalize (r.pops.map Prod.fst).foldl Machine.popTo c = p at hs hpopped
  -- what `iret` pops
  obtain ⟨heip, hs₁⟩ := hs.pop hbase
  obtain ⟨hcs, hs₂⟩ := hs₁.pop hbase
  obtain ⟨heflags, hs₃⟩ := hs₂.pop hbase
  have hword : ∀ {v : Word} {w : Nat}, v.toNat = w → v = BitVec.ofNat 32 w := by
    rintro v w rfl
    rw [BitVec.ofNat_toNat, BitVec.setWidth_eq]
  have hesp : p.drop.drop.drop.reg .esp = BitVec.ofNat 32 base := hword hs₃.sp
  have hreg : ∀ r' ≠ .esp, p.drop.drop.drop.reg r' = r.pops.foldl storeReg c.reg r' := by
    intro r' hr'
    rw [← hpopped.reg r' hr']
    simp only [Machine.drop, setReg_reg_of_ne hr']
  refine congrArg Except.ok (Machine.ext ?_ ?_ (hword heip) (hword heflags) hpopped.mem)
  · funext r'
    cases r' with
    | esp => exact hesp
    | eax => exact hreg .eax (by decide)
    | ecx => exact hreg .ecx (by decide)
    | edx => exact hreg .edx (by decide)
    | ebx => exact hreg .ebx (by decide)
    | ebp => exact hreg .ebp (by decide)
    | esi => exact hreg .esi (by decide)
    | edi => exact hreg .edi (by decide)
  · have hseg : p.drop.drop.drop.seg = r.pops.foldl storeSeg c.seg := hpopped.seg
    have hcs' : p.drop.top.setWidth 16 = BitVec.ofNat 16 r.cs := by
      apply BitVec.eq_of_toNat_eq
      rw [BitVec.toNat_setWidth, BitVec.toNat_ofNat, hcs]
    funext s
    change Function.update p.drop.drop.drop.seg .cs (p.drop.top.setWidth 16) s = _
    rw [hseg, hcs']
    cases s with
    | cs => rfl
    | ss => rfl
    | ds => rfl
    | es => rfl
    | fs => rfl
    | gs => rfl

/-! ## There and back -/

/-- The `Registers` that a stub builds for number `n`. -/
def Machine.registers (c : Machine) (n code ip cs fl : Nat) : Registers where
  gs := (c.seg .gs).toNat
  fs := (c.seg .fs).toNat
  es := (c.seg .es).toNat
  ds := (c.seg .ds).toNat
  edi := (c.reg .edi).toNat
  esi := (c.reg .esi).toNat
  ebp := (c.reg .ebp).toNat
  esp := (c.reg .esp).toNat
  ebx := (c.reg .ebx).toNat
  edx := (c.reg .edx).toNat
  ecx := (c.reg .ecx).toNat
  eax := (c.reg .eax).toNat
  intNo := n
  errCode := code
  eip := ip
  cs := cs
  eflags := fl

/-- The address of the `Registers` that a stub builds. -/
def Machine.frame (c : Machine) : Nat := c.sp - 4 * 17

/-- What is on the stack when a handler has returned: its arguments may be others. -/
theorem Saved.returned {handler : Handler} (args : List Nat) {r : Registers}
    (h : Saved c (args ++ r.words) base) (habi : Abi args.length handler)
    (hret : handler c = .ok c') :
    ∃ args', args'.length = args.length ∧ Saved c' (args' ++ r.words) base := by
  have hsp : c'.sp = c.sp := congrArg BitVec.toNat (habi.esp hret)
  obtain ⟨args', hlen, hargs'⟩ := exists_holds c'.mem c.sp args.length
  refine ⟨args', hlen, ?_, ?_⟩
  · have hbase := h.sp
    rw [List.length_append] at hbase ⊢
    rw [hsp, hlen]
    exact hbase
  · rw [hsp]
    refine holds_append.mpr ⟨hargs', ?_⟩
    rw [hlen]
    refine (holds_append.mp h.holds).2.congr fun a ha hlt ↦ habi.frame hret a ha ?_
    change a < _ + 4 * 17 at hlt
    omega

/-- Pop a word that does not matter. -/
theorem Saved.popAny (h : Saved c (w :: ws) base) (hbase : base < 2 ^ 32) :
    Saved (c.popReg .eax) ws base :=
  (Saved.popTo (d := .reg .eax) h hbase (by decide)).1

theorem resumed_popReg (c : Machine) (reg : Reg) (r : Registers) (base : Nat) :
    resumed (c.popReg reg) r base = resumed c r base := rfl

/-- **A common stub**, from the number, the error code and what the processor pushed. -/
theorem Saved.commonStub {handler : Handler} {n code ip cs fl : Nat} (habi : Abi 1 handler)
    (h : Saved c [n, code, ip, cs, fl] base) (hbase : base < 2 ^ 32) (hroom : 4 * 18 ≤ base) :
    ∃ c₁, Saved c₁ ([base - 4 * 17] ++ (c.registers n code ip cs fl).words) base ∧
      c₁.seg = kernelSegs c.seg ∧ c₁.eflags = c.eflags ∧ (∀ a ≥ base, c₁.mem a = c.mem a) ∧
      run handler Cpu.commonStub c = (do
        let c₂ ← handler c₁
        .ok (resumed c₂ (c.registers n code ip cs fl) base)) := by
  obtain ⟨c₁, hrun, hc₁⟩ := run_saveContext handler h hroom
  refine ⟨c₁, hc₁.saved, hc₁.seg, hc₁.eflags, hc₁.mem, ?_⟩
  have hcode : Cpu.commonStub = saveContext ++ (.call :: .popReg .eax :: restoreContext) := rfl
  rw [hcode, run_append, hrun, ok_bind, run_cons, Instr.exec]
  cases hret : handler c₁ with
  | error e => rw [error_bind, error_bind]
  | ok c₂ =>
      obtain ⟨args', hlen, hs⟩ := Saved.returned [_]
        (r := c.registers n code ip cs fl) hc₁.saved habi hret
      obtain ⟨w, rfl⟩ := List.length_eq_one_iff.mp hlen
      rw [ok_bind, ok_bind, run_cons, Instr.exec, ok_bind, (hs.popAny hbase).restore hbase handler,
        resumed_popReg]

/-- The code that was interrupted in `c` is kept in the state `c'` of a stub: nothing of it has
changed but what was pushed, and interrupts are off. -/
structure Kept (c c' : Machine) : Prop where
  reg : ∀ r ≠ .esp, c'.reg r = c.reg r
  seg : ∀ s ≠ .cs, c'.seg s = c.seg s
  off : c'.eflags &&& interruptFlag = 0
  mem : ∀ a ≥ c.sp, c'.mem a = c.mem a

theorem Kept.push (h : Kept c c') (hs : Saved c' ws c.sp) (hroom : 4 * (ws.length + 1) ≤ c.sp)
    (v : Word) : Kept c (c'.push v) where
  reg r hr := (push_reg hr).trans (h.reg r hr)
  seg := h.seg
  off := h.off
  mem a ha := ((hs.push hroom v).2 a ha).trans (h.mem a ha)

/-- What the processor pushes. -/
def Machine.entryWords (c : Machine) (code : Option Word) : List Nat :=
  (code.map BitVec.toNat).toList ++ [c.eip.toNat, (c.seg .cs).toNat, c.eflags.toNat]

/-- **The processor enters a gate.** -/
theorem saved_enter (c : Machine) (offset : Word) (code : Option Word) (hroom : 16 ≤ c.sp) :
    Saved (c.enter offset code) (c.entryWords code) c.sp ∧ Kept c (c.enter offset code) := by
  have hempty : Saved c [] c.sp := ⟨rfl, holds_nil⟩
  -- the words that are pushed
  let vs : List Word := [c.eflags, (c.seg .cs).setWidth 32, c.eip] ++ code.toList
  have hvs : vs.length ≤ 4 := by
    cases code with
    | none => exact Nat.le_succ 3
    | some code => exact Nat.le_refl 4
  obtain ⟨hs, hp⟩ := hempty.pushAll vs (by rw [List.length_nil]; omega)
  have hwords : (vs.map BitVec.toNat).reverse ++ [] = c.entryWords code := by
    have hcs := toNat_setWidth (c.seg .cs)
    cases code with
    | none =>
        change [c.eip.toNat, ((c.seg .cs).setWidth 32).toNat, c.eflags.toNat] = _
        rw [hcs]
        rfl
    | some code =>
        change [code.toNat, c.eip.toNat, ((c.seg .cs).setWidth 32).toNat, c.eflags.toNat] = _
        rw [hcs]
        rfl
  have henter : c.enter offset code = { (vs.foldl Machine.push c).setSeg .cs 0x08 with
      eip := offset, eflags := c.eflags &&& ~~~gateClears } := by
    cases code with
    | none => rfl
    | some code => rfl
  rw [henter]
  refine ⟨(hwords ▸ hs).congr rfl rfl, hp.reg, fun s hs' ↦ ?_, ?_, hp.mem⟩
  · exact (Function.update_of_ne hs' _ _).trans (congrFun hp.seg s)
  · change c.eflags &&& ~~~gateClears &&& interruptFlag = 0
    rw [BitVec.and_assoc]
    have hbit : ~~~gateClears &&& interruptFlag = 0#32 := by decide
    rw [hbit]
    exact BitVec.and_zero

theorem Kept.cli (h : Kept c c') :
    Kept c { c' with eflags := c'.eflags &&& ~~~interruptFlag } where
  reg := h.reg
  seg := h.seg
  mem := h.mem
  off := by
    change c'.eflags &&& ~~~interruptFlag &&& interruptFlag = 0
    have hbit : ~~~interruptFlag &&& interruptFlag = 0#32 := by decide
    rw [BitVec.and_assoc, hbit]
    exact BitVec.and_zero

/-- The `Registers` of the code that was interrupted in `c`, `pushed` words above its stack. -/
def Machine.interrupted (c : Machine) (pushed n code ip cs fl : Nat) : Registers :=
  { c.registers n code ip cs fl with esp := c.sp - 4 * pushed }

theorem Kept.registers (h : Kept c c') (hs : Saved c' ws c.sp) (n code ip cs fl : Nat) :
    c'.registers n code ip cs fl = c.interrupted ws.length n code ip cs fl := by
  have hesp : (c'.reg .esp).toNat = c.sp - 4 * ws.length := by
    have hsp := hs.sp
    change c'.sp = _
    omega
  simp only [Machine.registers, Machine.interrupted, hesp, h.seg .gs (by decide),
    h.seg .fs (by decide), h.seg .es (by decide), h.seg .ds (by decide), h.reg .edi (by decide),
    h.reg .esi (by decide), h.reg .ebp (by decide), h.reg .ebx (by decide),
    h.reg .edx (by decide), h.reg .ecx (by decide), h.reg .eax (by decide)]

/-- What goes on is the code that was interrupted. -/
theorem resumed_interrupted {pushed n code : Nat} (hss : c'.seg .ss = c.seg .ss) :
    resumed c' (c.interrupted pushed n code c.eip.toNat (c.seg .cs).toNat c.eflags.toNat) c.sp =
      { c with mem := c'.mem } := by
  have hword : ∀ v : Word, BitVec.ofNat 32 v.toNat = v := fun v ↦ by
    rw [BitVec.ofNat_toNat, BitVec.setWidth_eq]
  have hseg : ∀ v : BitVec 16, BitVec.ofNat 16 v.toNat = v := fun v ↦ by
    rw [BitVec.ofNat_toNat, BitVec.setWidth_eq]
  refine Machine.ext ?_ ?_ (hword _) (hword _) rfl
  · funext r
    cases r with
    | eax => exact hword _
    | ecx => exact hword _
    | edx => exact hword _
    | ebx => exact hword _
    | esp => exact hword _
    | ebp => exact hword _
    | esi => exact hword _
    | edi => exact hword _
  · funext s
    cases s with
    | cs => exact hseg _
    | ss => exact hss
    | ds => exact hseg _
    | es => exact hseg _
    | fs => exact hseg _
    | gs => exact hseg _

/-- The state `c₁` in which a handler is called, with its arguments and the `Registers` behind
them on the stack, when the code in `c` was interrupted. -/
structure Called (c c₁ : Machine) (args : List Nat) (r : Registers) : Prop where
  saved : Saved c₁ (args ++ r.words) c.sp
  kernel : ∀ s, s ≠ .cs → s ≠ .ss → c₁.seg s = 0x10
  off : c₁.eflags &&& interruptFlag = 0
  mem : ∀ a ≥ c.sp, c₁.mem a = c.mem a

/-- A common stub that was entered with the interrupted code kept. -/
theorem Kept.commonStub {handler : Handler} {n code ip cs fl : Nat} (h : Kept c c')
    (habi : Abi 1 handler) (hs : Saved c' [n, code, ip, cs, fl] c.sp) (hroom : 4 * 18 ≤ c.sp) :
    ∃ c₁, Called c c₁ [c.frame] (c.interrupted 5 n code ip cs fl) ∧
      (∀ c₂, handler c₁ = .ok c₂ → c₂.seg .ss = c.seg .ss) ∧
      run handler Cpu.commonStub c' = (do
        let c₂ ← handler c₁
        .ok (resumed c₂ (c.interrupted 5 n code ip cs fl) c.sp)) := by
  obtain ⟨c₁, hsaved, hseg, hflags, hmem, hrun⟩ := hs.commonStub habi (c.reg .esp).isLt hroom
  have hregisters : c'.registers n code ip cs fl = c.interrupted 5 n code ip cs fl :=
    h.registers hs n code ip cs fl
  rw [hregisters] at hsaved hrun
  refine ⟨c₁, ⟨hsaved, ?_, ?_, fun a ha ↦ (hmem a ha).trans (h.mem a ha)⟩, ?_, hrun⟩
  · intro s hcs hss
    rw [hseg]
    exact kernelSegs_of_ne hcs hss
  · rw [hflags]
    exact h.off
  · intro c₂ hret
    rw [habi.seg hret, hseg]
    exact h.seg .ss (by decide)

/-! ## The three kinds of stub -/

/-- The first pushes of a stub, before the common part. -/
theorem Kept.pushImms (h : Kept c c') (hs : Saved c' ws c.sp) (vs : List Word)
    (hroom : 4 * (ws.length + vs.length) ≤ c.sp) :
    Kept c (vs.foldl Machine.push c') ∧
      Saved (vs.foldl Machine.push c') ((vs.map BitVec.toNat).reverse ++ ws) c.sp := by
  obtain ⟨hsaved, hp⟩ := hs.pushAll vs hroom
  refine ⟨⟨fun r hr ↦ (hp.reg r hr).trans (h.reg r hr), fun s hs' ↦ ?_, ?_,
    fun a ha ↦ (hp.mem a ha).trans (h.mem a ha)⟩, hsaved⟩
  · rw [hp.seg]
    exact h.seg s hs'
  · rw [hp.eflags]
    exact h.off

/-- The code of a stub up to its common part. -/
theorem run_stub (handler : Handler) (vs : List Word) (code : List Instr) (c : Machine) :
    run handler ([.cli] ++ vs.map .pushImm ++ code) c =
      run handler code (vs.foldl Machine.push
        { c with eflags := c.eflags &&& ~~~interruptFlag }) := by
  have hpushes : ∀ (vs : List Word) (c : Machine),
      run handler (vs.map .pushImm) c = .ok (vs.foldl Machine.push c) := by
    intro vs
    induction vs with
    | nil => exact fun _ ↦ rfl
    | cons v vs ih =>
        intro c
        exact ih (c.push v)
  rw [List.append_assoc, run_append]
  change run handler (_ ++ code) _ = _
  rw [run_append, hpushes]
  rfl

end

/-- **The code that an `irq` interrupts does not see it.**  For every state of the processor
with room on the stack, every handler that keeps the calling convention and each of the 16
stubs: the handler is called once, with interrupts off, the kernel's segments and a pointer to a
`Registers` with the number of the stub and all registers of the interrupted code.  If it
returns, that code goes on with all its registers, its flags among them, and memory as the
handler left it. -/
theorem irqStub_transparent {handler : Handler} (habi : Abi 1 handler) (c : Machine)
    (offset : Word) {n : Nat} (hn : n < 16) (hroom : 4 * 18 ≤ c.sp) :
    ∃ c₁, Called c c₁ [c.frame]
        (c.interrupted 5 (32 + n) 0 c.eip.toNat (c.seg .cs).toNat c.eflags.toNat) ∧
      run handler (irqStub n) (c.enter offset none) = (do
        let c₂ ← handler c₁
        .ok { c with mem := c₂.mem }) := by
  obtain ⟨hs, hk⟩ := saved_enter c offset none (by omega)
  have hnum : (BitVec.ofNat 32 (32 + n)).toNat = 32 + n := by
    rw [BitVec.toNat_ofNat, Nat.mod_eq_of_lt (by omega)]
  obtain ⟨hk', hs'⟩ := hk.cli.pushImms (hs.congr rfl rfl)
    [0, BitVec.ofNat 32 (32 + n)] (by change 4 * (3 + 2) ≤ _; omega)
  have hwords : (([0, BitVec.ofNat 32 (32 + n)] : List Word).map BitVec.toNat).reverse ++
      c.entryWords none = [32 + n, 0, c.eip.toNat, (c.seg .cs).toNat, c.eflags.toNat] := by
    change [(BitVec.ofNat 32 (32 + n)).toNat, 0, _, _, _] = _
    rw [hnum]
  rw [hwords] at hs'
  obtain ⟨c₁, hcalled, hss, hrun⟩ := hk'.commonStub habi hs' hroom
  refine ⟨c₁, hcalled, ?_⟩
  have hstub : irqStub n = [.cli] ++ ([0, BitVec.ofNat 32 (32 + n)] : List Word).map .pushImm ++
      commonStub := rfl
  rw [hstub, run_stub, hrun]
  cases hret : handler c₁ with
  | error e => rfl
  | ok c₂ => exact congrArg Except.ok (resumed_interrupted (hss c₂ hret))

/-- The number that a handler finds, three words above the context. -/
theorem Saved.intNo {c c' : Machine} {ws rest : List Nat} {base : Nat}
    (h : Saved c ((base - 4 * (ws.length + 12)) :: (context c' ++ ws)) base) {n : Nat}
    (hws : ws = n :: rest) : c.intNo = n := by
  have hsp := h.sp
  have hlen : (context c' ++ ws).length = ws.length + 12 := by
    rw [List.length_append, Nat.add_comm]
    rfl
  rw [List.length_cons, hlen] at hsp
  obtain ⟨hpointer, hrest⟩ := holds_cons.mp h.holds
  have hnumber := (holds_append.mp hrest).2
  rw [hws] at hnumber
  have haddr : c.word c.sp + 4 * 12 = c.sp + 4 + 4 * (context c').length := by
    change (c.mem.drop c.sp).word + _ = c.sp + 4 + 4 * 12
    rw [hpointer]
    omega
  rw [Machine.intNo, haddr]
  exact (holds_cons.mp hnumber).1

/-- **Every exception halts the machine with its own message**, in every state with room on the
stack, for each of the 32 vectors and whether the processor pushes an error code or not. -/
theorem exception_halts (c : Machine) (offset : Word) (code : Option Word) {n : Nat} (hn : n < 32)
    (hroom : 4 * 19 ≤ c.sp) : run isrHandler (isrStub n) (c.enter offset code) =
      .error (.panic (exceptionMessages.getD n "" ++ " Exception. System Halted!\n")) := by
  obtain ⟨hs, hk⟩ := saved_enter c offset code (by omega)
  have hnum : (BitVec.ofNat 32 n).toNat = n := by
    rw [BitVec.toNat_ofNat, Nat.mod_eq_of_lt (by omega)]
  -- the words that the stub pushes, the number last
  obtain ⟨zeros, hzeros, hstub⟩ : ∃ zeros : List Word, zeros.length ≤ 1 ∧ isrStub n =
      [.cli] ++ (zeros ++ [BitVec.ofNat 32 n]).map .pushImm ++ commonStub := by
    by_cases hcode : n ∈ stubsWithCode
    · exact ⟨[], by decide, by simp [isrStub, hcode]⟩
    · exact ⟨[0], by decide, by simp [isrStub, hcode]⟩
  have hentry : (c.entryWords code).length ≤ 4 := by
    cases code with
    | none => exact Nat.le_succ 3
    | some code => exact Nat.le_refl 4
  have hlen : (zeros ++ [BitVec.ofNat 32 n]).length = zeros.length + 1 := List.length_append
  obtain ⟨-, hs'⟩ := hk.cli.pushImms (hs.congr rfl rfl) (zeros ++ [BitVec.ofNat 32 n])
    (by rw [hlen]; omega)
  rw [List.map_append, List.map_singleton, hnum, List.reverse_append, List.reverse_singleton,
    List.append_assoc, List.singleton_append] at hs'
  rw [hstub, run_stub]
  generalize (zeros ++ [BitVec.ofNat 32 n]).foldl Machine.push _ = p at hs' ⊢
  obtain ⟨c₁, hrun, hc₁⟩ := run_saveContext isrHandler hs' (by
    rw [List.length_cons, List.length_append, List.length_reverse, List.length_map]
    omega)
  have hread : c₁.intNo = n := hc₁.saved.intNo rfl
  rw [commonStub, List.append_assoc, run_append, hrun, ok_bind]
  change (isrHandler c₁ >>= _) = _
  rw [isrHandler, hread, if_pos hn, error_bind]

/-- The pushes of `isr80`. -/
theorem run_isr80Pushes (handler : Handler) (c : Machine) :
    run handler [.cli, .pushReg .eax, .pushImm 80] c = .ok (([c.reg .eax, 80] : List Word).foldl
      Machine.push { c with eflags := c.eflags &&& ~~~interruptFlag }) := rfl

/-- A pointer `v` bytes above the stack pointer is pushed. -/
theorem run_pushAbove (handler : Handler) (v : Word) (code : List Instr) (c : Machine) :
    run handler (.movEaxEsp :: .addEax v :: .pushReg .eax :: code) c =
      run handler code ((c.setReg .eax (c.reg .esp + v)).push (c.reg .esp + v)) := by
  have hadd : (c.setReg .eax (c.reg .esp)).setReg .eax
      ((c.setReg .eax (c.reg .esp)).reg .eax + v) = c.setReg .eax (c.reg .esp + v) := by
    rw [setReg_reg_self, setReg_setReg]
  rw [run_cons, Instr.exec, ok_bind, run_cons, Instr.exec, ok_bind, hadd, run_cons, Instr.exec,
    ok_bind, setReg_reg_self]

/-- The handler is called, and two words are popped. -/
theorem run_callPop (handler : Handler) (code : List Instr) (c : Machine) :
    run handler (.call :: .popReg .eax :: .popReg .eax :: code) c = (do
      let c₂ ← handler c
      run handler code ((c₂.popReg .eax).popReg .eax)) := rfl

/-- **A system call** through `isr80`: the handler gets the stack of the caller and a
`Registers`, and the caller goes on as after a device's interrupt. -/
theorem isr80Stub_transparent {handler : Handler} (habi : Abi 2 handler) (c : Machine)
    (offset : Word) (hroom : 4 * 19 ≤ c.sp) :
    ∃ c₁, Called c c₁ [c.sp, c.frame] (c.interrupted 5 80 (c.reg .eax).toNat c.eip.toNat
        (c.seg .cs).toNat c.eflags.toNat) ∧
      run handler isr80Stub (c.enter offset none) = (do
        let c₂ ← handler c₁
        .ok { c with mem := c₂.mem }) := by
  obtain ⟨hs, hk⟩ := saved_enter c offset none (by omega)
  have heax : (c.enter offset none).reg .eax = c.reg .eax := hk.reg .eax (by decide)
  obtain ⟨hk', hs'⟩ := hk.cli.pushImms (hs.congr rfl rfl) [c.reg .eax, 80]
    (by change 4 * (3 + 2) ≤ _; omega)
  have hpushes := run_isr80Pushes handler (c.enter offset none)
  rw [heax] at hpushes
  generalize ([c.reg .eax, 80] : List Word).foldl Machine.push _ = p at hk' hs' hpushes
  obtain ⟨c₀, hrun, hc₀⟩ := run_saveContext handler hs' (by
    change 4 * (5 + 13) ≤ _
    omega)
  have hregisters := hk'.registers hs' 80 (c.reg .eax).toNat c.eip.toNat (c.seg .cs).toNat
    c.eflags.toNat
  have hsaved : Saved c₀ ([c.frame] ++ (p.registers 80 (c.reg .eax).toNat c.eip.toNat
      (c.seg .cs).toNat c.eflags.toNat).words) c.sp := hc₀.saved
  rw [hregisters] at hsaved
  -- the second pointer, to the caller's stack
  have hsp : (c₀.reg .esp + 72).toNat = c.sp := by
    have hbase : c₀.sp + 4 * 18 = c.sp := hsaved.sp
    have hlt : c.sp < 2 ^ 32 := (c.reg .esp).isLt
    rw [BitVec.toNat_add]
    change (c₀.sp + 72) % 2 ^ 32 = _
    rw [Nat.mod_eq_of_lt (by omega)]
    omega
  let q := c₀.setReg .eax (c₀.reg .esp + 72)
  have hq : Saved q ([c.frame] ++ (c.interrupted 5 80 (c.reg .eax).toNat c.eip.toNat
      (c.seg .cs).toNat c.eflags.toNat).words) c.sp :=
    hsaved.congr (setReg_reg_of_ne (by decide)) rfl
  obtain ⟨hdone, hmem⟩ := hq.push (by change 4 * (18 + 1) ≤ _; omega) (c₀.reg .esp + 72)
  rw [hsp] at hdone
  have hseg : (q.push (c₀.reg .esp + 72)).seg = kernelSegs p.seg := hc₀.seg
  refine ⟨q.push (c₀.reg .esp + 72), ⟨hdone, fun s hcs hss ↦ ?_, ?_, fun a ha ↦ ?_⟩, ?_⟩
  · rw [hseg]
    exact kernelSegs_of_ne hcs hss
  · change c₀.eflags &&& interruptFlag = 0
    rw [hc₀.eflags]
    exact hk'.off
  · exact (hmem a ha).trans ((hc₀.mem a ha).trans (hk'.mem a ha))
  · have hstub : isr80Stub = [.cli, .pushReg .eax, .pushImm 80] ++ (saveContext ++
        (.movEaxEsp :: .addEax 72 :: .pushReg .eax :: .call :: .popReg .eax :: .popReg .eax ::
          restoreContext)) := rfl
    rw [hstub, run_append, hpushes, ok_bind, run_append, hrun, ok_bind]
    rw [run_pushAbove, run_callPop]
    change (handler (q.push (c₀.reg .esp + 72)) >>= _) = _
    cases hret : handler (q.push (c₀.reg .esp + 72)) with
    | error e => rfl
    | ok c₂ =>
        obtain ⟨args', hlen, hs₂⟩ := Saved.returned [c.sp, c.frame] hdone habi hret
        obtain ⟨w, w', rfl⟩ := List.length_eq_two.mp hlen
        have hback := ((hs₂.popAny (c.reg .esp).isLt).popAny (c.reg .esp).isLt).restore
          (c.reg .esp).isLt handler
        have hss : c₂.seg .ss = c.seg .ss := by
          rw [habi.seg hret, hseg]
          exact hk'.seg .ss (by decide)
        rw [ok_bind, hback, resumed_popReg, resumed_popReg]
        exact congrArg Except.ok (resumed_interrupted hss)

/-- A handler that does nothing, and clobbers what it may. -/
def idleHandler : Handler := fun c ↦ .ok (((c.setReg .eax 7).setReg .ecx 8).setReg .edx 9)

theorem abi_idleHandler (args : Nat) : Abi args idleHandler where
  esp h := by
    cases h
    rw [setReg_reg_of_ne (by decide), setReg_reg_of_ne (by decide), setReg_reg_of_ne (by decide)]
  seg h := by
    cases h
    rfl
  frame h _ _ _ := by
    cases h
    rfl

/-- Code of the kernel that is interrupted with its stack at 1 MiB. -/
def running : Machine where
  reg r := if r = .esp then 0x100000 else 5
  seg s := if s = .cs then 0x08 else 0x10
  eip := 0x200123
  eflags := 0x202
  mem := fun _ ↦ 0

/-- The timer's stub. -/
theorem irqStub_transparent_timer : ∃ c₁,
    Called running c₁ [running.frame] (running.interrupted 5 32 0 0x200123 0x08 0x202) ∧
      run idleHandler (irqStub 0) (running.enter 0xC0201000 none) = (do
        let c₂ ← idleHandler c₁
        .ok { running with mem := c₂.mem }) :=
  irqStub_transparent (abi_idleHandler 1) running 0xC0201000 (n := 0) (by decide) (by decide)

/-- The page fault. -/
theorem exception_halts_pageFault : run isrHandler (isrStub 14) (running.enter 0 (some 2)) =
    .error (.panic "Page Fault Exception. System Halted!\n") :=
  exception_halts running 0 (some 2) (n := 14) (by decide) (by decide)

/-! ## System calls -/

/-- What the caller of `syscall` sees afterwards. -/
structure Leaked (c c' : Machine) (bytes : Nat) : Prop where
  esp : c'.sp + bytes = c.sp
  reg : ∀ r, r ≠ .esp → r ≠ .eax → c'.reg r = c.reg r
  seg : c'.seg = c.seg
  eip : c'.eip = c.eip
  eflags : c'.eflags = c.eflags

/-- The arguments of `syscall_handler` as its stub pushes them. -/
theorem Called.syscallArgs {c c₁ : Machine} {r : Registers} {w : Nat}
    (h : Called c c₁ [c.sp, c.frame] r) (hw : c.word c.sp = w) :
    c₁.syscallArgs = (w, r.errCode) := by
  obtain ⟨hpointer, hrest⟩ := holds_cons.mp h.saved.holds
  obtain ⟨hframe, hwords⟩ := holds_cons.mp hrest
  have hsp : c₁.sp + 4 * 19 = c.sp := h.saved.sp
  have hcode := hwords 13 (Nat.lt_of_lt_of_le (by decide : 13 < 17) (Nat.le_refl r.words.length))
  have haddr : c₁.word (c₁.sp + 4) + 4 * 13 = c₁.sp + 4 + 4 + 4 * 13 := by
    change (c₁.mem.drop (c₁.sp + 4)).word + _ = _
    rw [hframe, Machine.frame]
    omega
  have htop : c₁.word (c₁.word c₁.sp) = w := by
    change c₁.word (c₁.mem.drop c₁.sp).word = w
    rw [hpointer, ← hw]
    exact Bytes.word_congr fun i _ ↦ h.mem _ (Nat.le_add_right _ _)
  rw [Machine.syscallArgs, htop, haddr]
  exact congrArg (Prod.mk w) hcode

/-- **One call of `syscall`**: the handler finds a zero as the first argument and the number of
the call as the error code; the stack pointer is four bytes too low afterwards, because two words
are pushed and one is popped. -/
theorem syscall_leaks {handler : Handler} (habi : Abi 2 handler) (c : Machine) (offset i : Word)
    (hroom : 4 * 21 ≤ c.sp) : ∃ c₁, c₁.syscallArgs = (0, i.toNat) ∧
      ∀ c', syscall handler offset i c = .ok c' →
        (∃ c₂, handler c₁ = .ok c₂ ∧ c'.mem = c₂.mem) ∧ Leaked c c' 4 := by
  have hempty : Saved c [] c.sp := ⟨rfl, holds_nil⟩
  obtain ⟨hs, hp⟩ := hempty.pushAll [c.reg .eax, 0] (by change 4 * 2 ≤ _; omega)
  let d := ((c.push (c.reg .eax)).push 0).setReg .eax i
  have hd : Saved d [0, (c.reg .eax).toNat] c.sp := hs.congr (setReg_reg_of_ne (by decide)) rfl
  have hsp : d.sp + 4 * 2 = c.sp := hd.sp
  have hlt : c.sp < 2 ^ 32 := (c.reg .esp).isLt
  obtain ⟨c₁, hcalled, hrun⟩ := isr80Stub_transparent habi d offset (by omega)
  have heax : d.reg .eax = i := setReg_reg_self
  refine ⟨c₁, ?_, fun c' hsyscall ↦ ?_⟩
  · rw [hcalled.syscallArgs (holds_cons.mp hd.holds).1]
    exact congrArg (fun v : Word ↦ (0, v.toNat)) heax
  · change (run handler isr80Stub (d.enter offset none) >>= _) = _ at hsyscall
    rw [hrun] at hsyscall
    cases hret : handler c₁ with
    | error e =>
        rw [hret, error_bind, error_bind] at hsyscall
        cases hsyscall
    | ok c₂ =>
        rw [hret, ok_bind, ok_bind] at hsyscall
        cases hsyscall
        have hpopped : (({ d with mem := c₂.mem } : Machine).popReg .eax).sp = d.sp + 4 := by
          have hesp : (({ d with mem := c₂.mem } : Machine).popReg .eax).reg .esp =
              d.reg .esp + 4 := by
            rw [Machine.popReg, setReg_reg_of_ne (by decide), Machine.drop, setReg_reg_self]
          rw [Machine.sp, hesp, BitVec.toNat_add]
          change (d.sp + 4) % 2 ^ 32 = _
          exact Nat.mod_eq_of_lt (by omega)
        refine ⟨⟨c₂, rfl, rfl⟩, ?_, fun r hesp heax' ↦ ?_, hp.seg, hp.eip, hp.eflags⟩
        · rw [hpopped]
          omega
        · rw [Machine.popReg, setReg_reg_of_ne heax', Machine.drop, setReg_reg_of_ne hesp]
          exact (setReg_reg_of_ne heax').trans (hp.reg r hesp)

/-- **Every call of `syscall` leaks a word of the stack**: after a sequence of them, with any
numbers, the stack pointer is four bytes lower for each. -/
theorem syscalls_leak {handler : Handler} (habi : Abi 2 handler) (offset : Word)
    (numbers : List Word) {c c' : Machine} (hroom : 4 * (21 + numbers.length) ≤ c.sp)
    (h : numbers.foldlM (fun c i ↦ syscall handler offset i c) c = .ok c') :
    Leaked c c' (4 * numbers.length) := by
  induction numbers generalizing c with
  | nil =>
      cases h
      exact ⟨rfl, fun _ _ _ ↦ rfl, rfl, rfl, rfl⟩
  | cons i numbers ih =>
      rw [List.length_cons] at hroom ⊢
      rw [List.foldlM_cons, bind_eq_ok] at h
      obtain ⟨d, hone, hrest⟩ := h
      obtain ⟨_, -, hleaks⟩ := syscall_leaks habi c offset i (by omega)
      obtain ⟨-, hleaked⟩ := hleaks d hone
      have hesp := hleaked.esp
      have hall := ih (by omega) hrest
      have hesp' := hall.esp
      refine ⟨by omega, fun r hr heax ↦ ?_, hall.seg.trans hleaked.seg, hall.eip.trans hleaked.eip,
        hall.eflags.trans hleaked.eflags⟩
      exact (hall.reg r hr heax).trans (hleaked.reg r hr heax)

/-- Two calls, by code with its stack at 1 MiB. -/
theorem syscalls_leak_two : ∃ c',
    ([1, 2] : List Word).foldlM (fun c i ↦ syscall idleHandler 0 i c) running = .ok c' ∧
      Leaked running c' 8 := by
  have hok : (([1, 2] : List Word).foldlM (fun c i ↦ syscall idleHandler 0 i c) running).isOk =
      true := rfl
  cases h : ([1, 2] : List Word).foldlM (fun c i ↦ syscall idleHandler 0 i c) running with
  | error e =>
      rw [h] at hok
      cases hok
  | ok c' => exact ⟨c', rfl, syscalls_leak (abi_idleHandler 2) 0 [1, 2] (by decide) h⟩

end Yorha.Cpu
