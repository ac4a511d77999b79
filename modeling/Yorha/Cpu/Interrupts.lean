import Yorha.Cpu.Pic
import Yorha.Cpu.Stub

/-!
# Interrupts from the device to the routine

The interrupt controllers, the processor, `irq_handler` and the table of routines together, and
everything that may happen to them: a device acts and raises its line, the processor takes an
interrupt, `irq_handler` makes its next step, the kernel uses a device, installs a routine or
removes one.  A device may act at any time, also between two steps of `irq_handler`; an interrupt
is taken only when none is being handled, because a handler runs with interrupts off.

The history has each acknowledgement of the processor, with the vector it got, each number that
a routine was called for, and each raise that found its line not waiting yet.  What an
interrupted handler leaves open at the controllers is what it still has to do
(`InterruptInv`).  So between handlers nothing is in service there, and no line is held back
(`interruptInv_of_reaches`); and when the devices rest, all lines that wait are served, each
once and in the order of the controllers (`serveAll_serves`).
-/

namespace Yorha.Cpu

open Yorha.Lib

/-! ## The code -/

/-- The number of a device's line. -/
abbrev Line := Fin 16

/-- A step of `irq_handler`. -/
inductive Action where
  /-- The routine of the line is called, if there is one. -/
  | call
  | outb (port : Nat) (v : UInt8)
deriving DecidableEq

/-- The steps of `irq_handler` for `r->int_no`. -/
def irqActions (intNo : Nat) : List Action :=
  [.call] ++ (if 40 ≤ intNo then [.outb pic2Command picEoi] else []) ++ [.outb pic1Command picEoi]

/-- The ports that a step writes. -/
def Action.write (p : Pics) : Action → Pics
  | .call => p
  | .outb port v => p.outb port v

/-- Behind the call, `irq_handler` does what `PIC_sendEOI` does. -/
theorem irqActions_picSendEoi (p : Pics) (irq : Nat) :
    (irqActions (32 + irq)).foldl Action.write p = picSendEoi irq p := by
  by_cases hslave : 8 ≤ irq
  · rw [irqActions, if_pos (by omega), picSendEoi, if_pos hslave]
    rfl
  · rw [irqActions, if_neg (by omega), picSendEoi, if_neg hslave]
    rfl

section

variable {ρ σ ε κ : Type}

/-- What the routines and the rest of the kernel do to the devices, and what these do by
themselves: the state of the devices, and the lines that are raised. -/
structure Machinery (ρ σ ε κ : Type) where
  routine : ρ → σ → Except Stop (σ × List Line)
  hardware : ε → σ → σ × List Line
  kernel : κ → σ → Except Stop (σ × List Line)

/-- The state of it all.  `handling` is the handler that was interrupted last: its number, and
what it has yet to do. -/
structure Interrupts (ρ σ : Type) where
  pics : Pics
  irqRoutines : Line → Option ρ
  devices : σ
  handling : Option (Nat × List Action)
  /-- The acknowledgements: the vector, and whether a line was granted service. -/
  acknowledged : List (Nat × Bool)
  called : List Nat
  latched : List Line

/-- What may happen. -/
inductive InterruptEvent (ρ ε κ : Type) where
  | hardware (e : ε)
  /-- The kernel, where it does not handle an interrupt. -/
  | kernel (c : κ)
  /-- The processor takes an interrupt. -/
  | interrupt
  /-- The handler makes a step, or returns. -/
  | step
  /-- `irq_install_handler`. -/
  | install (irq : Line) (handler : ρ)
  /-- `irq_uninstall_handler`. -/
  | uninstall (irq : Line)

namespace Interrupts

/-- A line is raised. -/
def raise (s : Interrupts ρ σ) (line : Line) : Interrupts ρ σ :=
  { s with
    pics := s.pics.raise line
    latched :=
      if (s.pics.raise line).pending line && !s.pics.pending line then s.latched ++ [line]
      else s.latched }

/-- `irq_handler` begins, for vector `n`. -/
def enter (s : Interrupts ρ σ) (pics : Pics) (n : Nat) (granted : Bool) : Interrupts ρ σ :=
  { s with
    pics := pics
    handling := some (n, irqActions n)
    acknowledged := s.acknowledged ++ [(n, granted)] }

/-- The processor asks for the vector and goes where its gate leads. -/
def takeInterrupt (s : Interrupts ρ σ) : Except Stop (Interrupts ρ σ) :=
  let (v, pics) := s.pics.acknowledge
  let n := v.toNat
  if n < 32 then
    .error (.panic (exceptionMessages.getD n "" ++ " Exception. System Halted!\n"))
  else if n < 48 then .ok (s.enter pics n s.pics.intr)
  else .error .fault

/-- The routine of `int_no` is called. -/
def callRoutine (m : Machinery ρ σ ε κ) (s : Interrupts ρ σ) (intNo : Nat) :
    Except Stop (Interrupts ρ σ) :=
  if h : 32 ≤ intNo ∧ intNo < 48 then
    let s := { s with called := s.called ++ [intNo] }
    match s.irqRoutines ⟨intNo - 32, by omega⟩ with
    | none => .ok s
    | some handler => do
        let (devices, lines) ← m.routine handler s.devices
        .ok (lines.foldl raise { s with devices := devices })
  else .error .fault

/-- The next step of the handler; behind the last one it returns. -/
def stepHandler (m : Machinery ρ σ ε κ) (s : Interrupts ρ σ) : Except Stop (Interrupts ρ σ) :=
  match s.handling with
  | none => .ok s
  | some (_, []) => .ok { s with handling := none }
  | some (n, .call :: actions) => callRoutine m { s with handling := some (n, actions) } n
  | some (n, .outb port v :: actions) =>
      .ok { s with pics := s.pics.outb port v, handling := some (n, actions) }

/-- One event. -/
def exec (m : Machinery ρ σ ε κ) (s : Interrupts ρ σ) :
    InterruptEvent ρ ε κ → Except Stop (Unit × Interrupts ρ σ)
  | .hardware e =>
      let (devices, lines) := m.hardware e s.devices
      .ok ((), lines.foldl raise { s with devices := devices })
  | .kernel c => do
      let (devices, lines) ← m.kernel c s.devices
      .ok ((), lines.foldl raise { s with devices := devices })
  | .interrupt => do
      let s ← s.takeInterrupt
      .ok ((), s)
  | .step => do
      let s ← stepHandler m s
      .ok ((), s)
  | .install irq handler =>
      .ok ((), { s with irqRoutines := Function.update s.irqRoutines irq (some handler) })
  | .uninstall irq => .ok ((), { s with irqRoutines := Function.update s.irqRoutines irq none })

/-- The kernel and the processor go on when no handler runs, a handler when one does, a device
at any time. -/
def Possible (s : Interrupts ρ σ) : InterruptEvent ρ ε κ → Prop
  | .hardware _ => True
  | .kernel _ => s.handling = none
  | .step => s.handling.isSome = true
  | .interrupt => s.handling = none
  | .install _ _ => s.handling = none
  | .uninstall _ => s.handling = none

instance (s : Interrupts ρ σ) : ∀ e : InterruptEvent ρ ε κ, Decidable (s.Possible e)
  | .hardware _ => inferInstanceAs (Decidable True)
  | .kernel _ => decidable_of_iff (s.handling.isNone = true) Option.isNone_iff_eq_none
  | .step => inferInstanceAs (Decidable (_ = true))
  | .interrupt => decidable_of_iff (s.handling.isNone = true) Option.isNone_iff_eq_none
  | .install _ _ => decidable_of_iff (s.handling.isNone = true) Option.isNone_iff_eq_none
  | .uninstall _ => decidable_of_iff (s.handling.isNone = true) Option.isNone_iff_eq_none

/-- What `irq_install` leaves when interrupts are turned on, from chips in any state. -/
def start (p : Pics) (irqRoutines : Line → Option ρ) (devices : σ) : Interrupts ρ σ where
  pics := irqRemap 0x20 0x28 p
  irqRoutines := irqRoutines
  devices := devices
  handling := none
  acknowledged := []
  called := []
  latched := []

/-- How often a line was granted service. -/
def served (s : Interrupts ρ σ) (line : Line) : Nat := s.acknowledged.count (32 + line.val, true)

/-- The vector whose routine is still to be called. -/
def toCall (s : Interrupts ρ σ) : List Nat :=
  match s.handling with
  | some (n, actions) => if .call ∈ actions then [n] else []
  | none => []

end Interrupts

/-! ## The invariant -/

/-- What a handler has yet to do is what the chips wait for. -/
structure Owing (p : Pics) (n : Nat) (actions : List Action) : Prop where
  number : 32 ≤ n ∧ n < 48
  suffix : actions <:+ irqActions n
  master : p.master.lines.Single
  slave : p.slave.lines.Single
  masterDone : .outb pic1Command picEoi ∉ actions → p.master.lines.Quiet
  slaveDone : .outb pic2Command picEoi ∉ actions → p.slave.lines.Quiet

/-- The controllers, the handler and the history agree. -/
structure InterruptInv (s : Interrupts ρ σ) : Prop where
  setUp : s.pics.SetUp
  quiet : s.handling = none → s.pics.master.lines.Quiet ∧ s.pics.slave.lines.Quiet
  owing : ∀ n actions, s.handling = some (n, actions) → Owing s.pics n actions
  /-- Every acknowledged vector has its routine called, once and in order. -/
  called : s.called ++ s.toCall = s.acknowledged.map Prod.fst
  /-- Every raise that was not merged with another is served once, or waits. -/
  count : ∀ line, s.latched.count line = s.served line + (s.pics.pending line).toNat

variable {m : Machinery ρ σ ε κ} {s s' : Interrupts ρ σ} {line : Line} {n : Nat}
  {actions : List Action}

/-! ## A line is raised -/

theorem Owing.congr {p p' : Pics} (h : Owing p n actions)
    (hm : p'.master.lines.inService = p.master.lines.inService)
    (hs : p'.slave.lines.inService = p.slave.lines.inService) : Owing p' n actions where
  number := h.number
  suffix := h.suffix
  master i j := by
    rw [hm]
    exact h.master i j
  slave i j := by
    rw [hs]
    exact h.slave i j
  masterDone hdone i := by
    rw [hm]
    exact h.masterDone hdone i
  slaveDone hdone i := by
    rw [hs]
    exact h.slaveDone hdone i

theorem InterruptInv.raise (h : InterruptInv s) (line : Line) : InterruptInv (s.raise line) where
  setUp := setUp_raise h.setUp
  quiet hnone := by
    obtain ⟨hm, hs⟩ := h.quiet hnone
    refine ⟨fun i ↦ ?_, fun i ↦ ?_⟩
    · exact (congrFun inService_raise.1 i).trans (hm i)
    · exact (congrFun inService_raise.2 i).trans (hs i)
  owing n actions hsome := (h.owing n actions hsome).congr inService_raise.1 inService_raise.2
  called := h.called
  count line' := by
    have hcount := h.count line'
    have hpending := pending_raise line line' h.setUp
    have hself := pending_raise line line h.setUp
    change (if _ then _ else _ : List Line).count line' = s.served line' + _
    change _ = s.served line' + ((s.pics.raise line).pending line').toNat
    rw [hpending, hself]
    by_cases hnew : line ≠ low 2 ∧ s.pics.pending line = false
    · rw [hnew.2, if_pos (by simp [hnew.1]), List.count_append, List.count_singleton, hcount]
      by_cases heq : line' = line
      · subst heq
        simp [hnew.1, hnew.2]
      · have hne : ¬ line = line' := fun h ↦ heq h.symm
        simp [heq, hne]
    · rw [if_neg (by revert hnew; cases s.pics.pending line <;> simp), hcount]
      by_cases heq : line' = line
      · subst heq
        by_cases h2 : line' = low 2
        · simp [h2]
        · have hp : s.pics.pending line' = true := by
            by_contra hp
            exact hnew ⟨h2, Bool.eq_false_iff.mpr hp⟩
          simp [hp]
      · simp [heq]

theorem InterruptInv.raiseAll (h : InterruptInv s) (lines : List Line) :
    InterruptInv (lines.foldl Interrupts.raise s) := by
  induction lines generalizing s with
  | nil => exact h
  | cons line lines ih => exact ih (h.raise line)

/-- The invariant does not look at the devices or the routines. -/
theorem InterruptInv.devices (h : InterruptInv s) (devices : σ) (irqRoutines : Line → Option ρ) :
    InterruptInv { s with devices := devices, irqRoutines := irqRoutines } :=
  ⟨h.setUp, h.quiet, h.owing, h.called, h.count⟩

/-! ## An interrupt is taken -/

theorem toNat_vector (line : Line) : (UInt8.ofNat (32 + line)).toNat = 32 + line := by
  rw [UInt8.toNat_ofNat', Nat.mod_eq_of_lt (by omega)]

/-- What the processor does with the next line. -/
theorem InterruptInv.takeInterrupt_eq (h : InterruptInv s) (hnone : s.handling = none) :
    s.takeInterrupt = .ok (match s.pics.next with
      | none => s.enter s.pics 39 false
      | some line => s.enter (s.pics.serve line) (32 + line) true) := by
  obtain ⟨hm, hs⟩ := h.quiet hnone
  have hack := acknowledge_eq h.setUp hm hs
  have hintr := intr_eq h.setUp hm hs
  rw [Interrupts.takeInterrupt]
  cases hnext : s.pics.next with
  | none =>
      rw [hnext] at hack hintr
      simp only [hack, hintr]
      rfl
  | some line =>
      have hlt : ¬ 32 + line.val < 32 := by omega
      have hlt' : 32 + line.val < 48 := by omega
      rw [hnext] at hack hintr
      simp only [hack, hintr, toNat_vector, hlt, hlt', if_false, if_true, Option.isSome_some]

theorem eoi1_mem_irqActions (n : Nat) : .outb pic1Command picEoi ∈ irqActions n :=
  List.mem_append_right _ List.mem_cons_self

theorem call_mem_irqActions (n : Nat) : .call ∈ irqActions n := List.mem_cons_self

theorem eoi2_mem_irqActions (h : 40 ≤ n) : .outb pic2Command picEoi ∈ irqActions n := by
  rw [irqActions, if_pos h]
  exact List.mem_append_left _ (List.mem_append_right _ List.mem_cons_self)

@[simp] theorem toCall_enter (pics : Pics) (n : Nat) (granted : Bool) :
    (s.enter pics n granted).toCall = [n] := by
  change (if .call ∈ irqActions n then [n] else []) = [n]
  exact if_pos (call_mem_irqActions n)

theorem served_enter (pics : Pics) (line line' : Line) :
    (s.enter pics (32 + line) true).served line' =
      s.served line' + if line' = line then 1 else 0 := by
  change (s.acknowledged ++ [(32 + line.val, true)]).count (32 + line'.val, true) = _
  rw [List.count_append, List.count_singleton]
  by_cases heq : line' = line
  · rw [heq, if_pos rfl, if_pos BEq.rfl]
    rfl
  · have hne : ¬ (32 + line.val, true) = (32 + line'.val, true) := by
      intro hpair
      have hval := (Prod.mk.inj hpair).1
      exact heq (Fin.ext (by omega))
    rw [if_neg heq, if_neg (by simpa only [beq_iff_eq] using hne)]
    rfl

theorem InterruptInv.takeInterrupt (h : InterruptInv s) (hnone : s.handling = none)
    (hok : s.takeInterrupt = .ok s') : InterruptInv s' := by
  obtain ⟨hm, hs⟩ := h.quiet hnone
  have hcalled : s.called = s.acknowledged.map Prod.fst := by
    have hinv := h.called
    rw [Interrupts.toCall, hnone, List.append_nil] at hinv
    exact hinv
  have hcalls : ∀ pics n granted, (s.enter pics n granted).called ++
      (s.enter pics n granted).toCall = (s.enter pics n granted).acknowledged.map Prod.fst := by
    intro pics n granted
    rw [toCall_enter]
    change s.called ++ [n] = (s.acknowledged ++ [(n, granted)]).map Prod.fst
    rw [List.map_append, hcalled]
    rfl
  rw [h.takeInterrupt_eq hnone] at hok
  cases hnext : s.pics.next with
  | none =>
      rw [hnext] at hok
      obtain rfl := Except.ok.inj hok
      refine ⟨h.setUp, fun hne ↦ (nomatch hne), fun n actions hsome ↦ ?_, hcalls _ _ _,
        fun line ↦ ?_⟩
      · cases hsome
        exact ⟨by decide, List.suffix_rfl, hm.single, hs.single, fun _ ↦ hm, fun _ ↦ hs⟩
      · have hserved : (s.enter s.pics 39 false).served line = s.served line := by
          change (s.acknowledged ++ [(39, false)]).count (32 + line.val, true) = _
          rw [List.count_append, List.count_singleton, if_neg (by simp)]
          rfl
        rw [hserved]
        exact h.count line
  | some line =>
      rw [hnext] at hok
      obtain rfl := Except.ok.inj hok
      have hpending : s.pics.pending line = true := List.find?_some hnext
      obtain ⟨hm', hs', hlow⟩ := serve_quiet line h.setUp hm hs
      refine ⟨serve_setUp h.setUp, fun hne ↦ (nomatch hne), fun n actions hsome ↦ ?_,
        hcalls _ _ _, fun line' ↦ ?_⟩
      · cases hsome
        refine ⟨by omega, List.suffix_rfl, hm', hs', fun hno ↦ ?_, fun hno ↦ ?_⟩
        · exact absurd (eoi1_mem_irqActions _) hno
        · refine hlow ?_
          by_contra hge
          exact hno (eoi2_mem_irqActions (by omega))
      · have hcount := h.count line'
        change s.latched.count line' = _ + ((s.pics.serve line).pending line').toNat
        rw [served_enter, pending_serve h.setUp, hcount]
        by_cases heq : line' = line
        · rw [heq, Function.update_self, hpending, if_pos rfl]
          rfl
        · rw [Function.update_of_ne heq, if_neg heq, Nat.add_zero]

/-! ## The handler makes a step -/

/-- What a step does that is left to do. -/
theorem Owing.cases {p : Pics} {action : Action} (h : Owing p n (action :: actions)) :
    (action = .call ∧ .call ∉ actions) ∨
      action = .outb pic2Command picEoi ∨ action = .outb pic1Command picEoi := by
  have hmem : action ∈ irqActions n := h.suffix.subset List.mem_cons_self
  -- `call` is the first step only
  have hrest : .call ∉ (irqActions n).tail := by
    by_cases h40 : 40 ≤ n
    · simp [irqActions, h40]
    · simp [irqActions, h40]
  have hcons : irqActions n = .call :: (irqActions n).tail := rfl
  cases action with
  | call =>
      refine .inl ⟨rfl, ?_⟩
      have hsuffix := h.suffix
      rw [hcons, List.suffix_cons_iff] at hsuffix
      rcases hsuffix with heq | hsub
      · rw [(List.cons.inj heq).2]
        exact hrest
      · exact absurd (hsub.subset List.mem_cons_self) hrest
  | outb port v =>
      right
      simp only [irqActions, List.mem_append, List.mem_singleton, reduceCtorEq, false_or] at hmem
      rcases hmem with hmem | hmem
      · split at hmem
        · exact .inl (List.mem_singleton.mp hmem)
        · cases hmem
      · exact .inr hmem

/-- The rest of what a handler has to do, when the chips were told what they were to be told. -/
theorem Owing.tail {p p' : Pics} {action : Action} (h : Owing p n (action :: actions))
    (hm : p'.master.lines.Single) (hs : p'.slave.lines.Single)
    (hmDone : action = .outb pic1Command picEoi ∨ p.master.lines.Quiet → p'.master.lines.Quiet)
    (hsDone : action = .outb pic2Command picEoi ∨ p.slave.lines.Quiet → p'.slave.lines.Quiet) :
    Owing p' n actions where
  number := h.number
  suffix := (List.suffix_cons _ _).trans h.suffix
  master := hm
  slave := hs
  masterDone hno := by
    by_cases ha : action = .outb pic1Command picEoi
    · exact hmDone (.inl ha)
    · refine hmDone (.inr (h.masterDone fun hmem ↦ ?_))
      rcases List.mem_cons.mp hmem with heq | hmem
      · exact ha heq.symm
      · exact hno hmem
  slaveDone hno := by
    by_cases ha : action = .outb pic2Command picEoi
    · exact hsDone (.inl ha)
    · refine hsDone (.inr (h.slaveDone fun hmem ↦ ?_))
      rcases List.mem_cons.mp hmem with heq | hmem
      · exact ha heq.symm
      · exact hno hmem

/-- A step that does not touch the chips. -/
theorem Owing.skip {p : Pics} {action : Action} (h : Owing p n (action :: actions))
    (ha : action = .call) : Owing p n actions := by
  subst ha
  exact h.tail h.master h.slave (fun hor ↦ hor.resolve_left fun h ↦ nomatch h)
    fun hor ↦ hor.resolve_left fun h ↦ nomatch h

theorem InterruptInv.callRoutine (h : InterruptInv s)
    (hsome : s.handling = some (n, .call :: actions))
    (hok : Interrupts.callRoutine m { s with handling := some (n, actions) } n = .ok s') :
    InterruptInv s' := by
  have howing := h.owing n _ hsome
  have hrest : .call ∉ actions := by
    rcases howing.cases with ⟨-, hno⟩ | heq | heq
    · exact hno
    · cases heq
    · cases heq
  -- the state in which the routine is called
  have hcalled : InterruptInv { s with
      handling := some (n, actions), called := s.called ++ [n] } := by
    refine ⟨h.setUp, fun hne ↦ (nomatch hne), fun n' actions' heq ↦ ?_, ?_, h.count⟩
    · cases heq
      exact howing.skip rfl
    · have hinv := h.called
      rw [Interrupts.toCall, hsome] at hinv
      simp only [List.mem_cons_self, if_true] at hinv
      simp only [Interrupts.toCall, hrest, if_false, List.append_nil]
      exact hinv
  rw [Interrupts.callRoutine, dif_pos howing.number] at hok
  cases hroutine : s.irqRoutines ⟨n - 32, by have := howing.number; omega⟩ with
  | none =>
      simp only [hroutine] at hok
      obtain rfl := Except.ok.inj hok
      exact hcalled
  | some handler =>
      simp only [hroutine, bind_eq_ok] at hok
      obtain ⟨⟨devices, lines⟩, -, hok⟩ := hok
      obtain rfl := Except.ok.inj hok
      exact (hcalled.devices devices s.irqRoutines).raiseAll lines

theorem InterruptInv.outb {port : Nat} {v : UInt8} (h : InterruptInv s)
    (hsome : s.handling = some (n, .outb port v :: actions)) :
    InterruptInv { s with pics := s.pics.outb port v, handling := some (n, actions) } := by
  have howing := h.owing n _ hsome
  have hcalled : s.called ++ (if .call ∈ actions then [n] else []) =
      s.acknowledged.map Prod.fst := by
    have hinv := h.called
    rw [Interrupts.toCall, hsome] at hinv
    simpa only [List.mem_cons, reduceCtorEq, false_or] using hinv
  rcases howing.cases with ⟨heq, -⟩ | heq | heq
  · cases heq
  · cases heq
    refine ⟨⟨h.setUp.master, h.setUp.slave.finish⟩, fun hne ↦ (nomatch hne),
      fun n' actions' hsome' ↦ ?_, hcalled, fun line ↦ ?_⟩
    · cases hsome'
      exact howing.tail howing.master howing.slave.finish.single
        (fun hor ↦ hor.resolve_left fun h ↦ by revert h; decide) fun _ ↦ howing.slave.finish
    · exact (h.count line).trans (by rw [pending_eoi2]; rfl)
  · cases heq
    refine ⟨⟨h.setUp.master.finish, h.setUp.slave⟩, fun hne ↦ (nomatch hne),
      fun n' actions' hsome' ↦ ?_, hcalled, fun line ↦ ?_⟩
    · cases hsome'
      exact howing.tail howing.master.finish.single howing.slave (fun _ ↦ howing.master.finish)
        fun hor ↦ hor.resolve_left fun h ↦ by revert h; decide
    · exact (h.count line).trans (by rw [pending_eoi1]; rfl)

theorem InterruptInv.stepHandler (h : InterruptInv s)
    (hok : Interrupts.stepHandler m s = .ok s') : InterruptInv s' := by
  rw [Interrupts.stepHandler] at hok
  split at hok
  · obtain rfl := Except.ok.inj hok
    exact h
  · rename_i n hsome
    obtain rfl := Except.ok.inj hok
    have howing := h.owing n [] hsome
    refine ⟨h.setUp,
      fun _ ↦ ⟨howing.masterDone List.not_mem_nil, howing.slaveDone List.not_mem_nil⟩,
      fun n' actions' hne ↦ (nomatch hne), ?_, h.count⟩
    have hinv := h.called
    rw [Interrupts.toCall, hsome] at hinv
    exact hinv
  · rename_i n actions hsome
    exact h.callRoutine hsome hok
  · rename_i n port v actions hsome
    obtain rfl := Except.ok.inj hok
    exact h.outb hsome

/-! ## Runs -/

/-- **Step.** -/
theorem InterruptInv.step {e : InterruptEvent ρ ε κ} (h : InterruptInv s) (he : s.Possible e)
    (hx : s.exec m e = .ok ((), s')) : InterruptInv s' := by
  cases e with
  | hardware e =>
      obtain ⟨-, rfl⟩ := Prod.mk.inj (Except.ok.inj hx)
      exact (h.devices _ s.irqRoutines).raiseAll _
  | kernel c =>
      obtain ⟨⟨devices, lines⟩, -, hx⟩ := bind_eq_ok.mp hx
      obtain ⟨-, rfl⟩ := Prod.mk.inj (Except.ok.inj hx)
      exact (h.devices devices s.irqRoutines).raiseAll lines
  | interrupt =>
      obtain ⟨s₁, hok, hx⟩ := bind_eq_ok.mp hx
      obtain ⟨-, rfl⟩ := Prod.mk.inj (Except.ok.inj hx)
      exact h.takeInterrupt he hok
  | step =>
      obtain ⟨s₁, hok, hx⟩ := bind_eq_ok.mp hx
      obtain ⟨-, rfl⟩ := Prod.mk.inj (Except.ok.inj hx)
      exact h.stepHandler hok
  | install irq handler =>
      obtain ⟨-, rfl⟩ := Prod.mk.inj (Except.ok.inj hx)
      exact h.devices s.devices _
  | uninstall irq =>
      obtain ⟨-, rfl⟩ := Prod.mk.inj (Except.ok.inj hx)
      exact h.devices s.devices _

theorem interruptInv_start (p : Pics) (irqRoutines : Line → Option ρ) (devices : σ) :
    InterruptInv (.start p irqRoutines devices) := by
  obtain ⟨hsetUp, hpending, hm, hs⟩ := setUp_irqRemap p
  refine ⟨hsetUp, fun _ ↦ ⟨hm, hs⟩, fun n actions hne ↦ (nomatch hne), rfl, fun line ↦ ?_⟩
  change 0 = 0 + ((irqRemap 0x20 0x28 p).pending line).toNat
  rw [hpending line]
  rfl

end

/-- **No interrupt is lost, and none blocks another.**  For all routines and devices, chips in
any state before `irq_remap`, and every interleaving of what the devices do, interrupts that are
taken, steps of `irq_handler` and changes of the table: every acknowledged vector has its routine
called once and in order, every raise of a line is served or waits, and when no handler runs,
nothing is in service at the controllers. -/
theorem interruptInv_of_reaches {ρ σ ε κ : Type} (m : Machinery ρ σ ε κ) (p : Pics)
    (irqRoutines : Line → Option ρ) (devices : σ) {s : Interrupts ρ σ}
    (hreach : Reaches (Interrupts.exec m) Interrupts.Possible (.start p irqRoutines devices) s) :
    InterruptInv s :=
  hreach.invariant (interruptInv_start p irqRoutines devices) fun h he hx ↦ h.step he hx

/-- Devices that do nothing but raise their line, and routines that do nothing. -/
def lineMachinery : Machinery Unit Unit Line Unit where
  routine _ _ := .ok ((), [])
  hardware line _ := ((), [line])
  kernel _ _ := .ok ((), [])

/-- The clock of the slave interrupts, and during its handler the keyboard and the clock again. -/
def clockEvents : List (InterruptEvent Unit Line Unit) :=
  [.hardware 8, .interrupt, .step, .hardware 1, .step, .hardware 8, .step, .step, .interrupt]

theorem interruptInv_of_reaches_clock : ∃ s, runCalls (Interrupts.exec lineMachinery)
    Interrupts.Possible clockEvents (.start ⟨.zero, .zero⟩ (fun _ ↦ none) ()) = some s ∧
      s.acknowledged = [(40, true), (33, true)] ∧ InterruptInv s := by
  obtain ⟨s, hs, hcheck⟩ := (Option.any_eq_true _ _).mp
    (show (runCalls (Interrupts.exec lineMachinery) Interrupts.Possible clockEvents
      (.start ⟨.zero, .zero⟩ (fun _ ↦ none) ())).any
      (fun s ↦ decide (s.acknowledged = [(40, true), (33, true)])) = true by decide +kernel)
  exact ⟨s, hs, of_decide_eq_true hcheck, interruptInv_of_reaches lineMachinery ⟨.zero, .zero⟩
    (fun _ ↦ none) () (reaches_of_runCalls hs)⟩

/-! ## What an event changes -/

section

variable {ρ σ ε κ : Type} {m : Machinery ρ σ ε κ} {s s' : Interrupts ρ σ} {line : Line}
  {lines : List Line}

/-- How many calls of its routine a line waits for. -/
def Interrupts.owed (s : Interrupts ρ σ) (line : Line) : Nat :=
  (s.pics.pending line).toNat + s.toCall.count (32 + line.val)

/-- The devices were changed, lines were raised, and routines were called. -/
structure Acted (s s' : Interrupts ρ σ) (devices : σ) (lines : List Line) (calls : List Nat) :
    Prop where
  devices : s'.devices = devices
  irqRoutines : s'.irqRoutines = s.irqRoutines
  called : s'.called = s.called ++ calls
  owed : ∀ line, line ≠ low 2 → s'.owed line + calls.count (32 + line.val) =
    (s.pics.pending line || decide (line ∈ lines)).toNat + s.toCall.count (32 + line.val)

/-- Nothing happened to the devices.  The routine of the last line of the master may be called
without a cause. -/
structure Passes (s s' : Interrupts ρ σ) : Prop where
  devices : s'.devices = s.devices
  irqRoutines : s'.irqRoutines = s.irqRoutines
  called : s'.called = s.called
  owed : ∀ line, line ≠ low 7 → s'.owed line = s.owed line

theorem pending_raiseAll (h : s.pics.SetUp) (hline : line ≠ low 2) :
    (lines.foldl Interrupts.raise s).pics.pending line =
      (s.pics.pending line || decide (line ∈ lines)) := by
  induction lines generalizing s with
  | nil => simp
  | cons line' lines ih =>
      have hraise : (s.raise line').pics.pending line =
          (s.pics.pending line || decide (line = line')) := by
        refine (pending_raise line' line h).trans ?_
        by_cases heq : line = line'
        · subst heq
          simp [hline]
        · simp [heq]
      rw [List.foldl_cons, ih (setUp_raise h), hraise, Bool.or_assoc, ← Bool.decide_or]
      simp only [List.mem_cons]

/-- Lines that are raised change nothing but the controllers. -/
theorem raiseAll_eq (lines : List Line) (s : Interrupts ρ σ) :
    (lines.foldl Interrupts.raise s).devices = s.devices ∧
      (lines.foldl Interrupts.raise s).irqRoutines = s.irqRoutines ∧
      (lines.foldl Interrupts.raise s).called = s.called ∧
      (lines.foldl Interrupts.raise s).toCall = s.toCall := by
  induction lines generalizing s with
  | nil => exact ⟨rfl, rfl, rfl, rfl⟩
  | cons line lines ih => exact ih (s.raise line)

/-- The devices act by themselves, or the kernel does. -/
theorem acted_raiseAll (h : s.pics.SetUp) (devices : σ) (lines : List Line) :
    Acted s (lines.foldl Interrupts.raise { s with devices := devices }) devices lines [] := by
  obtain ⟨hdevices, hroutines, hcalled, htoCall⟩ := raiseAll_eq lines { s with devices := devices }
  refine ⟨hdevices, hroutines, hcalled.trans (List.append_nil _).symm, fun line hline ↦ ?_⟩
  have hpending : _ = (s.pics.pending line || decide (line ∈ lines)) :=
    pending_raiseAll (s := { s with devices := devices }) h hline
  rw [Interrupts.owed, hpending, htoCall]
  rfl

/-- A call of the routine of a line. -/
def RoutineRuns (m : Machinery ρ σ ε κ) (s : Interrupts ρ σ) (line : Line) (devices : σ)
    (lines : List Line) : Prop :=
  match s.irqRoutines line with
  | none => devices = s.devices ∧ lines = []
  | some handler => m.routine handler s.devices = .ok (devices, lines)

/-- **A step of `irq_handler`** calls the routine of its line, or touches no device. -/
theorem InterruptInv.stepHandler_cases (h : InterruptInv s)
    (hok : Interrupts.stepHandler m s = .ok s') :
    (∃ line devices lines, s.toCall = [32 + line.val] ∧ RoutineRuns m s line devices lines ∧
      Acted s s' devices lines [32 + line.val]) ∨ Passes s s' := by
  rw [Interrupts.stepHandler] at hok
  split at hok
  · obtain rfl := Except.ok.inj hok
    exact .inr ⟨rfl, rfl, rfl, fun _ _ ↦ rfl⟩
  · rename_i n hsome
    obtain rfl := Except.ok.inj hok
    refine .inr ⟨rfl, rfl, rfl, fun line _ ↦ ?_⟩
    rw [Interrupts.owed, Interrupts.owed, Interrupts.toCall, Interrupts.toCall, hsome]
    rfl
  · rename_i n actions hsome
    have howing := h.owing n _ hsome
    have hnumber := howing.number
    have hrest : .call ∉ actions := by
      rcases howing.cases with ⟨-, hno⟩ | heq | heq
      · exact hno
      · cases heq
      · cases heq
    obtain ⟨line, hline⟩ : ∃ line : Line, n = 32 + line.val :=
      ⟨⟨n - 32, by omega⟩, (Nat.add_sub_cancel' hnumber.1).symm⟩
    have htoCall : s.toCall = [n] := by
      rw [Interrupts.toCall, hsome]
      exact if_pos List.mem_cons_self
    -- the state in which the routine is called waits for no other call
    let s₁ : Interrupts ρ σ := { s with handling := some (n, actions), called := s.called ++ [n] }
    have hdone : s₁.toCall = [] := by
      rw [Interrupts.toCall]
      exact if_neg hrest
    have hacted : ∀ devices lines,
        Acted s (lines.foldl Interrupts.raise { s₁ with devices := devices }) devices lines
          [n] := by
      intro devices lines
      have hact := acted_raiseAll (s := s₁) h.setUp devices lines
      refine ⟨hact.devices, hact.irqRoutines, hact.called.trans (List.append_nil _), ?_⟩
      intro line' hline'
      have howed := hact.owed line' hline'
      rw [hdone, List.count_nil] at howed
      rw [htoCall]
      exact congrArg (· + [n].count (32 + line'.val)) howed
    rw [Interrupts.callRoutine, dif_pos hnumber] at hok
    have hindex : (⟨n - 32, by omega⟩ : Line) = line := Fin.ext (by simp only [hline]; omega)
    rw [hindex] at hok
    left
    cases hroutine : s.irqRoutines line with
    | none =>
        simp only [hroutine] at hok
        obtain rfl := Except.ok.inj hok
        refine ⟨line, s.devices, [], hline ▸ htoCall, ?_, hline ▸ hacted s.devices []⟩
        rw [RoutineRuns, hroutine]
        exact ⟨rfl, rfl⟩
    | some handler =>
        simp only [hroutine, bind_eq_ok] at hok
        obtain ⟨⟨devices, lines⟩, hrun, hok⟩ := hok
        obtain rfl := Except.ok.inj hok
        refine ⟨line, devices, lines, hline ▸ htoCall, ?_, hline ▸ hacted devices lines⟩
        rw [RoutineRuns, hroutine]
        exact hrun
  · rename_i n port v actions hsome
    obtain rfl := Except.ok.inj hok
    refine .inr ⟨rfl, rfl, rfl, fun line _ ↦ ?_⟩
    have hpending : (s.pics.outb port v).pending = s.pics.pending := by
      rcases (h.owing n _ hsome).cases with ⟨heq, -⟩ | heq | heq
      · cases heq
      · cases heq
        exact pending_eoi2
      · cases heq
        exact pending_eoi1
    rw [Interrupts.owed, Interrupts.owed, Interrupts.toCall, Interrupts.toCall, hsome, hpending]
    simp only [List.mem_cons, reduceCtorEq, false_or]

/-- **An interrupt that is taken** touches no device; the call that its line waited for is the
one of the handler. -/
theorem InterruptInv.takeInterrupt_passes (h : InterruptInv s) (hnone : s.handling = none)
    (hok : s.takeInterrupt = .ok s') : Passes s s' := by
  have htoCall : s.toCall = [] := by
    rw [Interrupts.toCall, hnone]
  rw [h.takeInterrupt_eq hnone] at hok
  cases hnext : s.pics.next with
  | none =>
      rw [hnext] at hok
      obtain rfl := Except.ok.inj hok
      refine ⟨rfl, rfl, rfl, fun line hline ↦ ?_⟩
      have hne : ¬ 39 = 32 + line.val := fun heq ↦ hline (Fin.ext (by simp only [low]; omega))
      rw [Interrupts.owed, Interrupts.owed, toCall_enter, htoCall, List.count_singleton,
        if_neg (by simpa only [beq_iff_eq] using hne), List.count_nil]
      rfl
  | some line =>
      rw [hnext] at hok
      obtain rfl := Except.ok.inj hok
      have hpending : s.pics.pending line = true := List.find?_some hnext
      refine ⟨rfl, rfl, rfl, fun line' _ ↦ ?_⟩
      have hserve : (s.enter (s.pics.serve line) (32 + line) true).pics.pending line' =
          Function.update s.pics.pending line false line' :=
        congrFun (pending_serve h.setUp) line'
      rw [Interrupts.owed, Interrupts.owed, toCall_enter, htoCall, hserve, List.count_singleton,
        List.count_nil]
      by_cases heq : line' = line
      · rw [heq, Function.update_self, hpending, if_pos BEq.rfl]
        rfl
      · have hne : ¬ 32 + line.val = 32 + line'.val := fun hval ↦ heq (Fin.ext (by omega))
        rw [Function.update_of_ne heq, if_neg (by simpa only [beq_iff_eq] using hne)]

end

/-! ## The lines that wait are served -/

section

variable {ρ σ ε κ : Type}

/-- At most `k` steps of the handler. -/
def Interrupts.runHandler (m : Machinery ρ σ ε κ) :
    Nat → Interrupts ρ σ → Except Stop (Interrupts ρ σ)
  | 0, s => .ok s
  | k + 1, s => do
      let s ← stepHandler m s
      runHandler m k s

/-- An interrupt is taken, and `irq_handler` runs until it returns. -/
def Interrupts.serveOne (m : Machinery ρ σ ε κ) (s : Interrupts ρ σ) :
    Except Stop (Interrupts ρ σ) := do
  let s ← s.takeInterrupt
  runHandler m 4 s

/-- Interrupts are taken as long as the controllers ask for one, `k` at most. -/
def Interrupts.serveAll (m : Machinery ρ σ ε κ) :
    Nat → Interrupts ρ σ → Except Stop (Interrupts ρ σ)
  | 0, s => .ok s
  | k + 1, s =>
      if s.pics.intr then do
        let s ← s.serveOne m
        serveAll m k s
      else .ok s

/-- The routines of these lines, called one after the other, return and raise no line. -/
def Machinery.Rests (m : Machinery ρ σ ε κ) (irqRoutines : Line → Option ρ) :
    List Line → σ → Prop
  | [], _ => True
  | line :: lines, devices =>
      match irqRoutines line with
      | none => Rests m irqRoutines lines devices
      | some handler => ∃ devices', m.routine handler devices = .ok (devices', []) ∧
          Rests m irqRoutines lines devices'

/-- `s'` is `s` with the lines served, in this order. -/
structure ServedLines (s s' : Interrupts ρ σ) (lines : List Line) : Prop where
  inv : InterruptInv s'
  handling : s'.handling = none
  irqRoutines : s'.irqRoutines = s.irqRoutines
  acknowledged : s'.acknowledged = s.acknowledged ++ lines.map fun line ↦ (32 + line.val, true)
  called : s'.called = s.called ++ lines.map fun line ↦ 32 + line.val
  pending : ∀ line, s'.pics.pending line = (s.pics.pending line && decide (line ∉ lines))

variable {m : Machinery ρ σ ε κ} {s s' : Interrupts ρ σ} {line : Line} {rest : List Line}

theorem InterruptInv.runHandler {k : Nat} (h : InterruptInv s)
    (hok : Interrupts.runHandler m k s = .ok s') : InterruptInv s' := by
  induction k generalizing s with
  | zero =>
      obtain rfl := Except.ok.inj hok
      exact h
  | succ k ih =>
      obtain ⟨s₁, hstep, hrest⟩ := bind_eq_ok.mp hok
      exact ih (h.stepHandler hstep) hrest

/-- The call of the first routine. -/
theorem Machinery.Rests.callRoutine {s : Interrupts ρ σ}
    (hrests : m.Rests s.irqRoutines (line :: rest) s.devices) :
    ∃ devices, Interrupts.callRoutine m s (32 + line) =
        .ok { s with called := s.called ++ [32 + line.val], devices := devices } ∧
      m.Rests s.irqRoutines rest devices := by
  have hindex : (⟨32 + line.val - 32, by omega⟩ : Line) = line :=
    Fin.ext (Nat.add_sub_cancel_left 32 line.val)
  rw [Interrupts.callRoutine, dif_pos (by omega), hindex]
  rw [Machinery.Rests] at hrests
  cases hroutine : s.irqRoutines line with
  | none =>
      rw [hroutine] at hrests
      exact ⟨s.devices, by simp only [hroutine], hrests⟩
  | some handler =>
      rw [hroutine] at hrests
      obtain ⟨devices, hrun, hrests⟩ := hrests
      exact ⟨devices, by simp only [hroutine, hrun, ok_bind, List.foldl_nil], hrests⟩

/-- The handler calls the routine, and goes on. -/
theorem runHandler_call {k n : Nat} {actions : List Action} {s₁ : Interrupts ρ σ}
    (hsome : s.handling = some (n, .call :: actions))
    (hcall : Interrupts.callRoutine m { s with handling := some (n, actions) } n = .ok s₁) :
    Interrupts.runHandler m (k + 1) s = Interrupts.runHandler m k s₁ := by
  rw [Interrupts.runHandler, Interrupts.stepHandler, hsome]
  exact congrArg (· >>= Interrupts.runHandler m k) hcall

/-- **One round**: the next line is served, and the handler has returned. -/
theorem InterruptInv.serveOne (h : InterruptInv s) (hnone : s.handling = none)
    (hrests : m.Rests s.irqRoutines (line :: rest) s.devices)
    (hnext : s.pics.next = some line) : ∃ s', s.serveOne m = .ok s' ∧
      ServedLines s s' [line] ∧ m.Rests s'.irqRoutines rest s'.devices := by
  have htake := h.takeInterrupt_eq hnone
  rw [hnext] at htake
  have hinv := h.takeInterrupt hnone htake
  -- the state behind the last step, but for the devices
  let done (pics : Pics) (devices : σ) : Interrupts ρ σ :=
    { s with
      pics := pics
      handling := none
      acknowledged := s.acknowledged ++ [(32 + line.val, true)]
      called := s.called ++ [32 + line.val]
      devices := devices }
  obtain ⟨pics, devices, hrun, hpending, hrests⟩ : ∃ pics devices,
      Interrupts.runHandler m 4 (s.enter (s.pics.serve line) (32 + line) true) =
        .ok (done pics devices) ∧ pics.pending = (s.pics.serve line).pending ∧
      m.Rests s.irqRoutines rest devices := by
    by_cases hslave : 40 ≤ 32 + line.val
    · let s₁ : Interrupts ρ σ := { s.enter (s.pics.serve line) (32 + line) true with
        handling := some (32 + line.val, [.outb pic2Command picEoi, .outb pic1Command picEoi]) }
      obtain ⟨devices, hcall, hrests⟩ := Machinery.Rests.callRoutine (s := s₁) hrests
      have hactions : irqActions (32 + line) =
          [.call, .outb pic2Command picEoi, .outb pic1Command picEoi] := by
        rw [irqActions, if_pos hslave]
        rfl
      refine ⟨_, devices, ?_, pending_eoi1.trans pending_eoi2, hrests⟩
      rw [runHandler_call (congrArg (fun actions ↦ some (32 + line.val, actions)) hactions) hcall]
      rfl
    · let s₁ : Interrupts ρ σ := { s.enter (s.pics.serve line) (32 + line) true with
        handling := some (32 + line.val, [.outb pic1Command picEoi]) }
      obtain ⟨devices, hcall, hrests⟩ := Machinery.Rests.callRoutine (s := s₁) hrests
      have hactions : irqActions (32 + line) = [.call, .outb pic1Command picEoi] := by
        rw [irqActions, if_neg hslave]
        rfl
      refine ⟨_, devices, ?_, pending_eoi1, hrests⟩
      rw [runHandler_call (congrArg (fun actions ↦ some (32 + line.val, actions)) hactions) hcall]
      rfl
  refine ⟨done pics devices, ?_,
    ⟨hinv.runHandler hrun, rfl, rfl, rfl, rfl, fun line' ↦ ?_⟩, hrests⟩
  · rw [Interrupts.serveOne, htake, ok_bind]
    exact hrun
  · change pics.pending line' = _
    rw [hpending, pending_serve h.setUp]
    by_cases heq : line' = line
    · rw [heq, Function.update_self]
      simp
    · rw [Function.update_of_ne heq]
      simp [heq]

theorem nodup_servedOrder : servedOrder.Nodup := by decide

/-- The lines that wait, in the order in which they are served. -/
def Interrupts.waiting (s : Interrupts ρ σ) : List Line := servedOrder.filter s.pics.pending

theorem ServedLines.trans {s₁ s₂ : Interrupts ρ σ} {lines lines' : List Line}
    (h : ServedLines s s₁ lines) (h' : ServedLines s₁ s₂ lines') :
    ServedLines s s₂ (lines ++ lines') where
  inv := h'.inv
  handling := h'.handling
  irqRoutines := h'.irqRoutines.trans h.irqRoutines
  acknowledged := by
    rw [h'.acknowledged, h.acknowledged, List.map_append, List.append_assoc]
  called := by
    rw [h'.called, h.called, List.map_append, List.append_assoc]
  pending line := by
    rw [h'.pending, h.pending, Bool.and_assoc, ← Bool.decide_and]
    simp only [List.mem_append, not_or]

/-- When the first line that waits was served, the others wait. -/
theorem ServedLines.waiting (h : ServedLines s s' [line])
    (hwaiting : s.waiting = line :: rest) : s'.waiting = rest := by
  have hnodup : (line :: rest).Nodup := hwaiting ▸ nodup_servedOrder.filter _
  have hsplit : s'.waiting = s.waiting.filter fun line' ↦ decide (line' ∉ [line]) := by
    rw [Interrupts.waiting, Interrupts.waiting, List.filter_filter]
    exact List.filter_congr fun line' _ ↦ (h.pending line').trans (Bool.and_comm _ _)
  rw [hsplit, hwaiting, List.filter_cons, if_neg (by simp)]
  refine List.filter_eq_self.mpr fun line' hmem ↦ ?_
  refine decide_eq_true fun hone ↦ ?_
  obtain rfl := List.mem_singleton.mp hone
  exact (List.nodup_cons.mp hnodup).1 hmem

/-- When all lines were served that wait, the controllers ask for no interrupt. -/
theorem ServedLines.intr (h : ServedLines s s' s.waiting) : s'.pics.intr = false := by
  obtain ⟨hm, hs⟩ := h.inv.quiet h.handling
  have hnext : s'.pics.next = none := by
    refine List.find?_eq_none.mpr fun line hmem hpending ↦ ?_
    rw [h.pending, Bool.and_eq_true, decide_eq_true_eq] at hpending
    exact hpending.2 (List.mem_filter.mpr ⟨hmem, hpending.1⟩)
  rw [intr_eq h.inv.setUp hm hs, hnext]
  rfl

/-- The rounds, by induction on the lines that wait. -/
theorem InterruptInv.serveAll {lines : List Line} {k : Nat} (h : InterruptInv s)
    (hnone : s.handling = none) (hrests : m.Rests s.irqRoutines lines s.devices)
    (hwaiting : s.waiting = lines) (hk : lines.length ≤ k) :
    ∃ s', Interrupts.serveAll m k s = .ok s' ∧ ServedLines s s' lines := by
  have hhead : s.pics.next = lines.head? := by
    rw [← hwaiting, Interrupts.waiting, List.head?_filter]
    rfl
  have hintr : s.pics.intr = lines.head?.isSome := by
    rw [intr_eq h.setUp (h.quiet hnone).1 (h.quiet hnone).2, hhead]
  induction lines generalizing s k with
  | nil =>
      refine ⟨s, ?_, h, hnone, rfl, ?_, ?_, fun line ↦ ?_⟩
      · cases k with
        | zero => rfl
        | succ k =>
            rw [Interrupts.serveAll, hintr]
            rfl
      · rw [List.map_nil, List.append_nil]
      · rw [List.map_nil, List.append_nil]
      · simp
  | cons line lines ih =>
      cases k with
      | zero => exact absurd hk (Nat.not_succ_le_zero _)
      | succ k =>
          obtain ⟨s₁, hone, hserved, hrests₁⟩ := h.serveOne hnone hrests hhead
          have hwaiting₁ := hserved.waiting hwaiting
          have hhead₁ : s₁.pics.next = lines.head? := by
            rw [← hwaiting₁, Interrupts.waiting, List.head?_filter]
            rfl
          obtain ⟨s', hall, hserved'⟩ := ih hserved.inv hserved.handling hrests₁ hwaiting₁
            (Nat.le_of_succ_le_succ hk) hhead₁ (by
              rw [intr_eq hserved.inv.setUp (hserved.inv.quiet hserved.handling).1
                (hserved.inv.quiet hserved.handling).2, hhead₁])
          refine ⟨s', ?_, hserved.trans hserved'⟩
          rw [Interrupts.serveAll, hintr, List.head?_cons, Option.isSome_some, if_pos rfl, hone,
            ok_bind]
          exact hall

end

/-- **Every line that waits is served.**  In every state that any interleaving reaches and in
which no handler runs, when from there on the routines of the lines that wait return and no line
is raised: interrupts are taken once for each of these lines, in the order of the controllers,
each with a call of its routine, and then the controllers ask for none. -/
theorem serveAll_serves {ρ σ ε κ : Type} {m : Machinery ρ σ ε κ} {p : Pics}
    {irqRoutines : Line → Option ρ} {devices : σ} {s : Interrupts ρ σ}
    (hreach : Reaches (Interrupts.exec m) Interrupts.Possible (.start p irqRoutines devices) s)
    (hnone : s.handling = none) (hrests : m.Rests s.irqRoutines s.waiting s.devices) :
    ∃ s', Interrupts.serveAll m s.waiting.length s = .ok s' ∧ s'.handling = none ∧
      s'.acknowledged = s.acknowledged ++ s.waiting.map (fun line ↦ (32 + line.val, true)) ∧
      s'.called = s.called ++ s.waiting.map (fun line ↦ 32 + line.val) ∧
      s'.pics.intr = false := by
  have hinv := interruptInv_of_reaches m p irqRoutines devices hreach
  obtain ⟨s', hall, hserved⟩ := hinv.serveAll hnone hrests rfl (Nat.le_refl _)
  exact ⟨s', hall, hserved.handling, hserved.acknowledged, hserved.called, hserved.intr⟩

/-- These devices rest, whatever the table. -/
theorem rests_lineMachinery (irqRoutines : Line → Option Unit) (lines : List Line) :
    lineMachinery.Rests irqRoutines lines () := by
  induction lines with
  | nil => trivial
  | cons line lines ih =>
      rw [Machinery.Rests]
      split
      · exact ih
      · exact ⟨(), rfl, ih⟩

/-- Three lines wait when a handler is done. -/
theorem serveAll_serves_lines : ∃ s, runCalls (Interrupts.exec lineMachinery) Interrupts.Possible
    [.hardware 3, .interrupt, .hardware 4, .hardware 9, .hardware 0, .step, .step, .step]
      (.start ⟨.zero, .zero⟩ (fun _ ↦ some ()) ()) = some s ∧ s.waiting = [0, 9, 4] ∧
    ∃ s', Interrupts.serveAll lineMachinery s.waiting.length s = .ok s' ∧ s'.handling = none ∧
      s'.acknowledged = s.acknowledged ++ s.waiting.map (fun line ↦ (32 + line.val, true)) ∧
      s'.called = s.called ++ s.waiting.map (fun line ↦ 32 + line.val) ∧
      s'.pics.intr = false := by
  obtain ⟨s, hs, hcheck⟩ := (Option.any_eq_true _ _).mp
    (show (runCalls (Interrupts.exec lineMachinery) Interrupts.Possible
      [.hardware 3, .interrupt, .hardware 4, .hardware 9, .hardware 0, .step, .step, .step]
      (.start ⟨.zero, .zero⟩ (fun _ ↦ some ()) ())).any
      (fun s ↦ s.handling.isNone && decide (s.waiting = [0, 9, 4])) = true by decide +kernel)
  obtain ⟨hnone, hwaiting⟩ := (Bool.and_eq_true _ _).mp hcheck
  exact ⟨s, hs, of_decide_eq_true hwaiting, serveAll_serves (reaches_of_runCalls hs)
    (Option.isNone_iff_eq_none.mp hnone) (rests_lineMachinery _ _)⟩

end Yorha.Cpu
