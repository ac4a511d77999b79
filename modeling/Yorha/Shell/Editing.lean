import Yorha.Io.Boot
import Yorha.Lib.Editor
import Yorha.Shell.Process

/-!
# What the shell hands on

The strings that the shell hands to `string_split` are the lines that were typed, edited by
`'\b'`, as long as every redirection names a file that exists (`handed_eq_lines`).

The current command is one buffer on the heap.  Every way through the processing of a
command empties it, but for the one where the redirection cannot be opened: there the line
stays, with the terminator behind it, and what is typed next comes after the terminator.  So
the next string handed on is the old line again (`failed_redirection_repeats`).
-/

namespace Yorha.Shell

open Yorha.Lib Yorha.Str Yorha.Heap Yorha.Io
open Yorha.Fs hiding read write

variable {δ : Type}

/-! ## The buffer -/

/-- The buffer holds the line that is typed. -/
structure Edits (h : KernelHeap) (live : LiveBlocks) (curr : HeapString) (line : List UInt8) :
    Prop where
  holds : Holds h live 1 curr line
  len_eq : curr.len = line.length

section

variable {h h' : KernelHeap} {live : LiveBlocks} {curr curr' : HeapString} {line : List UInt8}

theorem edits_of_stored {bytes : List UInt8} (hs : Stored h live 1 curr bytes) :
    Edits h live curr bytes :=
  ⟨.inr hs, by rw [hs.length, Nat.one_mul]⟩

/-- A character more. -/
theorem Edits.push (he : Edits h live curr line) (hinv : HeapInv h.allocator live) {c : UInt8}
    (ha : append h curr [c] = .ok (curr', h')) : ∃ live',
      Appended h h' live live' 1 curr curr' line [c] :=
  append_ok hinv List.length_singleton Nat.one_pos (by decide) he.holds ha

/-- A buffer with a character in it has a block. -/
theorem Edits.stored (he : Edits h live curr line) (hlen : 0 < curr.len) :
    Stored h live 1 curr line := by
  rcases he.holds with ⟨-, rfl⟩ | hstored
  · exact absurd he.len_eq hlen.ne'
  · exact hstored

/-- A character less. -/
theorem Edits.erase (he : Edits h live curr line) (hlen : 0 < curr.len) :
    Edits h live { curr with len := curr.len - 1 } line.dropLast := by
  have hs := he.stored hlen
  have hdrop : line.dropLast.length = curr.len - 1 := by
    rw [List.length_dropLast, he.len_eq]
  refine ⟨.inr ⟨hs.pos, hs.block, ?_, (Nat.sub_le _ _).trans hs.len_le, ?_⟩, hdrop.symm⟩
  · rw [hdrop, Nat.one_mul]
  · conv_rhs => rw [← hs.mem, List.dropLast_eq_take, Bytes.length_take]
    rw [Bytes.take_take, hdrop, he.len_eq, Nat.min_eq_left (Nat.sub_le _ _)]

/-- Nothing is left of a line that has been processed. -/
theorem edits_reset {bytes : List UInt8} (hs : Stored h live 1 curr bytes) :
    Edits h live { curr with len := 0 } [] :=
  ⟨.inr ⟨hs.pos, hs.block, rfl, Nat.zero_le _, rfl⟩, rfl⟩

end

/-! ## Typing a character -/

section

variable {s s' : ShellState δ} {live : LiveBlocks} {line : List UInt8} {c : UInt8}

/-- The line behind a character that does not hand it on. -/
def editLine (line : List UInt8) (c : UInt8) : List UInt8 :=
  if c = backspace then line.dropLast else if c = newline then line else line ++ [c]

/-- What typing a character makes of the buffer: the line is edited, or it is handed on with
its terminator. -/
inductive Typing (s' : ShellState δ) (live' : LiveBlocks) (line : List UInt8) (c : UInt8) : Prop
  | edited : s'.pending = none → (c = newline → line = []) →
      Edits s'.k.heap live' s'.currCommand (editLine line c) → Typing s' live' line c
  | handed {text : CString} : s'.pending = some text → c = newline → line ≠ [] →
      heapString s'.k.heap s'.currCommand.contents = .ok text →
      Stored s'.k.heap live' 1 s'.currCommand (line ++ [0]) → Typing s' live' line c

/-- **What `typeChar` does.** -/
theorem typeChar_ok (hinv : HeapInv s.k.heap.allocator live)
    (hedits : Edits s.k.heap live s.currCommand line) (hnone : s.pending = none)
    (h : s.typeChar c = .ok s') : ∃ live', HeapInv s'.k.heap.allocator live' ∧
      s'.k.heap.allocator.bottom = s.k.heap.allocator.bottom ∧ s'.exited = s.exited ∧
      Typing s' live' line c := by
  rw [ShellState.typeChar] at h
  split at h
  · -- the last character is erased
    rename_i hback
    have hnew : c = newline → line = [] := fun hc ↦ absurd (hback.symm.trans hc) (by decide)
    have hline : editLine line c = line.dropLast := if_pos hback
    split at h
    · rename_i hlen
      simp only [bind_eq_ok] at h
      obtain ⟨k₁, hprint, h⟩ := h
      cases h
      rw [← print_heap hprint] at hinv hedits ⊢
      refine ⟨live, hinv, rfl, rfl, .edited hnone hnew ?_⟩
      rw [hline]
      exact hedits.erase hlen
    · rename_i hlen
      cases h
      have hnil : line = [] := by
        apply List.eq_nil_of_length_eq_zero
        rw [← hedits.len_eq]
        exact Nat.eq_zero_of_not_pos hlen
      refine ⟨live, hinv, rfl, rfl, .edited hnone hnew ?_⟩
      rw [hline, hnil, List.dropLast_nil, ← hnil]
      exact hedits
  · rename_i hback
    simp only [bind_eq_ok, Prod.exists] at h
    obtain ⟨n, k₁, hwrite, h⟩ := h
    rw [← write_heap hwrite] at hinv hedits ⊢
    split at h
    · -- the character belongs to the line
      rename_i hchar
      simp only [bind_eq_ok, Prod.exists] at h
      obtain ⟨curr, heap, happend, h⟩ := h
      cases h
      obtain ⟨live', happ⟩ := hedits.push hinv happend
      refine ⟨live', happ.inv, happ.frame.bottom, rfl,
        .edited hnone (fun hc ↦ absurd hc hchar) ?_⟩
      rw [editLine, if_neg hback, if_neg hchar]
      exact edits_of_stored happ.stored
    · rename_i hend
      rw [not_not] at hend
      split at h
      · -- an empty line ends
        rename_i hlen
        simp only [bind_eq_ok] at h
        obtain ⟨k₂, hprint, h⟩ := h
        cases h
        rw [← print_heap hprint] at hinv hedits ⊢
        refine ⟨live, hinv, rfl, rfl, .edited hnone (fun _ ↦ ?_) ?_⟩
        · exact List.eq_nil_of_length_eq_zero (hedits.len_eq ▸ hlen)
        · rw [editLine, if_neg hback, if_pos hend]
          exact hedits
      · -- a line ends, and is handed on with its terminator
        rename_i hlen
        simp only [bind_eq_ok, Prod.exists] at h
        obtain ⟨curr, heap, happend, text, htext, h⟩ := h
        cases h
        obtain ⟨live', happ⟩ := hedits.push hinv happend
        refine ⟨live', happ.inv, happ.frame.bottom, rfl,
          .handed rfl hend (fun hnil ↦ hlen ?_) htext happ.stored⟩
        rw [hedits.len_eq, hnil]
        rfl

end

/-! ## One round -/

/-- The shell of a user who means `e`: the buffer holds the line that is typed, or a line is
being processed. -/
structure Running (s : ShellState δ) (live : LiveBlocks) (e : Editor UInt8) : Prop where
  inv : HeapInv s.k.heap.allocator live
  bottom : s.k.heap.allocator.bottom + scannedBits < 2 ^ 32
  typing : s.pending = none → Edits s.k.heap live s.currCommand e.line
  processing : ∀ line, s.pending = some line → line.chars ≠ [] ∧ e.line = [] ∧
    ∃ bytes, Stored s.k.heap live 1 s.currCommand bytes

section

variable {s s' : ShellState δ} {live live' : LiveBlocks} {e e' : Editor UInt8} {c : UInt8}

/-- What typing a character makes of the shell of a user who means `e`: one who means `e'`.
The line that is handed on, if there is one, has ended with the character. -/
structure Typed (s s' : ShellState δ) (e e' : Editor UInt8) : Prop where
  exited : s'.exited = s.exited
  lines : e'.lines = e.lines ++ (s'.pending.map CString.chars).toList
  running : ∃ live', Running s' live' e'

/-- A character that ends no line. -/
theorem typed_of_edits (hexited : s'.exited = s.exited) (hnone : s'.pending = none)
    (hlines : e'.lines = e.lines) (hinv : HeapInv s'.k.heap.allocator live')
    (hbottom : s'.k.heap.allocator.bottom + scannedBits < 2 ^ 32)
    (hedits : Edits s'.k.heap live' s'.currCommand e'.line) : Typed s s' e e' where
  exited := hexited
  lines := by
    rw [hlines, hnone]
    exact (List.append_nil _).symm
  running := by
    refine ⟨live', hinv, hbottom, fun _ ↦ hedits, fun line hline ↦ ?_⟩
    rw [hnone] at hline
    cases hline

/-- **A character is typed.** -/
theorem Running.typeChar (hs : Running s live e) (hnone : s.pending = none) (hzero : 0 ∉ e.line)
    (h : s.typeChar c = .ok s') : Typed s s' e (e.type backspace newline c) := by
  obtain ⟨live', hinv, hbottom, hexited, htyping⟩ := typeChar_ok hs.inv (hs.typing hnone) hnone h
  have hbottom : s'.k.heap.allocator.bottom + scannedBits < 2 ^ 32 := hbottom ▸ hs.bottom
  cases htyping with
  | edited hnone hnew hedits =>
      have htype : e.type backspace newline c = { e with line := editLine e.line c } := by
        rw [Editor.type, editLine]
        split
        · rfl
        · split
          · rename_i hc
            rw [if_pos (hnew hc)]
          · rfl
      rw [htype]
      exact typed_of_edits hexited hnone rfl hinv hbottom hedits
  | @handed text hsome hc hne htext hstored =>
      have hchars := heapString_eq hstored hzero htext
      have htype : e.type backspace newline c = ⟨e.lines ++ [e.line], []⟩ := by
        rw [Editor.type, if_neg (by rw [hc]; decide), if_pos hc, if_neg hne]
      rw [htype]
      refine ⟨hexited, ?_, live', hinv, hbottom, fun hnone ↦ ?_, fun text' htext' ↦ ?_⟩
      · rw [hsome, ← hchars]
        rfl
      · rw [hsome] at hnone
        cases hnone
      · rw [hsome] at htext'
        cases htext'
        exact ⟨hchars ▸ hne, rfl, _, hstored⟩

/-- **A line is processed.**  When its redirection can be opened, the buffer is empty behind
it, whatever the command was and did. -/
theorem Running.processCommand (hs : Running s live e) {line : CString} {outside : Outside δ}
    (hpending : s.pending = some line) (hredirects : s.redirects line = true)
    (h : s.processCommand line outside = .ok s') :
    s'.pending = none ∧ (s'.exited = false → ∃ live', Running s' live' e) := by
  obtain ⟨hline, hempty, bytes, hcurr⟩ := hs.processing line hpending
  cases processCommand_ok hs.inv hs.bottom hline h with
  | refused _ hno =>
      rw [hredirects] at hno
      cases hno
  | exited => exact ⟨rfl, fun hexited ↦ nomatch hexited⟩
  | @executed cmd heap₁ live₁ placed out code k₂ k₃ k₄ hp _ hopen _ _ hexec _ hfinish =>
      refine ⟨rfl, fun _ ↦ ?_⟩
      -- the redirection is opened, the command gives back what it takes, and the words stay
      -- where they are
      have hk₂ := openRedirection_keeps (k := { s.k with heap := heap₁ }) hp.split.inv hopen
      have hkeeps := hk₂.trans (Command.exec_keeps hk₂.inv hexec)
      simp only [finishCommand, bind_eq_ok] at hfinish
      obtain ⟨k₅, hclose, k₆, hreport, heap₇, hfree, hprint⟩ := hfinish
      have hk₆ : k₆.heap = k₃.heap :=
        (reportError_heap hreport).trans (closeRedirection_heap hclose)
      rw [hk₆] at hfree
      have hwords₃ := hp.split.words.frame hkeeps.frame (fun _ ↦ not_false)
        (fun _ _ ↦ not_false)
      have hbottom₁ : heap₁.allocator.bottom + scannedBits < 2 ^ 32 :=
        hp.split.frame.bottom ▸ hs.bottom
      -- and the words are given back, none of which is in the buffer's block
      obtain ⟨live', hinv', hframe⟩ := hwords₃.freeStringList_ok hkeeps.inv
        (hkeeps.frame.bottom ▸ hbottom₁) hp.ne_nil hfree
      have hlist := (hwords₃.stored_list hp.ne_nil).pos
      have hcurr₃ := (hcurr.frame hp.split.frame not_false).frame hkeeps.frame not_false
      have hcurr' := hcurr₃.frame hframe (by
        rintro (heq | ⟨q, hq, heq⟩)
        · exact hp.split.old hcurr.block ⟨hlist, heq⟩
        · exact hp.split.oldWords hcurr.block q hq heq)
      have hheap : k₄.heap = heap₇ := print_heap hprint
      refine ⟨live', ?_, ?_, fun _ ↦ ?_, fun _ hsome ↦ nomatch hsome⟩
      · exact hheap ▸ hinv'
      · change k₄.heap.allocator.bottom + scannedBits < 2 ^ 32
        rw [hheap, hframe.bottom, hkeeps.frame.bottom]
        exact hbottom₁
      · rw [hempty]
        exact edits_reset (hheap ▸ hcurr')

end

/-! ## Sessions -/

/-- The editor of a user who has typed this. -/
def edited (typed : List UInt8) : Editor UInt8 := .typed backspace newline typed

theorem edited_append (typed : List UInt8) (c : UInt8) :
    edited (typed ++ [c]) = (edited typed).type backspace newline c :=
  Editor.typed_append typed c

/-- No redirection fails: the line that the shell goes on with redirects to a file that is
there, if it redirects. -/
def Session.Redirects (s : Session δ) : SessionEvent δ → Prop
  | .devices _ => True
  | .resume _ => s.shell.pending.all s.shell.redirects = true

instance Session.decidableRedirects (s : Session δ) (ev : SessionEvent δ) :
    Decidable (s.Redirects ev) :=
  match ev with
  | .devices _ => inferInstanceAs (Decidable True)
  | .resume _ => inferInstanceAs (Decidable (_ = true))

/-- The shell of a user who has typed no NUL. -/
structure SessionInv (s : Session δ) : Prop where
  handed : s.handed = (edited s.typed).lines
  running : s.shell.exited = false → ∃ live, Running s.shell live (edited s.typed)

section

variable {s s' : Session δ} {ev : SessionEvent δ}

/-- What an event does: a line is processed, or a character is read, unless the shell has
exited. -/
inductive Session.Steps (s : Session δ) : SessionEvent δ → Session δ → Prop
  | devices {dev : δ} : Steps s (.devices dev)
      { s with shell := { s.shell with k := { s.shell.k with dev := dev } } }
  | exited {outside : Outside δ} : s.shell.exited = true → Steps s (.resume outside) s
  | processed {outside : Outside δ} {line : CString} {shell : ShellState δ} :
      s.shell.exited = false → s.shell.pending = some line →
      s.shell.processCommand line outside = .ok shell →
      Steps s (.resume outside) { s with shell := shell }
  | read {outside : Outside δ} {c : Option UInt8} {shell : ShellState δ} :
      s.shell.exited = false → s.shell.pending = none → s.shell.readCommand = .ok (c, shell) →
      Steps s (.resume outside)
        { shell := shell
          typed := s.typed ++ c.toList
          handed := s.handed ++ (shell.pending.map CString.chars).toList }

theorem Session.exec_steps {v : Unit} (h : s.exec ev = .ok (v, s')) : s.Steps ev s' := by
  cases ev with
  | devices dev =>
      cases h
      exact .devices
  | resume outside =>
      simp only [Session.exec] at h
      split at h
      · rename_i hexited
        cases h
        exact .exited hexited
      · rename_i hexited
        have hexited := Bool.eq_false_of_not_eq_true hexited
        split at h
        · rename_i line hpending
          simp only [bind_eq_ok] at h
          obtain ⟨shell, hprocess, h⟩ := h
          cases h
          exact .processed hexited hpending hprocess
        · rename_i hnone
          simp only [bind_eq_ok, Prod.exists] at h
          obtain ⟨c, shell, hread, h⟩ := h
          cases h
          exact .read hexited hnone hread

theorem mem_typed_of_exec {c : UInt8} {v : Unit} (h : s.exec ev = .ok (v, s'))
    (hc : c ∈ s.typed) : c ∈ s'.typed := by
  cases Session.exec_steps h with
  | devices => exact hc
  | exited => exact hc
  | processed => exact hc
  | read => exact List.mem_append_left _ hc

/-- A character that the shell reads is typed. -/
theorem Running.readCommand {s s' : ShellState δ} {live : LiveBlocks} {typed : List UInt8}
    {c : Option UInt8} (hs : Running s live (edited typed)) (hnone : s.pending = none)
    (hzero : 0 ∉ typed) (h : s.readCommand = .ok (c, s')) :
    Typed s s' (edited typed) (edited (typed ++ c.toList)) := by
  simp only [ShellState.readCommand, bind_eq_ok, Prod.exists] at h
  obtain ⟨read, k, hread, h⟩ := h
  have hheap := readChar_heap hread
  have hs' : Running { s with k := k } live (edited typed) := by
    refine ⟨?_, ?_, fun hpending ↦ ?_, fun line hline ↦ ?_⟩
    · exact hheap ▸ hs.inv
    · exact hheap ▸ hs.bottom
    · exact hheap ▸ hs.typing hpending
    · exact hheap ▸ hs.processing line hline
  split at h
  · rename_i c
    simp only [bind_eq_ok] at h
    obtain ⟨s₁, htype, h⟩ := h
    cases h
    have hline : 0 ∉ (edited typed).line := fun hmem ↦ hzero (Editor.mem_of_mem_line hmem)
    have htyped := hs'.typeChar hnone hline htype
    rw [Option.toList_some, edited_append]
    exact ⟨htyped.exited, htyped.lines, htyped.running⟩
  · cases h
    rw [Option.toList_none, List.append_nil]
    exact typed_of_edits rfl hnone rfl hs'.inv hs'.bottom (hs'.typing hnone)

/-- **Step.**  An event keeps what was handed on to the lines that were typed. -/
theorem SessionInv.exec {v : Unit} (hs : 0 ∉ s.typed → SessionInv s) (hok : s.Redirects ev)
    (h : s.exec ev = .ok (v, s')) (hzero : 0 ∉ s'.typed) : SessionInv s' := by
  have hi := hs fun hmem ↦ hzero (mem_typed_of_exec h hmem)
  cases Session.exec_steps h with
  | devices =>
      refine ⟨hi.handed, fun hexited ↦ ?_⟩
      obtain ⟨live, hrun⟩ := hi.running hexited
      exact ⟨live, hrun.inv, hrun.bottom, hrun.typing, hrun.processing⟩
  | exited => exact hi
  | processed hexited hpending hprocess =>
      obtain ⟨live, hrun⟩ := hi.running hexited
      rw [Session.Redirects, hpending] at hok
      exact ⟨hi.handed, (hrun.processCommand hpending hok hprocess).2⟩
  | @read _ c _ hexited hnone hread =>
      obtain ⟨live, hrun⟩ := hi.running hexited
      have htyped := hrun.readCommand hnone
        (fun hmem ↦ hzero (List.mem_append_left _ hmem)) hread
      refine ⟨?_, fun _ ↦ htyped.running⟩
      change s.handed ++ _ = (edited (s.typed ++ c.toList)).lines
      rw [htyped.lines, hi.handed]

end

/-- The shell comes to its loop with an empty buffer. -/
theorem sessionInv_start {k : Kernel δ} {shell : ShellState δ} {live : LiveBlocks}
    (hinv : HeapInv k.heap.allocator live)
    (hbottom : k.heap.allocator.bottom + scannedBits < 2 ^ 32) (h : shellStart k = .ok shell) :
    SessionInv (Session.start shell) := by
  simp only [shellStart, bind_eq_ok, Prod.exists] at h
  obtain ⟨workingDir, heap, happend, k₁, hprint, h⟩ := h
  cases h
  obtain ⟨live', happ⟩ := append_ok hinv List.length_singleton Nat.one_pos (by decide)
    (holds_zero k.heap live 1) happend
  have hheap : k₁.heap = heap := print_heap hprint
  refine ⟨rfl, fun _ ↦ ⟨live', ?_, ?_, fun _ ↦ ?_, fun _ hsome ↦ nomatch hsome⟩⟩
  · exact hheap ▸ happ.inv
  · change k₁.heap.allocator.bottom + scannedBits < 2 ^ 32
    rw [hheap, happ.frame.bottom]
    exact hbottom
  · exact ⟨holds_zero k₁.heap live' 1, rfl⟩

/-- **What the shell hands on is what was typed.**  When no redirection fails, the strings
that `string_split` has got are the lines that were typed, after any sequence of events. -/
theorem handed_eq_lines {k : Kernel δ} {shell : ShellState δ} {live : LiveBlocks}
    {s : Session δ} (hinv : HeapInv k.heap.allocator live)
    (hbottom : k.heap.allocator.bottom + scannedBits < 2 ^ 32) (hstart : shellStart k = .ok shell)
    (h : Reaches Session.exec Session.Redirects (Session.start shell) s) (hzero : 0 ∉ s.typed) :
    s.handed = (edited s.typed).lines := by
  have hinv : 0 ∉ s.typed → SessionInv s :=
    h.invariant (I := fun s ↦ 0 ∉ s.typed → SessionInv s)
      (fun _ ↦ sessionInv_start hinv hbottom hstart) fun hs hok hx ↦ SessionInv.exec hs hok hx
  exact (hinv hzero).handed

/-! ## Two lines -/

/-- Around the commands of these sessions is nothing that they use. -/
def quietOutside : Outside Devices where
  past := fun _ ↦ 0
  stack := fun _ ↦ 0
  errorMsg := ⟨[], List.not_mem_nil⟩
  program := fun _ dev ↦ .ok dev
  line := burstLine
  fuel := 0

/-- A user types a line, and the shell goes on until it has read and processed it. -/
def typeLine (text : String) : List (SessionEvent Devices) :=
  let cs := ofText text
  .devices { Devices.zero with keyboard := ⟨false, ⟨Bytes.ofList cs, cs.length, 0⟩⟩ } ::
    List.replicate (cs.length + 1) (.resume quietOutside)

/-- The shell of a machine whose disk was formatted. -/
def systemShell : Except Stop (ShellState Devices) := shellStart systemKernel

/-- What is handed on when a line is corrected as it is typed. -/
theorem handed_corrected : ∃ shell s, systemShell = .ok shell ∧
    Reaches Session.exec Session.Redirects (Session.start shell) s ∧
    s.typed = ofText "hepp\x08\x08lp\nls /\n" ∧
    s.handed = (edited s.typed).lines := by
  have hcheck : (systemShell.toOption.any fun shell ↦
      (runCalls Session.exec Session.Redirects (typeLine "hepp\x08\x08lp\n" ++ typeLine "ls /\n")
        (Session.start shell)).any fun s ↦
          decide (s.typed = ofText "hepp\x08\x08lp\nls /\n")) = true := by
    decide +kernel
  obtain ⟨shell, hshell, hcheck⟩ := (Option.any_eq_true _ _).mp hcheck
  obtain ⟨s, hs, htyped⟩ := (Option.any_eq_true _ _).mp hcheck
  have htyped := of_decide_eq_true htyped
  have hstart := toOption_eq_some.mp hshell
  have hreach := reaches_of_runCalls hs
  obtain ⟨live, hinv⟩ := formattedWith_systemKernel.formatted.namespaceInv.heap
  refine ⟨shell, s, hstart, hreach, htyped, ?_⟩
  refine handed_eq_lines hinv ?_ hstart hreach ?_
  · have hbottom : systemKernel.heap.allocator.bottom = 0x400000 := by
      decide +kernel
    rw [hbottom]
    decide
  · rw [htyped]
    decide

/-- **After a redirection that fails, the old line is handed on again.**  There is no `/b`;
the line behind is `help`. -/
theorem failed_redirection_repeats : ∃ shell s, systemShell = .ok shell ∧
    Reaches Session.exec (fun _ _ ↦ True) (Session.start shell) s ∧ 0 ∉ s.typed ∧
    s.typed = ofText "> /b\nhelp\n" ∧ s.handed = [ofText "> /b", ofText "> /b"] ∧
    (edited s.typed).lines = [ofText "> /b", ofText "help"] := by
  have hcheck : (systemShell.toOption.any fun shell ↦
      (runCalls Session.exec (fun _ _ ↦ True) (typeLine "> /b\n" ++ typeLine "help\n")
        (Session.start shell)).any fun s ↦
          decide (s.typed = ofText "> /b\nhelp\n" ∧
            s.handed = [ofText "> /b", ofText "> /b"])) = true := by
    decide +kernel
  obtain ⟨shell, hshell, hcheck⟩ := (Option.any_eq_true _ _).mp hcheck
  obtain ⟨s, hs, hsession⟩ := (Option.any_eq_true _ _).mp hcheck
  obtain ⟨htyped, hhanded⟩ := of_decide_eq_true hsession
  refine ⟨shell, s, toOption_eq_some.mp hshell, reaches_of_runCalls hs, ?_, htyped, hhanded, ?_⟩
  · rw [htyped]
    decide
  · rw [htyped]
    decide

end Yorha.Shell
