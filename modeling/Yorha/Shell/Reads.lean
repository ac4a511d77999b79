import Yorha.Lib.Logged
import Yorha.Shell.Loop

/-!
# The words that are read of a command

The dispatch of the shell and the `exec_*` functions once more, with a log of every access to
`cmd.contents`.  Each of them is the function as it was, but for the words: where that takes
`cmd.contents[i]`, this one goes through `wordReads`, which logs `i` with `cmd.len`.  What is
lifted into the log gets a word or a path, and no list of words.

`processCommandReads` is all that is done with a line.  Without its log it is `processCommand`
(`processCommandReads_result`).
-/

namespace Yorha.Shell

open Yorha.Lib Yorha.Str Yorha.Heap
open Yorha.Fs hiding read write

variable {δ : Type}

/-- An access to a word of a command: the number of the word, and how many words there are. -/
structure WordRead where
  index : Nat
  len : Nat
deriving DecidableEq

/-- The access is to a word that is there. -/
def WordRead.InBounds (a : WordRead) : Prop := a.index < a.len

instance (a : WordRead) : Decidable a.InBounds := inferInstanceAs (Decidable (_ < _))

/-- Calls that log the words that they read. -/
abbrev WordReads : Type → Type := Logged WordRead Stop

/-- `cmd.contents[i]`. -/
def wordReads (h : KernelHeap) (cmd : StringList) (i : Nat) : WordReads HeapString :=
  .note ⟨i, cmd.len⟩ (.ok (cmd.string h i))

/-- `argument`. -/
def argumentReads (k : Kernel δ) (cmd : StringList) (i : Nat) : WordReads CString := do
  let word ← wordReads k.heap cmd i
  .lift (heapString k.heap word.contents)

/-! ## The handlers -/

/-- `execLs`. -/
def execLsReads (k : Kernel δ) (stdout : Int) (cmd : StringList) :
    WordReads (Int × Kernel δ) := do
  let path ← argumentReads k cmd 1
  let (ptr, k) ← .lift (strListDir k path)
  match ptr with
  | none => pure (-1, k)
  | some ptr => do
      let text ← .lift (heapString k.heap ptr)
      let (_, k) ← .lift (Fs.write k stdout (k.heap.mem.drop ptr) text.chars.length)
      let allocator ← .lift (kfree k.heap.allocator ptr)
      pure (0, { k with heap := ⟨allocator, k.heap.mem⟩ })

/-- `dumps`. -/
def dumpsReads (h : KernelHeap) (cmd : StringList) : WordReads Bool :=
  if cmd.len = 3 then do
    let word ← wordReads h cmd 1
    .lift (matchString h word "-b")
  else pure false

/-- `catByte`. -/
def catByteReads (k : Kernel δ) (stdout : Int) (cmd : StringList) (c : UInt8) :
    WordReads (Kernel δ) := do
  let dump ← dumpsReads k.heap cmd
  if dump then do
    let k ← .lift (print k stdout "\\x" 2)
    let top ← .lift (nibToHex (charValue c / 16))
    let (_, k) ← .lift (writeChar k stdout top)
    let bottom ← .lift (nibToHex (c.toNat % 16))
    let (_, k) ← .lift (writeChar k stdout bottom)
    pure k
  else do
    let (_, k) ← .lift (writeChar k stdout c)
    pure k

/-- `catLoop`. -/
def catLoopReads (fd stdout : Int) (cmd : StringList) : Nat → Kernel δ → WordReads (Kernel δ)
  | 0, _ => .lift (.error .hang)
  | fuel + 1, k => do
      let (c, k) ← .lift (readChar k fd)
      match c with
      | some c => do
          let k ← catByteReads k stdout cmd c
          catLoopReads fd stdout cmd fuel k
      | none => pure k

/-- `execCat`. -/
def execCatReads (k : Kernel δ) (stdout : Int) (cmd : StringList) (fuel : Nat) :
    WordReads (Int × Kernel δ) := do
  let path ← argumentReads k cmd (cmd.len - 1)
  let (fd, k) ← .lift (openFile k path)
  if fd = -1 then pure (-1, k)
  else do
    let k ← catLoopReads fd stdout cmd fuel k
    let (_, k) ← .lift (close k fd)
    pure (0, k)

/-- `execEcho`, which reads its word for the length and for the text. -/
def execEchoReads (k : Kernel δ) (stdout : Int) (cmd : StringList) :
    WordReads (Int × Kernel δ) := do
  let text ← argumentReads k cmd 1
  let count := text.chars.length
  let word ← wordReads k.heap cmd 1
  let (written, k) ← .lift (Fs.write k stdout (k.heap.mem.drop word.contents) count)
  pure (if written ≠ count then -1 else 0, k)

/-- `execTouch`. -/
def execTouchReads (k : Kernel δ) (cmd : StringList) (past : Bytes) :
    WordReads (Int × Kernel δ) := do
  let path ← argumentReads k cmd 1
  .lift (createFiletype k path fileTypeNormal false past)

/-- `execRm`. -/
def execRmReads (k : Kernel δ) (cmd : StringList) (past : Bytes) :
    WordReads (Int × Kernel δ) := do
  let path ← argumentReads k cmd 1
  .lift (unlink k path past)

/-- `execMkdir`. -/
def execMkdirReads (k : Kernel δ) (cmd : StringList) (past : Bytes) :
    WordReads (Int × Kernel δ) := do
  let path ← argumentReads k cmd 1
  .lift (createFiletype k path fileTypeDir false past)

/-- `execSget`. -/
def execSgetReads (k : Kernel δ) (cmd : StringList) (line : Line δ) (fuel : Nat) :
    WordReads (Int × Kernel δ) := do
  let path ← argumentReads k cmd 1
  let (fd, k) ← .lift (openFile k path)
  if fd = -1 then pure (-1, k)
  else do
    let k ← .lift (print k stdout "waiting for serial port to initiate communication...\n" 54)
    .lift (Sget.run line fd fuel 0
      { k := k, point := .top, timerCounter := line.timerCounter, baseTime := line.timerCounter,
        inMessage := false, bytesRead := 0, fileSize := fun _ ↦ 0 })

/-- `execRun`. -/
def execRunReads (k : Kernel δ) (cmd : StringList) (outside : Outside δ) :
    WordReads (Int × Kernel δ) := do
  let path ← argumentReads k cmd 1
  let (fd, k) ← .lift (openFile k path)
  if fd = -1 then .lift (.error (.panic "Need to revert paging"))
  else do
    let ((_, header), k) ← .lift (Fs.read k fd outside.stack 12)
    let entry := (header.drop 4).word
    let size := (header.drop 8).word
    if 4 * (size / 4 + 1) ≤ stackSize then do
      let (_, k) ← .lift (seek k fd (toInt32 entry) 0)
      let (_, k) ← .lift (Fs.read k fd (fun _ ↦ 0) size)
      let dev ← .lift (outside.program entry k.dev)
      pure (-1, { k with dev := dev })
    else .lift (.error .fault)

/-! ## The dispatch -/

/-- `Command.exec`. -/
def Command.execReads (k : Kernel δ) (exp1Stdout : Int) (cmd : StringList)
    (outside : Outside δ) : Command → WordReads (Int × Kernel δ)
  | .exit => pure (0, k)
  | .help => do
      let k ← .lift (print k stdout "commands: ls, cat, echo, touch, rm, mkdir\n" 43)
      pure (0, k)
  | .ls => execLsReads k exp1Stdout cmd
  | .cat => execCatReads k exp1Stdout cmd outside.fuel
  | .echo => execEchoReads k exp1Stdout cmd
  | .touch => execTouchReads k cmd outside.past
  | .rm => execRmReads k cmd outside.past
  | .mkdir => execMkdirReads k cmd outside.past
  | .sget => execSgetReads k cmd outside.line outside.fuel
  | .run => execRunReads k cmd outside
  | .unknown => do
      let k ← .lift (print k stdout "Couldn't parse command\n" 24)
      pure (0, k)

/-- `findCommand`, for the first word. -/
def findCommandReads (h : KernelHeap) (cmd : StringList) :
    List (String × Command) → WordReads Command
  | [] => pure .unknown
  | (name, command) :: names => do
      let word ← wordReads h cmd 0
      let found ← .lift (matchString h word name)
      if found then pure command else findCommandReads h cmd names

/-- `findRedirection`. -/
def findRedirectionReads (h : KernelHeap) (cmd : StringList) :
    Nat → Nat → WordReads (Option Nat)
  | 0, _ => pure none
  | n + 1, i => do
      let word ← wordReads h cmd i
      let found ← .lift (matchString h word ">")
      if found then
        if i + 2 = cmd.len then pure (some (i + 1))
        else .lift (.error (.panic "only can combo with a single file"))
      else findRedirectionReads h cmd n (i + 1)

/-- `openRedirection`. -/
def openRedirectionReads (k : Kernel δ) (cmd : StringList) : WordReads (Int × Kernel δ) := do
  match ← findRedirectionReads k.heap cmd (toUint32 (cmd.len - 1)) 0 with
  | some i => do
      let path ← argumentReads k cmd i
      .lift (openFile k path)
  | none => pure (stdout, k)

/-- What comes of a command, before anything is said about it. -/
inductive Outcome (δ : Type) where
  /-- The redirection failed. -/
  | refused (k : Kernel δ)
  /-- The command is `exit`. -/
  | exited (k : Kernel δ)
  /-- The handler returned. -/
  | returned (exp1Stdout exitCode : Int) (k : Kernel δ)

/-- What the shell does with the words of a line, up to the return of a handler. -/
def dispatchReads (k : Kernel δ) (cmd : StringList) (outside : Outside δ) :
    WordReads (Outcome δ) := do
  let (exp1Stdout, k) ← openRedirectionReads k cmd
  if exp1Stdout = -1 then pure (.refused k)
  else do
    let command ← findCommandReads k.heap cmd commandNames
    if command = .exit then pure (.exited k)
    else do
      let (exitCode, k) ← command.execReads k exp1Stdout cmd outside
      pure (.returned exp1Stdout exitCode k)

/-- The words of a line, and what comes of them. -/
def ShellState.dispatchReads (s : ShellState δ) (line : CString) (outside : Outside δ) :
    WordReads (StringList × Outcome δ) := do
  let (cmd, heap) ← .lift (stringSplit s.k.heap line.chars space true)
  let outcome ← Shell.dispatchReads { s.k with heap := heap } cmd outside
  pure (cmd, outcome)

/-- What the shell says and frees at the end. -/
def ShellState.finishLine (s : ShellState δ) (cmd : StringList) (outside : Outside δ) :
    Outcome δ → Except Stop (ShellState δ)
  | .refused k => do
      let k ← print k stdout "Couldn't parse command\n" 24
      let k ← print k stdout "\n$ " 3
      .ok { s with k := k, pending := none }
  | .exited k => do
      let heap ← freeString k.heap s.currCommand
      let heap ← freeString heap s.workingDir
      let heap ← freeStringList heap cmd
      .ok { s with k := { k with heap := heap }, pending := none, exited := true }
  | .returned exp1Stdout exitCode k => do
      let k ← finishCommand k exp1Stdout exitCode cmd outside
      .ok { s with k := k, currCommand := { s.currCommand with len := 0 }, pending := none }

/-- `processCommand`. -/
def ShellState.processCommandReads (s : ShellState δ) (line : CString) (outside : Outside δ) :
    WordReads (ShellState δ) := do
  let (cmd, outcome) ← s.dispatchReads line outside
  .lift (s.finishLine cmd outside outcome)

/-! ## Without the logs -/

section

variable {h : KernelHeap} {k : Kernel δ} {cmd : StringList} {out : Int} {outside : Outside δ}

@[simp] theorem wordReads_result (i : Nat) :
    (wordReads h cmd i).result = .ok (cmd.string h i) := rfl

@[simp] theorem argumentReads_result (i : Nat) :
    (argumentReads k cmd i).result = argument k cmd i := rfl

@[simp] theorem execLsReads_result : (execLsReads k out cmd).result = execLs k out cmd := by
  rw [execLsReads, execLs, Logged.result_bind, argumentReads_result]
  refine bind_congr fun path ↦ ?_
  rw [Logged.result_bind, Logged.result_lift]
  refine bind_congr fun (ptr, k₁) ↦ ?_
  cases ptr with
  | none => rfl
  | some ptr => rfl

@[simp] theorem dumpsReads_result : (dumpsReads h cmd).result = dumps h cmd := by
  rw [dumpsReads, dumps, Logged.result_ite]
  rfl

@[simp] theorem catByteReads_result (c : UInt8) :
    (catByteReads k out cmd c).result = catByte k out cmd c := by
  simp only [catByteReads, catByte, Logged.result_bind, dumpsReads_result, Logged.result_ite,
    Logged.result_lift, Logged.result_pure]

@[simp] theorem catLoopReads_result (fd : Int) (fuel : Nat) :
    (catLoopReads fd out cmd fuel k).result = catLoop fd out cmd fuel k := by
  induction fuel generalizing k with
  | zero => rfl
  | succ fuel ih =>
      rw [catLoopReads, catLoop, Logged.result_bind, Logged.result_lift]
      refine bind_congr fun (c, k₁) ↦ ?_
      cases c with
      | none => rfl
      | some c => simp only [Logged.result_bind, catByteReads_result, ih]

@[simp] theorem execCatReads_result (fuel : Nat) :
    (execCatReads k out cmd fuel).result = execCat k out cmd fuel := by
  simp only [execCatReads, execCat, Logged.result_bind, argumentReads_result, Logged.result_ite,
    catLoopReads_result, Logged.result_lift, Logged.result_pure]

@[simp] theorem execSgetReads_result (line : Line δ) (fuel : Nat) :
    (execSgetReads k cmd line fuel).result = execSget k cmd line fuel := by
  simp only [execSgetReads, execSget, Logged.result_bind, argumentReads_result,
    Logged.result_ite, Logged.result_lift, Logged.result_pure]

@[simp] theorem execRunReads_result :
    (execRunReads k cmd outside).result = execRun k cmd outside := by
  simp only [execRunReads, execRun, Logged.result_bind, argumentReads_result,
    Logged.result_ite, Logged.result_lift, Logged.result_pure]

@[simp] theorem Command.execReads_result (c : Command) :
    (c.execReads k out cmd outside).result = c.exec k out cmd outside := by
  cases c with
  | ls => exact execLsReads_result
  | cat => exact execCatReads_result _
  | sget => exact execSgetReads_result _ _
  | run => exact execRunReads_result
  | exit | help | echo | touch | rm | mkdir | unknown => rfl

@[simp] theorem findCommandReads_result (names : List (String × Command)) :
    (findCommandReads h cmd names).result = findCommand h (cmd.string h 0) names := by
  induction names with
  | nil => rfl
  | cons p names ih =>
      simp only [findCommandReads, findCommand, Logged.result_bind, wordReads_result, ok_bind,
        Logged.result_lift, Logged.result_ite, Logged.result_pure, ih]

@[simp] theorem findRedirectionReads_result (n i : Nat) :
    (findRedirectionReads h cmd n i).result = findRedirection h cmd n i := by
  induction n generalizing i with
  | zero => rfl
  | succ n ih =>
      simp only [findRedirectionReads, findRedirection, Logged.result_bind, wordReads_result,
        ok_bind, Logged.result_lift, Logged.result_ite, Logged.result_pure, ih]

@[simp] theorem openRedirectionReads_result :
    (openRedirectionReads k cmd).result = openRedirection k cmd := by
  rw [openRedirectionReads, openRedirection, Logged.result_bind, findRedirectionReads_result]
  refine bind_congr fun r ↦ ?_
  cases r with
  | none => rfl
  | some i => rfl

/-- **The shell that logs is the shell.** -/
theorem processCommandReads_result (s : ShellState δ) (line : CString) (outside : Outside δ) :
    (s.processCommandReads line outside).result = s.processCommand line outside := by
  simp only [ShellState.processCommandReads, ShellState.dispatchReads, dispatchReads,
    ShellState.processCommand, Logged.result_bind, Logged.result_lift, Logged.result_pure,
    openRedirectionReads_result, bind_assoc, ok_bind]
  refine bind_congr fun (cmd, heap) ↦ bind_congr fun (exp1Stdout, k) ↦ ?_
  simp only [Logged.result_ite, Logged.result_bind, Logged.result_pure, findCommandReads_result,
    Command.execReads_result]
  split
  · rfl
  · simp only [bind_assoc]
    refine bind_congr fun command ↦ ?_
    split
    · rfl
    · simp only [bind_assoc, ok_bind, ShellState.finishLine]

end

end Yorha.Shell
