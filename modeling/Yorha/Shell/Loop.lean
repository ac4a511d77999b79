import Yorha.Shell.Sget

/-!
# The shell

`shell` of `kernel.c`, as the code computes it: its endless loop reads a character, edits
the current command, and when a line ends processes the command.  One round of the loop is
`readCommand`, up to the call of `string_split`, and `processCommand` from there on.

A `Session` is the shell with what a user sees of it: the characters that it got from
`STDIN`, and the strings it has handed to `string_split`.
-/

namespace Yorha.Shell

open Yorha.Lib Yorha.Str Yorha.Heap
open Yorha.Fs hiding read write

variable {δ : Type}

/-! ## Commands -/

/-- The commands that a word can name. -/
inductive Command where
  | exit
  | help
  | ls
  | cat
  | echo
  | touch
  | rm
  | mkdir
  | sget
  | run
  | unknown
deriving DecidableEq

/-- The names of the commands, in the order in which they are tried. -/
def commandNames : List (String × Command) :=
  [("exit", .exit), ("help", .help), ("ls", .ls), ("cat", .cat), ("echo", .echo),
    ("touch", .touch), ("rm", .rm), ("mkdir", .mkdir), ("sget", .sget), ("run", .run)]

/-- The first command of the rest of the names that a word matches: the tests of `PREFIX`. -/
def findCommand (h : KernelHeap) (word : HeapString) :
    List (String × Command) → Except Stop Command
  | [] => .ok .unknown
  | (name, command) :: names => do
      let found ← matchString h word name
      if found then .ok command else findCommand h word names

/-- Run a command.  The shell itself does what `exit` says. -/
def Command.exec (k : Kernel δ) (exp1Stdout : Int) (cmd : StringList) (outside : Outside δ) :
    Command → Except Stop (Int × Kernel δ)
  | .exit => .ok (0, k)
  | .help => do
      let k ← print k stdout "commands: ls, cat, echo, touch, rm, mkdir\n" 43
      .ok (0, k)
  | .ls => execLs k exp1Stdout cmd
  | .cat => execCat k exp1Stdout cmd outside.fuel
  | .echo => execEcho k exp1Stdout cmd
  | .touch => execTouch k cmd outside.past
  | .rm => execRm k cmd outside.past
  | .mkdir => execMkdir k cmd outside.past
  | .sget => execSget k cmd outside.line outside.fuel
  | .run => execRun k cmd outside
  | .unknown => do
      let k ← print k stdout "Couldn't parse command\n" 24
      .ok (0, k)

/-! ## Redirection -/

/-- The loop that looks for `>`, over `n` more words from number `i` on: the number of the
word behind it. -/
def findRedirection (h : KernelHeap) (cmd : StringList) : Nat → Nat → Except Stop (Option Nat)
  | 0, _ => .ok none
  | n + 1, i => do
      let found ← matchString h (cmd.string h i) ">"
      if found then
        if i + 2 = cmd.len then .ok (some (i + 1))
        else .error (.panic "only can combo with a single file")
      else findRedirection h cmd n (i + 1)

/-- The descriptor that a command writes to. -/
def openRedirection (k : Kernel δ) (cmd : StringList) : Except Stop (Int × Kernel δ) := do
  match ← findRedirection k.heap cmd (toUint32 (cmd.len - 1)) 0 with
  | some i => do
      let path ← argument k cmd i
      openFile k path
  | none => .ok (stdout, k)

/-! ## The loop -/

/-- The variables of `shell`, and where it is. -/
structure ShellState (δ : Type) where
  k : Kernel δ
  currCommand : HeapString
  workingDir : HeapString
  /-- The argument of `string_split`, while it is being called. -/
  pending : Option CString
  exited : Bool

/-- What comes before the loop. -/
def shellStart (k : Kernel δ) : Except Stop (ShellState δ) := do
  let (workingDir, heap) ← append k.heap .zero [slash]
  let k ← print { k with heap := heap } stdout "$ " 2
  .ok ⟨k, .zero, workingDir, none, false⟩

/-- `'\b'`. -/
def backspace : UInt8 := 8

/-- `'\n'`. -/
def newline : UInt8 := 10

/-- `' '`. -/
def space : UInt8 := 32

/-- What is done with a character, up to the processing of a command. -/
def ShellState.typeChar (s : ShellState δ) (c : UInt8) : Except Stop (ShellState δ) :=
  if c = backspace then
    if s.currCommand.len > 0 then do
      let k ← print s.k stdout "\x08" 1
      .ok { s with k := k, currCommand := { s.currCommand with len := s.currCommand.len - 1 } }
    else .ok s
  else do
    let (_, k) ← writeChar s.k stdout c
    if c ≠ newline then do
      let (currCommand, heap) ← append k.heap s.currCommand [c]
      .ok { s with k := { k with heap := heap }, currCommand := currCommand }
    else if s.currCommand.len = 0 then do
      let k ← print k stdout "\n$ " 3
      .ok { s with k := k }
    else do
      let (currCommand, heap) ← append k.heap s.currCommand [0]
      let line ← heapString heap currCommand.contents
      .ok { s with
        k := { k with heap := heap }, currCommand := currCommand, pending := some line }

/-- Reads a character, if there is one. -/
def ShellState.readCommand (s : ShellState δ) : Except Stop (Option UInt8 × ShellState δ) := do
  let (c, k) ← readChar s.k stdin
  match c with
  | some c => do
      let s ← ({ s with k := k } : ShellState δ).typeChar c
      .ok (some c, s)
  | none => .ok (none, { s with k := k })

/-- Closes the descriptor that a command wrote to, if one was opened for it. -/
def closeRedirection (k : Kernel δ) (exp1Stdout : Int) : Except Stop (Kernel δ) :=
  if exp1Stdout ≠ stdout then do
    let (_, k) ← close k exp1Stdout
    .ok k
  else .ok k

/-- Reports that a command failed. -/
def reportError (k : Kernel δ) (exitCode : Int) (errorMsg : CString) :
    Except Stop (Kernel δ) :=
  if exitCode = -1 then do
    let (_, k) ← Fs.write k stderr (Bytes.ofList errorMsg.chars) errorMsg.chars.length
    .ok k
  else .ok k

/-- What comes after a command, up to the next round of the loop. -/
def finishCommand (k : Kernel δ) (exp1Stdout exitCode : Int) (cmd : StringList)
    (outside : Outside δ) : Except Stop (Kernel δ) := do
  let k ← closeRedirection k exp1Stdout
  let k ← reportError k exitCode outside.errorMsg
  let heap ← freeStringList k.heap cmd
  print { k with heap := heap } stdout "\n$ " 3

/-- Processes the command that a line holds. -/
def ShellState.processCommand (s : ShellState δ) (line : CString) (outside : Outside δ) :
    Except Stop (ShellState δ) := do
  let (cmd, heap) ← stringSplit s.k.heap line.chars space true
  let (exp1Stdout, k) ← openRedirection { s.k with heap := heap } cmd
  if exp1Stdout = -1 then do
    let k ← print k stdout "Couldn't parse command\n" 24
    let k ← print k stdout "\n$ " 3
    -- the line stays in the buffer, with its terminator
    .ok { s with k := k, pending := none }
  else do
    let command ← findCommand k.heap (cmd.string k.heap 0) commandNames
    if command = .exit then do
      let heap ← freeString k.heap s.currCommand
      let heap ← freeString heap s.workingDir
      let heap ← freeStringList heap cmd
      .ok { s with k := { k with heap := heap }, pending := none, exited := true }
    else do
      let (exitCode, k) ← command.exec k exp1Stdout cmd outside
      let k ← finishCommand k exp1Stdout exitCode cmd outside
      .ok { s with k := k, currCommand := { s.currCommand with len := 0 }, pending := none }

/-! ## Sessions -/

/-- The shell, the characters that it got from `STDIN`, and the strings it has handed to
`string_split`. -/
structure Session (δ : Type) where
  shell : ShellState δ
  typed : List UInt8
  handed : List (List UInt8)

/-- What happens in a session. -/
inductive SessionEvent (δ : Type) where
  /-- The devices change: keys are pressed, bytes arrive, interrupts are handled. -/
  | devices (dev : δ)
  /-- The shell goes on, to the call of `string_split` or from there. -/
  | resume (outside : Outside δ)

/-- One event. -/
def Session.exec (s : Session δ) : SessionEvent δ → Except Stop (Unit × Session δ)
  | .devices dev =>
      let k := { s.shell.k with dev := dev }
      .ok ((), { s with shell := { s.shell with k := k } })
  | .resume outside =>
      if s.shell.exited then .ok ((), s)
      else match s.shell.pending with
        | some line => do
            let shell ← s.shell.processCommand line outside
            .ok ((), { s with shell := shell })
        | none => do
            let (c, shell) ← s.shell.readCommand
            .ok ((), {
              shell := shell
              typed := s.typed ++ c.toList
              handed := s.handed ++ (shell.pending.map CString.chars).toList })

/-- The session of a shell that comes to its loop. -/
def Session.start (shell : ShellState δ) : Session δ := ⟨shell, [], []⟩

end Yorha.Shell
