import Mathlib.Data.List.TakeWhile
import Yorha.Fs.Unresolved
import Yorha.Shell.Reads
import Yorha.Shell.Redirect

/-!
# Missing arguments

A handler reads a word of its command without asking whether there is one.  The list of a line of
one word has room for two strings, the second of which is zero: a handler that reads it reads a
string at address 0, which is not mapped.  `cat` reads the last word, which is then its own name.

An argument may be missing with words behind the name: words of a redirection are no arguments,
and neither is an empty word, or the `-b` of `cat`.  The handlers take them for paths all the same.
None of them begins with a slash, which `ls`, `touch` and `mkdir` report; the others go on, and
`echo` has nothing to report.  So what is left over from a missing argument decides whether it is
reported (`argumentsPresent_iff`).

A word that lies behind the heap's page cannot be read.  The dispatch reads no more of the words
than it needs, and of those that it only compares with `>` no more than their beginning.
-/

namespace Yorha.Shell

open Yorha.Lib Yorha.Str Yorha.Heap
open Yorha.Fs hiding read write

variable {δ : Type}

/-! ## Arguments -/

/-- The words of a line. -/
def lineWords (line : CString) : List (List UInt8) := splitWords space true false line.chars

/-- The commands that take an argument. -/
def Command.takesArgument : Command → Bool
  | .exit | .help | .unknown => false
  | .ls | .cat | .echo | .touch | .rm | .mkdir | .sget | .run => true

/-- The arguments among the words of a line: those behind the name up to the first `>`, but no
empty ones, and for `cat` no `-b`. -/
def Command.arguments (c : Command) (words : List (List UInt8)) : List (List UInt8) :=
  (words.tail.takeWhile (· ≠ ofText ">")).filter fun word ↦
    word ≠ [] ∧ ¬ (c = .cat ∧ word = ofText "-b")

/-- The line names a command that takes an argument, and gives it none. -/
def LacksArgument (line : CString) : Prop :=
  (lineCommand line).takesArgument = true ∧ (lineCommand line).arguments (lineWords line) = []

instance (line : CString) : Decidable (LacksArgument line) :=
  inferInstanceAs (Decidable (_ ∧ _))

/-- The shell says that something is wrong: that it cannot parse the command, or what `error_msg`
says. -/
def Outcome.ReportsError : Outcome δ → Prop
  | .refused _ => True
  | .exited _ => False
  | .returned _ exitCode _ => exitCode = -1

/-- The dispatch and the handler read words where there are words, and a missing argument is
reported. -/
structure ArgumentsPresent (s : ShellState δ) (line : CString) (outside : Outside δ) : Prop where
  inBounds : (s.dispatchReads line outside).All WordRead.InBounds
  reported : LacksArgument line → ∃ cmd outcome,
    (s.dispatchReads line outside).result = .ok (cmd, outcome) ∧ outcome.ReportsError

/-- A word of a list can be read to its end. -/
def Readable (h : KernelHeap) (cmd : StringList) (i : Nat) : Prop :=
  ∃ word : CString, heapString h (cmd.string h i).contents = .ok word

/-- All words but the last can be compared with `>`. -/
def Comparable (h : KernelHeap) (cmd : StringList) : Prop :=
  ∀ i < cmd.len - 1, ∃ found, matchString h (cmd.string h i) ">" = .ok found

instance (h : KernelHeap) (cmd : StringList) (i : Nat) : Decidable (Readable h cmd i) :=
  decidable_of_iff _ isSome_toOption

instance (h : KernelHeap) (cmd : StringList) : Decidable (Comparable h cmd) :=
  decidable_of_iff
    (∀ i < cmd.len - 1, (matchString h (cmd.string h i) ">").toOption.isSome = true)
    (forall₂_congr fun _ _ ↦ isSome_toOption)

/-- Where the output of a command goes, and the kernel in which its handler is called: the
terminal, if no word but the last is `>`, or what `open` returns for the target. -/
inductive Output (k : Kernel δ) (cmd : StringList) (words : List (List UInt8)) :
    Int → Kernel δ → Prop
  | terminal : Comparable k.heap cmd → ofText ">" ∉ words.dropLast → Output k cmd words stdout k
  | file {path : CString} {out : Int} {k' : Kernel δ} : Comparable k.heap cmd →
      redirection words = some path.chars → Readable k.heap cmd (cmd.len - 1) →
      openFile k path = .ok (out, k') → Output k cmd words out k'

/-- What a handler takes for its argument, and is no absolute path, ends in a report: `echo`
reports that it could not write the whole word, and the others that they know no such path. -/
def Command.ReportsWord (k : Kernel δ) (out : Int) (cmd : StringList) (word : List UInt8) :
    Command → Prop
  | .ls | .touch | .mkdir => True
  | .echo => ∃ written k',
      Fs.write k out (k.heap.mem.drop (cmd.string k.heap 1).contents) word.length =
        .ok (written, k') ∧ written ≠ word.length
  | .exit | .help | .cat | .rm | .sget | .run | .unknown => False

/-- How a line without an argument can end in a report. -/
inductive Reported (k : Kernel δ) (cmd : StringList) (line : CString) : Prop
  /-- The target of its redirection is not there. -/
  | refused {k' : Kernel δ} : Output k cmd (lineWords line) (-1) k' → Reported k cmd line
  /-- It has a second word, and the handler reports that. -/
  | handled {out : Int} {k' : Kernel δ} {word : List UInt8} :
      Output k cmd (lineWords line) out k' → out ≠ -1 → Readable k'.heap cmd 0 →
      (lineWords line)[1]? = some word → Readable k'.heap cmd 1 →
      (lineCommand line).ReportsWord k' out cmd word → Reported k cmd line

/-- `string_split` returns, and what is made of its words ends in a report. -/
def ShellState.ReportsLine (s : ShellState δ) (line : CString) : Prop :=
  ∃ cmd heap, stringSplit s.k.heap line.chars space true = .ok (cmd, heap) ∧
    Reported { s.k with heap := heap } cmd line

/-! ## Words are read where there are words -/

section

variable {h : KernelHeap} {k : Kernel δ} {cmd : StringList} {c : Command} {out : Int}
  {outside : Outside δ}

theorem argumentReads_inBounds {i : Nat} (hi : i < cmd.len) :
    (argumentReads k cmd i).All WordRead.InBounds := by
  rw [argumentReads, Logged.all_bind]
  exact ⟨Logged.all_note.mpr hi, fun _ _ ↦ Logged.all_lift _⟩

theorem catLoopReads_inBounds {fd : Int} {fuel : Nat} :
    (catLoopReads fd out cmd fuel k).All WordRead.InBounds := by
  have hdumps (k : Kernel δ) : (dumpsReads k.heap cmd).All WordRead.InBounds := by
    rw [dumpsReads]
    split
    · rename_i hlen
      rw [Logged.all_bind]
      refine ⟨Logged.all_note.mpr ?_, fun _ _ ↦ Logged.all_lift _⟩
      change 1 < cmd.len
      omega
    · exact Logged.all_pure _
  have hbyte (k : Kernel δ) (b : UInt8) :
      (catByteReads k out cmd b).All WordRead.InBounds := by
    rw [catByteReads, Logged.all_bind]
    refine ⟨hdumps k, fun dump _ ↦ ?_⟩
    split <;> simp
  induction fuel generalizing k with
  | zero => exact Logged.all_lift _
  | succ fuel ih =>
      rw [catLoopReads, Logged.all_bind]
      refine ⟨Logged.all_lift _, ?_⟩
      rintro ⟨b, k₁⟩ -
      cases b with
      | none => exact Logged.all_pure _
      | some b => exact Logged.all_bind.mpr ⟨hbyte k₁ b, fun _ _ ↦ ih⟩

/-- **Handlers.**  With two words or more, all that a handler reads is there. -/
theorem Command.execReads_inBounds (hlen : c.takesArgument = true → 2 ≤ cmd.len) :
    (c.execReads k out cmd outside).All WordRead.InBounds := by
  cases c with
  | exit => exact Logged.all_pure _
  | help | unknown => simp [Command.execReads]
  | ls =>
      have hlen := hlen rfl
      rw [Command.execReads, execLsReads, Logged.all_bind]
      refine ⟨argumentReads_inBounds hlen, fun path _ ↦ ?_⟩
      rw [Logged.all_bind]
      refine ⟨Logged.all_lift _, ?_⟩
      rintro ⟨ptr, k₁⟩ -
      cases ptr with
      | none => exact Logged.all_pure _
      | some ptr => simp
  | cat =>
      have hlen := hlen rfl
      have hlast : cmd.len - 1 < cmd.len := by omega
      rw [Command.execReads, execCatReads, Logged.all_bind]
      refine ⟨argumentReads_inBounds hlast, fun path _ ↦ ?_⟩
      rw [Logged.all_bind]
      refine ⟨Logged.all_lift _, ?_⟩
      rintro ⟨fd, k₁⟩ -
      change (if fd = -1 then _ else _ : WordReads (Int × Kernel δ)).All _
      split
      · exact Logged.all_pure _
      · exact Logged.all_bind.mpr ⟨catLoopReads_inBounds, fun _ _ ↦ by simp⟩
  | echo =>
      have hlen := hlen rfl
      rw [Command.execReads, execEchoReads, Logged.all_bind]
      refine ⟨argumentReads_inBounds hlen, fun text _ ↦ ?_⟩
      exact Logged.all_bind.mpr ⟨Logged.all_note.mpr hlen, fun _ _ ↦ by simp⟩
  | touch | rm | mkdir =>
      exact Logged.all_bind.mpr ⟨argumentReads_inBounds (hlen rfl), fun _ _ ↦ Logged.all_lift _⟩
  | sget =>
      have hlen := hlen rfl
      rw [Command.execReads, execSgetReads, Logged.all_bind]
      refine ⟨argumentReads_inBounds hlen, fun path _ ↦ ?_⟩
      rw [Logged.all_bind]
      refine ⟨Logged.all_lift _, ?_⟩
      rintro ⟨fd, k₁⟩ -
      change (if fd = -1 then _ else _ : WordReads (Int × Kernel δ)).All _
      split <;> simp
  | run =>
      have hlen := hlen rfl
      rw [Command.execReads, execRunReads, Logged.all_bind]
      refine ⟨argumentReads_inBounds hlen, fun path _ ↦ ?_⟩
      rw [Logged.all_bind]
      refine ⟨Logged.all_lift _, ?_⟩
      rintro ⟨fd, k₁⟩ -
      change (if fd = -1 then _ else _ : WordReads (Int × Kernel δ)).All _
      split
      · exact Logged.all_lift _
      · refine Logged.all_bind.mpr ⟨Logged.all_lift _, ?_⟩
        rintro ⟨⟨n, header⟩, k₂⟩ -
        change (if _ then _ else _ : WordReads (Int × Kernel δ)).All _
        split <;> simp

theorem findCommandReads_inBounds {names : List (String × Command)} (hpos : 0 < cmd.len) :
    (findCommandReads h cmd names).All WordRead.InBounds := by
  induction names with
  | nil => exact Logged.all_pure _
  | cons p names ih =>
      rw [findCommandReads, Logged.all_bind]
      refine ⟨Logged.all_note.mpr hpos, fun word _ ↦ Logged.all_bind.mpr
        ⟨Logged.all_lift _, fun found _ ↦ ?_⟩⟩
      split
      · exact Logged.all_pure _
      · exact ih

/-- The loop that looks for `>` stops before the last word. -/
theorem findRedirectionReads_inBounds {n i : Nat} (hn : i + n < cmd.len) :
    (findRedirectionReads h cmd n i).All WordRead.InBounds := by
  induction n generalizing i with
  | zero => exact Logged.all_pure _
  | succ n ih =>
      rw [findRedirectionReads, Logged.all_bind]
      have hi : i < cmd.len := by omega
      refine ⟨Logged.all_note.mpr hi, fun word _ ↦ Logged.all_bind.mpr
        ⟨Logged.all_lift _, fun found _ ↦ ?_⟩⟩
      split
      · split <;> simp
      · exact ih (by omega)

/-- The word that it finds is the last. -/
theorem findRedirection_last {n i j : Nat} (hf : findRedirection h cmd n i = .ok (some j)) :
    j + 1 = cmd.len := by
  induction n generalizing i with
  | zero => cases hf
  | succ n ih =>
      simp only [findRedirection, bind_eq_ok] at hf
      obtain ⟨found, -, hf⟩ := hf
      split at hf
      · split at hf
        · cases hf
          assumption
        · cases hf
      · exact ih hf

/-- **Dispatch.** -/
theorem dispatchReads_inBounds (hlen : toUint32 (cmd.len - 1) < cmd.len)
    (htakes : ∀ k₂ : Kernel δ, ∀ command,
      findCommand k₂.heap (cmd.string k₂.heap 0) commandNames = .ok command →
      (∃ out, openRedirection k cmd = .ok (out, k₂)) → command.takesArgument = true → 2 ≤ cmd.len) :
    (dispatchReads k cmd outside).All WordRead.InBounds := by
  rw [dispatchReads, Logged.all_bind]
  constructor
  · rw [openRedirectionReads, Logged.all_bind]
    refine ⟨findRedirectionReads_inBounds (by omega), fun r hr ↦ ?_⟩
    cases r with
    | none => exact Logged.all_pure _
    | some j =>
        rw [findRedirectionReads_result] at hr
        have hj := findRedirection_last hr
        exact Logged.all_bind.mpr
          ⟨argumentReads_inBounds (by omega), fun _ _ ↦ Logged.all_lift _⟩
  · rintro ⟨out, k₂⟩ hopen
    rw [openRedirectionReads_result] at hopen
    change (if out = -1 then _ else _ : WordReads (Outcome δ)).All _
    split
    · exact Logged.all_pure _
    · refine Logged.all_bind.mpr ⟨findCommandReads_inBounds (by omega), fun command hfind ↦ ?_⟩
      rw [findCommandReads_result] at hfind
      split
      · exact Logged.all_pure _
      · refine Logged.all_bind.mpr ⟨Command.execReads_inBounds ?_, fun _ _ ↦ Logged.all_pure _⟩
        exact htakes k₂ command hfind ⟨out, hopen⟩

end

/-! ## Reading words -/

theorem heapString_eq_ok {h : KernelHeap} {ptr : Nat} {t : CString} :
    heapString h ptr = .ok t ↔
      t.chars.length < heapLeft h ptr ∧ (h.mem.drop ptr).IsString t.chars := by
  rw [heapString, readCString]
  constructor
  · intro ht
    split at ht
    · rename_i chars hread
      cases ht
      obtain ⟨hlength, -, hstring⟩ := readString_eq_ok.mp hread
      exact ⟨hlength, hstring⟩
    · cases ht
  · rintro ⟨hlength, hstring⟩
    have hread := readString_eq_ok.mpr ⟨hlength, t.nonzero, hstring⟩
    split
    · rename_i chars hread'
      obtain ⟨chars', hzero⟩ := t
      obtain rfl : chars = chars' := Except.ok.inj (hread'.symm.trans hread)
      rfl
    · rename_i e hread'
      exact absurd (hread.symm.trans hread') ok_ne_error

section

variable {h : KernelHeap} {k : Kernel δ} {cmd : StringList} {words : List (List UInt8)}
  {word : List UInt8} {out : Int} {c : Command} {outside : Outside δ} {i n : Nat}

/-- The comparison of a word tells which word it is. -/
theorem HasWords.matchString_iff (hw : HasWords h cmd words) (hi : words[i]? = some word)
    {text : String} (htext : 0 ∉ ofText text) {found : Bool}
    (hmatch : matchString h (cmd.string h i) text = .ok found) :
    found = true ↔ word = ofText text := by
  obtain ⟨hlt, rfl⟩ := List.getElem?_eq_some_iff.mp hi
  obtain ⟨live, hs⟩ := hw.stored i hlt
  exact Shell.matchString_eq hs (hw.nonzero _ (List.getElem_mem hlt)) htext hmatch

/-- A word that can be read can be compared. -/
theorem Readable.matchString (hr : Readable h cmd i) (text : String) :
    ∃ found, matchString h (cmd.string h i) text = .ok found := by
  obtain ⟨word, hword⟩ := hr
  obtain ⟨hlength, hstring⟩ := heapString_eq_ok.mp hword
  rw [Shell.matchString, strcmpWithin_eq_ok ⟨_, hlength, hstring.2⟩]
  exact ⟨_, rfl⟩

/-- A word that was compared with itself was read to its end. -/
theorem HasWords.readable_of_matchString (hw : HasWords h cmd words) (hi : words[i]? = some word)
    {text : String} (htext : 0 ∉ ofText text)
    (hmatch : matchString h (cmd.string h i) text = .ok true) : Readable h cmd i := by
  obtain rfl := (hw.matchString_iff hi htext hmatch).mp rfl
  obtain ⟨hlt, hword⟩ := List.getElem?_eq_some_iff.mp hi
  obtain ⟨live, hs⟩ := hw.stored i hlt
  have hstring := hword ▸ isString_of_stored hs
  obtain ⟨order, hcmp, -⟩ := bind_eq_ok.mp hmatch
  exact ⟨⟨ofText text, htext⟩,
    heapString_eq_ok.mpr ⟨lt_of_strcmpWithin hstring htext hcmp, hstring⟩⟩

/-- The command is found. -/
theorem HasWords.findCommand_ok (hw : HasWords h cmd words) (hr : Readable h cmd 0)
    (hi : words[0]? = some word) {names : List (String × Command)}
    (hnames : ∀ p ∈ names, 0 ∉ ofText p.1) :
    findCommand h (cmd.string h 0) names = .ok (namedCommand word names) := by
  induction names with
  | nil => rfl
  | cons p names ih =>
      rw [List.forall_mem_cons] at hnames
      obtain ⟨found, hmatch⟩ := hr.matchString p.1
      have hfound := hw.matchString_iff hi hnames.1 hmatch
      rw [findCommand, hmatch, ok_bind, namedCommand, ih hnames.2]
      simp only [hfound, apply_ite Except.ok]

/-- Then its name was read. -/
theorem HasWords.readable_of_findCommand (hw : HasWords h cmd words) (hi : words[0]? = some word)
    {names : List (String × Command)} (hnames : ∀ p ∈ names, 0 ∉ ofText p.1)
    (hfind : findCommand h (cmd.string h 0) names = .ok c) (hc : c ≠ .unknown) :
    Readable h cmd 0 := by
  induction names with
  | nil => exact absurd (Except.ok.inj hfind).symm hc
  | cons p names ih =>
      rw [List.forall_mem_cons] at hnames
      obtain ⟨found, hmatch, hfind⟩ := bind_eq_ok.mp hfind
      cases found with
      | false => exact ih hnames.2 hfind
      | true => exact hw.readable_of_matchString hi hnames.1 hmatch

/-- What the loop finds that looks for `>`. -/
theorem HasWords.findRedirection_ok (hw : HasWords h cmd words) (hm : Comparable h cmd)
    (hn : i + n + 1 = words.length) :
    (ofText ">" ∉ (words.drop i).dropLast → findRedirection h cmd n i = .ok none) ∧
    (∀ target, redirection (words.drop i) = some target →
      findRedirection h cmd n i = .ok (some (words.length - 1))) := by
  have hlen := hw.len
  induction n generalizing i with
  | zero =>
      refine ⟨fun _ ↦ rfl, fun target hred ↦ ?_⟩
      rw [List.drop_eq_getElem_cons (by omega), List.drop_eq_nil_of_le (by omega)] at hred
      cases hred
  | succ n ih =>
      have hi : i < words.length := by omega
      have hi' : i + 1 < words.length := by omega
      have hdrop : words.drop i = words[i] :: words[i + 1] :: words.drop (i + 2) := by
        rw [List.drop_eq_getElem_cons hi, List.drop_eq_getElem_cons hi']
      have hnext : words.drop (i + 1) = words[i + 1] :: words.drop (i + 2) :=
        List.drop_eq_getElem_cons hi'
      obtain ⟨hnone, hsome⟩ := ih (i := i + 1) (by omega)
      obtain ⟨found, hmatch⟩ := hm i (by omega)
      have hfound := hw.matchString_iff (List.getElem?_eq_getElem hi) (by decide) hmatch
      rw [findRedirection, hmatch, ok_bind, hdrop, List.dropLast_cons_cons, List.mem_cons, not_or,
        redirection, ← hnext]
      by_cases hword : words[i] = ofText ">"
      · rw [if_pos (hfound.mpr hword), if_pos hword]
        refine ⟨fun h ↦ absurd hword.symm h.1, fun target hred ↦ ?_⟩
        split at hred
        · rename_i hnil
          have hlast := List.drop_eq_nil_iff.mp hnil
          rw [if_pos (by omega), show i + 1 = words.length - 1 by omega]
        · cases hred
      · rw [if_neg (mt hfound.mp hword), if_neg hword]
        exact ⟨fun h ↦ hnone h.2, hsome⟩

/-- The words in front of the last were compared. -/
theorem comparable_of_findRedirection {r : Option Nat} (hn : i + n + 1 = cmd.len)
    (hfind : findRedirection h cmd n i = .ok r) {j : Nat} (hge : i ≤ j) (hlt : j < cmd.len - 1) :
    ∃ found, matchString h (cmd.string h j) ">" = .ok found := by
  induction n generalizing i with
  | zero => omega
  | succ n ih =>
      obtain ⟨found, hmatch, hfind⟩ := bind_eq_ok.mp hfind
      rcases Nat.eq_or_lt_of_le hge with rfl | hgt
      · exact ⟨found, hmatch⟩
      · cases found with
        | false => exact ih (by omega) hfind hgt
        | true =>
            have hlast : i + 2 ≠ cmd.len := by omega
            rw [if_pos rfl, if_neg hlast] at hfind
            cases hfind

/-- The word behind `>` is the last. -/
theorem HasWords.openRedirection_ok (hw : HasWords k.heap cmd words)
    (hn : 0 + toUint32 (cmd.len - 1) + 1 = words.length) {k' : Kernel δ}
    (ho : Output k cmd words out k') : openRedirection k cmd = .ok (out, k') := by
  have hloop (hm : Comparable k.heap cmd) := hw.findRedirection_ok (i := 0) hm hn
  rw [openRedirection]
  cases ho with
  | terminal hm hnone =>
      rw [(hloop hm).1 hnone]
      rfl
  | @file path out k' hm hred hr hopen =>
      obtain ⟨path', hpath⟩ := hr
      have hlast := getLast?_of_redirection hred
      rw [List.getLast?_eq_getElem?, ← hw.len] at hlast
      have hchars := hw.argument_eq hlast hpath
      obtain ⟨chars, hzero⟩ := path
      obtain ⟨chars', hzero'⟩ := path'
      obtain rfl : chars' = chars := hchars
      rw [(hloop hm).2 _ hred, ok_bind, ← hw.len]
      exact (congrArg (· >>= _) hpath).trans hopen

/-! ## Words that are no paths -/

theorem seekDirectory_relative (fs : FileSystem) {path : List UInt8}
    (hpath : path.head? ≠ some slash) : seekDirectory fs path = .ok (-1) := by
  cases path with
  | nil => rfl
  | cons c path => exact if_neg fun hc ↦ hpath (congrArg some hc)

/-- Neither has such a word a directory. -/
theorem seekDirectory_parsePath (fs : FileSystem) {path : CString}
    (hpath : path.chars.head? ≠ some slash) :
    seekDirectory fs (parsePath path).1.chars = .ok (-1) := by
  refine seekDirectory_relative fs ?_
  change (path.chars.take (_ + 1)).head? ≠ some slash
  rwa [List.head?_take, if_neg (Nat.succ_ne_zero _)]

/-- **A handler reads its argument first.**  Where that stops, the handler does. -/
theorem Command.exec_of_argument (htakes : c.takesArgument = true) (hcat : c ≠ .cat)
    {e : Stop} (harg : argument k cmd 1 = .error e) : c.exec k out cmd outside = .error e := by
  cases c with
  | exit | help | unknown => cases htakes
  | cat => exact absurd rfl hcat
  | ls => simp only [Command.exec, execLs, harg, error_bind]
  | echo => simp only [Command.exec, execEcho, harg, error_bind]
  | touch => simp only [Command.exec, execTouch, harg, error_bind]
  | rm => simp only [Command.exec, execRm, harg, error_bind]
  | mkdir => simp only [Command.exec, execMkdir, harg, error_bind]
  | sget => simp only [Command.exec, execSget, harg, error_bind]
  | run => simp only [Command.exec, execRun, harg, error_bind]

/-- **A handler with a word that is no absolute path.** -/
theorem Command.exec_relative (hw : HasWords k.heap cmd words) (htakes : c.takesArgument = true)
    (hcat : c ≠ .cat) (hi : words[1]? = some word) (hrel : word.head? ≠ some slash) :
    (∃ k', c.exec k out cmd outside = .ok (-1, k')) ↔
      Readable k.heap cmd 1 ∧ c.ReportsWord k out cmd word := by
  cases hpath : argument k cmd 1 with
  | error e =>
      refine iff_of_false ?_ ?_
      · rintro ⟨k', hexec⟩
        rw [Command.exec_of_argument htakes hcat hpath] at hexec
        cases hexec
      · rintro ⟨⟨path, hread⟩, -⟩
        exact ok_ne_error (hread.symm.trans hpath)
  | ok path =>
      have hread : Readable k.heap cmd 1 := ⟨path, hpath⟩
      obtain rfl := hw.argument_eq hi hpath
      have hseek := seekDirectory_relative k.fs hrel
      have hdir := seekDirectory_parsePath k.fs hrel
      have hcreate (fileType : UInt8) :
          createFiletype k path fileType false outside.past = .ok (-1, k) := if_neg hrel
      cases c with
      | exit | help | unknown => cases htakes
      | cat => exact absurd rfl hcat
      | ls =>
          refine iff_of_true ⟨k, ?_⟩ ⟨hread, trivial⟩
          simp only [Command.exec, execLs, hpath, ok_bind, strListDir, hseek, if_true]
      | touch =>
          refine iff_of_true ⟨k, ?_⟩ ⟨hread, trivial⟩
          rw [Command.exec, execTouch, hpath]
          exact hcreate _
      | mkdir =>
          refine iff_of_true ⟨k, ?_⟩ ⟨hread, trivial⟩
          rw [Command.exec, execMkdir, hpath]
          exact hcreate _
      | echo =>
          rw [and_iff_right hread]
          simp only [Command.exec, execEcho, hpath, ok_bind, bind_eq_ok, Prod.exists,
            Command.ReportsWord]
          constructor
          · rintro ⟨k', written, k'', hwrite, heq⟩
            refine ⟨written, k'', hwrite, fun hall ↦ ?_⟩
            rw [if_neg (not_not.mpr hall)] at heq
            cases heq
          · rintro ⟨written, k'', hwrite, hshort⟩
            exact ⟨k'', written, k'', hwrite, by rw [if_pos hshort]⟩
      | rm =>
          refine iff_of_false ?_ fun h ↦ h.2
          rintro ⟨k', hexec⟩
          rw [Command.exec, execRm, hpath, ok_bind, unlink_unresolved hdir] at hexec
          cases hexec
      | sget =>
          refine iff_of_false ?_ fun h ↦ h.2
          rintro ⟨k', hexec⟩
          simp only [Command.exec, execSget, hpath, ok_bind, bind_eq_ok, Prod.exists] at hexec
          obtain ⟨fd, k₁, hopen, -⟩ := hexec
          exact openFile_ne_ok hdir _ hopen
      | run =>
          refine iff_of_false ?_ fun h ↦ h.2
          rintro ⟨k', hexec⟩
          simp only [Command.exec, execRun, hpath, ok_bind, bind_eq_ok, Prod.exists] at hexec
          obtain ⟨fd, k₁, hopen, -⟩ := hexec
          exact openFile_ne_ok hdir _ hopen

/-- `cat` does not return for such a word. -/
theorem execCat_relative (hw : HasWords k.heap cmd words) (hlast : words.getLast? = some word)
    (hrel : word.head? ≠ some slash) {fuel : Nat} (r : Int × Kernel δ) :
    execCat k out cmd fuel ≠ .ok r := by
  intro hexec
  simp only [execCat, bind_eq_ok, Prod.exists] at hexec
  obtain ⟨path, hpath, fd, k', hopen, -⟩ := hexec
  rw [List.getLast?_eq_getElem?, ← hw.len] at hlast
  obtain rfl := hw.argument_eq hlast hpath
  exact openFile_ne_ok (seekDirectory_parsePath _ hrel) _ hopen

/-- `cat` reports nothing for the target of its redirection, which is there. -/
theorem execCat_target {k₁ k' : Kernel δ} {path : CString} {fuel : Nat}
    (hw : HasWords k.heap cmd words) (hlast : words.getLast? = some path.chars)
    (hopen : openFile k₁ path = .ok (out, k)) (hne : out ≠ -1) :
    execCat k out cmd fuel ≠ .ok (-1, k') := by
  intro hexec
  simp only [execCat, bind_eq_ok, Prod.exists] at hexec
  obtain ⟨path', hpath, fd, k₂, hopen', hexec⟩ := hexec
  rw [List.getLast?_eq_getElem?, ← hw.len] at hlast
  have hchars := hw.argument_eq hlast hpath
  obtain ⟨r, hlookup, t, ht, hcase⟩ := openFile_lookup hopen
  obtain ⟨r', hlookup', t', -, hcase'⟩ := openFile_lookup hopen'
  rw [hchars, ht, lookupPath_table] at hlookup'
  obtain rfl : r = r' := Except.ok.inj (hlookup.symm.trans hlookup')
  have hr : r ≠ -1 := by
    rcases hcase with ⟨hneg, -⟩ | ⟨hr, -⟩
    · exact absurd hneg hne
    · exact hr
  rcases hcase' with ⟨-, hneg, -⟩ | ⟨-, n, rfl, -⟩
  · exact hr hneg
  · rw [if_neg (by omega)] at hexec
    simp only [bind_eq_ok, Prod.exists] at hexec
    obtain ⟨k₃, -, v, k₄, -, heq⟩ := hexec
    cases heq

end

section

variable {h h' : KernelHeap} {live : LiveBlocks} {sl cmd : StringList} {s : List UInt8}
  {delim : UInt8} {reserveQuotes : Bool} {k : Kernel δ}

/-! ## With one word -/

/-- The second string of a list with one word is zero. -/
def SpareZero (h : KernelHeap) (sl : StringList) (words : List (List UInt8)) : Prop :=
  (words = [] → sl = .zero) ∧
    (words.length = 1 → sl.capacity = 2 ∧
      ∀ i < stringBytes, h.mem (sl.contents + stringBytes + i) = 0)

/-- The first string of a list goes to a block that was cleared. -/
theorem spareZero_append {word : HeapString} (ha : append h .zero word.bytes = .ok (sl, h')) :
    sl.capacity = 2 ∧ ∀ i < stringBytes, h'.mem (sl.contents + stringBytes + i) = 0 := by
  rw [append, if_pos (show Buffer.zero.capacity = 0 from rfl)] at ha
  simp only [kcalloc, bind_eq_ok, Prod.exists] at ha
  obtain ⟨p, h₁, ⟨⟨⟩, -, q, a, -, heq⟩, hsl⟩ := ha
  cases heq
  cases hsl
  refine ⟨rfl, fun i hi ↦ ?_⟩
  change (memset h.mem p 0 (2 * word.bytes.length % 2 ^ 32)).splice p word.bytes
    (p + stringBytes + i) = 0
  rw [Bytes.splice_of_notMem, memset_apply, Buffer.length_bytes, if_pos]
  · change p ≤ p + 12 + i ∧ p + 12 + i < p + 24
    change i < 12 at hi
    omega
  · rw [Buffer.length_bytes]
    omega

/-- The two steps of `string_split` keep `SpareZero`. -/
theorem spare_rule (h₀ : KernelHeap) (live₀ : LiveBlocks) :
    SplitRule fun h sl curr words chars ↦ ∃ live placed,
      Splitting h₀ live₀ h live sl curr placed chars ∧ placed.map Prod.snd = words ∧
      SpareZero h sl words where
  push := by
    rintro h h' sl curr curr' words chars c ⟨live, placed, hs, hwords, hempty, hspare⟩ ha
    obtain ⟨hlen, hcap, live', hs'⟩ := hs.push ha
    refine ⟨hlen, hcap, live', placed, hs', hwords, hempty, fun hone ↦ ?_⟩
    obtain ⟨hcapacity, hzero⟩ := hspare hone
    -- the list's block is not that of the word
    obtain ⟨live'', happ⟩ := append_ok hs.inv List.length_singleton Nat.one_pos (by decide)
      hs.holds ha
    have hplaced : placed ≠ [] := by
      rintro rfl
      rw [← hwords] at hone
      cases hone
    have hlist := hs.words.stored_list hplaced
    refine ⟨hcapacity, fun i hi ↦ ?_⟩
    rw [Nat.add_assoc, happ.frame.same hlist.block (hs.listApart ⟨hlist.pos, rfl⟩), ← Nat.add_assoc]
    · exact hzero i hi
    · rw [hcapacity]
      change 12 + i < 12 * 2
      change i < 12 at hi
      omega
  endWord := by
    rintro h h' sl sl' curr words chars ⟨live, placed, hs, hwords, hempty, -⟩ hcap ha
    obtain ⟨live', hs'⟩ := hs.endWord hcap ha
    refine ⟨live', _, hs', by rw [List.map_append, hwords]; rfl, fun hnil ↦ ?_, fun hone ↦ ?_⟩
    · exact absurd hnil (List.append_ne_nil_of_right_ne_nil _ (List.cons_ne_nil _ _))
    · have hnil : words = [] := by
        rw [List.length_append] at hone
        exact List.eq_nil_of_length_eq_zero (Nat.succ.inj hone)
      rw [hempty hnil] at ha
      exact spareZero_append ha

/-- **A missing word is zero.** -/
theorem stringSplit_spare (hinv : HeapInv h.allocator live)
    (hone : (splitWords delim reserveQuotes false s).length = 1) (hne : s ≠ [])
    (hs : stringSplit h s delim reserveQuotes = .ok (sl, h')) :
    (sl.string h' 1).contents = 0 := by
  obtain ⟨curr, live', placed, -, -, -, hspare⟩ := (spare_rule h live).stringSplit
    ⟨live, [], splitting_start hinv, rfl, fun _ ↦ rfl, fun hone ↦ by cases hone⟩ hne hs
  obtain ⟨-, hzero⟩ := hspare hone
  change (h'.mem.drop (sl.contents + 12 * 1 + 8)).word = 0
  have hword : (h'.mem.drop (sl.contents + 12 * 1 + 8)).word = Bytes.word fun _ ↦ 0 := by
    refine Bytes.word_congr fun i hi ↦ ?_
    have hbyte := hzero (8 + i) (show 8 + i < 12 by omega)
    rw [Bytes.drop_apply, Nat.add_assoc]
    exact hbyte
  exact hword

/-- At address 0 is no string. -/
theorem argument_zero {i : Nat} (hpos : 0 < k.heap.allocator.bottom)
    (hzero : (cmd.string k.heap i).contents = 0) : argument k cmd i = .error .fault := by
  have hleft : heapLeft k.heap 0 = 0 := by
    rw [heapLeft, if_neg (Nat.not_le.mpr hpos)]
  rw [argument, heapString, hzero, hleft]
  rfl

end

/-! ## What is left when an argument is missing -/

section

variable {line : CString} {words : List (List UInt8)} {word : List UInt8} {c : Command}

/-- `cat` is named by its word only. -/
theorem eq_cat_of_namedCommand (h : namedCommand word commandNames = .cat) :
    word = ofText "cat" := by
  by_contra hne
  simp only [commandNames, namedCommand, if_neg hne] at h
  split_ifs at h

/-- No word that counts for nothing is an absolute path. -/
theorem head?_of_arguments (hnone : c.arguments words = [])
    (hword : word ∈ words.tail.takeWhile (· ≠ ofText ">")) : word.head? ≠ some slash := by
  have hno := List.filter_eq_nil_iff.mp hnone word hword
  by_cases hempty : word = []
  · rw [hempty]
    decide
  · have hoption : word = ofText "-b" := by
      by_contra hne
      exact hno (decide_eq_true ⟨hempty, fun h ↦ hne h.2⟩)
    rw [hoption]
    decide

/-- The second word of a line without an argument is no path. -/
theorem head?_second (hnone : c.arguments words = []) (hi : words[1]? = some word) :
    word.head? ≠ some slash := by
  by_cases hred : word = ofText ">"
  · rw [hred]
    decide
  · refine head?_of_arguments hnone ?_
    obtain ⟨name, rest, rfl⟩ : ∃ name rest, words = name :: word :: rest := by
      cases words with
      | nil => cases hi
      | cons name words =>
          cases words with
          | nil => cases hi
          | cons second rest => exact ⟨name, rest, by rw [Option.some.inj hi]⟩
    rw [List.tail_cons, List.takeWhile_cons, if_pos (decide_eq_true hred)]
    exact List.mem_cons_self

/-- Nor is the last behind the name, if no word but the last is `>`. -/
theorem head?_last {name : List UInt8} (hnone : c.arguments (name :: words) = [])
    (hred : ofText ">" ∉ (name :: words).dropLast) (hlast : words.getLast? = some word) :
    word.head? ≠ some slash := by
  by_cases hword : word = ofText ">"
  · rw [hword]
    decide
  · obtain ⟨rest, rfl⟩ := List.getLast?_eq_some_iff.mp hlast
    rw [← List.cons_append, List.dropLast_concat, List.mem_cons, not_or] at hred
    refine head?_of_arguments hnone ?_
    rw [List.tail_cons, List.takeWhile_eq_self_iff.mpr]
    · exact List.mem_append_right _ (List.mem_singleton_self _)
    · intro w hw
      rw [decide_eq_true_eq]
      rintro rfl
      rcases List.mem_append.mp hw with hw | hw
      · exact hred.2 hw
      · exact hword (List.mem_singleton.mp hw).symm

/-- The last word of a line that names `cat` without an argument is no path: it is what counts for
no argument, or the name. -/
theorem cat_last (hcat : lineCommand line = .cat)
    (hnone : Command.arguments .cat (lineWords line) = [])
    (hred : ofText ">" ∉ (lineWords line).dropLast) :
    ∃ word, (lineWords line).getLast? = some word ∧ word.head? ≠ some slash := by
  have hname : (lineWords line).headD [] = ofText "cat" := eq_cat_of_namedCommand hcat
  obtain ⟨name, words, hwords⟩ : ∃ name words, lineWords line = name :: words :=
    List.exists_cons_of_ne_nil (splitWords_ne_nil space true false line.chars)
  rw [hwords] at hnone hred hname ⊢
  rw [List.getLast?_cons]
  cases hlast : words.getLast? with
  | none => exact ⟨name, rfl, by rw [show name = ofText "cat" from hname]; decide⟩
  | some word => exact ⟨word, rfl, head?_last hnone hred hlast⟩

end

/-! ## Lines -/

section

variable {h heap : KernelHeap} {live live' : LiveBlocks} {line : CString} {cmd : StringList}
  {placed : List (HeapString × List UInt8)} {k k' : Kernel δ} {out : Int} {outside : Outside δ}

/-- A line has a first word. -/
theorem lineWords_zero (line : CString) :
    (lineWords line)[0]? = some ((lineWords line).headD []) := by
  obtain ⟨word, words, hwords⟩ :=
    List.exists_cons_of_ne_nil (splitWords_ne_nil space true false line.chars)
  rw [lineWords, hwords]
  rfl

/-- **The redirection of a line.** -/
theorem Parsed.openRedirection_iff (hp : Parsed h k.heap live live' line cmd placed)
    (hbottom : h.allocator.bottom + scannedBits < 2 ^ 32) :
    openRedirection k cmd = .ok (out, k') ↔ Output k cmd (lineWords line) out k' := by
  have hbottom' : k.heap.allocator.bottom + scannedBits < 2 ^ 32 :=
    hp.split.frame.bottom ▸ hbottom
  have hw := hp.hasWords (Keeps.refl hp.split.inv) hbottom
  have hn : 0 + toUint32 (cmd.len - 1) + 1 = (lineWords line).length := by
    rw [lineWords, ← hp.words, List.length_map, Nat.zero_add]
    exact scannedWords_eq hp.split.inv hbottom' hp.split.words hp.ne_nil
  refine ⟨fun hopen ↦ ?_, hw.openRedirection_ok hn⟩
  have hcases := openRedirection_ok hp.split.inv hbottom' hp.split.words hp.nonzero hp.ne_nil hopen
  obtain ⟨r, hfind, hrest⟩ := bind_eq_ok.mp hopen
  have hlen : cmd.len = (lineWords line).length := hw.len
  have hm : Comparable k.heap cmd := fun j hj ↦
    comparable_of_findRedirection (by omega) hfind (Nat.zero_le j) hj
  rw [hp.words] at hcases
  rcases hcases with ⟨hnone, rfl, rfl⟩ | ⟨path, hred, hopen'⟩
  · exact .terminal hm hnone
  · have hfound := (hw.findRedirection_ok (i := 0) hm hn).2 _ hred
    obtain rfl := Except.ok.inj (hfind.symm.trans hfound)
    obtain ⟨path', hpath, -⟩ := bind_eq_ok.mp hrest
    exact .file hm hred (hlen ▸ ⟨path', hpath⟩) hopen'

/-- The dispatch, once its redirection has been opened and its command found. -/
theorem dispatchReads_result {c : Command} (hopen : openRedirection k cmd = .ok (out, k'))
    (hfind : findCommand k'.heap (cmd.string k'.heap 0) commandNames = .ok c) :
    (dispatchReads k cmd outside).result =
      if out = -1 then .ok (.refused k')
      else if c = .exit then .ok (.exited k')
      else c.exec k' out cmd outside >>= fun (code, k'') ↦ .ok (.returned out code k'') := by
  simp only [dispatchReads, Logged.result_bind, openRedirectionReads_result, hopen, ok_bind,
    Logged.result_ite, Logged.result_pure, findCommandReads_result, hfind,
    Command.execReads_result]

/-- **The handler of a line without an argument** reports an error exactly if there is a second
word and it reports that. -/
theorem exec_of_lacksArgument (hlacks : LacksArgument line)
    (hw : HasWords k'.heap cmd (lineWords line)) (ho : Output k cmd (lineWords line) out k')
    (hne : out ≠ -1)
    (hsingle : (lineWords line).length = 1 → argument k' cmd 1 = .error .fault) :
    (∃ k'', (lineCommand line).exec k' out cmd outside = .ok (-1, k'')) ↔
      ∃ word, (lineWords line)[1]? = some word ∧ Readable k'.heap cmd 1 ∧
        (lineCommand line).ReportsWord k' out cmd word := by
  obtain ⟨htakes, hnone⟩ := hlacks
  by_cases hcat : lineCommand line = .cat
  · rw [hcat] at hnone ⊢
    refine iff_of_false ?_ fun h ↦ h.elim fun _ hword ↦ hword.2.2
    rintro ⟨k'', hexec⟩
    cases ho with
    | terminal _ hred =>
        obtain ⟨word, hlast, hrel⟩ := cat_last hcat hnone hred
        exact execCat_relative hw hlast hrel _ hexec
    | file _ hred _ hopen =>
        exact execCat_target hw (getLast?_of_redirection hred) hopen hne hexec
  · cases hsecond : (lineWords line)[1]? with
    | none =>
        have hlen : (lineWords line).length = 1 := by
          have hle := List.getElem?_eq_none_iff.mp hsecond
          have hpos : 0 < (lineWords line).length :=
            List.length_pos_of_ne_nil (splitWords_ne_nil space true false line.chars)
          omega
        refine iff_of_false ?_ ?_
        · rintro ⟨k'', hexec⟩
          rw [Command.exec_of_argument htakes hcat (hsingle hlen)] at hexec
          cases hexec
        · rintro ⟨_, hword, -⟩
          cases hword
    | some word =>
        rw [Command.exec_relative hw htakes hcat hsecond (head?_second hnone hsecond)]
        constructor
        · exact fun hreports ↦ ⟨word, rfl, hreports⟩
        · rintro ⟨word', hword', hreports⟩
          rwa [Option.some.inj hword']

/-- The words, and what the handler does, once the redirection has been opened. -/
theorem Parsed.handler_iff (hp : Parsed h k.heap live live' line cmd placed)
    (hlacks : LacksArgument line) (hinv : HeapInv h.allocator live)
    (hpos : 0 < h.allocator.bottom) (hbottom : h.allocator.bottom + scannedBits < 2 ^ 32)
    (hline : line.chars ≠ []) (hsplit : stringSplit h line.chars space true = .ok (cmd, k.heap))
    (hopen : openRedirection k cmd = .ok (out, k')) (outside : Outside δ) :
    HasWords k'.heap cmd (lineWords line) ∧
      (out ≠ -1 → ((∃ k'', (lineCommand line).exec k' out cmd outside = .ok (-1, k'')) ↔
        ∃ word, (lineWords line)[1]? = some word ∧ Readable k'.heap cmd 1 ∧
          (lineCommand line).ReportsWord k' out cmd word)) := by
  have ho := (hp.openRedirection_iff hbottom).mp hopen
  have hw := hp.hasWords (openRedirection_keeps hp.split.inv hopen) hbottom
  refine ⟨hw, fun hne ↦ exec_of_lacksArgument hlacks hw ho hne fun hone ↦ ?_⟩
  -- a single word redirects nothing
  have hterminal : k' = k := by
    cases ho with
    | terminal => rfl
    | file _ hred =>
        obtain ⟨word, hword⟩ := List.length_eq_one_iff.mp hone
        rw [hword] at hred
        cases hred
  rw [hterminal]
  exact argument_zero (hp.split.frame.bottom ▸ hpos) (stringSplit_spare hinv hone hline hsplit)

/-- **A line without an argument** ends in a report exactly in the ways that `Reported` lists. -/
theorem reported_iff (hlacks : LacksArgument line) (hinv : HeapInv h.allocator live)
    (hpos : 0 < h.allocator.bottom) (hbottom : h.allocator.bottom + scannedBits < 2 ^ 32)
    (hline : line.chars ≠ [])
    (hsplit : stringSplit h line.chars space true = .ok (cmd, k.heap)) :
    (∃ o, (dispatchReads k cmd outside).result = .ok o ∧ o.ReportsError) ↔
      Reported k cmd line := by
  obtain ⟨live', placed, hp⟩ := parsed_of_stringSplit hinv hline hsplit
  have htakes := hlacks.1
  have hexit : lineCommand line ≠ .exit := fun hexit ↦ by
    rw [hexit] at htakes
    cases htakes
  have hunknown : lineCommand line ≠ .unknown := fun hunknown ↦ by
    rw [hunknown] at htakes
    cases htakes
  constructor
  · rintro ⟨o, hresult, hreports⟩
    simp only [dispatchReads, Logged.result_bind, openRedirectionReads_result, bind_eq_ok,
      Prod.exists, Logged.result_ite, Logged.result_pure, findCommandReads_result,
      Command.execReads_result] at hresult
    obtain ⟨out, k', hopen, hresult⟩ := hresult
    have ho := (hp.openRedirection_iff hbottom).mp hopen
    obtain ⟨hw, hhandler⟩ :=
      hp.handler_iff hlacks hinv hpos hbottom hline hsplit hopen outside
    split at hresult
    · rename_i hneg
      subst hneg
      exact .refused ho
    · rename_i hne
      obtain ⟨c, hfind, hresult⟩ := bind_eq_ok.mp hresult
      obtain rfl := hp.findCommand_eq (openRedirection_keeps hp.split.inv hopen) hbottom hfind
      rw [if_neg hexit] at hresult
      obtain ⟨⟨code, k''⟩, hexec, heq⟩ := bind_eq_ok.mp hresult
      cases heq
      obtain rfl : code = -1 := hreports
      obtain ⟨word, hword, hread, hreports⟩ := (hhandler hne).mp ⟨k'', hexec⟩
      have hname := hw.readable_of_findCommand (lineWords_zero line) (by decide) hfind hunknown
      exact .handled ho hne hname hword hread hreports
  · rintro (@⟨k', ho⟩ | @⟨out, k', word, ho, hne, hname, hword, hread, hreports⟩)
    · have hopen := (hp.openRedirection_iff hbottom).mpr ho
      refine ⟨.refused k', ?_, trivial⟩
      rw [dispatchReads, Logged.result_bind, openRedirectionReads_result, hopen]
      rfl
    · have hopen := (hp.openRedirection_iff hbottom).mpr ho
      obtain ⟨hw, hhandler⟩ :=
        hp.handler_iff hlacks hinv hpos hbottom hline hsplit hopen outside
      have hfind : findCommand k'.heap (cmd.string k'.heap 0) commandNames =
          .ok (lineCommand line) := hw.findCommand_ok hname (lineWords_zero line) (by decide)
      obtain ⟨k'', hexec⟩ := (hhandler hne).mpr ⟨word, hword, hread, hreports⟩
      refine ⟨.returned out (-1) k'', ?_, rfl⟩
      rw [dispatchReads_result hopen hfind, if_neg hne, if_neg hexit, hexec]
      rfl

/-- Lines that end in a report have a second word. -/
theorem Reported.two_le (hr : Reported k cmd line) : 2 ≤ (lineWords line).length := by
  cases hr with
  | refused ho =>
      generalize hout : (-1 : Int) = out at ho
      cases ho with
      | terminal => cases hout
      | file _ hred =>
          by_contra hlt
          obtain ⟨word, hword⟩ : ∃ word, lineWords line = [word] := by
            refine List.length_eq_one_iff.mp ?_
            have hpos : 0 < (lineWords line).length :=
              List.length_pos_of_ne_nil (splitWords_ne_nil space true false line.chars)
            omega
          rw [hword] at hred
          cases hred
  | handled _ _ _ hword => exact (List.getElem?_eq_some_iff.mp hword).1

end

end Yorha.Shell
