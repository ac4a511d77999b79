import Mathlib.Data.List.Induction
import Yorha.Io.Devices
import Yorha.Lib.Lines
import Yorha.Lib.Recent

/-!
# The picture of the terminal

`tty_handler` puts what is written into a circular buffer, and `render_terminal` draws what
lies from `base_index` to the index that is written next.  It is to draw the last 20 lines: it
counts the line ends on its way, keeps the starts of the last 20 lines in a table, and moves
`base_index` to one of these when there are more.

The table is used modulo 20 when it is filled and modulo 10 when it is read, so that 10 lines
are drawn instead of 20 after some counts.  And when the index has wrapped around the end of the
buffer and is below `base_index`, nothing is counted and `base_index` stays.  `Windowed` says
when a call draws the last lines in spite of this.
-/

namespace Yorha.Io

open Yorha.Lib Yorha.Str

/-! ## The code -/

/-- `TERMINAL_HEIGHT`. -/
def terminalHeight : Nat := 20

/-- `'\n'`. -/
def lineFeed : UInt8 := 10

/-- `term`, with what `render_terminal` has drawn last. -/
structure Screen where
  term : Terminal
  baseIndex : Nat
  /-- What `kwrite` was called with, since `terminal_clear`. -/
  drawn : List UInt8

/-- `{0}`. -/
def Screen.zero : Screen := ⟨⟨fun _ ↦ 0, 0⟩, 0, []⟩

/-- The loop of `render_terminal`, over `n` more bytes from number `i` on. -/
def countLines (ttyBuffer : Bytes) : Nat → Nat → Nat → (Nat → Nat) → Nat × (Nat → Nat)
  | 0, _, lines, linesIndices => (lines, linesIndices)
  | n + 1, i, lines, linesIndices =>
      if ttyBuffer i = lineFeed then
        countLines ttyBuffer n (i + 1) (lines + 1)
          (Function.update linesIndices ((lines + 1) % terminalHeight) (i + 1))
      else countLines ttyBuffer n (i + 1) lines linesIndices

/-- What `render_terminal` hands to `kwrite`. -/
def Terminal.textFrom (term : Terminal) (baseIndex : Nat) : List UInt8 :=
  if baseIndex < term.index then (term.ttyBuffer.drop baseIndex).take (term.index - baseIndex)
  else (term.ttyBuffer.drop baseIndex).take (terminalBufferSize - baseIndex) ++
    term.ttyBuffer.take term.index

/-- `render_terminal`. -/
def renderTerminal (s : Screen) : Screen :=
  let (lines, linesIndices) := countLines s.term.ttyBuffer (s.term.index - s.baseIndex)
    s.baseIndex 0 fun _ ↦ 0
  let firstLineStarter := linesIndices ((lines + 1) % 10)
  let baseIndex := if lines ≥ terminalHeight then firstLineStarter else s.baseIndex
  { s with baseIndex := baseIndex, drawn := s.term.textFrom baseIndex }

/-- The part of `tty_handler` that writes. -/
def Screen.write (s : Screen) (buf : Bytes) (count : Nat) : Screen :=
  renderTerminal { s with term := ttyWriteLoop buf count 0 s.term }

/-- `tty_handler` is this, but for the picture. -/
theorem ttyHandler_write (s : Screen) (fd : Int) (buf : Bytes) (count : Nat) (dev : Devices)
    (h : dev.term = s.term) : ttyHandler false fd buf count dev =
      .ok (count, buf, { dev with term := (s.write buf count).term }) := by
  rw [ttyHandler, h]
  rfl

/-! ## Counting lines -/

section

variable (ttyBuffer : Bytes)

/-- All line ends are counted. -/
theorem countLines_lines (n i lines : Nat) (linesIndices : Nat → Nat) :
    (countLines ttyBuffer n i lines linesIndices).1 =
      lines + ((ttyBuffer.drop i).take n).count lineFeed := by
  induction n generalizing i lines linesIndices with
  | zero => rfl
  | succ n ih =>
      rw [countLines, Bytes.take_drop_succ, List.count_cons]
      split
      · rename_i hline
        rw [ih, if_pos (beq_iff_eq.mpr hline)]
        omega
      · rename_i hline
        rw [ih, if_neg fun heq ↦ hline (beq_iff_eq.mp heq)]
        rfl

/-- A slot of the table is left alone by lines of other numbers. -/
theorem countLines_frame {n i lines slot : Nat} {linesIndices : Nat → Nat}
    (h : ∀ k < ((ttyBuffer.drop i).take n).count lineFeed,
      (lines + k + 1) % terminalHeight ≠ slot) :
    (countLines ttyBuffer n i lines linesIndices).2 slot = linesIndices slot := by
  induction n generalizing i lines linesIndices with
  | zero => rfl
  | succ n ih =>
      rw [Bytes.take_drop_succ, List.count_cons] at h
      rw [countLines]
      split
      · rename_i hline
        rw [if_pos (beq_iff_eq.mpr hline)] at h
        rw [ih, Function.update_of_ne]
        · exact (h 0 (Nat.succ_pos _)).symm
        · intro k hk
          rw [Nat.add_assoc lines 1 k, Nat.add_comm 1 k]
          exact h (k + 1) (Nat.succ_lt_succ hk)
      · rename_i hline
        rw [if_neg fun heq ↦ hline (beq_iff_eq.mp heq)] at h
        exact ih h

/-- The table has the start of each line after which less than 20 lines start. -/
theorem countLines_index {n i lines : Nat} {linesIndices : Nat → Nat} {a b : List UInt8}
    (h : (ttyBuffer.drop i).take n = a ++ lineFeed :: b) (hb : b.count lineFeed < terminalHeight) :
    (countLines ttyBuffer n i lines linesIndices).2
      ((lines + a.count lineFeed + 1) % terminalHeight) = i + a.length + 1 := by
  induction n generalizing i lines linesIndices a with
  | zero => exact absurd h.symm (List.append_ne_nil_of_right_ne_nil _ (List.cons_ne_nil _ _))
  | succ n ih =>
      rw [Bytes.take_drop_succ] at h
      rw [countLines]
      cases a with
      | nil =>
          obtain ⟨hfirst, hrest⟩ := List.cons.inj h
          rw [if_pos hfirst, List.count_nil, Nat.add_zero, countLines_frame,
            Function.update_self]
          · rfl
          · intro k hk
            rw [hrest] at hk
            have hlt : k < terminalHeight := lt_trans hk hb
            have hne := mod_ne_of_lt (n := terminalHeight) (i := lines + 1) (j := lines + 1 + k + 1)
              (by omega) (by omega)
            exact hne.symm
      | cons c a =>
          obtain ⟨hfirst, hrest⟩ := List.cons.inj h
          rw [List.count_cons, List.length_cons, hfirst]
          split
          · rename_i hline
            rw [if_pos (beq_iff_eq.mpr hline)]
            have hslot : lines + (a.count lineFeed + 1) + 1 = lines + 1 + a.count lineFeed + 1 := by
              omega
            rw [hslot, ih hrest]
            omega
          · rename_i hline
            rw [if_neg fun heq ↦ hline (beq_iff_eq.mp heq),
              Nat.add_zero (a.count lineFeed), ih hrest]
            omega

end

/-! ## The buffer -/

/-- The terminal was written a stream: the buffer has the last of it. -/
structure Written (term : Terminal) (t : List UInt8) : Prop where
  index : term.index = t.length % terminalBufferSize
  recent : Recent terminalBufferSize term.ttyBuffer t

/-- How many bytes lie from a base to the index, when so many bytes were written. -/
def shownLength (baseIndex total : Nat) : Nat :=
  if baseIndex < total % terminalBufferSize then total % terminalBufferSize - baseIndex
  else terminalBufferSize - baseIndex + total % terminalBufferSize

/-- What lies from a base to the index, of a stream that was written. -/
def shown (baseIndex : Nat) (t : List UInt8) : List UInt8 :=
  t.drop (t.length - shownLength baseIndex t.length)

/-- What was written before that. -/
def earlier (baseIndex : Nat) (t : List UInt8) : List UInt8 :=
  t.take (t.length - shownLength baseIndex t.length)

theorem earlier_append_shown (baseIndex : Nat) (t : List UInt8) :
    earlier baseIndex t ++ shown baseIndex t = t := List.take_append_drop _ _

/-- The base is the place of some byte, or of the next one. -/
def Based (baseIndex total : Nat) : Prop := ∃ i ≤ total, i % terminalBufferSize = baseIndex

section

variable {term : Terminal} {s : Screen} {t : List UInt8} {baseIndex i : Nat}

/-- **Step.**  Writing appends to the stream. -/
theorem Written.ttyWriteLoop (h : Written term t) (buf : Bytes) (n written : Nat) :
    Written (ttyWriteLoop buf n written term) (t ++ (buf.drop written).take n) := by
  induction n generalizing term t written with
  | zero =>
      rw [Bytes.take, List.range_zero, List.map_nil, List.append_nil]
      exact h
  | succ n ih =>
      rw [Bytes.take_drop_succ, ← List.singleton_append, ← List.append_assoc]
      refine ih ⟨?_, ?_⟩ (written + 1)
      · rw [h.index, Nat.mod_add_mod, List.length_append, List.length_singleton]
      · rw [h.index]
        exact h.recent.push _

/-- The place of a byte that was written is where the shown part starts, or where one that it
replaces was. -/
theorem shownLength_of_lt (hi : i < t.length) :
    shownLength (i % terminalBufferSize) t.length ≤ t.length ∧
      shownLength (i % terminalBufferSize) t.length ≤ terminalBufferSize ∧
      (t.length - shownLength (i % terminalBufferSize) t.length) % terminalBufferSize =
        i % terminalBufferSize := by
  rw [shownLength, terminalBufferSize]
  split
  · omega
  · omega

/-- The buffer has what is shown. -/
theorem Written.textFrom_eq (h : Written term t) (hi : i < t.length) :
    term.textFrom (i % terminalBufferSize) = shown (i % terminalBufferSize) t := by
  obtain ⟨hle, hfit, hmod⟩ := shownLength_of_lt hi
  have hlt : i % terminalBufferSize < terminalBufferSize := Nat.mod_lt _ (by decide)
  have hindex : t.length % terminalBufferSize < terminalBufferSize := Nat.mod_lt _ (by decide)
  rw [Terminal.textFrom, shown, h.index]
  generalize hstart : t.length - shownLength (i % terminalBufferSize) t.length = start at *
  split
  · rename_i hwrap
    rw [shownLength, if_pos hwrap] at hle hfit hstart
    have hread := h.recent.read (i := start)
      (d := t.length % terminalBufferSize - i % terminalBufferSize) (by omega) (by omega)
      (by omega)
    rw [hmod] at hread
    refine hread.trans (List.take_of_length_le ?_)
    rw [List.length_drop]
    omega
  · rename_i hwrap
    rw [shownLength, if_neg hwrap] at hle hfit hstart
    -- up to the end of the buffer, and on from its start
    have hread := h.recent.read (i := start) (d := terminalBufferSize - i % terminalBufferSize)
      (by omega) (by omega) (by omega)
    have hzero : (start + (terminalBufferSize - i % terminalBufferSize)) % terminalBufferSize =
        0 := by
      rw [terminalBufferSize] at *
      omega
    have hread' := h.recent.read (i := start + (terminalBufferSize - i % terminalBufferSize))
      (d := t.length % terminalBufferSize) (by omega) (by omega) (by omega)
    rw [hmod] at hread
    simp only [hzero, Nat.zero_add] at hread'
    have hrest : (t.drop (start + (terminalBufferSize - i % terminalBufferSize))).take
        (t.length % terminalBufferSize) =
          (t.drop start).drop (terminalBufferSize - i % terminalBufferSize) := by
      rw [List.drop_drop, List.take_of_length_le]
      rw [List.length_drop]
      omega
    exact (congrArg₂ _ hread (hread'.trans hrest)).trans (List.take_append_drop _ _)

/-- The ways in which `render_terminal` draws a stream: it leaves the base, or it moves it
behind a line end, so that 20 lines are shown, or 10. -/
inductive Rendered (s : Screen) (t : List UInt8) : Screen → Prop
  | kept : ¬ (s.baseIndex < s.term.index ∧
        terminalHeight ≤ (shown s.baseIndex t).count lineFeed) →
      Rendered s t { s with drawn := shown s.baseIndex t }
  | moved {a b : List UInt8} : s.baseIndex < s.term.index →
      terminalHeight ≤ (shown s.baseIndex t).count lineFeed →
      shown s.baseIndex t = a ++ lineFeed :: b →
      b.count lineFeed + 1 =
        (if ((shown s.baseIndex t).count lineFeed + 1) % terminalHeight < 10 then terminalHeight
          else 10) →
      Rendered s t { s with baseIndex := s.baseIndex + a.length + 1, drawn := b }

/-- Behind the start of a line is the rest of what is shown. -/
theorem Terminal.textFrom_of_append {a b : List UInt8} (hb : b ≠ [])
    (h : (term.ttyBuffer.drop baseIndex).take (term.index - baseIndex) = a ++ lineFeed :: b) :
    term.textFrom (baseIndex + a.length + 1) = b := by
  have hlen := congrArg List.length h
  rw [Bytes.length_take, List.length_append, List.length_cons] at hlen
  have hpos := List.length_pos_of_ne_nil hb
  have hrest : term.index - baseIndex = (a ++ [lineFeed]).length + b.length := by
    rw [List.length_append, List.length_singleton]
    omega
  have hsplit : a ++ lineFeed :: b = (a ++ [lineFeed]) ++ b := by
    rw [List.append_assoc]
    rfl
  rw [hrest, Bytes.take_add, Bytes.drop_drop, hsplit] at h
  have htake := List.append_inj_right h (Bytes.length_take _ _)
  rw [List.length_append, List.length_singleton, ← Nat.add_assoc] at htake
  rw [Terminal.textFrom, if_pos (by omega)]
  refine Eq.trans (congrArg _ ?_) htake
  omega

/-- `render_terminal` counts the line ends between the base and the index. -/
theorem lines_counted (s : Screen) :
    (countLines s.term.ttyBuffer (s.term.index - s.baseIndex) s.baseIndex 0 fun _ ↦ 0).1 =
      ((s.term.ttyBuffer.drop s.baseIndex).take (s.term.index - s.baseIndex)).count lineFeed := by
  rw [countLines_lines, Nat.zero_add]

/-- The entry that is read is that of the line with `m` lines from it on. -/
theorem slot_of_lines {n m a : Nat}
    (hm : m = if (n + 1) % terminalHeight < 10 then terminalHeight else 10) (hn : n = a + m) :
    (n + 1) % 10 = (0 + a + 1) % terminalHeight := by
  rw [terminalHeight] at *
  split at hm
  · omega
  · omega

/-- The base moves. -/
theorem renderTerminal_moved (hwrap : s.baseIndex < s.term.index)
    (hmany : terminalHeight ≤ (s.term.textFrom s.baseIndex).count lineFeed) :
    ∃ a b, s.term.textFrom s.baseIndex = a ++ lineFeed :: b ∧
      b.count lineFeed + 1 =
        (if ((s.term.textFrom s.baseIndex).count lineFeed + 1) % terminalHeight < 10
          then terminalHeight else 10) ∧
      renderTerminal s = { s with baseIndex := s.baseIndex + a.length + 1, drawn := b } := by
  have hlines := lines_counted s
  have htext : (s.term.ttyBuffer.drop s.baseIndex).take (s.term.index - s.baseIndex) =
      s.term.textFrom s.baseIndex := by rw [Terminal.textFrom, if_pos hwrap]
  rw [htext] at hlines
  generalize s.term.textFrom s.baseIndex = text at *
  obtain ⟨m, hm⟩ : ∃ m, m =
      if (text.count lineFeed + 1) % terminalHeight < 10 then terminalHeight else 10 := ⟨_, rfl⟩
  have hrange : 10 ≤ m ∧ m ≤ terminalHeight := by
    rw [hm]
    split
    · exact ⟨by decide, le_rfl⟩
    · exact ⟨le_rfl, by decide⟩
  obtain ⟨a, b, rfl, hb⟩ := exists_lastLines (lt_of_lt_of_le (by decide) hrange.1)
    (hrange.2.trans hmany)
  have hcount : (a ++ lineFeed :: b).count lineFeed = a.count lineFeed + m := by
    rw [List.count_append, List.count_cons_self, hb]
  have hindex : (countLines s.term.ttyBuffer (s.term.index - s.baseIndex) s.baseIndex 0
      fun _ ↦ 0).2 ((0 + a.count lineFeed + 1) % terminalHeight) = s.baseIndex + a.length + 1 :=
    countLines_index s.term.ttyBuffer htext (by omega)
  have hne : b ≠ [] := by
    rintro rfl
    rw [List.count_nil] at hb
    omega
  refine ⟨a, b, rfl, hb.trans hm, ?_⟩
  simp only [renderTerminal, hlines, ge_iff_le, if_pos hmany, slot_of_lines hm hcount, hindex,
    Terminal.textFrom_of_append hne htext]

/-- The base stays. -/
theorem renderTerminal_kept (hand : ¬ (s.baseIndex < s.term.index ∧
      terminalHeight ≤ (s.term.textFrom s.baseIndex).count lineFeed)) :
    renderTerminal s = { s with drawn := s.term.textFrom s.baseIndex } := by
  have hfew : ¬ terminalHeight ≤
      ((s.term.ttyBuffer.drop s.baseIndex).take (s.term.index - s.baseIndex)).count lineFeed := by
    intro hmany
    by_cases hwrap : s.baseIndex < s.term.index
    · refine hand ⟨hwrap, ?_⟩
      rw [Terminal.textFrom, if_pos hwrap]
      exact hmany
    · rw [Nat.sub_eq_zero_of_le (Nat.le_of_not_lt hwrap)] at hmany
      exact absurd hmany (Nat.not_succ_le_zero 19)
  simp only [renderTerminal, lines_counted, ge_iff_le, if_neg hfew]

/-- **What `render_terminal` does.** -/
theorem renderTerminal_rendered (h : Written s.term t) (hi : i < t.length)
    (hbase : i % terminalBufferSize = s.baseIndex) : Rendered s t (renderTerminal s) := by
  have htext : s.term.textFrom s.baseIndex = shown s.baseIndex t := by
    rw [← hbase]
    exact h.textFrom_eq hi
  by_cases hand : s.baseIndex < s.term.index ∧ terminalHeight ≤ (shown s.baseIndex t).count lineFeed
  · obtain ⟨hwrap, hmany⟩ := hand
    obtain ⟨a, b, hcut, hb, hrender⟩ := renderTerminal_moved hwrap (htext.symm ▸ hmany)
    rw [htext] at hcut hb
    rw [hrender]
    exact .moved hwrap hmany hcut hb
  · rw [renderTerminal_kept (htext.symm ▸ hand), htext]
    exact .kept hand

/-- The last lines of a stream lie from a base to the index, or the base is moved to where they
start: the index has not wrapped around, 20 lines end or more, and their number is one for
which the table is read where it should be. -/
def Windowed (baseIndex : Nat) (t : List UInt8) : Prop :=
  let lines := (shown baseIndex t).count lineFeed
  baseIndex < t.length % terminalBufferSize ∧ terminalHeight ≤ lines ∧
      (lines + 1) % terminalHeight < 10 ∨
    earlier baseIndex t = [] ∧ lines < terminalHeight ∨
    (earlier baseIndex t).getLast? = some lineFeed ∧ lines + 1 = terminalHeight

instance (baseIndex : Nat) (t : List UInt8) : Decidable (Windowed baseIndex t) :=
  inferInstanceAs (Decidable (_ ∨ _ ∨ _))

/-- **What is drawn is the last lines exactly when the base or the table has them.** -/
theorem renderTerminal_drawn_iff (h : Written s.term t) (hi : i < t.length)
    (hbase : i % terminalBufferSize = s.baseIndex) :
    (renderTerminal s).drawn = lastLines lineFeed terminalHeight t ↔ Windowed s.baseIndex t := by
  rw [Windowed, ← h.index]
  have hcut := earlier_append_shown s.baseIndex t
  have hrendered := renderTerminal_rendered h hi hbase
  generalize renderTerminal s = s' at hrendered ⊢
  cases hrendered with
  | kept hkept =>
      have hdrawn : shown s.baseIndex t = lastLines lineFeed terminalHeight
          (earlier s.baseIndex t ++ shown s.baseIndex t) ↔ _ := eq_lastLines_iff (by decide)
      rw [hcut] at hdrawn
      rw [hdrawn]
      refine (or_iff_right ?_).symm
      rintro ⟨hwrap, hmany, -⟩
      exact hkept ⟨hwrap, hmany⟩
  | @moved a b hwrap hmany hshown hb =>
      have hlines : terminalHeight ≤ t.count lineFeed := by
        rw [← hcut, List.count_append]
        exact hmany.trans (Nat.le_add_left _ _)
      have hstay : ¬ ((earlier s.baseIndex t = [] ∧
            (shown s.baseIndex t).count lineFeed < terminalHeight) ∨
          (earlier s.baseIndex t).getLast? = some lineFeed ∧
            (shown s.baseIndex t).count lineFeed + 1 = terminalHeight) := by
        rintro (⟨-, hfew⟩ | ⟨-, hfew⟩)
        · exact absurd hmany (Nat.not_le_of_lt hfew)
        · exact absurd hmany (Nat.not_le_of_lt (hfew ▸ Nat.lt_succ_self _))
      rw [or_iff_left hstay, and_iff_right hwrap, and_iff_right hmany]
      split at hb
      · -- the table has the line that 20 lines end behind
        rename_i hgood
        refine iff_of_true ?_ hgood
        rw [← hcut, hshown, ← List.append_assoc]
        exact (lastLines_append hb).symm
      · rename_i hbad
        refine iff_of_false (fun heq ↦ ?_) hbad
        have hcount : (lastLines lineFeed terminalHeight t).count lineFeed + 1 = terminalHeight :=
          count_lastLines (by decide) hlines
        rw [← heq, hb] at hcount
        exact absurd hcount (by decide)

/-- The base stays the place of a byte. -/
theorem renderTerminal_based (h : Written s.term t) (hi : i < t.length)
    (hbase : i % terminalBufferSize = s.baseIndex) :
    Based (renderTerminal s).baseIndex t.length := by
  have hrendered := renderTerminal_rendered h hi hbase
  generalize renderTerminal s = s' at hrendered ⊢
  cases hrendered with
  | kept => exact ⟨i, hi.le, hbase⟩
  | @moved a b hwrap _ hshown _ =>
      obtain ⟨hle, -, hmod⟩ := shownLength_of_lt hi
      rw [hbase] at hle hmod
      have hlen := congrArg List.length hshown
      rw [shown, List.length_drop, List.length_append, List.length_cons] at hlen
      have hshort : shownLength s.baseIndex t.length = s.term.index - s.baseIndex := by
        rw [h.index] at hwrap ⊢
        rw [shownLength, if_pos hwrap]
      have hindex : s.term.index < terminalBufferSize := h.index ▸ Nat.mod_lt _ (by decide)
      refine ⟨t.length - shownLength s.baseIndex t.length + (a.length + 1), by omega, ?_⟩
      rw [← Nat.mod_add_mod, hmod, Nat.mod_eq_of_lt (by omega), Nat.add_assoc]

end

/-! ## Calls -/

/-- A call that writes these bytes. -/
def Screen.writeChunk (s : Screen) (chunk : List UInt8) : Screen :=
  s.write (Bytes.ofList chunk) chunk.length

/-- The screen after these calls. -/
def screenAfter (chunks : List (List UInt8)) : Screen := chunks.foldl Screen.writeChunk .zero

/-- The last lines of a stream, as the terminal should draw them. -/
def window (t : List UInt8) : List UInt8 := lastLines lineFeed terminalHeight t

section

variable {s : Screen} {t chunk : List UInt8} {chunks : List (List UInt8)}

/-- The bytes of a call that is not empty are written behind the base. -/
theorem written_chunk (h : Written s.term t) (hb : Based s.baseIndex t.length)
    (hne : chunk ≠ []) :
    Written (ttyWriteLoop (Bytes.ofList chunk) chunk.length 0 s.term) (t ++ chunk) ∧
      ∃ i < (t ++ chunk).length, i % terminalBufferSize = s.baseIndex := by
  have hwritten := h.ttyWriteLoop (Bytes.ofList chunk) chunk.length 0
  rw [Bytes.drop_zero, Bytes.take_ofList] at hwritten
  obtain ⟨i, hi, hbase⟩ := hb
  refine ⟨hwritten, i, ?_, hbase⟩
  rw [List.length_append]
  exact Nat.lt_of_le_of_lt hi (Nat.lt_add_of_pos_right (List.length_pos_of_ne_nil hne))

/-- **Run.**  After calls that are not empty, the buffer has the last of the stream, and the
base is the place of one of its bytes. -/
theorem screenAfter_written (hne : [] ∉ chunks) :
    Written (screenAfter chunks).term chunks.flatten ∧
      Based (screenAfter chunks).baseIndex chunks.flatten.length := by
  induction chunks using List.reverseRecOn with
  | nil => exact ⟨⟨rfl, recent_nil _ _⟩, 0, Nat.zero_le _, rfl⟩
  | append_singleton chunks chunk ih =>
      rw [List.mem_append, not_or, List.mem_singleton] at hne
      obtain ⟨hwritten, hbased⟩ := ih hne.1
      obtain ⟨hwritten', i, hi, hbase⟩ := written_chunk hwritten hbased (Ne.symm hne.2)
      rw [screenAfter, List.foldl_append, List.flatten_append, List.flatten_singleton]
      exact ⟨hwritten', renderTerminal_based (s := ⟨_, _, _⟩) hwritten' hi hbase⟩

/-- **Call.**  What a call draws is the last lines of all that was written exactly when the base
before it, or the table, has them. -/
theorem screenAfter_drawn_iff (hne : [] ∉ chunks) (hchunk : chunk ≠ []) :
    (screenAfter (chunks ++ [chunk])).drawn = window (chunks ++ [chunk]).flatten ↔
      Windowed (screenAfter chunks).baseIndex (chunks ++ [chunk]).flatten := by
  obtain ⟨hwritten, hbased⟩ := screenAfter_written hne
  obtain ⟨hwritten', i, hi, hbase⟩ := written_chunk hwritten hbased hchunk
  rw [screenAfter, List.foldl_append, List.flatten_append, List.flatten_singleton]
  exact renderTerminal_drawn_iff (s := ⟨_, _, _⟩) hwritten' hi hbase

/-- **The window of the terminal.**  In a run of calls that are not empty, each call after which
the last lines take less than the buffer draws these exactly when at each such call the base
before it, or the table, has them. -/
theorem window_drawn_iff (hne : [] ∉ chunks) :
    (∀ i < chunks.length, (window (chunks.take (i + 1)).flatten).length < terminalBufferSize →
        (screenAfter (chunks.take (i + 1))).drawn = window (chunks.take (i + 1)).flatten) ↔
      ∀ i < chunks.length, (window (chunks.take (i + 1)).flatten).length < terminalBufferSize →
        Windowed (screenAfter (chunks.take i)).baseIndex (chunks.take (i + 1)).flatten := by
  refine forall_congr' fun i ↦ forall_congr' fun hi ↦ forall_congr' fun _ ↦ ?_
  rw [List.take_succ_eq_append_getElem hi]
  apply screenAfter_drawn_iff
  · exact fun hmem ↦ hne (List.mem_of_mem_take hmem)
  · rintro hnil
    exact hne (hnil ▸ List.getElem_mem hi)

end

/-- Thirty lines, each written in a call of its own. -/
def thirtyLines : List (List UInt8) := List.replicate 30 (ofText "ls\n")

/-- Lines that are written one by one scroll as they should. -/
theorem window_drawn_thirtyLines : [] ∉ thirtyLines ∧ ∀ i < thirtyLines.length,
    (window (thirtyLines.take (i + 1)).flatten).length < terminalBufferSize →
      (screenAfter (thirtyLines.take (i + 1))).drawn =
        window (thirtyLines.take (i + 1)).flatten := by
  have hne : [] ∉ thirtyLines := by decide
  exact ⟨hne, (window_drawn_iff hne).mpr (by decide +kernel)⟩

/-- **Twenty-nine line ends in one call leave ten lines.**  Written one by one, the same line
ends leave twenty. -/
theorem window_missed : ∃ chunks : List (List UInt8), [] ∉ chunks ∧
    (∀ chunk ∈ chunks, (8 : UInt8) ∉ chunk) ∧
    (∃ i < chunks.length, (window (chunks.take (i + 1)).flatten).length < terminalBufferSize ∧
      (screenAfter (chunks.take (i + 1))).drawn ≠ window (chunks.take (i + 1)).flatten) ∧
    ∃ chunks', chunks'.flatten = chunks.flatten ∧
      (screenAfter chunks').drawn ≠ (screenAfter chunks).drawn := by
  refine ⟨[List.replicate 29 lineFeed], by decide, by decide, ⟨0, ?_⟩,
    List.replicate 29 [lineFeed], by decide, ?_⟩
  · decide +kernel
  · decide +kernel

end Yorha.Io
