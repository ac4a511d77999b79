import Yorha.Io.Terminal

/-!
# The text screen

The cursor and the 80 by 25 cells of `vga.c`, which `kputc` writes one character at a time.

A character that is printed moves the cursor over the end of a line to the next one, and over
the last line to the first.  A line feed does not wrap, and a backspace does not look where the
cursor is: the cursor stays on the screen exactly if none comes at the edge where that matters
(`cursorSafe_iff`).
-/

namespace Yorha.Io

open Yorha.Lib Yorha.Str

/-! ## The code -/

/-- `VGA_WIDTH`. -/
def vgaWidth : Nat := 80

/-- `VGA_HEIGHT`. -/
def vgaHeight : Nat := 25

/-- `VGA_COLOR_BLACK`. -/
def vgaColorBlack : UInt8 := 0

/-- `VGA_COLOR_LIGHT_GREY`. -/
def vgaColorLightGrey : UInt8 := 7

/-- `vga_entry_color`. -/
def vgaEntryColor (fg bg : UInt8) : UInt8 := fg ||| bg <<< 4

/-- `vga_entry`. -/
def vgaEntry (uc color : UInt8) : UInt16 := uc.toUInt16 ||| color.toUInt16 <<< 8

/-- The globals of `vga.c`, and the position register of the adapter. -/
structure Vga where
  terminalRow : Nat
  terminalColumn : Nat
  terminalColor : UInt8
  terminalBuffer : Nat → UInt16
  position : Nat
  /-- The cells that were written since `initialize_terminal`, the last one first. -/
  written : List Nat

/-- `terminal_buffer[index] = entry`. -/
def Vga.store (v : Vga) (index : Nat) (entry : UInt16) : Vga :=
  { v with
    terminalBuffer := Function.update v.terminalBuffer index entry
    written := index :: v.written }

/-- `move_cursor`. -/
def moveCursor (v : Vga) (x y : Nat) : Vga := { v with position := (y * vgaWidth + x) % 2 ^ 16 }

/-- The loop over a line of `terminal_clear`. -/
def clearLine (v : Vga) (y : Nat) : Vga :=
  (List.range vgaWidth).foldl
    (fun v x ↦ v.store (y * vgaWidth + x) (vgaEntry 32 v.terminalColor)) v

/-- The loops of `terminal_clear` and `initialize_terminal`. -/
def clearLines (v : Vga) : Vga := (List.range vgaHeight).foldl clearLine v

/-- `terminal_clear`. -/
def terminalClear (v : Vga) : Vga :=
  clearLines { v with
    terminalRow := 0
    terminalColumn := 0
    terminalColor := vgaEntryColor vgaColorLightGrey vgaColorBlack }

/-- `initialize_terminal`.  Nothing was written to the buffer before. -/
def initializeTerminal (v : Vga) : Vga :=
  clearLines { v with
    terminalRow := 0
    terminalColumn := 0
    terminalColor := vgaEntryColor vgaColorLightGrey vgaColorBlack
    written := [] }

/-- `terminal_putentryat`. -/
def terminalPutentryat (v : Vga) (c color : UInt8) (x y : Nat) : Vga :=
  v.store ((y * vgaWidth + x) % 2 ^ 32) (vgaEntry c color)

/-- `'\b'`, of `kputc`. -/
def backspaceChar : UInt8 := 8

/-- The cursor moves to the next cell: the `if` at the end of `kputc`. -/
def advance (v : Vga) : Vga :=
  let column := (v.terminalColumn + 1) % 2 ^ 32
  if column = vgaWidth then
    let row := (v.terminalRow + 1) % 2 ^ 32
    { v with terminalColumn := 0, terminalRow := if row = vgaHeight then 0 else row }
  else { v with terminalColumn := column }

/-- `kputc`. -/
def kputc (v : Vga) (c : UInt8) : Vga :=
  if c = lineFeed then
    { v with terminalColumn := 0, terminalRow := (v.terminalRow + 1) % 2 ^ 32 }
  else if c = backspaceChar then
    let v := { v with terminalColumn := (v.terminalColumn + 2 ^ 32 - 1) % 2 ^ 32 }
    let v := terminalPutentryat v 32 v.terminalColor v.terminalColumn v.terminalRow
    moveCursor v v.terminalColumn v.terminalRow
  else
    let v := advance (terminalPutentryat v c v.terminalColor v.terminalColumn v.terminalRow)
    moveCursor v v.terminalColumn v.terminalRow

/-! ## Calls -/

/-- A call that draws. -/
inductive VgaCall where
  | kputc (c : UInt8)
  | terminalClear

/-- Make a call. -/
def VgaCall.exec (v : Vga) : VgaCall → Vga
  | .kputc c => Io.kputc v c
  | .terminalClear => Io.terminalClear v

/-- Make calls one after another. -/
def runVga (v : Vga) (calls : List VgaCall) : Vga := calls.foldl VgaCall.exec v

/-- The cursor is on the screen, and only cells of the screen were written. -/
structure OnScreen (v : Vga) : Prop where
  column : v.terminalColumn < vgaWidth
  row : v.terminalRow < vgaHeight
  cells : ∀ index ∈ v.written, index < vgaWidth * vgaHeight

/-- A line feed does not come in the last line, and a backspace not in the first column. -/
def VgaCall.StaysInside (v : Vga) : VgaCall → Prop
  | .kputc c => (c = lineFeed → v.terminalRow + 1 < vgaHeight) ∧
      (c = backspaceChar → 0 < v.terminalColumn)
  | .terminalClear => True

/-- After each of the calls the cursor is on the screen, and so is every cell written. -/
def CursorSafe (v : Vga) (calls : List VgaCall) : Prop :=
  ∀ before, before <+: calls → OnScreen (runVga v before)

/-- None of the calls comes at the edge that it would cross. -/
def AvoidsEdges (v : Vga) (calls : List VgaCall) : Prop :=
  ∀ before c, before ++ [c] <+: calls → c.StaysInside (runVga v before)

/-! ## Clearing -/

section

variable {v : Vga} {c : UInt8} {x y : Nat}

/-- A cell of the screen. -/
theorem cell_lt (hx : x < vgaWidth) (hy : y < vgaHeight) :
    y * vgaWidth + x < vgaWidth * vgaHeight := by
  change y * 80 + x < 80 * 25
  have hx' : x < 80 := hx
  have hy' : y < 25 := hy
  omega

theorem OnScreen.store (h : OnScreen v) {index : Nat} (hindex : index < vgaWidth * vgaHeight)
    (entry : UInt16) : OnScreen (v.store index entry) where
  column := h.column
  row := h.row
  cells := List.forall_mem_cons.mpr ⟨hindex, h.cells⟩

theorem OnScreen.clearLine (h : OnScreen v) (hy : y < vgaHeight) : OnScreen (clearLine v y) :=
  List.foldlRecOn (motive := OnScreen) _ _ h fun _ hv _ hx ↦
    hv.store (cell_lt (List.mem_range.mp hx) hy) _

/-- Clearing the screen writes its cells. -/
theorem OnScreen.clearLines (h : OnScreen v) : OnScreen (clearLines v) :=
  List.foldlRecOn (motive := OnScreen) _ _ h fun _ hv _ hy ↦ hv.clearLine (List.mem_range.mp hy)

/-- The cursor is at the start of the screen. -/
def AtHome (v : Vga) : Prop := v.terminalRow = 0 ∧ v.terminalColumn = 0

theorem AtHome.clearLine (h : AtHome v) (y : Nat) : AtHome (clearLine v y) :=
  List.foldlRecOn (motive := AtHome) _ _ h fun _ hv _ _ ↦ hv

/-- Clearing does not move the cursor. -/
theorem AtHome.clearLines (h : AtHome v) : AtHome (clearLines v) :=
  List.foldlRecOn (motive := AtHome) _ _ h fun _ hv y _ ↦ hv.clearLine y

theorem atHome_initializeTerminal (v : Vga) : AtHome (initializeTerminal v) :=
  AtHome.clearLines ⟨rfl, rfl⟩

theorem OnScreen.terminalClear (h : OnScreen v) : OnScreen (terminalClear v) :=
  OnScreen.clearLines ⟨Nat.zero_lt_succ _, Nat.zero_lt_succ _, h.cells⟩

/-- The start. -/
theorem onScreen_initializeTerminal (v : Vga) : OnScreen (initializeTerminal v) :=
  OnScreen.clearLines ⟨Nat.zero_lt_succ _, Nat.zero_lt_succ _, List.forall_mem_nil _⟩

/-! ## Characters -/

theorem onScreen_moveCursor : OnScreen (moveCursor v x y) ↔ OnScreen v :=
  ⟨fun h ↦ ⟨h.column, h.row, h.cells⟩, fun h ↦ ⟨h.column, h.row, h.cells⟩⟩

/-- The index of a cell is computed exactly. -/
theorem OnScreen.terminalPutentryat (h : OnScreen v) (hx : x < vgaWidth) (hy : y < vgaHeight)
    (c color : UInt8) : OnScreen (terminalPutentryat v c color x y) := by
  have hcell := cell_lt hx hy
  refine h.store ?_ _
  rwa [Nat.mod_eq_of_lt (lt_trans hcell (by decide))]

/-- A line feed. -/
theorem OnScreen.kputc_lineFeed (h : OnScreen v) :
    OnScreen (kputc v lineFeed) ↔ v.terminalRow + 1 < vgaHeight := by
  have hrow : v.terminalRow < 25 := h.row
  have hmod : (v.terminalRow + 1) % 2 ^ 32 = v.terminalRow + 1 := by omega
  rw [kputc, if_pos rfl, hmod]
  exact ⟨fun h' ↦ h'.row, fun hlt ↦ ⟨Nat.zero_lt_succ _, hlt, h.cells⟩⟩

/-- A backspace. -/
theorem OnScreen.kputc_backspace (h : OnScreen v) :
    OnScreen (kputc v backspaceChar) ↔ 0 < v.terminalColumn := by
  have hcolumn : v.terminalColumn < 80 := h.column
  rw [kputc, if_neg (by decide), if_pos rfl]
  constructor
  · intro h'
    have hlt : (v.terminalColumn + 2 ^ 32 - 1) % 2 ^ 32 < 80 := h'.column
    omega
  · intro hpos
    have hlt : (v.terminalColumn + 2 ^ 32 - 1) % 2 ^ 32 < vgaWidth := by
      change _ < 80
      omega
    have h₁ : OnScreen { v with terminalColumn := (v.terminalColumn + 2 ^ 32 - 1) % 2 ^ 32 } :=
      ⟨hlt, h.row, h.cells⟩
    exact onScreen_moveCursor.mpr (h₁.terminalPutentryat hlt h.row _ _)

/-- The next cell is one of the screen. -/
theorem OnScreen.advance (h : OnScreen v) : OnScreen (advance v) := by
  have hcolumn : v.terminalColumn < 80 := h.column
  have hrow : v.terminalRow < 25 := h.row
  rw [Io.advance]
  split
  · refine ⟨Nat.zero_lt_succ _, ?_, h.cells⟩
    change (if (v.terminalRow + 1) % 2 ^ 32 = 25 then 0 else (v.terminalRow + 1) % 2 ^ 32) < 25
    split
    · exact Nat.zero_lt_succ _
    · omega
  · rename_i hend
    refine ⟨?_, h.row, h.cells⟩
    have hne : (v.terminalColumn + 1) % 2 ^ 32 ≠ 80 := hend
    change (v.terminalColumn + 1) % 2 ^ 32 < 80
    omega

theorem advance_written (v : Vga) : (advance v).written = v.written := by
  rw [advance]
  split
  · rfl
  · rfl

/-- A character that is printed is written where the cursor is. -/
theorem kputc_written (v : Vga) (hline : c ≠ lineFeed) (hback : c ≠ backspaceChar) :
    (kputc v c).written =
      (v.terminalRow * vgaWidth + v.terminalColumn) % 2 ^ 32 :: v.written := by
  rw [kputc, if_neg hline, if_neg hback]
  exact advance_written _

/-- A character that is printed. -/
theorem OnScreen.kputc_printed (h : OnScreen v) (hline : c ≠ lineFeed)
    (hback : c ≠ backspaceChar) : OnScreen (kputc v c) := by
  rw [kputc, if_neg hline, if_neg hback]
  exact onScreen_moveCursor.mpr (h.terminalPutentryat h.column h.row c _).advance

/-- **Step.**  A call keeps the cursor on the screen exactly if it does not cross an edge. -/
theorem OnScreen.exec_iff (h : OnScreen v) (call : VgaCall) :
    OnScreen (call.exec v) ↔ call.StaysInside v := by
  cases call with
  | terminalClear => exact iff_of_true h.terminalClear trivial
  | kputc c =>
      change OnScreen (kputc v c) ↔
        (c = lineFeed → v.terminalRow + 1 < vgaHeight) ∧ (c = backspaceChar → 0 < v.terminalColumn)
      by_cases hline : c = lineFeed
      · subst hline
        rw [h.kputc_lineFeed]
        exact ⟨fun hlt ↦ ⟨fun _ ↦ hlt, fun heq ↦ absurd heq (by decide)⟩, fun hin ↦ hin.1 rfl⟩
      · by_cases hback : c = backspaceChar
        · subst hback
          rw [h.kputc_backspace]
          exact ⟨fun hpos ↦ ⟨fun heq ↦ absurd heq hline, fun _ ↦ hpos⟩, fun hin ↦ hin.2 rfl⟩
        · exact iff_of_true (h.kputc_printed hline hback)
            ⟨fun heq ↦ absurd heq hline, fun heq ↦ absurd heq hback⟩

end

/-! ## Runs -/

section

variable {v : Vga} {calls before : List VgaCall}

theorem runVga_append (v : Vga) (before : List VgaCall) (c : VgaCall) :
    runVga v (before ++ [c]) = c.exec (runVga v before) := by
  rw [runVga, List.foldl_append]
  rfl

/-- **Run.** -/
theorem AvoidsEdges.cursorSafe (hv : OnScreen v) (h : AvoidsEdges v calls) :
    CursorSafe v calls := by
  intro before
  induction before using List.reverseRecOn with
  | nil => exact fun _ ↦ hv
  | append_singleton before c ih =>
      intro hpre
      have hbefore := ih ((List.prefix_append before [c]).trans hpre)
      rw [runVga_append]
      exact (hbefore.exec_iff c).mpr (h before c hpre)

/-- Line feeds count rows, whatever the height of the screen. -/
theorem runVga_lineFeeds (hcolumn : v.terminalColumn = 0) {n : Nat}
    (hn : v.terminalRow + n < 2 ^ 32) : runVga v (List.replicate n (.kputc lineFeed)) =
      { v with terminalRow := v.terminalRow + n } := by
  induction n with
  | zero => rfl
  | succ n ih =>
      rw [List.replicate_succ', runVga_append, ih (Nat.lt_of_succ_lt hn), VgaCall.exec, kputc,
        if_pos rfl, hcolumn]
      change { v with terminalColumn := 0, terminalRow := (v.terminalRow + n + 1) % 2 ^ 32 } = _
      have hmod : (v.terminalRow + n + 1) % 2 ^ 32 = v.terminalRow + (n + 1) := Nat.mod_eq_of_lt hn
      rw [hmod, ← hcolumn]

end

/-- **The cursor is safe exactly if it avoids the edges.**  For every sequence of calls of
`kputc` and `terminal_clear` after `initialize_terminal`: the cursor and every cell written are
on the screen after each call if and only if no line feed comes in the last line and no
backspace in the first column. -/
theorem cursorSafe_iff (v : Vga) (calls : List VgaCall) :
    CursorSafe (initializeTerminal v) calls ↔ AvoidsEdges (initializeTerminal v) calls := by
  constructor
  · intro h before c hpre
    have hbefore := h before ((List.prefix_append before [c]).trans hpre)
    have hafter := h (before ++ [c]) hpre
    rw [runVga_append] at hafter
    exact (hbefore.exec_iff c).mp hafter
  · exact fun h ↦ h.cursorSafe (onScreen_initializeTerminal v)

/-- The globals before `initialize_terminal`. -/
def Vga.zero : Vga := ⟨0, 0, 0, fun _ ↦ 0, 0, []⟩

/-- **A backspace at the start leaves the screen**, and 25 line feeds and a character write the
cell behind the last. -/
theorem backspace_leaves_screen :
    ¬ CursorSafe (initializeTerminal .zero) [.kputc backspaceChar] ∧
    (runVga (initializeTerminal .zero)
      (List.replicate 25 (.kputc lineFeed) ++ [.kputc 120])).written.head? = some 2000 := by
  obtain ⟨hrow, hcolumn⟩ := atHome_initializeTerminal .zero
  constructor
  · intro h
    have hafter := h [.kputc backspaceChar] (List.prefix_refl _)
    have hpos := (onScreen_initializeTerminal .zero).kputc_backspace.mp hafter
    exact hpos.ne' hcolumn
  · rw [runVga_append, runVga_lineFeeds hcolumn (by rw [hrow]; decide), VgaCall.exec,
      kputc_written _ (by decide) (by decide), hrow, hcolumn]
    rfl

end Yorha.Io
