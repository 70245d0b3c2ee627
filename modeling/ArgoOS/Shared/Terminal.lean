import Mathlib

set_option autoImplicit false

/-!
# A terminal of unbounded height

Rows of a fixed width grow downwards and are kept for ever. A screen of bounded height
shows the last of them, or all of them above blank rows.
-/

namespace Terminal

open List

variable {Glyph : Type}

inductive Key (Glyph : Type) where
  | newline
  | carriageReturn
  | tab
  | glyph (g : Glyph)

-- `line` is the last row, where the cursor is.
structure Page (Glyph : Type) where
  above : List (List Glyph)
  line : List Glyph
  column : Nat

namespace Page

def rows (page : Page Glyph) : List (List Glyph) := page.above ++ [page.line]

section

variable (width tabWidth : Nat) (blank : Glyph)

def empty : Page Glyph := ⟨[], List.replicate width blank, 0⟩

def newline (page : Page Glyph) : Page Glyph := ⟨page.rows, List.replicate width blank, 0⟩

def wrap (page : Page Glyph) : Page Glyph :=
  if width ≤ page.column then page.newline width blank else page

def type (page : Page Glyph) : Key Glyph → Page Glyph
  | .newline => page.newline width blank
  | .carriageReturn => { page with column := 0 }
  | .tab => wrap width blank { page with column := (page.column / tabWidth + 1) * tabWidth }
  | .glyph g =>
    wrap width blank { page with line := page.line.set page.column g, column := page.column + 1 }

end

end Page

def lastRows (height : Nat) (blankRow : List Glyph) (rows : List (List Glyph)) :
    List (List Glyph) :=
  rows.drop (rows.length - height) ++ List.replicate (height - rows.length) blankRow

section

variable {height : Nat} {blankRow : List Glyph}

theorem lastRows_below {rows : List (List Glyph)} (room : rows.length < height) :
    lastRows height blankRow (rows ++ [blankRow]) = lastRows height blankRow rows := by
  have before : rows.length - height = 0 := by omega
  have after : rows.length + 1 - height = 0 := by omega
  obtain ⟨rest, left⟩ : ∃ rest, height - rows.length = rest + 1 :=
    ⟨height - rows.length - 1, by omega⟩
  have left' : height - (rows.length + 1) = rest := by omega
  simp [lastRows, before, after, left, left', replicate_succ]

theorem lastRows_scroll {rows : List (List Glyph)} (row : List Glyph) (positive : 0 < height)
    (full : height ≤ rows.length) :
    lastRows height blankRow (rows ++ [row]) =
      (lastRows height blankRow rows).tail ++ [row] := by
  have before : height - rows.length = 0 := by omega
  have after : height - (rows.length + 1) = 0 := by omega
  have dropped : rows.length + 1 - height = rows.length - height + 1 := by omega
  simp only [lastRows, length_append, length_singleton, before, after, dropped,
    replicate_zero, append_nil, tail_drop]
  rw [drop_append_of_le_length (by omega)]

theorem lastRows_line (height : Nat) (blankRow : List Glyph) (above : List (List Glyph))
    (positive : 0 < height) :
    ∃ before after, before.length = min above.length (height - 1) ∧
      ∀ line', lastRows height blankRow (above ++ [line']) = before ++ line' :: after := by
  refine ⟨above.drop (above.length + 1 - height),
    List.replicate (height - (above.length + 1)) blankRow, by simp; omega, fun line' => ?_⟩
  simp only [lastRows, length_append, length_singleton]
  rw [drop_append_of_le_length (by omega)]
  simp

end

end Terminal
