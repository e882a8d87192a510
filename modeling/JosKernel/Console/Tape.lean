import JosKernel.Console.Output

/-!
# A terminal with unbounded scrollback

What the display code is for: characters are written to an endless tape of rows, and
the screen is a window of 25 rows on it.  Nothing ever moves on the tape.  The
window follows the cursor down one row when the cursor leaves it.
-/

namespace JosKernel.Console

/-- The tape, the cursor on it, and the row where the window starts. -/
structure Tape where
  cells : Nat → BitVec 16
  cursor : Nat
  top : Nat

namespace Tape

/-- The tape that shows a screen in its first window, blank below. -/
def ofScreen (m : Out) : Tape where
  cells i := if i < crtSize then m.crtBuf i else blank
  cursor := m.crtPos.toNat
  top := 0

def write (i : Nat) (v : BitVec 16) (t : Tape) : Tape :=
  { t with cells := fun j ↦ if j = i then v else t.cells j }

/-- Write a cell and advance. -/
def put (v : BitVec 16) (t : Tape) : Tape :=
  { t.write t.cursor v with cursor := t.cursor + 1 }

/-- Blank the previous cell, unless the cursor is at the first cell of the window. -/
def backspace (v : BitVec 16) (t : Tape) : Tape :=
  if t.cursor = crtCols * t.top then t else { t.write (t.cursor - 1) v with cursor := t.cursor - 1 }

/-- Go to the start of the row. -/
def carriageReturn (t : Tape) : Tape := { t with cursor := crtCols * (t.cursor / crtCols) }

/-- Go to the start of the next row. -/
def newline (t : Tape) : Tape := { t with cursor := crtCols * (t.cursor / crtCols + 1) }

/-- Move the window down a row if the cursor is below it. -/
def follow (t : Tape) : Tape :=
  if crtCols * t.top + crtSize ≤ t.cursor then { t with top := t.top + 1 } else t

/-- A code other than a tab. -/
def act (c : BitVec 32) (t : Tape) : Tape :=
  if c &&& 0xFF = 0x08 then t.backspace (((c &&& ~~~0xFF) ||| 0x20).setWidth 16)
  else if c &&& 0xFF = 0x0A then t.newline
  else if c &&& 0xFF = 0x0D then t.carriageReturn
  else t.put (c.setWidth 16)

/-- A blank with the default attribute. -/
def space (t : Tape) : Tape := (t.put blank).follow

/-- A character code; a tab is five blanks. -/
def putc (c : BitVec 32) (t : Tape) : Tape :=
  if isTab c then t.space.space.space.space.space else (t.act (withAttribute c)).follow

/-- A space with no attribute given is a blank. -/
theorem putc_space (t : Tape) : t.putc 0x20 = t.space := by
  have hattr : withAttribute 0x20 = 0x0720 := by decide
  rw [putc, if_neg (by decide), hattr, act, if_neg (by decide), if_neg (by decide),
    if_neg (by decide)]
  rfl

end Tape

end JosKernel.Console
