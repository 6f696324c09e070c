/-
Marginalia.Text.Lines — lines and positions.

A line ends at a line feed and at nothing else, so a carriage return stays
part of its line and offsets agree with the characters of the file.

* `splitLines` cuts a text into lines; a text has always at least one.
* `Position` is a line counted from one and a column counted from zero.
* `Position.ofOffset` and `offsetOf` translate between an offset into the
  text and a position. An offset beyond the end belongs to the last line,
  column 0.

Lines and columns are integers, because callers may ask about a line that
does not exist or start from an offset before the text.
-/
import Marginalia.Text.Basic

namespace Marginalia

/-- The lines of a text, without their line feeds. -/
def splitLines (content : Text) : List Text := content.splitOn '\n'

/-- A line, counted from one, and a column in characters, counted from zero. -/
structure Position where
  line : Int
  column : Int
  deriving Repr, DecidableEq, BEq

/-- A question about positions that has no answer. -/
inductive PositionError where
  /-- An offset lies before the text. -/
  | negativeOffset
  /-- The text has `count` lines, and `line` is none of them. -/
  | noSuchLine (line : Int) (count : Nat)
  deriving Repr, DecidableEq

/-- The wording of a position error. -/
def PositionError.message : PositionError → Text
  | .negativeOffset => "offset must be non-negative".toList
  | .noSuchLine line count =>
    "line ".toList ++ Text.ofInt line ++ " outside 1..".toList ++ Text.ofNat count

namespace Position

/-- The same column one line further down. -/
def nextLine (p : Position) : Position := { p with line := p.line + 1 }

/-- The position of an offset that lies on one of the lines. Each line takes its length and one
more, for the line feed that ended it. -/
def find? (offset : Int) : List Text → Option Position
  | [] => none
  | line :: rest =>
    if offset < line.length + 1 then some ⟨1, offset⟩
    else (find? (offset - (line.length + 1)) rest).map nextLine

/-- The position of an offset; past the end it is the start of the last line. -/
def inLines (lines : List Text) (offset : Int) : Position :=
  (find? offset lines).getD ⟨max lines.length 1, 0⟩

/-- The position of an offset into a text. -/
def ofOffset (content : Text) (offset : Int) : Except PositionError Position :=
  if offset < 0 then .error .negativeOffset
  else .ok (inLines (splitLines content) offset)

end Position

/-- The number of characters that a list of lines takes up in its text. -/
def spanOf (lines : List Text) : Nat := lines.foldr (·.length + 1 + ·) 0

/-- The offset of a column on a line; the column is not checked against the line's length. -/
def offsetOf (content : Text) (line column : Int) : Except PositionError Int :=
  let lines := splitLines content
  if line < 1 ∨ line > lines.length then .error (.noSuchLine line lines.length)
  else .ok (spanOf (lines.take (line.toNat - 1)) + column)

/-! ## Small facts -/

/-- A text has at least one line. -/
theorem splitLines_ne_nil (content : Text) : splitLines content ≠ [] := by
  simp [splitLines]

@[simp] theorem spanOf_nil : spanOf [] = 0 := rfl

@[simp] theorem spanOf_cons (line : Text) (rest : List Text) :
    spanOf (line :: rest) = line.length + 1 + spanOf rest := rfl

end Marginalia
