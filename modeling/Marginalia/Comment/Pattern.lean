/-
Marginalia.Comment.Pattern — the line pass by patterns.

The line pass of `Marginalia.Comment.Find` walks to the end of the indent and
looks at what follows. Here it is said with patterns, one for each marker: an
indent, the marker, the rest of the line. A pattern takes as much indent as it
can and gives it back character by character until the marker follows, and a
line is tried with both patterns, one after the other. Neither the order nor
the way back makes a difference, because no marker begins with a character that
may be indent.
-/
import Marginalia.Comment.Find

namespace Marginalia

/-- What a pattern takes from a line, the marker left out. -/
structure Capture where
  indent : Text
  rest : Text
  deriving Repr, DecidableEq

namespace Capture

/-- One more character of indent. -/
def indented (c : Char) (m : Capture) : Capture := { m with indent := c :: m.indent }

/-- The marker and the rest up to a line feed, without indent. -/
def flush? (marker t : Text) : Option Capture :=
  if marker.isPrefixOf t then some ⟨[], (t.drop marker.length).takeWhile (· ≠ '\n')⟩ else none

/-- An indent, the marker, and the rest up to a line feed. The longest indent is tried first. -/
def find? (marker : Text) : Text → Option Capture
  | [] => flush? marker []
  | c :: t =>
    let longer := if isIndent c then (find? marker t).map (indented c) else none
    longer.or (flush? marker (c :: t))

/-- The match of a capture on a line that starts at an offset. -/
def toMatch (start number : Nat) (kind : Kind) (m : Capture) : Match where
  kind
  text := kind.marker ++ dropReturn m.rest
  offset := start + m.indent.length
  position := some ⟨number, m.indent.length⟩

end Capture

/-- The match of a line by the pattern of a style. -/
def patternMatch? (start number : Nat) (line : Text) (kind : Kind) : Option Match :=
  (Capture.find? kind.marker line).map (Capture.toMatch start number kind)

/-- The matches of consecutive lines, the first of which has a number and starts at an offset. -/
def patternMatches (start number : Nat) : List Text → List Match
  | [] => []
  | line :: rest =>
    [Kind.line, Kind.hash].filterMap (patternMatch? start number line)
      ++ patternMatches (start + line.length + 1) (number + 1) rest

end Marginalia
