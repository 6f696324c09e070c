/-
Marginalia.Comment.Find — finding comments in a text.

Three passes run one after the other: the lines, then the block comments,
then the HTML comments. They do not know of each other, so a `#` line inside
a block comment is reported as well as the block.

* A line comment begins with `//` or `#` after nothing but blank characters
  and byte order marks. It takes the rest of the line, without one final
  carriage return.
* A delimited comment runs from the first opener to the first closer after it,
  and the search goes on behind the closer. An opener without a closer ends
  the pass: no later opener can have one.

The line pass knows positions as it goes; the other two find offsets, and
`Match.locate` turns those into positions.
-/
import Marginalia.Comment.Basic

namespace Marginalia

/-- A comment as a pass finds it: its style, its text, its offset, and its position where the pass
knows it. -/
structure Match where
  kind : Kind
  text : Text
  offset : Nat
  position : Option Position
  deriving Repr, DecidableEq, BEq

/-! ## 1. The lines -/

/-- A character that may stand in front of a line comment. -/
def isIndent (c : Char) : Bool := isBlank c || c = '\uFEFF'

/-- The style of a line comment by its marker. -/
def lineKind? : Text → Option Kind
  | '/' :: '/' :: _ => some .line
  | '#' :: _ => some .hash
  | _ => none

/-- The marker of a style; line comments have nothing else in front. -/
def Kind.marker : Kind → Text
  | .line => ['/', '/']
  | .hash => ['#']
  | .block => ['/', '*']
  | .html => ['<', '!', '-', '-']

/-- A text without one final carriage return. -/
def dropReturn (t : Text) : Text := if t.getLast? = some '\r' then t.dropLast else t

/-- The comment of a line that starts at an offset. -/
def lineMatch? (start number : Nat) (line : Text) : Option Match :=
  let indent := (line.takeWhile isIndent).length
  let body := line.dropWhile isIndent
  (lineKind? body).map fun kind =>
    { kind
      text := kind.marker ++ dropReturn (body.drop kind.marker.length)
      offset := start + indent
      position := some ⟨number, indent⟩ }

/-- The comments of consecutive lines, the first of which has a number and starts at an offset. -/
def lineMatches (start number : Nat) : List Text → List Match
  | [] => []
  | line :: rest =>
    (lineMatch? start number line).toList ++ lineMatches (start + line.length + 1) (number + 1) rest

/-! ## 2. Delimiters -/

/-- How many characters stand before the first occurrence of a piece, counted from `n`. -/
def indexOf? (piece : Text) (n : Nat) : Text → Option Nat
  | [] => if piece.isEmpty then some n else none
  | c :: rest => if piece.isPrefixOf (c :: rest) then some n else indexOf? piece (n + 1) rest

/-- What begins and what ends a delimited comment. -/
structure Delimiters where
  kind : Kind
  opener : Text
  closer : Text
  opener_ne_nil : opener ≠ []

/-- `/*` and `*/`. -/
def blockDelimiters : Delimiters := ⟨.block, ['/', '*'], ['*', '/'], by simp⟩

/-- `<!--` and `-->`. -/
def htmlDelimiters : Delimiters := ⟨.html, ['<', '!', '-', '-'], ['-', '-', '>'], by simp⟩

theorem pos_length_of_indexOf? {piece : Text} (hp : piece ≠ []) {n i : Nat} {t : Text}
    (h : indexOf? piece n t = some i) : 0 < t.length := by
  cases t with
  | nil => simp [indexOf?, hp] at h
  | cons => simp

/-- The delimited comments of a text that starts at an offset. -/
def delimitedMatches (d : Delimiters) (offset : Nat) (t : Text) : List Match :=
  match _h : indexOf? d.opener 0 t with
  | none => []
  | some i =>
    match indexOf? d.closer 0 (t.drop (i + d.opener.length)) with
    | none => []
    | some j =>
      let size := d.opener.length + j + d.closer.length
      ⟨d.kind, (t.drop i).take size, offset + i, none⟩
        :: delimitedMatches d (offset + (i + size)) (t.drop (i + size))
termination_by t.length
decreasing_by
  have ht := pos_length_of_indexOf? d.opener_ne_nil _h
  have ho : 0 < d.opener.length := List.length_pos_iff.2 d.opener_ne_nil
  simp only [List.length_drop]
  omega

/-! ## 3. All passes -/

/-- The comments of a text, pass after pass. -/
def matchesIn (content : Text) : List Match :=
  lineMatches 0 1 (splitLines content) ++ delimitedMatches blockDelimiters 0 content
    ++ delimitedMatches htmlDelimiters 0 content

/-- The position of a match in its text. -/
def Match.locate (lines : List Text) (m : Match) : Position :=
  m.position.getD (Position.inLines lines m.offset)

/-- The comments of a file's text, in the order in which the passes find them. -/
def extractComments (path content : Text) : List Comment :=
  let lines := splitLines content
  (matchesIn content).map fun m => ⟨path, m.text, m.locate lines, m.kind⟩

end Marginalia
