/-
Marginalia.Comment.Label — comments for display.

The markers of all styles are taken off in a fixed order, and what is too long
is cut and ends in three dots. In a text that holds both delimiters of a block
the stars in front of the lines are dropped, and the lines are joined by spaces;
any other text keeps its lines. A comment with nothing left is labelled
`Empty comment`.

The markers are taken off one after the other, whatever the style of the
comment, so a label may lose a marker that belongs to the comment's text.
-/
import Marginalia.Comment.Basic

namespace Marginalia.Label

/-- Without a leading `//` and the blank characters after it. -/
def dropLineMarker : Text → Text
  | '/' :: '/' :: rest => rest.dropWhile isBlank
  | t => t

/-- Without a leading slash with stars and the blank characters after them. -/
def dropBlockOpener : Text → Text
  | '/' :: '*' :: rest => (rest.dropWhile (· = '*')).dropWhile isBlank
  | t => t

/-- Without trailing stars with a slash and the blank characters before them. -/
def dropBlockCloser (t : Text) : Text :=
  match t.reverse with
  | '/' :: '*' :: rest => ((rest.dropWhile (· = '*')).dropWhile isBlank).reverse
  | _ => t

/-- Without a leading `<!--` and the blank characters after it. -/
def dropHtmlOpener : Text → Text
  | '<' :: '!' :: '-' :: '-' :: rest => rest.dropWhile isBlank
  | t => t

/-- Without a trailing `-->` and the blank characters before it. -/
def dropHtmlCloser (t : Text) : Text :=
  match t.reverse with
  | '>' :: '-' :: '-' :: rest => (rest.dropWhile isBlank).reverse
  | _ => t

/-- Without a leading `#` and the blank characters after it. -/
def dropHashMarker : Text → Text
  | '#' :: rest => rest.dropWhile isBlank
  | t => t

/-- Without the markers of any style, trimmed. -/
def strip (t : Text) : Text :=
  (dropHashMarker (dropHtmlCloser (dropHtmlOpener (dropBlockCloser (dropBlockOpener
    (dropLineMarker t)))))).trim

/-- A line of a block without the star in front of it and one blank character after the star. -/
def dropStar (line : Text) : Text :=
  match line.trimStart with
  | '*' :: c :: rest => if isBlank c then rest else c :: rest
  | ['*'] => []
  | _ => line

/-- The lines of a block, without their stars, joined by spaces. -/
def joinLines (t : Text) : Text :=
  (Text.join [' '] ((splitLines t).map fun line => (dropStar line).trim)).trim

/-- Whether a text holds both delimiters of a block comment. -/
def hasBlock (t : Text) : Bool := Text.occursIn ['/', '*'] t && Text.occursIn ['*', '/'] t

/-- The longest label. -/
def defaultLimit : Int := 100

/-- The dots at the end of a label that was cut. -/
def ellipsis : Text := ['.', '.', '.']

/-- The label of a comment of which nothing is left. -/
def empty : Text := "Empty comment".toList

/-- The label of a text before it is cut. -/
def full (t : Text) : Text := if hasBlock t then joinLines (strip t) else strip t

/-- A text of at most `limit` characters: what is longer ends in dots, what is empty is named. -/
def fit (limit : Int) (t : Text) : Text :=
  if (t.length : Int) > limit then Text.cutEnd (limit - 3) t ++ ellipsis
  else if t.isEmpty then empty
  else t

/-- The label of a comment's text, at most `limit` characters long. -/
def within (limit : Int) (t : Text) : Text := fit limit (full t)

/-- The label of a comment's text. -/
def ofText (t : Text) : Text := within defaultLimit t

end Marginalia.Label

namespace Marginalia.Comment

/-- The label of a comment. -/
def label (c : Comment) : Text := Label.ofText c.text

/-- The description of a comment that is shown beside it; columns are shown counted from one. -/
def tooltip (c : Comment) (fileLabel : Text) : Text :=
  "File: ".toList ++ fileLabel ++ "\nLine: ".toList ++ Text.ofInt c.position.line
    ++ "\nColumn: ".toList ++ Text.ofInt (c.position.column + 1) ++ "\n\n".toList ++ c.text

end Marginalia.Comment
