/-
Marginalia.Yaml.Cursor — a place in the text of a document.

A cursor knows what is left of the text and where it stands: the number of
characters read, the line and the column, all counted from zero. A byte order
mark takes no column. The text has line feeds in place of other ASCII line
endings.
-/
import Marginalia.Yaml.Error

namespace Marginalia.Yaml

/-- A character that ends a line. -/
def isBreak (c : Char) : Bool := c = '\n' || c = '\x85' || c = '\u2028' || c = '\u2029'

/-- Whether a line ends here. -/
def endsLine : Option Char → Bool
  | none => true
  | some c => isBreak c

/-- Whether a word that may not hold spaces ends here. -/
def endsWord : Option Char → Bool
  | none => true
  | some c => c = ' ' || isBreak c

/-- Whether a token ends here: at a space, a tab, a line end or the end of the text. -/
def endsToken : Option Char → Bool
  | none => true
  | some c => c = ' ' || c = '\t' || isBreak c

/-- A letter, a digit, a hyphen or an underscore, all of ASCII. -/
def isNameLetter (c : Char) : Bool := c.isAlphanum || c = '-' || c = '_'

/-- Whether a character may stand in a document at all. -/
def isAllowed (c : Char) : Bool :=
  inRanges [(0x09, 0x0A), (0x0D, 0x0D), (0x20, 0x7E), (0x85, 0x85), (0xA0, 0xD7FF),
    (0xE000, 0xFFFD), (0x10000, 0x10FFFF)] c

/-- Whether a text begins with a mark between documents. -/
def isDocumentMark (mark : Char) (t : Text) : Bool :=
  [mark, mark, mark].isPrefixOf t && endsToken t[3]?

/-- Whether a text begins with any mark between documents. -/
def isAnyDocumentMark (t : Text) : Bool := isDocumentMark '-' t || isDocumentMark '.' t

/-- What is left of the text, and where that begins. -/
structure Cursor where
  rest : Text
  index : Nat := 0
  line : Nat := 0
  column : Nat := 0

namespace Cursor

/-- The character `n` places ahead. -/
def ahead (c : Cursor) (n : Nat) : Option Char := c.rest[n]?

/-- The next character. -/
def head (c : Cursor) : Option Char := c.rest.head?

/-- The cursor behind the next character. -/
def next (c : Cursor) : Cursor :=
  match c.rest with
  | [] => c
  | x :: rest =>
    if isBreak x then ⟨rest, c.index + 1, c.line + 1, 0⟩
    else ⟨rest, c.index + 1, c.line, if x = '\uFEFF' then c.column else c.column + 1⟩

/-- The cursor behind the next `n` characters. -/
def skip (c : Cursor) : Nat → Cursor
  | 0 => c
  | n + 1 => c.next.skip n

/-- The characters up to the first that fails a test, and the cursor there. -/
def span (c : Cursor) (p : Char → Bool) : Text × Cursor :=
  let t := c.rest.takeWhile p
  (t, c.skip t.length)

/-- The cursor behind the characters that pass a test. -/
def skipWhile (c : Cursor) (p : Char → Bool) : Cursor := (c.span p).2

/-- The line break at the cursor as it counts in a scalar, and the cursor behind it. -/
def lineBreak (c : Cursor) : Text × Cursor :=
  match c.rest with
  | [] => ([], c)
  | x :: _ =>
    if x = '\n' ∨ x = '\x85' then (['\n'], c.next)
    else if x = '\u2028' ∨ x = '\u2029' then ([x], c.next)
    else ([], c)

/-- The cursor behind spaces and a comment. -/
def skipComment (c : Cursor) : Cursor :=
  let c := c.skipWhile (· = ' ')
  if c.head = some '#' then c.skipWhile (!isBreak ·) else c

/-- The cursor at the next token, and whether a line end lies before it. -/
def skipToToken (fuel : Nat) (c : Cursor) (crossed : Bool) : Cursor × Bool :=
  match fuel with
  | 0 => (c, crossed)
  | fuel + 1 =>
    let c := c.skipComment
    match c.lineBreak with
    | ([], _) => (c, crossed)
    | (_, after) => skipToToken fuel after true

end Cursor

end Marginalia.Yaml
