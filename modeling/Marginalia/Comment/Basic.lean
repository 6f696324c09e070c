/-
Marginalia.Comment.Basic — comments and where they stand.

A comment keeps its text verbatim, markers included, and the position of its
first character. `Comment.selection` is the stretch of its first line that an
editor would select; it is as long as the whole text, also when the text goes
on over further lines.
-/
import Marginalia.Text.Lines
import Marginalia.Text.Quoted

namespace Marginalia

/-- The four styles of comment. -/
inductive Kind where
  /-- From `//` to the end of the line. -/
  | line
  /-- From `#` to the end of the line. -/
  | hash
  /-- Between `/*` and `*/`. -/
  | block
  /-- Between `<!--` and `-->`. -/
  | html
  deriving Repr, DecidableEq, BEq

namespace Kind

/-- The name of a style. -/
def name : Kind → Text
  | .line => "line".toList
  | .hash => "hash".toList
  | .block => "block".toList
  | .html => "html".toList

/-- All styles. -/
def all : List Kind := [.line, .hash, .block, .html]

/-- The style of a name. -/
def ofName? (name : Text) : Option Kind := all.find? (·.name = name)

/-- What is said about a name that no style has. -/
def unknownMessage (name : Text) : Text := name.quoted ++ " is not a valid CommentKind".toList

end Kind

/-- The stretch of a line from `start` up to `stop`; the line is counted from zero. -/
structure Selection where
  line : Int
  start : Int
  stop : Int
  deriving Repr, DecidableEq, BEq

/-- A comment of a file. -/
structure Comment where
  path : Text
  text : Text
  position : Position
  kind : Kind
  deriving Repr, DecidableEq, BEq

namespace Comment

/-- The number of characters of a comment. -/
def length (c : Comment) : Nat := c.text.length

/-- What an editor selects to show a comment. -/
def selection (c : Comment) : Selection :=
  ⟨c.position.line - 1, c.position.column, c.position.column + c.length⟩

end Comment

/-! ## Small facts -/

/-- Every style is found by its name. -/
theorem Kind.ofName?_name (k : Kind) : Kind.ofName? k.name = some k := by
  cases k <;> decide

end Marginalia
