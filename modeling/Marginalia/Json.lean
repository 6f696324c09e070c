/-
Marginalia.Json — JSON documents, written with an indentation of two.

Only what results need: texts, integers, arrays and objects. Objects keep the
order of their fields. Characters outside ASCII are written as themselves;
quotation marks, backslashes and the control characters below U+0020 are
escaped, five of them by letters. An empty array or object is written without
a line end inside.
-/
import Marginalia.Text.Quoted

namespace Marginalia

/-- A JSON document. -/
inductive Json where
  | text (t : Text)
  | integer (n : Int)
  | array (items : List Json)
  | object (fields : List (Text × Json))
  deriving Repr

namespace Json

/-- The letters that stand for control characters behind a backslash. -/
def escapeLetters : List (Char × Char) :=
  [('"', '"'), ('\\', '\\'), ('\n', 'n'), ('\r', 'r'), ('\t', 't'), ('\x08', 'b'), ('\x0C', 'f')]

/-- A character inside a text. -/
def encodeChar (c : Char) : Text :=
  match escapeLetters.lookup c with
  | some letter => ['\\', letter]
  | none =>
    if c.toNat < 0x20 then '\\' :: 'u' :: Quoted.hexDigits 4 c.toNat else [c]

/-- A text in quotation marks. -/
def encodeText (t : Text) : Text := '"' :: t.flatMap encodeChar ++ ['"']

/-- The beginning of a line at a depth. -/
def lineStart (depth : Nat) : Text := '\n' :: List.replicate (2 * depth) ' '

/-- Items between brackets, each on a line of its own. -/
def bracketed (opening closing : Char) (depth : Nat) (items : List Text) : Text :=
  if items.isEmpty then [opening, closing]
  else
    opening :: lineStart (depth + 1) ++ Text.join (',' :: lineStart (depth + 1)) items
      ++ lineStart depth ++ [closing]

mutual

/-- A document at a depth. -/
def renderAt (depth : Nat) : Json → Text
  | .text t => encodeText t
  | .integer n => Text.ofInt n
  | .array items => bracketed '[' ']' depth (renderItems (depth + 1) items)
  | .object fields => bracketed '{' '}' depth (renderFields (depth + 1) fields)

/-- The items of an array at a depth. -/
def renderItems (depth : Nat) : List Json → List Text
  | [] => []
  | item :: rest => renderAt depth item :: renderItems depth rest

/-- The fields of an object at a depth. -/
def renderFields (depth : Nat) : List (Text × Json) → List Text
  | [] => []
  | (name, value) :: rest =>
    (encodeText name ++ [':', ' '] ++ renderAt depth value) :: renderFields depth rest

end

/-- A document as text. -/
def render (j : Json) : Text := renderAt 0 j

end Json

end Marginalia
