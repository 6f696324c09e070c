/-
Marginalia.Yaml.Scalar — the texts of scalars, as a document writes them.

Each function reads one form from a cursor and gives its text and the cursor
behind it.

* A plain scalar ends at a comment, at a colon that ends a token, at a flow
  indicator inside brackets, or where its lines fall back to the indentation
  around it. One line end between its words counts as a space, further ones as
  line feeds.
* A quoted scalar ends at its quotation mark; line ends fold in the same way.
* A block scalar keeps its line ends (`|`) or folds them (`>`).

Loops carry fuel: each round reads a character, so the length of what is left
is enough.
-/
import Marginalia.Yaml.Cursor

namespace Marginalia.Yaml

/-- How folding joins two lines: the first break is dropped unless it is one of its own kind, and
stands for a space if no empty line follows. -/
def foldBreaks (first : Text) (more : List Text) : Text :=
  (if first ≠ ['\n'] then first else if more.isEmpty then [' '] else []) ++ more.flatten

/-! ## 1. Plain scalars -/

/-- The length of the word of a plain scalar that begins a text. -/
def plainLength (inFlow : Bool) : Text → Nat
  | [] => 0
  | c :: rest =>
    let next := rest.head?
    if c = ' ' || c = '\t' || isBreak c then 0
    else if c = ':' && (endsToken next || (inFlow && next.any (",[]\x7b\x7d".toList.contains ·))) then 0
    else if inFlow && ",?[]\x7b\x7d".toList.contains c then 0
    else plainLength inFlow rest + 1

/-- The breaks after a first one, up to the next word; `none` at a mark between documents. -/
def plainBreaks (fuel : Nat) (breaks : List Text) (c : Cursor) : Option (List Text) × Cursor :=
  match fuel with
  | 0 => (some breaks, c)
  | fuel + 1 =>
    let c := c.skipWhile (· = ' ')
    match c.lineBreak with
    | ([], _) => (some breaks, c)
    | (b, after) =>
      if isAnyDocumentMark after.rest then (none, after)
      else plainBreaks fuel (breaks ++ [b]) after

/-- What separates two words of a plain scalar, empty if the scalar ends, and whether a line end
lies in it. -/
def plainGap (c : Cursor) : Text × Bool × Cursor :=
  let (spaces, c) := c.span (· = ' ')
  match c.lineBreak with
  | ([], _) => (spaces, false, c)
  | (b, after) =>
    if isAnyDocumentMark after.rest then ([], true, after)
    else
      match plainBreaks (after.rest.length + 1) [] after with
      | (none, c) => ([], true, c)
      | (some more, c) => (foldBreaks b more, true, c)

/-- The words of a plain scalar. `gap` separates what was read from the next word. -/
def plainWords (inFlow : Bool) (indent : Int) (fuel : Nat) (text gap : Text) (crossed : Bool)
    (c : Cursor) : Text × Bool × Cursor :=
  match fuel with
  | 0 => (text, crossed, c)
  | fuel + 1 =>
    let size := if c.head = some '#' then 0 else plainLength inFlow c.rest
    if size = 0 then (text, crossed, c)
    else
      let text := text ++ gap ++ c.rest.take size
      let (gap, crossed, c) := plainGap (c.skip size)
      if gap.isEmpty || c.head = some '#' || (!inFlow && (c.column : Int) < indent) then
        (text, crossed, c)
      else plainWords inFlow indent fuel text gap crossed c

/-- A plain scalar, and whether a line end lies behind its last word. -/
def plainScalar (inFlow : Bool) (indent : Int) (c : Cursor) : Text × Bool × Cursor :=
  plainWords inFlow indent (c.rest.length + 1) [] [] false c

/-! ## 2. Quoted scalars -/

/-- The value of hexadecimal digits of ASCII. -/
def hexValue? (t : Text) : Option Nat :=
  if t.all fun c => c.isDigit || ('a' ≤ c && c ≤ 'f') || ('A' ≤ c && c ≤ 'F') then
    (Number.digits? 16 [] true t).map (Number.ofDigits 16)
  else none

/-- The character of a code; a surrogate has none of its own and is replaced. -/
def characterOf (code : Nat) : Except Error Char :=
  if code > 0x10FFFF then .error (.noSuchCharacter code)
  else if 0xD800 ≤ code ∧ code ≤ 0xDFFF then .ok '\uFFFD'
  else .ok (Char.ofNat code)

/-- The characters that a letter after a backslash stands for. -/
def escapes : List (Char × Char) :=
  [('0', '\x00'), ('a', '\x07'), ('b', '\x08'), ('t', '\t'), ('\t', '\t'), ('n', '\n'),
    ('v', '\x0B'), ('f', '\x0C'), ('r', '\r'), ('e', '\x1B'), (' ', ' '), ('"', '"'),
    ('\\', '\\'), ('/', '/'), ('N', '\x85'), ('_', '\xA0'), ('L', '\u2028'), ('P', '\u2029')]

/-- The numbers of digits that follow a letter for a code. -/
def codeLengths : List (Char × Nat) := [('x', 2), ('u', 4), ('U', 8)]

/-- The line breaks after a first one inside a quoted scalar. -/
def quotedBreaks (fuel : Nat) (breaks : List Text) (c : Cursor) : Except Error (List Text × Cursor) :=
  match fuel with
  | 0 => .ok (breaks, c)
  | fuel + 1 =>
    if isAnyDocumentMark c.rest then .error .malformed
    else
      let c := c.skipWhile fun x => x = ' ' || x = '\t'
      match c.lineBreak with
      | ([], _) => .ok (breaks, c)
      | (b, after) => quotedBreaks fuel (breaks ++ [b]) after

/-- What a backslash stands for; the cursor is behind it. -/
def escaped (c : Cursor) : Except Error (Text × Cursor) :=
  match c.head with
  | none => .error .malformed
  | some x =>
    match escapes.lookup x, codeLengths.lookup x with
    | some y, _ => .ok ([y], c.next)
    | none, some size =>
      let digits := c.next.rest.take size
      if digits.length < size then .error .malformed
      else
        match hexValue? digits with
        | none => .error .malformed
        | some code => (characterOf code).map fun y => ([y], c.next.skip size)
    | none, none =>
      match c.lineBreak with
      | ([], _) => .error .malformed
      | (_, after) => (quotedBreaks (after.rest.length + 1) [] after).map fun r =>
          (r.1.flatten, r.2)

/-- The white space inside a quoted scalar. -/
def quotedGap (c : Cursor) : Except Error (Text × Cursor) :=
  let (spaces, c) := c.span fun x => x = ' ' || x = '\t'
  match c.head, c.lineBreak with
  | none, _ => .error .malformed
  | _, ([], _) => .ok (spaces, c)
  | _, (b, after) => (quotedBreaks (after.rest.length + 1) [] after).map fun r =>
      (foldBreaks b r.1, r.2)

/-- The inside of a quoted scalar up to its closing mark. -/
def quotedText (mark : Char) (fuel : Nat) (text : Text) (c : Cursor) : Except Error (Text × Cursor) :=
  match fuel, c.head with
  | 0, _ | _, none => .error .malformed
  | fuel + 1, some x =>
    if x = ' ' || x = '\t' || isBreak x then do
      let (gap, c) ← quotedGap c
      quotedText mark fuel (text ++ gap) c
    else if x = mark then
      if mark = '\'' && c.ahead 1 = some '\'' then quotedText mark fuel (text ++ ['\'']) (c.skip 2)
      else .ok (text, c.next)
    else if x = '\\' && mark = '"' then do
      let (piece, c) ← escaped c.next
      quotedText mark fuel (text ++ piece) c
    else
      let (piece, c) := c.span fun y =>
        !(y = '\'' || y = '"' || y = '\\' || y = ' ' || y = '\t' || isBreak y)
      if piece.isEmpty then quotedText mark fuel (text ++ [x]) c.next
      else quotedText mark fuel (text ++ piece) c

/-- A quoted scalar; the cursor is at its opening mark. -/
def quotedScalar (mark : Char) (c : Cursor) : Except Error (Text × Cursor) :=
  quotedText mark (c.rest.length + 1) [] c.next

/-! ## 3. Block scalars -/

/-- What happens to the line ends behind the last line of a block scalar. -/
inductive Chomp where
  | strip
  | clip
  | keep
  deriving Repr, DecidableEq

/-- The sign for the line ends behind the last line. -/
def chompSign? : Option Char → Option Chomp
  | some '+' => some .keep
  | some '-' => some .strip
  | _ => none

/-- The digit for the indentation. -/
def indentDigit? : Option Char → Option Nat
  | some c => if c.isDigit then some (c.toNat - '0'.toNat) else none
  | none => none

/-- The sign and the digit in the header of a block scalar, in either order. -/
def blockHeader (c : Cursor) : Except Error (Chomp × Option Nat × Cursor) := do
  let (chomp, digit, c) :=
    match chompSign? c.head, indentDigit? c.head with
    | some chomp, _ =>
      match indentDigit? (c.ahead 1) with
      | some d => (chomp, some d, c.skip 2)
      | none => (chomp, none, c.next)
    | none, some d =>
      match chompSign? (c.ahead 1) with
      | some chomp => (chomp, some d, c.skip 2)
      | none => (Chomp.clip, some d, c.next)
    | none, none => (Chomp.clip, none, c)
  if digit = some 0 || !endsWord c.head then throw .malformed
  let c := c.skipComment
  if !endsLine c.head then throw .malformed
  return (chomp, digit, c.lineBreak.2)

/-- The empty lines in front of a block scalar without a digit, and its indentation. -/
def blockIndentation (fuel : Nat) (breaks : List Text) (deepest : Nat) (c : Cursor) :
    List Text × Nat × Cursor :=
  match fuel with
  | 0 => (breaks, deepest, c)
  | fuel + 1 =>
    let c := c.skipWhile (· = ' ')
    let deepest := max deepest c.column
    match c.lineBreak with
    | ([], _) => (breaks, deepest, c)
    | (b, after) => blockIndentation fuel (breaks ++ [b]) deepest after

/-- The cursor behind the spaces of the indentation. -/
def skipIndent (indent : Nat) (c : Cursor) : Cursor :=
  c.skip (min (indent - c.column) (c.rest.takeWhile (· = ' ')).length)

/-- The empty lines between two lines of a block scalar. -/
def blockBreaks (indent fuel : Nat) (breaks : List Text) (c : Cursor) : List Text × Cursor :=
  let c := skipIndent indent c
  match fuel with
  | 0 => (breaks, c)
  | fuel + 1 =>
    match c.lineBreak with
    | ([], _) => (breaks, c)
    | (b, after) => blockBreaks indent fuel (breaks ++ [b]) after

/-- Whether a line begins with more white space than its indentation. -/
def isSpaced (c : Cursor) : Bool := c.head = some ' ' || c.head = some '\t'

/-- The lines of a block scalar. `breaks` are the line ends before the line at the cursor. The
result holds the text, the end of the last line and the line ends behind it. -/
def blockLines (folded : Bool) (indent fuel : Nat) (text : Text) (breaks : List Text)
    (lastBreak : Text) (c : Cursor) : Text × Text × List Text × Cursor :=
  match fuel with
  | 0 => (text, lastBreak, breaks, c)
  | fuel + 1 =>
    if c.column ≠ indent || c.head.isNone then (text, lastBreak, breaks, c)
    else
      let spaced := isSpaced c
      let (line, c) := c.span (!isBreak ·)
      let text := text ++ breaks.flatten ++ line
      let (b, c) := c.lineBreak
      let (breaks, c) := blockBreaks indent (c.rest.length + 1) [] c
      if c.column = indent && c.head.isSome then
        let between :=
          if folded && b = ['\n'] && !spaced && !isSpaced c then
            (if breaks.isEmpty then [' '] else [])
          else b
        blockLines folded indent fuel (text ++ between) breaks b c
      else (text, b, breaks, c)

/-- A block scalar inside a given indentation; the cursor is at its sign. -/
def blockScalar (folded : Bool) (outer : Int) (c : Cursor) : Except Error (Text × Cursor) := do
  let (chomp, digit, c) ← blockHeader c.next
  let least := (max (outer + 1) 1).toNat
  let size := c.rest.length + 1
  let (breaks, indent, c) :=
    match digit with
    | none =>
      let (breaks, deepest, c) := blockIndentation size [] 0 c
      (breaks, max least deepest, c)
    | some d =>
      let indent := least + d - 1
      let (breaks, c) := blockBreaks indent size [] c
      (breaks, indent, c)
  let (text, lastBreak, breaks, c) := blockLines folded indent size [] breaks [] c
  let ending :=
    match chomp with
    | .strip => []
    | .clip => lastBreak
    | .keep => lastBreak ++ breaks.flatten
  return (text ++ ending, c)

end Marginalia.Yaml
