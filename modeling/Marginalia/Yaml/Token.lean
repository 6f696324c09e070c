/-
Marginalia.Yaml.Token — the tokens of a document.

Indentation is turned into tokens of its own, so that what follows need not
look at columns: a deeper line opens a block, a shallower one closes it.

A mapping key is recognised only when its colon is found. Until then every
place where a key may have begun is kept as a `Candidate`, at most one for
each level of brackets; when the colon comes, the key's token is put in front
of what was read since. A candidate lapses when its line ends or after
`maxKeySpan` characters. Where only a key can stand, a candidate that lapses is
an error.
-/
import Marginalia.Text.Utf8
import Marginalia.Yaml.Scalar

namespace Marginalia.Yaml

/-- A directive in front of a document. -/
inductive Directive where
  | version (major : Nat)
  | handle (name expansion : Text)
  | other
  deriving Repr, DecidableEq

/-- A token. -/
inductive Token where
  | directive (d : Directive)
  | documentStart
  | documentEnd
  | blockSequenceStart
  | blockMappingStart
  | blockEnd
  | flowSequenceStart
  | flowSequenceEnd
  | flowMappingStart
  | flowMappingEnd
  | entry
  | separator
  | key
  | value
  | alias (name : Text)
  | anchor (name : Text)
  | tag (handle : Option Text) (suffix : Text)
  | scalar (text : Text) (plain : Bool)
  /-- The text has no further token, for a reason. -/
  | broken (error : Error)
  deriving Repr, DecidableEq

/-- A place where a mapping key may have begun: how many tokens came before it, whether it has to
be a key, and where it stands. -/
structure Candidate where
  tokens : Nat
  required : Bool
  index : Nat
  line : Nat
  column : Nat

/-- The state between two tokens. The indentation of the innermost block is -1 outside all blocks;
`outer` holds those of the blocks around it. -/
structure Lexer where
  cursor : Cursor
  tokens : Array Token := #[]
  indent : Int := -1
  outer : List Int := []
  flow : Nat := 0
  keyAllowed : Bool := true
  candidates : List (Nat × Candidate) := []

namespace Lexer

/-- The greatest number of characters between the beginning of a key and its colon. -/
def maxKeySpan : Nat := 1024

/-- A step of the lexer. -/
abbrev Step := StateT Lexer (Except Error)

/-- Adds a token and skips its characters. -/
def emitSkip (t : Token) (n : Nat) : Step Unit :=
  modify fun s => { s with tokens := s.tokens.push t, cursor := s.cursor.skip n }

/-- Whether a key may begin at the next token. -/
def allowKey (allowed : Bool) : Step Unit := modify fun s => { s with keyAllowed := allowed }

/-- Lets candidates lapse that are on an earlier line or too far away. -/
def dropStale : Step Unit := do
  let s ← get
  let stale := fun (k : Candidate) =>
    k.line != s.cursor.line || decide (s.cursor.index - k.index > maxKeySpan)
  if s.candidates.any fun k => stale k.2 && k.2.required then throw Error.malformed
  set { s with candidates := s.candidates.filter fun k => !stale k.2 }

/-- Drops the candidate of the present level. -/
def dropCandidate : Step Unit := do
  let s ← get
  if s.candidates.any fun k => k.1 == s.flow && k.2.required then throw Error.malformed
  set { s with candidates := s.candidates.filter fun k => k.1 != s.flow }

/-- Keeps the present place as a candidate if a key may begin here. -/
def saveCandidate : Step Unit := do
  if (← get).keyAllowed then
    dropCandidate
    modify fun s =>
      let c := s.cursor
      let required := s.flow == 0 && s.indent == (c.column : Int)
      let candidate : Candidate := ⟨s.tokens.size, required, c.index, c.line, c.column⟩
      { s with candidates := (s.flow, candidate) :: s.candidates }

/-- Closes the blocks that are indented deeper than a column. -/
def unwindFrom (column : Int) : Int → List Int → Array Token → Int × List Int × Array Token
  | indent, [], tokens => (indent, [], tokens)
  | indent, outer :: rest, tokens =>
    if indent > column then unwindFrom column outer rest (tokens.push .blockEnd)
    else (indent, outer :: rest, tokens)

/-- Closes the blocks that are indented deeper than a column; brackets have no indentation. -/
def unwind (column : Int) : Step Unit := modify fun s =>
  if s.flow ≠ 0 then s
  else
    let (indent, outer, tokens) := unwindFrom column s.indent s.outer s.tokens
    { s with indent, outer, tokens }

/-- Opens a block at a column if that is deeper than the present one, with its token put at a
place among the tokens. -/
def openBlock (column : Int) (place : Nat) (t : Token) : Step Unit := modify fun s =>
  if s.indent < column then
    { s with
      indent := column
      outer := s.indent :: s.outer
      tokens := s.tokens.insertIdxIfInBounds place t }
  else s

/-- Opens a block at the cursor. Outside brackets it needs a place where a key may begin. -/
def openHere (t : Token) : Step Unit := do
  let s ← get
  if s.flow = 0 then
    if !s.keyAllowed then throw Error.malformed
    openBlock s.cursor.column s.tokens.size t

/-! ## 1. Directives, anchors and tags -/

/-- A decimal number of ASCII digits. -/
def number (c : Cursor) : Except Error (Nat × Cursor) :=
  let (digits, c) := c.span Char.isDigit
  if digits.isEmpty then .error .malformed
  else .ok (digits.foldl (fun n d => n * 10 + (d.toNat - '0'.toNat)) 0, c)

/-- The handle of a tag: a name between exclamation marks, or a lone exclamation mark before a
space. -/
def tagHandle (c : Cursor) : Except Error (Text × Cursor) :=
  if c.head ≠ some '!' then .error .malformed
  else if c.ahead 1 = some ' ' then .ok (['!'], c.next)
  else
    let (name, after) := c.next.span isNameLetter
    if after.head = some '!' then .ok ('!' :: name ++ ['!'], after.next) else .error .malformed

/-- A character of a tag's text. -/
def isTagLetter (c : Char) : Bool := isNameLetter c || ";/?:@&=+$,.!~*'()[]".toList.contains c

/-- The bytes that percent signs write. -/
def percentBytes (fuel : Nat) (bytes : List UInt8) (c : Cursor) :
    Except Error (List UInt8 × Cursor) :=
  match fuel with
  | 0 => .ok (bytes, c)
  | fuel + 1 =>
    if c.head ≠ some '%' then .ok (bytes, c)
    else
      let digits := c.next.rest.take 2
      if digits.length < 2 then .error .malformed
      else
        match hexValue? digits with
        | none => .error .malformed
        | some n => percentBytes fuel (bytes ++ [n.toUInt8]) (c.skip 3)

/-- The text of a tag, percent signs decoded. -/
def tagText (fuel : Nat) (text : Text) (c : Cursor) : Except Error (Text × Cursor) :=
  let (piece, c) := c.span isTagLetter
  let text := text ++ piece
  match fuel with
  | 0 => .ok (text, c)
  | fuel + 1 =>
    if c.head = some '%' then do
      let (bytes, c) ← percentBytes (c.rest.length + 1) [] c
      match Utf8.decode bytes with
      | .ok decoded => tagText fuel (text ++ decoded) c
      | .error _ => throw .malformed
    else .ok (text, c)

/-- The text of a tag, which has to have a character or a percent sign. -/
def tagSuffix (c : Cursor) : Except Error (Text × Cursor) :=
  if c.head.any fun x => isTagLetter x || x = '%' then tagText (c.rest.length + 1) [] c
  else .error .malformed

/-- A directive; the cursor is behind its percent sign. -/
def directive (c : Cursor) : Except Error (Directive × Cursor) := do
  let (name, c) := c.span isNameLetter
  if name.isEmpty || !endsWord c.head then throw .malformed
  let (d, c) ←
    if name = "YAML".toList then do
      let (major, c) ← number (c.skipWhile (· = ' '))
      if c.head ≠ some '.' then throw .malformed
      let (_, c) ← number c.next
      if !endsWord c.head then throw .malformed
      pure (Directive.version major, c)
    else if name = "TAG".toList then do
      let (handle, c) ← tagHandle (c.skipWhile (· = ' '))
      if c.head ≠ some ' ' then throw .malformed
      let (expansion, c) ← tagSuffix (c.skipWhile (· = ' '))
      if !endsWord c.head then throw .malformed
      pure (Directive.handle handle expansion, c)
    else pure (Directive.other, c.skipWhile (!isBreak ·))
  let c := c.skipComment
  if !endsLine c.head then throw .malformed
  return (d, c.lineBreak.2)

/-- The name of an anchor or alias; the cursor is behind its sign. -/
def anchorName (c : Cursor) : Except Error (Text × Cursor) :=
  let (name, c) := c.span isNameLetter
  if name.isEmpty || !(endsToken c.head || c.head.any ("?:,]\x7d%@`".toList.contains ·)) then
    .error .malformed
  else .ok (name, c)

/-- Whether a tag has a second exclamation mark before the word ends. -/
def hasHandle (t : Text) : Bool :=
  (t.takeWhile fun x => !(x = ' ' || isBreak x)).contains '!'

/-- A tag; the cursor is at its exclamation mark. -/
def tag (c : Cursor) : Except Error (Token × Cursor) := do
  let (token, c) ←
    if c.ahead 1 = some '<' then do
      let (suffix, c) ← tagSuffix (c.skip 2)
      if c.head ≠ some '>' then throw .malformed
      pure (Token.tag none suffix, c.next)
    else if endsToken (c.ahead 1) then pure (Token.tag none ['!'], c.next)
    else do
      let (handle, c) ← if hasHandle c.next.rest then tagHandle c else pure (['!'], c.next)
      let (suffix, c) ← tagSuffix c
      pure (Token.tag (some handle) suffix, c)
  if !endsWord c.head then throw .malformed
  return (token, c)

/-! ## 2. One token -/

/-- Reads a form at the cursor and adds its token. -/
def emitForm {α : Type} (read : Cursor → Except Error (α × Cursor)) (token : α → Token) :
    Step Unit := do
  let s ← get
  let (form, c) ← read s.cursor
  set { s with cursor := c, tokens := s.tokens.push (token form) }

/-- Ends what the line before left open, as directives and marks between documents do. -/
def closeDocument : Step Unit := do
  unwind (-1)
  dropCandidate
  allowKey false

/-- A form that may begin a key. -/
def inline (step : Step Unit) : Step Unit := do
  saveCandidate
  allowKey false
  step

/-- An opening bracket. -/
def openFlow (t : Token) : Step Unit := do
  saveCandidate
  modify fun s => { s with flow := s.flow + 1, keyAllowed := true }
  emitSkip t 1

/-- A closing bracket. -/
def closeFlow (t : Token) : Step Unit := do
  dropCandidate
  modify fun s => { s with flow := s.flow - 1, keyAllowed := false }
  emitSkip t 1

/-- A comma between brackets. -/
def separator : Step Unit := do
  allowKey true
  dropCandidate
  emitSkip .separator 1

/-- The hyphen of a sequence entry. -/
def entry : Step Unit := do
  openHere .blockSequenceStart
  allowKey true
  dropCandidate
  emitSkip .entry 1

/-- The question mark of a key. -/
def explicitKey : Step Unit := do
  openHere .blockMappingStart
  allowKey ((← get).flow == 0)
  dropCandidate
  emitSkip .key 1

/-- The colon before a value. A candidate on this level turns out to be a key. -/
def value : Step Unit := do
  let s ← get
  match s.candidates.lookup s.flow with
  | some k =>
    set { s with
      candidates := s.candidates.filter fun k => k.1 != s.flow
      tokens := s.tokens.insertIdxIfInBounds k.tokens .key
      keyAllowed := false }
    if s.flow = 0 then openBlock k.column k.tokens .blockMappingStart
  | none =>
    openHere .blockMappingStart
    allowKey (s.flow == 0)
    dropCandidate
  emitSkip .value 1

/-- A block scalar. -/
def block (folded : Bool) : Step Unit := do
  allowKey true
  dropCandidate
  let s ← get
  emitForm (blockScalar folded s.indent) (.scalar · false)

/-- A plain scalar. A key may begin behind it if a line ended after its last word. -/
def plain : Step Unit := do
  saveCandidate
  modify fun s =>
    let (text, crossed, c) := plainScalar (s.flow != 0) (s.indent + 1) s.cursor
    { s with cursor := c, tokens := s.tokens.push (.scalar text true), keyAllowed := crossed }

/-- Whether a plain scalar begins here. -/
def startsPlain (inFlow : Bool) (x : Char) (next : Option Char) : Bool :=
  !(endsToken (some x) || "-?:,[]\x7b\x7d#&*!|>'\"%@`".toList.contains x)
    || (!endsToken next && (x = '-' || (!inFlow && (x = '?' || x = ':'))))

/-- Reads the next token; the answer is whether there was one. -/
def step : Step Bool := do
  modify fun s =>
    let c := if s.cursor.index = 0 ∧ s.cursor.head = some '\uFEFF' then s.cursor.next else s.cursor
    let (c, crossed) := c.skipToToken (c.rest.length + 1) false
    { s with cursor := c, keyAllowed := s.keyAllowed || (crossed && s.flow == 0) }
  dropStale
  unwind (← get).cursor.column
  let s ← get
  let c := s.cursor
  let inFlow := s.flow != 0
  let next := c.ahead 1
  match c.head with
  | none =>
    unwind (-1)
    dropCandidate
    return false
  | some x =>
    if x = '%' && c.column = 0 then do
      closeDocument
      emitForm (fun c => directive c.next) .directive
    else if c.column = 0 && isDocumentMark '-' c.rest then do
      closeDocument
      emitSkip .documentStart 3
    else if c.column = 0 && isDocumentMark '.' c.rest then do
      closeDocument
      emitSkip .documentEnd 3
    else if x = '[' then openFlow .flowSequenceStart
    else if x = '{' then openFlow .flowMappingStart
    else if x = ']' then closeFlow .flowSequenceEnd
    else if x = '}' then closeFlow .flowMappingEnd
    else if x = ',' then separator
    else if x = '-' && endsToken next then entry
    else if x = '?' && (inFlow || endsToken next) then explicitKey
    else if x = ':' && (inFlow || endsToken next) then value
    else if x = '*' then inline (emitForm (fun c => anchorName c.next) .alias)
    else if x = '&' then inline (emitForm (fun c => anchorName c.next) .anchor)
    else if x = '!' then inline (emitForm tag id)
    else if x = '|' && !inFlow then block false
    else if x = '>' && !inFlow then block true
    else if x = '\'' then inline (emitForm (quotedScalar '\'') (.scalar · false))
    else if x = '"' then inline (emitForm (quotedScalar '"') (.scalar · false))
    else if startsPlain inFlow x next then plain
    else throw Error.malformed
    return true

/-- Reads tokens until the text ends or breaks a rule. Every token takes a character. -/
def run (fuel : Nat) (s : Lexer) : Array Token :=
  match fuel with
  | 0 => s.tokens
  | fuel + 1 =>
    match step.run s with
    | .error e => s.tokens.push (.broken e)
    | .ok (true, s) => run fuel s
    | .ok (false, s) => s.tokens

end Lexer

/-- The tokens of a text; the last one may say that the text is broken there. -/
def tokensOf (t : Text) : List Token :=
  if t.all isAllowed then (Lexer.run (t.length + 1) { cursor := { rest := t } }).toList
  else [.broken .malformed]

end Marginalia.Yaml
