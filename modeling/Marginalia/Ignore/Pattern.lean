/-
Marginalia.Ignore.Pattern — ignore patterns, read from their text.

A pattern is a line of an ignore file. Reading it gives a `Rule`: whether it
excludes or takes an exclusion back, and a `Shape` that paths are compared
with.

* Blank lines, comments and a lone slash give no rule.
* `!` in front makes a rule that takes exclusions back.
* A pattern without a slash, or with one at its end only, applies at every
  depth; any other is read from the root.
* A slash at the end restricts the pattern to what lies in a directory.
* `**` stands for any number of directories, `*` for part of a name, `?` for
  one character of a name, and brackets list characters. A backslash takes the
  next character literally.

Segments are read from left to right, and so are their characters; what is
found first decides. A bracket that is never closed makes the whole pattern
say nothing. A backslash with nothing after it is an error. A reversed range
such as `[z-a]` is an error of its own, and it is noticed last.
-/
import Marginalia.Text.Quoted

namespace Marginalia.Ignore

/-- A pattern that is not understood. -/
inductive PatternError where
  /-- The pattern names nothing, or it ends in a backslash that quotes nothing. -/
  | invalid (pattern : Text)
  /-- A bracket has a range whose end lies before its start. -/
  | reversedRange
  deriving Repr, DecidableEq

/-- The wording of a pattern error. -/
def PatternError.message : PatternError → Text
  | .invalid pattern => "Invalid git pattern: ".toList ++ pattern.quoted
  | .reversedRange => "bad character range".toList

/-- A part of a pattern. -/
inductive Piece where
  /-- This character. -/
  | literal (c : Char)
  /-- One character of a name. -/
  | one
  /-- Any number of characters of a name. -/
  | run
  /-- One or more characters of a name. -/
  | name
  /-- One character in one of the ranges, or in none of them. -/
  | bracket (negated : Bool) (ranges : List (Char × Char))
  /-- Directories above the path, or none. -/
  | leadingDirectories
  /-- A slash and what follows it, or nothing. -/
  | innerDirectories
  /-- The slash after a directory. -/
  | directory
  /-- The slash after a directory, or the end of the path. -/
  | finish
  deriving Repr, DecidableEq

/-- What a pattern compares paths with. -/
inductive Shape where
  /-- Every path that has a character other than a line feed. -/
  | everything
  /-- Every path that has a slash; `marked` says that the slash counts as the end of a directory. -/
  | nested (marked : Bool)
  /-- Paths that begin with these pieces. -/
  | pieces (parts : List Piece)
  deriving Repr, DecidableEq

/-- A pattern as it is applied. -/
structure Rule where
  negated : Bool
  shape : Shape
  deriving Repr, DecidableEq

/-! ## 1. Brackets -/

/-- The ranges that the inside of a bracket lists. A hyphen makes a range unless it stands at an
end. -/
def rangesOf : Text → List (Char × Char)
  | [] => []
  | [a, '-'] => [(a, a), ('-', '-')]
  | a :: '-' :: b :: rest => (a, b) :: rangesOf rest
  | a :: rest => (a, a) :: rangesOf rest

/-- `!` or `^` in front of the inside of a bracket, and what follows. -/
def splitNegation : Text → Bool × Text
  | [] => (false, [])
  | c :: rest => if c = '!' ∨ c = '^' then (true, rest) else (false, c :: rest)

/-- A closing bracket in front of the inside of a bracket, and what follows. -/
def splitClosing : Text → Text × Text
  | ']' :: rest => ([']'], rest)
  | t => ([], t)

/-- A bracket, from after its opening to after its closing. `!` or `^` in front negates it, and a
closing bracket directly after that stands for itself. -/
def bracket? (t : Text) : Option (Piece × Text) :=
  let opening := splitNegation t
  let start := splitClosing opening.2
  match start.2.dropWhile (· ≠ ']') with
  | [] => none
  | _ :: rest =>
    some (.bracket opening.1 (rangesOf (start.1 ++ start.2.takeWhile (· ≠ ']'))), rest)

theorem length_splitNegation_le (t : Text) : (splitNegation t).2.length ≤ t.length := by
  cases t with
  | nil => simp [splitNegation]
  | cons c rest => rw [splitNegation]; split <;> simp

theorem length_splitClosing_le (t : Text) : (splitClosing t).2.length ≤ t.length := by
  unfold splitClosing; split <;> simp

theorem length_dropWhile_le (p : Char → Bool) (t : Text) : (t.dropWhile p).length ≤ t.length :=
  (List.dropWhile_suffix p).sublist.length_le

/-- A bracket takes at least its closing. -/
theorem length_of_bracket? {t : Text} {r : Piece × Text} (h : bracket? t = some r) :
    r.2.length < t.length := by
  have h1 := length_splitNegation_le t
  have h2 := length_splitClosing_le (splitNegation t).2
  have h3 := length_dropWhile_le (· ≠ ']') (splitClosing (splitNegation t).2).2
  unfold bracket? at h
  dsimp only at h
  split at h
  · simp at h
  · rename_i c rest hc
    obtain rfl := Option.some.inj h
    rw [hc, List.length_cons] at h3
    simp only
    omega

/-! ## 2. Segments -/

/-- Why a segment has no pieces. -/
inductive Defect where
  /-- A bracket is never closed. -/
  | unclosedBracket
  /-- A backslash quotes nothing. -/
  | danglingBackslash
  deriving Repr, DecidableEq

/-- The pieces of one segment, character by character. -/
def characters (t : Text) : Except Defect (List Piece) :=
  match t with
  | [] => .ok []
  | ['\\'] => .error .danglingBackslash
  | '\\' :: c :: rest => (characters rest).map (.literal c :: ·)
  | '*' :: rest => (characters rest).map (.run :: ·)
  | '?' :: rest => (characters rest).map (.one :: ·)
  | '[' :: rest =>
    match _h : bracket? rest with
    | none => .error .unclosedBracket
    | some r => (characters r.2).map (r.1 :: ·)
  | c :: rest => (characters rest).map (.literal c :: ·)
termination_by t.length
decreasing_by
  · simp only [List.length_cons]; omega
  · exact Nat.lt_succ_self _
  · exact Nat.lt_succ_self _
  · exact Nat.lt_succ_of_lt (length_of_bracket? _h)
  · exact Nat.lt_succ_self _

/-- The segment that stands for any directories. -/
def anyDirectories : Text := ['*', '*']

/-- The pieces of one segment; a lone star needs at least one character. -/
def segment (t : Text) : Except Defect (List Piece) :=
  if t = ['*'] then .ok [.name] else characters t

/-- The pieces of all segments. `slash` is the slash that the next segment needs in front, and
`marked` says whether a trailing `**` came from a slash at the end. -/
def assemble (marked : Bool) (first : Bool) (slash : List Piece) :
    List Text → Except Defect (List Piece)
  | [] => .ok []
  | s :: rest =>
    if s = anyDirectories then
      if first then (assemble marked false [] rest).map (.leadingDirectories :: ·)
      else if rest.isEmpty then .ok [if marked then .directory else .literal '/']
      else (assemble marked false [.literal '/'] rest).map (.innerDirectories :: ·)
    else do
      let own ← segment s
      if rest.isEmpty then return slash ++ own ++ [.finish]
      let others ← assemble marked false [.literal '/'] rest
      return slash ++ own ++ others

/-! ## 3. Patterns -/

/-- The text of a pattern without trailing blank characters; a backslash keeps a final space. -/
def stripLine (line : Text) : Text :=
  if ['\\', ' '].isSuffixOf line then line else line.trimEnd

/-- The segments of a pattern as they are applied: from the root if the pattern begins with a
slash, at any depth if it has none. -/
def anchor : List Text → List Text
  | [] :: rest => rest
  | [s] => if s = anyDirectories then [s] else [anyDirectories, s]
  | [s, []] => if s = anyDirectories then [s, []] else [anyDirectories, s, []]
  | segments => segments

/-- A trailing empty segment stands for everything in the directory. -/
def closeDirectory : List Text → List Text
  | [] => []
  | [s] => if s.isEmpty then [anyDirectories] else [s]
  | s :: rest => s :: closeDirectory rest

/-- Adjacent `**` segments are one. -/
def collapse : List Text → List Text
  | [] => []
  | s :: rest =>
    match collapse rest with
    | [] => [s]
    | t :: more =>
      if s = anyDirectories ∧ t = anyDirectories then t :: more else s :: t :: more

/-- Whether a piece has a range whose end lies before its start. -/
def Piece.hasReversedRange : Piece → Bool
  | .bracket _ ranges => ranges.any fun r => decide (r.2 < r.1)
  | _ => false

/-- The shape of a list of segments; `none` if the pattern says nothing. -/
def Shape.ofSegments (pattern : Text) (marked : Bool) (segments : List Text) :
    Except PatternError (Option Shape) :=
  let star := ['*']
  if segments = [anyDirectories] then
    .ok (some (if marked then .nested true else .everything))
  else if segments = [anyDirectories, star] then .ok (some .everything)
  else if segments = [anyDirectories, star, anyDirectories] then .ok (some (.nested marked))
  else
    match assemble marked true [] segments with
    | .error .unclosedBracket => .ok none
    | .error .danglingBackslash => .error (.invalid pattern)
    | .ok parts =>
      if parts.any Piece.hasReversedRange then .error .reversedRange
      else .ok (some (.pieces parts))

/-- Reads a pattern; `none` if it says nothing. -/
def Rule.parse (pattern : Text) : Except PatternError (Option Rule) :=
  let line := stripLine pattern
  if line.isEmpty || line.head? = some '#' || line = ['/'] then .ok none
  else
    let (negated, body) :=
      match line with
      | '!' :: rest => (true, rest)
      | _ => (false, line)
    let raw := body.splitOn '/'
    let segments := anchor raw
    if segments.isEmpty then .error (.invalid pattern)
    else do
      let shape ← Shape.ofSegments pattern (raw.getLast? = some [])
        (collapse (closeDirectory segments))
      return shape.map fun s => ⟨negated, s⟩

/-- Reads a list of patterns in order, leaving out those that say nothing. -/
def Rule.parseAll (patterns : List Text) : Except PatternError (List Rule) := do
  let rules ← patterns.mapM Rule.parse
  return rules.filterMap id

end Marginalia.Ignore
