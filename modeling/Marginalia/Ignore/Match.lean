/-
Marginalia.Ignore.Match — which paths a list of rules excludes.

A path is compared as text, relative to the root, with a slash after it if it
names a directory. It need not be used up: a pattern applies to a directory
and to all that lies in it.

* `Piece.rests` lists what may be left of a path after a piece, the longest
  match first, and says whether the piece was the slash that ends a directory.
* `firstMatch` tries the ways to match a list of pieces in that order and
  reports the mark of the first that succeeds.
* Among the rules that match, the last one that matches the path itself wins
  over every rule that matches by way of a directory; `excludes` asks whether
  the winner excludes.
-/
import Marginalia.Ignore.Pattern

namespace Marginalia.Ignore

/-- How a rule matches a path. -/
inductive Mark where
  /-- Because of a directory that the path is or lies in. -/
  | directory
  /-- As it stands. -/
  | whole
  deriving Repr, DecidableEq

/-! ## 1. Pieces -/

/-- What is left after any number of characters in a class, the longest run first. -/
def afterRun (p : Char → Bool) : Text → List Text
  | [] => [[]]
  | c :: rest => if p c then afterRun p rest ++ [c :: rest] else [c :: rest]

/-- What is left after each slash that lies on the first line, the last slash first. -/
def afterSlashes : Text → List Text
  | [] => []
  | c :: rest =>
    if c = '/' then afterSlashes rest ++ [rest]
    else if c = '\n' then []
    else afterSlashes rest

/-- A character of a name. -/
def isNameChar (c : Char) : Bool := c ≠ '/'

/-- A character other than a line feed. -/
def isInline (c : Char) : Bool := c ≠ '\n'

/-- Whether a bracket takes a character. -/
def inBracket (negated : Bool) (ranges : List (Char × Char)) (c : Char) : Bool :=
  (ranges.any fun r => decide (r.1 ≤ c) && decide (c ≤ r.2)) != negated

/-- What may be left of a path after a piece, in the order in which it is tried, and whether the
slash that ends a directory was taken. -/
def Piece.rests (piece : Piece) (t : Text) : List (Text × Bool) :=
  match piece, t with
  | .literal c, d :: rest => if c = d then [(rest, false)] else []
  | .one, c :: rest => if isNameChar c then [(rest, false)] else []
  | .bracket negated ranges, c :: rest => if inBracket negated ranges c then [(rest, false)] else []
  | .run, t => (afterRun isNameChar t).map (·, false)
  | .name, c :: rest =>
    if isNameChar c then (afterRun isNameChar rest).map (·, false) else []
  | .leadingDirectories, c :: rest =>
    (if isInline c then (afterSlashes rest).map (·, false) else []) ++ [(c :: rest, false)]
  | .leadingDirectories, [] => [([], false)]
  | .innerDirectories, '/' :: c :: rest =>
    (if isInline c then (afterRun isInline rest).map (·, false) else [])
      ++ [('/' :: c :: rest, false)]
  | .innerDirectories, t => [(t, false)]
  | .directory, '/' :: rest => [(rest, true)]
  | .finish, '/' :: rest => [(rest, true)]
  | .finish, [] => [([], false)]
  | .finish, ['\n'] => [(['\n'], false)]
  | _, _ => []

/-- The first way in which a path begins with the pieces: whether a directory's slash was taken. -/
def firstMatch : List Piece → Bool → Text → Option Bool
  | [], marked, _ => some marked
  | piece :: rest, marked, t =>
    (piece.rests t).findSome? fun r => firstMatch rest (marked || r.2) r.1

/-! ## 2. Rules -/

/-- The mark for whether a directory's slash was taken. -/
def Mark.ofSlash (taken : Bool) : Mark := if taken then .directory else .whole

/-- How a shape matches a path, if it does. -/
def Shape.mark? (shape : Shape) (path : Text) : Option Mark :=
  match shape with
  | .everything => if path.any isInline then some .whole else none
  | .nested marked => if path.contains '/' then some (.ofSlash marked) else none
  | .pieces parts => (firstMatch parts false path).map .ofSlash

/-- A path as patterns see it: without one leading slash, or without one leading `./`. -/
def relativePath : Text → Text
  | '/' :: rest => rest
  | '.' :: '/' :: rest => rest
  | path => path

/-- The last rule that matches a path with a given mark. -/
def lastWith (mark : Mark) (rules : List Rule) (path : Text) : Option Rule :=
  rules.reverse.find? fun rule => rule.shape.mark? path = some mark

/-- The rule that decides about a path: the last one that matches it as it stands, else the last
one that matches a directory. -/
def deciding? (rules : List Rule) (path : Text) : Option Rule :=
  lastWith .whole rules path <|> lastWith .directory rules path

/-- Whether the rules exclude a path. -/
def excludes (rules : List Rule) (path : Text) : Bool :=
  (deciding? rules (relativePath path)).any (!·.negated)

/-! ## Small facts -/

/-- What is left after a run is an end of the text. -/
theorem isSuffix_of_mem_afterRun {p : Char → Bool} {t s : Text} (h : s ∈ afterRun p t) :
    s <:+ t := by
  induction t with
  | nil => simp_all [afterRun]
  | cons c rest ih =>
    by_cases hc : p c
    · simp only [afterRun, hc, if_true, List.mem_append, List.mem_singleton] at h
      rcases h with h | rfl
      · exact (ih h).trans (List.suffix_cons c rest)
      · exact List.suffix_refl _
    · simp only [afterRun, hc] at h
      simp_all

/-- What is left after a slash is an end of the text. -/
theorem isSuffix_of_mem_afterSlashes {t s : Text} (h : s ∈ afterSlashes t) : s <:+ t := by
  induction t with
  | nil => simp [afterSlashes] at h
  | cons c rest ih =>
    unfold afterSlashes at h
    split at h
    · rcases List.mem_append.1 h with h | h
      · exact (ih h).trans (List.suffix_cons c rest)
      · obtain rfl := List.mem_singleton.1 h
        exact List.suffix_cons c s
    · split at h
      · simp at h
      · exact (ih h).trans (List.suffix_cons c rest)

end Marginalia.Ignore
