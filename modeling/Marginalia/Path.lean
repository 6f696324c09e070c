/-
Marginalia.Path — paths as text.

A path is a text; its segments lie between slashes. Nothing here looks at a
file system, so `..` is undone by dropping the segment before it.

* `normalise` writes a path without empty and `.` segments and without a `..`
  that follows a name. Exactly two leading slashes are kept as two, three or
  more count as one.
* `absolute` completes a relative path by the working directory and
  normalises it.
* `common?` is the deepest path that contains two paths. It drops empty and
  `.` segments but leaves `..` alone, and it always begins with one slash when
  the paths are absolute.
* `relativeTo` is the way from one absolute path to another.
* `label` names a file by its way from the deepest root that contains it.
-/
import Marginalia.Text.Basic

namespace Marginalia.Path

/-- The segment for the directory itself. -/
def here : Text := ['.']

/-- The segment for the directory above. -/
def above : Text := ['.', '.']

/-- Whether a path begins at the root of the file system. -/
def isAbsolute (path : Text) : Bool := path.head? = some '/'

/-- The leading slashes that normalisation keeps. -/
def lead : Text → Text
  | '/' :: '/' :: '/' :: _ => ['/']
  | '/' :: '/' :: _ => ['/', '/']
  | '/' :: _ => ['/']
  | _ => []

/-- The segments of a path, without the empty ones. -/
def segments (path : Text) : List Text := (path.splitOn '/').filter (!·.isEmpty)

/-- Segments, joined by slashes. -/
def ofSegments (parts : List Text) : Text := Text.join ['/'] parts

/-- Adds a segment to a normalised list of segments, which is kept last first. -/
def push (rooted : Bool) (done : List Text) (segment : Text) : List Text :=
  if segment = here then done
  else if segment = above then
    match done with
    | [] => if rooted then [] else [above]
    | last :: rest => if last = above then above :: done else rest
  else segment :: done

/-- Segments without `.` and without any `..` that can be undone. -/
def resolve (rooted : Bool) (parts : List Text) : List Text :=
  (parts.foldl (push rooted) []).reverse

/-- The path in normal form; an empty one is `.`. -/
def normalise (path : Text) : Text :=
  let body := lead path ++ ofSegments (resolve (isAbsolute path) (segments path))
  if body.isEmpty then here else body

/-- A path read from a directory; an absolute path stands for itself. -/
def join (directory path : Text) : Text :=
  if isAbsolute path then path
  else if directory.isEmpty || directory.getLast? = some '/' then directory ++ path
  else directory ++ '/' :: path

/-- The normal form of a path read from the working directory. -/
def absolute (cwd path : Text) : Text := normalise (join cwd path)

/-- The part of a path before its last slash, without trailing slashes unless it has nothing
else. -/
def parent (path : Text) : Text :=
  let head := path.dropEndWhile (· ≠ '/')
  if head.all (· = '/') then head else head.dropEndWhile (· = '/')

/-- The longest common beginning of two lists. -/
def commonPrefix : List Text → List Text → List Text
  | a :: as, b :: bs => if a = b then a :: commonPrefix as bs else []
  | _, _ => []

/-- The deepest path that contains both; `none` if one is absolute and the other is not. -/
def common? (a b : Text) : Option Text :=
  if isAbsolute a = isAbsolute b then
    let plain := fun p => (segments p).filter (· ≠ here)
    some ((if isAbsolute a then ['/'] else []) ++ ofSegments (commonPrefix (plain a) (plain b)))
  else none

/-- The way from an absolute base to an absolute path: up to what they share, then down. -/
def relativeTo (base path : Text) : Text :=
  let start := segments (normalise base)
  let goal := segments (normalise path)
  let shared := (commonPrefix start goal).length
  let steps := List.replicate (start.length - shared) above ++ goal.drop shared
  if steps.isEmpty then here else ofSegments steps

/-- Whether a normalised root contains a path. -/
def contains (root path : Text) : Bool := common? root path = some root

/-- The longest of some paths, the first of several. -/
def longest? (paths : List Text) : Option Text :=
  paths.foldl (fun best path =>
    match best with
    | none => some path
    | some b => if b.length < path.length then some path else best) none

/-- The deepest of the roots that contain a path. -/
def deepestRoot? (cwd : Text) (roots : List Text) (path : Text) : Option Text :=
  longest? ((roots.map (absolute cwd)).filter (contains · path))

/-- A file's name for display: its way from the deepest root containing it, else its path. -/
def label (cwd : Text) (roots : List Text) (path : Text) : Text :=
  match deepestRoot? cwd roots path with
  | none => path
  | some root => relativeTo root path

/-! ## Small facts -/

/-- A list is its own common beginning with any of its extensions. -/
theorem commonPrefix_append (a b : List Text) : commonPrefix a (a ++ b) = a := by
  induction a with
  | nil => cases b <;> rfl
  | cons x xs ih => simp [commonPrefix, ih]

end Marginalia.Path
