/-
Marginalia.Outline — files and their comments as a tree of two levels.

The upper level lists the files of an index with the numbers of their
comments; below a file stand its comments, and below a comment nothing. What a
file holds is looked up when it is asked for, so an entry for a file that the
index does not know is empty.
-/
import Marginalia.Comment.Label
import Marginalia.Index.Basic

namespace Marginalia

/-- A number with a noun, which gets an `s` unless there is one. -/
def plural (n : Int) (noun : String) : Text :=
  Text.ofInt n ++ " ".toList ++ noun.toList ++ if n = 1 then [] else ['s']

/-- An entry for a file. The count is an integer, so that an entry can show any number. -/
structure FileEntry where
  path : Text
  count : Int
  deriving Repr, DecidableEq

namespace FileEntry

/-- The number of comments in words. -/
def description (e : FileEntry) : Text := plural e.count "comment"

/-- The name under which a file is shown. -/
def label (e : FileEntry) (cwd : Text) (roots : List Text) : Text := Path.label cwd roots e.path

end FileEntry

/-- An entry of the tree. -/
inductive Entry where
  | file (e : FileEntry)
  | comment (c : Comment)
  deriving Repr, DecidableEq

namespace Snapshot

/-- The files of a snapshot, in order. -/
def entries (s : Snapshot) : List FileEntry := s.records.map fun r => ⟨r.path, r.count⟩

/-- What stands below an entry. -/
def below (s : Snapshot) : Entry → List Comment
  | .comment _ => []
  | .file e =>
    match s.record? e.path with
    | none => []
    | some r => r.comments

end Snapshot

end Marginalia
