/-
Marginalia.Results — the contents of an index as output.

As text, each file stands on a line of its own with its number of comments,
below it its comments with their positions and labels, and at the end a
summary. As JSON, the files are an array of objects with the comments in full.
-/
import Marginalia.Json
import Marginalia.Outline

namespace Marginalia

/-- What was found, in one sentence. -/
def summary (stats : Stats) (roots : List Text) : Text :=
  if stats.comments > 0 then
    "Found ".toList ++ plural stats.comments "comment" ++ " in ".toList
      ++ plural stats.files "file"
  else if roots.isEmpty then "No workspace folder opened".toList
  else "No comments found in the current workspace".toList

/-- A comment in JSON. -/
def Comment.toJson (c : Comment) : Json :=
  .object [("text".toList, .text c.text), ("line_number".toList, .integer c.position.line),
    ("column".toList, .integer c.position.column), ("kind".toList, .text c.kind.name)]

/-- A file with its comments in JSON. -/
def FileRecord.toJson (r : FileRecord) : Json :=
  .object [("file_path".toList, .text r.path), ("comments".toList, .array (r.comments.map (·.toJson)))]

namespace Snapshot

/-- The contents of an index in JSON: the entries of the outline with what stands below them. -/
def toJson (s : Snapshot) : Json :=
  .array (s.entries.map fun e => FileRecord.toJson ⟨e.path, s.below (.file e)⟩)

/-- The line of a comment. -/
def commentLine (c : Comment) : Text :=
  "  ".toList ++ Text.ofInt c.position.line ++ ":".toList ++ Text.ofInt c.position.column
    ++ "  ".toList ++ c.label

/-- The line of a file. -/
def fileLine (cwd : Text) (roots : List Text) (e : FileEntry) : Text :=
  e.label cwd roots ++ " (".toList ++ e.description ++ ")".toList

/-- The lines of the contents of an index, the summary last. -/
def lines (s : Snapshot) (cwd : Text) (roots : List Text) : List Text :=
  (s.entries.flatMap fun e => fileLine cwd roots e :: (s.below (.file e)).map commentLine)
    ++ [summary s.stats roots]

/-- The contents of an index as output. -/
def print (s : Snapshot) (asJson : Bool) (cwd : Text) (roots : List Text) : Text :=
  if asJson then s.toJson.render ++ ['\n']
  else (s.lines cwd roots).flatMap (· ++ ['\n'])

end Snapshot

end Marginalia
