/-
Marginalia.Record — reading files and their comments.

`readText` reads a file as strict UTF-8 and changes nothing in it, so that
offsets agree with the file. `FileRecord.scan` finds the comments of a file.
`sortRecords` orders records by path, code point by code point.

Many files are scanned one after the other, or by a pool of workers. A pool
gets to the files in an order of its own, which shows in the order of what is
reported. The records come in the order of the files either way.
-/
import Marginalia.Comment.Find
import Marginalia.Fault

namespace Marginalia

/-- The text of a file. -/
def readText (disk : Disk) (path : Text) : Except Fault Text :=
  if path.contains '\x00' then .error .zeroInPath
  else
    match disk.read path with
    | .error e => .error (.unreadable path (.disk e))
    | .ok bytes => (Utf8.decode bytes).mapError fun r => .unreadable path (.encoding r)

/-- A file and its comments, in the order in which they were found. -/
structure FileRecord where
  path : Text
  comments : List Comment := []
  deriving Repr, DecidableEq, BEq

namespace FileRecord

/-- The number of comments. -/
def count (r : FileRecord) : Nat := r.comments.length

/-- The record of a file. -/
def scan (disk : Disk) (path : Text) : Except Fault FileRecord :=
  (readText disk path).map fun content => ⟨path, extractComments path content⟩

end FileRecord

/-- Records by path. A path with the code zero cannot be ordered. -/
def sortRecords (records : List FileRecord) : Except Fault (List FileRecord) :=
  if records.any (·.path.contains '\x00') then .error .zeroInKey
  else .ok (records.mergeSort fun a b => codePointLe a.path b.path)

/-- A record, if the file can be read and has comments; a file that cannot be read is reported. -/
def scanIfAny (disk : Disk) (path : Text) : Outcome (Option FileRecord) :=
  match FileRecord.scan disk path with
  | .ok record => .done (if record.comments.isEmpty then none else some record)
  | .error (.unreadable path e) => ⟨[.skipped path e], .ok none⟩
  | .error fault => .failed fault

/-- The records of files that can be read and have comments, in the order of the files. -/
def scanAll (disk : Disk) : List Text → Outcome (List FileRecord)
  | [] => .done []
  | path :: rest =>
    (scanIfAny disk path).andThen fun record =>
      (scanAll disk rest).andThen fun records => .done (record.toList ++ records)

/-! ## Pools -/

/-- How many files are scanned: the number of workers, and the order in which a pool of them gets to
the files. -/
structure Scanning where
  workers : Int := 4
  order : List Text → List Text := id
  order_perm : ∀ files, (order files).Perm files := by exact fun files => .refl files

namespace Scanning

/-- What the scan of a file gave, among the scans that were made. -/
def resultOf (made : List (Text × Outcome (Option FileRecord))) (path : Text) :
    Except Fault (Option FileRecord) :=
  match made.lookup path with
  | none => .ok none
  | some outcome => outcome.result

/-- The records among the results of the scans of some files; the first fault ends it. -/
def collect (made : List (Text × Outcome (Option FileRecord))) :
    List Text → Except Fault (List FileRecord)
  | [] => .ok []
  | path :: rest => do
    let record ← resultOf made path
    let records ← collect made rest
    return record.toList ++ records

/-- Scans files in the order in which a pool gets to them. -/
def inPool (s : Scanning) (disk : Disk) (files : List Text) : Outcome (List FileRecord) :=
  let made := (s.order files).map fun path => (path, scanIfAny disk path)
  ⟨made.flatMap (·.2.notices), collect made files⟩

/-- Scans files. A single worker and a single file need no pool. -/
def scan (s : Scanning) (disk : Disk) (files : List Text) : Outcome (List FileRecord) :=
  if s.workers ≤ 1 ∨ files.length < 2 then scanAll disk files else s.inPool disk files

end Scanning

end Marginalia
