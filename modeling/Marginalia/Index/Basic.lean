/-
Marginalia.Index.Basic — the index of comments.

A refresh takes a number when it starts, gathers records, and then tries to
put them in force. `Index.commit?` lets it succeed only if no refresh with a
higher number has started since; so whatever the order in which refreshes end,
the visible records are never replaced by older ones, and a refresh that fails
on the way changes nothing but the count of refreshes.

Everything that can be asked of an index is read off its records: the record
of a file, the numbers of files and comments.
-/
import Marginalia.Record
import Marginalia.Walk

namespace Marginalia

/-- The records of one refresh, ordered by path. -/
structure Snapshot where
  records : List FileRecord := []
  deriving Repr, DecidableEq

/-- The numbers of files and comments. -/
structure Stats where
  files : Nat
  comments : Nat
  deriving Repr, DecidableEq, BEq

namespace Snapshot

/-- The record of a file. -/
def record? (s : Snapshot) (path : Text) : Option FileRecord := s.records.find? (·.path = path)

/-- The numbers of files and comments. -/
def stats (s : Snapshot) : Stats := ⟨s.records.length, s.records.foldr (·.count + ·) 0⟩

end Snapshot

/-- An index: how many refreshes have started, the number of the one whose records are in force
(zero before the first), and those records. -/
structure Index where
  started : Nat := 0
  generation : Nat := 0
  snapshot : Snapshot := {}
  deriving Repr, DecidableEq

namespace Index

/-- Starts a refresh: the number of the new refresh is the new value of `started`. -/
def start (i : Index) : Index := { i with started := i.started + 1 }

/-- Puts the records of a refresh in force unless a newer refresh has started. -/
def commit? (i : Index) (number : Nat) (records : List FileRecord) : Option Index :=
  if number < i.started then none
  else some { i with generation := number, snapshot := ⟨records⟩ }

/-! ## Small facts -/

@[simp] theorem start_started (i : Index) : i.start.started = i.started + 1 := rfl

/-- A commit fails exactly when a newer refresh has started. -/
theorem commit?_eq_none_iff {i : Index} {number : Nat} {records : List FileRecord} :
    i.commit? number records = none ↔ number < i.started := by
  unfold commit?
  split <;> simp_all

end Index

/-! ## Gathering -/

/-- The items that are not known yet, the first of equal ones. -/
def newOnes (known : List Text) : List Text → List Text
  | [] => []
  | path :: rest =>
    if known.contains path then newOnes known rest else path :: newOnes (path :: known) rest

/-- The eligible files of several roots, each file once. The notice of a root counts all of its
files. -/
def candidates (disk : Disk) (settings : Settings) (limit : Option Int) (known : List Text) :
    List Text → Outcome (List Text)
  | [] => .done []
  | root :: rest =>
    (enumerate disk settings limit root).andThen fun files =>
      (Outcome.note (.candidates files.length (disk.absolute root))).andThen fun _ =>
        let fresh := newOnes known files
        (candidates disk settings limit (fresh ++ known) rest).andThen fun others =>
          .done (fresh ++ others)

/-- The ordered records of files. -/
def gather (disk : Disk) (scanning : Scanning) (files : List Text) : Outcome (List FileRecord) :=
  (scanning.scan disk files).andThen fun records => .ofExcept (sortRecords records)

end Marginalia
