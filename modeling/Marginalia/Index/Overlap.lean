/-
Marginalia.Index.Overlap — refreshes of one index that overlap.

Any number of refreshes may be under way on an index at a time. A refresh
touches the index twice, and each time it is undivided: when it starts it
takes its number (`Index.start`), and when it has its records it tries to put
them in force (`Index.commit?`). What lies between is its own business. It may
take as long as it likes, it may give any records, since files change, and it
may fail, in which case the refresh does not come to its second moment.

* `Overlap` is an index with all refreshes that were ever started on it, in
  the order in which they started.
* A `Move` is the next thing that happens to one of them; a list of moves is a
  schedule. A move that the stage of its refresh does not allow is none:
  `Overlap.run?` has no result for a schedule with such a move.
-/
import Marginalia.Index.Basic

namespace Marginalia

/-- How far a refresh has come. -/
inductive Stage where
  /-- It has its number and is gathering records. -/
  | gathering
  /-- It has its records and has not tried to commit them. -/
  | gathered (records : List FileRecord)
  /-- It failed while gathering. -/
  | failed (fault : Fault)
  /-- It is over; `committed` is its answer, whether its records took effect. -/
  | returned (records : List FileRecord) (committed : Bool)
  deriving Repr, DecidableEq

namespace Stage

/-- The stage after gathering. -/
def ofResult : Except Fault (List FileRecord) → Stage
  | .ok records => .gathered records
  | .error fault => .failed fault

/-- The records that a refresh has come up with. -/
def records? : Stage → Option (List FileRecord)
  | .gathered records | .returned records _ => some records
  | .gathering | .failed _ => none

/-- Whether a refresh is over. -/
def hasEnded : Stage → Bool
  | .gathering | .gathered _ => false
  | .failed _ | .returned .. => true

end Stage

/-- A refresh that was started: its number, and how far it has come. -/
structure Call where
  number : Nat
  stage : Stage
  deriving Repr, DecidableEq

/-- What happens next. A refresh is named by its place among those that were started. -/
inductive Move where
  /-- A further refresh starts. -/
  | start
  /-- A refresh is done with gathering. -/
  | gather (call : Nat) (result : Except Fault (List FileRecord))
  /-- A refresh tries to commit, and answers. -/
  | conclude (call : Nat)

/-- An index, and the refreshes that were started on it. -/
structure Overlap where
  index : Index := {}
  calls : List Call := []
  deriving Repr, DecidableEq

namespace Overlap

/-- A further refresh has started. -/
def started (s : Overlap) : Overlap :=
  ⟨s.index.start, s.calls ++ [⟨s.index.start.started, .gathering⟩]⟩

/-- A refresh has come to a stage, and the index to a state. -/
def advance (s : Overlap) (call : Nat) (c : Call) (index : Index) : Overlap :=
  ⟨index, s.calls.set call c⟩

/-- What is there after a move. -/
def step? (s : Overlap) : Move → Option Overlap
  | .start => some s.started
  | .gather call result =>
    match s.calls[call]? with
    | some ⟨number, .gathering⟩ => some (s.advance call ⟨number, .ofResult result⟩ s.index)
    | _ => none
  | .conclude call =>
    match s.calls[call]? with
    | some ⟨number, .gathered records⟩ =>
      match s.index.commit? number records with
      | none => some (s.advance call ⟨number, .returned records false⟩ s.index)
      | some index => some (s.advance call ⟨number, .returned records true⟩ index)
    | _ => none

/-- What is there after a schedule. -/
def run? (s : Overlap) : List Move → Option Overlap
  | [] => some s
  | move :: rest => (s.step? move).bind (run? · rest)

/-! ## Small facts -/

theorem run?_cons (s : Overlap) (move : Move) (rest : List Move) :
    s.run? (move :: rest) = (s.step? move).bind (run? · rest) := rfl

end Overlap

end Marginalia
