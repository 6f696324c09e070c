/-
Marginalia.Workspace.Ledger — subscriptions one by one.

An observer may be subscribed several times, and each time it is given an
unsubscribe function. The outline does not know which subscription is whose: it
has a list of observers, and an unsubscribe function takes out the first that
equals its own.

* A `Ledger` keeps what the outline does not: all registrations that were made,
  in order, and which of them stand. A registration is named by its place.
* An `Enrolment` is a registration, or the call of an unsubscribe function.
  `Ledger.step` says what it is meant to do, `Workspace.enrol` what it does.
-/
import Marginalia.Workspace.Basic

namespace Marginalia

/-- A subscription of an observer. -/
structure Registration where
  observer : Text
  /-- Whether its own unsubscribe function was not called yet. -/
  stands : Bool := true
  deriving Repr, DecidableEq

/-- The registrations that were made, in order. -/
abbrev Ledger := List Registration

/-- What is done with subscriptions. -/
inductive Enrolment where
  | subscribe (observer : Text)
  /-- The unsubscribe function of a registration is called. -/
  | unsubscribe (registration : Nat)
  deriving Repr, DecidableEq

namespace Ledger

/-- The observers of the registrations that stand. -/
def standing (l : Ledger) : List Text := (l.filter (·.stands)).map (·.observer)

/-- The registrations after an enrolment. -/
def step (l : Ledger) : Enrolment → Ledger
  | .subscribe observer => l ++ [⟨observer, true⟩]
  | .unsubscribe registration => l.modify registration fun r => { r with stands := false }

/-- The registrations after enrolments. -/
def after (l : Ledger) (enrolments : List Enrolment) : Ledger := enrolments.foldl step l

end Ledger

namespace Workspace

/-- The workspace after an enrolment; an unsubscribe function knows the observer that it was made
for. Where there is no such registration there is no such function. -/
def enrol (w : Workspace) (l : Ledger) : Enrolment → Workspace
  | .subscribe observer => w.subscribe observer
  | .unsubscribe registration =>
    match l[registration]? with
    | some r => w.unsubscribe r.observer
    | none => w

/-- The workspace after enrolments. -/
def enrolAll (w : Workspace) (l : Ledger) : List Enrolment → Workspace
  | [] => w
  | e :: rest => (w.enrol l e).enrolAll (l.step e) rest

end Workspace

end Marginalia
