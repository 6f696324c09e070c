/-
Marginalia.Workspace.Conduct — schedules in which everybody does as they
should.

`Rounds` leaves open what comes between the turns of a round. In a run it is
not open: whoever is called acts before the next one is called, and what is
done by an observer or by the owner of a workspace takes the turns that belong
to it, in order, and no others. Here the turns are read off what is done.

* A `Conduct` says what the observers do when they are called. It may depend
  on all that happened before, so any way to act is one.
* `Rounds.Acts` is for the reactions of an observer, `Completes` for a round
  from some moment to its end, `Refreshes` for a refresh with its answer, and
  `Follows` for deeds.
* Nothing is said of what a refresh comes up with, nor of which roots and
  settings a request finds in force: neither is decided by who watches.
-/
import Marginalia.Workspace.Rounds
import Marginalia.Workspace.Session

namespace Marginalia

/-- What observers do when they are called. -/
abbrev Conduct := Text → Rounds → List Reaction

/-- The conduct of observers with scripts. -/
def Conduct.scripted (scripts : List (Text × List Reaction)) : Conduct :=
  fun observer s => reactionsOf scripts s.observersCalled observer

namespace Rounds

/-- The turns that a round takes on account of a call: a call that did not come to its end leaves a
trace. -/
def traceOf (round : Nat) (ended : Bool) : List Turn := if ended then [] else [.fail round]

section

variable (conduct : Conduct)

mutual

/-- An observer does reactions one after the other until one fails; `ended` is whether none did. -/
inductive Acts : (reactions : List Reaction) → (s : Rounds) → (turns : List Turn) →
    (t : Rounds) → (ended : Bool) → Prop where
  | nil {s : Rounds} : Acts [] s [] s true
  | record {rest : List Reaction} {s t : Rounds} {turns : List Turn} {ended : Bool}
      (hrest : Acts rest s turns t ended) : Acts (.record :: rest) s turns t ended
  | fail {rest : List Reaction} {s : Rounds} : Acts (.fail :: rest) s [] s false
  | watch {change : Watching} {rest : List Reaction} {s t : Rounds} {turns : List Turn}
      {ended : Bool} (hrest : Acts rest (s.watch change) turns t ended) :
      Acts (.watch change :: rest) s (.watch change :: turns) t ended
  | refresh {rest : List Reaction} {s t u : Rounds} {turns later : List Turn} {answer ended : Bool}
      (hrefresh : Refreshes [] s turns t (.ok answer)) (hrest : Acts rest t later u ended) :
      Acts (.refresh :: rest) s (turns ++ later) u ended
  /-- A refresh that faults is a reaction that fails. -/
  | fault {rest : List Reaction} {s t : Rounds} {turns : List Turn} {f : Fault}
      (hrefresh : Refreshes [] s turns t (.error f)) : Acts (.refresh :: rest) s turns t false

/-- A round calls one after the other until nobody is left. -/
inductive Completes : (round : Nat) → (s : Rounds) → (turns : List Turn) → (t : Rounds) → Prop where
  | nil {round call : Nat} {s : Rounds} (hround : s.rounds[round]? = some ⟨call, some []⟩) :
      Completes round s [] s
  /-- The outline does nothing but have its subscribers called. -/
  | outline {round : Nat} {s t u : Rounds} {turns : List Turn}
      (hnext : s.next? round = some (.listener .outline)) (hcall : s.step? (.call round) = some t)
      (hrest : Completes round t turns u) : Completes round s (.call round :: turns) u
  /-- An observer acts before the next one is called, and whether it fails does not matter. -/
  | observer {round : Nat} {callee : Callee} {observer : Text} {s t u v x : Rounds}
      {turns later : List Turn} {ended : Bool} (hnext : s.next? round = some callee)
      (hobserver : callee.observer? = some observer) (hcall : s.step? (.call round) = some t)
      (hacts : Acts (conduct observer s) t turns u ended)
      (htrace : u.run? (traceOf round ended) = some v) (hrest : Completes round v later x) :
      Completes round s (.call round :: (turns ++ (traceOf round ended ++ later))) x

/-- A refresh starts and comes up with a result. Deeds are done meanwhile, unless the refresh faults
before it comes to that or has nothing to scan. -/
inductive Gathers : (meanwhile : List Deed) → (s : Rounds) → (turns : List Turn) → (t : Rounds) →
    (result : Except Fault (List FileRecord)) → Prop where
  | intro {meanwhile done : List Deed} {s t u v : Rounds} {turns : List Turn}
      {result : Except Fault (List FileRecord)}
      (hdone : done = meanwhile ∨ done = [] ∧ ∀ records, result = .ok records → records = [])
      (hstart : s.step? (.index .start) = some t) (hmeanwhile : Follows done t turns u)
      (hgather : u.step? (.index (.gather s.overlap.calls.length result)) = some v) :
      Gathers meanwhile s
        (.index .start :: (turns ++ [.index (.gather s.overlap.calls.length result)])) v result

/-- A refresh runs from start to end. If it takes effect its round is made, and whatever happens in
the round, this is the answer. -/
inductive Refreshes : (meanwhile : List Deed) → (s : Rounds) → (turns : List Turn) →
    (t : Rounds) → (answer : Except Fault Bool) → Prop where
  | fault {meanwhile : List Deed} {s t : Rounds} {turns : List Turn} {f : Fault}
      (hgathers : Gathers meanwhile s turns t (.error f)) :
      Refreshes meanwhile s turns t (.error f)
  | superseded {meanwhile : List Deed} {s t u : Rounds} {turns : List Turn}
      {records : List FileRecord} (hgathers : Gathers meanwhile s turns t (.ok records))
      (hconclude : t.step? (.index (.conclude s.overlap.calls.length)) = some u)
      (hnone : u.rounds = t.rounds) :
      Refreshes meanwhile s (turns ++ [.index (.conclude s.overlap.calls.length)]) u (.ok false)
  | commit {meanwhile : List Deed} {s t u v x : Rounds} {turns later : List Turn}
      {records : List FileRecord} (hgathers : Gathers meanwhile s turns t (.ok records))
      (hconclude : t.step? (.index (.conclude s.overlap.calls.length)) = some u)
      (hcopy : u.step? (.copy t.rounds.length) = some v)
      (hround : Completes t.rounds.length v later x) :
      Refreshes meanwhile s
        (turns ++ .index (.conclude s.overlap.calls.length) :: .copy t.rounds.length :: later) x
        (.ok true)

/-- A deed is done. -/
inductive Does : (deed : Deed) → (s : Rounds) → (turns : List Turn) → (t : Rounds) → Prop where
  /-- Some requests need not lead to a refresh. -/
  | idle {request : Request} {w : Workspace} {s : Rounds}
      (hidle : w.leadsToRefresh request = false) : Does (.request request) s [] s
  | request {request : Request} {s t : Rounds} {turns : List Turn} {answer : Except Fault Bool}
      (hrefresh : Refreshes [] s turns t answer) : Does (.request request) s turns t
  | refreshIndex {roots : List Text} {settings : Settings} {s t : Rounds} {turns : List Turn}
      {answer : Except Fault Bool} (hrefresh : Refreshes [] s turns t answer) :
      Does (.refreshIndex roots settings) s turns t
  | refreshAmid {meanwhile : List Deed} {roots : List Text} {settings : Settings} {s t : Rounds}
      {turns : List Turn} {answer : Except Fault Bool}
      (hrefresh : Refreshes meanwhile s turns t answer) :
      Does (.refreshAmid meanwhile roots settings) s turns t
  | raceRefresh {newerRoots : List Text} {newerSettings : Settings} {s t : Rounds}
      {turns : List Turn} {answer : Except Fault Bool}
      (hrefresh : Refreshes [.refreshIndex newerRoots newerSettings] s turns t answer) :
      Does (.raceRefresh newerRoots newerSettings) s turns t
  | watch {change : Watching} {s : Rounds} :
      Does (.watch change) s [.watch change] (s.watch change)
  | change {disk : Disk} {s : Rounds} : Does (.change disk) s [] s

/-- Deeds are done one after the other. -/
inductive Follows : (deeds : List Deed) → (s : Rounds) → (turns : List Turn) → (t : Rounds) →
    Prop where
  | nil {s : Rounds} : Follows [] s [] s
  | cons {deed : Deed} {rest : List Deed} {s t u : Rounds} {turns later : List Turn}
      (hfirst : Does deed s turns t) (hrest : Follows rest t later u) :
      Follows (deed :: rest) s (turns ++ later) u

end

end

end Rounds

end Marginalia
