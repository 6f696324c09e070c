/-
Marginalia.Workspace.Rounds — rounds of calls that overlap.

A refresh that takes effect owes the observers a round of calls. The commit
and the round are separate: other refreshes may start and end in between, and
between any two calls of a round. An observer that is called may do anything a
workspace allows, and what it does happens before the round goes on, among
other things that happen elsewhere. Here all of that is one schedule of
undivided steps, so nested refreshes, refreshes side by side and observers of
any kind are the same thing: turns that come between the turns of a round.

* `Rounds` is an index with the refreshes started on it (`Overlap`), those who
  watch, the rounds that are owed or under way, and a log of what could be
  noticed.
* A round copies the listeners of one moment (`Turn.copy`), and calls one
  after the other (`Turn.call`). When the outline is called, the subscribers of
  that moment are next, before the listeners that are left.
* A call that fails leaves a trace in the log and nothing else (`Turn.fail`).
* A turn that the state does not allow is none: `Rounds.run?` has no result for
  a schedule with such a turn.
-/
import Marginalia.Index.Overlap
import Marginalia.Workspace.Basic

namespace Marginalia

/-- Who can be called: a listener of the index, or a subscriber of the outline. -/
inductive Callee where
  | listener (listener : Listener)
  | subscriber (observer : Text)
  deriving Repr, DecidableEq

/-- The observer who is called; the outline is none. -/
def Callee.observer? : Callee → Option Text
  | .listener .outline => none
  | .listener (.observer name) => some name
  | .subscriber name => some name

/-- The round of a refresh that took effect: the place of the refresh among those that were started,
and who is still to be called, once the listeners are copied. -/
structure Round where
  call : Nat
  queue : Option (List Callee) := none
  deriving Repr, DecidableEq

/-- What is noticed in the course of time. A round is named by its place. -/
inductive Happening where
  /-- A refresh took effect and owes a round. -/
  | committed (round : Nat)
  /-- Somebody was called, and could see an index. -/
  | called (round : Nat) (callee : Callee) (seen : Index)
  /-- A call failed. -/
  | failed (round : Nat)
  deriving Repr, DecidableEq

/-- The round that something belongs to. -/
def Happening.round : Happening → Nat
  | .committed round | .called round _ _ | .failed round => round

/-- Whom it shows to be called by a round. -/
def Happening.callIn (round : Nat) : Happening → Option Callee
  | .called r callee _ => if r = round then some callee else none
  | _ => none

/-- What it shows somebody to see. -/
def Happening.seenBy (callee : Callee) : Happening → Option Index
  | .called _ c seen => if c = callee then some seen else none
  | _ => none

/-- The observer whom it shows to be called. -/
def Happening.observer? : Happening → Option Text
  | .called _ callee _ => callee.observer?
  | _ => none

/-- What happens next. -/
inductive Turn where
  /-- A refresh makes its next move on the index. -/
  | index (move : Move)
  /-- A round begins: the listeners are copied. -/
  | copy (round : Nat)
  /-- A round calls whose turn it is. -/
  | call (round : Nat)
  /-- A call of a round fails. -/
  | fail (round : Nat)
  /-- Somebody changes who watches. -/
  | watch (change : Watching)

/-- The move that a turn makes on the index. -/
def Turn.move? : Turn → Option Move
  | .index move => some move
  | _ => none

/-- The refresh that a move has let take effect. -/
def Overlap.committedBy (s : Overlap) : Move → Option Nat
  | .conclude call =>
    match s.calls[call]? with
    | some ⟨_, .returned _ true⟩ => some call
    | _ => none
  | _ => none

/-- An index with its refreshes, those who watch, the rounds, and what was noticed. -/
structure Rounds extends Watchers where
  overlap : Overlap := {}
  rounds : List Round := []
  log : List Happening := []
  deriving Repr, DecidableEq

namespace Rounds

/-- What is there before the first refresh. -/
def opening (listeners : List Listener) (subscribers : List Text) : Rounds :=
  { listeners, subscribers }

/-- Who has to be called on account of a call. -/
def following (s : Rounds) : Callee → List Callee
  | .listener .outline => s.subscribers.map .subscriber
  | _ => []

/-- The index after a move, which may have let a refresh take effect. -/
def moved (s : Rounds) (move : Move) (overlap : Overlap) : Rounds :=
  match overlap.committedBy move with
  | none => { s with overlap }
  | some call =>
    { s with
      overlap
      rounds := s.rounds ++ [⟨call, none⟩]
      log := s.log ++ [.committed s.rounds.length] }

/-- A round has the callees that are left. -/
def left (s : Rounds) (round call : Nat) (queue : List Callee) : Rounds :=
  { s with rounds := s.rounds.set round ⟨call, some queue⟩ }

/-- Who watches was changed. -/
def watch (s : Rounds) (change : Watching) : Rounds :=
  { s with toWatchers := s.toWatchers.after change }

/-- Something was noticed. -/
def noticed (s : Rounds) (happening : Happening) : Rounds :=
  { s with log := s.log ++ [happening] }

/-- What is there after a turn. -/
def step? (s : Rounds) : Turn → Option Rounds
  | .index move => (s.overlap.step? move).map (s.moved move)
  | .copy round =>
    match s.rounds[round]? with
    | some ⟨call, none⟩ => some (s.left round call (s.listeners.map .listener))
    | _ => none
  | .call round =>
    match s.rounds[round]? with
    | some ⟨call, some (callee :: rest)⟩ =>
      some ((s.left round call (s.following callee ++ rest)).noticed
        (.called round callee s.overlap.index))
    | _ => none
  | .fail round =>
    match s.rounds[round]? with
    | some ⟨_, some _⟩ => some (s.noticed (.failed round))
    | _ => none
  | .watch change => some (s.watch change)

/-- What is there after a schedule. -/
def run? (s : Rounds) : List Turn → Option Rounds
  | [] => some s
  | turn :: rest => (s.step? turn).bind (run? · rest)

/-- The states along a schedule, as far as its turns are possible. -/
def trail (s : Rounds) : List Turn → List Rounds
  | [] => [s]
  | turn :: rest => s :: ((s.step? turn).map (trail · rest)).getD []

/-! ## What was noticed -/

/-- Whom a round has called, in order. -/
def callsOf (s : Rounds) (round : Nat) : List Callee := s.log.filterMap (·.callIn round)

/-- Listeners, and after the outline its subscribers. -/
def inTurn (listeners : List Listener) (subscribers : List Text) : List Callee :=
  listeners.flatMap fun
    | .outline => .listener .outline :: subscribers.map .subscriber
    | .observer name => [.listener (.observer name)]

/-- The index that somebody could see in the last call. -/
def lastSeen (s : Rounds) (callee : Callee) : Option Index :=
  (s.log.filterMap (·.seenBy callee)).getLast?

/-- The observers that were called, in order. -/
def observersCalled (s : Rounds) : List Text := s.log.filterMap (·.observer?)

/-- Whose turn it is in a round that has begun and is not over. -/
def next? (s : Rounds) (round : Nat) : Option Callee :=
  s.rounds[round]?.bind fun r => r.queue.bind (·.head?)

/-- Whether all refreshes have ended, and all rounds are over. -/
structure Finished (s : Rounds) : Prop where
  calls : ∀ c ∈ s.overlap.calls, c.stage.hasEnded = true
  rounds : ∀ r ∈ s.rounds, r.queue = some []

/-! ## Small facts -/

theorem run?_cons (s : Rounds) (turn : Turn) (rest : List Turn) :
    s.run? (turn :: rest) = (s.step? turn).bind (run? · rest) := rfl

theorem run?_append (s : Rounds) (first second : List Turn) :
    s.run? (first ++ second) = (s.run? first).bind (run? · second) := by
  induction first generalizing s with
  | nil => rfl
  | cons turn rest ih =>
    rw [List.cons_append, run?_cons, run?_cons, Option.bind_assoc]
    congr 1
    funext t
    exact ih t

end Rounds

end Marginalia
