/-
Marginalia.Workspace.Refresh — refreshing a workspace, and telling observers.

A refresh starts, gathers the records of all roots, and commits them unless a
newer refresh has started meanwhile. After a commit one round of calls is made:

* The listeners are those of the moment when the round starts; who is added or
  removed during the round takes effect later. Each is called once for each
  time it is listed.
* When the outline's turn comes, it calls its subscribers in the same way.
* A call that fails is reported, and the round goes on.

Calls may refresh the workspace in turn. How they do is a parameter (`nested`)
of everything that makes calls; `Workspace.refreshWithin` closes the circle by
recursion on how deep refreshes may still nest. Each nested refresh comes from
the first call of another observer with a script, so the number of scripts is
deep enough.

`during` is what happens between the enumeration and the scan of a refresh. It
does nothing, except in `Workspace.raceRefresh`, which lets a second refresh
run there from start to end.
-/
import Marginalia.Workspace.Basic

namespace Marginalia

/-- A change of a workspace that may fault; the workspace goes on either way. -/
abbrev Change (α : Type) := Workspace → Workspace × Except Fault α

namespace Workspace

/-! ## 1. Calls -/

/-- Does one reaction of an observer; the answer is whether it succeeded. -/
def react (nested : Change Bool) (observer : Text) (w : Workspace) : Reaction → Workspace × Bool
  | .record => (w.record observer, true)
  | .fail => (w, false)
  | .refresh =>
    let (w, result) := nested w
    (w, result.isOk)
  | .watch change => (w.watch change, true)

/-- Does reactions one after the other until one fails. -/
def reactAll (nested : Change Bool) (observer : Text) (w : Workspace) :
    List Reaction → Workspace × Bool
  | [] => (w, true)
  | r :: rest =>
    match w.react nested observer r with
    | (w, true) => reactAll nested observer w rest
    | (w, false) => (w, false)

/-- Calls an observer; the answer is whether its script came to its end. -/
def call (nested : Change Bool) (observer : Text) (w : Workspace) : Workspace × Bool :=
  let reactions := reactionsOf w.scripts w.called observer
  reactAll nested observer { w with called := observer :: w.called } reactions

/-- Calls a subscriber and reports if it fails. -/
def callSubscriber (nested : Change Bool) (w : Workspace) (observer : Text) : Workspace :=
  match w.call nested observer with
  | (w, true) => w
  | (w, false) => w.report [.subscriberFailed observer]

/-- Calls the subscribers of the moment. -/
def callSubscribers (nested : Change Bool) (w : Workspace) : Workspace :=
  w.subscribers.foldl (callSubscriber nested) w

/-- Calls a listener and reports if it fails; the outline does not fail. -/
def callListener (nested : Change Bool) (w : Workspace) : Listener → Workspace
  | .outline => w.callSubscribers nested
  | .observer name =>
    match w.call nested name with
    | (w, true) => w
    | (w, false) => w.report [.listenerFailed name]

/-- Calls the listeners of the moment. -/
def notify (nested : Change Bool) (w : Workspace) : Workspace :=
  w.listeners.foldl (callListener nested) w

/-! ## 2. Refreshes -/

/-- Lets nothing happen. -/
def idle : Change Unit := fun w => (w, .ok ())

/-- Takes over the notices of an outcome. -/
def follow {α : Type} (w : Workspace) (o : Outcome α) : Workspace × Except Fault α :=
  (w.report o.notices, o.result)

/-- Starts a refresh; its number is the number of refreshes that have started. -/
def start (w : Workspace) : Workspace := { w with index := w.index.start }

/-- Gathers the records of roots. -/
def gatherRoots (during : Change Unit) (roots : List Text) (settings : Settings) :
    Change (List FileRecord) := fun w =>
  match w.follow (candidates w.disk settings w.limit [] roots) with
  | (w, .error e) => (w, .error e)
  | (w, .ok files) =>
    match during w with
    | (w, .error e) => (w, .error e)
    | (w, .ok ()) => w.follow (gather w.disk w.scanning files)

/-- Puts the records of a refresh in force, unless a newer refresh has started; the answer is
whether it did. -/
def conclude (number : Nat) (records : List FileRecord) : Change Bool := fun w =>
  match w.index.commit? number records with
  | none => (w.report [.superseded number w.index.started], .ok false)
  | some index =>
    let w := { w with index }
    (w.report [.indexed w.stats.comments w.stats.files number], .ok true)

/-- Rebuilds the index for roots and settings, and calls nobody. -/
def rebuild (during : Change Unit) (roots : List Text) (settings : Settings) : Change Bool :=
  fun w =>
    let w := w.start
    let number := w.index.started
    if roots.isEmpty then (w.report [.noRoots]).conclude number []
    else
      match w.gatherRoots during roots settings with
      | (w, .error e) => (w, .error e)
      | (w, .ok records) => w.conclude number records

/-- Refreshes the index for roots and settings; the listeners are called if the result took
effect. -/
def refreshIndex (nested : Change Bool) (during : Change Unit) (roots : List Text)
    (settings : Settings) : Change Bool := fun w =>
  match w.rebuild during roots settings with
  | (w, .ok true) => (w.notify nested, .ok true)
  | (w, .ok false) => (w, .ok false)
  | (w, .error e) => (w, .error e)

/-- Refreshes the workspace, with refreshes nesting at most `depth` deep inside. -/
def refreshWithin : Nat → Change Bool
  | 0 => fun w => (w.report [.refreshing w.roots.length]).refreshIndex (fun w => (w, .ok false))
      idle w.roots w.settings
  | depth + 1 => fun w =>
    (w.report [.refreshing w.roots.length]).refreshIndex (refreshWithin depth) idle w.roots
      w.settings

/-- How observers refresh the workspace. -/
def nestedRefresh : Change Bool := fun w => w.refreshWithin w.scripts.length

/-- Refreshes the workspace; the answer is whether the result took effect. -/
def refresh : Change Bool := fun w =>
  (w.report [.refreshing w.roots.length]).refreshIndex nestedRefresh idle w.roots w.settings

/-- Refreshes the index for other roots and settings than the workspace's. -/
def refreshIndexFor (roots : List Text) (settings : Settings) : Change Bool :=
  refreshIndex nestedRefresh idle roots settings

/-- A refresh of the index that takes place while another one gathers. -/
def newerRefresh (roots : List Text) (settings : Settings) : Change Unit := fun w =>
  match w.refreshIndexFor roots settings with
  | (w, .error e) => (w, .error e)
  | (w, .ok _) => (w, .ok ())

/-- The answers of two refreshes of which the second runs during the first; the second does not
run if the first has nothing to scan. -/
structure Race where
  outer : Bool
  inner : Option Bool
  deriving Repr, DecidableEq

/-- Refreshes the workspace; once its files are enumerated, the index is refreshed for newer roots
and settings. Nothing can start between the scan of that second refresh and its commit, so if it
does not fault it takes effect. -/
def raceRefresh (newerRoots : List Text) (newerSettings : Settings) : Change Race := fun w =>
  let quiet := w.roots.isEmpty
  let (w, outer) :=
    (w.report [.refreshing w.roots.length]).refreshIndex nestedRefresh
      (newerRefresh newerRoots newerSettings) w.roots w.settings
  (w, outer.map fun outer => ⟨outer, if quiet then none else some true⟩)

/-! ## 3. Changes -/

/-- Installs settings and refreshes, unless they are in force already. -/
def updateSettings (settings : Settings) : Change Bool := fun w =>
  if settings = w.settings then (w.report [.unchanged], .ok false)
  else refresh { w with settings }

/-- Adds a root and refreshes, unless it is there already. -/
def addRoot (root : Text) : Change Bool := fun w =>
  if w.roots.contains (w.disk.absolute root) then (w, .ok false) else refresh (w.withRoot root)

/-- Removes a root and refreshes, if it is there. -/
def removeRoot (root : Text) : Change Bool := fun w =>
  let root := w.disk.absolute root
  if w.roots.contains root then refresh { w with roots := w.roots.erase root }
  else (w, .ok false)

/-- Replaces the roots and refreshes. -/
def setRoots (roots : List Text) : Change Bool := fun w => refresh (w.withRoots roots)

end Workspace

end Marginalia
