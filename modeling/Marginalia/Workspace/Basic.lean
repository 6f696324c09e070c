/-
Marginalia.Workspace.Basic — a workspace and those who watch it.

A workspace ties roots and settings to an index and its outline. Listeners
watch the index; the outline is one of them, and subscribers watch the outline
in turn. Whoever watches is an observer, known by a name.

What an observer does when it is called is its script, a list of reactions.
Reactions may change who watches, fail, or refresh the workspace. An observer
refreshes in its first call only: that is what bounds how deep refreshes nest.
-/
import Marginalia.Results

namespace Marginalia

/-- A change of who watches. -/
inductive Watching where
  | listen (observer : Text)
  | unlisten (observer : Text)
  | subscribe (observer : Text)
  | unsubscribe (observer : Text)
  /-- Closes the outline. -/
  | close
  deriving Repr, DecidableEq

/-- Something that an observer does when it is called. -/
inductive Reaction where
  /-- Writes down what it sees. -/
  | record
  /-- Fails; what is left of the script is not done. -/
  | fail
  /-- Refreshes the workspace, in the observer's first call only. -/
  | refresh
  /-- Changes who watches. -/
  | watch (change : Watching)
  deriving Repr, DecidableEq

namespace Reaction

abbrev listen (observer : Text) : Reaction := .watch (.listen observer)

abbrev unlisten (observer : Text) : Reaction := .watch (.unlisten observer)

abbrev subscribe (observer : Text) : Reaction := .watch (.subscribe observer)

abbrev unsubscribe (observer : Text) : Reaction := .watch (.unsubscribe observer)

abbrev close : Reaction := .watch .close

end Reaction

/-- What an observer does when it is called: its script, without refreshes if it is among those that
were called before. -/
def reactionsOf (scripts : List (Text × List Reaction)) (called : List Text) (observer : Text) :
    List Reaction :=
  let script := (scripts.lookup observer).getD []
  if called.contains observer then script.filter (· ≠ .refresh) else script

/-- A listener of the index. -/
inductive Listener where
  | outline
  | observer (name : Text)
  deriving Repr, DecidableEq, BEq, ReflBEq, LawfulBEq

/-- Who watches. The outline listens from the start. -/
structure Watchers where
  listeners : List Listener := [.outline]
  subscribers : List Text := []
  deriving Repr, DecidableEq

/-- Who watches after a change. Listeners and subscribers that are added may be there already, and
those that are removed are removed once. The outline, when it is closed, no longer listens and has
no subscribers. -/
def Watchers.after (w : Watchers) : Watching → Watchers
  | .listen observer => { w with listeners := w.listeners ++ [.observer observer] }
  | .unlisten observer => { w with listeners := w.listeners.erase (.observer observer) }
  | .subscribe observer => { w with subscribers := w.subscribers ++ [observer] }
  | .unsubscribe observer => { w with subscribers := w.subscribers.erase observer }
  | .close => ⟨w.listeners.erase .outline, []⟩

/-- What an observer wrote down: its name, and the index as it saw it. -/
structure Event where
  observer : Text
  generation : Nat
  stats : Stats
  deriving Repr, DecidableEq

/-- A workspace. -/
structure Workspace extends Watchers where
  disk : Disk
  roots : List Text := []
  settings : Settings := {}
  limit : Option Int := some defaultLimit
  scanning : Scanning := {}
  index : Index := {}
  scripts : List (Text × List Reaction) := []
  /-- The observers that were called before. -/
  called : List Text := []
  events : List Event := []
  notices : List Notice := []

namespace Workspace

/-- Adds a root in absolute form unless it is there. -/
def withRoot (w : Workspace) (root : Text) : Workspace :=
  let root := w.disk.absolute root
  if w.roots.contains root then w else { w with roots := w.roots ++ [root] }

/-- The workspace with the given roots, each once. -/
def withRoots (w : Workspace) (roots : List Text) : Workspace :=
  roots.foldl withRoot { w with roots := [] }

/-- A workspace with roots and settings; nothing is scanned yet. -/
def make (disk : Disk) (roots : List Text) (settings : Settings) (limit : Option Int)
    (scripts : List (Text × List Reaction)) : Workspace :=
  withRoots { disk, settings, limit, scripts } roots

/-- Adds notices. -/
def report (w : Workspace) (notices : List Notice) : Workspace :=
  { w with notices := w.notices ++ notices }

/-- The numbers of files and comments. -/
def stats (w : Workspace) : Stats := w.index.snapshot.stats

/-- What was found, in one sentence. -/
def summary (w : Workspace) : Text := Marginalia.summary w.stats w.roots

/-- The contents of the index as output. -/
def print (w : Workspace) (asJson : Bool) : Text :=
  w.index.snapshot.print asJson w.disk.cwd w.roots

/-! ## Who watches -/

/-- Changes who watches. -/
def watch (w : Workspace) (change : Watching) : Workspace :=
  { w with toWatchers := w.toWatchers.after change }

abbrev listen (w : Workspace) (observer : Text) : Workspace := w.watch (.listen observer)

abbrev unlisten (w : Workspace) (observer : Text) : Workspace := w.watch (.unlisten observer)

abbrev subscribe (w : Workspace) (observer : Text) : Workspace := w.watch (.subscribe observer)

abbrev unsubscribe (w : Workspace) (observer : Text) : Workspace := w.watch (.unsubscribe observer)

abbrev close (w : Workspace) : Workspace := w.watch .close

/-- Writes down what an observer sees. -/
def record (w : Workspace) (observer : Text) : Workspace :=
  { w with events := w.events ++ [⟨observer, w.index.generation, w.stats⟩] }

end Workspace

end Marginalia
