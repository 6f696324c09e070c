/-
Marginalia.Walk — the eligible files under a root.

A walk visits real directories only: a link to a directory is neither entered
nor reported. Every other entry that is not a directory when links are
followed — a file, a link to one, a link that leads nowhere — is eligible if
its name passes the extensions and no ignore rule excludes its path. A
directory that a rule excludes is left out with all that lies in it.

The names from the root to a directory are its `trail`. Ignore rules see the
trail as a relative path, with a slash behind it for a directory.

* A directory reports the directories it leaves out, then its eligible files,
  then what lies in its other directories, each in code point order, so the
  order in which entries are stored does not matter.
* `limited` cuts a walk short: after as many files as the limit allows, the
  next eligible file ends the walk with a notice instead.
-/
import Marginalia.Fault
import Marginalia.Ignore.Match

namespace Marginalia

/-- What a walk meets. -/
inductive Visit where
  | note (n : Notice)
  | file (path : Text)
  deriving Repr, DecidableEq

namespace Visit

/-- The files among visits. -/
def files (visits : List Visit) : List Text :=
  visits.filterMap fun v =>
    match v with
    | file path => some path
    | note _ => none

/-- The notices among visits. -/
def notices (visits : List Visit) : List Notice :=
  visits.filterMap fun v =>
    match v with
    | note n => some n
    | file _ => none

end Visit

/-- What a walk needs to know: the file system, the root in absolute form, the ignore rules and the
extensions. -/
structure Scope where
  disk : Disk
  root : Text
  rules : List Ignore.Rule
  extensions : List Text

namespace Scope

/-- What the walk of a root needs to know. -/
def under (disk : Disk) (settings : Settings) (rules : List Ignore.Rule) (root : Text) : Scope :=
  ⟨disk, disk.absolute root, rules, settings.extensions⟩

/-- The path of a trail. -/
def pathOf (s : Scope) (trail : List Text) : Text := trail.foldl Path.join s.root

/-- Whether an entry is a directory when links are followed. -/
def isDirectory (s : Scope) (trail : List Text) : Node → Bool
  | .directory _ => true
  | .link _ => s.disk.isDirectory (s.pathOf trail)
  | .file _ => false

/-- Whether a rule excludes a directory. -/
def prunes (s : Scope) (trail : List Text) : Bool :=
  Ignore.excludes s.rules (Path.ofSegments trail ++ ['/'])

/-- Whether a file's name and path pass. -/
def admits (s : Scope) (trail : List Text) (name : Text) : Bool :=
  Settings.acceptsName s.extensions name && !Ignore.excludes s.rules (Path.ofSegments trail)

/-- Values by name, in code point order of the names. -/
def inOrder {α : Type} (entries : List (Text × α)) : List (Text × α) :=
  entries.mergeSort fun a b => codePointLe a.1 b.1

/-- The notices of the directories that a directory leaves out. -/
def prunedIn (s : Scope) (trail : List Text) (entries : Directory) : List Visit :=
  let left := entries.filter fun e =>
    s.isDirectory (trail ++ [e.1]) e.2 && s.prunes (trail ++ [e.1])
  (inOrder left).map fun e => .note (.pruned (s.pathOf (trail ++ [e.1])))

/-- The eligible files of a directory. -/
def filesIn (s : Scope) (trail : List Text) (entries : Directory) : List Visit :=
  let eligible := entries.filter fun e =>
    !s.isDirectory (trail ++ [e.1]) e.2 && s.admits (trail ++ [e.1]) e.1
  (inOrder eligible).map fun e => .file (s.pathOf (trail ++ [e.1]))

mutual

/-- What a walk meets at a node: nothing unless it is a real directory. -/
def visits (s : Scope) (trail : List Text) : Node → List Visit
  | .directory entries =>
    let path := s.pathOf trail
    match s.disk.listError? path with
    | some e => [.note (.cannotList path e)]
    | none =>
      s.prunedIn trail entries ++ s.filesIn trail entries
        ++ (inOrder (s.below trail entries)).flatMap (·.2)
  | _ => []

/-- What a walk meets below each entry that it enters. -/
def below (s : Scope) (trail : List Text) : List (Text × Node) → List (Text × List Visit)
  | [] => []
  | (name, node) :: rest =>
    if s.prunes (trail ++ [name]) then s.below trail rest
    else (name, s.visits (trail ++ [name]) node) :: s.below trail rest

end

end Scope

/-- Visits up to a number of files; a further file becomes a notice and ends them. -/
def Visit.upTo (limit : Int) (root : Text) (allowed : Nat) : List Visit → List Visit
  | [] => []
  | .note n :: rest => .note n :: Visit.upTo limit root allowed rest
  | .file path :: rest =>
    match allowed with
    | 0 => [.note (.limitReached limit root)]
    | allowed + 1 => .file path :: Visit.upTo limit root allowed rest

/-- Visits within a limit, if there is one. -/
def Visit.limited (limit : Option Int) (root : Text) (visits : List Visit) : List Visit :=
  match limit with
  | none => visits
  | some n => Visit.upTo n root n.toNat visits

/-- The walk of a root. -/
def walk (disk : Disk) (settings : Settings) (limit : Option Int) (root : Text) :
    Except Ignore.PatternError (List Visit) :=
  match disk.directory? (disk.absolute root) with
  | none => .ok [.note (.notDirectory (disk.absolute root))]
  | some entries => do
    let rules ← settings.excludeRules
    let scope := Scope.under disk settings rules root
    return Visit.limited limit scope.root (scope.visits [] (.directory entries))

/-- The eligible files of a root, with the notices of its walk. -/
def enumerate (disk : Disk) (settings : Settings) (limit : Option Int) (root : Text) :
    Outcome (List Text) :=
  match walk disk settings limit root with
  | .error e => .failed (.pattern e)
  | .ok visits => ⟨Visit.notices visits, .ok (Visit.files visits)⟩

/-- The number of files that are scanned under a root unless a limit is given. -/
def defaultLimit : Int := 10000

end Marginalia
