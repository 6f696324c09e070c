/-
Marginalia.Disk.Edit — changes to a file system.

`Disk.put` stores a node under a path and makes the directories above it;
`Disk.remove` takes a file or a link away and leaves directories alone. Links
in the directories above are followed; the last name of the path is not. Only
`Disk.write` follows that too, so that a file is written where its link leads.
-/
import Marginalia.Disk.Basic

namespace Marginalia.Disk

/-- The entries with a node stored under a name. -/
def setEntry (name : Text) (node : Node) : Directory → Directory
  | [] => [(name, node)]
  | entry :: rest =>
    if entry.1 = name then (name, node) :: rest else entry :: setEntry name node rest

/-- The entries with a node stored under a path; what is not a directory on the way becomes one. -/
def insertAt (node : Node) (entries : Directory) : List Text → Directory
  | [] => entries
  | [name] => setEntry name node entries
  | name :: rest =>
    match entries.lookup name with
    | some (.directory below) => setEntry name (.directory (insertAt node below rest)) entries
    | _ => setEntry name (.directory (insertAt node [] rest)) entries

/-- The node under a path without following links. -/
def nodeAt? (entries : Directory) : List Text → Option Node
  | [] => none
  | [name] => entries.lookup name
  | name :: rest =>
    match entries.lookup name with
    | some (.directory below) => nodeAt? below rest
    | _ => none

/-- The entries without what a path names. -/
def eraseAt (entries : Directory) : List Text → Directory
  | [] => entries
  | [name] => entries.filter (·.1 ≠ name)
  | name :: rest =>
    match entries.lookup name with
    | some (.directory below) => setEntry name (.directory (eraseAt below rest)) entries
    | _ => entries

/-- The names that lead to where a list of names leads when links are followed. -/
def realNames (root : Directory) (links : Nat) (done todo : List Text) : List Text :=
  match todo with
  | [] => done
  | name :: rest =>
    if name = Path.here then realNames root links done rest
    else if name = Path.above then realNames root links done.dropLast rest
    else
      match nodeAt? root (done ++ [name]) with
      | some (.link target) =>
        match links with
        | 0 => realNames root 0 (done ++ [name]) rest
        | links + 1 =>
          realNames root links (if Path.isAbsolute target then [] else done)
            (Path.segments target ++ rest)
      | _ => realNames root links (done ++ [name]) rest
termination_by (links, todo.length)

/-- The names of a path, the directories above its last one reached through links. -/
def placeOf (disk : Disk) (path : Text) : List Text :=
  let names := Path.segments (disk.absolute path)
  realNames disk.root maxLinks [] names.dropLast ++ names.getLast?.toList

/-- The file system with a node stored under a path. -/
def put (disk : Disk) (path : Text) (node : Node) : Disk :=
  { disk with root := insertAt node disk.root (disk.placeOf path) }

/-- The file system with a directory under a path; one that is there is kept. -/
def makeDirectory (disk : Disk) (path : Text) : Disk :=
  if disk.isDirectory path then disk else disk.put path (.directory [])

/-- The file system with bytes written to the file under a path. -/
def write (disk : Disk) (path : Text) (content : List UInt8) : Disk :=
  let place := realNames disk.root maxLinks [] (Path.segments (disk.absolute path))
  { disk with root := insertAt (.file content) disk.root place }

/-- The file system without the file or link that a path names; a directory is refused. -/
def remove (disk : Disk) (path : Text) : Except DiskError Disk :=
  let place := disk.placeOf path
  match nodeAt? disk.root place with
  | none => .error .noEntry
  | some (.directory _) => .error .isDirectory
  | some _ => .ok { disk with root := eraseAt disk.root place }

end Marginalia.Disk
