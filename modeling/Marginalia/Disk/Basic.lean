/-
Marginalia.Disk.Basic — a file system as a value.

A `Node` is a file with its bytes, a symbolic link with its target, or a
directory with its entries; a `Disk` is a root directory together with a
working directory and a list of paths to which access is denied.

* `Disk.find` follows a path name by name. `..` leads to the directory above
  the one that was reached, so a link is left towards where it led. At most
  `maxLinks` links are followed.
* Denied paths exist and may be directories, but files there cannot be opened
  and directories there cannot be listed. A path is denied by its own text, in
  absolute form; what lies in a denied directory is not denied for that.

A name holds at most `maxName` bytes and a whole path fewer than `maxPath`.
-/
import Marginalia.Path
import Marginalia.Text.Utf8
import Marginalia.Text.Quoted

namespace Marginalia

/-- Why the file system refuses an operation. -/
inductive DiskError where
  | noEntry
  | denied
  | notDirectory
  | isDirectory
  | nameTooLong
  | tooManyLinks
  deriving Repr, DecidableEq, BEq

namespace DiskError

/-- The wording of an error. -/
def message : DiskError → Text
  | .noEntry => "No such file or directory".toList
  | .denied => "Permission denied".toList
  | .notDirectory => "Not a directory".toList
  | .isDirectory => "Is a directory".toList
  | .nameTooLong => "File name too long".toList
  | .tooManyLinks => "Too many levels of symbolic links".toList

/-- The number of an error. -/
def code : DiskError → Nat
  | .noEntry => 2
  | .denied => 13
  | .notDirectory => 20
  | .isDirectory => 21
  | .nameTooLong => 36
  | .tooManyLinks => 40

/-- An error with its number and the path it is about. -/
def describe (e : DiskError) (path : Text) : Text :=
  "[Errno ".toList ++ Text.ofNat e.code ++ "] ".toList ++ e.message ++ ": ".toList ++ path.quoted

end DiskError

/-- What a name in a directory stands for. -/
inductive Node where
  | file (content : List UInt8)
  | link (target : Text)
  | directory (entries : List (Text × Node))
  deriving Inhabited

/-- The entries of a directory, by name. -/
abbrev Directory := List (Text × Node)

/-- A file system: its root directory, the working directory, and the denied paths. -/
structure Disk where
  root : Directory := []
  cwd : Text := ['/']
  denied : List Text := []

namespace Disk

/-- The greatest number of links that are followed on one path. -/
def maxLinks : Nat := 40

/-- The greatest number of bytes of a name. -/
def maxName : Nat := 255

/-- The number of bytes that a path does not reach. -/
def maxPath : Nat := 4096

/-- Follows the names `todo` from the directory at the head of `trail`; the directories above it
come after it. -/
def follow (root : Directory) (links : Nat) (trail : List Directory) (todo : List Text) :
    Except DiskError Node :=
  match todo with
  | [] => .ok (.directory (trail.headD []))
  | name :: rest =>
    if name.isEmpty ∨ name = Path.here then follow root links trail rest
    else if name = Path.above then
      follow root links (if trail.length ≤ 1 then trail else trail.tail) rest
    else if Utf8.size name > maxName then .error .nameTooLong
    else
      match (trail.headD []).lookup name with
      | none => .error .noEntry
      | some (.directory entries) => follow root links (entries :: trail) rest
      | some (.file content) => if rest.isEmpty then .ok (.file content) else .error .notDirectory
      | some (.link target) =>
        match links with
        | 0 => .error .tooManyLinks
        | links + 1 =>
          follow root links (if Path.isAbsolute target then [root] else trail)
            (target.splitOn '/' ++ rest)
termination_by (links, todo.length)

/-- What a path stands for when links are followed. -/
def find (disk : Disk) (path : Text) : Except DiskError Node :=
  if path.isEmpty then .error .noEntry
  else if Utf8.size path ≥ maxPath then .error .nameTooLong
  else if path.contains '\x00' then .error .noEntry
  else follow disk.root maxLinks [disk.root] ((Path.join disk.cwd path).splitOn '/')

/-- The absolute form of a path. -/
def absolute (disk : Disk) (path : Text) : Text := Path.absolute disk.cwd path

/-- Whether access to a path is denied. -/
def denies (disk : Disk) (path : Text) : Bool := disk.denied.contains (disk.absolute path)

/-- Whether a path stands for anything. -/
def hasPath (disk : Disk) (path : Text) : Bool := (disk.find path).isOk

/-- The entries of the directory that a path stands for. -/
def directory? (disk : Disk) (path : Text) : Option Directory :=
  match disk.find path with
  | .ok (.directory entries) => some entries
  | _ => none

/-- Whether a path stands for a directory. -/
def isDirectory (disk : Disk) (path : Text) : Bool := (disk.directory? path).isSome

/-- Why the directory under a path cannot be listed, if it cannot. -/
def listError? (disk : Disk) (path : Text) : Option DiskError :=
  if disk.denies path then some .denied
  else
    match disk.find path with
    | .ok _ => none
    | .error e => some e

/-- The bytes of the file that a path stands for. -/
def read (disk : Disk) (path : Text) : Except DiskError (List UInt8) :=
  if disk.denies path then .error .denied
  else do
    match ← disk.find path with
    | .file content => return content
    | _ => throw .isDirectory

end Disk

end Marginalia
