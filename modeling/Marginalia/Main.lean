/-
Marginalia.Main — the command line.

A run works on a copy of those parts of the file system that it looks at: the
settings, and the trees below the roots. This layer makes the copy and prints
the result; what a run does is `Program.run`.

A link is copied as a link to the place where it leads, together with the file
there; of a directory behind a link only its existence is copied, since no
walk enters it. What cannot be opened is copied as a denied path.
-/
import Marginalia.Disk.Edit
import Marginalia.Program

namespace Marginalia.Copy

/-- The place of a path. -/
def place (path : Text) : IO.FS.DirEntry := ⟨"", String.ofList path⟩

/-- What is at a path, links followed or not. -/
def type? (path : Text) (follow : Bool) : IO (Option IO.FS.FileType) := do
  try
    let at' := (place path).path
    let m ← if follow then at'.metadata else at'.symlinkMetadata
    return some m.type
  catch _ => return none

/-- The copy with access to a path denied. -/
def deny (disk : Disk) (path : Text) : Disk := { disk with denied := path :: disk.denied }

/-- Copies a file. -/
def addFile (disk : Disk) (path : Text) : IO Disk := do
  try
    let bytes ← IO.FS.readBinFile (place path).path
    return disk.write path bytes.toList
  catch _ => return deny (disk.write path []) path

/-- Copies a file, or of a directory that it exists. -/
def addSurface (disk : Disk) (path : Text) : IO Disk := do
  match ← type? path true with
  | none => return disk
  | some .dir => return disk.makeDirectory path
  | some _ => addFile disk path

/-- Copies a link. -/
def addLink (disk : Disk) (path : Text) : IO Disk := do
  let target ←
    try
      let real ← IO.FS.realPath (place path).path
      pure real.toString.toList
    catch _ => pure path
  let disk := disk.put path (.link target)
  if disk.hasPath target then return disk else addSurface disk target

/-- Copies a directory with all that lies in it. -/
partial def addTree (disk : Disk) (path : Text) : IO Disk := do
  let disk := disk.makeDirectory path
  try
    let entries ← (place path).path.readDir
    entries.foldlM
      (fun disk entry => do
        let path := Path.join path entry.fileName.toList
        match ← type? path false with
        | none => return disk
        | some .dir => addTree disk path
        | some .symlink => addLink disk path
        | some _ => addFile disk path)
      disk
  catch _ => return deny disk path

/-- Copies the directory under a root, if there is one. -/
def addRoot (disk : Disk) (path : Text) : IO Disk := do
  match ← type? path true with
  | some .dir => addTree disk path
  | _ => addSurface disk path

/-- Copies the settings file at a path or in the directory there. -/
def addSettings (disk : Disk) (path : Text) : IO Disk := do
  let disk ← addSurface disk path
  (Settings.settingsNames.map (Path.join path)).foldlM addSurface disk

/-- The time in seconds. -/
def now : IO Float := do return (← IO.monoMsNow).toFloat / 1000

/-- Copies roots; how long each took is left as readings of a clock. -/
def addRoots (disk : Disk) (roots : List Text) : IO (Disk × Clock) := do
  let mut disk := disk
  let mut readings := #[]
  for root in roots do
    let start ← now
    disk ← addRoot disk root
    readings := readings ++ #[start, ← now]
  return (disk, ⟨readings.toList⟩)

/-- The locale of the environment. -/
def locale : IO Text := do
  for name in ["LC_ALL", "LC_COLLATE", "LANG"] do
    if let some value ← IO.getEnv name then
      if value ≠ "" then return value.toList
  return []

/-- What surrounds a run with the words of a command line. -/
def surroundings (words : List Text) : IO Surroundings := do
  let cwd := (← IO.currentDir).toString.toList
  let disk := (Disk.makeDirectory {} cwd : Disk)
  let disk := { disk with cwd }
  let disk ←
    match Program.settingsPath disk words with
    | none => pure disk
    | some path => addSettings disk path
  let (disk, clock) ← addRoots disk (Program.rootsOf disk words)
  return ⟨disk, clock, ← locale⟩

end Marginalia.Copy

open Marginalia

def main (arguments : List String) : IO UInt32 := do
  let words := arguments.map String.toList
  let outcome := Program.run (← Copy.surroundings words) words
  for notice in outcome.notices do
    IO.eprintln (String.ofList notice.render)
  match outcome.result with
  | .error fault =>
    IO.eprintln (String.ofList fault.message)
    return 1
  | .ok ending =>
    if let some refusal := ending.refusal then IO.eprintln (String.ofList refusal.message)
    IO.print (String.ofList ending.output)
    return ending.code.toUInt32
