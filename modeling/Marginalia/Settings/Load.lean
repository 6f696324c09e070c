/-
Marginalia.Settings.Load — finding and reading the settings file.

A path that names a directory stands for one of the settings files in it,
the first of `settingsNames` that exists; a directory without one gives the
default settings. A path that names anything else has to exist and is read
itself. Without a path the working directory is looked at.

The file is read as a stream of UTF-8 with any line endings.
-/
import Marginalia.Fault

namespace Marginalia.Settings

/-- The names of settings files, in the order in which they are looked for. -/
def settingsNames : List Text :=
  ["comment-explorer.yaml", "comment-explorer.yml"].map String.toList

/-- The settings file of a directory. -/
def fileIn? (disk : Disk) (directory : Text) : Option Text :=
  (settingsNames.map (Path.join directory)).find? (disk.hasPath ·)

/-- The error of a file whose YAML cannot be used. -/
def yamlError (path : Text) : Yaml.Error → LoadError
  | .malformed => .notYaml path
  | .noSuchCharacter code => .noSuchCharacter code
  | .scalar error => .scalar error

/-- The settings that the text of a file says. -/
def ofText (path text : Text) : Except LoadError Settings :=
  match Yaml.read depth (Utf8.universalNewlines text) with
  | .error e => .error (yamlError path e)
  | .ok value => (ofValue path value).mapError (.settings path)

/-- The settings of a file. -/
def ofFile (disk : Disk) (path : Text) : Except LoadError Settings :=
  match disk.read path with
  | .error e => .error (.disk path e)
  | .ok bytes =>
    match Utf8.decodeStream bytes with
    | .error r => .error (.encoding r)
    | .ok text => ofText path text

/-- Reads the settings of a file, with a notice. -/
def readFile (disk : Disk) (path : Text) : Outcome Settings :=
  ⟨[.readingSettings path], (ofFile disk path).mapError .load⟩

/-- The settings that a path stands for. -/
def load (disk : Disk) (path : Option Text) : Outcome Settings :=
  let candidate :=
    match path with
    | none | some [] => disk.cwd
    | some path => disk.absolute path
  if disk.isDirectory candidate then
    match fileIn? disk candidate with
    | none => ⟨[.noSettingsFile candidate], .ok {}⟩
    | some file => readFile disk file
  else if disk.hasPath candidate then readFile disk candidate
  else .failed (.load (.missing candidate))

end Marginalia.Settings
