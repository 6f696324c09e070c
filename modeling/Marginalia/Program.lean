/-
Marginalia.Program — a run of the program from its command line.

`Program.run` reads the options and then does what they ask for: it scans the
roots and prints what it finds, or it reports on leaks. Its surroundings — the
file system, the clock, the locale — are given as values, so a run is a
function of them.

A run ends with code 0; with 1 if the settings are invalid; with 2 if the
command line is wrong. Other faults, an unusable ignore pattern for one, end it
without a code.
-/
import Marginalia.LeakReport
import Marginalia.Options.Read
import Marginalia.Settings.Load
import Marginalia.Workspace.Refresh

namespace Marginalia

/-- What surrounds a run. -/
structure Surroundings where
  disk : Disk
  clock : Clock := {}
  /-- The name of the locale by which the environment wants paths ordered. -/
  locale : Text := []

/-- How a run ends. -/
structure Ending where
  code : Nat
  output : Text := []
  refusal : Option UsageError := none
  deriving Repr, DecidableEq

/-- The notices from a rank on. -/
def Outcome.shownAt {α : Type} (rank : Nat) (o : Outcome α) : Outcome α :=
  { o with notices := o.notices.filter (·.isShownAt rank) }

namespace Program

/-- The locales that order paths by code point; the empty name stands for the first. -/
def plainLocales : List Text := ["C.UTF-8", "C.utf8", "C", "POSIX", ""].map String.toList

/-- Says that paths are ordered by code point if the environment wants something else. -/
def checkLocale (locale : Text) : Outcome Unit :=
  .report (if plainLocales.contains locale then [] else [.unknownLocale])

/-- The roots of a run: the given ones in absolute form, else the configured ones, else the working
directory. -/
def resolveRoots (disk : Disk) (given : List Text) (settings : Settings) : List Text :=
  if !given.isEmpty then given.map disk.absolute
  else if !settings.roots.isEmpty then settings.roots
  else [disk.cwd]

/-- The path at which a run looks for settings, in absolute form. -/
def settingsPath (disk : Disk) (words : List Text) : Option Text :=
  match Options.read words with
  | .ok o => some (disk.absolute o.config)
  | .error _ => none

/-- The roots at which a run looks, in absolute form; none if it ends before. -/
def rootsOf (disk : Disk) (words : List Text) : List Text :=
  match Options.read words with
  | .error _ => []
  | .ok o =>
    match (Settings.load disk (some o.config)).result with
    | .error _ => []
    | .ok settings => (resolveRoots disk o.roots settings).map disk.absolute

/-- Scans the roots and prints what is found. -/
def scan (disk : Disk) (o : Options) (settings : Settings) (roots : List Text) : Outcome Ending :=
  let w := Workspace.make disk roots settings (some o.maxFiles) []
  let (w, result) := { w with scanning := { workers := o.workers } }.refresh
  ⟨w.notices, result.map fun _ => { code := 0, output := w.print o.json }⟩

/-- Reports on leaks under the roots. -/
def checkExclusions (s : Surroundings) (o : Options) (settings : Settings) (roots : List Text) :
    Outcome Ending :=
  (leakReports s.disk settings (some o.maxFiles) s.clock roots).andThen fun (_, text, _) =>
    .done { code := 0, output := text }

/-- Does what the options ask for under settings. -/
def proceed (s : Surroundings) (o : Options) (settings : Settings) : Outcome Ending :=
  let settings := settings.withOverrides { fileExtensions := o.ext, exclude := o.exclude }
  let roots := resolveRoots s.disk o.roots settings
  if o.checkExclusions then checkExclusions s o settings roots
  else scan s.disk o settings roots

/-- Loads the settings and goes on with them; invalid ones end the run. -/
def perform (s : Surroundings) (o : Options) : Outcome Ending :=
  (checkLocale s.locale).andThen fun _ =>
    let loaded := Settings.load s.disk (some o.config)
    (Outcome.report loaded.notices).andThen fun _ =>
      match loaded.result with
      | .ok settings => proceed s o settings
      | .error (.load e) =>
        if e.isInvalid then ⟨[.invalidSettings e.message], .ok { code := 1 }⟩
        else .failed (.load e)
      | .error fault => .failed fault

/-- A run with the words of a command line. -/
def run (s : Surroundings) (words : List Text) : Outcome Ending :=
  match Options.read words with
  | .error .help => .done { code := 0, output := Options.help }
  | .error (.usage e) => .done { code := 2, refusal := some e }
  | .ok o => (perform s o).shownAt o.threshold.rank

end Program

end Marginalia
