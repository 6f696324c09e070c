/-
Marginalia.LeakReport — whether directories that are usually left out get
scanned.

A file leaks if a directory on its way from the root has one of four names:
`node_modules`, `dist`, `build` or `.git`. The report counts the eligible
files and the leaks by name, and says how long the enumeration took.

Times are readings of a clock in seconds; the difference is shown in whole
milliseconds, cut towards zero.
-/
import Marginalia.Walk

namespace Marginalia

/-- What an enumeration found. The counts are integers, so that a report can hold any numbers. -/
structure LeakReport where
  totalFiles : Int
  elapsedMs : Int
  nodeModules : Int
  dist : Int
  build : Int
  git : Int
  deriving Repr, DecidableEq

namespace LeakReport

/-- Whether nothing leaks. -/
def ok (r : LeakReport) : Bool :=
  r.nodeModules = 0 && r.dist = 0 && r.build = 0 && r.git = 0

/-- The lines of a report. -/
def lines (r : LeakReport) : List Text :=
  let line := fun (title : String) (n : Int) (unit : String) =>
    "- ".toList ++ title.toList ++ ": ".toList ++ Text.ofInt n ++ unit.toList
  ["Test Results:".toList,
    line "Total files found" r.totalFiles "",
    line "Time" r.elapsedMs "ms",
    line "node_modules files" r.nodeModules "",
    line "dist files" r.dist "",
    line "build files" r.build "",
    line ".git files" r.git "",
    [],
    if r.ok then "Exclusions working correctly!".toList
    else "Some exclusions not working".toList]

/-- A report as text. -/
def format (r : LeakReport) : Text := Text.join ['\n'] r.lines

/-- Whether a directory of a given name lies between a root and a file. -/
def passesThrough (root name path : Text) : Bool :=
  ((Path.relativeTo root path).splitOn '/').dropLast.contains name

/-- The number of files below directories of a given name. -/
def countBelow (root name : Text) (files : List Text) : Nat :=
  files.countP (passesThrough root name)

/-- The report for the files found under a root in absolute form. -/
def ofFiles (root : Text) (elapsedMs : Int) (files : List Text) : LeakReport :=
  { totalFiles := files.length
    elapsedMs
    nodeModules := countBelow root "node_modules".toList files
    dist := countBelow root "dist".toList files
    build := countBelow root "build".toList files
    git := countBelow root ".git".toList files }

end LeakReport

/-! ## Time -/

/-- A finite number without its fraction: the bits of a number give its sign, an exponent and a
significand, and the significand is shifted by the exponent. -/
def truncate (x : Float) : Int :=
  let bits := x.toBits.toNat
  let exponent := bits >>> 52 % 0x800
  let significand := 0x10000000000000 + bits % 0x10000000000000
  let magnitude : Nat :=
    if exponent = 0 then 0
    else if exponent ≥ 1075 then significand <<< (exponent - 1075)
    else significand >>> (1075 - exponent)
  if bits >>> 63 = 1 then -(magnitude : Int) else magnitude

/-- The whole milliseconds between two readings in seconds. -/
def elapsedMillis (start stop : Float) : Int := truncate ((stop - start) * 1000)

/-- A clock as the list of its future readings, of which the last one repeats. -/
structure Clock where
  readings : List Float := [0]

namespace Clock

/-- The next reading, and the clock after it. -/
def next (c : Clock) : Float × Clock :=
  match c.readings with
  | [] => (0, c)
  | [t] => (t, c)
  | t :: rest => (t, ⟨rest⟩)

end Clock

/-- The report of a root, and the clock after two readings, one before and one after the
enumeration. -/
def checkLeaks (disk : Disk) (settings : Settings) (limit : Option Int) (clock : Clock)
    (root : Text) : Outcome (LeakReport × Clock) :=
  let root := disk.absolute root
  let (start, clock) := clock.next
  (enumerate disk settings limit root).andThen fun files =>
    let (stop, clock) := clock.next
    .done (LeakReport.ofFiles root (elapsedMillis start stop) files, clock)

/-- The reports of several roots as text, each below its root; whether nothing leaks; and the clock
afterwards. -/
def leakReports (disk : Disk) (settings : Settings) (limit : Option Int) :
    Clock → List Text → Outcome (Bool × Text × Clock)
  | clock, [] => .done (true, [], clock)
  | clock, root :: rest =>
    (checkLeaks disk settings limit clock root).andThen fun (report, clock) =>
      (leakReports disk settings limit clock rest).andThen fun (ok, text, clock) =>
        .done (report.ok && ok,
          root ++ ":\n".toList ++ report.format ++ "\n".toList ++ text, clock)

end Marginalia
