/-
Marginalia.Options.Basic — what a command line can say.

* `OptionName` lists the options; `spellings` holds their spellings in the order
  in which messages name them.
* `Options` holds what a command line says.
* `UsageError` lists what can be wrong with a command line.
-/
import Marginalia.Notice
import Marginalia.Text.Quoted
import Marginalia.Walk

namespace Marginalia

/-- From which weight on notices are shown. -/
inductive Threshold where
  | all
  | level (l : Level)
  deriving Repr, DecidableEq

namespace Threshold

/-- The thresholds, in the order in which messages name them. -/
def choices : List Threshold :=
  [.level .critical, .level .error, .level .warning, .level .info, .level .debug, .all]

/-- The name of a threshold. -/
def name : Threshold → Text
  | all => "NOTSET".toList
  | level l => l.name

/-- The threshold of a name. -/
def ofName? (t : Text) : Option Threshold := choices.find? (·.name = t)

/-- The rank from which notices are shown. -/
def rank : Threshold → Nat
  | all => 0
  | level l => l.rank

end Threshold

/-- An option of the command line. -/
inductive OptionName where
  | help
  | config
  | ext
  | exclude
  | json
  | checkExclusions
  | workers
  | maxFiles
  | verbose
  | logLevel
  deriving Repr, DecidableEq

/-- How many values an option takes. -/
inductive Arity where
  | none
  | one
  | many
  deriving Repr, DecidableEq

namespace OptionName

/-- The spellings of all options. -/
def spellings : List (Text × OptionName) :=
  [("-h".toList, help), ("--help".toList, help), ("--config".toList, config),
    ("-c".toList, config), ("--ext".toList, ext), ("--exclude".toList, exclude),
    ("--json".toList, json), ("--check-exclusions".toList, checkExclusions),
    ("--workers".toList, workers), ("--max-files".toList, maxFiles), ("-v".toList, verbose),
    ("--verbose".toList, verbose), ("--log-level".toList, logLevel)]

/-- The option that is spelled so in full. -/
def ofSpelling? (t : Text) : Option OptionName := spellings.lookup t

/-- All spellings of an option, as messages show it. -/
def title (o : OptionName) : Text :=
  Text.join ['/'] ((spellings.filter (·.2 = o)).map (·.1))

/-- How many values an option takes. -/
def arity : OptionName → Arity
  | help | json | checkExclusions | verbose => .none
  | config | workers | maxFiles | logLevel => .one
  | ext | exclude => .many

end OptionName

/-- What a command line says. -/
structure Options where
  roots : List Text := []
  config : Text := ['.']
  ext : Option (List Text) := none
  exclude : Option (List Text) := none
  json : Bool := false
  checkExclusions : Bool := false
  workers : Int := 4
  maxFiles : Int := defaultLimit
  verbose : Bool := false
  logLevel : Option Threshold := none
  deriving Repr, DecidableEq

namespace Options

/-- What is shown to whoever asks for help. -/
def help : Text :=
  ("usage: main.py [options] [roots ...]\n\n"
    ++ "List //, #, /* */ and <!-- --> comments found under workspace roots.\n\noptions:\n").toList
    ++ OptionName.spellings.flatMap fun s => "  ".toList ++ s.1 ++ ['\n']

/-- From which weight on notices are shown: an explicit level wins over `verbose`. -/
def threshold (o : Options) : Threshold :=
  o.logLevel.getD (if o.verbose then .level .debug else .level .warning)

end Options

/-- What is wrong with a command line. -/
inductive UsageError where
  /-- A word begins the spellings of several options. -/
  | ambiguous (word : Text) (candidates : List Text)
  /-- An option that takes one value has none. -/
  | noValue (option : OptionName)
  /-- An option that takes no value has one. -/
  | extraValue (option : OptionName) (value : Text)
  /-- A value is not a whole number. -/
  | notNumber (option : OptionName) (value : Text)
  /-- A value is not among those that the option allows. -/
  | notChoice (option : OptionName) (value : Text)
  /-- Words that belong to nothing. -/
  | unrecognised (words : List Text)
  deriving Repr, DecidableEq

namespace UsageError

/-- The wording of an error about an option. -/
def about (o : OptionName) (what : Text) : Text :=
  "argument ".toList ++ o.title ++ ": ".toList ++ what

/-- What is wrong, in words. -/
def reason : UsageError → Text
  | .ambiguous word candidates =>
    "ambiguous option: ".toList ++ word ++ " could match ".toList
      ++ Text.join ", ".toList candidates
  | .noValue o => about o "expected one argument".toList
  | .extraValue o value => about o ("ignored explicit argument ".toList ++ value.quoted)
  | .notNumber o value => about o ("invalid int value: ".toList ++ value.quoted)
  | .notChoice o value =>
    about o
      ("invalid choice: ".toList ++ value.quoted ++ " (choose from ".toList
        ++ Text.join ", ".toList (Threshold.choices.map (·.name.quoted)) ++ ")".toList)
  | .unrecognised words => "unrecognized arguments: ".toList ++ Text.join [' '] words

/-- The message to the user. -/
def message (e : UsageError) : Text := "main.py: error: ".toList ++ e.reason

end UsageError

end Marginalia
