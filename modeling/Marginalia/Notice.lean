/-
Marginalia.Notice — what the program reports on the way.

Operations return their notices as data, in the order in which they arise, so
what was reported is part of a result. A notice knows its level and the part
of the program it comes from; `Notice.render` writes it as a line of the log.
-/
import Marginalia.Disk.Basic

namespace Marginalia

/-- The weight of a notice. -/
inductive Level where
  | debug
  | info
  | warning
  | error
  | critical
  deriving Repr, DecidableEq, BEq

namespace Level

/-- The name of a level. -/
def name : Level → Text
  | .debug => "DEBUG".toList
  | .info => "INFO".toList
  | .warning => "WARNING".toList
  | .error => "ERROR".toList
  | .critical => "CRITICAL".toList

/-- The rank of a level; what weighs more ranks higher. -/
def rank : Level → Nat
  | .debug => 10
  | .info => 20
  | .warning => 30
  | .error => 40
  | .critical => 50

end Level

/-- Why a file cannot be read as text. -/
inductive ReadError where
  | disk (error : DiskError)
  | encoding (refusal : Utf8.Refusal)
  deriving Repr, DecidableEq

/-- The wording of a read error. -/
def ReadError.message : ReadError → Text
  | .disk error => error.message
  | .encoding refusal =>
    "not valid UTF-8 (".toList ++ refusal.reason.message ++ " at byte ".toList
      ++ Text.ofNat refusal.offset ++ ")".toList

/-- A report. -/
inductive Notice where
  /-- A directory holds no settings file. -/
  | noSettingsFile (directory : Text)
  /-- A settings file is about to be read. -/
  | readingSettings (path : Text)
  /-- The settings cannot be used. -/
  | invalidSettings (reason : Text)
  /-- The locale of the environment is unknown. -/
  | unknownLocale
  /-- A root is not a directory. -/
  | notDirectory (root : Text)
  /-- A directory cannot be listed. -/
  | cannotList (path : Text) (error : DiskError)
  /-- A directory is left out with everything in it. -/
  | pruned (path : Text)
  /-- More files than the limit are eligible under a root. -/
  | limitReached (limit : Int) (root : Text)
  /-- So many files were found under a root. -/
  | candidates (count : Nat) (root : Text)
  /-- A file is left out because it cannot be read. -/
  | skipped (path : Text) (error : ReadError)
  /-- There is nothing to scan. -/
  | noRoots
  /-- A refresh was overtaken by one that started later. -/
  | superseded (number newest : Nat)
  /-- A refresh has taken effect. -/
  | indexed (comments files number : Nat)
  /-- A listener of the index failed. -/
  | listenerFailed (observer : Text)
  /-- A subscriber of the outline failed. -/
  | subscriberFailed (observer : Text)
  /-- A refresh of a number of roots begins. -/
  | refreshing (roots : Nat)
  /-- The settings are the ones already in force. -/
  | unchanged
  deriving Repr, DecidableEq

namespace Notice

/-- The weight of a notice. -/
def level : Notice → Level
  | .noSettingsFile _ | .pruned _ | .unchanged => .debug
  | .readingSettings _ | .limitReached .. | .candidates .. | .noRoots | .superseded ..
  | .indexed .. | .refreshing _ => .info
  | .unknownLocale | .notDirectory _ | .cannotList .. | .skipped .. => .warning
  | .invalidSettings _ | .listenerFailed _ | .subscriberFailed _ => .error

/-- The name under which the log shows where a notice comes from. -/
def source : Notice → Text
  | .invalidSettings _ | .unknownLocale => "comment_explorer".toList
  | .noSettingsFile _ | .readingSettings _ => "comment_explorer.config".toList
  | .notDirectory _ | .cannotList .. | .pruned _ | .limitReached .. =>
    "comment_explorer.files".toList
  | .candidates .. | .skipped .. | .noRoots | .superseded .. | .indexed .. | .listenerFailed _ =>
    "comment_explorer.index".toList
  | .subscriberFailed _ => "comment_explorer.tree".toList
  | .refreshing _ | .unchanged => "comment_explorer.explorer".toList

/-- How an observer is shown. -/
def showObserver (observer : Text) : Text := "<callback ".toList ++ observer ++ ">".toList

/-- The wording of a notice. -/
def message : Notice → Text
  | .noSettingsFile directory =>
    "No config file in ".toList ++ directory ++ ", using defaults".toList
  | .readingSettings path => "Loading config from ".toList ++ path
  | .invalidSettings reason => "Invalid configuration: ".toList ++ reason
  | .unknownLocale =>
    ("Cannot apply the environment collation locale (unsupported locale setting), "
      ++ "sorting paths by code point").toList
  | .notDirectory root =>
    "Workspace root ".toList ++ root ++ " is not an accessible directory".toList
  | .cannotList path error => "Cannot list ".toList ++ path ++ ": ".toList ++ error.describe path
  | .pruned path => "Pruning excluded directory ".toList ++ path
  | .limitReached limit root =>
    "File limit of ".toList ++ Text.ofInt limit ++ " reached under ".toList ++ root
      ++ ", remaining files are not scanned".toList
  | .candidates count root =>
    "Found ".toList ++ Text.ofNat count ++ " candidate files under ".toList ++ root
  | .skipped path error => "Skipping ".toList ++ path ++ ": ".toList ++ error.message
  | .noRoots => "No workspace roots configured, index is empty".toList
  | .superseded number newest =>
    "Refresh ".toList ++ Text.ofNat number ++ " superseded by refresh ".toList
      ++ Text.ofNat newest ++ ", discarding result".toList
  | .indexed comments files number =>
    "Indexed ".toList ++ Text.ofNat comments ++ " comments in ".toList ++ Text.ofNat files
      ++ " files (refresh ".toList ++ Text.ofNat number ++ ")".toList
  | .listenerFailed observer =>
    "Index listener ".toList ++ showObserver observer ++ " failed".toList
  | .subscriberFailed observer =>
    "Tree change callback ".toList ++ showObserver observer ++ " failed".toList
  | .refreshing roots =>
    "Refreshing comments for ".toList ++ Text.ofNat roots ++ " workspace root(s)".toList
  | .unchanged => "Configuration unchanged, not refreshing".toList

/-- Whether a notice is at or above a rank. -/
def isShownAt (rank : Nat) (n : Notice) : Bool := rank ≤ n.level.rank

/-- The line of the log for a notice. -/
def render (n : Notice) : Text :=
  n.level.name ++ ":".toList ++ n.source ++ ":".toList ++ n.message

end Notice

end Marginalia
