/-
Marginalia.Settings.Read — settings from a YAML value.

`Settings.ofValue` accepts nothing at all, or a mapping in which `regex` is
absent or a non-empty text and each of `fileExtensions`, `exclude` and `roots`
is absent, null, a text, or a list of texts. A text stands for a list of one.
Texts in lists are trimmed and blank ones dropped. A root that is not absolute
is read from the directory of the settings file.

The fields are checked in that order, and the first that is wrong is reported.
-/
import Marginalia.Settings.Basic
import Marginalia.Path
import Marginalia.Yaml.Value

namespace Marginalia

/-- What is wrong with the value of a settings file. -/
inductive SettingsError where
  /-- It is not a mapping. -/
  | notMapping
  /-- `regex` is not a non-empty text. -/
  | regex
  /-- A field is not a list of texts. -/
  | notTexts (field : Text)
  deriving Repr, DecidableEq

/-- The wording of a settings error for a file. -/
def SettingsError.message (path : Text) : SettingsError → Text
  | .notMapping =>
    "Config ".toList ++ path ++ " must contain a mapping at the top level".toList
  | .regex => "Config 'regex' must be a non-empty string".toList
  | .notTexts field =>
    "Config '".toList ++ field ++ "' must be a list of strings".toList

namespace Settings

/-- The texts of a list, if it holds nothing else. -/
def textsOf : List Yaml.Value → Option (List Text)
  | [] => some []
  | .text t :: rest => (textsOf rest).map (t :: ·)
  | _ => none

/-- Trims texts and drops the blank ones. -/
def cleanTexts (texts : List Text) : List Text :=
  (texts.filter (!·.isBlankText)).map Text.trim

/-- The texts that a field may have; `none` if it has something else. -/
def fieldTexts? : Option Yaml.Value → Option (List Text)
  | none | some .null => some []
  | some (.text t) => some [t]
  | some (.list items) => textsOf items
  | some _ => none

/-- The texts of a field. -/
def textsField (v : Yaml.Value) (field : String) : Except SettingsError (List Text) :=
  match fieldTexts? (v.field? field.toList) with
  | some texts => .ok (cleanTexts texts)
  | none => .error (.notTexts field.toList)

/-- The `regex` of a mapping. -/
def regexField (v : Yaml.Value) : Except SettingsError Text :=
  match v.field? "regex".toList with
  | none => .ok defaultRegex
  | some (.text (c :: rest)) => .ok (c :: rest)
  | some _ => .error .regex

/-- A configured root, read from a directory unless it is absolute. -/
def resolveRoot (directory root : Text) : Text :=
  if Path.isAbsolute root then root else Path.normalise (Path.join directory root)

/-- The depth down to which a settings file is looked at: a mapping of lists of texts. -/
def depth : Nat := 2

/-- The settings that the value of a file says. -/
def ofValue (path : Text) (v : Yaml.Value) : Except SettingsError Settings :=
  match v with
  | .null => .ok {}
  | .mapping _ => do
    let regex ← regexField v
    let fileExtensions ← textsField v "fileExtensions"
    let exclude ← textsField v "exclude"
    let roots ← textsField v "roots"
    return { regex, fileExtensions, exclude, roots := roots.map (resolveRoot (Path.parent path)) }
  | _ => .error .notMapping

end Settings

end Marginalia
