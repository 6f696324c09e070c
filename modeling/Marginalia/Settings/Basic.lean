/-
Marginalia.Settings.Basic — what is scanned and what is left out.

* `Settings` holds the configured values as they were given.
* `Settings.extensions` is the list of file-name extensions in force: braces
  expanded, leading dots dropped, blank and repeated ones left out. An empty
  list means that every name passes.
* `Settings.excludePatterns` is the list of ignore patterns in force; the
  default ones stand in when none is configured.
* `Settings.regex` is read and kept, and no pass consults it.
-/
import Marginalia.Brace
import Marginalia.Ignore.Pattern

namespace Marginalia

/-- The pattern that is reported when none is configured. -/
def defaultRegex : Text := "//.*$|/\\*[\\s\\S]*?\\*/|<!--.*?-->|#.*$".toList

/-- The patterns in force when none is configured: the data of version control, installed
dependencies and what builds produce. -/
def defaultExcludes : List Text :=
  ["**/.git/**", "**/.svn/**", "**/.hg/**", "**/CVS/**", "**/node_modules/**",
    "**/bower_components/**", "**/.venv/**", "**/venv/**", "**/__pycache__/**", "**/dist/**",
    "**/build/**", "**/out/**", "**/target/**", "**/.DS_Store"].map String.toList

/-- The configured values. -/
structure Settings where
  regex : Text := defaultRegex
  fileExtensions : List Text := []
  exclude : List Text := []
  roots : List Text := []
  deriving Repr, DecidableEq, BEq

namespace Settings

/-- An extension without its leading dots. -/
def bareExtension (e : Text) : Text := e.dropWhile (· = '.')

/-- Adds an extension unless it is blank or already there. -/
def addExtension (known : List Text) (e : Text) : List Text :=
  if e.isBlankText || known.contains e then known else known ++ [e]

/-- The extensions that a list of entries stands for. -/
def normaliseExtensions (entries : List Text) : List Text :=
  ((entries.flatMap Brace.expand).map bareExtension).foldl addExtension []

/-- The extensions in force. -/
def extensions (s : Settings) : List Text := normaliseExtensions s.fileExtensions

/-- The ignore patterns in force. -/
def excludePatterns (s : Settings) : List Text :=
  (if s.exclude.isEmpty then defaultExcludes else s.exclude).flatMap Brace.expand

/-- The ignore rules in force. -/
def excludeRules (s : Settings) : Except Ignore.PatternError (List Ignore.Rule) :=
  Ignore.Rule.parseAll s.excludePatterns

/-- Values that replace configured ones. -/
structure Overrides where
  fileExtensions : Option (List Text) := none
  exclude : Option (List Text) := none
  roots : Option (List Text) := none

/-- The settings with the given values in place of the configured ones. -/
def withOverrides (s : Settings) (o : Overrides) : Settings :=
  { s with
    fileExtensions := o.fileExtensions.getD s.fileExtensions
    exclude := o.exclude.getD s.exclude
    roots := o.roots.getD s.roots }

/-- Whether a file's name passes the extensions. -/
def acceptsName (extensions : List Text) (name : Text) : Bool :=
  extensions.isEmpty || extensions.any fun e => ('.' :: e).isSuffixOf name

end Settings

end Marginalia
