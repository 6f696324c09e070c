/-
Marginalia.Options.Read — options from the words of a command line.

A word that begins with a dash may be an option:

* a long spelling or the beginning of exactly one, perhaps with `=` and a
  value behind it;
* a short spelling with a value or further short options behind it.

Numbers below zero and words with a blank that are none of these are plain
words, as are all words behind the first end marker `--`.

`Reading.group` cuts the words at the options, so that each option stands with
the plain words behind it. An option takes its values from those words, from
the front, and not beyond the end marker. The first words that are left over
somewhere are the roots; words left over elsewhere belong to nothing. Errors
are found from left to right, ambiguous words before all others and words that
belong to nothing last.
-/
import Marginalia.Options.Basic
import Marginalia.Text.Digit

namespace Marginalia.Reading

/-- The word behind which no word is an option. -/
def endMarker : Text := ['-', '-']

/-! ## 1. Words -/

/-- A word that is no plain one. -/
inductive Lead where
  /-- A long spelling, with the value behind its equals sign. -/
  | long (option : OptionName) (value : Option Text)
  /-- A short spelling, with what stands directly behind it. -/
  | short (option : OptionName) (letters : Text)
  /-- A word that looks like an option but is none. -/
  | unknown (word : Text)
  deriving Repr, DecidableEq

/-- The parts of a word before and behind its first equals sign. -/
def splitEquals (word : Text) : Text × Option Text :=
  match word.dropWhile (· ≠ '=') with
  | [] => (word, none)
  | _ :: value => (word.takeWhile (· ≠ '='), some value)

/-- Whether a word is a number below zero, a line feed at its end aside: a dash and digits, perhaps
with a point before the last ones. -/
def isNegativeNumber (word : Text) : Bool :=
  let isDigit := fun c => (digitValue? c).isSome
  let body := (if word.getLast? = some '\n' then word.dropLast else word).drop 1
  match body.dropWhile isDigit with
  | [] => !body.isEmpty
  | '.' :: rest => !rest.isEmpty && rest.all isDigit
  | _ => false

/-- A word that begins with a dash and is no option. -/
def readOther (word : Text) : Option Lead :=
  if isNegativeNumber word || word.contains ' ' then none else some (.unknown word)

/-- A word that begins with two dashes. -/
def readLong (word : Text) : Except UsageError (Option Lead) :=
  let (start, value) := splitEquals word
  match OptionName.ofSpelling? start with
  | some option => .ok (some (.long option value))
  | none =>
    match OptionName.spellings.filter fun s => start.isPrefixOf s.1 with
    | [] => .ok (readOther word)
    | [(_, option)] => .ok (some (.long option value))
    | several => .error (.ambiguous word (several.map (·.1)))

/-- What a word is; nothing for a plain one. -/
def readWord (word : Text) : Except UsageError (Option Lead) :=
  match word with
  | '-' :: '-' :: _ => readLong word
  | '-' :: c :: letters =>
    match OptionName.ofSpelling? ['-', c] with
    | some option => .ok (some (.short option letters))
    | none => .ok (readOther word)
  | _ => .ok none

/-- The plain words in front, and each option with the plain words behind it. -/
def group : List Text → Except UsageError (List Text × List (Lead × List Text))
  | [] => .ok ([], [])
  | word :: rest =>
    if word = endMarker then .ok (word :: rest, [])
    else do
      let lead ← readWord word
      let (plain, groups) ← group rest
      match lead with
      | none => return (word :: plain, groups)
      | some lead => return ([], (lead, plain) :: groups)

/-! ## 2. Values -/

/-- An option with its values. -/
structure Use where
  option : OptionName
  values : List Text
  deriving Repr, DecidableEq

/-- What an option makes of itself and of the plain words behind it: options with their values, the
words that are left, and words that belong to nothing. -/
structure Taken where
  uses : List Use
  rest : List Text
  stray : List Text := []
  deriving Repr, DecidableEq

/-- An option takes its values from the words behind it. -/
def takeValues (option : OptionName) (words : List Text) : Except UsageError Taken :=
  match option.arity with
  | .none => .ok ⟨[⟨option, []⟩], words, []⟩
  | .one =>
    match words with
    | [] => .error (.noValue option)
    | value :: rest =>
      if value = endMarker then .error (.noValue option) else .ok ⟨[⟨option, [value]⟩], rest, []⟩
  | .many =>
    .ok ⟨[⟨option, words.takeWhile (· ≠ endMarker)⟩], words.dropWhile (· ≠ endMarker), []⟩

/-- An option takes the value that is attached to it. -/
def takeValue (option : OptionName) (value : Text) (words : List Text) : Except UsageError Taken :=
  if option.arity = .none then .error (.extraValue option value)
  else .ok ⟨[⟨option, [value]⟩], words, []⟩

/-- A short option takes what stands directly behind it: its value, with or without an equals sign,
or, if it has none, further short options. Letters of which the first is no option belong to
nothing. -/
def takeLetters (option : OptionName) (words : List Text) : Text → Except UsageError Taken
  | [] => takeValues option words
  | '=' :: value => takeValue option value words
  | c :: rest =>
    if option.arity ≠ .none ∨ c = '-' then takeValue option (c :: rest) words
    else
      match OptionName.ofSpelling? ['-', c] with
      | none => .ok ⟨[⟨option, []⟩], words, ['-' :: c :: rest]⟩
      | some next => do
        let taken ← takeLetters next words rest
        return { taken with uses := ⟨option, []⟩ :: taken.uses }

/-- What a word makes of itself and of the plain words behind it. -/
def Lead.take (words : List Text) : Lead → Except UsageError Taken
  | .long option none => takeValues option words
  | .long option (some value) => takeValue option value words
  | .short option letters => takeLetters option words letters
  | .unknown word => .ok ⟨[], words, [word]⟩

/-- Why options are not read to the end. -/
inductive Stop where
  /-- The command line asks for help. -/
  | help
  | usage (e : UsageError)
  deriving Repr, DecidableEq

/-- Reads a value as a whole number. -/
def number (option : OptionName) (value : Text) : Except Stop Int :=
  match Number.readInt 10 value with
  | .ok n => .ok n
  | .error _ => .error (.usage (.notNumber option value))

/-- Reads a value as a threshold. -/
def threshold (option : OptionName) (value : Text) : Except Stop Threshold :=
  match Threshold.ofName? value with
  | some t => .ok t
  | none => .error (.usage (.notChoice option value))

/-- The options after one more; what is given last stays. -/
def apply (o : Options) (use : Use) : Except Stop Options :=
  let value := use.values.headD []
  match use.option with
  | .help => .error .help
  | .config => .ok { o with config := value }
  | .ext => .ok { o with ext := some use.values }
  | .exclude => .ok { o with exclude := some use.values }
  | .json => .ok { o with json := true }
  | .checkExclusions => .ok { o with checkExclusions := true }
  | .workers => do return { o with workers := ← number .workers value }
  | .maxFiles => do return { o with maxFiles := ← number .maxFiles value }
  | .verbose => .ok { o with verbose := true }
  | .logLevel => do return { o with logLevel := some (← threshold .logLevel value) }

/-! ## 3. The whole line -/

/-- What is read so far. -/
structure State where
  options : Options := {}
  /-- Whether the roots are read. -/
  rootsRead : Bool := false
  /-- The words that belong to nothing. -/
  stray : List Text := []

/-- Settles plain words that are left over: they are the roots, without the end marker, unless these
are read already. -/
def State.settle (s : State) (words : List Text) : State :=
  if words.isEmpty then s
  else if s.rootsRead then { s with stray := s.stray ++ words }
  else { s with options.roots := words.erase endMarker, rootsRead := true }

/-- Reads an option with the plain words behind it. -/
def State.read (s : State) (lead : Lead) (words : List Text) : Except Stop State := do
  let taken ← (lead.take words).mapError .usage
  let options ← taken.uses.foldlM apply s.options
  return { s with options, stray := s.stray ++ taken.stray }.settle taken.rest

end Reading

open Reading in
/-- The options that the words of a command line say. -/
def Options.read (words : List Text) : Except Stop Options := do
  let (plain, groups) ← (group words).mapError .usage
  let s ← groups.foldlM (fun s (lead, words) => s.read lead words) (State.settle {} plain)
  if s.stray.isEmpty then return s.options else throw (.usage (.unrecognised s.stray))

end Marginalia
