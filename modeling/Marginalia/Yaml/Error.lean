/-
Marginalia.Yaml.Error — what can be wrong with a YAML document.

Everything that breaks the rules of the format is one cause. A document that
keeps them can still hold a scalar that its tag cannot read: a number that is
none, a day that no month has, a character that does not exist. Those causes
are kept apart, because they are reported in their own words.
-/
import Marginalia.Text.Digit
import Marginalia.Text.Quoted

namespace Marginalia.Yaml

/-- Why the text of a scalar has no value of its tag. -/
inductive ScalarError where
  /-- Not a whole number. -/
  | integer (refusal : Number.Refusal)
  /-- Not a real number. -/
  | real (text : Text)
  /-- A number without any text. -/
  | emptyNumber
  /-- Not a truth value. -/
  | boolean (text : Text)
  /-- Not a point in time. -/
  | notTime
  | year (value : Nat)
  | month
  | day
  | hour
  | minute
  | second
  /-- An offset from universal time of a day or more, in whole days and seconds. -/
  | zone (days : Int) (seconds : Nat)
  deriving Repr, DecidableEq

/-- The longest quotation of a text that is not a number. -/
def quotationLimit : Nat := 200

/-- The wording of a refused whole number. -/
def refusalMessage : Number.Refusal → Text
  | .malformed base text =>
    "invalid literal for int() with base ".toList ++ Text.ofNat base ++ ": ".toList
      ++ text.quoted.take quotationLimit
  | .tooLong digits =>
    "Exceeds the limit (".toList ++ Text.ofNat Number.maxDigits
      ++ " digits) for integer string conversion: value has ".toList ++ Text.ofNat digits
      ++ " digits; use sys.set_int_max_str_digits() to increase the limit".toList

/-- How a length of time is shown. -/
def showSpan (days : Int) (seconds : Nat) : Text :=
  "datetime.timedelta(days=".toList ++ Text.ofInt days
    ++ (if seconds = 0 then [] else ", seconds=".toList ++ Text.ofNat seconds) ++ ")".toList

/-- The wording of a scalar error. -/
def ScalarError.message : ScalarError → Text
  | .integer refusal => refusalMessage refusal
  | .real text => "could not convert string to float: ".toList ++ text.quoted
  | .emptyNumber => "string index out of range".toList
  | .boolean text => text.quoted
  | .notTime => "'NoneType' object has no attribute 'groupdict'".toList
  | .year value => "year ".toList ++ Text.ofNat value ++ " is out of range".toList
  | .month => "month must be in 1..12".toList
  | .day => "day is out of range for month".toList
  | .hour => "hour must be in 0..23".toList
  | .minute => "minute must be in 0..59".toList
  | .second => "second must be in 0..59".toList
  | .zone days seconds =>
    ("offset must be a timedelta strictly between -timedelta(hours=24) and "
      ++ "timedelta(hours=24), not ").toList ++ showSpan days seconds ++ ".".toList

/-- Whether the text is a wrong value of its tag, rather than no value of any kind. -/
def ScalarError.isInvalid : ScalarError → Bool
  | .emptyNumber | .boolean _ | .notTime => false
  | _ => true

/-- What is wrong with a document. -/
inductive Error where
  /-- The text breaks the rules of the format. -/
  | malformed
  /-- A quoted scalar names a character that does not exist. -/
  | noSuchCharacter (code : Nat)
  /-- A scalar has no value of its tag. -/
  | scalar (error : ScalarError)
  deriving Repr, DecidableEq

/-- From this code on, a character is not even looked for. -/
def codeLimit : Nat := 0x80000000

/-- The wording for a character that does not exist. -/
def characterMessage (code : Nat) : Text :=
  if code < codeLimit then "chr() arg not in range(0x110000)".toList
  else "Python int too large to convert to C int".toList

end Marginalia.Yaml
