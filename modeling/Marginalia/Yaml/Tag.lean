/-
Marginalia.Yaml.Tag — the types of scalars and collections.

A plain scalar without a tag gets one from its text: `yes` is a truth value,
`12:30` a whole number to base sixty, `2001-01-01` a day. `Tag.ofPlain` says
which; a text that has none of these forms is text.
-/
import Marginalia.Text.Basic

namespace Marginalia.Yaml

/-- A tag with a known meaning, or any other. -/
inductive Tag where
  | null
  | bool
  | int
  | float
  | binary
  | timestamp
  | omap
  | pairs
  | set
  | str
  | seq
  | map
  | merge
  | value
  | other
  deriving Repr, DecidableEq, BEq

namespace Tag

/-- The beginning of the standard tags. -/
def standard : Text := "tag:yaml.org,2002:".toList

/-- The names of the standard tags. -/
def names : List (Text × Tag) :=
  [("null", null), ("bool", bool), ("int", int), ("float", float), ("binary", binary),
    ("timestamp", timestamp), ("omap", omap), ("pairs", pairs), ("set", set), ("str", str),
    ("seq", seq), ("map", map), ("merge", merge), ("value", value)].map
    fun entry => (standard ++ entry.1.toList, entry.2)

/-- The tag with a given text. -/
def ofText (t : Text) : Tag := (names.lookup t).getD other

/-! ## 1. Forms of plain scalars -/

/-- A text without one sign in front. -/
def dropSign : Text → Text
  | '-' :: rest => rest
  | '+' :: rest => rest
  | t => t

/-- A digit of ASCII or an underscore. -/
def isDigitOrLow (c : Char) : Bool := c.isDigit || c = '_'

/-- A digit followed by digits and underscores. -/
def isCount : Text → Bool
  | c :: rest => c.isDigit && rest.all isDigitOrLow
  | [] => false

/-- A digit to base sixty: one digit, or two of which the first is below six. -/
def isSixtieth : Text → Bool
  | [c] => c.isDigit
  | [c, d] => '0' ≤ c && c ≤ '5' && d.isDigit
  | _ => false

/-- A count followed by one or more digits to base sixty, all with colons between them. -/
def isSexagesimal (t : Text) : Bool :=
  match t.splitOn ':' with
  | first :: second :: rest => isCount first && (second :: rest).all isSixtieth
  | _ => false

/-- An exponent with its sign, or nothing. -/
def isSignedExponent : Text → Bool
  | [] => true
  | e :: sign :: c :: rest =>
    (e = 'e' || e = 'E') && (sign = '-' || sign = '+') && c.isDigit && rest.all Char.isDigit
  | _ => false

/-- A truth value. -/
def isBool (t : Text) : Bool :=
  ["yes", "Yes", "YES", "no", "No", "NO", "true", "True", "TRUE", "false", "False", "FALSE", "on",
    "On", "ON", "off", "Off", "OFF"].any (·.toList = t)

/-- The absence of a value. -/
def isNull (t : Text) : Bool := ["~", "null", "Null", "NULL", ""].any (·.toList = t)

/-- A whole number to base two, eight, ten, sixteen or sixty. -/
def isInt (t : Text) : Bool :=
  match dropSign t with
  | ['0'] => true
  | '0' :: 'b' :: c :: rest => (c :: rest).all fun x => x = '0' || x = '1' || x = '_'
  | '0' :: 'x' :: c :: rest =>
    (c :: rest).all fun x => isDigitOrLow x || ('a' ≤ x && x ≤ 'f') || ('A' ≤ x && x ≤ 'F')
  | '0' :: c :: rest => (c :: rest).all fun x => ('0' ≤ x && x ≤ '7') || x = '_'
  | t => isCount t || isSexagesimal t

/-- A real number written with digits and a point, in sixtieths, or as infinite or undefined. -/
def isFloat (t : Text) : Bool :=
  let body := dropSign t
  let whole := body.takeWhile isDigitOrLow
  let named := fun (words : List String) (t : Text) =>
    match t with
    | '.' :: rest => words.any (·.toList = rest)
    | _ => false
  let pointed :=
    match body.dropWhile isDigitOrLow with
    | '.' :: rest => isCount whole && isSignedExponent (rest.dropWhile isDigitOrLow)
    | _ => false
  let bare :=
    match t with
    | '.' :: c :: rest => c.isDigit && isSignedExponent (rest.dropWhile isDigitOrLow)
    | _ => false
  let sixtieths :=
    let front := body.takeWhile (· ≠ '.')
    match body.dropWhile (· ≠ '.') with
    | '.' :: rest => isSexagesimal front && rest.all isDigitOrLow
    | _ => false
  pointed || bare || sixtieths || named ["inf", "Inf", "INF"] body
    || named ["nan", "NaN", "NAN"] t

/-- Takes between `least` and `most` digits off a text, as many as there are. -/
def digits? (least most : Nat) (t : Text) : Option (Text × Text) :=
  let taken := (t.take most).takeWhile Char.isDigit
  if taken.length < least then none else some (taken, t.drop taken.length)

/-- Takes a character off a text. -/
def take? (c : Char) : Text → Option Text
  | d :: rest => if d = c then some rest else none
  | [] => none

/-- A space or a tab. -/
def isGap (c : Char) : Bool := c = ' ' || c = '\t'

/-- The parts of a point in time, as they are written. -/
structure TimeText where
  year : Text
  month : Text
  day : Text
  /-- The hour, the minute and the second. -/
  clock : Option (Text × Text × Text) := none
  /-- The sign, the hours and the minutes of the offset from universal time. -/
  zone : Option (Char × Text × Text) := none

/-- An offset from universal time: nothing, `Z`, or a sign with hours and perhaps minutes. -/
def zone? (t : Text) : Option (Option (Char × Text × Text)) :=
  match t.dropWhile isGap with
  | [] => if t.isEmpty then some none else none
  | ['Z'] => some none
  | sign :: rest =>
    if sign = '-' || sign = '+' then do
      let (hours, rest) ← digits? 1 2 rest
      if rest.isEmpty then return some (sign, hours, ['0'])
      let (minutes, rest) ← digits? 2 2 (← take? ':' rest)
      if rest.isEmpty then return some (sign, hours, minutes)
      none
    else none

/-- A time of day behind its separator, with an offset. -/
def clock? (time : TimeText) (t : Text) : Option TimeText := do
  let (hour, rest) ← digits? 1 2 t
  let (minute, rest) ← digits? 2 2 (← take? ':' rest)
  let (second, rest) ← digits? 2 2 (← take? ':' rest)
  let rest := match rest with
    | '.' :: more => more.dropWhile Char.isDigit
    | _ => rest
  let zone ← zone? rest
  return { time with clock := some (hour, minute, second), zone }

/-- A point in time: a day, alone or with a time of day. -/
def time? (t : Text) : Option TimeText := do
  let (year, rest) ← digits? 4 4 t
  let (month, rest) ← digits? 1 2 (← take? '-' rest)
  let (day, rest) ← digits? 1 2 (← take? '-' rest)
  let time : TimeText := { year, month, day }
  match rest with
  | [] => return time
  | c :: more =>
    if c = 'T' || c = 't' then clock? time more
    else if isGap c then clock? time (more.dropWhile isGap)
    else none

/-- A point in time as a plain scalar writes it: a day alone needs two digits for the month and
the day. -/
def isTimestamp (t : Text) : Bool :=
  match time? t with
  | none => false
  | some time => time.clock.isSome || (time.month.length = 2 && time.day.length = 2)

/-- The tag of a text that has one of the forms. -/
def formOf? (t : Text) : Option Tag :=
  if isBool t then some bool
  else if isFloat t then some float
  else if isInt t then some int
  else if t = ['<', '<'] then some merge
  else if isNull t then some null
  else if isTimestamp t then some timestamp
  else if t = ['='] then some value
  else none

/-- The tag of a plain scalar. A form may be followed by one line feed. -/
def ofPlain (t : Text) : Tag :=
  let line := if t.getLast? = some '\n' && t.length > 1 then t.dropLast else t
  ((formOf? t).orElse fun _ => formOf? line).getD str

end Tag

end Marginalia.Yaml
