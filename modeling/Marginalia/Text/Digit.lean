/-
Marginalia.Text.Digit — decimal digits and whole numbers.

Every script's decimal digits are ten consecutive code points, so the table
holds the zeros only (Unicode 14).

A whole number is written with an optional sign and digits of any script;
single underscores may separate the digits, and blank characters around it do
not count. The four information separators U+001C–U+001F are blank in text but
not around a number.
-/
import Marginalia.Text.Basic

namespace Marginalia

/-- The zeros of all scripts that have decimal digits. -/
def zeroCodes : List Nat :=
  [0x30, 0x660, 0x6F0, 0x7C0, 0x966, 0x9E6, 0xA66, 0xAE6, 0xB66, 0xBE6, 0xC66, 0xCE6, 0xD66,
   0xDE6, 0xE50, 0xED0, 0xF20, 0x1040, 0x1090, 0x17E0, 0x1810, 0x1946, 0x19D0, 0x1A80, 0x1A90,
   0x1B50, 0x1BB0, 0x1C40, 0x1C50, 0xA620, 0xA8D0, 0xA900, 0xA9D0, 0xA9F0, 0xAA50, 0xABF0,
   0xFF10, 0x104A0, 0x10D30, 0x11066, 0x110F0, 0x11136, 0x111D0, 0x112F0, 0x11450, 0x114D0,
   0x11650, 0x116C0, 0x11730, 0x118E0, 0x11950, 0x11C50, 0x11D50, 0x11DA0, 0x16A60, 0x16AC0,
   0x16B50, 0x1D7CE, 0x1D7D8, 0x1D7E2, 0x1D7EC, 0x1D7F6, 0x1E140, 0x1E2F0, 0x1E950, 0x1FBF0]

/-- The value of a decimal digit of any script. -/
def digitValue? (c : Char) : Option Nat :=
  (zeroCodes.find? fun z => z ≤ c.toNat && c.toNat ≤ z + 9).map (c.toNat - ·)

/-- A character that may surround a number. -/
def isNumberBlank (c : Char) : Bool := isBlank c && !inRanges [(0x1C, 0x1F)] c

namespace Number

/-- A text without the blank characters around a number. -/
def strip (t : Text) : Text := Text.dropEndWhile isNumberBlank (t.dropWhile isNumberBlank)

/-- A digit below a base of at most sixteen; beyond nine the digits are ASCII letters. -/
def digitBelow? (base : Nat) (c : Char) : Option Nat :=
  let value :=
    match digitValue? c with
    | some v => some v
    | none =>
      if 'a' ≤ c ∧ c ≤ 'f' then some (c.toNat - 'a'.toNat + 10)
      else if 'A' ≤ c ∧ c ≤ 'F' then some (c.toNat - 'A'.toNat + 10)
      else none
  value.filter (· < base)

/-- Digits, single underscores between them. `fresh` says that a digit has to follow. -/
def digits? (base : Nat) (acc : List Nat) (fresh : Bool) : Text → Option (List Nat)
  | [] => if fresh then none else some acc.reverse
  | '_' :: rest => if fresh then none else digits? base acc true rest
  | c :: rest => (digitBelow? base c).bind fun v => digits? base (v :: acc) false rest

/-- The number that a list of digits writes, the first digit being the greatest. -/
def ofDigits (base : Nat) (digits : List Nat) : Nat := digits.foldl (fun n d => n * base + d) 0

/-- The sign of a number and what follows it. -/
def splitSign : Text → Bool × Text
  | '-' :: rest => (true, rest)
  | '+' :: rest => (false, rest)
  | t => (false, t)

/-- The letter that marks a base in front of the digits. -/
def baseLetter? : Nat → Option Char
  | 2 => some 'b'
  | 8 => some 'o'
  | 16 => some 'x'
  | _ => none

/-- The digits after an optional base mark such as `0x`; an underscore may follow the mark. -/
def dropBaseMark (base : Nat) (t : Text) : Text :=
  match baseLetter? base, t with
  | some letter, '0' :: c :: rest =>
    if c.toLower = letter then (match rest with | '_' :: more => more | _ => rest) else t
  | _, _ => t

/-- The greatest number of decimal digits that is read. -/
def maxDigits : Nat := 4300

/-- A text that is not read as a whole number. -/
inductive Refusal where
  /-- It is not a number of this base. -/
  | malformed (base : Nat) (text : Text)
  /-- It has more decimal digits than are read. -/
  | tooLong (digits : Nat)
  deriving Repr, DecidableEq

/-- Reads a whole number of a base between two and sixteen. -/
def readInt (base : Nat) (text : Text) : Except Refusal Int :=
  let (negative, body) := splitSign (strip text)
  match digits? base [] true (dropBaseMark base body) with
  | none => .error (.malformed base text)
  | some digits =>
    if base = 10 ∧ digits.length > maxDigits then .error (.tooLong digits.length)
    else
      let n : Int := ofDigits base digits
      .ok (if negative then -n else n)

/-- One or more digits with single underscores between them; what is left of the text. -/
def digitRun? : Text → Option Text
  | c :: rest => (digitValue? c).map fun _ => more rest
  | [] => none
where
  more : Text → Text
    | [] => []
    | '_' :: c :: rest => if (digitValue? c).isSome then more rest else '_' :: c :: rest
    | c :: rest => if (digitValue? c).isSome then more rest else c :: rest

/-- Whether what is left of a number is an exponent or nothing. -/
def isExponent : Text → Bool
  | [] => true
  | c :: rest => (c = 'e' || c = 'E') && digitRun? (splitSign rest).2 = some []

/-- Whether a text without sign is a decimal number: digits, a point, an exponent, at least one
digit before the exponent. -/
def isUnsignedDecimal (t : Text) : Bool :=
  match digitRun? t with
  | some ('.' :: rest) => isExponent ((digitRun? rest).getD rest)
  | some rest => isExponent rest
  | none =>
    match t with
    | '.' :: rest => (digitRun? rest).any isExponent
    | _ => false

/-- The names of the numbers that are not finite, in lower case. -/
def namedReals : List Text := ["inf", "infinity", "nan"].map String.toList

/-- Whether a text writes a real number. -/
def isReal (text : Text) : Bool :=
  let body := (splitSign (strip text)).2
  isUnsignedDecimal body || namedReals.contains (body.map Char.toLower)

end Number

end Marginalia
