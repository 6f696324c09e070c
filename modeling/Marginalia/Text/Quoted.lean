/-
Marginalia.Text.Quoted — text in quotation marks, as messages show it.

A quotation stands in single quotation marks, or in double ones if the text
holds a single mark and no double mark. The enclosing mark and the backslash
are preceded by a backslash; tab, line feed and carriage return have their
letters; any other character that is not printable is written as its code in
two, four or eight lower-case hexadecimal digits.
-/
import Marginalia.Text.Printable

namespace Marginalia.Quoted

/-- The last `width` hexadecimal digits of a number. -/
def hexDigits (width n : Nat) : Text :=
  let digits := Nat.toDigits 16 n
  List.replicate (width - digits.length) '0' ++ digits

/-- The mark that encloses a quotation of the text. -/
def markFor (t : Text) : Char :=
  if t.contains '\'' && !t.contains '"' then '"' else '\''

/-- One character inside a quotation. -/
def encodeChar (mark c : Char) : Text :=
  if c = mark ∨ c = '\\' then ['\\', c]
  else if c = '\t' then ['\\', 't']
  else if c = '\n' then ['\\', 'n']
  else if c = '\r' then ['\\', 'r']
  else if isPrintable c then [c]
  else if c.toNat < 0x100 then '\\' :: 'x' :: hexDigits 2 c.toNat
  else if c.toNat < 0x10000 then '\\' :: 'u' :: hexDigits 4 c.toNat
  else '\\' :: 'U' :: hexDigits 8 c.toNat

/-- The quotation of a text. -/
def encode (t : Text) : Text :=
  let mark := markFor t
  mark :: t.flatMap (encodeChar mark) ++ [mark]

end Marginalia.Quoted

namespace Marginalia

/-- The text in quotation marks. -/
def Text.quoted (t : Text) : Text := Quoted.encode t

end Marginalia
