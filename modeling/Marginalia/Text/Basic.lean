/-
Marginalia.Text.Basic — text as a list of code points, and the blank
characters.

Every offset, column and length in this library counts code points, so
`Text` is the list of them and a length is a list length. Text becomes a
`String` only where it enters or leaves the program.

* `isBlank` is the Unicode white-space property together with the four
  information separators U+001C–U+001F. It is wider than
  `Char.isWhitespace`, which knows six ASCII characters.
* `trimStart`, `trimEnd` and `trim` remove blank characters at the ends.
* `cutEnd` is the cut used by labels: a negative length counts from the end.
-/

namespace Marginalia

/-- A text is the list of its code points. -/
abbrev Text := List Char

/-- Whether a code point lies in one of the closed ranges of a table. -/
def inRanges (table : List (Nat × Nat)) (c : Char) : Bool :=
  table.any fun r => r.1 ≤ c.toNat && c.toNat ≤ r.2

/-- The closed ranges of blank code points. -/
def blankRanges : List (Nat × Nat) :=
  [(0x09, 0x0D), (0x1C, 0x20), (0x85, 0x85), (0xA0, 0xA0), (0x1680, 0x1680), (0x2000, 0x200A),
   (0x2028, 0x2029), (0x202F, 0x202F), (0x205F, 0x205F), (0x3000, 0x3000)]

/-- A blank character: white space of any script, or an information separator. -/
def isBlank (c : Char) : Bool := inRanges blankRanges c

namespace Text

/-- The text without its leading blank characters. -/
def trimStart (t : Text) : Text := t.dropWhile isBlank

/-- The text without its trailing characters that satisfy `p`. -/
def dropEndWhile (p : Char → Bool) (t : Text) : Text := (t.reverse.dropWhile p).reverse

/-- The text without its trailing blank characters. -/
def trimEnd (t : Text) : Text := t.dropEndWhile isBlank

/-- The text without blank characters at either end. -/
def trim (t : Text) : Text := (trimStart t).trimEnd

/-- Whether nothing but blank characters is left. -/
def isBlankText (t : Text) : Bool := t.all isBlank

/-- The first `n` characters; a negative `n` leaves out the last `-n`. -/
def cutEnd (n : Int) (t : Text) : Text :=
  if n < 0 then t.take (t.length - n.natAbs) else t.take n.toNat

/-- The lines or fields of a text, joined by a separator. -/
def join (separator : Text) (parts : List Text) : Text := separator.intercalate parts

/-- Whether `piece` occurs somewhere in the text. -/
def occursIn (piece : Text) : Text → Bool
  | [] => piece.isEmpty
  | c :: rest => piece.isPrefixOf (c :: rest) || occursIn piece rest

/-- A natural number in decimal. -/
def ofNat (n : Nat) : Text := Nat.toDigits 10 n

/-- An integer in decimal, with a minus sign when it is negative. -/
def ofInt (n : Int) : Text :=
  if n < 0 then '-' :: ofNat n.natAbs else ofNat n.natAbs

end Text

/-- The order of code points, compared left to right; a text comes before its extensions. -/
def codePointLe : Text → Text → Bool
  | [], _ => true
  | _ :: _, [] => false
  | a :: as, b :: bs =>
    if a = b then codePointLe as bs else a.toNat < b.toNat

end Marginalia
