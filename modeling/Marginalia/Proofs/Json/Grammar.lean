/-
Marginalia.Proofs.Json.Grammar — which texts write a document.

`Json.Writes` is the grammar of the format for documents of texts, integers,
arrays and objects, said without a reader or a writer: spaces are allowed
wherever the format allows them, a character of a text may stand for itself or
be escaped in any of the ways that the format knows, an integer has no leading
zeros. `Json.IsDocument` adds the spaces around a whole document.

What `Json.render` makes of a document is one of the texts that write it
(`Json.isDocument_render`).
-/
import Mathlib.Data.List.Forall2
import Marginalia.Json

namespace Marginalia.Json

/-! ## 1. Texts -/

/-- The letters behind a backslash, each with what it stands for. -/
def escapes : List (Char × Char) :=
  [('"', '"'), ('\\', '\\'), ('/', '/'), ('b', '\x08'), ('f', '\x0C'), ('n', '\n'), ('r', '\r'),
    ('t', '\t')]

/-- The value of a hexadecimal digit in either case. -/
def hexValue? (c : Char) : Option Nat :=
  if '0' ≤ c ∧ c ≤ '9' then some (c.toNat - '0'.toNat)
  else if 'a' ≤ c ∧ c ≤ 'f' then some (c.toNat - 'a'.toNat + 10)
  else if 'A' ≤ c ∧ c ≤ 'F' then some (c.toNat - 'A'.toNat + 10)
  else none

/-- The number that four hexadecimal digits write. -/
def code? : Text → Option Nat
  | [a, b, c, d] => do
    let w ← hexValue? a
    let x ← hexValue? b
    let y ← hexValue? c
    let z ← hexValue? d
    return ((w * 16 + x) * 16 + y) * 16 + z
  | _ => none

/-- Whether a code is the first half of a pair. -/
def IsHigh (code : Nat) : Prop := 0xD800 ≤ code ∧ code < 0xDC00

/-- Whether a code is the second half of a pair. -/
def IsLow (code : Nat) : Prop := 0xDC00 ≤ code ∧ code < 0xE000

instance : DecidablePred IsHigh := fun _ => inferInstanceAs (Decidable (_ ∧ _))

instance : DecidablePred IsLow := fun _ => inferInstanceAs (Decidable (_ ∧ _))

/-- The code that a pair stands for. -/
def pairCode (high low : Nat) : Nat := 0x10000 + (high - 0xD800) * 0x400 + (low - 0xDC00)

/-- What may stand for a character between quotation marks. -/
inductive WritesChar : Char → Text → Prop
  | plain {c : Char} (hcontrol : 0x20 ≤ c.toNat) (hquote : c ≠ '"') (hbackslash : c ≠ '\\') :
    WritesChar c [c]
  | letter {c letter : Char} (h : (letter, c) ∈ escapes) : WritesChar c ['\\', letter]
  | code {c : Char} {digits : Text} (h : code? digits = some c.toNat) :
    WritesChar c ('\\' :: 'u' :: digits)
  | pair {c : Char} {first second : Text} {high low : Nat} (hfirst : code? first = some high)
    (hsecond : code? second = some low) (hhigh : IsHigh high) (hlow : IsLow low)
    (h : c.toNat = pairCode high low) :
    WritesChar c ('\\' :: 'u' :: first ++ '\\' :: 'u' :: second)

/-- What may stand for a text between quotation marks. -/
inductive WritesChars : Text → Text → Prop
  | nil : WritesChars [] []
  | cons {c : Char} {t own others : Text} (hown : WritesChar c own) (hothers : WritesChars t others) :
    WritesChars (c :: t) (own ++ others)

/-- The ways to write a text. -/
def WritesText (t written : Text) : Prop := ∃ chars, WritesChars t chars ∧ written = '"' :: chars ++ ['"']

/-! ## 2. Integers -/

/-- Whether digits write a number without leading zeros. -/
structure IsNumeral (digits : Text) (n : Nat) : Prop where
  ne_nil : digits ≠ []
  isDigit : ∀ c ∈ digits, c.isDigit = true
  canonical : digits.head? = some '0' → digits = ['0']
  value : Nat.ofDigitChars 10 digits 0 = n

/-- The ways to write an integer. -/
inductive WritesInteger : Int → Text → Prop
  | positive {n : Nat} {digits : Text} (h : IsNumeral digits n) : WritesInteger n digits
  | negative {n : Nat} {digits : Text} (h : IsNumeral digits n) : WritesInteger (-n) ('-' :: digits)

/-! ## 3. Documents -/

/-- A character that may stand between the parts of a document. -/
def isSpace (c : Char) : Bool := c = ' ' || c = '\t' || c = '\n' || c = '\r'

/-- Whether a text is made of such characters. -/
def Spaces (t : Text) : Prop := ∀ c ∈ t, isSpace c = true

/-- Whether a text is another one with spaces around it. -/
def Padded (own t : Text) : Prop :=
  ∃ before after, Spaces before ∧ Spaces after ∧ t = before ++ own ++ after

/-- Whether a text is some texts with spaces around them and commas between. -/
inductive Separated : List Text → Text → Prop
  | nil {t : Text} (h : Spaces t) : Separated [] t
  | last {own t : Text} (h : Padded own t) : Separated [own] t
  | cons {own t next : Text} {texts : List Text} {others : Text} (h : Padded own t)
    (hothers : Separated (next :: texts) others) : Separated (own :: next :: texts) (t ++ ',' :: others)

mutual

/-- The ways to write a document. -/
inductive Writes : Json → Text → Prop
  | text {t written : Text} (h : WritesText t written) : Writes (.text t) written
  | integer {n : Int} {written : Text} (h : WritesInteger n written) : Writes (.integer n) written
  | array {items : List Json} {texts : List Text} {inner : Text}
    (hitems : List.Forall₂ Writes items texts) (hinner : Separated texts inner) :
    Writes (.array items) ('[' :: inner ++ [']'])
  | object {fields : List (Text × Json)} {texts : List Text} {inner : Text}
    (hfields : List.Forall₂ WritesField fields texts) (hinner : Separated texts inner) :
    Writes (.object fields) ('{' :: inner ++ ['}'])

/-- The ways to write a field. -/
inductive WritesField : Text × Json → Text → Prop
  | intro {name key colon own : Text} {value : Json} (hname : WritesText name key)
    (hcolon : Padded [':'] colon) (hvalue : Writes value own) :
    WritesField (name, value) (key ++ colon ++ own)

end

/-- Whether a text writes a document, spaces around it allowed. -/
def IsDocument (j : Json) (t : Text) : Prop := ∃ own, Writes j own ∧ Padded own t

/-! ## 4. What is rendered -/

theorem code?_hexDigits {n : Nat} (h : n < 0x20) : code? (Quoted.hexDigits 4 n) = some n := by
  have hall : ∀ n < 0x20, code? (Quoted.hexDigits 4 n) = some n := by decide +kernel
  exact hall n h

theorem mem_escapes_of_mem_escapeLetters : ∀ e ∈ escapeLetters, (e.2, e.1) ∈ escapes := by decide

/-- A character is written as itself, by a letter, or by its code. -/
theorem writesChar_encodeChar (c : Char) : WritesChar c (encodeChar c) := by
  unfold encodeChar
  split
  next letter hlookup =>
    obtain ⟨before, after, hletters, -⟩ := List.lookup_eq_some_iff.mp hlookup
    have hmem : (c, letter) ∈ escapeLetters := by rw [hletters]; simp
    exact .letter (mem_escapes_of_mem_escapeLetters _ hmem)
  next hlookup =>
    split
    next hcontrol => exact .code (code?_hexDigits hcontrol)
    next hcontrol =>
      refine .plain (Nat.le_of_not_lt hcontrol) ?_ ?_
      · rintro rfl
        cases hlookup
      · rintro rfl
        cases hlookup

theorem writesChars_flatMap : ∀ t : Text, WritesChars t (t.flatMap encodeChar)
  | [] => .nil
  | c :: rest => by
      rw [List.flatMap_cons]
      exact .cons (writesChar_encodeChar c) (writesChars_flatMap rest)

theorem writesText_encodeText (t : Text) : WritesText t (encodeText t) :=
  ⟨_, writesChars_flatMap t, rfl⟩

/-- The decimal digits of a number begin with a zero only if that is all. -/
theorem head?_toDigits {n : Nat} (hn : 0 < n) : (Nat.toDigits 10 n).head? ≠ some '0' := by
  induction n using Nat.strongRecOn with
  | ind n ih =>
    by_cases hbase : n < 10
    · have hdigits : ∀ n < 10, 0 < n → n.digitChar ≠ '0' := by decide
      rw [Nat.toDigits_of_lt_base hbase]
      simpa using hdigits n hbase hn
    · have hrest := ih (n / 10) (by omega) (by omega)
      rw [Nat.toDigits_of_base_le (by omega) (by omega),
        List.head?_append_of_ne_nil _ Nat.toDigits_ne_nil]
      exact hrest

theorem isNumeral_ofNat (n : Nat) : IsNumeral (Text.ofNat n) n where
  ne_nil := Nat.toDigits_ne_nil
  isDigit _ := Nat.isDigit_of_mem_toDigits (by omega) (by omega)
  canonical h := by
    rcases Nat.eq_zero_or_pos n with rfl | hn
    · rfl
    · exact absurd h (head?_toDigits hn)
  value := Nat.ofDigitChars_ten_toDigits

theorem writesInteger_ofInt (n : Int) : WritesInteger n (Text.ofInt n) := by
  unfold Text.ofInt
  split
  next hn =>
    have hneg : n = -(n.natAbs : Int) := by omega
    have hnumeral := isNumeral_ofNat n.natAbs
    generalize n.natAbs = m at *
    subst hneg
    exact .negative hnumeral
  next hn =>
    have hpos : n = (n.natAbs : Int) := by omega
    have hnumeral := isNumeral_ofNat n.natAbs
    generalize n.natAbs = m at *
    subst hpos
    exact .positive hnumeral

theorem spaces_nil : Spaces [] := fun _ h => absurd h List.not_mem_nil

theorem spaces_lineStart (depth : Nat) : Spaces (lineStart depth) := by
  intro c hc
  rcases List.mem_cons.mp hc with rfl | hc
  · rfl
  · rw [List.eq_of_mem_replicate hc]
    rfl

theorem padded_self (own : Text) : Padded own own :=
  ⟨[], [], spaces_nil, spaces_nil, by simp⟩

/-- Texts on lines of their own. -/
theorem separated_join {start stop : Text} (hstart : Spaces start) (hstop : Spaces stop) :
    ∀ {texts : List Text}, texts ≠ [] →
      Separated texts (start ++ Text.join (',' :: start) texts ++ stop)
  | [], hne => absurd rfl hne
  | [own], _ => by
      have hjoin : Text.join (',' :: start) [own] = own := by simp [Text.join]
      rw [hjoin]
      exact .last ⟨start, stop, hstart, hstop, rfl⟩
  | own :: next :: rest, _ => by
      have hrest := separated_join hstart hstop (List.cons_ne_nil next rest)
      have hjoin : start ++ Text.join (',' :: start) (own :: next :: rest) ++ stop
          = (start ++ own) ++ ',' :: (start ++ Text.join (',' :: start) (next :: rest) ++ stop) := by
        simp [Text.join, List.intercalate_cons_cons]
      rw [hjoin]
      exact .cons ⟨start, [], hstart, spaces_nil, by simp⟩ hrest

theorem separated_bracketed (opening closing : Char) (depth : Nat) (texts : List Text) :
    ∃ inner, Separated texts inner ∧
      bracketed opening closing depth texts = opening :: inner ++ [closing] := by
  by_cases htexts : texts = []
  · subst htexts
    exact ⟨[], .nil spaces_nil, rfl⟩
  · refine ⟨_, separated_join (spaces_lineStart (depth + 1)) (spaces_lineStart depth) htexts, ?_⟩
    rw [bracketed, if_neg (by simpa using htexts)]
    simp only [List.append_assoc, List.cons_append]

mutual

theorem writes_renderAt (depth : Nat) : ∀ j : Json, Writes j (renderAt depth j)
  | .text t => .text (writesText_encodeText t)
  | .integer n => .integer (writesInteger_ofInt n)
  | .array items => by
      obtain ⟨inner, hinner, heq⟩ :=
        separated_bracketed '[' ']' depth (renderItems (depth + 1) items)
      rw [renderAt, heq]
      exact .array (writes_renderItems (depth + 1) items) hinner
  | .object fields => by
      obtain ⟨inner, hinner, heq⟩ :=
        separated_bracketed '{' '}' depth (renderFields (depth + 1) fields)
      rw [renderAt, heq]
      exact .object (writes_renderFields (depth + 1) fields) hinner

theorem writes_renderItems (depth : Nat) : ∀ items : List Json,
    List.Forall₂ Writes items (renderItems depth items)
  | [] => .nil
  | item :: rest => .cons (writes_renderAt depth item) (writes_renderItems depth rest)

theorem writes_renderFields (depth : Nat) : ∀ fields : List (Text × Json),
    List.Forall₂ WritesField fields (renderFields depth fields)
  | [] => .nil
  | (name, value) :: rest => by
      have hcolon : Padded [':'] [':', ' '] := ⟨[], [' '], spaces_nil, by simp [Spaces, isSpace], rfl⟩
      exact .cons (.intro (writesText_encodeText name) hcolon (writes_renderAt depth value))
        (writes_renderFields depth rest)

end

/-- **What is rendered is a text of the format that writes the document.** -/
theorem isDocument_render (j : Json) : IsDocument j j.render :=
  ⟨j.render, writes_renderAt 0 j, padded_self _⟩

end Marginalia.Json
